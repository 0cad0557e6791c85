/-! # Bytes of text -/

/-- The bytes of an ASCII string. -/
def String.asciiBytes (s : String) : List UInt8 := s.toList.map Char.toUInt8

/-- The UTF-16 code units of an ASCII string. -/
def String.asciiUnits (s : String) : List UInt16 := s.toList.map fun c => c.toNat.toUInt16
