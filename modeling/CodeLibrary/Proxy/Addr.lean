import CodeLibrary.Lib.Scanf

/-!
# Addresses in `proxy.c`

`inet_ultoa` prints an address as a dotted quad, and `inet_atoul` reads one with `sscanf`. A string
is the list of its bytes before the terminating NUL.
-/

namespace Proxy

open Scanf

/-- `'.'` -/
abbrev dot : UInt8 := 46

/-- `inet_ultoa` -/
def inetUltoa (u : UInt32) : List UInt8 :=
  decimal ((u >>> 24) &&& 0xff).toNat ++ dot :: (decimal ((u >>> 16) &&& 0xff).toNat ++
    dot :: (decimal ((u >>> 8) &&& 0xff).toNat ++ dot :: decimal (u &&& 0xff).toNat))

/-- `"%d.%d.%d.%d"` -/
def quadFormat : List Directive :=
  [.int, .char dot, .int, .char dot, .int, .char dot, .int]

/-- `inet_atoul` -/
def inetAtoul (wide : Int → Int) (s : List UInt8) : UInt32 :=
  let u := sscanf wide quadFormat s
  if u.length = 4 then u.foldl (fun rv n => (rv <<< 8) ||| UInt32.ofNat (n % 256).toNat) 0
  else 0xffffffff

end Proxy
