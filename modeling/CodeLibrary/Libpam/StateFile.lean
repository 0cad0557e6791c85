import CodeLibrary.Lib.Bytes

/-!
# The options of the state file, `get_cfg_value` and `set_cfg_value`

The buffer that holds the state file, up to its NUL, is the list of its bytes. A pointer into it is
the text behind the pointer. The first line of the file is the shared secret, a line that begins
with `" KEY` is an option. That `malloc` fails is left out.
-/

set_option autoImplicit false

namespace Libpam

/-- `'\r'` and `'\n'` -/
def isEol (c : UInt8) : Bool := c == 13 || c == 10

/-- `' '` and `'\t'` -/
def isBlank (c : UInt8) : Bool := c == 32 || c == 9

/-- A line up to its end: the bytes `strcspn(line, "\r\n")` counts. -/
def lineOf (line : List UInt8) : List UInt8 := line.takeWhile fun c => !isEol c

/-- `line += strcspn(line, "\r\n")` -/
def lineEnd (line : List UInt8) : List UInt8 := line.dropWhile fun c => !isEol c

/-- `line += strcspn(line, "\r\n"); line += strspn(line, "\r\n")` -/
def nextLine (line : List UInt8) : List UInt8 := (lineEnd line).dropWhile isEol

/-- The bytes from a line to the next one. -/
def skipLine (line : List UInt8) : List UInt8 :=
  line.take (line.length - (nextLine line).length)

theorem length_lineEnd_le (line : List UInt8) : (lineEnd line).length ≤ line.length :=
  (List.dropWhile_suffix _).length_le

theorem length_nextLine_le (line : List UInt8) : (nextLine line).length ≤ line.length :=
  Nat.le_trans (List.dropWhile_suffix _).length_le (length_lineEnd_le line)

/-- Behind the end of a line that is not empty the text is shorter. -/
theorem length_nextLine_lt (c : UInt8) (s : List UInt8) :
    (nextLine (c :: s)).length < (c :: s).length := by
  rw [nextLine, lineEnd, List.dropWhile_cons]
  cases h : isEol c with
  | false => exact Nat.lt_succ_of_le (length_nextLine_le s)
  | true =>
    rw [if_neg (by simp), List.dropWhile_cons, if_pos h]
    exact Nat.lt_succ_of_le (List.dropWhile_suffix _).length_le

/-- `ptr = line+2+key_len` -/
def behindKey (key line : List UInt8) : List UInt8 := line.drop (2 + key.length)

/-- The test for a line with the option `key`. -/
def isKeyLine (key line : List UInt8) : Bool :=
  ([34, 32] ++ key).isPrefixOf line &&
    match behindKey key line with
    | [] => true
    | c :: _ => isBlank c || isEol c

/-- `get_cfg_value` from a pointer to a line, or `none` where it returns `NULL`. -/
def getCfgValue (key : List UInt8) : List UInt8 → Option (List UInt8)
  | [] => none
  | c :: s =>
    if isKeyLine key (c :: s) then some (lineOf ((behindKey key (c :: s)).dropWhile isBlank))
    else getCfgValue key (nextLine (c :: s))
termination_by line => line.length
decreasing_by exact length_nextLine_lt c s

/-- The first line with the option: what comes before it, and the pointer to it. -/
def findKeyLine (key : List UInt8) : List UInt8 → Option (List UInt8 × List UInt8)
  | [] => none
  | c :: s =>
    if isKeyLine key (c :: s) then some ([], c :: s)
    else
      (findKeyLine key (nextLine (c :: s))).map fun (before, line) =>
        (skipLine (c :: s) ++ before, line)
termination_by line => line.length
decreasing_by exact length_nextLine_lt c s

/-- The last loop of `set_cfg_value`: the other lines with the option are deleted. -/
def deleteKeyLines (key : List UInt8) : List UInt8 → List UInt8
  | [] => []
  | c :: s =>
    if isKeyLine key (c :: s) then deleteKeyLines key (nextLine (c :: s))
    else skipLine (c :: s) ++ deleteKeyLines key (nextLine (c :: s))
termination_by line => line.length
decreasing_by all_goals exact length_nextLine_lt c s

/-- The line that is written: `" key val` and `'\n'`. -/
def optionLine (key val : List UInt8) : List UInt8 := [34, 32] ++ key ++ [32] ++ val ++ [10]

/-- `set_cfg_value`: the buffer afterwards. Without a line to replace, the option comes behind the
first line. -/
def setCfgValue (key val buf : List UInt8) : List UInt8 :=
  match findKeyLine key buf with
  | some (before, line) => before ++ optionLine key val ++ deleteKeyLines key (nextLine line)
  | none => skipLine buf ++ optionLine key val ++ deleteKeyLines key (nextLine buf)

/-- `strstr(buf, text) != NULL` -/
def hasText (text : List UInt8) : List UInt8 → Bool
  | [] => text.isEmpty
  | c :: s => text.isPrefixOf (c :: s) || hasText text s

/-- `is_totp` -/
def isTotp (buf : List UInt8) : Bool := hasText "\" TOTP_AUTH".asciiBytes buf

end Libpam
