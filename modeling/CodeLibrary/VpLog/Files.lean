import Mathlib.Logic.Function.Basic

/-!
# Files that are appended to

A file system maps a path to what was written to the file there, write by write. `fopen` with mode
`"a"` (`open`), `rename` onto an existing or a new path, and appending to an open file.
-/

namespace VpLog

abbrev Bytes := List UInt8

abbrev Path := List UInt8

abbrev FileSys := Path → Option (List Bytes)

namespace FileSys

variable (fs : FileSys)

/-- What was written to the file at `f`. -/
def content (f : Path) : List Bytes := (fs f).getD []

/-- The number of bytes in the file at `f`. -/
def length (f : Path) : Nat := (fs.content f).flatten.length

/-- `fopen(f, "a")`: a file that is not there is created. -/
def fopen (f : Path) : FileSys := Function.update fs f (some (fs.content f))

/-- `rename`: the file at `f`, if there is one, replaces what is at `g`. -/
def rename (f g : Path) : FileSys :=
  match fs f with
  | none => fs
  | some x => if f = g then fs else Function.update (Function.update fs f none) g (some x)

/-- A write to the open file at `f`. -/
def append (f : Path) (x : Bytes) : FileSys :=
  Function.update fs f (some (fs.content f ++ [x]))

variable {fs} {f g : Path}

@[simp] theorem content_fopen (g : Path) : (fs.fopen f).content g = fs.content g := by
  by_cases h : g = f
  · rw [h, content, fopen, Function.update_self]
    rfl
  · rw [content, fopen, Function.update_of_ne h]
    rfl

theorem content_append_self (x : Bytes) : (fs.append f x).content f = fs.content f ++ [x] := by
  rw [content, append, Function.update_self]
  rfl

theorem content_append_of_ne (h : g ≠ f) (x : Bytes) :
    (fs.append f x).content g = fs.content g := by
  rw [content, append, Function.update_of_ne h]
  rfl

/-- The file moves, to another path. -/
theorem content_rename (hf : (fs f).isSome) (hne : f ≠ g) (q : Path) :
    (fs.rename f g).content q =
      if q = g then fs.content f else if q = f then [] else fs.content q := by
  obtain ⟨x, hx⟩ := Option.isSome_iff_exists.1 hf
  rw [content, rename, hx]
  dsimp only
  rw [if_neg hne]
  by_cases hg : q = g
  · rw [if_pos hg, hg, Function.update_self, content, hx]
  · rw [if_neg hg, Function.update_of_ne hg]
    by_cases hq : q = f
    · rw [if_pos hq, hq, Function.update_self]
      rfl
    · rw [if_neg hq, Function.update_of_ne hq]
      rfl

theorem rename_self : fs.rename f f = fs := by
  unfold rename
  split
  · rfl
  · rw [if_pos rfl]

end FileSys

end VpLog
