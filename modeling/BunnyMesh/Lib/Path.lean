import BunnyMesh.Lib.Utf8

/-!
# Unix paths

Paths as byte strings, taken apart as `std::path` does: the components between slashes, with empty ones and `.` left out
except for a `.` at the start.
-/

namespace UnixPath

open ByteCodec

def slash : UInt8 := 47

def dot : UInt8 := 46

def isAbsolute (path : Bytes) : Bool := path.head? == some slash

def includeCurDir : Bytes → Bool
  | [b] => b == dot
  | b :: c :: _ => b == dot && c == slash
  | [] => false

/-- The length of the part before the ordinary components: the root or a `.` at the start. -/
def lenBeforeBody (path : Bytes) : Nat := if isAbsolute path || includeCurDir path then 1 else 0

/-- The bytes behind the last slash of the ordinary components. -/
def lastComponent (path : Bytes) : Bytes := ((path.drop (lenBeforeBody path)).reverse.takeWhile (· != slash)).reverse

/-- The path without its last component and the slash before it. -/
def dropLastComponent (path : Bytes) : Bytes :=
  let n := (lastComponent path).length
  path.take (path.length - if lenBeforeBody path + n < path.length then n + 1 else n)

/-- Take empty components and `.` off the end, at most `fuel` of them. -/
def trimRight : Nat → Bytes → Bytes
  | 0, path => path
  | fuel + 1, path =>
    if lenBeforeBody path < path.length ∧ (lastComponent path = [] ∨ lastComponent path = [dot]) then
      trimRight fuel (dropLastComponent path)
    else path

def parent (path : Bytes) : Option Bytes :=
  let path := trimRight path.length path
  if lenBeforeBody path < path.length then some (trimRight path.length (dropLastComponent path))
  else if includeCurDir path then some []
  else none

def join (path other : Bytes) : Bytes :=
  if isAbsolute other then other
  else if path.getLast?.any (· != slash) then path ++ slash :: other
  else path ++ other

-- `a`, `./a`, `/`, `a/./b/`
example : parent [97] = some [] ∧ parent [46, 47, 97] = some [46] ∧ parent [47] = none ∧
    parent [97, 47, 46, 47, 98, 47] = some [97] := by decide

theorem join_nil {other : Bytes} : join [] other = other := by
  simp [join]

theorem isAbsolute_join {path other : Bytes} (h : path ≠ []) (ho : isAbsolute other = false) :
    isAbsolute (join path other) = isAbsolute path := by
  cases path with
  | nil => exact absurd rfl h
  | cons b path =>
    simp only [join, ho, Bool.false_eq_true, if_false]
    split <;> rfl

theorem length_join {path other : Bytes} (ho : isAbsolute other = false) :
    path.length + other.length ≤ (join path other).length := by
  simp only [join, ho, Bool.false_eq_true, if_false]
  split <;> simp

theorem isAbsolute_fromUtf8Lossy (path : Bytes) : isAbsolute (fromUtf8Lossy path) = isAbsolute path := by
  have h := head?_fromUtf8Lossy (a := slash) (by decide) path
  simpa [isAbsolute] using h

end UnixPath
