import Mathlib.Data.Prod.Lex
import Mathlib.Data.List.Lex
import Mathlib.Order.Lex
import Mathlib.Tactic.Common
import BunnyMesh.Lib.Bytes

/-!
# Vocabulary of the store

Bytes, fixed 32-byte arrays, errors, and the third-party crates the store is built on.  A Rust `String` is its
UTF-8 bytes.  A `Result` is an `Except` whose failures are `Fault`s: the error the code returns, or a panic (an
index out of range, an `unwrap` of nothing).
-/

namespace BunnyMesh

export ByteCodec (Bytes le fromLe range At)

def str (s : String) : Bytes := s.toUTF8.data.toList

/-- `[u8; 32]`: hashes, replica ids, keys. -/
structure Bytes32 where
  val : Bytes
  len : val.length = 32
deriving DecidableEq

namespace Bytes32

def fill (b : UInt8) : Bytes32 := ⟨List.replicate 32 b, List.length_replicate⟩

def zero : Bytes32 := fill 0

@[simp] theorem length_val (b : Bytes32) : b.val.length = 32 := b.len

theorem ext {a b : Bytes32} (h : a.val = b.val) : a = b := by
  cases a; cases b; cases h; rfl

end Bytes32

/-! ### Errors -/

inductive StorageError where
  | corrupt (ns : Option Bytes) (detail : String)
  | io (detail : String)
  | notFound (what : Bytes)
  | noScope
  | namespaceExists (ns : Bytes)
  | badName (ns : Bytes)
  | quotaExceeded (ns : Bytes) (limit : Nat)
deriving DecidableEq

def showBytes (b : Bytes) : String := String.ofList (b.map fun x => Char.ofNat x.toNat)

def StorageError.display : StorageError → String
  | .corrupt none detail => s!"corrupt storage: {detail}"
  | .corrupt (some ns) detail => s!"corrupt storage (ns {showBytes ns}): {detail}"
  | .io e => s!"io error: {e}"
  | .notFound x => s!"not found: {showBytes x}"
  | .noScope => "no namespace selected: call use() first"
  | .namespaceExists n => s!"namespace exists: {showBytes n}"
  | .badName n => s!"bad namespace name: {showBytes n}"
  | .quotaExceeded ns limit => s!"quota exceeded for {showBytes ns} (limit {limit} bytes)"

inductive Fault where
  | err (e : StorageError)
  | panic (detail : String)
deriving DecidableEq

abbrev Res := Except Fault

/-- `StorageError::Corrupt` without a namespace. -/
def corrupt (detail : String) : Fault := .err (.corrupt none detail)

/-- `if !c { return Err(e) }` -/
def ensure (c : Bool) (e : Fault) : Res Unit := if c then .ok () else .error e

@[simp] theorem ensure_true (e : Fault) : ensure true e = .ok () := rfl

@[simp] theorem ensure_false (e : Fault) : ensure false e = .error e := rfl

def slice (b : Bytes) (i j : Nat) : Res Bytes :=
  if i ≤ j ∧ j ≤ b.length then .ok (range b i j) else .error (.panic "slice index out of range")

def index (b : Bytes) (i : Nat) : Res UInt8 :=
  match b[i]? with
  | some x => .ok x
  | none => .error (.panic "index out of bounds")

/-- `b.try_into().unwrap()` at type `[u8; 32]` -/
def tryInto32 (b : Bytes) : Res Bytes32 :=
  if h : b.length = 32 then .ok ⟨b, h⟩ else .error (.panic "called `Result::unwrap()` on an `Err` value")

variable {α β : Type} {b : Bytes} {i : Nat}

@[simp] theorem ok_bind (a : α) (f : α → Res β) : (Except.ok a >>= f) = f a := rfl

@[simp] theorem error_bind (e : Fault) (f : α → Res β) : (Except.error e >>= f) = .error e := rfl

@[simp] theorem pure_eq_ok (a : α) : (pure a : Res α) = .ok a := rfl

theorem bind_eq_ok {ε : Type} {x : Except ε α} {f : α → Except ε β} {b : β} :
    (x >>= f) = .ok b ↔ ∃ a, x = .ok a ∧ f a = .ok b := by
  cases x <;> simp [bind, Except.bind]

theorem ensure_eq_ok {c : Bool} {e : Fault} {u : Unit} : ensure c e = .ok u ↔ c = true := by
  cases c <;> simp

theorem slice_eq_ok {x : Bytes} {j : Nat} : slice b i j = .ok x ↔ (i ≤ j ∧ j ≤ b.length) ∧ range b i j = x := by
  unfold slice
  split <;> simp_all

theorem index_eq_ok {x : UInt8} : index b i = .ok x ↔ b[i]? = some x := by
  unfold index
  split <;> simp_all

theorem tryInto32_eq_ok {x : Bytes32} : tryInto32 b = .ok x ↔ x.val = b := by
  constructor
  · unfold tryInto32
    split <;> rintro ⟨⟩
    rfl
  · rintro rfl
    simp [tryInto32, x.len]

theorem slice_of_at {s : Bytes} {n : Nat} (h : At s i b) (hn : b.length = n) : slice s i (i + n) = .ok b := by
  have hle := h.length_le
  rw [slice, if_pos (by omega), h.range_eq (by omega)]

theorem index_of_at {s c : Bytes} {x : UInt8} (h : At s i (x :: c)) : index s i = .ok x := by
  simp [index, h.getElem?]

@[simp] theorem tryInto32_val (b : Bytes32) : tryInto32 b.val = .ok b := by
  simp [tryInto32, b.len]

/-! ### Crates -/

/-- `serde_json::Value`.  A number is kept as the text `Number::to_string` gives. -/
inductive JValue where
  | null
  | bool (b : Bool)
  | number (text : Bytes)
  | string (s : Bytes)
  | array (vs : List JValue)
  | object (fields : List (Bytes × JValue))

/-- What the store takes from crates outside the repository: `sha2::Sha256` and the two `serde_json::from_str`
instances it calls (on the lossy UTF-8 text of the bytes). -/
class Crates where
  sha256 : Bytes → Bytes32
  fromStrValue : Bytes → Option JValue
  fromStrStrings : Bytes → Option (List Bytes)

/-- Crates for closed examples: a constant hash, and no text is JSON. -/
@[reducible] def Crates.trivial : Crates := ⟨fun _ => .zero, fun _ => none, fun _ => none⟩

/-! ### Stamps -/

/-- The order of versions: `(hlc, replica)`, compared lexicographically. -/
structure Stamp where
  hlc : UInt64
  replica : Bytes32
deriving DecidableEq

namespace Stamp

/-- The stamp as a pair of naturally ordered values. -/
def key (s : Stamp) : ℕ ×ₗ List ℕ := toLex (s.hlc.toNat, s.replica.val.map UInt8.toNat)

theorem key_injective : Function.Injective key := by
  rintro ⟨h, r⟩ ⟨h', r'⟩ e
  have e' := congrArg ofLex e
  simp only [key, ofLex_toLex, Prod.mk.injEq] at e'
  have hr : r.val = r'.val := List.map_injective_iff.2 (fun _ _ => UInt8.toNat.inj) e'.2
  rw [UInt64.toNat.inj e'.1, Bytes32.ext hr]

instance : LinearOrder Stamp := LinearOrder.lift' key key_injective

end Stamp

end BunnyMesh
