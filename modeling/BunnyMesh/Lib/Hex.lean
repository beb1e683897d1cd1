import BunnyMesh.Lib.Bytes

/-!
# Hexadecimal text

Lower-case encoding of byte strings and of numbers, and the decoders that accept both cases.
-/

namespace ByteCodec

def hexDigit (n : Nat) : UInt8 := UInt8.ofNat (if n < 10 then 48 + n else 87 + n)

def hexValue (b : UInt8) : Option Nat :=
  let n := b.toNat
  if 48 ≤ n ∧ n ≤ 57 then some (n - 48)
  else if 97 ≤ n ∧ n ≤ 102 then some (n - 87)
  else if 65 ≤ n ∧ n ≤ 70 then some (n - 55)
  else none

def isHexDigit (b : UInt8) : Bool := (hexValue b).isSome

def hexEncode (b : Bytes) : Bytes := b.flatMap fun x => [hexDigit (x.toNat / 16), hexDigit (x.toNat % 16)]

def hexDecode : Bytes → Option Bytes
  | [] => some []
  | [_] => none
  | a :: b :: rest => do
    let hi ← hexValue a
    let lo ← hexValue b
    let tail ← hexDecode rest
    some (UInt8.ofNat (hi * 16 + lo) :: tail)

/-- `{n:x}` -/
def hexOfNat (n : Nat) : Bytes :=
  if n < 16 then [hexDigit n] else hexOfNat (n / 16) ++ [hexDigit (n % 16)]

/-- `from_str_radix(_, 16)` at a 64-bit type, on digits. -/
def natOfHex (b : Bytes) : Option Nat :=
  if b.isEmpty then none
  else (b.foldlM (fun acc x => (hexValue x).map (acc * 16 + ·)) 0).bind fun n => if n < 2 ^ 64 then some n else none

variable {n : Nat}

theorem hexValue_hexDigit (h : n < 16) : hexValue (hexDigit n) = some n := by
  revert n; decide

theorem isHexDigit_hexDigit (h : n < 16) : isHexDigit (hexDigit n) := by
  rw [isHexDigit, hexValue_hexDigit h]
  rfl

theorem hexDigit_lt (h : n < 16) : hexDigit n < 0x80 := by
  revert n; decide

theorem hexDigit_ne_underscore (h : n < 16) : hexDigit n ≠ 95 := by
  revert n; decide

theorem length_hexEncode (b : Bytes) : (hexEncode b).length = b.length * 2 := by
  induction b with
  | nil => rfl
  | cons x b ih =>
    simp only [hexEncode, List.flatMap_cons, List.length_append, List.length_cons, List.length_nil] at ih ⊢
    omega

theorem mem_hexEncode {b : Bytes} {d : UInt8} (h : d ∈ hexEncode b) : ∃ n < 16, d = hexDigit n := by
  obtain ⟨x, _, hx⟩ := List.mem_flatMap.1 h
  have hlt := x.toNat_lt
  simp only [List.mem_cons, List.not_mem_nil, or_false] at hx
  rcases hx with rfl | rfl
  · exact ⟨_, by omega, rfl⟩
  · exact ⟨_, by omega, rfl⟩

theorem hexDecode_hexEncode (b : Bytes) : hexDecode (hexEncode b) = some b := by
  induction b with
  | nil => rfl
  | cons x b ih =>
    have hlt := x.toNat_lt
    have hsum : x.toNat / 16 * 16 + x.toNat % 16 = x.toNat := by omega
    simp only [hexEncode, List.flatMap_cons, List.cons_append, List.nil_append] at ih ⊢
    rw [hexDecode, hexValue_hexDigit (by omega), hexValue_hexDigit (by omega), ih]
    simp only [Option.bind_eq_bind, Option.bind_some, hsum, UInt8.ofNat_toNat]

theorem mem_hexOfNat {d : UInt8} (h : d ∈ hexOfNat n) : ∃ k < 16, d = hexDigit k := by
  fun_induction hexOfNat n with
  | case1 n hn => exact ⟨n, hn, by simpa using h⟩
  | case2 n hn ih =>
    rcases List.mem_append.1 h with h | h
    · exact ih h
    · exact ⟨n % 16, by omega, by simpa using h⟩

theorem hexOfNat_ne_nil (n : Nat) : hexOfNat n ≠ [] := by
  rw [hexOfNat]
  split <;> simp

theorem natOfHex_hexOfNat (h : n < 2 ^ 64) : natOfHex (hexOfNat n) = some n := by
  have hfold : (hexOfNat n).foldlM (fun acc x => (hexValue x).map (acc * 16 + ·)) 0 = some n := by
    clear h
    fun_induction hexOfNat n with
    | case1 n hn => simp [hexValue_hexDigit hn]
    | case2 n hn ih =>
      rw [List.foldlM_append, ih]
      have hmod : n % 16 < 16 := by omega
      simp [hexValue_hexDigit hmod]
      omega
  rw [natOfHex, if_neg (by simpa using hexOfNat_ne_nil n), hfold]
  exact if_pos h

end ByteCodec
