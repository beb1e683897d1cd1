import Mathlib.Algebra.Ring.Nat
import Mathlib.Data.List.Basic
import Mathlib.Tactic.Common

/-!
# Byte strings

Little-endian integers of a fixed width and slices of byte strings.  `fromLe (le w n) = n % 256 ^ w`
(`fromLe_le`): a field of `w` bytes stores the low part of a number and nothing else, so a length written as a
`u32` comes back only when it is below `2 ^ 32`.  `At s i b` says that `b` stands in `s` at position `i`; it splits
along concatenations, which is how a parser's cursor is followed through a written field list.
-/

namespace ByteCodec

abbrev Bytes := List UInt8

/-- The `w` low bytes of `n`, least significant first. -/
def le : Nat → Nat → Bytes
  | 0, _ => []
  | w + 1, n => UInt8.ofNat n :: le w (n / 256)

def fromLe : Bytes → Nat
  | [] => 0
  | b :: bs => b.toNat + 256 * fromLe bs

@[simp] theorem length_le (w n : Nat) : (le w n).length = w := by
  induction w generalizing n with
  | zero => rfl
  | succ w ih => simp [le, ih]

theorem fromLe_le (w n : Nat) : fromLe (le w n) = n % 256 ^ w := by
  induction w generalizing n with
  | zero => simp [le, fromLe, Nat.mod_one]
  | succ w ih =>
    have hb : (UInt8.ofNat n).toNat = n % 256 := by simp
    rw [le, fromLe, ih, hb, Nat.pow_succ, Nat.mul_comm (256 ^ w) 256, Nat.mod_mul]

theorem fromLe_le_of_lt {w n : Nat} (h : n < 256 ^ w) : fromLe (le w n) = n := by
  rw [fromLe_le, Nat.mod_eq_of_lt h]

theorem fromLe_lt (bs : Bytes) : fromLe bs < 256 ^ bs.length := by
  induction bs with
  | nil => simp [fromLe]
  | cons b bs ih =>
    have hb : b.toNat < 256 := b.toNat_lt
    rw [fromLe, List.length_cons, Nat.pow_succ]
    omega

theorem le_fromLe {w : Nat} {bs : Bytes} (h : bs.length = w) : le w (fromLe bs) = bs := by
  induction bs generalizing w with
  | nil =>
    subst h
    rfl
  | cons b bs ih =>
    subst h
    have hb : b.toNat < 256 := b.toNat_lt
    have hlow : UInt8.ofNat (b.toNat + 256 * fromLe bs) = b := by
      apply UInt8.toNat_inj.1
      rw [UInt8.toNat_ofNat']
      omega
    have hhigh : (b.toNat + 256 * fromLe bs) / 256 = fromLe bs := by omega
    rw [List.length_cons, fromLe, le, hlow, hhigh, ih rfl]

def range (b : Bytes) (i j : Nat) : Bytes := (b.drop i).take (j - i)

variable {i j k : Nat} {s : Bytes}

theorem length_range {b : Bytes} (_hij : i ≤ j) (hj : j ≤ b.length) : (range b i j).length = j - i := by
  simp [range]; omega

theorem range_append (a b c : Bytes) (hi : i = a.length) (hj : j = i + b.length) : range (a ++ (b ++ c)) i j = b := by
  subst hi; subst hj
  simp [range]

theorem range_append_drop {b : Bytes} (hij : i ≤ j) : range b i j ++ b.drop j = b.drop i := by
  have h := List.take_append_drop (j - i) (b.drop i)
  rwa [List.drop_drop, Nat.add_sub_cancel' hij] at h

theorem getElem?_range (hi : i ≤ k) (hj : k < j) : (range s i j)[k - i]? = s[k]? := by
  rw [range, List.getElem?_take_of_lt (by omega), List.getElem?_drop, Nat.add_sub_cancel' hi]

theorem range_set_in {b : UInt8} (hi : i ≤ k) : range (s.set k b) i j = (range s i j).set (k - i) b := by
  rw [range, range, List.drop_set, if_neg (by omega), List.take_set]

theorem range_set_out {b : UInt8} (h : k < i ∨ j ≤ k) : range (s.set k b) i j = range s i j := by
  rw [range, range, List.drop_set]
  split_ifs with hk
  · rfl
  · rw [List.take_set, List.set_eq_of_length_le]
    rw [List.length_take]
    omega

/-! ### Occurrences -/

def At (s : Bytes) (i : Nat) (b : Bytes) : Prop := ∃ a c, s = a ++ (b ++ c) ∧ i = a.length

namespace At

variable {s b c : Bytes} {i j : Nat}

theorem refl (s : Bytes) : At s 0 s := ⟨[], [], by simp, rfl⟩

theorem left (h : At s i (b ++ c)) : At s i b := by
  obtain ⟨a, d, rfl, rfl⟩ := h
  exact ⟨a, c ++ d, by simp, rfl⟩

theorem right (h : At s i (b ++ c)) : At s (i + b.length) c := by
  obtain ⟨a, d, rfl, rfl⟩ := h
  exact ⟨a ++ b, d, by simp, by simp⟩

theorem of_prefix (h : At s i b) (hc : s <+: c) : At c i b := by
  obtain ⟨a, d, rfl, rfl⟩ := h
  obtain ⟨e, rfl⟩ := hc
  exact ⟨a, d ++ e, by simp, rfl⟩

theorem append (h : At s i b) (h' : At s j c) (hj : j = i + b.length) : At s i (b ++ c) := by
  obtain ⟨a, d, rfl, rfl⟩ := h
  obtain ⟨a', d', heq, hlen⟩ := h'
  rw [← List.append_assoc] at heq
  obtain ⟨-, rfl⟩ := List.append_inj heq (by rw [List.length_append, ← hj, hlen])
  exact ⟨a, d', by simp, rfl⟩

theorem of_range (hij : i ≤ j) (hj : j ≤ s.length) : At s i (range s i j) :=
  ⟨s.take i, s.drop j, by rw [range_append_drop hij, List.take_append_drop], by rw [List.length_take]; omega⟩

/-- A field holds the number that is read from it. -/
theorem of_fromLe {w : Nat} (h : i + w ≤ s.length) : At s i (le w (fromLe (range s i (i + w)))) := by
  rw [le_fromLe (by rw [length_range (Nat.le_add_right i w) h, Nat.add_sub_cancel_left])]
  exact of_range (Nat.le_add_right i w) h

theorem eq_of_length (h : At s 0 b) (hlen : s.length ≤ b.length) : s = b := by
  obtain ⟨a, d, rfl, ha⟩ := h
  rw [List.length_append, List.length_append] at hlen
  obtain rfl := List.length_eq_zero_iff.1 ha.symm
  obtain rfl : d = [] := List.length_eq_zero_iff.1 (by omega)
  rw [List.nil_append, List.append_nil]

theorem length_le (h : At s i b) : i + b.length ≤ s.length := by
  obtain ⟨a, d, rfl, rfl⟩ := h
  simp

theorem range_eq (h : At s i b) (hj : j = i + b.length) : range s i j = b := by
  obtain ⟨a, d, rfl, rfl⟩ := h
  exact range_append a b d rfl hj

theorem getElem? {x : UInt8} (h : At s i (x :: c)) : s[i]? = some x := by
  obtain ⟨a, d, rfl, rfl⟩ := h
  simp

theorem getElem?_add {k : Nat} (h : At s i b) (hk : k < b.length) : s[i + k]? = b[k]? := by
  obtain ⟨a, d, rfl, rfl⟩ := h
  rw [List.getElem?_append_right (by omega), Nat.add_sub_cancel_left, List.getElem?_append_left hk]

theorem range_add {k l : Nat} (h : At s i b) (hl : l ≤ b.length) : range s (i + k) (i + l) = range b k l := by
  obtain ⟨a, d, rfl, rfl⟩ := h
  have hsub : a.length + l - (a.length + k) = l - k := by omega
  rw [range, range, hsub, List.drop_append, List.drop_eq_nil_of_le (by omega), List.nil_append,
    Nat.add_sub_cancel_left, List.drop_append, List.take_append_of_le_length]
  simp
  omega

end At

end ByteCodec
