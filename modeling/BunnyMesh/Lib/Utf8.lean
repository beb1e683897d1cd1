import BunnyMesh.Lib.Bytes

/-!
# UTF-8

`fromUtf8Lossy` decodes as `String::from_utf8_lossy` does: a maximal prefix of a character that is not completed, and
every byte that starts no character, becomes U+FFFD.  A valid string is unchanged (`fromUtf8Lossy_of_isUtf8`), no string
gets shorter (`length_le_fromUtf8Lossy`), what is decoded is valid (`isUtf8_fromUtf8Lossy`), and so is an ASCII string
(`isUtf8_of_ascii`).  A valid string may be cut at an ASCII byte (`isUtf8_split`).
-/

namespace ByteCodec

/-- A continuation byte, `10xxxxxx`. -/
def isCont (b : UInt8) : Bool := b &&& 0xC0 == 0x80

/-- The second byte that may follow the first byte of a three-byte character. -/
def second3 (b c : UInt8) : Bool :=
  (b == 0xE0 && 0xA0 ≤ c && c ≤ 0xBF) || (0xE1 ≤ b && b ≤ 0xEC && 0x80 ≤ c && c ≤ 0xBF) ||
    (b == 0xED && 0x80 ≤ c && c ≤ 0x9F) || (0xEE ≤ b && b ≤ 0xEF && 0x80 ≤ c && c ≤ 0xBF)

def second4 (b c : UInt8) : Bool :=
  (b == 0xF0 && 0x90 ≤ c && c ≤ 0xBF) || (0xF1 ≤ b && b ≤ 0xF3 && 0x80 ≤ c && c ≤ 0xBF) ||
    (b == 0xF4 && 0x80 ≤ c && c ≤ 0x8F)

/-- Is the character that starts with `b` complete, and how many of the bytes behind `b` belong to it? -/
def charTail (b : UInt8) (rest : Bytes) : Bool × Nat :=
  if b < 0x80 then (true, 0)
  else if 0xC2 ≤ b && b ≤ 0xDF then
    if isCont (rest.getD 0 0) then (true, 1) else (false, 0)
  else if 0xE0 ≤ b && b ≤ 0xEF then
    if !second3 b (rest.getD 0 0) then (false, 0)
    else if isCont (rest.getD 1 0) then (true, 2) else (false, 1)
  else if 0xF0 ≤ b && b ≤ 0xF4 then
    if !second4 b (rest.getD 0 0) then (false, 0)
    else if !isCont (rest.getD 1 0) then (false, 1)
    else if isCont (rest.getD 2 0) then (true, 3) else (false, 2)
  else (false, 0)

def replacement : Bytes := [0xEF, 0xBF, 0xBD]

def fromUtf8Lossy : Bytes → Bytes
  | [] => []
  | b :: rest =>
    let (complete, k) := charTail b rest
    (if complete then b :: rest.take k else replacement) ++ fromUtf8Lossy (rest.drop k)
termination_by s => s.length
decreasing_by rw [List.length_drop, List.length_cons]; omega

/-- `String::from_utf8` accepts the bytes. -/
def isUtf8 : Bytes → Bool
  | [] => true
  | b :: rest =>
    let (complete, k) := charTail b rest
    complete && isUtf8 (rest.drop k)
termination_by s => s.length
decreasing_by rw [List.length_drop, List.length_cons]; omega

theorem fromUtf8Lossy_of_isUtf8 {s : Bytes} (h : isUtf8 s) : fromUtf8Lossy s = s := by
  fun_induction isUtf8 s with
  | case1 => rw [fromUtf8Lossy]
  | case2 b rest complete k htail ih =>
    rw [Bool.and_eq_true] at h
    rw [fromUtf8Lossy, htail]
    simp [h.1, ih h.2]

variable {b : UInt8} {k : Nat} {rest : Bytes}

theorem charTail_incomplete (h : charTail b rest = (false, k)) : k ≤ 2 ∧ ¬ b < 0x80 := by
  unfold charTail at h
  split_ifs at h <;> simp_all <;> omega

theorem length_le_fromUtf8Lossy (s : Bytes) : s.length ≤ (fromUtf8Lossy s).length := by
  fun_induction fromUtf8Lossy s with
  | case1 => exact Nat.le_refl _
  | case2 b rest complete k htail ih =>
    rw [List.length_append]
    rw [List.length_drop] at ih
    cases complete with
    | true =>
      simp only [if_true, List.length_cons, List.length_take]
      omega
    | false =>
      have hk := (charTail_incomplete htail).1
      simp only [Bool.false_eq_true, if_false, replacement, List.length_cons, List.length_nil]
      omega

theorem head?_fromUtf8Lossy {a : UInt8} (ha : a < 0x80) (s : Bytes) : (fromUtf8Lossy s).head? = some a ↔ s.head? = some a := by
  cases s with
  | nil => rw [fromUtf8Lossy]
  | cons b rest =>
    rw [fromUtf8Lossy]
    cases htail : charTail b rest with
    | mk complete k =>
      cases complete with
      | true => simp
      | false =>
        have hb := (charTail_incomplete htail).2
        have hrep : (0xEF : UInt8) ≠ a := by
          rintro rfl
          exact absurd ha (by decide)
        have hne : b ≠ a := by
          rintro rfl
          exact hb ha
        simp [replacement, hrep, hne]

theorem charTail_complete (h : charTail b rest = (true, k)) :
    k ≤ rest.length ∧ ∀ rest' : Bytes, (∀ i < k, rest'.getD i 0 = rest.getD i 0) → charTail b rest' = (true, k) := by
  have hcont : ∀ i, isCont (rest.getD i 0) = true → i < rest.length := by
    intro i hi
    by_contra hlen
    rw [List.getD_eq_getElem?_getD, List.getElem?_eq_none (by omega)] at hi
    exact absurd hi (by decide)
  unfold charTail at h
  split at h
  · rename_i h1
    cases h
    exact ⟨Nat.zero_le _, fun rest' _ => by simp only [charTail, if_pos h1]⟩
  rename_i h1
  split at h
  · rename_i h2
    split at h
    · rename_i hc
      cases h
      exact ⟨hcont 0 hc, fun rest' heq => by
        simp only [charTail, if_neg h1, if_pos h2, heq 0 (by omega), if_pos hc]⟩
    · cases h
  rename_i h2
  split at h
  · rename_i h3
    split at h
    · cases h
    rename_i hs
    split at h
    · rename_i hc
      cases h
      exact ⟨hcont 1 hc, fun rest' heq => by
        simp only [charTail, if_neg h1, if_neg h2, if_pos h3, heq 0 (by omega), heq 1 (by omega), if_neg hs, if_pos hc]⟩
    · cases h
  rename_i h3
  split at h
  · rename_i h4
    split at h
    · cases h
    rename_i hs
    split at h
    · cases h
    rename_i hc
    split at h
    · rename_i hc'
      cases h
      exact ⟨hcont 2 hc', fun rest' heq => by
        simp only [charTail, if_neg h1, if_neg h2, if_neg h3, if_pos h4, heq 0 (by omega), heq 1 (by omega),
          heq 2 (by omega), if_neg hs, if_neg hc, if_pos hc']⟩
    · cases h
  · cases h

theorem isUtf8_fromUtf8Lossy (s : Bytes) : isUtf8 (fromUtf8Lossy s) := by
  fun_induction fromUtf8Lossy s with
  | case1 => rw [isUtf8]
  | case2 b rest complete k htail ih =>
    cases complete with
    | true =>
      obtain ⟨hlen, hdecided⟩ := charTail_complete htail
      have htake : (rest.take k).length = k := by rw [List.length_take]; omega
      have htail' : charTail b (rest.take k ++ fromUtf8Lossy (rest.drop k)) = (true, k) := by
        refine hdecided _ fun i hi => ?_
        rw [List.getD_eq_getElem?_getD, List.getElem?_append_left (by omega), List.getElem?_take_of_lt hi,
          List.getD_eq_getElem?_getD]
      have hdrop : (rest.take k ++ fromUtf8Lossy (rest.drop k)).drop k = fromUtf8Lossy (rest.drop k) := by
        rw [List.drop_append, htake, Nat.sub_self, List.drop_zero, List.drop_of_length_le (by omega), List.nil_append]
      rw [if_pos rfl, List.cons_append, isUtf8, htail']
      simpa only [hdrop, Bool.true_and] using ih
    | false =>
      have htail' : charTail 0xEF ([0xBF, 0xBD] ++ fromUtf8Lossy (rest.drop k)) = (true, 2) := by
        simp [charTail, second3, isCont]
        decide
      have hcons : replacement ++ fromUtf8Lossy (rest.drop k) = 0xEF :: ([0xBF, 0xBD] ++ fromUtf8Lossy (rest.drop k)) := rfl
      rw [if_neg (by decide), hcons, isUtf8, htail']
      simpa using ih

theorem isUtf8_of_ascii {s : Bytes} (h : ∀ b ∈ s, b < 0x80) : isUtf8 s := by
  induction s with
  | nil => rw [isUtf8]
  | cons b rest ih =>
    obtain ⟨hb, hrest⟩ := List.forall_mem_cons.1 h
    rw [isUtf8, charTail, if_pos hb]
    simpa using ih hrest

theorem not_ascii_of_charTail (h : charTail b rest = (true, k)) {i : Nat} (hi : i < k) : ¬ rest.getD i 0 < 0x80 := by
  have hcont : ∀ c : UInt8, isCont c = true → ¬ c < 0x80 := by
    intro c hc
    have hle : c &&& 0xC0 ≤ c := UInt8.and_le_left
    rw [eq_of_beq hc] at hle
    exact UInt8.not_lt.2 hle
  have hthree : ∀ c : UInt8, second3 b c = true → ¬ c < 0x80 := by
    intro c hc
    simp only [second3, Bool.or_eq_true, Bool.and_eq_true, decide_eq_true_eq, UInt8.le_iff_toNat_le] at hc
    rw [UInt8.lt_iff_toNat_lt]
    have h80 : (0x80 : UInt8).toNat = 128 := rfl
    have ha0 : (0xA0 : UInt8).toNat = 160 := rfl
    omega
  have hfour : ∀ c : UInt8, second4 b c = true → ¬ c < 0x80 := by
    intro c hc
    simp only [second4, Bool.or_eq_true, Bool.and_eq_true, decide_eq_true_eq, UInt8.le_iff_toNat_le] at hc
    rw [UInt8.lt_iff_toNat_lt]
    have h80 : (0x80 : UInt8).toNat = 128 := rfl
    have h90 : (0x90 : UInt8).toNat = 144 := rfl
    omega
  unfold charTail at h
  split at h
  · cases h
    omega
  split at h
  · split at h
    · rename_i hc
      cases h
      obtain rfl : i = 0 := by omega
      exact hcont _ hc
    · cases h
  split at h
  · split at h
    · cases h
    rename_i hs
    split at h
    · rename_i hc
      cases h
      obtain rfl | rfl : i = 0 ∨ i = 1 := by omega
      · exact hthree _ (by simpa using hs)
      · exact hcont _ hc
    · cases h
  split at h
  · split at h
    · cases h
    rename_i hs
    split at h
    · cases h
    rename_i hc
    split at h
    · rename_i hc'
      cases h
      obtain rfl | rfl | rfl : i = 0 ∨ i = 1 ∨ i = 2 := by omega
      · exact hfour _ (by simpa using hs)
      · exact hcont _ (by simpa using hc)
      · exact hcont _ hc'
    · cases h
  · cases h

theorem isUtf8_split {a b : Bytes} {c : UInt8} (hc : c < 0x80) (h : isUtf8 (a ++ c :: b)) : isUtf8 a ∧ isUtf8 b := by
  induction hn : a.length using Nat.strong_induction_on generalizing a with
  | _ n ih =>
    cases a with
    | nil =>
      rw [List.nil_append, isUtf8, charTail, if_pos hc] at h
      exact ⟨by rw [isUtf8], by simpa using h⟩
    | cons x rest =>
      rw [List.cons_append, isUtf8] at h
      cases htail : charTail x (rest ++ c :: b) with
      | mk complete k =>
        rw [htail] at h
        simp only [Bool.and_eq_true] at h
        obtain ⟨rfl, hrest⟩ := h
        -- the character ends before the cut
        have hk : k ≤ rest.length := by
          by_contra hlt
          refine not_ascii_of_charTail htail (i := rest.length) (by omega) ?_
          rw [List.getD_eq_getElem?_getD, List.getElem?_append_right le_rfl, Nat.sub_self]
          exact hc
        have htail' : charTail x rest = (true, k) := by
          refine (charTail_complete htail).2 rest fun i hi => ?_
          rw [List.getD_eq_getElem?_getD, List.getD_eq_getElem?_getD, List.getElem?_append_left (by omega)]
        rw [List.drop_append_of_le_length hk] at hrest
        rw [List.length_cons] at hn
        obtain ⟨hleft, hright⟩ := ih (rest.drop k).length (by rw [List.length_drop]; omega) hrest rfl
        refine ⟨?_, hright⟩
        rw [isUtf8, htail']
        simpa using hleft

theorem isUtf8_of_ascii_append {a b : Bytes} (ha : ∀ c ∈ a, c < 0x80) (h : isUtf8 (a ++ b)) : isUtf8 b := by
  induction a with
  | nil => exact h
  | cons c a ih =>
    obtain ⟨hc, ha⟩ := List.forall_mem_cons.1 ha
    exact ih ha (isUtf8_split (a := []) hc h).2

end ByteCodec
