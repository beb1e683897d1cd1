import BunnyMesh.Basic

/-!
# Base64

The hand-rolled base64 of `util.rs`: groups of three bytes become four letters, a last group of one or two bytes
becomes two or three.  The encoder writes no padding, the decoder tolerates up to two trailing `=`.  What the encoder
writes the decoder reads back (`b64Decode_b64Encode`).
-/

namespace BunnyMesh

def b64 : Bytes := str "ABCDEFGHIJKLMNOPQRSTUVWXYZabcdefghijklmnopqrstuvwxyz0123456789+/"

inductive B64Error where
  | padding
  | nonAscii (b : UInt8)
  | char (b : UInt8)
  | length
deriving DecidableEq

/-! ### Encoding -/

/-- `(b0 << 16) | (b1 << 8) | b2` -/
def group (b₀ b₁ b₂ : UInt8) : Nat := b₀.toNat * 2 ^ 16 + b₁.toNat * 2 ^ 8 + b₂.toNat

/-- The six-bit numbers of the letters, one chunk of three bytes after another. -/
def sextets : Bytes → List Nat
  | [] => []
  | [b₀] => [group b₀ 0 0 / 2 ^ 18 % 64, group b₀ 0 0 / 2 ^ 12 % 64]
  | [b₀, b₁] => [group b₀ b₁ 0 / 2 ^ 18 % 64, group b₀ b₁ 0 / 2 ^ 12 % 64, group b₀ b₁ 0 / 2 ^ 6 % 64]
  | b₀ :: b₁ :: b₂ :: rest =>
    let n := group b₀ b₁ b₂
    n / 2 ^ 18 % 64 :: n / 2 ^ 12 % 64 :: n / 2 ^ 6 % 64 :: n % 64 :: sextets rest

def letter (alpha : Bytes) (i : Nat) : UInt8 := alpha.getD i 0

def encodeImpl (data alpha : Bytes) : Bytes := (sextets data).map (letter alpha)

/-! ### Decoding -/

/-- `rev[c]`, or the error the lookup ends in. -/
def revIndex (alpha : Bytes) (b : UInt8) : Except B64Error Nat :=
  if b ≥ 128 then .error (.nonAscii b)
  else match alpha.findIdx? (· == b) with
    | some i => .ok i
    | none => .error (.char b)

/-- Up to `n` trailing `=` popped. -/
def popPad : Nat → Bytes → Bytes
  | 0, src => src
  | n + 1, src => if src.getLast? = some 61 then popPad n src.dropLast else src

/-- The bytes of the sextets, one chunk of four after another; `as u8` keeps the low byte. -/
def ungroup : List Nat → Bytes
  | [] => []
  | [a] => [UInt8.ofNat (a * 2 ^ 18 / 2 ^ 16)]
  | [a, b] => [UInt8.ofNat ((a * 2 ^ 18 + b * 2 ^ 12) / 2 ^ 16)]
  | [a, b, c] =>
    let n := a * 2 ^ 18 + b * 2 ^ 12 + c * 2 ^ 6
    [UInt8.ofNat (n / 2 ^ 16), UInt8.ofNat (n / 2 ^ 8)]
  | a :: b :: c :: d :: rest =>
    let n := a * 2 ^ 18 + b * 2 ^ 12 + c * 2 ^ 6 + d
    UInt8.ofNat (n / 2 ^ 16) :: UInt8.ofNat (n / 2 ^ 8) :: UInt8.ofNat n :: ungroup rest

def decodeImpl (s alpha : Bytes) : Except B64Error Bytes := do
  let src := popPad 2 s
  if src.contains 61 then throw .padding
  let valid ← src.mapM (revIndex alpha)
  if valid.length % 4 = 1 then throw .length
  pure (ungroup valid)

def b64Encode (data : Bytes) : Bytes := encodeImpl data b64

def b64Decode (s : Bytes) : Except B64Error Bytes := decodeImpl s b64

/-! ### The round trip -/

theorem sextets_lt (data : Bytes) : ∀ i ∈ sextets data, i < 64 := by
  fun_induction sextets data with
  | case1 => simp
  | case2 | case3 =>
    intro i hi
    simp only [List.mem_cons, List.not_mem_nil, or_false] at hi
    omega
  | case4 b0 b1 b2 rest n ih =>
    intro i hi
    simp only [List.mem_cons] at hi
    rcases hi with hi | hi | hi | hi | hi
    all_goals first | omega | exact ih i hi

theorem length_sextets (data : Bytes) : (sextets data).length % 4 ≠ 1 := by
  fun_induction sextets data with
  | case1 | case2 | case3 => simp
  | case4 b0 b1 b2 rest n ih =>
    simp only [List.length_cons]
    omega

theorem ungroup_sextets (data : Bytes) : ungroup (sextets data) = data := by
  have byte : ∀ (n : Nat) (b : UInt8), n % 256 = b.toNat → UInt8.ofNat n = b := by
    intro n b h
    apply UInt8.toNat.inj
    exact h
  fun_induction sextets data with
  | case1 => rfl
  | case2 b0 =>
    have h0 := b0.toNat_lt
    have hz : (0 : UInt8).toNat = 0 := rfl
    simp only [ungroup, group, hz]
    rw [byte _ b0 (by omega)]
  | case3 b0 b1 =>
    have h0 := b0.toNat_lt
    have h1 := b1.toNat_lt
    have hz : (0 : UInt8).toNat = 0 := rfl
    simp only [ungroup, group, hz]
    rw [byte _ b0 (by omega), byte _ b1 (by omega)]
  | case4 b0 b1 b2 rest n ih =>
    have h0 := b0.toNat_lt
    have h1 := b1.toNat_lt
    have h2 := b2.toNat_lt
    have hn : n = group b0 b1 b2 := rfl
    simp only [group] at hn
    simp only [ungroup, ih]
    rw [byte _ b0 (by omega), byte _ b1 (by omega), byte _ b2 (by omega)]

/-- What the decoder needs of an alphabet: every letter is an ASCII character other than `=`, and is looked up where it
stands. -/
def Alphabet (alpha : Bytes) : Prop :=
  ∀ i < 64, letter alpha i ≠ 61 ∧ revIndex alpha (letter alpha i) = .ok i

instance (alpha : Bytes) : Decidable (Alphabet alpha) := inferInstanceAs (Decidable (∀ i < 64, _))

set_option maxRecDepth 4000 in
theorem alphabet_b64 : Alphabet b64 := by decide +kernel

variable {src alpha : Bytes}

theorem popPad_of_not_mem (h : 61 ∉ src) (n : Nat) : popPad n src = src := by
  cases n with
  | zero => rfl
  | succ n =>
    rw [popPad, if_neg]
    intro hlast
    exact h (List.mem_of_getLast? hlast)

theorem pad_not_mem_encodeImpl (h : Alphabet alpha) (data : Bytes) : 61 ∉ encodeImpl data alpha := by
  intro hmem
  obtain ⟨i, hi, heq⟩ := List.mem_map.1 hmem
  exact (h i (sextets_lt data i hi)).1 heq

theorem decodeImpl_encodeImpl (h : Alphabet alpha) (data : Bytes) :
    decodeImpl (encodeImpl data alpha) alpha = .ok data := by
  have hlt := sextets_lt data
  have hpad := pad_not_mem_encodeImpl h data
  have hvalid : (encodeImpl data alpha).mapM (revIndex alpha) = .ok (sextets data) := by
    unfold encodeImpl
    generalize sextets data = l at hlt
    induction l with
    | nil => rfl
    | cons i l ih =>
      rw [List.map_cons, List.mapM_cons, (h i (hlt i List.mem_cons_self)).2,
        ih fun j hj => hlt j (List.mem_cons_of_mem _ hj)]
      rfl
  have hcontains : (encodeImpl data alpha).contains 61 = false := by
    simpa using hpad
  simp only [decodeImpl, popPad_of_not_mem hpad, hcontains, Bool.false_eq_true, if_false, hvalid]
  change (if (sextets data).length % 4 = 1 then _ else _) = _
  rw [if_neg (length_sextets data), ungroup_sextets]
  rfl

theorem b64Decode_b64Encode (data : Bytes) : b64Decode (b64Encode data) = .ok data :=
  decodeImpl_encodeImpl alphabet_b64 data

/-! ### What decodes -/

theorem map_of_mapM {f : UInt8 → Except B64Error Nat} {l : List Nat} (h : src.mapM f = .ok l) :
    src.map f = l.map .ok := by
  induction src generalizing l with
  | nil =>
    cases h
    rfl
  | cons b src ih =>
    rw [List.mapM_cons] at h
    cases hb : f b with
    | error e =>
      rw [hb] at h
      cases h
    | ok i =>
      cases hsrc : src.mapM f with
      | error e =>
        rw [hb, hsrc] at h
        cases h
      | ok is =>
        rw [hb, hsrc] at h
        cases h
        rw [List.map_cons, hb, ih hsrc, List.map_cons]

theorem map_revIndex_of_decodeImpl {s data : Bytes} (h : decodeImpl s alpha = .ok data) :
    ∃ l, (popPad 2 s).map (revIndex alpha) = l.map .ok ∧ ungroup l = data := by
  unfold decodeImpl at h
  cases hpad : (popPad 2 s).contains 61 with
  | true =>
    simp only [hpad, if_true] at h
    cases h
  | false =>
    simp only [hpad, Bool.false_eq_true, if_false] at h
    cases hvalid : (popPad 2 s).mapM (revIndex alpha) with
    | error e =>
      rw [hvalid] at h
      cases h
    | ok valid =>
      rw [hvalid] at h
      change (if valid.length % 4 = 1 then _ else _) = _ at h
      split_ifs at h
      · cases h
      exact ⟨valid, map_of_mapM hvalid, Except.ok.inj h⟩

theorem length_popPad_le (n : Nat) (src : Bytes) : (popPad n src).length ≤ src.length := by
  induction n generalizing src with
  | zero => exact Nat.le_refl _
  | succ n ih =>
    rw [popPad]
    split_ifs
    · have hdrop := ih src.dropLast
      rw [List.length_dropLast] at hdrop
      omega
    · exact Nat.le_refl _

theorem length_ungroup_le (l : List Nat) : (ungroup l).length ≤ (l.length + 3) / 4 * 3 := by
  fun_induction ungroup l with
  | case1 | case2 | case3 | case4 => simp
  | case5 a b c d rest n ih =>
    simp only [List.length_cons]
    omega

theorem length_decodeImpl_le {s data : Bytes} (h : decodeImpl s alpha = .ok data) :
    data.length ≤ (s.length + 3) / 4 * 3 := by
  obtain ⟨l, hl, rfl⟩ := map_revIndex_of_decodeImpl h
  have hlen := congrArg List.length hl
  have hpop := length_popPad_le 2 s
  have hungroup := length_ungroup_le l
  simp only [List.length_map] at hlen
  omega

/-! ### Padding -/

/-- The standard padding: `=` up to a multiple of four letters. -/
def padded (text : Bytes) : Bytes := text ++ List.replicate ((4 - text.length % 4) % 4) 61

theorem popPad_append (h : 61 ∉ src) {k n : Nat} (hk : k ≤ n) : popPad n (src ++ List.replicate k 61) = src := by
  induction k generalizing n with
  | zero =>
    rw [List.replicate_zero, List.append_nil]
    exact popPad_of_not_mem h n
  | succ k ih =>
    cases n with
    | zero => omega
    | succ n =>
      rw [List.replicate_succ', ← List.append_assoc, popPad, List.getLast?_concat, if_pos rfl, List.dropLast_concat]
      exact ih (by omega)

theorem decodeImpl_padded (h : Alphabet alpha) (data : Bytes) :
    decodeImpl (padded (encodeImpl data alpha)) alpha = decodeImpl (encodeImpl data alpha) alpha := by
  have hpad := pad_not_mem_encodeImpl h data
  have hlen : (encodeImpl data alpha).length % 4 ≠ 1 := by
    rw [encodeImpl, List.length_map]
    exact length_sextets data
  rw [decodeImpl, padded, popPad_append hpad (by omega), decodeImpl, popPad_of_not_mem hpad]

/-- What the codec promises of an alphabet. -/
structure RoundTrips (alpha : Bytes) : Prop where
  unpadded : ∀ data, decodeImpl (encodeImpl data alpha) alpha = .ok data
  padded : ∀ data, decodeImpl (padded (encodeImpl data alpha)) alpha = .ok data
  /-- `val_bound` of `handle_batch` -/
  length_le : ∀ s data, decodeImpl s alpha = .ok data → data.length ≤ (s.length + 3) / 4 * 3

theorem Alphabet.roundTrips (h : Alphabet alpha) : RoundTrips alpha where
  unpadded := decodeImpl_encodeImpl h
  padded data := (decodeImpl_padded h data).trans (decodeImpl_encodeImpl h data)
  length_le _ _ := length_decodeImpl_le

end BunnyMesh
