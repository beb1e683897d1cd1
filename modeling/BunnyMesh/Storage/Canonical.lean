import BunnyMesh.Storage.Parsing

/-!
# What an accepted record pins down

The offset behind the last section that the parser reads is dropped: a record is the encoding of what is read from it
exactly when nothing follows that section (`canonical_iff`).  Of the sub-operations of a batch it makes room for as many as the batch declares, before it looks
at the first one (`reserved_le_iff`).  One damaged byte of a record is always noticed: the length field is compared
with the actual length, and the step of the checksum is injective in the state and in the byte
(`damaged_byte_detected`).
-/

namespace BunnyMesh

open ByteCodec

/-! ### Canonical encodings -/

/-- The header passes, and bytes follow the payload of a record in the payload. -/
def TrailingBytes (s : Bytes) (e : Option Bytes32) : Prop :=
  ∃ r : Record, r.WellFormed ∧ HeaderPasses s r.tag e ∧ At s headerLen r.payload ∧ headerLen + r.payload.length < s.length

theorem toBytes_eq_iff {s : Bytes} {e : Option Bytes32} {r : Record} {prev : Bytes32} (hpass : HeaderPasses s r.tag e)
    (hprev : prev.val = range s 9 41) (hpay : At s headerLen r.payload) :
    r.toBytes prev = s ↔ headerLen + r.payload.length = s.length := by
  have hlen := r.length_toBytes prev
  constructor
  · intro h
    rw [← hlen, h]
  · intro hall
    have h41 : 41 ≤ s.length := hpass.len
    have hzero : range s 0 1 = [r.tag] := by
      have hget := hpass.tag.1
      rw [List.getElem?_eq_getElem (by omega)] at hget
      rw [range, List.drop_eq_getElem_cons (by omega), Option.some.inj hget]
      rfl
    have htag : At s 0 [r.tag] := hzero ▸ .of_range (Nat.zero_le 1) (by omega)
    have hdecl : At s 1 (le 4 r.payload.length) := by
      have hfield := hpass.declared
      rw [← hall, Nat.add_sub_cancel_left] at hfield
      exact hfield ▸ At.of_fromLe (w := 4) (by omega)
    have hrest : At s 9 (prev.val ++ r.payload) :=
      .append (hprev ▸ .of_range (by decide) h41) hpay (by rw [prev.len]; rfl)
    have hcrc : At s 5 (le 4 (crc32Parts [r.tag] (prev.val ++ r.payload)).toNat) := by
      have hsum := hpass.crc
      rw [hzero, hrest.range_eq (by rw [List.length_append, prev.len, ← hall, headerLen]; omega)] at hsum
      exact hsum ▸ At.of_fromLe (w := 4) (by omega)
    have hwhole : At s 0 (r.toBytes prev) := htag.append (hdecl.append (hcrc.append hrest rfl) rfl) rfl
    exact (hwhole.eq_of_length (by omega)).symm

/-- The bytes a record is read from are the ones it is written as, exactly when nothing follows its payload. -/
theorem canonical_iff (s : Bytes) (prev : Bytes32) :
    (∀ r, parseChain s (some prev) = .ok (r, prev) → r.toBytes prev = s) ↔ ¬ TrailingBytes s (some prev) := by
  constructor
  · rintro hcan ⟨r, hwf, hpass, hat, hlt⟩
    have hprev := hpass.prev prev rfl
    have hparse := parseChain_eq_ok_iff.2 ⟨r.tag, prev, ⟨hpass, hprev⟩, parseBody_of_at hwf hat prev⟩
    have hall := (toBytes_eq_iff hpass hprev hat).1 (hcan r hparse)
    omega
  · intro hno r h
    obtain ⟨tag, prev', ⟨hpass, hprev⟩, hbody⟩ := parseChain_eq_ok_iff.1 h
    obtain ⟨rfl, rfl, hwf, hat⟩ := parseBody_eq_ok hpass hbody
    refine (toBytes_eq_iff hpass hprev hat).2 ?_
    by_contra hne
    exact hno ⟨r, hwf, hpass, hat, lt_of_le_of_ne hat.length_le hne⟩

/-- A write with one byte behind its value, which no length counts, and a correct checksum. -/
def paddedRecord : Bytes :=
  let payload := payloadBytes ⟨tagPut, str "k", 1, .zero, .zero, str "v", 0⟩ ++ [0]
  let crc := crc32Parts [tagPut] (Bytes32.zero.val ++ payload)
  tagPut :: (le 4 payload.length ++ (le 4 crc.toNat ++ (Bytes32.zero.val ++ payload)))

set_option maxRecDepth 100000 in
theorem paddedRecord_accepted :
    parseChain paddedRecord (some .zero) = .ok (⟨⟨tagPut, str "k", 1, .zero, .zero, str "v", 0⟩, []⟩, .zero) ∧
      (⟨⟨tagPut, str "k", 1, .zero, .zero, str "v", 0⟩, []⟩ : Record).toBytes .zero ≠ paddedRecord := by
  decide +kernel

/-! ### Reserved sub-operations -/

/-- Parsing with a count of the sub-operations that room was reserved for. -/
abbrev Reserving := ExceptT Fault (StateM Nat)

/-- `Vec::with_capacity(count)` -/
def reserve (count : Nat) : Reserving Unit := modify (· + count)

/-- `parse_chain` with its reservation; at most `count` sub-operations are pushed, so the vector does not grow. -/
def parseChainReserving (bytes : Bytes) (expectedPrev : Option Bytes32) : Reserving (Record × Bytes32) := do
  let header ← parseHeader bytes expectedPrev
  if header.1 = tagBatch then
    ensure (headerLen + 4 ≤ bytes.length) (corrupt "batch count overruns")
    let count := fromLe (← slice bytes headerLen (headerLen + 4))
    reserve count
    let ops ← parseOps bytes count (headerLen + 4)
    pure (batchRecord ops.1, header.2)
  else
    let op ← parsePayload header.1 bytes headerLen
    pure (⟨op.1, []⟩, header.2)

/-- The header of a batch passes, and the batch declares more sub-operations than the record has bytes. -/
def CountExceeds (s : Bytes) (e : Option Bytes32) : Prop :=
  HeaderPasses s tagBatch e ∧ headerLen + 4 ≤ s.length ∧ s.length < fromLe (range s headerLen (headerLen + 4))

variable {α β : Type} {c d : UInt32} {x b : UInt8} {k : Nat}

theorem ok_lift_bind (a : α) (f : α → Reserving β) (n : Nat) :
    (liftM (Except.ok a : Res α) >>= f : Reserving β).run.run n = (f a).run.run n := rfl

theorem error_lift_bind (e : Fault) (f : α → Reserving β) (n : Nat) :
    (liftM (Except.error e : Res α) >>= f : Reserving β).run.run n = (.error e, n) := rfl

theorem lift_map_run (x : Res α) (f : α → β) (n : Nat) :
    (liftM x >>= fun a => pure (f a) : Reserving β).run.run n = (x >>= fun a => pure (f a), n) := by
  cases x <;> rfl

theorem reserve_bind (count : Nat) (f : Unit → Reserving β) (n : Nat) :
    (reserve count >>= f).run.run n = (f ()).run.run (n + count) := rfl

/-- Keeping the count changes nothing about what is parsed, and no more than the record's length is reserved unless a
batch declares more sub-operations than that. -/
theorem reserved_le_iff (s : Bytes) (e : Option Bytes32) :
    ((parseChainReserving s e).run.run 0).1 = parseChain s e ∧
      (((parseChainReserving s e).run.run 0).2 ≤ s.length ↔ ¬ CountExceeds s e) := by
  rw [parseChainReserving, parseChain_eq]
  cases hheader : parseHeader s e with
  | error err =>
    have hpass : ¬ CountExceeds s e := by
      rintro ⟨hpass, -⟩
      obtain ⟨prev, hok⟩ := hpass.parseHeader
      rw [hok] at hheader
      cases hheader
    exact ⟨rfl, iff_of_true (Nat.zero_le _) hpass⟩
  | ok header =>
    obtain ⟨tag, prev⟩ := header
    have hpass := (parseHeader_eq_ok_iff.1 hheader).1
    rw [ok_lift_bind, ok_bind, parseBody]
    by_cases hb : tag = tagBatch
    · rw [if_pos hb, if_pos hb]
      by_cases hcount : headerLen + 4 ≤ s.length
      · rw [decide_eq_true hcount, ensure_true, ok_lift_bind, ok_bind, slice_add hcount, ok_lift_bind, ok_bind,
          reserve_bind, lift_map_run, Nat.zero_add]
        refine ⟨rfl, ?_⟩
        have hexceeds : CountExceeds s e ↔ s.length < fromLe (range s headerLen (headerLen + 4)) :=
          ⟨fun h => h.2.2, fun h => ⟨hb ▸ hpass, hcount, h⟩⟩
        rw [hexceeds, Nat.not_lt]
      · rw [decide_eq_false hcount, ensure_false, error_lift_bind, error_bind]
        exact ⟨rfl, iff_of_true (Nat.zero_le _) fun h => hcount h.2.1⟩
    · rw [if_neg hb, if_neg hb, lift_map_run]
      exact ⟨rfl, iff_of_true (Nat.zero_le _) fun h => hb (hpass.tag_unique h.1)⟩

def hugeBatch : Bytes :=
  let payload := le 4 (2 ^ 32 - 1)
  let crc := crc32Parts [tagBatch] (Bytes32.zero.val ++ payload)
  tagBatch :: (le 4 payload.length ++ (le 4 crc.toNat ++ (Bytes32.zero.val ++ payload)))

theorem hugeBatch_reserves : hugeBatch.length = 45 ∧
    ((parseChainReserving hugeBatch none).run.run 0).2 = 4294967295 ∧
    parseChain hugeBatch none = .error (corrupt "batch sub-op overruns") := by
  decide +kernel

/-! ### A damaged byte -/

def crcStep (c : UInt32) (byte : UInt8) : UInt32 := crcTable ((c ^^^ byte.toUInt32) &&& 0xFF) ^^^ (c >>> 8)

/-- The row of the table whose entry has the highest byte `t`: the eight shifts of `crcTable` taken back. -/
def crcRow (t : UInt32) : UInt32 :=
  (List.range 8).foldl (fun (c : UInt32) _ =>
    if c >>> 31 != 0 then ((c ^^^ (0xEDB88320 : UInt32)) <<< 1) ||| 1 else c <<< 1) (t <<< 24) &&& 0xFF

set_option maxRecDepth 10000 in
theorem crcRow_crcTable : ∀ i < 256, crcRow (crcTable (UInt32.ofNat i) >>> 24) = UInt32.ofNat i := by
  decide +kernel

theorem toNat_and_low (w : UInt32) : (w &&& 0xFF).toNat = w.toNat % 256 := by
  exact Nat.and_two_pow_sub_one_eq_mod w.toNat 8

theorem crcRow_top (w : UInt32) : crcRow (crcTable (w &&& 0xFF) >>> 24) = w &&& 0xFF := by
  have hlt : (w &&& 0xFF).toNat < 256 := by
    rw [toNat_and_low]
    exact Nat.mod_lt _ (by decide)
  have h := crcRow_crcTable _ hlt
  rwa [UInt32.ofNat_toNat] at h

theorem xor_shiftRight_top (w e : UInt32) : (w ^^^ (e >>> 8)) >>> 24 = w >>> 24 := by
  apply UInt32.toBitVec_inj.1
  ext i hi
  have hout : e.toBitVec.getLsbD (8 + (24 + i)) = false := BitVec.getLsbD_of_ge _ _ (by omega)
  simp [hout]

/-- The result of a step tells the three high bytes of the state, and the sum of its lowest byte with the byte read. -/
theorem crcStep_tells {y : UInt8} (h : crcStep c x = crcStep d y) :
    c.toNat / 256 = d.toNat / 256 ∧ (c.toNat % 256) ^^^ x.toNat = (d.toNat % 256) ^^^ y.toNat := by
  have hrow : (c ^^^ x.toUInt32) &&& 0xFF = (d ^^^ y.toUInt32) &&& 0xFF := by
    have htop := congrArg (fun w : UInt32 => crcRow (w >>> 24)) h
    simpa only [crcStep, xor_shiftRight_top, crcRow_top] using htop
  have hrest : c >>> 8 = d >>> 8 := by
    rw [crcStep, crcStep, hrow] at h
    exact (UInt32.xor_right_inj _).1 h
  have hlow : ∀ (e : UInt32) (z : UInt8), ((e ^^^ z.toUInt32) &&& 0xFF).toNat = (e.toNat % 256) ^^^ z.toNat := by
    intro e z
    have hz : z.toNat % 2 ^ 8 = z.toNat := Nat.mod_eq_of_lt z.toNat_lt
    rw [toNat_and_low, UInt32.toNat_xor, UInt8.toNat_toUInt32, Nat.xor_mod_two_pow (n := 8), hz]
  have hhigh : ∀ e : UInt32, (e >>> 8).toNat = e.toNat / 256 := by
    intro e
    simp [Nat.shiftRight_eq_div_pow]
  exact ⟨by rw [← hhigh, ← hhigh, hrest], by rw [← hlow, ← hlow, hrow]⟩

theorem crcStep_left_injective (h : crcStep c x = crcStep d x) : c = d := by
  obtain ⟨hhigh, hlow⟩ := crcStep_tells h
  have hmod : c.toNat % 256 = d.toNat % 256 := by
    have hxor := congrArg (· ^^^ x.toNat) hlow
    simpa only [Nat.xor_assoc, Nat.xor_self, Nat.xor_zero] using hxor
  apply UInt32.toNat_inj.1
  omega

theorem crcStep_right_injective {y : UInt8} (h : crcStep c x = crcStep c y) : x = y := by
  have hxor := congrArg ((c.toNat % 256) ^^^ ·) (crcStep_tells h).2
  apply UInt8.toNat_inj.1
  simpa only [← Nat.xor_assoc, Nat.xor_self, Nat.zero_xor] using hxor

theorem foldl_crcStep_injective (l : Bytes) (h : l.foldl crcStep c = l.foldl crcStep d) : c = d := by
  induction l generalizing c d with
  | nil => exact h
  | cons x l ih => exact crcStep_left_injective (ih h)

theorem foldl_crcStep_set_ne {l : Bytes} (hk : k < l.length) (hb : l[k]? ≠ some b)
    (c : UInt32) : (l.set k b).foldl crcStep c ≠ l.foldl crcStep c := by
  intro h
  have hl : l = l.take k ++ l[k] :: l.drop (k + 1) := by
    rw [← List.drop_eq_getElem_cons hk, List.take_append_drop]
  rw [List.set_eq_take_append_cons_drop, if_pos hk, congrArg (List.foldl crcStep c) hl, List.foldl_append,
    List.foldl_append, List.foldl_cons, List.foldl_cons] at h
  exact hb (List.getElem?_eq_some_iff.2 ⟨hk, (crcStep_right_injective (foldl_crcStep_injective _ h)).symm⟩)

theorem crc32Parts_injective {a b c d : Bytes} (h : (crc32Parts a b).toNat = (crc32Parts c d).toNat) :
    (a ++ b).foldl crcStep 0xFFFFFFFF = (c ++ d).foldl crcStep 0xFFFFFFFF :=
  (UInt32.xor_left_inj 0xFFFFFFFF).1 (UInt32.toNat_inj.1 h)

def DiffersInOneByte (s t : Bytes) : Prop := ∃ k b, k < t.length ∧ t[k]? ≠ some b ∧ s = t.set k b

/-- The checksum covers the tag and all that follows the checksum itself. -/
theorem crc_set_ne {t : Bytes} (hk : k < t.length) (hb : t[k]? ≠ some b) (h9 : 9 ≤ t.length)
    (hcovered : k = 0 ∨ 9 ≤ k) :
    crc32Parts (range (t.set k b) 0 1) (range (t.set k b) 9 t.length) ≠ crc32Parts (range t 0 1) (range t 9 t.length) := by
  have htag : (range t 0 1).length = 1 := length_range (by omega) (by omega)
  have hrest : (range t 9 t.length).length = t.length - 9 := length_range h9 le_rfl
  have hall : (range t 0 1 ++ range t 9 t.length).length = t.length - 8 := by
    rw [List.length_append, htag, hrest]
    omega
  intro h
  have hfold := crc32Parts_injective (congrArg UInt32.toNat h)
  obtain rfl | hk9 := hcovered
  · have hset : range (t.set 0 b) 0 1 ++ range (t.set 0 b) 9 t.length = (range t 0 1 ++ range t 9 t.length).set 0 b := by
      rw [range_set_in (Nat.zero_le _), range_set_out (by omega), List.set_append_left _ _ (by omega)]
    have hget : (range t 0 1 ++ range t 9 t.length)[0]? = t[0]? := by
      rw [List.getElem?_append_left (by omega)]
      exact getElem?_range (Nat.zero_le 0) Nat.zero_lt_one
    rw [hset] at hfold
    exact foldl_crcStep_set_ne (by omega) (hget ▸ hb) _ hfold
  · have hset : range (t.set k b) 0 1 ++ range (t.set k b) 9 t.length =
        (range t 0 1 ++ range t 9 t.length).set (1 + (k - 9)) b := by
      rw [range_set_out (by omega), range_set_in hk9, List.set_append_right _ _ (by omega), htag, Nat.add_sub_cancel_left]
    have hget : (range t 0 1 ++ range t 9 t.length)[1 + (k - 9)]? = t[k]? := by
      rw [List.getElem?_append_right (by omega), htag, Nat.add_sub_cancel_left, getElem?_range hk9 (by omega)]
    rw [hset] at hfold
    exact foldl_crcStep_set_ne (by omega) (hget ▸ hb) _ hfold

/-- A header does not pass once a byte of its record is changed. -/
theorem not_headerPasses_set (r : Record) (prev : Bytes32)
    (hk : k < (r.toBytes prev).length) (hb : (r.toBytes prev)[k]? ≠ some b) (tag : UInt8) :
    ¬ HeaderPasses ((r.toBytes prev).set k b) tag none := by
  have hlen := r.length_toBytes prev
  obtain ⟨htag, hdecl, hcrc, -, hrest, -⟩ := r.toBytes_fields prev
  rw [← htag, ← hrest] at hcrc
  generalize r.toBytes prev = t at *
  have hn : t.length = 41 + r.payload.length := hlen
  intro hpass
  have hpdecl := hpass.declared
  have hpcrc := hpass.crc
  rw [List.length_set] at hpdecl hpcrc
  -- a field that reads as before holds the bytes it held before
  have changed : ∀ {i j : Nat}, i ≤ k → k < j → range (t.set k b) i j ≠ range t i j := by
    intro i j hi hj h
    have hget := getElem?_range (s := t.set k b) hi hj
    rw [h, getElem?_range hi hj, List.getElem?_set_self hk] at hget
    exact hb hget
  have word : ∀ {i j n : Nat}, i ≤ j → j ≤ t.length → j - i = 4 → fromLe (range (t.set k b) i j) = n →
      range (t.set k b) i j = le 4 n := by
    rintro i j n hij hj hw rfl
    rw [le_fromLe]
    rw [length_range hij (by rw [List.length_set]; exact hj), hw]
  by_cases hfield : 1 ≤ k ∧ k < 5
  · refine changed hfield.1 hfield.2 ?_
    rw [hdecl]
    exact word (by omega) (by omega) rfl (by rw [hpdecl, hlen, Nat.add_sub_cancel_left])
  · by_cases hsum : 5 ≤ k ∧ k < 9
    · refine changed hsum.1 hsum.2 ?_
      rw [range_set_out (by omega), range_set_out (by omega)] at hpcrc
      rw [hcrc]
      exact word (by omega) (by omega) rfl hpcrc.symm
    · rw [range_set_out (i := 5) (by omega), hcrc, fromLe_le_of_lt (UInt32.toNat_lt _)] at hpcrc
      exact crc_set_ne hk hb (by omega) (by omega) (UInt32.toNat_inj.1 hpcrc)

/-- One damaged byte of a record is noticed, whatever the length of its payload. -/
theorem damaged_byte_detected (r : Record) (prev : Bytes32) {s : Bytes}
    (h : DiffersInOneByte s (r.toBytes prev)) : ∃ detail, parseChain s none = .error (corrupt detail) := by
  obtain ⟨k, b, hk, hb, rfl⟩ := h
  obtain ⟨tag, prev', ⟨hpass, -⟩, -⟩ | ⟨-, d, hd⟩ := parseChain_cases ((r.toBytes prev).set k b) none
  · exact absurd hpass (not_headerPasses_set r prev hk hb tag)
  · exact ⟨d, hd⟩

theorem damaged_byte_detected_value : ∃ detail,
    parseChain ((mixedBatch.toBytes .zero).set 60 7) none = .error (corrupt detail) :=
  damaged_byte_detected mixedBatch .zero ⟨60, 7, by decide +kernel, by decide +kernel, rfl⟩

end BunnyMesh
