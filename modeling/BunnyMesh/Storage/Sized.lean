import BunnyMesh.Storage.Compact
import BunnyMesh.Storage.Scan
import BunnyMesh.Storage.Change

/-!
# Sizes

Whatever the store holds came from a record, so it fits a record again: compaction can write it back
(`compacted_wellFormed`).
-/

namespace BunnyMesh

open Std Store

/-- The write fits a record of its own. -/
structure Op.Sized (op : Op) : Prop where
  fits : (payloadBytes op).length < 2 ^ 32
  ttl : op.TtlOk

theorem length_payload_le_opsBytes {op : Op} {ops : List Op} (h : op ∈ ops) :
    (payloadBytes op).length ≤ (opsBytes ops).length := by
  induction ops with
  | nil => cases h
  | cons op' ops ih =>
    rw [opsBytes_cons, List.length_append, List.length_append]
    rcases List.mem_cons.1 h with rfl | h
    · omega
    · have := ih h
      omega

theorem Record.WellFormed.sized {r : Record} (h : r.WellFormed) : ∀ op ∈ r.dataOps, op.Sized := by
  intro op hop
  have hfits := h.fits
  unfold Record.dataOps at hop
  split_ifs at hop with h1 h2
  · rw [List.mem_singleton] at hop
    subst hop
    have hb : r.tag ≠ tagBatch := fun hb => by rw [hb] at h1; exact absurd h1 (by decide)
    rw [Record.payload, if_neg hb] at hfits
    exact ⟨hfits, h.ttl⟩
  · have := length_payload_le_opsBytes hop
    rw [Record.payload, if_pos h2, List.length_append] at hfits
    exact ⟨by omega, (h.subs op hop).ttl⟩
  · cases hop

/-- A version of `key` that could be written again. -/
def Version.Sized (key : Bytes) (v : Version) : Prop := (v.toRecord key).WellFormed

theorem putRecord_payload (key value : Bytes) (hlc : UInt64) (replica author : Bytes32) (expiresAt : UInt64) :
    (putRecord key value hlc replica author expiresAt).payload.length =
      84 + key.length + value.length + if expiresAt = 0 then 0 else 8 := by
  rcases putRecord_tag key value hlc replica author expiresAt with ⟨ht, h0⟩ | ⟨ht, h0⟩
  · rw [Record.payload, if_neg (by rw [ht]; decide), length_payloadBytes, ht, if_pos h0, if_neg (by decide)]
    rfl
  · rw [Record.payload, if_neg (by rw [ht]; decide), length_payloadBytes, ht, if_neg h0, if_pos rfl]
    rfl

theorem Op.Sized.version {op : Op} (h : op.Sized) (seq : Nat) : (op.version seq).Sized op.key := by
  refine putRecord_wellFormed ?_
  have hfits := h.fits
  rw [length_payloadBytes] at hfits
  rw [putRecord_payload]
  change 84 + op.key.length + op.value.length + (if op.expiresAt = 0 then 0 else 8) < 2 ^ 32
  by_cases he : op.expiresAt = 0
  · rw [if_pos he]
    omega
  · rw [if_neg he]
    rw [if_pos (not_not.1 fun ht => he (h.ttl ht))] at hfits
    omega

theorem Op.Sized.delRecord {op : Op} (h : op.Sized) (hlc : UInt64) :
    (BunnyMesh.delRecord op.key hlc .zero .zero).WellFormed := by
  refine delRecord_wellFormed ?_
  have hfits := h.fits
  rw [length_payloadBytes] at hfits
  have htag : (BunnyMesh.delRecord op.key hlc .zero .zero).tag = tagDel := rfl
  rw [Record.payload, htag, if_neg (by decide), length_payloadBytes, htag, if_neg (by decide)]
  change 84 + op.key.length + 0 + 0 < 2 ^ 32
  omega

/-! ### Properties of slots -/

/-- A property of the slots that holds of an empty slot and that the operations of well-formed records keep. -/
structure SlotKept (P : Bytes → Slot → Prop) : Prop where
  empty : ∀ k, P k ⟨none, none⟩
  recordOp : ∀ {op : Op} {sl : Slot}, op.Sized → P op.key sl → ∀ p seq, P op.key (sl.recordOp p op seq)
  localOp : ∀ {op : Op} {sl : Slot}, op.Sized → P op.key sl → ∀ p seq, P op.key (sl.localOp p op seq)

variable {P : Bytes → Slot → Prop} {st : NsState} {p : ConflictPolicy}

theorem NsState.each_empty (hP : SlotKept P) : empty.Each P := fun k => hP.empty k

theorem SlotKept.record (hP : SlotKept P) (h : st.Each P) {r : Record} (hr : r.WellFormed) (seq : Nat) :
    (st.record p seq r).Each P :=
  h.record fun op hop _ hsl => hP.recordOp (hr.sized op hop) hsl p seq

theorem SlotKept.replay (hP : SlotKept P) (h : st.Each P) {rs : List Record} (hrs : ∀ r ∈ rs, r.WellFormed) (seq : Nat) :
    (st.replay p seq rs).Each P :=
  h.replay fun n _ _ r hr op hop _ hsl => hP.recordOp ((hrs r hr).sized op hop) hsl p n

theorem NsState.Each.effect (hP : SlotKept P) (h : st.Each P) {c : Change} (hc : c.record.WellFormed) (seq : Nat) :
    (c.effect p seq st).Each P := by
  cases c with
  | write r => exact h.foldl_localOp fun op hop _ hsl => hP.localOp (Record.WellFormed.sized (r := r) hc op hop) hsl p seq
  | synced r => exact hP.record h (r := r) hc seq
  | schema => exact h
  | index => exact h

/-! ### Slots that fit -/

def Entry.versions : Entry → List Version
  | .lww v => [v]
  | .register vs => vs

theorem Entry.mem_kept {now : UInt64} {e : Entry} {v : Version} :
    v ∈ e.kept now ↔ v ∈ e.versions ∧ v.expired now = false := by
  cases e with
  | lww v' =>
    by_cases h : v'.expired now = true
    · simp only [Entry.kept, h, if_true, Entry.versions, List.mem_singleton, List.not_mem_nil, false_iff, not_and]
      rintro rfl
      simp [h]
    · simp only [Entry.kept, h, Bool.false_eq_true, if_false, Entry.versions, List.mem_singleton, iff_self_and]
      rintro rfl
      exact Bool.eq_false_iff.2 h
  | register vs => simp [Entry.kept, Entry.versions]

/-- Everything in the slot of `k` could be written again. -/
structure Slot.Sized (k : Bytes) (sl : Slot) : Prop where
  entry : ∀ e, sl.entry = some e → ∀ v ∈ e.versions, v.Sized k
  tomb : ∀ hlc, sl.tomb = some hlc → (delRecord k hlc .zero .zero).WellFormed

namespace Slot.Sized

variable {sl : Slot} {op : Op}

theorem lww (h : sl.Sized op.key) (hop : op.Sized) (seq : Nat) (tomb : Option UInt64) (ht : tomb = sl.tomb ∨ tomb = none) :
    Slot.Sized op.key ⟨some (.lww (op.version seq)), tomb⟩ := by
  refine ⟨fun e he v hv => ?_, fun hlc hh => ?_⟩
  · cases he
    rw [List.mem_singleton.1 hv]
    exact hop.version seq
  · rcases ht with rfl | rfl
    · exact h.tomb hlc hh
    · cases hh

theorem register (h : sl.Sized op.key) (hop : op.Sized) (seq : Nat) (tomb : Option UInt64)
    (ht : tomb = sl.tomb ∨ tomb = none) :
    Slot.Sized op.key ⟨some (.register (sl.versions ++ [op.version seq])), tomb⟩ := by
  refine ⟨fun e he v hv => ?_, fun hlc hh => ?_⟩
  · cases he
    rcases List.mem_append.1 hv with hv | hv
    · unfold Slot.versions at hv
      split at hv
      · rename_i vs hvs
        exact h.entry _ hvs v hv
      · cases hv
    · rw [List.mem_singleton.1 hv]
      exact hop.version seq
  · rcases ht with rfl | rfl
    · exact h.tomb hlc hh
    · cases hh

theorem deleted (hop : op.Sized) (hlc : UInt64) : Slot.Sized op.key ⟨none, some hlc⟩ :=
  ⟨fun _ he => (nomatch he), fun _ _ => hop.delRecord _⟩

theorem recordOp (h : sl.Sized op.key) (hop : op.Sized) (p : ConflictPolicy) (seq : Nat) :
    (sl.recordOp p op seq).Sized op.key := by
  unfold Slot.recordOp
  split
  · cases p with
    | lww =>
      dsimp only
      split
      · exact h.lww hop seq _ (.inl rfl)
      · exact h
    | crdtRegister => exact h.register hop seq _ (.inl rfl)
  · split
    · exact deleted hop op.hlc
    · exact h

theorem localOp (h : sl.Sized op.key) (hop : op.Sized) (p : ConflictPolicy) (seq : Nat) :
    (sl.localOp p op seq).Sized op.key := by
  unfold Slot.localOp
  split
  · cases p with
    | lww => exact h.lww hop seq _ (.inr rfl)
    | crdtRegister => exact h.register hop seq _ (.inr rfl)
  · split
    · exact deleted hop op.hlc
    · exact h

theorem slotKept : SlotKept fun k sl => sl.Sized k where
  empty _ := ⟨fun _ h => (nomatch h), fun _ h => (nomatch h)⟩
  recordOp hop h p seq := h.recordOp hop p seq
  localOp hop h p seq := h.localOp hop p seq

end Slot.Sized

namespace NsState

def Sized (st : NsState) : Prop := ∀ k, (st.slot k).Sized k

theorem sized_empty : empty.Sized := each_empty Slot.Sized.slotKept

end NsState

theorem compacted_wellFormed {s : Store} {ns : Bytes} (h : (s.view ns).Sized) (now : UInt64) :
    ∀ r ∈ compacted s ns now, r.WellFormed := by
  intro r hr
  rcases List.mem_append.1 hr with hr | hr
  · simp only [putRecords, List.mem_flatMap, List.mem_map, Prod.exists] at hr
    obtain ⟨k, e, hmem, v, hv, rfl⟩ := hr
    rw [Store.mem_scan] at hmem
    exact (h k).entry e hmem.1 v (Entry.mem_kept.1 hv).1
  · simp only [delRecords, List.mem_filterMap, Prod.exists] at hr
    obtain ⟨n, k, hlc, hmem, hsome⟩ := hr
    split_ifs at hsome with hc
    obtain ⟨rfl, _⟩ := hc
    cases hsome
    exact (h k).tomb hlc (ExtTreeMap.mem_toList_iff_getElem?_eq_some.1 hmem)

end BunnyMesh
