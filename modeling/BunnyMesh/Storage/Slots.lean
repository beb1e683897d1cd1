import BunnyMesh.Storage.View

/-!
# The history of one key

The state of a key after a replay is the fold of the operations on that key (`NsState.unseq_slot_replay`), up to the
record numbers that its versions carry.
-/

namespace BunnyMesh

/-! ### Forgetting record numbers -/

def Version.unseq (v : Version) : Version := { v with seq := 0 }

def Entry.unseq : Entry → Entry
  | .lww v => .lww v.unseq
  | .register vs => .register (vs.map Version.unseq)

def Slot.unseq (sl : Slot) : Slot := ⟨sl.entry.map Entry.unseq, sl.tomb⟩

theorem Slot.versions_unseq (sl : Slot) : sl.unseq.versions = sl.versions.map Version.unseq := by
  obtain ⟨_ | _ | _, _⟩ := sl <;> rfl

theorem isNewer_unseq (op : Op) (seq : Nat) (sl : Slot) :
    isNewer (op.version 0) sl.unseq.entry = isNewer (op.version seq) sl.entry := by
  obtain ⟨_ | _ | _, _⟩ := sl <;> rfl

theorem Slot.unseq_recordOp (p : ConflictPolicy) (op : Op) (seq : Nat) (sl : Slot) :
    (sl.recordOp p op seq).unseq = sl.unseq.recordOp p op 0 := by
  unfold Slot.recordOp
  split
  · cases p with
    | lww =>
      simp only [isNewer_unseq op seq sl]
      split <;> rfl
    | crdtRegister =>
      simp only [versions_unseq]
      simp only [Slot.unseq, Option.map_some, Entry.unseq, List.map_append]
      rfl
  · split <;> rfl

/-! ### The operations on one key -/

def opsOn (k : Bytes) (rs : List Record) : List Op := (rs.flatMap Record.dataOps).filter fun op => op.key = k

theorem opsOn_cons (k : Bytes) (r : Record) (rs : List Record) :
    opsOn k (r :: rs) = (r.dataOps.filter fun op => op.key = k) ++ opsOn k rs := by
  simp [opsOn]

theorem opsOn_append (k : Bytes) (rs rs' : List Record) : opsOn k (rs ++ rs') = opsOn k rs ++ opsOn k rs' := by
  simp [opsOn]

namespace NsState

variable {p : ConflictPolicy} {seq : Nat}

theorem slot_foldl_recordOp (ops : List Op) (st : NsState) (k : Bytes) :
    (ops.foldl (recordOp p seq) st).slot k =
      (ops.filter fun op => op.key = k).foldl (fun sl op => sl.recordOp p op seq) (st.slot k) := by
  induction ops generalizing st with
  | nil => rfl
  | cons op ops ih =>
    rw [List.foldl_cons, ih]
    by_cases hk : op.key = k
    · subst hk
      simp [recordOp]
    · simp [recordOp, hk, Ne.symm hk]

theorem slot_record (st : NsState) (r : Record) (k : Bytes) : (st.record p seq r).slot k =
    (r.dataOps.filter fun op => op.key = k).foldl (fun sl op => sl.recordOp p op seq) (st.slot k) := by
  rw [← slot_foldl_recordOp]
  unfold record Record.dataOps
  split_ifs <;> rfl

theorem unseq_slot_replay (st : NsState) (rs : List Record) (k : Bytes) : ((st.replay p seq rs).slot k).unseq =
    (opsOn k rs).foldl (fun sl op => sl.recordOp p op 0) (st.slot k).unseq := by
  induction rs generalizing seq st with
  | nil => rfl
  | cons r rs ih =>
    have hfold : ∀ (ops : List Op) (sl : Slot), (ops.foldl (fun sl op => sl.recordOp p op seq) sl).unseq =
        ops.foldl (fun sl op => sl.recordOp p op 0) sl.unseq := by
      intro ops
      induction ops with
      | nil => intro sl; rfl
      | cons op ops ih => intro sl; rw [List.foldl_cons, ih, Slot.unseq_recordOp, List.foldl_cons]
    rw [replay, ih, slot_record, hfold, opsOn_cons, List.foldl_append]

end NsState

end BunnyMesh
