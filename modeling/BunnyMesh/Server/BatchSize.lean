import BunnyMesh.Net.Serving
import BunnyMesh.Server.Batch

/-!
# The size of a batch

`handle_batch` bounds the record of a batch before it decodes anything: it adds up a bound for each operation and refuses
what comes above 6 MiB.  The bounds hold for the operations, but the record also has a header and a count, and 6 MiB is all
that `serve_pull` serves of one record.  So a batch can pass the estimate and write a record that no peer can pull
(`batch_servable_iff`).
-/

namespace BunnyMesh

/-! ### What the operations of a batch write -/

def BatchOp.bytes (op : BatchOp) : Nat :=
  match op.key with
  | none => 0
  | some key =>
    if op.op = str "put" then
      match op.value.map b64Decode with
      | some (.ok value) => 85 + key.length + value.length + if op.ttl.getD 0 > 0 then 8 else 0
      | _ => 0
    else if op.op = str "del" then 85 + key.length
    else 0

theorem length_section (o : Op) :
    ([o.tag] ++ payloadBytes o).length = 85 + o.key.length + o.value.length + if o.tag = tagPutTtl then 8 else 0 := by
  rw [List.length_append, length_payloadBytes, List.length_singleton]
  omega

theorem BatchOp.Writes.length_le {op : BatchOp} {o : Op} (h : op.Writes o) :
    ([o.tag] ++ payloadBytes o).length ≤ op.bytes := by
  rw [length_section]
  cases h with
  | put key text value hlc now expiresAt replica author hop hkey htext hvalue hexpires =>
    have hbytes : op.bytes = 85 + key.length + value.length + if op.ttl.getD 0 > 0 then 8 else 0 := by
      rw [bytes, hkey, htext]
      simp [hop, hvalue]
    rw [hbytes]
    by_cases httl : op.ttl.getD 0 > 0
    · simp only [if_pos httl]
      split_ifs <;> omega
    · rw [if_neg httl] at hexpires
      subst hexpires
      rw [if_neg httl]
      exact Nat.le_refl _
  | del key hlc replica author hop hkey =>
    rw [bytes, hkey]
    simp only [hop, if_neg (show str "del" ≠ str "put" by decide), if_true, if_neg (show tagDel ≠ tagPutTtl by decide)]
    exact Nat.le_refl _

theorem BatchOp.bytes_attained (op : BatchOp) :
    op.bytes = 0 ∨ ∃ o, op.Writes o ∧ ([o.tag] ++ payloadBytes o).length = op.bytes := by
  cases hkey : op.key with
  | none => exact .inl (by rw [bytes, hkey])
  | some key =>
    by_cases hput : op.op = str "put"
    · cases htext : op.value with
      | none =>
        left
        rw [bytes, hkey, htext]
        simp [hput]
      | some text =>
        cases hvalue : b64Decode text with
        | error e =>
          left
          rw [bytes, hkey, htext]
          simp [hput, hvalue]
        | ok value =>
          -- the clock at which the expiry is not the zero that stands for none
          have hwrites := Writes.put key text value 0 (1 - UInt64.ofNat (op.ttl.getD 0) * 1000) _ .zero .zero hput hkey htext
            hvalue rfl
          refine .inr ⟨_, hwrites, ?_⟩
          rw [length_section, bytes, hkey, htext]
          simp only [hput, if_true, Option.map_some, hvalue]
          by_cases httl : op.ttl.getD 0 > 0
          · simp only [if_pos httl, UInt64.sub_add_cancel]
            rfl
          · simp only [if_neg httl]
            rfl
    · by_cases hdel : op.op = str "del"
      · refine .inr ⟨_, .del key 0 .zero .zero hdel hkey, ?_⟩
        rw [length_section, bytes, hkey]
        simp only [hdel, if_neg (show str "del" ≠ str "put" by decide), if_true]
        rfl
      · left
        rw [bytes, hkey]
        simp [if_neg hput, if_neg hdel]

/-! ### The estimate -/

theorem sum_bytes_le_estimate (ops : List BatchOp) : (ops.map BatchOp.bytes).sum ≤ batchEstimate ops := by
  unfold batchEstimate
  induction ops with
  | nil => exact Nat.le_refl _
  | cons op ops ih =>
    rw [List.map_cons, List.map_cons, List.sum_cons, List.sum_cons]
    refine Nat.add_le_add ?_ ih
    cases hkey : op.key with
    | none =>
      rw [BatchOp.bytes, hkey]
      exact Nat.zero_le _
    | some key =>
      rw [BatchOp.bytes, hkey]
      split_ifs with hput httl hdel
      all_goals try exact Nat.le_refl _
      all_goals
        cases htext : op.value with
        | none => simp
        | some text =>
          cases hvalue : b64Decode text with
          | error e => simp [hvalue]
          | ok value =>
            have hlen := length_decodeImpl_le hvalue
            simp only [Option.map_some, Option.getD_some, hvalue]
            omega

/-! ### The record -/

theorem length_opsBytes (applied : List Op) :
    (opsBytes applied).length = (applied.map fun o => ([o.tag] ++ payloadBytes o).length).sum := by
  induction applied with
  | nil => rfl
  | cons o applied ih => rw [opsBytes_cons, ← List.append_assoc, List.length_append, ih, List.map_cons, List.sum_cons]

theorem length_batchRecord (applied : List Op) (prev : Bytes32) :
    ((batchRecord applied).toBytes prev).length = 45 + (opsBytes applied).length := by
  rw [Record.length_toBytes, Record.payload, if_pos (batchRecord_tag applied), batchRecord_ops, List.length_append,
    ByteCodec.length_le, headerLen]
  omega

theorem length_writes_le {ops sub : List BatchOp} {applied : List Op} (hsub : sub.Sublist ops)
    (hwrites : List.Forall₂ BatchOp.Writes sub applied) : (opsBytes applied).length ≤ (ops.map BatchOp.bytes).sum := by
  rw [length_opsBytes]
  induction hsub generalizing applied with
  | slnil =>
    cases hwrites
    exact Nat.le_refl _
  | cons op hsub ih =>
    exact Nat.le_add_left_of_le (ih hwrites)
  | cons_cons op hsub ih =>
    cases hwrites with
    | cons hop hwrites =>
      exact Nat.add_le_add hop.length_le (ih hwrites)

theorem exists_writes (ops : List BatchOp) : ∃ sub applied, sub.Sublist ops ∧
    List.Forall₂ BatchOp.Writes sub applied ∧ (opsBytes applied).length = (ops.map BatchOp.bytes).sum := by
  induction ops with
  | nil => exact ⟨[], [], .slnil, .nil, rfl⟩
  | cons op ops ih =>
    obtain ⟨sub, applied, hsub, hwrites, hlen⟩ := ih
    rw [List.map_cons, List.sum_cons]
    rcases op.bytes_attained with hnone | ⟨o, ho, hbytes⟩
    · exact ⟨sub, applied, hsub.cons op, hwrites, by omega⟩
    · refine ⟨op :: sub, o :: applied, hsub.cons_cons op, .cons ho hwrites, ?_⟩
      rw [opsBytes_cons, ← List.append_assoc, List.length_append, hbytes, hlen]

theorem servable_iff (b : Bytes) : Servable b ↔ b.length ≤ maxBatchRecordBytes := by
  unfold Servable maxSingleRecordB64 maxBatchRecordBytes
  omega

/-- A batch that passes the estimate can be pulled, whichever of its operations end up in the record, exactly if there is
room for the header and the count next to its operations. -/
theorem batch_servable_iff (ops : List BatchOp) :
    (batchEstimate ops ≤ maxBatchRecordBytes → ∀ sub applied prev, sub.Sublist ops →
      List.Forall₂ BatchOp.Writes sub applied → Servable ((batchRecord applied).toBytes prev)) ↔
    (batchEstimate ops ≤ maxBatchRecordBytes → 45 + (ops.map BatchOp.bytes).sum ≤ maxBatchRecordBytes) := by
  constructor
  · intro hall hest
    obtain ⟨sub, applied, hsub, hwrites, hlen⟩ := exists_writes ops
    have hservable := hall hest sub applied .zero hsub hwrites
    rwa [servable_iff, length_batchRecord, hlen] at hservable
  · intro hroom hest sub applied prev hsub hwrites
    rw [servable_iff, length_batchRecord]
    exact Nat.le_trans (Nat.add_le_add_left (length_writes_le hsub hwrites) 45) (hroom hest)

/-- The estimate of the deletion of a key of this length is just within the limit; its record is 45 bytes longer, and no
peer can pull it. -/
theorem batch_not_servable {key : Bytes} (h : key.length = maxBatchRecordBytes - 85) :
    batchEstimate [⟨str "del", some key, none, none⟩] ≤ maxBatchRecordBytes ∧
      ∃ o, BatchOp.Writes ⟨str "del", some key, none, none⟩ o ∧ ¬ Servable ((batchRecord [o]).toBytes .zero) := by
  refine ⟨?_, _, .del key 1 .zero .zero rfl rfl, ?_⟩
  · simp only [batchEstimate, List.map_cons, List.map_nil, List.sum_cons, List.sum_nil,
      if_neg (show str "del" ≠ str "put" by decide), if_true, Option.map_some, Option.getD_some, h]
    decide
  · rw [servable_iff, length_batchRecord, length_opsBytes, List.map_cons, List.map_nil, List.sum_cons, List.sum_nil,
      length_section]
    simp only [h, List.length_nil, if_neg (show tagDel ≠ tagPutTtl by decide)]
    decide

/-- The deletion of a key that fills the estimate up. -/
theorem long_del_not_servable :
    batchEstimate [⟨str "del", some (List.replicate (maxBatchRecordBytes - 85) 97), none, none⟩] ≤ maxBatchRecordBytes ∧
      ∃ o, BatchOp.Writes ⟨str "del", some (List.replicate (maxBatchRecordBytes - 85) 97), none, none⟩ o ∧
        ¬ Servable ((batchRecord [o]).toBytes .zero) :=
  batch_not_servable List.length_replicate

end BunnyMesh
