import BunnyMesh.Storage.LogRep

/-!
# Runs of a log

A log is opened on an empty directory and then appended to, rewritten and opened again, in any order.  At every moment
the handle in memory is the one a recovery of the files would build (`log_run_refines`).
-/

namespace BunnyMesh

/-! ### Records that can be written -/

/-- A record with a known tag whose payload fits the length field; the fields the wire form drops may hold anything. -/
@[mk_iff]
structure Record.Encodable (r : Record) : Prop where
  tag : isRecordTag r.tag
  fits : r.payload.length < 2 ^ 32
  subs : r.tag = tagBatch → ∀ op ∈ r.ops, isOpTag op.tag

instance (r : Record) : Decidable r.Encodable := decidable_of_iff' _ (Record.encodable_iff r)

/-- The write without the expiry that only a TTL write stores. -/
def Op.canonical (op : Op) : Op := { op with expiresAt := if op.tag = tagPutTtl then op.expiresAt else 0 }

/-- What the parser makes of the record. -/
def Record.canonical (r : Record) : Record :=
  if r.tag = tagBatch then batchRecord (r.ops.map Op.canonical) else ⟨r.toOp.canonical, []⟩

theorem Op.ttlOk_canonical (op : Op) : op.canonical.TtlOk := fun h => if_neg h

theorem payloadBytes_canonical (op : Op) : payloadBytes op.canonical = payloadBytes op := by
  unfold payloadBytes Op.canonical
  by_cases h : op.tag = tagPutTtl
  · simp [if_pos h]
  · simp [if_neg h]

theorem opsBytes_canonical (ops : List Op) : opsBytes (ops.map Op.canonical) = opsBytes ops := by
  induction ops with
  | nil => rfl
  | cons op ops ih =>
    rw [List.map_cons, opsBytes_cons, opsBytes_cons, ih, payloadBytes_canonical]
    rfl

theorem Record.tag_canonical (r : Record) : r.canonical.tag = r.tag := by
  unfold Record.canonical
  split
  · rename_i h
    rw [batchRecord_tag, h]
  · rfl

theorem Record.payload_canonical (r : Record) : r.canonical.payload = r.payload := by
  by_cases h : r.tag = tagBatch
  · have hc : r.canonical = batchRecord (r.ops.map Op.canonical) := if_pos h
    rw [Record.payload, Record.payload, r.tag_canonical, if_pos h, if_pos h, hc, batchRecord_ops, opsBytes_canonical,
      List.length_map]
  · have hc : r.canonical = ⟨r.toOp.canonical, []⟩ := if_neg h
    rw [Record.payload, Record.payload, r.tag_canonical, if_neg h, if_neg h, hc, payloadBytes_canonical]

theorem Record.toBytes_canonical (r : Record) (prev : Bytes32) : r.canonical.toBytes prev = r.toBytes prev := by
  unfold Record.toBytes
  rw [r.tag_canonical, r.payload_canonical]

theorem Record.Encodable.wellFormed_canonical {r : Record} (h : r.Encodable) : r.canonical.WellFormed := by
  have htag : isRecordTag r.canonical.tag := by rw [r.tag_canonical]; exact h.tag
  have hfits : r.canonical.payload.length < 2 ^ 32 := by rw [r.payload_canonical]; exact h.fits
  by_cases hb : r.tag = tagBatch
  · have hc : r.canonical = batchRecord (r.ops.map Op.canonical) := if_pos hb
    rw [hc] at hfits ⊢
    refine batchRecord_wellFormed (fun op hop => ?_) hfits
    obtain ⟨op', hop', rfl⟩ := List.mem_map.1 hop
    exact ⟨h.subs hb op' hop', op'.ttlOk_canonical⟩
  · have hc : r.canonical = ⟨r.toOp.canonical, []⟩ := if_neg hb
    rw [hc] at htag hfits ⊢
    exact Record.wellFormed_of_single htag hb r.toOp.ttlOk_canonical rfl hfits

/-! ### Operations -/

/-- What is done with a log: a record is appended, the log is opened again, or it is rewritten and opened. -/
inductive LogCmd where
  | append (r : Record)
  | reopen (durable : Bool)
  | rewrite (records : List Record) (durable : Bool)

def openLogDir [Crates] (dir : Bytes) (nd : NsDir) (durable : Bool) : Res (NsDir × Log) := do
  let (log, _, effects) ← recoverDurable dir nd durable
  pure (applyAll nd effects, log)

namespace LogCmd

def Valid : LogCmd → Prop
  | append r => r.Encodable
  | reopen _ => True
  | rewrite records _ => ∀ r ∈ records, r.Encodable

instance (c : LogCmd) : Decidable c.Valid := by
  cases c <;> delta Valid <;> infer_instance

/-- A record is encoded with the running head in its `prev` field. -/
def run [Crates] (dir : Bytes) (nd : NsDir) (log : Log) : LogCmd → Res (NsDir × Log)
  | append r => do
    let (effects, res) := log.append (r.toBytes log.head)
    pure (applyAll nd effects, ← res)
  | reopen durable => openLogDir dir nd durable
  | rewrite records durable => openLogDir dir (applyAll nd (writeFresh nd records)) durable

def contents [Crates] (bs : List Bytes) : LogCmd → List Bytes
  | append r => bs ++ [r.toBytes (chainHead .zero bs)]
  | reopen _ => bs
  | rewrite records _ => encodeChain .zero records

end LogCmd

section

variable [Crates]

def runLog (dir : Bytes) : NsDir → Log → List LogCmd → Res (NsDir × Log)
  | nd, log, [] => pure (nd, log)
  | nd, log, c :: cs => do
    let (nd, log) ← c.run dir nd log
    runLog dir nd log cs

/-! ### Refinement -/

/-- A log in use whose records have been verified. -/
structure LogInUse (nd : NsDir) (log : Log) (bs : List Bytes) : Prop where
  rep : LogRep nd log bs
  chained : ∃ rs, Chained .zero bs rs

theorem chained_encodeChain_of_encodable {rs : List Record} (hrs : ∀ r ∈ rs, r.Encodable) (head : Bytes32) :
    ∃ rs', Chained head (encodeChain head rs) rs' := by
  induction rs generalizing head with
  | nil => exact ⟨[], .nil head⟩
  | cons r rs ih =>
    obtain ⟨hr, hrs⟩ := List.forall_mem_cons.1 hrs
    obtain ⟨rs', hchain⟩ := ih hrs (recordHash head (r.toBytes head))
    have hparse := parseChain_toBytes hr.wellFormed_canonical head (.inr rfl)
    rw [r.toBytes_canonical] at hparse
    exact ⟨r.canonical :: rs', .cons hparse hchain⟩

variable {dir : Bytes} {nd : NsDir} {log : Log} {bs : List Bytes}

theorem LogInUse.reopen (h : LogInUse nd log bs) (dir : Bytes) (durable : Bool) : ∃ nd' log',
    openLogDir dir nd durable = .ok (nd', log') ∧ LogInUse nd' log' bs := by
  obtain ⟨rs, hc⟩ := h.chained
  obtain ⟨_, hrec, hsame, hrep⟩ := h.rep.recover hc dir durable
  refine ⟨nd, _, ?_, hrep, rs, hc⟩
  simp [openLogDir, hrec, hsame]

theorem LogInUse.append (h : LogInUse nd log bs) {r : Record} (hr : r.Encodable) : ∃ nd' log',
    (LogCmd.append r).run dir nd log = .ok (nd', log') ∧ LogInUse nd' log' (bs ++ [r.toBytes (chainHead .zero bs)]) := by
  obtain ⟨rs, hc⟩ := h.chained
  have hparse := parseChain_toBytes hr.wellFormed_canonical log.head (.inr rfl)
  rw [r.toBytes_canonical] at hparse
  obtain ⟨hlen, _, _, hprev⟩ := parseChain_header hparse
  obtain ⟨effects, log', happend, _, hrep⟩ := h.rep.append hlen hprev.symm
  rw [h.rep.head_eq] at hparse
  refine ⟨applyAll nd effects, log', ?_, ?_, rs ++ [r.canonical], hc.append (.cons hparse (.nil _))⟩
  · rw [LogCmd.run, happend]
    rfl
  · rw [← h.rep.head_eq]
    exact hrep

theorem LogInUse.rewrite (h : LogInUse nd log bs) {records : List Record} (hr : ∀ r ∈ records, r.Encodable)
    (dir : Bytes) (durable : Bool) : ∃ nd' log', (LogCmd.rewrite records durable).run dir nd log = .ok (nd', log') ∧
      LogInUse nd' log' (encodeChain .zero records) := by
  obtain ⟨log1, hrep⟩ := h.rep.writeFresh records
  have hfresh : LogInUse (applyAll nd (writeFresh nd records)) log1 (encodeChain .zero records) :=
    ⟨hrep, chained_encodeChain_of_encodable hr .zero⟩
  exact hfresh.reopen dir durable

theorem LogInUse.step (h : LogInUse nd log bs) {c : LogCmd} (hc : c.Valid) (dir : Bytes) : ∃ nd' log',
    c.run dir nd log = .ok (nd', log') ∧ LogInUse nd' log' (c.contents bs) := by
  cases c with
  | append r => exact h.append hc
  | reopen durable => exact h.reopen dir durable
  | rewrite records durable => exact h.rewrite hc dir durable

theorem LogInUse.run (h : LogInUse nd log bs) {cs : List LogCmd} (hcs : ∀ c ∈ cs, c.Valid) (dir : Bytes) :
    ∃ nd' log', runLog dir nd log cs = .ok (nd', log') ∧ LogInUse nd' log' (cs.foldl LogCmd.contents bs) := by
  induction cs generalizing nd log bs with
  | nil => exact ⟨nd, log, rfl, h⟩
  | cons c cs ih =>
    obtain ⟨hc, hcs⟩ := List.forall_mem_cons.1 hcs
    obtain ⟨nd1, log1, hrun, h1⟩ := h.step hc dir
    obtain ⟨nd2, log2, hrest, h2⟩ := ih h1 hcs
    exact ⟨nd2, log2, by rw [runLog, hrun]; exact hrest, h2⟩

theorem openLogDir_empty (dir : Bytes) (durable : Bool) :
    openLogDir dir NsDir.empty durable = .ok (applyAll NsDir.empty [.create 0], logOf [[]] durable) := by
  rfl

theorem logInUse_empty (dir : Bytes) (durable : Bool) : ∃ nd log,
    openLogDir dir NsDir.empty durable = .ok (nd, log) ∧ LogInUse nd log [] :=
  ⟨_, _, openLogDir_empty dir durable, logRep_empty durable, [], .nil .zero⟩

/-- The records `fromSeq, …` of a log, at most `max` of them unless `max = 0`. -/
def recordsFrom (bs : List Bytes) (fromSeq max : Nat) : List (Nat × Bytes) :=
  if fromSeq = 0 then [] else numberFrom fromSeq (takeMax max (bs.drop (fromSeq - 1)))

theorem LogInUse.readRecords (h : LogInUse nd log bs) (fromSeq max : Nat) :
    log.readRecords nd fromSeq max = .ok (recordsFrom bs fromSeq max) := by
  obtain ⟨rs, hc⟩ := h.chained
  cases fromSeq with
  | zero => rfl
  | succ start => exact h.rep.readRecords hc.headerOk start max

/-- A log built by operations on records that can be written, from an empty directory on. -/
def LogBuilt (dir : Bytes) (nd : NsDir) (log : Log) (bs : List Bytes) : Prop :=
  ∃ durable nd₀ log₀ cs, openLogDir dir NsDir.empty durable = .ok (nd₀, log₀) ∧ (∀ c ∈ cs, c.Valid) ∧
    runLog dir nd₀ log₀ cs = .ok (nd, log) ∧ bs = cs.foldl LogCmd.contents []

theorem logBuilt_empty (dir : Bytes) (durable : Bool) :
    LogBuilt dir (applyAll NsDir.empty [.create 0]) (logOf [[]] durable) [] :=
  ⟨durable, _, _, [], openLogDir_empty dir durable, by simp, rfl, rfl⟩

theorem LogBuilt.inUse (h : LogBuilt dir nd log bs) : LogInUse nd log bs := by
  obtain ⟨durable, nd0, log0, cs, hopen, hcs, hrun, rfl⟩ := h
  obtain ⟨nd1, log1, hopen', h0⟩ := logInUse_empty dir durable
  rw [hopen] at hopen'
  cases hopen'
  obtain ⟨nd2, log2, hrun', h1⟩ := h0.run hcs dir
  rw [hrun] at hrun'
  cases hrun'
  exact h1

end

end BunnyMesh
