import BunnyMesh.Storage.Reopen

/-!
# Logged changes

Every write of the store appends one record to the log of its namespace and then changes the memory inside that
namespace.  A `Change` is such a write: the record it appends, what it does in memory (`Change.act`) and what that means
for the state of the namespace (`Change.effect`).  `logged_spec` runs it on a store in use.
-/

namespace BunnyMesh

open Std Store

/-! ### The records the store writes -/

theorem putRecord_tag (key value : Bytes) (hlc : UInt64) (replica author : Bytes32) (expiresAt : UInt64) :
    (putRecord key value hlc replica author expiresAt).tag = tagPut ∧ expiresAt = 0 ∨
      (putRecord key value hlc replica author expiresAt).tag = tagPutTtl ∧ expiresAt ≠ 0 := by
  by_cases h : expiresAt = 0 <;> simp [putRecord, h]

variable {hlc : UInt64} {replica author : Bytes32}

theorem putRecord_wellFormed {key value : Bytes} {expiresAt : UInt64}
    (h : (putRecord key value hlc replica author expiresAt).payload.length < 2 ^ 32) :
    (putRecord key value hlc replica author expiresAt).WellFormed := by
  rcases putRecord_tag key value hlc replica author expiresAt with ⟨ht, h0⟩ | ⟨ht, h0⟩
  · exact Record.wellFormed_of_single (by rw [ht]; decide) (by rw [ht]; decide) (fun _ => h0) rfl h
  · exact Record.wellFormed_of_single (by rw [ht]; decide) (by rw [ht]; decide) (fun hne => absurd ht hne) rfl h

theorem delRecord_wellFormed {key : Bytes}
    (h : (delRecord key hlc replica author).payload.length < 2 ^ 32) : (delRecord key hlc replica author).WellFormed :=
  Record.wellFormed_of_single (show isRecordTag tagDel by decide) (show tagDel ≠ tagBatch by decide) (fun _ => rfl) rfl h

theorem metaRecord_wellFormed {tag : UInt8} (ht : tag = tagSchema ∨ tag = tagIndex) {value : Option Bytes}
    (h : (metaRecord tag value hlc replica author).payload.length < 2 ^ 32) :
    (metaRecord tag value hlc replica author).WellFormed := by
  rcases ht with rfl | rfl
  · exact Record.wellFormed_of_single (show isRecordTag tagSchema by decide) (show tagSchema ≠ tagBatch by decide)
      (fun _ => rfl) rfl h
  · exact Record.wellFormed_of_single (show isRecordTag tagIndex by decide) (show tagIndex ≠ tagBatch by decide)
      (fun _ => rfl) rfl h

/-! ### Changes -/

/-- The ways a record reaches the log and the memory. -/
inductive Change where
  | write (record : Record)
  | synced (record : Record)
  | schema (value : Option Bytes) (hlc : UInt64) (replica author : Bytes32)
  | index (value : Option Bytes) (hlc : UInt64) (replica author : Bytes32)

namespace Change

def record : Change → Record
  | write r => r
  | synced r => r
  | schema value hlc replica author => metaRecord tagSchema value hlc replica author
  | index value hlc replica author => metaRecord tagIndex value hlc replica author

def effect (p : ConflictPolicy) (seq : Nat) : Change → NsState → NsState
  | write r, st => r.dataOps.foldl (NsState.localOp p seq) st
  | synced r, st => st.record p seq r
  | schema value _ _ _, st => { st with schema := value }
  | index value _ _ _, st => { st with indexDef := value }

theorem shaped_effect {p : ConflictPolicy} {st : NsState} (h : st.Shaped p) (seq : Nat) (c : Change) : (c.effect p seq st).Shaped p := by
  cases c with
  | write r => exact h.foldl_localOp seq r.dataOps
  | synced r => exact h.record seq r
  | schema => exact h
  | index => exact h

end Change

section

variable [Crates]

def Change.act (ns : Bytes) (seq : Nat) : Change → Mem Unit
  | write r => r.dataOps.forM fun op => applyLocalOp ns op seq
  | synced r => do
    applyRecord ns r seq
    bumpRevision
  | schema value _ _ _ => do
    setMeta (schemaKey ns) value
    bumpRevision
  | index value _ _ _ => do
    setMeta (indexKey ns) value
    modify fun s => s.rebuildSecIndexNs ns
    bumpRevision

variable {w w' : World} {d : Disk} {pol : BMap Bytes ConflictPolicy} {g : History} {ns : Bytes} {p : ConflictPolicy}

variable {c : Change}

theorem Change.act_spec {s : Store} (hp : s.policies[ns]? = some p) (hs : (s.view ns).Shaped p)
    (hc : c.record.WellFormed) (seq : Nat) :
    ∃ s', c.act ns seq s = .ok () s' ∧ Becomes ns s s' (c.effect p seq (s.view ns)) := by
  cases c with
  | write r =>
    exact forM_applyLocalOp_spec hp hs hc.dataOps_tag seq
  | synced r =>
    obtain ⟨s', hrun, hb, _⟩ := applyRecord_spec hp hs hc seq
    exact ⟨s'.bump, Exec.bind_ok (f := fun _ => bumpRevision) hrun, hb.bump⟩
  | schema value hlc replica author =>
    exact ⟨_, rfl, (s.becomes_schema ns value).bump⟩
  | index value hlc replica author =>
    exact ⟨_, rfl, ((s.becomes_indexDef ns value).of_core (core_rebuildSecIndexNs ..)).bump⟩

/-! ### Running a change -/

def History.log (g : History) (ns : Bytes) (r : Record) : History where
  bytes := Function.update g.bytes ns (g.bytes ns ++ [r.toBytes (chainHead .zero (g.bytes ns))])
  records := Function.update g.records ns (g.records ns ++ [r])
  base := g.base

theorem History.recovered_log_of_ne {n : Bytes} (hn : n ≠ ns) (r : Record) :
    (g.log ns r).recovered n p = g.recovered n p := by
  simp [History.recovered, History.log, Function.update_of_ne hn]

variable {r : Record}

theorem History.recovered_log (h : (g.base.snapHead ns).1 ≤ (g.records ns).length) :
    (g.log ns r).recovered ns p = (g.recovered ns p).record p ((g.records ns).length + 1) r := by
  simp only [History.recovered, History.log, Function.update_self]
  rw [List.drop_append_of_le_length h, NsState.replay_append, List.length_drop]
  have hseq : (g.base.snapHead ns).1 + 1 + ((g.records ns).length - (g.base.snapHead ns).1) =
      (g.records ns).length + 1 := by omega
  rw [hseq]
  rfl

theorem LogsRep.length_records (hd : LogsRep d pol g) (hns : pol[ns]? ≠ none) :
    (g.bytes ns).length = (g.records ns).length :=
  (hd.chained ns hns).length_eq

theorem DiskRep.snapHead_le (hd : DiskRep d pol g) (hns : pol[ns]? ≠ none) :
    (g.base.snapHead ns).1 ≤ (g.records ns).length := by
  obtain ⟨k, hk, hhead⟩ := hd.heads ns
  rw [hhead, ← hd.length_records hns]
  exact hk

theorem LogsRep.chained_log (hd : LogsRep d pol g) (hns : pol[ns]? ≠ none) (hr : r.WellFormed) :
    Chained .zero ((g.log ns r).bytes ns) ((g.log ns r).records ns) := by
  simp only [History.log, Function.update_self]
  exact (hd.chained ns hns).append (.cons (parseChain_toBytes hr _ (.inr rfl)) (.nil _))

theorem BaseRep.log (hb : BaseRep pol g) (ns : Bytes) (r : Record) : BaseRep pol (g.log ns r) := by
  refine ⟨hb.owned, hb.policies, hb.logs, hb.outside, fun n => ?_, hb.shaped⟩
  obtain ⟨k, hk, hhead⟩ := hb.heads n
  rcases eq_or_ne n ns with rfl | hne
  · refine ⟨k, ?_, ?_⟩
    · simp only [History.log, Function.update_self, List.length_append]
      omega
    · simp only [History.log, Function.update_self, List.take_append_of_le_length hk]
      exact hhead
  · simp only [History.log, Function.update_of_ne hne]
    exact ⟨k, hk, hhead⟩

theorem Attached.setLog (h : Attached w g) (g' : History) (hns : w.store.policies[ns]? ≠ none)
    (hrest : ∀ n, n ≠ ns → g'.bytes n = g.bytes n ∧ g'.records n = g.records n)
    (hc : Chained .zero (g'.bytes ns) (g'.records ns)) {f : NsDir → NsDir} {nd : NsDir} {log : Log}
    (hnd : w.disk.dirs[nsDir ns]? = some nd) (hfp : (f nd).policy = nd.policy)
    (hrep : LogRep (f nd) log (g'.bytes ns)) (points : List Disk) :
    Attached ⟨w.store.setLog ns log, w.disk.modifyDir ns f, points⟩ g' := by
  refine ⟨h.files.modifyDir hns hrest hc hnd hfp hrep, fun n q hq => ?_, fun n hq => ?_, h.outside, h.shaped⟩
  · change w.store.policies[n]? = some q at hq
    simp only [Disk.dirs_modifyDir, Store.setLog, OrdMap.getElem?_insert]
    rcases eq_or_ne n ns with rfl | hne
    · exact ⟨f nd, log, by rw [if_pos rfl, hnd, Option.map_some], if_pos rfl, hrep⟩
    · rw [if_neg (h.files.nsDir_ne hns (by rw [hq]; simp) hne), if_neg hne.symm, (hrest n hne).1]
      exact h.logs n q hq
  · have hne : n ≠ ns := fun e => hns (e ▸ hq)
    simp only [Store.setLog, OrdMap.getElem?_insert, if_neg hne.symm]
    exact h.noLogs n hq

theorem Attached.becomes (h : Attached w g) (hp : w.store.policies[ns]? = some p) {s' : Store} {st : NsState}
    (hb : Becomes ns w.store s' st) (hst : st.Shaped p) : Attached { w with store := s' } g := by
  have hview : ∀ n, n ≠ ns → s'.view n = w.store.view n := fun n hn => hb.toOnlyNs.view hn
  refine ⟨?_, ?_, ?_, fun n hn => ?_, fun n q hq => ?_⟩
  · simp only [hb.policies]
    exact h.files
  · simp only [hb.policies, hb.logs]
    exact h.logs
  · simp only [hb.policies, hb.logs]
    exact h.noLogs
  · simp only [hb.policies] at hn
    have hne : n ≠ ns := fun e => by rw [e, hp] at hn; cases hn
    exact (hview n hne).trans (h.outside n hn)
  · simp only [hb.policies] at hq
    rcases eq_or_ne n ns with rfl | hne
    · rw [hp, Option.some.injEq] at hq
      rw [hb.view_eq, ← hq]
      exact hst
    · rw [hview n hne]
      exact h.shaped n q hq

theorem appendLog_spec (h : Attached w g) (hp : w.store.policies[ns]? = some p) (hr : r.WellFormed) :
    ∃ log log' effects points, w.store.logs[ns]? = some log ∧
      log.append (r.toBytes log.head) = (effects, .ok log') ∧
      appendLog ns log (r.toBytes log.head) w = .ok ((g.records ns).length + 1)
        ⟨w.store.setLog ns log', w.disk.modifyDir ns (applyAll · effects), points⟩ ∧
      Attached ⟨w.store.setLog ns log', w.disk.modifyDir ns (applyAll · effects), points⟩ (g.log ns r) := by
  have hns : w.store.policies[ns]? ≠ none := by rw [hp]; simp
  obtain ⟨nd, log, hnd, hlog, hrep⟩ := h.logs ns p hp
  have hparsed := parseChain_toBytes hr log.head (.inr rfl)
  obtain ⟨hlen, _, _, hprev⟩ := parseChain_header hparsed
  obtain ⟨effects, log', happend, _, hrep'⟩ := hrep.append (b := r.toBytes log.head)
    (hlen.trans' (by decide)) hprev.symm
  obtain ⟨points, heff⟩ := segEffects_spec ns effects w
  have hbytes : (g.log ns r).bytes ns = g.bytes ns ++ [r.toBytes log.head] := by
    simp [History.log, hrep.head_eq]
  rw [← hbytes] at hrep'
  have hseq : log'.seq = (g.records ns).length + 1 := by
    rw [hrep'.seq_eq, hbytes, List.length_append, h.files.length_records hns, List.length_singleton]
  have hattached := h.setLog _ (f := (applyAll · effects)) hns
    (fun n hn => ⟨Function.update_of_ne hn .., Function.update_of_ne hn ..⟩) (h.files.chained_log hns hr) hnd (policy_applyAll nd effects) hrep'
    points
  refine ⟨log, log', effects, points, hlog, happend, ?_, hattached⟩
  simp only [appendLog, happend, Exec.bind_apply, heff, liftRes_ok, BunnyMesh.setLog, Exec.modify_apply, hseq,
    Exec.pure_apply]

/-- The change `c` was logged in `ns`: from `w` with history `g` to `w'`. -/
inductive Logged (ns : Bytes) (p : ConflictPolicy) (c : Change) (w : World) (g : History) : World → Prop where
  | mk {log log' : Log} {s' : Store} {effects : List SegEffect} {points : List Disk}
      (policy : w.store.policies[ns]? = some p) (wellFormed : c.record.WellFormed)
      (handle : w.store.logs[ns]? = some log) (append : log.append (c.record.toBytes log.head) = (effects, .ok log'))
      (act : c.act ns ((g.records ns).length + 1) (w.store.setLog ns log') = .ok () s')
      (attached : Attached ⟨s', w.disk.modifyDir ns (applyAll · effects), points⟩ (g.log ns c.record)) :
      Logged ns p c w g ⟨s', w.disk.modifyDir ns (applyAll · effects), points⟩

theorem logged_spec (h : Attached w g) (hp : w.store.policies[ns]? = some p) (hc : c.record.WellFormed) :
    ∃ w', logged ns c.record (fun seq => c.act ns seq) w = .ok ((g.records ns).length + 1) w' ∧
      Logged ns p c w g w' := by
  obtain ⟨log, log', effects, points, hlog, happend, hrun, hat⟩ := appendLog_spec h hp hc
  have hs : ((w.store.setLog ns log').view ns).Shaped p := h.shaped ns p hp
  obtain ⟨s', hact, hb⟩ := Change.act_spec (s := w.store.setLog ns log') hp hs hc ((g.records ns).length + 1)
  refine ⟨_, ?_, .mk hp hc hlog happend hact (hat.becomes hp hb (Change.shaped_effect hs _ c))⟩
  have hmem := mem_ok (w := ⟨w.store.setLog ns log', w.disk.modifyDir ns (applyAll · effects), points⟩) hact
  simp only [logged, Exec.bind_apply, getLog_apply hlog, hrun, hmem, Exec.pure_apply]

theorem Logged.spec (h : Attached w g) (hl : Logged ns p c w g w') :
    Attached w' (g.log ns c.record) ∧ w'.store.policies = w.store.policies ∧ w'.store.peerClocks = w.store.peerClocks ∧
      w'.store.view ns = c.effect p ((g.records ns).length + 1) (w.store.view ns) ∧
      ∀ n, n ≠ ns → w'.store.view n = w.store.view n := by
  obtain @⟨log, log', s', effects, points, hp, hc, _, _, hact, hat⟩ := hl
  obtain ⟨s'', hact', hb⟩ := Change.act_spec (s := w.store.setLog ns log') hp (h.shaped ns p hp) hc
    ((g.records ns).length + 1)
  rw [hact, EStateM.Result.ok.injEq] at hact'
  obtain ⟨_, rfl⟩ := hact'
  exact ⟨hat, hb.policies, hb.peerClocks, hb.view_eq, fun n hn => hb.toOnlyNs.view hn⟩

theorem Logged.running (h : Running w g) (hl : Logged ns p c w g w') : Running w' (g.log ns c.record) := by
  obtain ⟨hat, hpol, _⟩ := hl.spec h.toAttached
  have hbase := h.disk.toBaseRep.log ns c.record
  rw [← hpol] at hbase
  obtain ⟨_, _, _, _, _, _⟩ := hl
  exact ⟨hat, hat.files, hbase, by rw [Disk.snap_modifyDir]; exact h.disk.snap⟩

end

end BunnyMesh
