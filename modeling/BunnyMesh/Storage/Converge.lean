import BunnyMesh.Lib.Greatest
import BunnyMesh.Storage.Runs
import BunnyMesh.Storage.Slots

/-!
# Arrival order

A synced record never takes a tombstone away, and of the versions of a key the greatest `(hlc, replica)` is read.  What a
reader sees of a key is therefore a function of the operations on it, in whatever order they arrive (`winner_foldl`).
-/

namespace BunnyMesh

open Std Store
open Runs (Run)
open Greatest (greatest greatest_concat greatest_spec greatest_perm)

/-! ### What a reader sees of a key -/

/-- The version a reader gets of the entry is `v`, apart from its place in the log; it is the greatest one by
`(hlc, replica)`. -/
def Entry.Wins (e : Entry) (v : Version) : Prop :=
  ∃ u ∈ e.versions, latestEntryValue e = some u ∧ u.unseq = v ∧ ∀ x ∈ e.versions, x.stamp ≤ u.stamp

theorem maxByStamp_eq (vs : List Version) : maxByStamp vs = greatest Version.stamp vs := by
  cases vs <;> rfl

theorem maxByStamp_map_unseq (vs : List Version) : maxByStamp (vs.map Version.unseq) = (maxByStamp vs).map Version.unseq := by
  rw [maxByStamp_eq, maxByStamp_eq]
  induction vs using List.reverseRecOn with
  | nil => rfl
  | append_singleton vs v ih =>
    rw [List.map_append, List.map_singleton, greatest_concat, greatest_concat, ih]
    cases greatest Version.stamp vs with
    | none => rfl
    | some u =>
      simp only [Option.map_some, Option.elim_some, Greatest.later]
      change some (if u.stamp ≤ v.stamp then v.unseq else u.unseq) = _
      split <;> rfl

theorem Entry.latest_unseq (e : Entry) : latestEntryValue e.unseq = (latestEntryValue e).map Version.unseq := by
  cases e with
  | lww v => rfl
  | register vs => exact maxByStamp_map_unseq vs

theorem Entry.wins_of_latest {e : Entry} {v : Version} (h : latestEntryValue e.unseq = some v) : e.Wins v := by
  rw [Entry.latest_unseq] at h
  obtain ⟨u, hu, rfl⟩ := Option.map_eq_some_iff.1 h
  cases e with
  | lww u' =>
    cases hu
    exact ⟨u, List.mem_singleton_self u, rfl, rfl, fun x hx => by rw [List.mem_singleton.1 hx]⟩
  | register vs =>
    have hmax : greatest Version.stamp vs = some u := (maxByStamp_eq vs).symm.trans hu
    obtain ⟨hmem, hle⟩ := greatest_spec hmax
    exact ⟨u, hmem, hu, rfl, hle⟩

theorem Slot.visible_unseq (sl : Slot) : sl.unseq.visible = sl.visible.map Entry.unseq := by
  obtain ⟨e, t⟩ := sl
  cases t <;> rfl

section

variable {p : ConflictPolicy} {ops : List Op}

theorem tomb_foldl (ops : List Op) (sl : Slot) : (ops.foldl (fun sl op => sl.recordOp p op 0) sl).tomb.isSome =
    (sl.tomb.isSome || ops.any fun op => op.tag == tagDel) := by
  induction ops generalizing sl with
  | nil => simp
  | cons op ops ih =>
    rw [List.foldl_cons, ih, List.any_cons, ← Bool.or_assoc]
    congr 1
    unfold Slot.recordOp
    by_cases hput : isPutTag op.tag
    · have hdel : (op.tag == tagDel) = false := by
        simp only [isPutTag, Bool.or_eq_true, beq_iff_eq] at hput
        rcases hput with h | h <;> rw [h] <;> decide
      rw [if_pos hput, hdel, Bool.or_false]
      cases p with
      | lww => dsimp only; split <;> rfl
      | crdtRegister => rfl
    · rw [if_neg hput]
      by_cases hdel : op.tag = tagDel
      · simp [hdel]
      · simp [hdel]

theorem entry_foldl_lww (hops : ∀ op ∈ ops, isPutTag op.tag) :
    (ops.foldl (fun (sl : Slot) op => sl.recordOp .lww op 0) ⟨none, none⟩).entry =
      (maxByStamp (ops.map fun op => op.version 0)).map Entry.lww := by
  rw [maxByStamp_eq]
  induction ops using List.reverseRecOn with
  | nil => rfl
  | append_singleton ops op ih =>
    have hput : isPutTag op.tag := hops op (by simp)
    have hentry := ih fun op' hop' => hops op' (List.mem_append_left _ hop')
    rw [List.foldl_append, List.foldl_cons, List.foldl_nil, List.map_append, List.map_singleton, greatest_concat,
      Slot.recordOp, if_pos hput]
    rw [hentry]
    cases hg : greatest Version.stamp (ops.map fun op => op.version 0) with
    | none => rfl
    | some v =>
      rw [hg] at hentry
      simp only [Option.map_some, Option.elim_some, Greatest.later, isNewer, decide_eq_true_eq]
      split
      · rfl
      · exact hentry

theorem entry_foldl_register (hops : ∀ op ∈ ops, isPutTag op.tag) :
    (ops.foldl (fun (sl : Slot) op => sl.recordOp .crdtRegister op 0) ⟨none, none⟩).entry =
      if ops = [] then none else some (.register (ops.map fun op => op.version 0)) := by
  induction ops using List.reverseRecOn with
  | nil => rfl
  | append_singleton ops op ih =>
    have hput : isPutTag op.tag := hops op (by simp)
    have hentry := ih fun op' hop' => hops op' (List.mem_append_left _ hop')
    rw [List.foldl_append, List.foldl_cons, List.foldl_nil, if_neg (by simp), Slot.recordOp, if_pos hput]
    simp only [Slot.versions, hentry, List.map_append, List.map_singleton]
    by_cases hnil : ops = []
    · simp [hnil]
    · simp [hnil]

theorem puts_of_no_del (hops : ∀ op ∈ ops, isOpTag op.tag) (hdel : ¬ ops.any (fun op => op.tag == tagDel) = true) :
    ∀ op ∈ ops, isPutTag op.tag := by
  intro op hop
  rcases isOpTag_cases (hops op hop) with hput | htag
  · exact hput
  · refine absurd (List.any_eq_true.2 ⟨op, hop, ?_⟩) hdel
    rw [htag]
    rfl

/-- What a reader sees of a key that was fresh: nothing after a deletion, else the greatest version put. -/
theorem winner_foldl (hops : ∀ op ∈ ops, isOpTag op.tag) :
    ((ops.foldl (fun (sl : Slot) op => sl.recordOp p op 0) ⟨none, none⟩).visible).map latestEntryValue =
      (if ops.any (fun op => op.tag == tagDel) then none
        else maxByStamp (ops.map fun op => op.version 0)).map some := by
  rw [Slot.visible, tomb_foldl, Option.isSome_none, Bool.false_or]
  by_cases hdel : ops.any (fun op => op.tag == tagDel) = true
  · rw [if_pos hdel, if_pos hdel]
    rfl
  · rw [if_neg hdel, if_neg hdel]
    have hputs := puts_of_no_del hops hdel
    cases p with
    | lww =>
      rw [entry_foldl_lww hputs, Option.map_map]
      rfl
    | crdtRegister =>
      rw [entry_foldl_register hputs]
      by_cases hnil : ops = []
      · rw [if_pos hnil, hnil]
        rfl
      · rw [if_neg hnil, Option.map_some, latestEntryValue]
        cases hmax : maxByStamp (ops.map fun op => op.version 0) with
        | none =>
          rw [maxByStamp_eq, Greatest.greatest_eq_none, List.map_eq_nil_iff] at hmax
          exact absurd hmax hnil
        | some v => rfl

def putStamps (rs : List Record) : List Stamp :=
  ((rs.flatMap Record.dataOps).filter fun op => isPutTag op.tag).map fun op => ⟨op.hlc, op.replica⟩

theorem opsOn_tag {rs : List Record} (hops : ∀ r ∈ rs, ∀ op ∈ r.dataOps, isOpTag op.tag) (k : Bytes) :
    ∀ op ∈ opsOn k rs, isOpTag op.tag := by
  intro op hop
  obtain ⟨r, hr, hmem⟩ := List.mem_flatMap.1 (List.mem_filter.1 hop).1
  exact hops r hr op hmem

theorem winner_perm {rs rs' : List Record} (hperm : rs.Perm rs') (hops : ∀ r ∈ rs, ∀ op ∈ r.dataOps, isOpTag op.tag)
    (hstamps : (putStamps rs).Nodup) (k : Bytes) :
    (if (opsOn k rs).any (fun op => op.tag == tagDel) then none
      else maxByStamp ((opsOn k rs).map fun op => op.version 0)) =
    if (opsOn k rs').any (fun op => op.tag == tagDel) then none
      else maxByStamp ((opsOn k rs').map fun op => op.version 0) := by
  have hon : (opsOn k rs).Perm (opsOn k rs') := (hperm.flatMap_right _).filter _
  have hany : (opsOn k rs').any (fun op => op.tag == tagDel) = (opsOn k rs).any fun op => op.tag == tagDel :=
    hon.symm.any_eq
  rw [hany]
  by_cases hdel : (opsOn k rs).any (fun op => op.tag == tagDel) = true
  · rw [if_pos hdel, if_pos hdel]
  · rw [if_neg hdel, if_neg hdel, maxByStamp_eq, maxByStamp_eq]
    refine greatest_perm ?_ (hon.map _)
    -- all operations on the key are puts, and their stamps are some of those that are distinct
    refine hstamps.sublist ?_
    rw [List.map_map]
    refine List.Sublist.map (fun op : Op => (⟨op.hlc, op.replica⟩ : Stamp)) ?_
    have hself : (opsOn k rs).filter (fun op => isPutTag op.tag) = opsOn k rs :=
      List.filter_eq_self.2 (puts_of_no_del (opsOn_tag hops k) hdel)
    rw [← hself]
    exact List.filter_sublist.filter _

end

/-! ### Synced records on a fresh store -/

section

variable [Crates]
variable {w w' w₀ : World} {g g' : History} {ns : Bytes} {p : ConflictPolicy} {rs : List Record}

theorem view_of_synced (h : Attached w g) (hp : w.store.policies[ns]? = some p)
    (hrun : Run Happens (w, g) (rs.map fun r => .changed ns (.synced r)) (w', g')) :
    w'.store.view ns = (w.store.view ns).replay p ((g.records ns).length + 1) rs ∧
      (∀ n, n ≠ ns → w'.store.view n = w.store.view n) ∧ g'.base = g.base := by
  induction rs generalizing w g with
  | nil =>
    cases hrun
    exact ⟨rfl, fun _ _ => rfl, rfl⟩
  | cons r rs ih =>
    cases hrun with
    | cons first rest =>
      cases first with
      | @changed _ w1 _ _ p' _ logged =>
        obtain ⟨hat, hpol, -, hview, hother⟩ := logged.spec h
        obtain ⟨hp', -, -, -, -⟩ := logged
        obtain rfl : p = p' := Option.some.inj (hp.symm.trans hp')
        obtain ⟨hview', hother', hbase⟩ := ih hat (by rw [hpol, hp]) rest
        have hlen : ((g.log ns r).records ns).length = (g.records ns).length + 1 := by
          simp [History.log]
        refine ⟨?_, fun n hn => (hother' n hn).trans (hother n hn), hbase⟩
        rw [hview', hview]
        rw [← hlen]
        rfl

theorem created_empty (h0 : Opened w₀) (hcreate : createNamespace ns p w₀ = .ok () w) :
    ∃ g, Attached w g ∧ w.store.policies[ns]? = some p ∧ g.records ns = [] ∧ w.store.view ns = NsState.empty := by
  obtain ⟨hsound, -⟩ := h0.sound
  rcases outcome_createNamespace hsound.running ns p with ⟨-, e, herr⟩ | ⟨w1, g1, hok, hevents⟩
  · rw [hcreate] at herr
    cases herr
  · rw [hcreate] at hok
    cases hok
    cases hevents with
    | cons first rest =>
      cases rest
      cases first with
      | created valid fresh running =>
        refine ⟨_, running.toAttached, ?_, ?_, hsound.running.outside ns fresh⟩
        · exact (OrdMap.getElem?_insert ..).trans (if_pos rfl)
        · exact Function.update_self ..

theorem applySyncedEach_fresh (h0 : Opened w₀) (hcreate : createNamespace ns p w₀ = .ok () w)
    (hwf : ∀ r ∈ rs, r.WellFormed) (hids : (rs.map versionKey).Nodup) : ∃ w',
      applySyncedEach ns rs w = .ok rs.length w' ∧ w'.store.view ns = NsState.empty.replay p 1 rs := by
  obtain ⟨g, hat, hp, hrecords, hview⟩ := created_empty h0 hcreate
  obtain ⟨w', hrun, hevents, -⟩ := applySyncedBatch_spec hat hp hwf
  have hnew : newRecords ((g.records ns).map versionKey) rs = rs := by
    rw [hrecords]
    exact Shipping.unseen_of_fresh (by simp) hids
  rw [hnew] at hrun hevents
  refine ⟨w', (applySyncedEach_eq_batch hat hp hwf).trans hrun, ?_⟩
  rw [(view_of_synced hat hp hevents).1, hview, hrecords]
  rfl

omit [Crates] in
theorem latest_of_replay {s : Store} (hview : s.view ns = NsState.empty.replay p 1 rs) (hwf : ∀ r ∈ rs, r.WellFormed)
    (k : Bytes) : (s.get ns k).map (fun e => latestEntryValue e.unseq) =
      (if (opsOn k rs).any (fun op => op.tag == tagDel) then none
        else maxByStamp ((opsOn k rs).map fun op => op.version 0)).map some := by
  have hops := opsOn_tag (fun r hr => (hwf r hr).dataOps_tag) k
  have hslot : (s.get ns k).map Entry.unseq =
      ((opsOn k rs).foldl (fun (sl : Slot) op => sl.recordOp p op 0) ⟨none, none⟩).visible := by
    rw [Store.get_eq_visible, ← Slot.visible_unseq, hview, NsState.unseq_slot_replay]
    rfl
  rw [← winner_foldl hops, ← hslot, Option.map_map]
  rfl

/-- Two fresh stores get the same records, in any two orders: every key is absent in both, or present in both with the
same winning version. -/
theorem reads_converge {w₀' : World} {rs' : List Record} (h₀ : Opened w₀) (h₀' : Opened w₀')
    (hcreate : createNamespace ns p w₀ = .ok () w) (hcreate' : createNamespace ns p w₀' = .ok () w')
    (hperm : rs.Perm rs') (hwf : ∀ r ∈ rs, r.WellFormed) (hids : (rs.map versionKey).Nodup)
    (hstamps : (putStamps rs).Nodup) : ∃ w₁ w₁',
      applySyncedEach ns rs w = .ok rs.length w₁ ∧ applySyncedEach ns rs' w' = .ok rs'.length w₁' ∧
      ∀ k, (w₁.store.get ns k = none ∧ w₁'.store.get ns k = none) ∨
        ∃ e e' v, w₁.store.get ns k = some e ∧ w₁'.store.get ns k = some e' ∧ e.Wins v ∧ e'.Wins v := by
  have hwf' : ∀ r ∈ rs', r.WellFormed := fun r hr => hwf r (hperm.mem_iff.2 hr)
  obtain ⟨w₁, hrun, hview⟩ := applySyncedEach_fresh h₀ hcreate hwf hids
  obtain ⟨w₁', hrun', hview'⟩ := applySyncedEach_fresh h₀' hcreate' hwf' ((hperm.map _).nodup_iff.1 hids)
  refine ⟨w₁, w₁', hrun, hrun', fun k => ?_⟩
  have hlatest := latest_of_replay hview hwf k
  have hlatest' := latest_of_replay hview' hwf' k
  rw [← winner_perm hperm (fun r hr => (hwf r hr).dataOps_tag) hstamps k] at hlatest'
  generalize (if (opsOn k rs).any (fun op => op.tag == tagDel) then none
    else maxByStamp ((opsOn k rs).map fun op => op.version 0)) = v at hlatest hlatest'
  cases v with
  | none => exact .inl ⟨Option.map_eq_none_iff.1 hlatest, Option.map_eq_none_iff.1 hlatest'⟩
  | some v =>
    obtain ⟨e, he, hv⟩ := Option.map_eq_some_iff.1 hlatest
    obtain ⟨e', he', hv'⟩ := Option.map_eq_some_iff.1 hlatest'
    exact .inr ⟨e, e', v, he, he', Entry.wins_of_latest hv, Entry.wins_of_latest hv'⟩

end

def arrivals : List Record :=
  [putRecord [1] [10] 1 .zero .zero 0,
    batchRecord [⟨tagPut, [1], 2, .zero, .zero, [20], 0⟩, ⟨tagPut, [2], 3, .zero, .zero, [30], 0⟩],
    delRecord [2] 4 .zero .zero]

set_option maxRecDepth 100000 in
theorem reads_converge_reversed : letI := Crates.trivial
    ∃ w₀ w, Opened w₀ ∧ createNamespace [97] .crdtRegister w₀ = .ok () w ∧ ∃ w₁ w₁',
      applySyncedEach [97] arrivals w = .ok 3 w₁ ∧ applySyncedEach [97] arrivals.reverse w = .ok 3 w₁' ∧
      ∀ k, (w₁.store.get [97] k = none ∧ w₁'.store.get [97] k = none) ∨
        ∃ e e' v, w₁.store.get [97] k = some e ∧ w₁'.store.get [97] k = some e' ∧ e.Wins v ∧ e'.Wins v := by
  have h : letI := Crates.trivial
      ((Exec.okState (openDurable false 0 ⟨Store.init false, Disk.empty, []⟩)).any fun w₀ =>
        (Exec.okState (createNamespace [97] .crdtRegister w₀)).isSome) = true := by decide +kernel
  let _ := Crates.trivial
  obtain ⟨w₀, hopen, h⟩ := (Option.any_eq_true ..).1 h
  obtain ⟨w, hcreate⟩ := Option.isSome_iff_exists.1 h
  have h₀ : Opened w₀ := ⟨_, _, _, _, Exec.okState_eq_some.1 hopen⟩
  have hcreate := Exec.okState_eq_some.1 hcreate
  exact ⟨w₀, w, h₀, hcreate, reads_converge h₀ h₀ hcreate hcreate (List.reverse_perm arrivals).symm (by decide) (by decide)
    (by decide)⟩

end BunnyMesh
