import BunnyMesh.Storage.Change

/-!
# The operations on a store at work

What a checkpoint and a new namespace do to a store at work and to the history its directory stands for, and what it
reads back from its logs.
-/

namespace BunnyMesh

open Std Store

section

variable [Crates]
variable {w w' : World} {d : Disk} {pol : BMap Bytes ConflictPolicy} {g : History} {ns : Bytes} {p : ConflictPolicy}

/-! ### Checkpoint -/

def History.snapshot (g : History) (s : Store) : History := { g with base := s }

theorem Attached.head_eq (h : Attached w g) (hp : w.store.policies[ns]? = some p) :
    w.store.head ns = some ((g.bytes ns).length, chainHead .zero (g.bytes ns)) := by
  obtain ⟨_, log, _, hlog, hrep⟩ := h.logs ns p hp
  rw [Store.head, hlog, Option.map_some, hrep.seq_eq, hrep.head_eq]

theorem Attached.head_none (h : Attached w g) (hp : w.store.policies[ns]? = none) : w.store.head ns = none := by
  rw [Store.head, h.noLogs ns hp, Option.map_none]

theorem Attached.owned (h : Attached w g) : w.store.Owned := by
  refine ⟨fun n k hk hp => hk ?_, fun n k hk hp => hk ?_⟩
  · exact congrArg (fun st => (st.slot k).entry) (h.outside n hp)
  · exact congrArg (fun st => (st.slot k).tomb) (h.outside n hp)

theorem Attached.snapshot_baseRep (h : Attached w g) : BaseRep w.store.policies (g.snapshot w.store) := by
  refine ⟨h.owned, fun _ _ hp => hp, h.noLogs, h.outside, fun n => ?_, h.shaped⟩
  cases hp : w.store.policies[n]? with
  | none => exact ⟨0, Nat.zero_le _, by simp only [History.snapshot, Store.snapHead, h.head_none hp]; rfl⟩
  | some q =>
    refine ⟨(g.bytes n).length, Nat.le_refl _, ?_⟩
    simp [History.snapshot, Store.snapHead, h.head_eq hp]

theorem Attached.sync (h : Attached w g) {log : Log} (hlog : w.store.logs[ns]? = some log) (points : List Disk) :
    Attached ⟨w.store, w.disk.modifyDir ns (applyAll · [.sync log.curSeg]), points⟩ g := by
  have hns : w.store.policies[ns]? ≠ none := fun hp => by rw [h.noLogs ns hp] at hlog; cases hlog
  obtain ⟨q, hq⟩ := Option.ne_none_iff_exists'.1 hns
  obtain ⟨nd, log', hnd, hlog', hrep⟩ := h.logs ns q hq
  rw [hlog, Option.some.injEq] at hlog'
  subst hlog'
  have hset : w.store.setLog ns log = w.store := by rw [Store.setLog, OrdMap.insert_eq_self hlog]
  have hat := h.setLog g hns (fun _ _ => ⟨rfl, rfl⟩) (h.files.chained ns hns) (f := (applyAll · [.sync log.curSeg]))
    hnd (policy_applyAll ..) (hrep.sync log.curSeg) points
  rwa [hset] at hat

theorem Attached.syncAll (h : Attached w g) (l : List (Bytes × Log))
    (hl : ∀ x ∈ l, w.store.logs[x.1]? = some x.2) : ∃ disk points,
      (l.forM fun x => segEffects x.1 [.sync x.2.curSeg]) w = .ok () ⟨w.store, disk, points⟩ ∧
      Attached ⟨w.store, disk, points⟩ g := by
  have step : ∀ x ∈ l, ∀ w1 (_ : Unit), (w1.store = w.store ∧ Attached w1 g) →
      ∃ w2, segEffects x.1 [.sync x.2.curSeg] w1 = .ok () w2 ∧ w2.store = w.store ∧ Attached w2 g := by
    rintro ⟨n, log⟩ hx w1 _ ⟨hs, hat⟩
    obtain ⟨points, heff⟩ := segEffects_spec n [.sync log.curSeg] w1
    exact ⟨_, heff, hs, hat.sync (by rw [hs]; exact hl _ hx) points⟩
  obtain ⟨w2, hrun, hs, hat⟩ := Exec.forM_simulates (g := fun _ _ => ()) step (t := ()) ⟨rfl, h⟩
  refine ⟨w2.disk, w2.points, ?_, ?_⟩
  · rw [← hs]; exact hrun
  · rw [← hs]; exact hat

omit [Crates] in
theorem checkpoint_of_sync {disk : Disk} {points : List Disk}
    (hsync : (w.store.logs.toList.forM fun x => segEffects x.1 [.sync x.2.curSeg]) w = .ok () ⟨w.store, disk, points⟩) :
    ∃ points', checkpoint w =
      .ok () ⟨w.store, { disk with snap := some (encodeSnap w.store.snapOf), snapTmp := none }, points'⟩ := by
  refine ⟨points ++ [{ disk with snapTmp := some [] }] ++ [{ disk with snapTmp := some (encodeSnap w.store.snapOf) }] ++
      [{ disk with snap := some (encodeSnap w.store.snapOf), snapTmp := none }], ?_⟩
  simp only [checkpoint, Exec.bind_apply, Exec.get_apply]
  rw [hsync]
  simp [effect_apply]

theorem Attached.checkpoint_apply (h : Attached w g) : ∃ disk points,
    checkpoint w = .ok () ⟨w.store, disk, points⟩ ∧ disk.snap = some (encodeSnap w.store.snapOf) ∧
      Attached ⟨w.store, disk, points⟩ g := by
  obtain ⟨disk, points, hsync, hat⟩ := h.syncAll w.store.logs.toList
    fun x hx => ExtTreeMap.mem_toList_iff_getElem?_eq_some.1 hx
  have hfiles := hat.files
  obtain ⟨points', hcheck⟩ := checkpoint_of_sync hsync
  exact ⟨_, points', hcheck, rfl, ⟨hfiles.names, hfiles.valid, hfiles.dirs, hfiles.chained⟩, hat.logs, hat.noLogs,
    hat.outside, hat.shaped⟩

theorem Attached.checkpoint_spec (h : Attached w g) (hfits : w.store.snapOf.Fits) : ∃ disk points,
    checkpoint w = .ok () ⟨w.store, disk, points⟩ ∧ Running ⟨w.store, disk, points⟩ (g.snapshot w.store) := by
  obtain ⟨disk, points, hrun, hsnap, hat⟩ := h.checkpoint_apply
  have hlogs : LogsRep disk w.store.policies (g.snapshot w.store) :=
    ⟨hat.files.names, hat.files.valid, hat.files.dirs, hat.files.chained⟩
  exact ⟨disk, points, hrun, ⟨hlogs, hat.logs, hat.noLogs, hat.outside, hat.shaped⟩, hlogs, h.snapshot_baseRep,
    .inr ⟨hsnap, hfits⟩⟩

/-! ### New namespaces -/

def History.create (g : History) (ns : Bytes) : History where
  bytes := Function.update g.bytes ns []
  records := Function.update g.records ns []
  base := g.base

omit [Crates] in
theorem History.recovered_create_of_ne {n : Bytes} (hn : n ≠ ns) : (g.create ns).recovered n p = g.recovered n p := by
  simp [History.recovered, History.create, Function.update_of_ne hn]

theorem BaseRep.unknown (hb : BaseRep pol g) (hp : pol[ns]? = none) :
    g.base.policies[ns]? = none ∧ g.base.view ns = NsState.empty ∧ g.base.snapHead ns = (0, .zero) := by
  have hbase : g.base.policies[ns]? = none := by
    cases h : g.base.policies[ns]? with
    | none => rfl
    | some q => rw [hb.policies ns q h] at hp; cases hp
  exact ⟨hbase, hb.outside ns hbase, by rw [Store.snapHead, Store.head, hb.logs ns hbase]; rfl⟩

theorem BaseRep.recovered_create (hb : BaseRep pol g) (hp : pol[ns]? = none) :
    (g.create ns).recovered ns p = NsState.empty := by
  obtain ⟨_, hview, hhead⟩ := hb.unknown hp
  simp [History.recovered, History.create, hview, hhead, NsState.replay]

theorem BaseRep.create (hb : BaseRep pol g) (hp : pol[ns]? = none) (p : ConflictPolicy) :
    BaseRep (pol.insert ns p) (g.create ns) := by
  obtain ⟨hbase, hview, hhead⟩ := hb.unknown hp
  refine ⟨hb.owned, fun n q hq => ?_, hb.logs, hb.outside, fun n => ?_, fun n q hq => ?_⟩
  · have hne : n ≠ ns := fun e => by
      rw [e] at hq
      exact absurd hq (by simp only [History.create, hbase]; simp)
    rw [OrdMap.getElem?_insert, if_neg hne.symm]
    exact hb.policies n q hq
  · rcases eq_or_ne n ns with rfl | hne
    · exact ⟨0, Nat.zero_le _, by simp only [History.create, hhead, List.take_zero]; rfl⟩
    · simp only [History.create, Function.update_of_ne hne]
      exact hb.heads n
  · rcases eq_or_ne n ns with rfl | hne
    · simp only [History.create, hview]
      exact NsState.shaped_empty q
    · rw [OrdMap.getElem?_insert, if_neg hne.symm] at hq
      exact hb.shaped n q hq

/-- The directory `d'` is `d` with the new namespace directory `nd`. -/
structure Disk.Adds (d : Disk) (ns : Bytes) (nd : NsDir) (d' : Disk) : Prop where
  dirs : ∀ name : Bytes, d'.dirs[name]? = if nsDir ns = name then some nd else d.dirs[name]?
  snap : d'.snap = d.snap

omit [Crates] in
theorem Disk.Adds.modifyDir {nd : NsDir} {d' : Disk} (h : d.Adds ns nd d') (f : NsDir → NsDir) :
    d.Adds ns (f nd) (d'.modifyDir ns f) := by
  refine ⟨fun name => ?_, by rw [Disk.snap_modifyDir, h.snap]⟩
  rw [Disk.dirs_modifyDir, h.dirs]
  split <;> simp

theorem openLog_fresh (hnone : w.disk.dirs[nsDir ns]? = none) (durable : Bool) : ∃ d1 d2,
    openLog ns durable w = .ok (logOf [[]] durable) ⟨w.store, d2, w.points ++ [d1, d2]⟩ ∧
      w.disk.Adds ns NsDir.empty d1 ∧ w.disk.Adds ns (applyAll NsDir.empty [.create 0]) d2 := by
  have hrec : recoverDurable (nsDir ns) NsDir.empty durable = .ok (logOf [[]] durable, none, [.create 0]) :=
    recoverDurable_of_chained (nsDir ns) durable (show NsDir.empty.files = List.map List.flatten [] from rfl) (.nil _)
  have hadds : w.disk.Adds ns NsDir.empty (w.disk.ensureDir ns) := by
    refine ⟨fun name => ?_, Disk.snap_ensureDir ..⟩
    rw [Disk.dirs_ensureDir]
    split
    · rename_i he
      rw [← he, hnone, Option.getD_none]
    · rfl
  have hdir : (w.disk.ensureDir ns).dirs[nsDir ns]? = some NsDir.empty := by rw [hadds.dirs, if_pos rfl]
  have hget := getDir_apply (w := ⟨w.store, w.disk.ensureDir ns, w.points ++ [w.disk.ensureDir ns]⟩) hdir
  have heff : ∀ w' : World, segEffects ns [.create 0] w' = .ok () ⟨w'.store,
      w'.disk.modifyDir ns (SegEffect.create 0).apply, w'.points ++ [w'.disk.modifyDir ns (SegEffect.create 0).apply]⟩ :=
    fun _ => rfl
  refine ⟨_, _, ?_, hadds, hadds.modifyDir (SegEffect.create 0).apply⟩
  simp only [openLog, Exec.bind_apply, effect_apply, recoverLog, hget, hrec, liftRes_ok, heff, Exec.pure_apply,
    List.append_assoc, List.cons_append, List.nil_append]

theorem Running.create (h : Running w g) (hv : validNs ns) (hp : w.store.policies[ns]? = none) (p : ConflictPolicy)
    {nd : NsDir} {log : Log} (hadds : w.disk.Adds ns nd d) (hpol : nd.policy = some [policyToU8 p])
    (hrep : LogRep nd log []) (points : List Disk) : Running ⟨((w.store.setPolicy ns p).setLog ns log).bump, d, points⟩ (g.create ns) := by
  obtain ⟨hdirs, hsnap⟩ := hadds
  have hget : ∀ n : Bytes, (w.store.policies.insert ns p)[n]? = if ns = n then some p else w.store.policies[n]? :=
    fun n => OrdMap.getElem?_insert ..
  have hvalid : ∀ n : Bytes, (w.store.policies.insert ns p)[n]? ≠ none → validNs n := by
    intro n hn
    rcases eq_or_ne n ns with rfl | hne
    · exact hv
    · rw [hget, if_neg hne.symm] at hn
      exact h.disk.valid n hn
  -- the directories of the other namespaces are the old ones
  have hother : ∀ n q, n ≠ ns → (w.store.policies.insert ns p)[n]? = some q →
      w.store.policies[n]? = some q ∧ d.dirs[nsDir n]? = w.disk.dirs[nsDir n]? := by
    intro n q hne hq
    refine ⟨by rwa [hget, if_neg hne.symm] at hq, ?_⟩
    rw [hdirs, if_neg fun e => hne (nsDir_injective hv (hvalid n (by rw [hq]; simp)) e).symm]
  have hfiles : LogsRep d (w.store.policies.insert ns p) (g.create ns) := by
    refine ⟨fun name hname => ?_, hvalid, fun n q hq => ?_, fun n hn => ?_⟩
    · rw [hdirs] at hname
      split at hname
      · rename_i he
        exact ⟨ns, by simp, he.symm⟩
      · obtain ⟨ns', hns', rfl⟩ := h.disk.names name hname
        refine ⟨ns', ?_, rfl⟩
        rw [hget]
        split
        · simp
        · exact hns'
    · rcases eq_or_ne n ns with rfl | hne
      · rw [hget, if_pos rfl, Option.some.injEq] at hq
        exact ⟨nd, log, by rw [hdirs, if_pos rfl], hq ▸ hpol, by simpa [History.create] using hrep⟩
      · obtain ⟨hq', hd⟩ := hother n q hne hq
        simp only [hd, History.create, Function.update_of_ne hne]
        exact h.disk.dirs n q hq'
    · rcases eq_or_ne n ns with rfl | hne
      · simp only [History.create, Function.update_self]
        exact .nil _
      · rw [hget, if_neg hne.symm] at hn
        simp only [History.create, Function.update_of_ne hne]
        exact h.disk.chained n hn
  refine ⟨⟨hfiles, fun n q hq => ?_, fun n hn => ?_, fun n hn => ?_, fun n q hq => ?_⟩, hfiles,
    h.disk.toBaseRep.create hp p, by rw [hsnap]; exact h.disk.snap⟩
  · change (w.store.policies.insert ns p)[n]? = some q at hq
    simp only [Store.bump, Store.setLog, Store.setPolicy, OrdMap.getElem?_insert]
    rcases eq_or_ne n ns with rfl | hne
    · exact ⟨nd, log, by rw [hdirs, if_pos rfl], if_pos rfl, by simpa [History.create] using hrep⟩
    · obtain ⟨hq', hd⟩ := hother n q hne hq
      simp only [hd, History.create, Function.update_of_ne hne, if_neg hne.symm]
      exact h.logs n q hq'
  · change (w.store.policies.insert ns p)[n]? = none at hn
    have hne : n ≠ ns := fun e => by rw [hget, if_pos e.symm] at hn; cases hn
    simp only [Store.bump, Store.setLog, Store.setPolicy, OrdMap.getElem?_insert, if_neg hne.symm]
    rw [hget, if_neg hne.symm] at hn
    exact h.noLogs n hn
  · change (w.store.policies.insert ns p)[n]? = none at hn
    have hne : n ≠ ns := fun e => by rw [hget, if_pos e.symm] at hn; cases hn
    rw [hget, if_neg hne.symm] at hn
    exact h.outside n hn
  · change (w.store.policies.insert ns p)[n]? = some q at hq
    change (w.store.view n).Shaped q
    rcases eq_or_ne n ns with rfl | hne
    · rw [h.outside n hp]
      exact NsState.shaped_empty q
    · exact h.shaped n q (hother n q hne hq).1

theorem LogsRep.noDir (h : LogsRep d pol g) (hv : validNs ns) (hp : pol[ns]? = none) : d.dirs[nsDir ns]? = none := by
  by_contra hne
  obtain ⟨ns', hns', hdir⟩ := h.names _ hne
  exact hns' (nsDir_injective hv (h.valid ns' hns') hdir ▸ hp)

/-- The directory of a namespace while it is created: without files, with its segment, with an empty policy file, and with
the policy in it. -/
def creationDirs (p : ConflictPolicy) : List NsDir :=
  [NsDir.empty, applyAll NsDir.empty [.create 0], { applyAll NsDir.empty [.create 0] with policy := some [] },
    { applyAll NsDir.empty [.create 0] with policy := some [policyToU8 p] }]

theorem createNamespace_apply (hv : validNs ns) (hp : w.store.policies[ns]? = none)
    (hnone : w.disk.dirs[nsDir ns]? = none) (p : ConflictPolicy) : ∃ d1 d2 d3 d4,
      createNamespace ns p w = .ok () ⟨((w.store.setPolicy ns p).setLog ns (logOf [[]] w.store.durable)).bump, d4,
        w.points ++ [d1, d2, d3, d4]⟩ ∧
      List.Forall₂ (w.disk.Adds ns) (creationDirs p) [d1, d2, d3, d4] := by
  obtain ⟨d1, d2, hopen, h1, h2⟩ := openLog_fresh hnone w.store.durable
  have hcontains : w.store.policies.contains ns = false := by
    rw [ExtTreeMap.contains_eq_isSome_getElem?, hp]; rfl
  have hfree : ((d2.dirs[nsDir ns]?).bind (·.policy)).isSome = false := by rw [h2.dirs, if_pos rfl]; rfl
  have h3 := h2.modifyDir fun nd => { nd with policy := some [] }
  have h4 := h3.modifyDir fun nd => { nd with policy := some [policyToU8 p] }
  refine ⟨d1, d2, _, _, ?_, .cons h1 (.cons h2 (.cons h3 (.cons h4 .nil)))⟩
  simp only [createNamespace, Exec.bind_apply, hv, Bool.not_true, Bool.false_eq_true, if_false, Exec.get_apply,
    hcontains, hopen, hfree, effect_apply, setPolicy, setLog, Exec.modify_apply, List.append_assoc, List.cons_append,
    List.nil_append]
  rfl

theorem createNamespace_spec (h : Running w g) (hv : validNs ns) (hp : w.store.policies[ns]? = none)
    (p : ConflictPolicy) : ∃ log disk points,
      createNamespace ns p w = .ok () ⟨((w.store.setPolicy ns p).setLog ns log).bump, disk, points⟩ ∧
      Running ⟨((w.store.setPolicy ns p).setLog ns log).bump, disk, points⟩ (g.create ns) := by
  obtain ⟨d1, d2, d3, d4, hrun, hadds⟩ := createNamespace_apply hv hp (h.disk.noDir hv hp) p
  rw [creationDirs] at hadds
  obtain ⟨_, _, _, hadds4, _⟩ := by simpa only [List.forall₂_cons] using hadds
  have hrep := logRep_empty w.store.durable
  exact ⟨_, _, _, hrun, h.create hv hp p hadds4 rfl ⟨hrep.clean, hrep.chunks⟩ _⟩

/-! ### Reading the log -/

theorem versionKeys_of_chained {head : Bytes32} {bs : List Bytes} {rs : List Record} (h : Chained head bs rs)
    (seq : Nat) : versionKeys (numberFrom seq bs) = .ok (rs.map versionKey) := by
  induction h generalizing seq with
  | nil => rfl
  | cons parsed rest ih =>
    simp [numberFrom, versionKeys, parseChain_none parsed, ih]

theorem Attached.logRecords_spec (h : Attached w g) (hp : w.store.policies[ns]? = some p) (start max : Nat) :
    logRecords ns (start + 1) max w =
      .ok (numberFrom (start + 1) (takeMax max ((g.bytes ns).drop start))) w := by
  obtain ⟨nd, log, hnd, hlog, hrep⟩ := h.logs ns p hp
  have hread := hrep.readRecords (h.files.chained ns (by rw [hp]; simp)).headerOk start max
  simp [logRecords, getLog_apply hlog, getDir_apply hnd, hread, liftRes_ok]

theorem Attached.logVersions_spec (h : Attached w g) (hp : w.store.policies[ns]? = some p) :
    logVersions ns w = .ok ((g.records ns).map versionKey) w := by
  obtain ⟨_, log, _, hlog, _⟩ := h.logs ns p hp
  have hkeys := versionKeys_of_chained (h.files.chained ns (by rw [hp]; simp)) 1
  have hread := h.logRecords_spec hp 0 0
  rw [takeMax, if_pos rfl, List.drop_zero] at hread
  simp [logVersions, hlog, hread, hkeys, liftRes_ok]

def World.records (w : World) (ns : Bytes) : List Record :=
  (((Exec.okResult (logRecords ns 1 0 w)).map (·.1)).getD []).filterMap fun x => (parseChain x.2 none).toOption.map (·.1)

theorem records_of_chained {head : Bytes32} {bs : List Bytes} {rs : List Record} (h : Chained head bs rs) (seq : Nat) :
    (numberFrom seq bs).filterMap (fun x => (parseChain x.2 none).toOption.map (·.1)) = rs := by
  induction h generalizing seq with
  | nil => rfl
  | @cons head b r bs rs parsed rest ih =>
    have hhead : (parseChain b none).toOption.map (·.1) = some r := by rw [parseChain_none parsed]; rfl
    simp [numberFrom, hhead, ih]

theorem Attached.records_eq (h : Attached w g) (hp : w.store.policies[ns]? = some p) : w.records ns = g.records ns := by
  have hread := h.logRecords_spec hp 0 0
  rw [World.records, hread]
  exact records_of_chained (h.files.chained ns (by rw [hp]; simp)) 1

theorem Attached.records_none (h : Attached w g) (hp : w.store.policies[ns]? = none) : w.records ns = [] := by
  simp only [World.records, logRecords, getLog, Exec.bind_apply, Exec.get_apply, h.noLogs ns hp, Exec.throw_apply]
  rfl

theorem Attached.records_congr (h : Attached w g) (h' : Attached w' g') (hp : w'.store.policies = w.store.policies)
    (hr : g'.records ns = g.records ns) : w'.records ns = w.records ns := by
  cases hq : w.store.policies[ns]? with
  | none => rw [h.records_none hq, h'.records_none (by rw [hp, hq])]
  | some q => rw [h.records_eq hq, h'.records_eq (by rw [hp, hq]), hr]

end

end BunnyMesh
