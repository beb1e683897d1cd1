import BunnyMesh.Storage.Names
import BunnyMesh.Storage.LogRep
import BunnyMesh.Storage.View
import BunnyMesh.Storage.Ops

/-!
# What a directory stands for

`DiskRep d pol g`: the directory `d` holds the namespaces `pol`, each with a log of the byte strings `g.bytes ns` that
parse as the records `g.records ns`, and a snapshot of the store `g.base` (`Store.init` without a snapshot).  Opening
such a directory succeeds and yields, for every namespace, the snapshot's state with the rest of the log replayed on it
(`openDurable_spec`).
-/

namespace BunnyMesh

open Std Store
open ByteCodec (fromUtf8Lossy)

/-! ### Effects -/

theorem Disk.dirs_modifyDir (d : Disk) (ns : Bytes) (f : NsDir → NsDir) (name : Bytes) :
    (d.modifyDir ns f).dirs[name]? = if nsDir ns = name then d.dirs[name]?.map f else d.dirs[name]? := by
  unfold Disk.modifyDir
  by_cases hn : nsDir ns = name
  · subst name
    rw [if_pos rfl]
    cases h : d.dirs[nsDir ns]? with
    | none => exact h
    | some nd => simp
  · rw [if_neg hn]
    cases h : d.dirs[nsDir ns]? with
    | none => rfl
    | some nd => simp [hn]

@[simp] theorem Disk.snap_modifyDir (d : Disk) (ns : Bytes) (f : NsDir → NsDir) : (d.modifyDir ns f).snap = d.snap := by
  unfold Disk.modifyDir
  split <;> rfl

@[simp] theorem Disk.snapTmp_modifyDir (d : Disk) (ns : Bytes) (f : NsDir → NsDir) :
    (d.modifyDir ns f).snapTmp = d.snapTmp := by
  unfold Disk.modifyDir
  split <;> rfl

theorem Disk.ext_dirs {d d' : Disk} (hd : ∀ name : Bytes, d.dirs[name]? = d'.dirs[name]?) (hs : d.snap = d'.snap)
    (ht : d.snapTmp = d'.snapTmp) : d = d' := by
  cases d
  cases d'
  simp only [Disk.mk.injEq]
  exact ⟨ExtTreeMap.ext_getElem? hd, hs, ht⟩

theorem Disk.modifyDir_modifyDir (d : Disk) (ns : Bytes) (f g : NsDir → NsDir) :
    (d.modifyDir ns f).modifyDir ns g = d.modifyDir ns (g ∘ f) := by
  refine Disk.ext_dirs (fun name => ?_) (by simp) (by simp)
  simp only [dirs_modifyDir]
  split
  · rw [Option.map_map]
  · rfl

theorem Disk.modifyDir_id (d : Disk) (ns : Bytes) : d.modifyDir ns (fun nd => nd) = d := by
  refine Disk.ext_dirs (fun name => ?_) (by simp) (by simp)
  rw [dirs_modifyDir]
  split <;> simp

variable {ns : Bytes} {nd : NsDir}

theorem Disk.modifyDir_of_eq {d : Disk} {f : NsDir → NsDir} (h : d.dirs[nsDir ns]? = some nd)
    (hf : f nd = nd) : d.modifyDir ns f = d := by
  rw [Disk.modifyDir, h]
  dsimp only
  rw [hf, OrdMap.insert_eq_self h]

theorem Disk.dirs_ensureDir (d : Disk) (ns name : Bytes) : (d.ensureDir ns).dirs[name]? =
    if nsDir ns = name then some (d.dirs[name]?.getD NsDir.empty) else d.dirs[name]? := by
  unfold Disk.ensureDir
  by_cases hn : nsDir ns = name
  · subst hn
    cases h : d.dirs[nsDir ns]? <;> simp [h]
  · cases h : d.dirs[nsDir ns]? <;> simp [hn]

@[simp] theorem Disk.snap_ensureDir (d : Disk) (ns : Bytes) : (d.ensureDir ns).snap = d.snap := by
  unfold Disk.ensureDir
  split <;> rfl

theorem Disk.ensureDir_eq_self {d : Disk} (h : d.dirs[nsDir ns]? = some nd) :
    d.ensureDir ns = d := by
  simp [Disk.ensureDir, h]

theorem effect_apply (f : Disk → Disk) (w : World) :
    effect f w = .ok () { w with disk := f w.disk, points := w.points ++ [f w.disk] } := rfl

theorem segEffects_spec (ns : Bytes) (effects : List SegEffect) (w : World) :
    ∃ points, segEffects ns effects w =
      .ok () ⟨w.store, w.disk.modifyDir ns (applyAll · effects), points⟩ := by
  induction effects generalizing w with
  | nil =>
    refine ⟨w.points, ?_⟩
    rw [show (applyAll · []) = fun nd => nd from rfl, Disk.modifyDir_id]
    rfl
  | cons e effects ih =>
    obtain ⟨points, h⟩ := ih ⟨w.store, w.disk.modifyDir ns e.apply, w.points ++ [w.disk.modifyDir ns e.apply]⟩
    refine ⟨points, ?_⟩
    rw [Disk.modifyDir_modifyDir] at h
    exact (Exec.forM_cons_ok (f := fun (e : SegEffect) => effect fun d => d.modifyDir ns e.apply) (effect_apply _ w)).trans h

variable {w : World}

theorem mem_ok {α : Type} {x : Mem α} {a : α} {s : Store} (h : x w.store = .ok a s) :
    mem x w = .ok a { w with store := s } := by
  rw [mem, h]

theorem mem_bind (x : Mem Unit) (y : Mem Unit) (w : World) :
    (do mem x; mem y : M Unit) w = mem (do x; y) w := by
  simp only [mem, Exec.bind_apply]
  cases x w.store <;> rfl

theorem getDir_apply (h : w.disk.dirs[nsDir ns]? = some nd) :
    getDir ns w = .ok nd w := by
  simp [getDir, h]

theorem getLog_apply {log : Log} (h : w.store.logs[ns]? = some log) :
    getLog ns w = .ok log w := by
  simp [getLog, h]

@[simp] theorem liftRes_ok {α : Type} (a : α) (w : World) : liftRes (.ok a) w = .ok a w := rfl

theorem readPolicySidecar_apply {p : ConflictPolicy}
    (hnd : w.disk.dirs[nsDir ns]? = some nd) (hp : nd.policy = some [policyToU8 p]) :
    readPolicySidecar ns w = .ok (some p) w := by
  simp [readPolicySidecar, hnd, hp, policyFromU8_policyToU8]
  rfl

theorem choosePolicy_eq {p : ConflictPolicy} {snapPolicy : Option ConflictPolicy}
    (h : ∀ a, snapPolicy = some a → a = p) : choosePolicy ns snapPolicy (some p) = .ok p := by
  cases snapPolicy with
  | none => rfl
  | some a => simp [choosePolicy, h a rfl]

theorem Disk.mem_nsNames (d : Disk) (ns : Bytes) :
    ns ∈ d.nsNames ↔ ∃ name, d.dirs[name]? ≠ none ∧ parseNsDir (fromUtf8Lossy name) = some ns := by
  rw [Disk.nsNames, ExtTreeSet.mem_toList, ExtTreeSet.mem_ofList, List.contains_iff_mem, List.mem_filterMap]
  simp

theorem Disk.nodup_nsNames (d : Disk) : d.nsNames.Nodup := by
  have h := ExtTreeSet.distinct_toList
    (t := ExtTreeSet.ofList (d.dirs.keys.filterMap fun name => parseNsDir (fromUtf8Lossy name)) compare)
  exact h.imp fun hne e => hne (by rw [e]; exact LawfulEqCmp.compare_eq_iff_eq.2 rfl)

theorem Store.view_stampCreated (s : Store) (now : UInt64) (ns : Bytes) : (s.stampCreated now).view ns = s.view ns := by
  unfold Store.stampCreated
  split
  · have hs : createdKey ≠ schemaKey ns := by
      rw [← List.append_nil createdKey]
      exact append_ne_append (by decide) (by decide) (by decide) [] ns
    have hi : createdKey ≠ indexKey ns := by
      rw [← List.append_nil createdKey]
      exact append_ne_append (by decide) (by decide) (by decide) [] ns
    simp [Store.view, Store.schema, Store.indexDef, hs, hi]
  · rfl

theorem Store.policies_stampCreated (s : Store) (now : UInt64) : (s.stampCreated now).policies = s.policies := by
  unfold Store.stampCreated
  split <;> rfl

theorem Store.logs_stampCreated (s : Store) (now : UInt64) : (s.stampCreated now).logs = s.logs := by
  unfold Store.stampCreated
  split <;> rfl

theorem Store.peerClocks_stampCreated (s : Store) (now : UInt64) : (s.stampCreated now).peerClocks = s.peerClocks := by
  unfold Store.stampCreated
  split <;> rfl

section

variable [Crates]

variable {w : World} {ns : Bytes} {nd : NsDir} {log : Log}

/-- Recovery of a log in use yields a handle for it; it touches the last segment and so leaves the directory alone. -/
theorem recoverLog_spec {bs : List Bytes} {rs : List Record}
    (hnd : w.disk.dirs[nsDir ns]? = some nd) (h : LogRep nd log bs) (hc : Chained .zero bs rs) (durable : Bool) :
    ∃ log', recoverLog ns durable w = .ok log' ⟨w.store, w.disk, w.points ++ [w.disk]⟩ ∧ log'.durable = durable ∧
      LogRep nd log' bs := by
  obtain ⟨i, hrec, hsame, hrep⟩ := h.recover hc (nsDir ns) durable
  have heff : segEffects ns [.create i] w = .ok () ⟨w.store, w.disk, w.points ++ [w.disk]⟩ := by
    have hdisk : w.disk.modifyDir ns (SegEffect.create i).apply = w.disk := Disk.modifyDir_of_eq hnd hsame
    change EStateM.Result.ok () (World.mk w.store (w.disk.modifyDir ns _) (w.points ++ [w.disk.modifyDir ns _])) = _
    rw [hdisk]
  refine ⟨_, ?_, rfl, hrep⟩
  simp only [recoverLog, Exec.bind_apply, getDir_apply hnd, hrec, liftRes_ok, heff, Exec.pure_apply]

theorem replayRecords_spec {p : ConflictPolicy} {bs : List Bytes} {rs : List Record} {head : Bytes32}
    (hc : Chained head bs rs) (hp : w.store.policies[ns]? = some p) (hs : (w.store.view ns).Shaped p)
    (seq : Nat) : ∃ s', replayRecords ns (numberFrom seq bs) head w = .ok (chainHead head bs) { w with store := s' } ∧
      Becomes ns w.store s' ((w.store.view ns).replay p seq rs) ∧ s'.revision = w.store.revision := by
  induction hc generalizing w seq with
  | nil head => exact ⟨w.store, rfl, Becomes.refl ns w.store, rfl⟩
  | @cons head b r bs rs parsed rest ih =>
    have hwf := (parseChain_wellFormed parsed).1
    obtain ⟨s1, h1, hb1, hr1⟩ := applyRecord_spec hp hs hwf seq
    have hp1 : s1.policies[ns]? = some p := by rw [hb1.policies, hp]
    have hs1 : (s1.view ns).Shaped p := by rw [hb1.view_eq]; exact hs.record seq r
    obtain ⟨s2, h2, hb2, hr2⟩ := ih (w := { w with store := s1 }) hp1 hs1 (seq + 1)
    refine ⟨s2, ?_, ?_, hr2.trans hr1⟩
    · simp only [numberFrom, replayRecords, parsed, Exec.bind_apply, liftRes_ok, mem_ok h1]
      exact h2
    · simp only [hb1.view_eq] at hb2
      exact hb1.trans hb2

/-! ### Directories -/

/-- The log head of `ns` that a snapshot of the store records. -/
def Store.snapHead (s : Store) (ns : Bytes) : Nat × Bytes32 := (s.head ns).getD (0, .zero)

/-- What is known of a directory: the byte strings and the records of the logs, and the store in the snapshot. -/
structure History where
  bytes : Bytes → List Bytes
  records : Bytes → List Record
  base : Store

/-- The snapshot knows some of the namespaces, at a prefix of their logs. -/
structure BaseRep (pol : BMap Bytes ConflictPolicy) (g : History) : Prop where
  owned : g.base.Owned
  policies : ∀ (ns : Bytes) p, g.base.policies[ns]? = some p → pol[ns]? = some p
  logs : ∀ ns : Bytes, g.base.policies[ns]? = none → g.base.logs[ns]? = none
  outside : ∀ ns : Bytes, g.base.policies[ns]? = none → g.base.view ns = NsState.empty
  heads : ∀ ns : Bytes, ∃ k, k ≤ (g.bytes ns).length ∧ g.base.snapHead ns = (k, chainHead .zero ((g.bytes ns).take k))
  shaped : ∀ (ns : Bytes) p, pol[ns]? = some p → (g.base.view ns).Shaped p

/-- The directory holds exactly the namespaces `pol`, each with the log of the history. -/
structure LogsRep (d : Disk) (pol : BMap Bytes ConflictPolicy) (g : History) : Prop where
  names : ∀ name : Bytes, d.dirs[name]? ≠ none → ∃ ns, pol[ns]? ≠ none ∧ name = nsDir ns
  valid : ∀ ns : Bytes, pol[ns]? ≠ none → validNs ns
  dirs : ∀ (ns : Bytes) p, pol[ns]? = some p → ∃ nd log, d.dirs[nsDir ns]? = some nd ∧
    nd.policy = some [policyToU8 p] ∧ LogRep nd log (g.bytes ns)
  chained : ∀ ns : Bytes, pol[ns]? ≠ none → Chained .zero (g.bytes ns) (g.records ns)

/-- The directory stands for the history. -/
structure DiskRep (d : Disk) (pol : BMap Bytes ConflictPolicy) (g : History) : Prop extends
    LogsRep d pol g, BaseRep pol g where
  snap : (d.snap = none ∧ g.base = Store.init false) ∨
    (d.snap = some (encodeSnap g.base.snapOf) ∧ g.base.snapOf.Fits)

/-- The state of a namespace after opening: the snapshot's, with the rest of the log replayed. -/
def History.recovered (g : History) (ns : Bytes) (p : ConflictPolicy) : NsState :=
  (g.base.view ns).replay p ((g.base.snapHead ns).1 + 1) ((g.records ns).drop (g.base.snapHead ns).1)

variable {d : Disk} {pol : BMap Bytes ConflictPolicy} {g : History}

theorem baseRep_init (pol : BMap Bytes ConflictPolicy) (bytes : Bytes → List Bytes) (records : Bytes → List Record) :
    BaseRep pol ⟨bytes, records, Store.init false⟩ := by
  have hview : ∀ ns, (Store.init false).view ns = NsState.empty := by
    intro ns
    simp [Store.view, Store.init, Store.schema, Store.indexDef, NsState.empty]
  refine ⟨⟨?_, ?_⟩, ?_, ?_, fun ns _ => hview ns, fun ns => ⟨0, Nat.zero_le _, ?_⟩, fun ns p _ => ?_⟩
  · simp [Store.init]
  · simp [Store.init]
  · simp [Store.init]
  · simp [Store.init]
  · simp [Store.snapHead, Store.head, Store.init, chainHead]
  · rw [hview]
    exact NsState.shaped_empty p

theorem openNs_spec (hd : DiskRep d pol g) (hwd : w.disk = d) {p : ConflictPolicy}
    (hp : pol[ns]? = some p) {info : BMap Bytes (Nat × Bytes32)} (hinfo : info[ns]?.getD (0, .zero) = g.base.snapHead ns)
    (hpol : w.store.policies[ns]? = g.base.policies[ns]?) (hview : w.store.view ns = g.base.view ns) (durable : Bool) :
    ∃ s1 log, openNs info durable ns w = .ok () ⟨s1.setLog ns log, w.disk, w.points ++ [w.disk]⟩ ∧
      Becomes ns (w.store.setPolicy ns p) s1 (g.recovered ns p) ∧ s1.revision = w.store.revision ∧ log.durable = durable ∧
      ∃ nd, w.disk.dirs[nsDir ns]? = some nd ∧ LogRep nd log (g.bytes ns) := by
  subst hwd
  obtain ⟨nd, log0, hnd, hside, hrep0⟩ := hd.dirs ns p hp
  have hchain := hd.chained ns (by rw [hp]; simp)
  obtain ⟨log, hrec, hdur, hrep⟩ := recoverLog_spec hnd hrep0 hchain durable
  obtain ⟨k, hk, hhead⟩ := hd.heads ns
  have hchoose : choosePolicy ns g.base.policies[ns]? (some p) = .ok p := choosePolicy_eq fun a ha => by
    have := hd.policies ns a ha
    rw [hp] at this
    exact (Option.some.inj this).symm
  have hseq : ¬ k > log.seq := by rw [hrep.seq_eq]; omega
  have hread := hrep.readRecords hchain.headerOk k 0
  rw [takeMax, if_pos rfl] at hread
  have hp2 : (w.store.setPolicy ns p).policies[ns]? = some p := by simp [Store.setPolicy]
  have hs2 : (w.store.view ns).Shaped p := by rw [hview]; exact hd.shaped ns p hp
  obtain ⟨s', hrep', hb, hr⟩ := replayRecords_spec (hchain.drop k) (w := ⟨w.store.setPolicy ns p, w.disk, w.points ++ [w.disk]⟩) hp2 hs2 (k + 1)
  have hfinal : log.head = chainHead (chainHead .zero ((g.bytes ns).take k)) ((g.bytes ns).drop k) := by
    rw [← chainHead_append, List.take_append_drop, hrep.head_eq]
  have hside1 : ∀ s pts, readPolicySidecar ns ⟨s, w.disk, pts⟩ = .ok (some p) ⟨s, _, pts⟩ :=
    fun _ _ => readPolicySidecar_apply hnd hside
  have hdir1 : ∀ s pts, getDir ns ⟨s, w.disk, pts⟩ = .ok nd ⟨s, _, pts⟩ := fun _ _ => getDir_apply hnd
  refine ⟨s', log, ?_, ?_, hr, hdur, nd, hnd, hrep⟩
  · simp [openNs, hrec, hside1, hpol, hchoose, liftRes_ok, hinfo, hhead, hseq, hdir1, hread, hrep', hfinal, setLog,
    setPolicy]
  · rw [History.recovered, hhead]
    rw [show (w.store.setPolicy ns p).view ns = g.base.view ns from hview] at hb
    exact hb

theorem LogsRep.mem_nsNames (hd : LogsRep d pol g) (ns : Bytes) : ns ∈ d.nsNames ↔ pol[ns]? ≠ none := by
  rw [Disk.mem_nsNames]
  constructor
  · rintro ⟨name, hname, hparse⟩
    obtain ⟨ns', hns', rfl⟩ := hd.names name hname
    rw [fromUtf8Lossy_nsDir, parseNsDir_nsDir (hd.valid ns' hns'), Option.some.injEq] at hparse
    exact hparse ▸ hns'
  · intro hns
    obtain ⟨p, hp⟩ := Option.ne_none_iff_exists'.1 hns
    obtain ⟨nd, _, hnd, _⟩ := hd.dirs ns p hp
    exact ⟨nsDir ns, by rw [hnd]; simp, by rw [fromUtf8Lossy_nsDir, parseNsDir_nsDir (hd.valid ns hns)]⟩

theorem LogsRep.nsDir_ne (hd : LogsRep d pol g) {n : Bytes} (hns : pol[ns]? ≠ none) (hn : pol[n]? ≠ none)
    (hne : n ≠ ns) : nsDir ns ≠ nsDir n :=
  fun e => hne (nsDir_injective (hd.valid ns hns) (hd.valid n hn) e).symm

theorem LogsRep.modifyDir (hd : LogsRep d pol g) {g' : History} (hns : pol[ns]? ≠ none)
    (hrest : ∀ n, n ≠ ns → g'.bytes n = g.bytes n ∧ g'.records n = g.records n)
    (hc : Chained .zero (g'.bytes ns) (g'.records ns)) {f : NsDir → NsDir}
    (hnd : d.dirs[nsDir ns]? = some nd) (hfp : (f nd).policy = nd.policy) (hrep : LogRep (f nd) log (g'.bytes ns)) :
    LogsRep (d.modifyDir ns f) pol g' := by
  refine ⟨fun name hname => ?_, hd.valid, fun n p hp => ?_, fun n hn => ?_⟩
  · rw [Disk.dirs_modifyDir] at hname
    refine hd.names name fun h => hname ?_
    rw [h]
    split <;> rfl
  · rw [Disk.dirs_modifyDir]
    rcases eq_or_ne n ns with rfl | hne
    · obtain ⟨nd', log', hnd', hpol, _⟩ := hd.dirs n p hp
      rw [hnd, Option.some.injEq] at hnd'
      subst hnd'
      exact ⟨f nd, log, by rw [if_pos rfl, hnd, Option.map_some], hfp.trans hpol, hrep⟩
    · rw [if_neg (hd.nsDir_ne hns (by rw [hp]; simp) hne), (hrest n hne).1]
      exact hd.dirs n p hp
  · rcases eq_or_ne n ns with rfl | hne
    · exact hc
    · rw [(hrest n hne).1, (hrest n hne).2]
      exact hd.chained n hn

theorem DiskRep.modifyDir (hd : DiskRep d pol g) (hns : pol[ns]? ≠ none) {f : NsDir → NsDir}
    (hnd : d.dirs[nsDir ns]? = some nd) (hfp : (f nd).policy = nd.policy)
    (hrep : LogRep (f nd) log (g.bytes ns)) : DiskRep (d.modifyDir ns f) pol g :=
  ⟨hd.toLogsRep.modifyDir hns (fun _ _ => ⟨rfl, rfl⟩) (hd.chained ns hns) hnd hfp hrep, hd.toBaseRep,
    by rw [Disk.snap_modifyDir]; exact hd.snap⟩

theorem DiskRep.loadSnapFile (hd : DiskRep d pol g) (durable : Bool) :
    ∃ info, loadSnapFile durable d.snap = .ok ({ g.base with logs := ∅, durable := durable, secIndex := ∅ }, info) ∧
      (∀ ns : Bytes, info[ns]?.getD (0, .zero) = g.base.snapHead ns) ∧
      ∀ ns : Bytes, info[ns]? ≠ none → pol[ns]? ≠ none := by
  rcases hd.snap with ⟨hs, hb⟩ | ⟨hs, hfits⟩
  · refine ⟨∅, ?_, fun ns => ?_, fun ns h => ?_⟩
    · rw [hs, hb]; rfl
    · rw [hb]
      simp [Store.snapHead, Store.head, Store.init]
    · simp at h
  · refine ⟨g.base.snapOf.info, ?_, fun ns => ?_, fun ns h => ?_⟩
    · rw [hs, BunnyMesh.loadSnapFile, decodeSnap_encodeSnap hfits, ok_bind, loadSnap_snapOf hd.owned, pure_eq_ok]
    · rw [info_snapOf]
      split
      · rename_i hp
        simp [Store.snapHead, Store.head, hd.logs ns hp]
      · rfl
    · rw [info_snapOf] at h
      split at h
      · exact absurd rfl h
      · rename_i hp
        obtain ⟨p, hp⟩ := Option.ne_none_iff_exists'.1 hp
        rw [hd.policies ns p hp]
        simp

/-! ### Opening -/

/-- The store half way through opening: the namespaces `done` are recovered, the others are as in the snapshot. -/
structure Opening (pol : BMap Bytes ConflictPolicy) (g : History)
    (durable : Bool) (done : List Bytes) (w : World) : Prop where
  disk : DiskRep w.disk pol g
  known : ∀ ns : Bytes, ns ∈ done → pol[ns]? ≠ none
  policies : ∀ ns : Bytes, w.store.policies[ns]? = if ns ∈ done then pol[ns]? else g.base.policies[ns]?
  logs : ∀ ns : Bytes, ns ∈ done → ∃ nd log, w.disk.dirs[nsDir ns]? = some nd ∧ w.store.logs[ns]? = some log ∧
    log.durable = durable ∧ LogRep nd log (g.bytes ns)
  noLogs : ∀ ns : Bytes, ns ∉ done → w.store.logs[ns]? = none
  view : ∀ (ns : Bytes) p, ns ∈ done → pol[ns]? = some p → w.store.view ns = g.recovered ns p
  rest : ∀ ns : Bytes, ns ∉ done → w.store.view ns = g.base.view ns
  peerClocks : w.store.peerClocks = g.base.peerClocks
  revision : w.store.revision = g.base.revision
  durable : w.store.durable = durable

theorem Opening.step {durable : Bool} {done : List Bytes} (h : Opening pol g durable done w)
    (hnot : ns ∉ done) (hns : pol[ns]? ≠ none)
    {info : BMap Bytes (Nat × Bytes32)} (hinfo : ∀ ns : Bytes, info[ns]?.getD (0, .zero) = g.base.snapHead ns) :
    ∃ w', openNs info durable ns w = .ok () w' ∧ Opening pol g durable (done ++ [ns]) w' ∧ w'.disk = w.disk ∧
      w'.points = w.points ++ [w.disk] := by
  obtain ⟨p, hp⟩ := Option.ne_none_iff_exists'.1 hns
  obtain ⟨s1, log, hopen, hb, hrev, hdur, nd, hnd, hrep⟩ := openNs_spec h.disk rfl hp (hinfo ns)
    (by rw [h.policies, if_neg hnot]) (h.rest ns hnot) durable
  have hmem : ∀ n, n ∈ done ++ [ns] ↔ n ∈ done ∨ n = ns := by simp
  refine ⟨_, hopen, ⟨h.disk, fun n hn => ?_, fun n => ?_, fun n hn => ?_, fun n hn => ?_,
    fun n q hn hq => ?_, fun n hn => ?_, hb.peerClocks.trans h.peerClocks, hrev.trans h.revision,
    hb.durable.trans h.durable⟩, rfl, rfl⟩
  · rcases (hmem n).1 hn with hn | rfl
    · exact h.known n hn
    · exact hns
  · change s1.policies[n]? = _
    rw [hb.policies, Store.setPolicy, OrdMap.getElem?_insert, h.policies]
    rcases eq_or_ne n ns with rfl | hne
    · simp [hp]
    · simp [hne, hne.symm]
  · rcases eq_or_ne n ns with rfl | hne
    · exact ⟨nd, log, hnd, by simp [Store.setLog], hdur, hrep⟩
    · have hn := ((hmem n).1 hn).resolve_right hne
      obtain ⟨nd', log', hnd', hlog', hrest⟩ := h.logs n hn
      refine ⟨nd', log', hnd', ?_, hrest⟩
      simp only [Store.setLog, OrdMap.getElem?_insert, if_neg hne.symm]
      rw [hb.logs]
      exact hlog'
  · rw [hmem, not_or] at hn
    simp only [Store.setLog, OrdMap.getElem?_insert, if_neg (Ne.symm hn.2)]
    rw [hb.logs]
    exact h.noLogs n hn.1
  · change s1.view n = _
    rcases eq_or_ne n ns with rfl | hne
    · rw [hp, Option.some.injEq] at hq
      rw [hb.view_eq, hq]
    · rw [hb.toOnlyNs.view hne]
      exact h.view n q (((hmem n).1 hn).resolve_right hne) hq
  · rw [hmem, not_or] at hn
    change s1.view n = _
    rw [hb.toOnlyNs.view hn.2]
    exact h.rest n hn.1

/-- A store at work: its log handles stand for the files of its directory, and nothing is held outside its
namespaces. -/
structure Attached (w : World) (g : History) : Prop where
  files : LogsRep w.disk w.store.policies g
  logs : ∀ (ns : Bytes) p, w.store.policies[ns]? = some p → ∃ nd log, w.disk.dirs[nsDir ns]? = some nd ∧
    w.store.logs[ns]? = some log ∧ LogRep nd log (g.bytes ns)
  noLogs : ∀ ns : Bytes, w.store.policies[ns]? = none → w.store.logs[ns]? = none
  outside : ∀ ns : Bytes, w.store.policies[ns]? = none → w.store.view ns = NsState.empty
  shaped : ∀ (ns : Bytes) p, w.store.policies[ns]? = some p → (w.store.view ns).Shaped p

/-- A store at work on a directory with a good snapshot. -/
structure Running (w : World) (g : History) : Prop extends Attached w g where
  disk : DiskRep w.disk w.store.policies g

theorem Attached.congr {w' : World} (h : Attached w g) (hd : w'.disk = w.disk)
    (hp : w'.store.policies = w.store.policies) (hl : w'.store.logs = w.store.logs)
    (hv : ∀ ns, w'.store.view ns = w.store.view ns) : Attached w' g := by
  refine ⟨?_, ?_, ?_, ?_, ?_⟩
  · rw [hd, hp]; exact h.files
  · rw [hd, hp, hl]; exact h.logs
  · rw [hp, hl]; exact h.noLogs
  · simp only [hp, hv]; exact h.outside
  · simp only [hp, hv]; exact h.shaped

theorem Running.congr {w' : World} (h : Running w g) (hd : w'.disk = w.disk)
    (hp : w'.store.policies = w.store.policies) (hl : w'.store.logs = w.store.logs)
    (hv : ∀ ns, w'.store.view ns = w.store.view ns) : Running w' g :=
  ⟨h.toAttached.congr hd hp hl hv, by rw [hd, hp]; exact h.disk⟩

theorem Opening.running {durable : Bool} {done : List Bytes} (h : Opening pol g durable done w)
    (hdone : ∀ ns : Bytes, pol[ns]? ≠ none → ns ∈ done) : Running w g ∧ w.store.policies = pol := by
  have hpol : w.store.policies = pol := by
    refine ExtTreeMap.ext_getElem? fun ns => ?_
    rw [h.policies]
    split
    · rfl
    · rename_i hn
      cases hb : g.base.policies[ns]? with
      | none => exact (not_not.1 fun hne => hn (hdone ns hne)).symm
      | some p => exact (h.disk.policies ns p hb).symm
  refine ⟨⟨⟨hpol ▸ h.disk.toLogsRep, fun ns p hp => ?_, fun ns hp => ?_, fun ns hp => ?_, fun ns p hp => ?_⟩,
    hpol ▸ h.disk⟩, hpol⟩
  all_goals rw [hpol] at hp
  · obtain ⟨nd, log, hnd, hlog, _, hrep⟩ := h.logs ns (hdone ns (by rw [hp]; simp))
    exact ⟨nd, log, hnd, hlog, hrep⟩
  · exact h.noLogs ns fun hn => h.known ns hn hp
  · have hbase : g.base.policies[ns]? = none := by
      cases hb : g.base.policies[ns]? with
      | none => rfl
      | some p => rw [h.disk.policies ns p hb] at hp; cases hp
    rw [h.rest ns fun hn => h.known ns hn hp, h.disk.outside ns hbase]
  · rw [h.view ns p (hdone ns (by rw [hp]; simp)) hp]
    exact (h.disk.shaped ns p hp).replay _ _

theorem openDurable_apply (hd : DiskRep d pol g) (s : Store) (points : List Disk) (durable : Bool)
    (now : UInt64) : ∃ w', openDurable durable now ⟨s, d, points⟩ = .ok () w' ∧ w'.disk = d ∧
      w'.points = points ++ List.replicate d.nsNames.length d ∧ Running w' g ∧ w'.store.policies = pol ∧ w'.store.peerClocks = g.base.peerClocks ∧
      w'.store.rebuildSecondaryIndexes = w'.store ∧ ∀ (ns : Bytes) p, pol[ns]? = some p → w'.store.view ns = g.recovered ns p := by
  obtain ⟨info, hload, hinfo, hknown⟩ := hd.loadSnapFile durable
  let w1 : World := ⟨{ g.base with logs := ∅, durable := durable, secIndex := ∅ }, d, points⟩
  have hcheck : (info.keys.forM fun ns => if d.nsNames.contains ns then (pure () : M Unit)
      else throw (.err (.corrupt (some ns) "snapshot references namespace whose log dir is gone"))) w1 = .ok () w1 := by
    refine Exec.forM_unchanged fun ns hns => ?_
    rw [ExtTreeMap.mem_keys, ExtTreeMap.mem_iff_isSome_getElem?, Option.isSome_iff_ne_none] at hns
    rw [if_pos (List.contains_iff_mem.2 ((hd.mem_nsNames ns).2 (hknown ns hns)))]
    rfl
  have hstart : Opening pol g durable [] w1 :=
    ⟨hd, by simp, by simp [w1], by simp, by simp [w1], by simp, fun _ _ => rfl, rfl, rfl, rfl⟩
  obtain ⟨w2, hloop, hopened, hdisk, hpoints⟩ := Exec.forM_processed
    (I := fun done w => Opening pol g durable done w ∧ w.disk = d ∧ w.points = points ++ List.replicate done.length d)
    (f := openNs info durable) (l := d.nsNames) (s := w1) (fun pre ns post hl w h => by
      have hnd := d.nodup_nsNames
      rw [hl, List.nodup_append] at hnd
      obtain ⟨w', hopen, hopening, hdisk, hpoints⟩ := h.1.step (fun hmem => hnd.2.2 ns hmem ns (by simp) rfl)
        ((hd.mem_nsNames ns).1 (by rw [hl]; simp)) hinfo
      refine ⟨w', hopen, hopening, hdisk.trans h.2.1, ?_⟩
      rw [hpoints, h.2.1, h.2.2, List.append_assoc, ← List.replicate_succ', List.length_append, List.length_singleton])
    ⟨hstart, rfl, by simp [w1]⟩
  obtain ⟨hrun, hpol⟩ := hopened.running fun ns hns => (hd.mem_nsNames ns).2 hns
  have hcore := core_rebuildSecondaryIndexes (w2.store.stampCreated now)
  have hview : ∀ ns, (w2.store.stampCreated now).rebuildSecondaryIndexes.view ns = w2.store.view ns :=
    fun ns => (view_of_core hcore ns).trans (view_stampCreated ..)
  have hpol' := (congrArg Store.policies hcore).trans (policies_stampCreated w2.store now)
  refine ⟨⟨(w2.store.stampCreated now).rebuildSecondaryIndexes, w2.disk, w2.points⟩, ?_, hdisk, hpoints, hrun.congr rfl hpol' ?_ hview,
    hpol'.trans hpol, ?_, rebuildSecondaryIndexes_idem _, fun ns p hp => ?_⟩
  · simp only [openDurable, Exec.bind_apply, Exec.get_apply, hload, liftRes_ok, Exec.modify_apply]
    rw [hcheck]
    simp [hloop]
  · exact (congrArg Store.logs hcore).trans (logs_stampCreated ..)
  · exact ((congrArg Store.peerClocks hcore).trans (peerClocks_stampCreated ..)).trans hopened.peerClocks
  · exact (hview ns).trans (hopened.view ns p ((hd.mem_nsNames ns).2 (by rw [hp]; simp)) hp)

theorem openDurable_spec (hd : DiskRep d pol g) (s : Store) (points : List Disk) (durable : Bool)
    (now : UInt64) : ∃ w', openDurable durable now ⟨s, d, points⟩ = .ok () w' ∧ Running w' g ∧
      w'.store.policies = pol ∧ w'.store.peerClocks = g.base.peerClocks ∧
      w'.store.rebuildSecondaryIndexes = w'.store ∧ ∀ (ns : Bytes) p, pol[ns]? = some p → w'.store.view ns = g.recovered ns p := by
  obtain ⟨w', hopen, _, _, hrest⟩ := openDurable_apply hd s points durable now
  exact ⟨w', hopen, hrest⟩

end

end BunnyMesh
