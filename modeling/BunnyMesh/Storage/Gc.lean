import BunnyMesh.Lib.Run
import BunnyMesh.Storage.SnapFits

/-!
# Live compaction

`gc_live` goes through the namespaces one by one (`CompactStep`), while the snapshot on disk is still the old one: only
the checkpoint at the end makes the directory stand for the new logs.
-/

namespace BunnyMesh

open Std Store
open Runs (Run)

theorem segBytes_apply (ns : Bytes) (w : World) : ∃ n, segBytes ns w = .ok n w := by
  unfold segBytes
  simp only [Exec.bind_apply, Exec.get_apply]
  cases w.disk.dirs[nsDir ns]? with
  | none => exact ⟨0, rfl⟩
  | some nd => exact ⟨_, rfl⟩

section

variable [Crates]
variable {w w' : World} {g g' : History} {ns : Bytes} {p : ConflictPolicy} {now : UInt64}

def applyRecords (ns : Bytes) : Nat → List Record → Mem Unit
  | _, [] => pure ()
  | seq, r :: rs => do
    applyRecord ns r seq
    applyRecords ns (seq + 1) rs

variable {rs : List Record} {nss : List Bytes}

theorem applyRecords_spec {s : Store} (hp : s.policies[ns]? = some p) (hs : (s.view ns).Shaped p)
    (hrs : ∀ r ∈ rs, r.WellFormed) (seq : Nat) : ∃ s', applyRecords ns seq rs s = .ok () s' ∧
      Becomes ns s s' ((s.view ns).replay p seq rs) ∧ s'.revision = s.revision := by
  induction rs generalizing s seq with
  | nil => exact ⟨s, rfl, Becomes.refl ns s, rfl⟩
  | cons r rs ih =>
    obtain ⟨hr, hrs⟩ := List.forall_mem_cons.1 hrs
    obtain ⟨s1, h1, hb1, hr1⟩ := applyRecord_spec hp hs hr seq
    obtain ⟨s2, h2, hb2, hr2⟩ := ih (s := s1) (by rw [hb1.policies, hp]) (by rw [hb1.view_eq]; exact hs.record seq r) hrs
      (seq + 1)
    rw [hb1.view_eq] at hb2
    exact ⟨s2, by rw [applyRecords, Exec.bind_ok h1, h2], hb1.trans hb2, hr2.trans hr1⟩

theorem reapply_of_chained {head : Bytes32} {bs : List Bytes} (h : Chained head bs rs) (seq : Nat)
    (w : World) : reapply ns (numberFrom seq bs) w = mem (applyRecords ns seq rs) w := by
  induction h generalizing seq w with
  | nil => rfl
  | @cons head b r bs rs parsed rest ih =>
    simp only [numberFrom, reapply, parseChain_none parsed, applyRecords]
    rw [← mem_bind, Exec.bind_apply, Exec.bind_apply]
    cases mem (applyRecord ns r seq) w with
    | ok a w1 => exact ih (seq + 1) w1
    | error e w1 => rfl

def History.rewrite (g : History) (ns : Bytes) (out : List Record) : History where
  bytes := Function.update g.bytes ns (encodeChain .zero out)
  records := Function.update g.records ns out
  base := g.base

theorem openLog_spec {nd : NsDir} {log : Log} {bs : List Bytes}
    (hnd : w.disk.dirs[nsDir ns]? = some nd) (h : LogRep nd log bs) (hc : Chained .zero bs rs) (durable : Bool) :
    ∃ log' points, openLog ns durable w = .ok log' ⟨w.store, w.disk, points⟩ ∧ LogRep nd log' bs := by
  obtain ⟨log', hrec, _, hrep⟩ := recoverLog_spec (w := ⟨w.store, w.disk, w.points ++ [w.disk]⟩) hnd h hc durable
  refine ⟨log', w.points ++ [w.disk] ++ [w.disk], ?_, hrep⟩
  simp [openLog, effect_apply, Disk.ensureDir_eq_self hnd, hrec]

theorem writeFreshIn_spec {nd : NsDir} (hnd : w.disk.dirs[nsDir ns]? = some nd) (out : List Record) : ∃ points,
    writeFreshIn ns out w = .ok () ⟨w.store, w.disk.modifyDir ns (applyAll · (writeFresh nd out)), points⟩ := by
  obtain ⟨points, heff⟩ := segEffects_spec ns (writeFresh nd out) ⟨w.store, w.disk, w.points ++ [w.disk]⟩
  refine ⟨points, ?_⟩
  have hget := getDir_apply (w := ⟨w.store, w.disk, w.points ++ [w.disk]⟩) hnd
  simp [writeFreshIn, createDir, effect_apply, Disk.ensureDir_eq_self hnd, hget, heff]

theorem rewriteNs_spec (h : Attached w g) (hp : w.store.policies[ns]? = some p) {out : List Record}
    (hout : ∀ r ∈ out, r.WellFormed) : ∃ log s' disk points, rewriteNs ns out w = .ok () ⟨s', disk, points⟩ ∧
      applyRecords ns 1 out ((w.store.setLog ns log).dropNs ns) = .ok () s' ∧
      Attached ⟨s', disk, points⟩ (g.rewrite ns out) ∧ disk.snap = w.disk.snap := by
  have hns : w.store.policies[ns]? ≠ none := by rw [hp]; simp
  obtain ⟨nd, log0, hnd, _, hrep0⟩ := h.logs ns p hp
  obtain ⟨points1, hwrite⟩ := writeFreshIn_spec hnd out
  obtain ⟨log1, hrep1⟩ := hrep0.writeFresh out
  have hc := chained_encodeChain hout .zero
  -- the fresh log is opened
  generalize hF : (fun nd' => applyAll nd' (BunnyMesh.writeFresh nd out)) = F at hwrite
  have hnd1 : (w.disk.modifyDir ns F).dirs[nsDir ns]? = some (F nd) := by
    rw [Disk.dirs_modifyDir, if_pos rfl, hnd, Option.map_some]
  rw [congrFun hF nd] at hrep1
  obtain ⟨log, points, hopen, hrep⟩ := openLog_spec (w := ⟨w.store, w.disk.modifyDir ns F, points1⟩) hnd1 hrep1
    hc w.store.durable
  have hgns : (g.rewrite ns out).bytes ns = encodeChain .zero out ∧ (g.rewrite ns out).records ns = out :=
    ⟨Function.update_self .., Function.update_self ..⟩
  have hat1 := h.setLog (g.rewrite ns out) (f := F) hns
    (fun n hn => ⟨Function.update_of_ne hn .., Function.update_of_ne hn ..⟩)
    (by rw [hgns.1, hgns.2]; exact hc) hnd (by rw [← congrFun hF nd]; exact policy_applyAll ..)
    (by rw [hgns.1]; exact hrep) points
  have hsnap : (w.disk.modifyDir ns F).snap = w.disk.snap := Disk.snap_modifyDir ..
  generalize w.disk.modifyDir ns F = disk at hwrite hopen hat1 hsnap
  -- the state is rebuilt from it
  have hb := becomes_dropNs (w.store.setLog ns log) ns
  have hempty : ((w.store.setLog ns log).view ns).cleared.Shaped p := NsState.shaped_empty p
  have hat2 : Attached ⟨(w.store.setLog ns log).dropNs ns, disk, points⟩ (g.rewrite ns out) := hat1.becomes hp hb hempty
  have hread := hat2.logRecords_spec (show _ = some p from hp) 0 0
  rw [takeMax, if_pos rfl, List.drop_zero, hgns.1] at hread
  obtain ⟨s', happly, hb', _⟩ := applyRecords_spec (s := (w.store.setLog ns log).dropNs ns) (p := p) hp
    (by rw [hb.view_eq]; exact hempty) hout 1
  rw [hb.view_eq] at hb'
  refine ⟨log, s', disk, points, ?_, happly, hat2.becomes hp hb' (hempty.replay 1 out), hsnap⟩
  have hmem : mem (applyRecords ns 1 out) ⟨(w.store.setLog ns log).dropNs ns, disk, points⟩ =
      .ok () ⟨s', disk, points⟩ := mem_ok happly
  have hall : allRecords ns ⟨(w.store.setLog ns log).dropNs ns, disk, points⟩ =
      .ok (numberFrom 1 (encodeChain .zero out)) ⟨(w.store.setLog ns log).dropNs ns, disk, points⟩ := by
    rw [allRecords, hread]
  have hdrop : mem (modify fun s => s.dropNs ns) ⟨w.store.setLog ns log, disk, points⟩ =
      .ok () ⟨(w.store.setLog ns log).dropNs ns, disk, points⟩ := rfl
  simp [rewriteNs, hwrite, hopen, setLog, hdrop, hall, reapply_of_chained hc, hmem]

/-- One pass of the compaction loop, on the store and the history of its directory. -/
inductive CompactStep (now : UInt64) : World × History → Bytes → World × History → Prop where
  | untouched {w : World} {g : History} {ns : Bytes} (nothing : compacted w.store ns now = []) :
      CompactStep now (w, g) ns (w, g)
  | rewritten {w : World} {g : History} {ns : Bytes} {p : ConflictPolicy} {log : Log} {s' : Store} {disk : Disk}
      {points : List Disk} (policy : w.store.policies[ns]? = some p) (sized : (w.store.view ns).Sized)
      (something : compacted w.store ns now ≠ [])
      (act : applyRecords ns 1 (compacted w.store ns now) ((w.store.setLog ns log).dropNs ns) = .ok () s')
      (attached : Attached ⟨s', disk, points⟩ (g.rewrite ns (compacted w.store ns now)))
      (snap : disk.snap = w.disk.snap) :
      CompactStep now (w, g) ns (⟨s', disk, points⟩, g.rewrite ns (compacted w.store ns now))

theorem gcNs_spec (h : Attached w g) (hp : w.store.policies[ns]? = some p) (hsz : (w.store.view ns).Sized)
    (now : UInt64) : ∃ n w' g', gcNs now ns w = .ok n w' ∧ CompactStep now (w, g) ns (w', g') ∧ Attached w' g' := by
  obtain ⟨before, hbefore⟩ := segBytes_apply ns w
  by_cases hout : compacted w.store ns now = []
  · refine ⟨before - before, w, g, ?_, .untouched hout, h⟩
    simp only [gcNs, Exec.bind_apply, hbefore, Exec.get_apply, hout, List.isEmpty_nil, Bool.not_true, Bool.false_eq_true,
      if_false, Exec.pure_apply]
  · obtain ⟨log, s', disk, points, hrewrite, hact, hat, hsnap⟩ := rewriteNs_spec h hp (compacted_wellFormed hsz now)
    obtain ⟨after, hafter⟩ := segBytes_apply ns ⟨s', disk, points⟩
    refine ⟨before - after, _, _, ?_, .rewritten hp hsz hout hact hat hsnap, hat⟩
    have hne : (!(compacted w.store ns now).isEmpty) = true := by simpa using hout
    simp only [gcNs, Exec.bind_apply, hbefore, Exec.get_apply, hne, if_true, hrewrite, hafter, Exec.pure_apply]

theorem CompactStep.spec (hs : CompactStep now (w, g) ns (w', g')) (hp : w.store.policies[ns]? = some p) :
    w'.store.policies = w.store.policies ∧ w'.store.peerClocks = w.store.peerClocks ∧
      w'.store.revision = w.store.revision ∧ w'.store.metaMap = w.store.metaMap ∧ w'.disk.snap = w.disk.snap ∧
      g'.base = g.base ∧
      w'.store.view ns = (w.store.view ns).compactedTo p (compacted w.store ns now) ∧
      ∀ n, n ≠ ns → w'.store.view n = w.store.view n := by
  cases hs with
  | untouched nothing => exact ⟨rfl, rfl, rfl, rfl, rfl, rfl, by rw [NsState.compactedTo, if_pos nothing], fun _ _ => rfl⟩
  | @rewritten _ _ _ p' log s' disk points policy sized something act attached snap =>
    obtain rfl : p = p' := by rw [hp] at policy; exact Option.some.inj policy
    have hb := becomes_dropNs (w.store.setLog ns log) ns
    obtain ⟨s'', hact, hb', hrev⟩ := applyRecords_spec (s := (w.store.setLog ns log).dropNs ns) (p := p) hp
      (by rw [hb.view_eq]; exact NsState.shaped_empty p) (compacted_wellFormed sized now) 1
    rw [act, EStateM.Result.ok.injEq] at hact
    obtain ⟨_, rfl⟩ := hact
    have hball := hb.trans hb'
    have hview : s'.view ns = (w.store.view ns).cleared.replay p 1 (compacted w.store ns now) := by
      rw [hb'.view_eq, hb.view_eq]
      rfl
    have hdefs := NsState.replay_defs (p := p) (compacted_tag w.store ns now) 1
      (w.store.view ns).cleared
    rw [← hview] at hdefs
    refine ⟨hball.policies, hball.peerClocks, hrev, ?_, snap, rfl, ?_, fun n hn => hball.toOnlyNs.view hn⟩
    · refine ExtTreeMap.ext_getElem? fun k => ?_
      rcases eq_or_ne k (schemaKey ns) with rfl | hs
      · exact hdefs.1
      · rcases eq_or_ne k (indexKey ns) with rfl | hi
        · exact hdefs.2
        · exact hball.metaMap k hs hi
    · rw [hview, NsState.compactedTo, if_neg something]

theorem gcLoop_spec (h : Attached w g) (hnss : ∀ ns ∈ nss, w.store.policies[ns]? ≠ none)
    (hsz : ∀ n, (w.store.view n).Sized) (now : UInt64) (reclaimed : Nat) : ∃ total w' g',
      gcLoop now nss reclaimed w = .ok total w' ∧ Run (CompactStep now) (w, g) nss (w', g') ∧ Attached w' g' := by
  induction nss generalizing w g reclaimed with
  | nil => exact ⟨reclaimed, w, g, rfl, .nil _, h⟩
  | cons ns nss ih =>
    obtain ⟨hns, hnss⟩ := List.forall_mem_cons.1 hnss
    obtain ⟨p, hp⟩ := Option.ne_none_iff_exists'.1 hns
    obtain ⟨freed, w1, g1, hgc, hstep, hat⟩ := gcNs_spec h hp (hsz ns) now
    obtain ⟨hpol, _, _, _, _, _, hview, hrest⟩ := hstep.spec hp
    have hsz1 : ∀ n, (w1.store.view n).Sized := by
      intro n
      rcases eq_or_ne n ns with rfl | hne
      · rw [hview]
        exact NsState.Each.compactedTo Slot.Sized.slotKept (hsz n) (compacted_wellFormed (hsz n) now)
      · rw [hrest n hne]
        exact hsz n
    obtain ⟨total, w', g', hloop, hrun, hat'⟩ := ih hat (by rw [hpol]; exact hnss) hsz1 (saturatingAdd reclaimed freed)
    refine ⟨total, w', g', ?_, .cons hstep hrun, hat'⟩
    rw [gcLoop, Exec.bind_ok hgc, hloop]

/-! ### The whole pass -/

theorem CompactStep.fits (hs : CompactStep now (w, g) ns (w', g')) (h : Attached w g)
    (hp : w.store.policies[ns]? = some p) (hf : w.store.snapOf.Fits) : Attached w' g' ∧ w'.store.snapOf.Fits := by
  obtain ⟨hpol, hpeers, hrev, hmeta, _, _, hview, hrest⟩ := hs.spec hp
  cases hs with
  | untouched nothing => exact ⟨h, hf⟩
  | @rewritten _ _ _ p' log s' disk points policy sized something act attached snap =>
    refine ⟨attached, ?_⟩
    rw [Store.snapOf_fits] at hf ⊢
    rw [hpol, hpeers, hrev, hmeta]
    refine ⟨hf.1, hf.2.1, hf.2.2.1, hf.2.2.2.1, hf.2.2.2.2.1, hf.2.2.2.2.2.1, fun n hn => ?_⟩
    have hfn := hf.2.2.2.2.2.2 n hn
    rcases eq_or_ne n ns with rfl | hne
    · rw [NsState.compactedTo, if_neg something] at hview
      refine hfn.rewritten h attached hp (hpol ▸ hp) hview ?_
      simp only [History.rewrite, Function.update_self]
      exact (chained_encodeChain (compacted_wellFormed sized now) .zero).length_eq
    · -- the other namespaces are as they were
      obtain ⟨q, hq⟩ := Option.ne_none_iff_exists'.1 hn
      have hv := hrest n hne
      have hindex : ∀ k : Bytes, s'.index[(n, k)]? = w.store.index[(n, k)]? :=
        fun k => congrArg (fun st => (st.slot k).entry) hv
      have htombs : ∀ k : Bytes, s'.tombs[(n, k)]? = w.store.tombs[(n, k)]? :=
        fun k => congrArg (fun st => (st.slot k).tomb) hv
      refine ⟨hfn.name, hfn.nameLen, ?_, ?_, fun k e he => hfn.entries k e (hindex k ▸ he), ?_,
        fun k hlc ht => hfn.tombs k hlc (htombs k ▸ ht)⟩
      · have hhead := hfn.headSeq
        rw [Store.snapHead, h.head_eq hq] at hhead
        rw [Store.snapHead, attached.head_eq (hpol ▸ hq)]
        simp only [History.rewrite, Function.update_of_ne hne]
        exact hhead
      · rw [nsList_congr hindex]
        exact hfn.entriesLen
      · rw [nsList_congr htombs]
        exact hfn.tombsLen

theorem compactRun_spec (hrun : Run (CompactStep now) (w, g) nss (w', g')) (hnodup : nss.Nodup)
    (hnss : ∀ ns ∈ nss, w.store.policies[ns]? ≠ none) :
    w'.store.policies = w.store.policies ∧ w'.store.peerClocks = w.store.peerClocks ∧
      w'.store.metaMap = w.store.metaMap ∧ w'.disk.snap = w.disk.snap ∧ g'.base = g.base ∧
      (∀ ns p, ns ∈ nss → w.store.policies[ns]? = some p →
        w'.store.view ns = (w.store.view ns).compactedTo p (compacted w.store ns now)) ∧
      ∀ n, n ∉ nss → w'.store.view n = w.store.view n := by
  induction nss generalizing w g with
  | nil =>
    cases hrun
    exact ⟨rfl, rfl, rfl, rfl, rfl, fun _ _ h => (nomatch h), fun _ _ => rfl⟩
  | cons ns nss ih =>
    rw [List.nodup_cons] at hnodup
    obtain ⟨hns, hnss⟩ := List.forall_mem_cons.1 hnss
    obtain ⟨p, hp⟩ := Option.ne_none_iff_exists'.1 hns
    cases hrun with
    | @cons _ x _ _ _ first rest =>
      obtain ⟨w1, g1⟩ := x
      obtain ⟨hpol, hpeers, _, hmeta, hsnap, hbase, hview, hrest⟩ := first.spec hp
      obtain ⟨hpol', hpeers', hmeta', hsnap', hbase', hview', hrest'⟩ := ih rest hnodup.2 (by rw [hpol]; exact hnss)
      refine ⟨hpol'.trans hpol, hpeers'.trans hpeers, hmeta'.trans hmeta, hsnap'.trans hsnap, hbase'.trans hbase,
        fun n q hn hq => ?_, fun n hn => ?_⟩
      · rcases List.mem_cons.1 hn with rfl | hn
        · rw [hp, Option.some.injEq] at hq
          rw [hrest' n hnodup.1, hview, hq]
        · have hne : n ≠ ns := fun e => hnodup.1 (e ▸ hn)
          rw [hview' n q hn (by rw [hpol, hq]), hrest n hne, compacted_congr (hrest n hne)]
      · rw [List.mem_cons, not_or] at hn
        rw [hrest' n hn.2, hrest n hn.1]

theorem compactRun_fits (hrun : Run (CompactStep now) (w, g) nss (w', g')) (h : Attached w g)
    (hnss : ∀ ns ∈ nss, w.store.policies[ns]? ≠ none) (hf : w.store.snapOf.Fits) : w'.store.snapOf.Fits := by
  induction nss generalizing w g with
  | nil =>
    cases hrun
    exact hf
  | cons ns nss ih =>
    obtain ⟨hns, hnss⟩ := List.forall_mem_cons.1 hnss
    obtain ⟨p, hp⟩ := Option.ne_none_iff_exists'.1 hns
    cases hrun with
    | @cons _ x _ _ _ first rest =>
      obtain ⟨w1, g1⟩ := x
      obtain ⟨hat, hf1⟩ := first.fits h hp hf
      exact ih rest hat (by rw [(first.spec hp).1]; exact hnss) hf1

theorem gcLive_spec (h : Attached w g) (hsz : ∀ n, (w.store.view n).Sized) (hf : w.store.snapOf.Fits)
    (hpeers : w.store.peerClocks.isEmpty) : ∃ total w1 g1 disk points,
      gcLive now w = .ok total ⟨w1.store, disk, points⟩ ∧
      Run (CompactStep now) (w, g) (w.store.namespaces.map (·.1)) (w1, g1) ∧
      Running ⟨w1.store, disk, points⟩ (g1.snapshot w1.store) := by
  have hnss : ∀ ns ∈ w.store.namespaces.map (·.1), w.store.policies[ns]? ≠ none :=
    fun ns hns => (w.store.mem_names ns).1 hns
  obtain ⟨total, w1, g1, hloop, hrun, hat⟩ := gcLoop_spec h hnss hsz now 0
  obtain ⟨disk, points, hcheck, hrunning⟩ := hat.checkpoint_spec (compactRun_fits hrun h hnss hf)
  refine ⟨total, w1, g1, disk, points, ?_, hrun, hrunning⟩
  simp only [gcLive, refusePeers, Exec.bind_apply, Exec.get_apply, hpeers, if_true, Exec.pure_apply, hloop, hcheck]

end

end BunnyMesh
