import BunnyMesh.Storage.Create

/-!
# What has been fsynced

A checkpoint fsyncs the current segment of every log.  The segments before it are fsynced only if they were when the log
rolled away from them (`snapshot_references_synced`).
-/

namespace BunnyMesh

open Std Store
open Runs (Run guarded)

def SegFile.Synced (f : SegFile) : Prop := f.synced = f.data.length

instance (f : SegFile) : Decidable f.Synced := inferInstanceAs (Decidable (_ = _))

def NsDir.SyncedAt (nd : NsDir) (i : Nat) : Prop := ∀ f ∈ nd.seg i, f.Synced

instance (nd : NsDir) (i : Nat) : Decidable (nd.SyncedAt i) := inferInstanceAs (Decidable (∀ f ∈ nd.seg i, f.Synced))

def NsDir.SyncedBut (nd : NsDir) (i : Nat) : Prop := ∀ j, j ≠ i → nd.SyncedAt j

def Disk.Synced (d : Disk) : Prop := ∀ (name : Bytes) nd, d.dirs[name]? = some nd → ∀ i, nd.SyncedAt i

/-! ### Effects on one segment -/

def SegEffect.target : SegEffect → Nat
  | create i | truncate i | write i _ _ | setLen i _ | sync i | remove i => i

theorem SegEffect.seg_apply_of_ne {e : SegEffect} {j : Nat} (h : j ≠ e.target) (nd : NsDir) :
    (e.apply nd).seg j = nd.seg j := by
  cases e <;> simp only [SegEffect.apply, NsDir.seg_setSeg] <;> exact if_neg h

theorem seg_applyAll_of_ne {es : List SegEffect} {j : Nat} (h : ∀ e ∈ es, j ≠ e.target) (nd : NsDir) :
    (applyAll nd es).seg j = nd.seg j := by
  induction es generalizing nd with
  | nil => rfl
  | cons e es ih =>
    obtain ⟨he, hes⟩ := List.forall_mem_cons.1 h
    rw [applyAll_cons, ih hes, SegEffect.seg_apply_of_ne he]

theorem NsDir.syncedAt_sync (nd : NsDir) (i : Nat) : ((SegEffect.sync i).apply nd).SyncedAt i := by
  intro f hf
  rw [SegEffect.apply, NsDir.seg_setSeg, if_pos rfl, Option.mem_def] at hf
  obtain ⟨f0, _, rfl⟩ := Option.map_eq_some_iff.1 hf
  rfl

/-! ### Appending -/

section

variable [Crates]

variable {log log' : Log} {b : Bytes} {effects : List SegEffect}

theorem append_targets (h : log.append b = (effects, .ok log')) :
    (∀ e ∈ effects, e.target = log'.curSeg) ∧ log'.durable = log.durable ∧
      (log.durable → ∀ nd, (applyAll nd effects).SyncedAt log'.curSeg) ∧
      (log'.curSeg, log'.curLen) =
        if log.Rolls b.length then (log.curSeg + 1, b.length) else (log.curSeg, log.curLen + b.length) := by
  rw [Log.append] at h
  have hroll : (∀ e ∈ (log.roll b.length).2, e.target = (log.roll b.length).1.curSeg) ∧
      (log.roll b.length).1.durable = log.durable ∧
      ((log.roll b.length).1.curSeg, (log.roll b.length).1.curLen + b.length) =
        if log.Rolls b.length then (log.curSeg + 1, b.length) else (log.curSeg, log.curLen + b.length) := by
    by_cases hr : log.Rolls b.length
    · have hrolled : log.roll b.length = _ := if_pos hr
      rw [hrolled, if_pos hr]
      simp [SegEffect.target]
    · have hrolled : log.roll b.length = _ := if_neg hr
      rw [hrolled, if_neg hr]
      simp
  generalize log.roll b.length = rolled at h hroll
  obtain ⟨log1, effects₁⟩ := rolled
  obtain ⟨htargets, hdurable, hcur⟩ := hroll
  simp only [Log.writeRecord, Prod.mk.injEq] at h
  obtain ⟨rfl, h⟩ := h
  obtain ⟨_, _, h⟩ := bind_eq_ok.1 h
  obtain ⟨_, _, h⟩ := bind_eq_ok.1 h
  rw [pure_eq_ok, Except.ok.injEq] at h
  subst h
  refine ⟨fun e he => ?_, hdurable, fun hd nd => ?_, hcur⟩
  · rcases List.mem_append.1 he with he | he
    · exact htargets e he
    · rcases List.mem_cons.1 he with rfl | he
      · rfl
      · split at he
        · rw [List.mem_singleton.1 he]; rfl
        · cases he
  · rw [← hdurable] at hd
    rw [applyAll_append, applyAll_cons, if_pos hd]
    exact NsDir.syncedAt_sync _ log1.curSeg

variable {nd : NsDir}

theorem NsDir.SyncedBut.append
    (hs : nd.SyncedBut log.curSeg) (h : log.append b = (effects, .ok log'))
    (hroll : log.Rolls b.length → nd.SyncedAt log.curSeg) : (applyAll nd effects).SyncedBut log'.curSeg := by
  obtain ⟨htargets, _, _, hcur⟩ := append_targets h
  intro j hj f hf
  rw [seg_applyAll_of_ne fun e he => by rw [htargets e he]; exact hj] at hf
  split_ifs at hcur with hr
  · rcases eq_or_ne j log.curSeg with rfl | hne
    · exact hroll hr f hf
    · exact hs j hne f hf
  · rw [(Prod.mk.inj hcur).1] at hj
    exact hs j hj f hf

/-! ### The store -/

variable {w w' : World} {g : History} {ns : Bytes} {p : ConflictPolicy}

/-- Only the current segments may hold bytes that are not fsynced. -/
def World.Settled (w : World) : Prop :=
  ∀ (ns : Bytes) log nd, w.store.logs[ns]? = some log → w.disk.dirs[nsDir ns]? = some nd → nd.SyncedBut log.curSeg

theorem Attached.nsDir_ne_of_log (h : Attached w g) (hp : w.store.policies[ns]? ≠ none) {n : Bytes}
    (hn : n ≠ ns) (hlog : w.store.logs[n]? = some log) : nsDir ns ≠ nsDir n :=
  h.files.nsDir_ne hp (fun hnone => by rw [h.noLogs n hnone] at hlog; cases hlog) hn

theorem Logged.logs {c : Change} {w' : World} (h : Attached w g) (hl : Logged ns p c w g w') : ∃ log log' effects,
    w.store.logs[ns]? = some log ∧ log.append (c.record.toBytes log.head) = (effects, .ok log') ∧
      w'.store.logs = w.store.logs.insert ns log' ∧ w'.disk = w.disk.modifyDir ns (applyAll · effects) := by
  obtain @⟨log, log', s', effects, points, hp, hc, hlog, happend, hact, hat⟩ := hl
  obtain ⟨s'', hact', hb⟩ := Change.act_spec (s := w.store.setLog ns log') hp (h.shaped ns p hp) hc
    ((g.records ns).length + 1)
  rw [hact, EStateM.Result.ok.injEq] at hact'
  obtain ⟨_, rfl⟩ := hact'
  exact ⟨log, log', effects, hlog, happend, hb.logs, rfl⟩

/-- Appending records of the lengths `lens` rolls only away from segments that are fsynced: at first the current one is if
`synced`, and a segment that was written to is in a durable store. -/
def rollsSynced (durable : Bool) : Nat → Bool → List Nat → Bool
  | _, _, [] => true
  | curLen, synced, len :: lens =>
    if curLen > 0 ∧ curLen + len > segmentBytes then synced && rollsSynced durable len durable lens
    else rollsSynced durable (curLen + len) durable lens

omit [Crates] in
theorem rollsSynced_cons (log : Log) (synced : Bool) (len : Nat) (lens : List Nat) :
    rollsSynced log.durable log.curLen synced (len :: lens) =
      if log.Rolls len then synced && rollsSynced log.durable len log.durable lens
      else rollsSynced log.durable (log.curLen + len) log.durable lens := rfl

omit [Crates] in
theorem rollsSynced_mono {durable synced synced' : Bool} {curLen : Nat} {lens : List Nat}
    (h : rollsSynced durable curLen synced lens) (hs : synced → synced') : rollsSynced durable curLen synced' lens := by
  cases lens with
  | nil => rfl
  | cons len lens =>
    unfold rollsSynced at h ⊢
    split at h
    · rename_i hr
      rw [if_pos hr]
      rw [Bool.and_eq_true] at h ⊢
      exact ⟨hs h.1, h.2⟩
    · rename_i hr
      rw [if_neg hr]
      exact h

def World.RollsSynced (w : World) (ns : Bytes) (rs : List Record) : Prop :=
  ∀ log ∈ w.store.logs[ns]?, ∀ nd ∈ w.disk.dirs[nsDir ns]?,
    rollsSynced log.durable log.curLen (decide (nd.SyncedAt log.curSeg)) (rs.map fun r => headerLen + r.payload.length)

instance (w : World) (ns : Bytes) (rs : List Record) : Decidable (w.RollsSynced ns rs) := by
  delta World.RollsSynced
  infer_instance

theorem Logged.settled {c : Change} {rs : List Record} (h : Attached w g) (hs : w.Settled) (hl : Logged ns p c w g w')
    (hr : w.RollsSynced ns (c.record :: rs)) : w'.Settled ∧ w'.RollsSynced ns rs := by
  obtain ⟨log, log', effects, hlog, happend, hlogs, hdisk⟩ := hl.logs h
  have hns : w.store.policies[ns]? ≠ none := fun hp => by rw [h.noLogs ns hp] at hlog; cases hlog
  obtain ⟨_, hdurable, hsynced, hcur⟩ := append_targets happend
  have hget : ∀ nd', w'.disk.dirs[nsDir ns]? = some nd' → ∃ nd, w.disk.dirs[nsDir ns]? = some nd ∧ nd' = applyAll nd effects := by
    intro nd' hnd'
    rw [hdisk, Disk.dirs_modifyDir, if_pos rfl] at hnd'
    obtain ⟨nd, hnd, rfl⟩ := Option.map_eq_some_iff.1 hnd'
    exact ⟨nd, hnd, rfl⟩
  have hlength := Record.length_toBytes c.record log.head
  constructor
  · intro n log1 nd1 hlog1 hnd1
    rw [hlogs, OrdMap.getElem?_insert] at hlog1
    split at hlog1
    · rename_i he
      subst he
      cases hlog1
      obtain ⟨nd, hnd, rfl⟩ := hget nd1 hnd1
      refine (hs _ log nd hlog hnd).append happend fun hroll => ?_
      have hcond := hr log hlog nd hnd
      rw [List.map_cons, rollsSynced_cons, ← hlength, if_pos hroll, Bool.and_eq_true] at hcond
      exact of_decide_eq_true hcond.1
    · rename_i hne
      rw [hdisk, Disk.dirs_modifyDir, if_neg (h.nsDir_ne_of_log hns (Ne.symm hne) hlog1)] at hnd1
      exact hs n log1 nd1 hlog1 hnd1
  · intro log1 hlog1 nd1 hnd1
    rw [hlogs, OrdMap.getElem?_insert, if_pos rfl, Option.mem_some] at hlog1
    subst hlog1
    obtain ⟨nd, hnd, rfl⟩ := hget nd1 hnd1
    have hcond := hr log hlog nd hnd
    rw [List.map_cons, rollsSynced_cons, ← hlength] at hcond
    rw [hdurable]
    split_ifs at hcur with hroll
    · rw [if_pos hroll, Bool.and_eq_true] at hcond
      rw [(Prod.mk.inj hcur).2]
      exact rollsSynced_mono hcond.2 fun hd => decide_eq_true (hsynced hd nd)
    · rw [if_neg hroll] at hcond
      rw [(Prod.mk.inj hcur).2]
      exact rollsSynced_mono hcond fun hd => decide_eq_true (hsynced hd nd)

theorem settled_of_changes {cs : List Change} {x' : World × History} (h : Attached w g) (hs : w.Settled)
    (hr : w.RollsSynced ns (cs.map Change.record)) (hrun : Run Happens (w, g) (cs.map (Event.changed ns)) x') :
    x'.1.Settled := by
  induction cs generalizing w g with
  | nil =>
    cases hrun
    exact hs
  | cons c cs ih =>
    cases hrun with
    | cons first rest =>
      cases first with
      | changed logged =>
        obtain ⟨hs', hr'⟩ := logged.settled h hs hr
        exact ih (logged.spec h).1 hs' hr' rest

/-! ### Checkpoints -/

theorem Attached.sync_dirs (h : Attached w g) : ∃ disk points,
    (w.store.logs.toList.forM fun x => segEffects x.1 [.sync x.2.curSeg]) w = .ok () ⟨w.store, disk, points⟩ ∧
      ∀ (ns : Bytes) log nd', w.store.logs[ns]? = some log → disk.dirs[nsDir ns]? = some nd' →
        nd'.SyncedAt log.curSeg ∧ ∃ nd, w.disk.dirs[nsDir ns]? = some nd ∧ ∀ j, j ≠ log.curSeg → nd'.seg j = nd.seg j := by
  -- the segments that are not current are as they were, and the logs in `pre` have their current one fsynced
  let I : List (Bytes × Log) → World → Prop := fun pre w1 => w1.store = w.store ∧ ∀ (ns : Bytes) log nd',
    w.store.logs[ns]? = some log → w1.disk.dirs[nsDir ns]? = some nd' →
      ((ns, log) ∈ pre → nd'.SyncedAt log.curSeg) ∧
        ∃ nd, w.disk.dirs[nsDir ns]? = some nd ∧ ∀ j, j ≠ log.curSeg → nd'.seg j = nd.seg j
  have hstep : ∀ pre x post, w.store.logs.toList = pre ++ x :: post → ∀ w1, I pre w1 →
      ∃ w2, segEffects x.1 [.sync x.2.curSeg] w1 = .ok () w2 ∧ I (pre ++ [x]) w2 := by
    rintro pre ⟨n, log0⟩ post hl w1 hI
    have hlog0 : w.store.logs[n]? = some log0 :=
      ExtTreeMap.mem_toList_iff_getElem?_eq_some.1 (by rw [hl]; simp)
    have hns : w.store.policies[n]? ≠ none := fun hp => by rw [h.noLogs n hp] at hlog0; cases hlog0
    obtain ⟨points, heff⟩ := segEffects_spec n [.sync log0.curSeg] w1
    refine ⟨_, heff, hI.1, fun ns log nd' hlog hnd' => ?_⟩
    rw [Disk.dirs_modifyDir] at hnd'
    rcases eq_or_ne ns n with rfl | hne
    · rw [if_pos rfl] at hnd'
      obtain ⟨nd1, hnd1, rfl⟩ := Option.map_eq_some_iff.1 hnd'
      obtain rfl : log0 = log := Option.some.inj (hlog0.symm.trans hlog)
      obtain ⟨_, nd, hnd, hsame⟩ := hI.2 ns log0 nd1 hlog hnd1
      refine ⟨fun _ => nd1.syncedAt_sync _, nd, hnd, fun j hj => ?_⟩
      rw [applyAll_cons, applyAll_nil, SegEffect.seg_apply_of_ne (e := .sync log0.curSeg) hj, hsame j hj]
    · rw [if_neg (h.nsDir_ne_of_log hns hne hlog)] at hnd'
      obtain ⟨hdone, hsame⟩ := hI.2 ns log nd' hlog hnd'
      refine ⟨fun hmem => hdone ?_, hsame⟩
      rcases List.mem_append.1 hmem with hmem | hmem
      · exact hmem
      · cases List.mem_singleton.1 hmem
        exact absurd rfl hne
  have hstart : I [] w := ⟨rfl, fun ns log nd hlog hnd => ⟨by simp, nd, hnd, fun _ _ => rfl⟩⟩
  obtain ⟨⟨store, disk, points⟩, hrun, rfl, hall⟩ := Exec.forM_processed hstep hstart
  refine ⟨disk, points, hrun, fun ns log nd hlog hnd => ?_⟩
  obtain ⟨hdone, hsame⟩ := hall ns log nd hlog hnd
  exact ⟨hdone (ExtTreeMap.mem_toList_iff_getElem?_eq_some.2 hlog), hsame⟩

theorem Attached.checkpoint_dirs (h : Attached w g) (hcheck : checkpoint w = .ok () w') :
    w'.store = w.store ∧ w'.disk.snap = some (encodeSnap w.store.snapOf) ∧ Attached w' g ∧
      ∀ (ns : Bytes) log nd', w.store.logs[ns]? = some log → w'.disk.dirs[nsDir ns]? = some nd' →
        nd'.SyncedAt log.curSeg ∧ ∃ nd, w.disk.dirs[nsDir ns]? = some nd ∧ ∀ j, j ≠ log.curSeg → nd'.seg j = nd.seg j := by
  obtain ⟨disk, points, hsync, hall⟩ := h.sync_dirs
  obtain ⟨points', hcheck'⟩ := checkpoint_of_sync hsync
  obtain ⟨_, _, hcheck'', _, hat⟩ := h.checkpoint_apply
  rw [hcheck, EStateM.Result.ok.injEq] at hcheck' hcheck''
  rw [← hcheck''.2] at hat
  obtain ⟨_, rfl⟩ := hcheck'
  exact ⟨rfl, rfl, hat, hall⟩

theorem Attached.checkpoint_synced (h : Attached w g) (hs : w.Settled) (hcheck : checkpoint w = .ok () w') :
    w'.disk.Synced := by
  obtain ⟨hstore, _, hat, hall⟩ := h.checkpoint_dirs hcheck
  intro name nd' hnd' i
  obtain ⟨ns, hns, rfl⟩ := hat.files.names name (by rw [hnd']; simp)
  obtain ⟨p, hp⟩ := Option.ne_none_iff_exists'.1 hns
  obtain ⟨_, log, _, hlog, _⟩ := hat.logs ns p hp
  rw [hstore] at hlog
  obtain ⟨hcur, nd, hnd, hsame⟩ := hall ns log nd' hlog hnd'
  rcases eq_or_ne i log.curSeg with rfl | hne
  · exact hcur
  · intro f hf
    rw [hsame i hne] at hf
    exact hs ns log nd hlog hnd i hne f hf

/-! ### Runs -/

def Cmd.appends (w : World) : Cmd → Option (Bytes × List Record)
  | .applySynced ns record => some (ns, w.unseen ns [record])
  | .applySyncedBatch ns records => some (ns, w.unseen ns records)
  | c => c.written.map fun x => (x.1, [x.2])

def Cmd.isWriting : Cmd → Bool
  | .gcLive _ | .reopen _ _ => false
  | _ => true

/-- The operation rolls a log only away from a segment that is fsynced. -/
def Cmd.RollsSynced (w : World) (c : Cmd) : Prop :=
  ∀ x ∈ c.appends w, w.RollsSynced x.1 x.2

instance (w : World) (c : Cmd) : Decidable (c.RollsSynced w) :=
  inferInstanceAs (Decidable (∀ x ∈ c.appends w, w.RollsSynced x.1 x.2))

theorem World.Settled.create (h : Running w g) (hs : w.Settled) (hcreate : createNamespace ns p w = .ok () w') :
    w'.Settled := by
  obtain ⟨hv, hp⟩ := createNamespace_enabled h hcreate
  have hnone := h.disk.noDir hv hp
  obtain ⟨d1, d2, d3, d4, hrun, hadds⟩ := createNamespace_apply hv hp hnone p
  rw [hcreate, EStateM.Result.ok.injEq] at hrun
  obtain ⟨_, rfl⟩ := hrun
  rw [creationDirs] at hadds
  obtain ⟨_, _, _, h4, _⟩ := by simpa only [List.forall₂_cons] using hadds
  intro n log nd hlog hnd
  simp only [Store.bump, Store.setLog, Store.setPolicy, OrdMap.getElem?_insert] at hlog
  rw [h4.dirs] at hnd
  split at hlog
  · rename_i he
    subst he
    cases hlog
    rw [if_pos rfl, Option.some.injEq] at hnd
    subst hnd
    -- there is no segment but the first
    intro j hj f hf
    have hempty : (applyAll NsDir.empty [.create 0]).seg j = none := by
      rw [applyAll_cons, applyAll_nil, SegEffect.seg_apply_of_ne (e := .create 0) hj]
      rfl
    exact absurd (hempty.symm.trans hf) (by simp)
  · rename_i hne
    have hdir : nsDir ns ≠ nsDir n := by
      intro he
      obtain ⟨q, hq⟩ := Option.ne_none_iff_exists'.1 fun hp => by rw [h.noLogs n hp] at hlog; cases hlog
      obtain ⟨nd', _, hnd', _⟩ := h.logs n q hq
      rw [← he, hnone] at hnd'
      cases hnd'
    rw [if_neg hdir] at hnd
    exact hs n log nd hlog hnd

variable {c : Cmd}

omit [Crates] in
theorem Cmd.appends_of_written {x : Bytes × Record} (h : c.written = some x) (w : World) :
    c.appends w = some (x.1, [x.2]) := by
  cases c with
  | put | delete | putBatch | setSchema | setIndex =>
    cases h
    rfl
  | createNamespace | applySynced | applySyncedBatch | checkpoint | gcLive | reopen => cases h

theorem World.Settled.step (h : Sound (w, g)) (hs : w.Settled) (hc : c.Valid w.store)
    (hw : c.isWriting) (hr : c.RollsSynced w) (hstep : Step w c w') : w'.Settled := by
  have hat := h.running.toAttached
  cases hwritten : c.written with
  | some x =>
    rcases hstep.cases_write hat hc hwritten with rfl | ⟨change, p, hrecord, hlogged⟩
    · exact hs
    · have hcond := hr _ (c.appends_of_written hwritten w)
      rw [← hrecord] at hcond
      exact (hlogged.settled hat hs hcond).1
  | none =>
  rcases (Cmd.outcome h hc).cases hstep with rfl | ⟨g', hevents⟩
  · exact hs
  cases c with
  | gcLive | reopen => cases hw
  | put | delete | putBatch | setSchema | setIndex => cases hwritten
  | applySynced ns record | applySyncedBatch ns records =>
    have hcond := hr _ rfl
    rw [Cmd.events, ← Function.comp_def, ← List.map_map] at hevents
    refine settled_of_changes hat hs ?_ hevents
    rw [List.map_map, show Change.record ∘ Change.synced = id from rfl, List.map_id]
    exact hcond
  | checkpoint =>
    cases hstep with
    | ok run =>
      exact fun ns log nd _ hnd j _ => hat.checkpoint_synced hs run _ nd hnd j
    | failed run =>
      obtain ⟨_, _, hok, _⟩ := hat.checkpoint_apply
      exact absurd (hok.symm.trans run) (by simp)
  | createNamespace ns p =>
    cases hstep with
    | ok run => exact hs.create h.running run
    | failed run =>
      rcases outcome_createNamespace h.running ns p with ⟨_, _, herr⟩ | ⟨_, _, hok, _⟩
      · rw [Cmd.run, herr] at run
        cases run
        exact hs
      · exact absurd (hok.symm.trans run) (by simp)

/-- In a run of writes and checkpoints that rolls a log only away from a segment that is fsynced, a checkpoint leaves every
byte of every segment fsynced. -/
theorem snapshot_references_synced {w₀ : World} {cmds : List Cmd} (h₀ : Opened w₀)
    (hrun : Run (guarded (fun w c => c.Valid w.store ∧ c.isWriting ∧ c.RollsSynced w) Step) w₀ cmds w)
    (hcheck : checkpoint w = .ok () w') : w'.disk.snap = some (encodeSnap w.store.snapOf) ∧ w'.disk.Synced := by
  obtain ⟨hsound, hempty⟩ := h₀.sound
  have hinv : ∃ g, Sound (w, g) ∧ w.Settled := by
    refine hrun.invariant (I := fun w => ∃ g, Sound (w, g) ∧ w.Settled) ?_ ⟨_, hsound, ?_⟩
    · rintro w c w' ⟨g, hs, hsettled⟩ ⟨⟨hc, hw, hr⟩, hstep⟩
      have hsettled' := hsettled.step hs hc hw hr hstep
      rcases (Cmd.outcome hs hc).cases hstep with rfl | ⟨g', hevents⟩
      · exact ⟨g, hs, hsettled'⟩
      · exact ⟨g', hevents.invariant (fun _ _ _ hx he => he.sound hx) hs, hsettled'⟩
    · intro ns log nd hlog
      rw [hsound.running.noLogs ns (by rw [hempty]; simp)] at hlog
      cases hlog
  obtain ⟨g, hs, hsettled⟩ := hinv
  have hat := hs.running.toAttached
  exact ⟨(hat.checkpoint_dirs hcheck).2.1, hat.checkpoint_synced hsettled hcheck⟩

/-! ### A segment that is never fsynced -/

theorem append_unsynced {f : SegFile}
    (h : log.append b = (effects, .ok log')) (hd : log.durable = false) (hr : ¬ log.Rolls b.length)
    (hf : nd.seg log.curSeg = some f) :
    (applyAll nd effects).seg log.curSeg = some { f with data := writeAt f.data log.cur b } := by
  have hrolled : log.roll b.length = (log, []) := if_neg hr
  rw [Log.append, hrolled] at h
  obtain ⟨rfl, _⟩ := Prod.mk.inj h
  simp [hd, applyAll_cons, applyAll_nil, SegEffect.apply, NsDir.seg_setSeg, hf]

theorem Cmd.write_step {r : Record} (h : Sound (w, g)) (hc : c.Valid w.store) (hw : c.written = some (ns, r))
    (hen : c.Enabled w.store) : ∃ w' g' log log' effects, Step w c w' ∧ Sound (w', g') ∧
      w.store.logs[ns]? = some log ∧ log.append (r.toBytes log.head) = (effects, .ok log') ∧
      w'.store.logs[ns]? = some log' ∧ w'.disk = w.disk.modifyDir ns (applyAll · effects) := by
  rcases Cmd.outcome h hc with ⟨hno, _⟩ | ⟨w', g', hrun, hevents⟩
  · exact absurd hen hno
  · obtain ⟨change, p, rfl, hlogged⟩ := Cmd.logged_of_events hw hevents
    obtain ⟨log, log', effects, hlog, happend, hlogs, hdisk⟩ := hlogged.logs h.running.toAttached
    refine ⟨w', g', log, log', effects, .ok hrun, hevents.invariant (fun _ _ _ hx he => he.sound hx) h, hlog, happend, ?_,
      hdisk⟩
    rw [hlogs, OrdMap.getElem?_insert, if_pos rfl]

/-- Two writes into a log that is empty and not durable: where the second rolls, a checkpoint misses the first. -/
theorem checkpoint_misses_first {c1 c2 : Cmd} {r1 r2 : Record} (h : Sound (w, g))
    (hlog : w.store.logs[ns]? = some (logOf [[]] false)) (hnd : w.disk.dirs[nsDir ns]? = some nd)
    (hseg : nd.seg 0 = some ⟨[], 0⟩) (hc1 : c1.Valid w.store) (hw1 : c1.written = some (ns, r1))
    (hen1 : c1.Enabled w.store) (hc2 : ∀ s, c2.Valid s) (hw2 : c2.written = some (ns, r2))
    (hen2 : ∀ s : Store, s.policies[ns]? ≠ none → c2.Enabled s)
    (hlarge : segmentBytes < (headerLen + r1.payload.length) + (headerLen + r2.payload.length)) :
    ∃ w1 w2 w3, Step w c1 w1 ∧ Step w1 c2 w2 ∧ checkpoint w2 = .ok () w3 ∧ ¬ w3.disk.Synced := by
  have hhead : 0 < headerLen := by decide
  obtain ⟨w1, g1, log0, log1, effects₁, hstep1, hs1, hlog0, happend₁, hlog1, hdisk1⟩ := Cmd.write_step h hc1 hw1 hen1
  rw [hlog, Option.some.injEq] at hlog0
  subst hlog0
  -- the first record goes into the first segment
  have hfits : ¬ (logOf [[]] false).Rolls (r1.toBytes (logOf [[]] false).head).length := fun hr => Nat.lt_irrefl 0 hr.1
  have hseg1 := append_unsynced happend₁ rfl hfits hseg
  obtain ⟨_, hdurable₁, _, hcur1⟩ := append_targets happend₁
  rw [if_neg hfits, Record.length_toBytes, Prod.mk.injEq] at hcur1
  have hnd1 : w1.disk.dirs[nsDir ns]? = some (applyAll nd effects₁) := by
    rw [hdisk1, Disk.dirs_modifyDir, if_pos rfl, hnd, Option.map_some]
  -- the second one rolls
  have hpol1 : w1.store.policies[ns]? ≠ none := fun hp => by
    rw [hs1.running.noLogs _ hp] at hlog1
    cases hlog1
  obtain ⟨w2, g2, log1', log2, effects₂, hstep2, hs2, hlog1', happend₂, hlog2, hdisk2⟩ :=
    Cmd.write_step hs1 (hc2 _) hw2 (hen2 _ hpol1)
  rw [hlog1, Option.some.injEq] at hlog1'
  subst hlog1'
  have hrolls : log1.Rolls (r2.toBytes log1.head).length := by
    unfold Log.Rolls
    rw [Record.length_toBytes]
    omega
  obtain ⟨htargets, _, _, hcur2⟩ := append_targets happend₂
  rw [if_pos hrolls, Prod.mk.injEq] at hcur2
  have hother : 0 ≠ log2.curSeg := by omega
  have hnd2 : w2.disk.dirs[nsDir ns]? = some (applyAll (applyAll nd effects₁) effects₂) := by
    rw [hdisk2, Disk.dirs_modifyDir, if_pos rfl, hnd1, Option.map_some]
  -- the checkpoint does not touch the first segment
  have hat := hs2.running.toAttached
  obtain ⟨disk, points, hcheck, _⟩ := hat.checkpoint_apply
  obtain ⟨_, _, hat3, hdirs⟩ := hat.checkpoint_dirs hcheck
  refine ⟨w1, w2, _, hstep1, hstep2, hcheck, fun hsynced => ?_⟩
  obtain ⟨p, hp⟩ := Option.ne_none_iff_exists'.1 fun hp => by rw [hat.noLogs _ hp] at hlog2; cases hlog2
  obtain ⟨nd3, _, hnd3, _⟩ := hat3.logs ns p hp
  obtain ⟨_, nd2, hnd2', hsame⟩ := hdirs ns log2 nd3 hlog2 hnd3
  rw [hnd2, Option.some.injEq] at hnd2'
  subst hnd2'
  have hseg3 := hsame 0 hother
  rw [seg_applyAll_of_ne fun e he => by rw [htargets e he]; exact hother] at hseg3
  have hlen := hsynced _ nd3 hnd3 0 _ (hseg3.trans hseg1)
  have hdata : (writeAt [] (logOf [[]] false).cur (r1.toBytes (logOf [[]] false).head)) = r1.toBytes (logOf [[]] false).head :=
    writeAt_end [] _
  rw [SegFile.Synced, hdata, Record.length_toBytes] at hlen
  dsimp only at hlen
  omega

end

set_option maxRecDepth 100000 in
theorem snapshot_references_synced_twice : letI := Crates.trivial
    ∃ w₀ w w', Opened w₀ ∧ Run (guarded (fun w c => c.Valid w.store ∧ c.isWriting ∧ c.RollsSynced w) Step) w₀
        [.createNamespace [97] .lww, .put [97] [1] [10] 1 .zero .zero 0, .checkpoint, .delete [97] [1] 2 .zero .zero] w ∧
      checkpoint w = .ok () w' ∧ w'.disk.Synced := by
  have h : letI := Crates.trivial
      ((freshRun (fun w c => c.Valid w.store ∧ c.isWriting ∧ c.RollsSynced w)
        [.createNamespace [97] .lww, .put [97] [1] [10] 1 .zero .zero 0, .checkpoint, .delete [97] [1] 2 .zero .zero]).bind
        fun w => Exec.okState (checkpoint w)).isSome := by decide +kernel
  let _ := Crates.trivial
  obtain ⟨w', hw'⟩ := Option.isSome_iff_exists.1 h
  obtain ⟨w, hw, hcheck⟩ := Option.bind_eq_some_iff.1 hw'
  obtain ⟨w₀, h₀, hrun⟩ := freshRun_sound hw
  have hcheck := Exec.okState_eq_some.1 hcheck
  exact ⟨w₀, w, w', h₀, hrun, hcheck, (snapshot_references_synced h₀ hrun hcheck).2⟩

def largeValue : Bytes := List.replicate segmentBytes 0

theorem length_largeValue : largeValue.length = segmentBytes := List.length_replicate

/-- A large record, and one that does not fit behind it. -/
def largeRun : List Cmd :=
  [.createNamespace [97] .lww, .put [97] [1] largeValue 1 .zero .zero 0, .put [97] [2] [20] 2 .zero .zero 0]

theorem length_largePut : (putRecord [1] largeValue 1 .zero .zero 0).payload.length = segmentBytes + 85 := by
  have htag : (putRecord [1] largeValue 1 .zero .zero 0).tag = tagPut := rfl
  have hvalue : (putRecord [1] largeValue 1 .zero .zero 0).toOp.value = largeValue := rfl
  have hkey : (putRecord [1] largeValue 1 .zero .zero 0).toOp.key = [1] := rfl
  rw [Record.payload, htag, if_neg (by decide), length_payloadBytes, hvalue, hkey, length_largeValue, htag,
    if_neg (by decide), List.length_singleton]
  omega

set_option maxRecDepth 100000 in
/-- The log rolls away from the segment with the large record, and the checkpoint does not fsync it. -/
theorem checkpoint_misses_rolled_segment : letI := Crates.trivial
    ∃ w₀ w w', Opened w₀ ∧ Run (guarded (fun w c => c.Valid w.store ∧ c.isWriting) Step) w₀ largeRun w ∧
      checkpoint w = .ok () w' ∧ ¬ w'.disk.Synced := by
  have hstart : letI := Crates.trivial
      ((freshRun (fun w c => c.Valid w.store ∧ c.isWriting) [.createNamespace [97] .lww]).map fun w =>
        (w.store.policies[([97] : Bytes)]?, w.store.logs[([97] : Bytes)]?, w.disk.dirs[nsDir [97]]?)) =
      some (some .lww, some (logOf [[]] false), some ⟨[some ⟨[], 0⟩], some [policyToU8 .lww]⟩) := by
    decide +kernel
  let _ := Crates.trivial
  obtain ⟨w₁, hw₁, hstart⟩ := Option.map_eq_some_iff.1 hstart
  simp only [Prod.mk.injEq] at hstart
  obtain ⟨hpol₁, hlog₁, hnd₁⟩ := hstart
  obtain ⟨w₀, h₀, hrun₁⟩ := freshRun_sound hw₁
  obtain ⟨g₁, hs₁⟩ := h₀.run_sound (fun _ _ h => h.1) hrun₁
  have hvalid : (Cmd.put [97] [1] largeValue 1 .zero .zero 0).Valid w₁.store := by
    rw [Cmd.Valid, length_largePut]
    decide
  have hlarge : segmentBytes < headerLen + (putRecord [1] largeValue 1 .zero .zero 0).payload.length +
      (headerLen + (putRecord [2] [20] 2 .zero .zero 0).payload.length) := by
    rw [length_largePut]
    omega
  have hvalid' (s : Store) : (Cmd.put [97] [2] [20] 2 .zero .zero 0).Valid s := by
    rw [Cmd.Valid]
    decide
  have hfirst : (Cmd.put [97] [1] largeValue 1 .zero .zero 0).written = some ([97], _) := rfl
  have hsecond : (Cmd.put [97] [2] [20] 2 .zero .zero 0).written = some ([97], _) := rfl
  have henabled : w₁.store.policies[([97] : Bytes)]? ≠ none := by rw [hpol₁]; simp
  obtain ⟨w₂, w₃, w₄, hstep₂, hstep₃, hcheck, hnot⟩ :=
    checkpoint_misses_first hs₁ hlog₁ hnd₁ rfl hvalid hfirst henabled hvalid' hsecond (fun _ h => h) hlarge
  exact ⟨w₀, w₃, w₄, h₀, hrun₁.append (.cons ⟨⟨hvalid, rfl⟩, hstep₂⟩ (.cons ⟨⟨hvalid' _, rfl⟩, hstep₃⟩ (.nil _))), hcheck,
    hnot⟩

end BunnyMesh
