import BunnyMesh.Lib.Trace
import BunnyMesh.Storage.Create

/-!
# Where an operation can be stopped

Every file-system effect leaves a directory that a crash can leave behind.  The directories a write passes stand for the
history before it or after it, those of a checkpoint for the history with the old snapshot or the new one; a namespace
being created passes directories that do not open.
-/

namespace BunnyMesh

open Std Store
open Exec (Passes Always Keeps)
open Runs (Run guarded)

variable {G : Disk → Prop} {w : World} {ns : Bytes}

/-! ### Effects -/

theorem passes_effect {f : Disk → Disk} (h : G (f w.disk)) : Passes World.points G (effect f) w :=
  Passes.modify_one rfl h

theorem passes_segEffects {effects : List SegEffect}
    (h : ∀ front, front <+: effects → front ≠ [] → G (w.disk.modifyDir ns (applyAll · front))) :
    Passes World.points G (segEffects ns effects) w := by
  induction effects generalizing w with
  | nil => exact Passes.pure
  | cons e effects ih =>
    refine Passes.bind (passes_effect (h [e] (by simp) (by simp))) fun _ w' hrun => ih fun front hfront hne => ?_
    cases hrun
    have hcons := h (e :: front) (List.cons_prefix_cons.2 ⟨rfl, hfront⟩) (by simp)
    rw [Disk.modifyDir_modifyDir]
    exact hcons

theorem passes_mem {α : Type} {x : Mem α} : Passes World.points G (mem x) w := by
  refine Passes.of_eq ?_
  unfold mem
  split <;> rfl

theorem passes_liftRes {α : Type} (x : Res α) : Passes World.points G (liftRes x) w := by
  cases x with
  | ok a => exact Passes.pure
  | error e => exact Passes.throw

/-! ### Appending -/

section
variable [Crates]

variable {α : Type} {base : Store} {d : Disk}

omit [Crates] in
theorem prefix_append_cases {front as bs : List α} (h : front <+: as ++ bs) :
    front <+: as ∨ ∃ rest, front = as ++ rest ∧ rest <+: bs := by
  obtain ⟨back, hback⟩ := h
  rcases List.append_eq_append_iff.1 hback with ⟨mid, rfl, _⟩ | ⟨mid, rfl, rfl⟩
  · exact .inl (List.prefix_append _ _)
  · exact .inr ⟨mid, rfl, List.prefix_append _ _⟩

omit [Crates] in
theorem prefix_singleton_cases {front : List α} {a : α} (h : front <+: [a]) : front = [] ∨ front = [a] := by
  cases front with
  | nil => exact .inl rfl
  | cons b front =>
    obtain ⟨rfl, hrest⟩ := List.cons_prefix_cons.1 h
    rw [List.prefix_nil.1 hrest]
    exact .inr rfl

theorem LogRep.append_stopped {nd : NsDir} {log : Log} {bs : List Bytes} {b : Bytes} (h : LogRep nd log bs)
    (hb : 41 ≤ b.length) (hprev : range b 9 41 = log.head.val) {front : List SegEffect} (hfront : front <+: (log.append b).1) :
    ∃ log', LogRep (applyAll nd front) log' bs ∨ LogRep (applyAll nd front) log' (bs ++ [b]) := by
  rw [h.head_eq] at hprev
  have hroll := (h.roll b.length).1
  obtain ⟨hclean, chunks, hne, rfl, hfiles, hlog⟩ := (h.roll b.length).1
  obtain ⟨cs, c, rfl⟩ := (List.eq_nil_or_concat' chunks).resolve_left hne
  have happend : (log.append b).1 = (log.roll b.length).2 ++ ((log.roll b.length).1.writeRecord b).1 := rfl
  rw [happend, hlog, writeRecord_logOf _ hb hprev] at hfront
  rcases prefix_append_cases hfront with hfront | ⟨rest, rfl, hrest⟩
  · -- nothing is written yet
    have hcases : front = [] ∨ front = (log.roll b.length).2 := by
      by_cases hrolls : log.curLen > 0 ∧ log.curLen + b.length > segmentBytes
      · rw [Log.roll, if_pos hrolls] at hfront ⊢
        exact prefix_singleton_cases hfront
      · rw [Log.roll, if_neg hrolls] at hfront
        exact .inl (List.prefix_nil.1 hfront)
    rcases hcases with rfl | rfl
    · exact ⟨log, .inl h⟩
    · exact ⟨_, .inl hroll⟩
  · rw [applyAll_append]
    cases rest with
    | nil => exact ⟨_, .inl hroll⟩
    | cons e rest =>
      obtain ⟨rfl, hsynced⟩ := List.cons_prefix_cons.1 hrest
      obtain ⟨effects, log', hw, _, hrep⟩ := LogRep.writeRecord false hclean hfiles hb hprev
      rw [writeRecord_logOf _ hb hprev] at hw
      obtain ⟨rfl, _⟩ := Prod.mk.inj hw
      have hsync : rest = [] ∨ rest = [.sync cs.length] := by
        split at hsynced
        · exact prefix_singleton_cases hsynced
        · exact .inl (List.prefix_nil.1 hsynced)
      rcases hsync with rfl | rfl
      · exact ⟨log', .inr hrep⟩
      · exact ⟨log', .inr (hrep.sync cs.length)⟩

variable {g : History} {p : ConflictPolicy}

/-- The directory stands for a history with the snapshot `base`. -/
def Disk.Stands (base : Store) (d : Disk) : Prop := ∃ pol g, DiskRep d pol g ∧ g.base = base

def Disk.Unopenable (d : Disk) : Prop :=
  ∀ (s : Store) (points : List Disk) (durable : Bool) (now : UInt64) (w : World), openDurable durable now ⟨s, d, points⟩ ≠ .ok () w

/-- The directory stands for the history of the store, or for the one with the record in the log. -/
def World.Between (w : World) (g : History) (x : Bytes × Record) (d : Disk) : Prop :=
  ∃ g', DiskRep d w.store.policies g' ∧ (g' = g ∨ w.store.policies[x.1]? ≠ none ∧ g' = g.log x.1 x.2)

theorem World.Between.stands {x : Bytes × Record} (h : w.Between g x d) : d.Stands g.base := by
  obtain ⟨g', hd, rfl | ⟨_, rfl⟩⟩ := h <;> exact ⟨_, _, hd, rfl⟩

theorem passes_logged (h : Running w g) (ns : Bytes) {r : Record} (hr : r.WellFormed) (act : Nat → Mem Unit) :
    Passes World.points (w.Between g (ns, r)) (logged ns r act) w := by
  refine Passes.bind (.of_always fun _ => always_getLog) fun log w' hget => ?_
  cases hp : w.store.policies[ns]? with
  | none =>
    simp only [getLog, Exec.bind_apply, Exec.get_apply, h.noLogs ns hp, Exec.throw_apply] at hget
    cases hget
  | some p =>
    obtain ⟨nd, log', hnd, hlog, hrep⟩ := h.logs ns p hp
    rw [getLog_apply hlog] at hget
    cases hget
    have hns : w.store.policies[ns]? ≠ none := by rw [hp]; simp
    obtain ⟨hlen, _, _, hprev⟩ := parseChain_header (parseChain_toBytes hr log.head (.inr rfl))
    refine Passes.bind (Passes.bind (passes_segEffects fun front hfront _ => ?_) fun _ _ _ => ?_) fun _ _ _ =>
      Passes.bind passes_mem fun _ _ _ => Passes.pure
    · obtain ⟨log', hrep'⟩ := hrep.append_stopped (hlen.trans' (by decide)) hprev.symm hfront
      rcases hrep' with hrep' | hrep'
      · exact ⟨g, h.disk.modifyDir hns hnd (policy_applyAll nd front) hrep', .inl rfl⟩
      · have hbytes : (g.log ns r).bytes ns = g.bytes ns ++ [r.toBytes log.head] := by
          simp [History.log, hrep.head_eq]
        rw [← hbytes] at hrep'
        have hlogs := h.disk.toLogsRep.modifyDir (f := (applyAll · front)) hns
          (fun n hn => ⟨Function.update_of_ne hn .., Function.update_of_ne hn ..⟩) (h.files.chained_log hns hr) hnd
          (policy_applyAll nd front) hrep'
        refine ⟨_, ⟨hlogs, h.disk.toBaseRep.log ns r, ?_⟩, .inr ⟨hns, rfl⟩⟩
        rw [Disk.snap_modifyDir]
        exact h.disk.snap
    · exact Passes.bind (passes_liftRes _) fun _ _ _ => Passes.bind (.of_eq rfl) fun _ _ _ => Passes.pure

/-! ### The other operations -/

theorem Running.sync (h : Running w g) {log : Log} (hlog : w.store.logs[ns]? = some log) (points : List Disk) :
    Running ⟨w.store, w.disk.modifyDir ns (applyAll · [.sync log.curSeg]), points⟩ g := by
  have hat := h.toAttached.sync hlog points
  exact ⟨hat, hat.files, h.disk.toBaseRep, by rw [Disk.snap_modifyDir]; exact h.disk.snap⟩

theorem passes_checkpoint (h : Running w g) (hfits : w.store.snapOf.Fits) :
    Passes World.points (fun d => d.Stands g.base ∨ d.Stands w.store) checkpoint w := by
  let I : World → Prop := fun w' => w'.store = w.store ∧ Running w' g
  have hlogs : ∀ x ∈ w.store.logs.toList, ∀ w', I w' → w'.store.logs[x.1]? = some x.2 := by
    intro x hx w' hw'
    rw [hw'.1]
    exact ExtTreeMap.mem_toList_iff_getElem?_eq_some.1 hx
  have hkeeps : ∀ x ∈ w.store.logs.toList, Keeps I (segEffects x.1 [.sync x.2.curSeg]) := by
    intro x hx w' hw' _ w'' heff
    obtain ⟨points, heff'⟩ := segEffects_spec x.1 [.sync x.2.curSeg] w'
    rw [heff] at heff'
    cases heff'
    exact ⟨hw'.1, hw'.2.sync (hlogs x hx w' hw') points⟩
  refine Passes.get_bind (Passes.bind (Passes.forM (I := I) (fun x hx w' hw' => ⟨?_, fun w'' heff => ?_⟩) ⟨rfl, h⟩)
    fun _ w1 hsync => ?_)
  · refine passes_segEffects fun front hfront hne => .inl ?_
    rw [(prefix_singleton_cases hfront).resolve_left hne]
    exact ⟨_, g, (hw'.2.sync (hlogs x hx w' hw') []).disk, rfl⟩
  · exact hkeeps x hx w' hw' _ w'' heff
  · obtain ⟨hstore, hrun⟩ := Keeps.forM hkeeps w ⟨rfl, h⟩ _ w1 hsync
    have hfiles := hrun.disk.toLogsRep
    -- the temporary file is nothing to `open_durable`
    have htmp : ∀ tmp, Disk.Stands g.base { w1.disk with snapTmp := tmp } := fun tmp =>
      ⟨_, g, ⟨⟨hfiles.names, hfiles.valid, hfiles.dirs, hfiles.chained⟩, hrun.disk.toBaseRep, hrun.disk.snap⟩, rfl⟩
    refine Passes.get_bind (Passes.bind (passes_effect (.inl (htmp _))) fun _ w2 h2 => ?_)
    cases h2
    refine Passes.bind (passes_effect (.inl (htmp _))) fun _ w3 h3 => ?_
    cases h3
    rw [hstore]
    refine passes_effect (.inr ⟨w.store.policies, g.snapshot w.store, ⟨?_, h.toAttached.snapshot_baseRep, .inr ⟨rfl, hfits⟩⟩, rfl⟩)
    rw [← hstore]
    exact ⟨hfiles.names, hfiles.valid, hfiles.dirs, hfiles.chained⟩

theorem passes_createNamespace (h : Running w g) (ns : Bytes) (p : ConflictPolicy) :
    Passes World.points (fun d => d.Stands g.base ∨ d.Unopenable) (createNamespace ns p) w := by
  rcases outcome_createNamespace h ns p with ⟨_, e, herr⟩ | ⟨w', _, hcreate, _⟩
  · exact .of_eq (by rw [herr]; rfl)
  · obtain ⟨hv, hp⟩ := createNamespace_enabled h hcreate
    obtain ⟨d1, d2, d3, d4, hrun, hadds⟩ := createNamespace_apply hv hp (h.disk.noDir hv hp) p
    rw [creationDirs] at hadds
    obtain ⟨h1, h2, h3, h4, _⟩ := by simpa only [List.forall₂_cons] using hadds
    have hfails : ∀ {nd : NsDir} {d : Disk}, w.disk.Adds ns nd d → nd.policy = none ∨ nd.policy = some [] → d.Unopenable :=
      fun hadds hpolicy => openDurable_unfinished h.disk hv hp hadds hpolicy
    have hrep := logRep_empty w.store.durable
    have hlast := h.create hv hp p h4 rfl ⟨hrep.clean, hrep.chunks⟩ []
    refine ⟨[d1, d2, d3, d4], by rw [hrun]; rfl, ?_⟩
    simp only [List.forall_mem_cons, List.not_mem_nil, false_implies, implies_true, and_true]
    exact ⟨.inr (hfails h1 (.inl rfl)), .inr (hfails h2 (.inl rfl)), .inr (hfails h3 (.inr rfl)), .inl ⟨_, _, hlast.disk, rfl⟩⟩

theorem passes_applySyncedLoop (h : Running w g) (hp : w.store.policies[ns]? = some p) {records : List Record}
    (hr : ∀ r ∈ records, r.WellFormed) (seen : List (UInt8 × UInt64 × Bytes32)) (applied : Nat) :
    Passes World.points (Disk.Stands g.base) (applySyncedLoop ns records seen applied) w := by
  induction records generalizing w g seen applied with
  | nil => exact Passes.pure
  | cons r rest ih =>
    obtain ⟨hr, hrest⟩ := List.forall_mem_cons.1 hr
    refine Passes.ite (fun _ => ih h hp hrest seen applied) fun _ => ?_
    refine Passes.bind ((passes_logged h ns hr _).mono fun _ hd => hd.stands) fun _ w' happly => ?_
    obtain ⟨w1, happly', hlogged⟩ := applyNew_spec h.toAttached hp hr
    rw [happly] at happly'
    cases happly'
    obtain ⟨_, hpol, _⟩ := hlogged.spec h.toAttached
    exact ih (hlogged.running h) (by rw [hpol, hp]) hrest _ _

theorem passes_applySyncedBatch (h : Running w g) (ns : Bytes) {records : List Record} (hr : ∀ r ∈ records, r.WellFormed) :
    Passes World.points (Disk.Stands g.base) (applySyncedBatch ns records) w := by
  cases hp : w.store.policies[ns]? with
  | none =>
    refine .of_eq ?_
    simp [applySyncedBatch, requirePolicy_none hp, Exec.finalState_error]
  | some p =>
    have hrun : applySyncedBatch ns records w = applySyncedLoop ns records ((g.records ns).map versionKey) 0 w := by
      simp [applySyncedBatch, requirePolicy_apply hp, h.toAttached.logVersions_spec hp]
    exact (passes_applySyncedLoop h hp hr ((g.records ns).map versionKey) 0).congr hrun

/-! ### Stopping and starting again -/

def Cmd.isLocal : Cmd → Bool
  | createNamespace _ _ | put _ _ _ _ _ _ _ | delete _ _ _ _ _ | putBatch _ _ | setSchema _ _ _ _ _ | setIndex _ _ _ _ _
  | checkpoint => true
  | applySynced _ _ | applySyncedBatch _ _ | gcLive _ | reopen _ _ => false

/-- What an operation on a store can leave: a directory with the old snapshot, one with the new snapshot, or one that does
not open. -/
def World.Leavable (w : World) (g : History) (d : Disk) : Prop := d.Stands g.base ∨ d.Stands w.store ∨ d.Unopenable

omit [Crates] in
theorem passes_required {x : M α} (h : Passes World.points G x w) :
    Passes World.points G (do requirePolicy ns; x) w := by
  cases hp : w.store.policies[ns]? with
  | none => exact .of_eq (by rw [Exec.bind_error (requirePolicy_none hp)]; rfl)
  | some p => exact h.congr (Exec.bind_ok (f := fun _ => x) (requirePolicy_apply hp))

theorem Cmd.passes_write {c : Cmd} (h : Running w g) (hc : c.Valid w.store) {x : Bytes × Record} (hx : c.written = some x) :
    Passes World.points (w.Between g x) c.run w := by
  cases c with
  | put ns key value hlc replica author expiresAt =>
    cases hx
    exact Passes.bind (passes_logged h ns (putRecord_wellFormed hc) _) fun _ _ _ => Passes.pure
  | delete ns key hlc replica author =>
    cases hx
    refine Passes.bind (passes_required (passes_logged h ns ?_ _)) fun _ _ _ => Passes.pure
    exact delRecord_wellFormed hc
  | putBatch ns ops =>
    cases hx
    refine Passes.bind (Passes.ite (fun _ => Passes.throw) fun _ => passes_required (passes_logged h ns ?_ _)) fun _ _ _ =>
      Passes.pure
    exact batchRecord_wellFormed hc.1 hc.2
  | setSchema ns value hlc replica author =>
    cases hx
    refine Passes.bind (passes_required (passes_logged h ns ?_ _)) fun _ _ _ => Passes.pure
    exact metaRecord_wellFormed (.inl rfl) hc
  | setIndex ns value hlc replica author =>
    cases hx
    refine Passes.bind (passes_required (passes_logged h ns ?_ _)) fun _ _ _ => Passes.pure
    exact metaRecord_wellFormed (.inr rfl) hc
  | createNamespace | applySynced | applySyncedBatch | checkpoint | gcLive | reopen => cases hx

theorem Cmd.passes_local {c : Cmd} (h : Running w g) (hc : c.Valid w.store) (hlocal : c.isLocal) :
    Passes World.points (w.Leavable g) c.run w := by
  cases c with
  | createNamespace ns p => exact (passes_createNamespace h ns p).mono fun d hd => hd.imp_right .inr
  | checkpoint => exact (passes_checkpoint h hc).mono fun d hd => hd.imp_right .inl
  | put | delete | putBatch | setSchema | setIndex => exact (Cmd.passes_write h hc rfl).mono fun d hd => .inl hd.stands
  | applySynced | applySyncedBatch | gcLive | reopen => cases hlocal

theorem Disk.Stands.opens (h : d.Stands base) (hsized : ∀ n, (base.view n).Sized) (s : Store)
    (points : List Disk) (durable : Bool) (now : UInt64) : ∃ w g, openDurable durable now ⟨s, d, points⟩ = .ok () w ∧
      w.disk = d ∧ (∀ p ∈ w.points, p ∈ points ∨ p = d) ∧ Sound (w, g) ∧ g.base = base ∧
      w.store.peerClocks = base.peerClocks := by
  obtain ⟨pol, g, hd, rfl⟩ := h
  obtain ⟨w, hopen, hdisk, hpoints, hrun, hpol, hclocks, _, hview⟩ := openDurable_apply hd s points durable now
  refine ⟨w, g, hopen, hdisk, fun p hp => ?_, ⟨hrun, fun n => ?_, hsized⟩, rfl, hclocks⟩
  · rw [hpoints, List.mem_append] at hp
    exact hp.imp_right List.eq_of_mem_replicate
  cases hp : pol[n]? with
  | none =>
    rw [hrun.outside n (by rw [hpol, hp])]
    exact NsState.sized_empty
  | some q =>
    rw [hview n q hp]
    exact hd.toLogsRep.each_recovered Slot.Sized.slotKept (hsized n) hp

/-- The directories an operation can be stopped at. -/
def Cmd.stops (c : Cmd) (w : World) : List Disk := (Exec.finalState (c.run w)).points.drop w.points.length

/-- Wherever the process stops inside a write to a store that has been in use, the directory opens again, and the logs are
those before the write or have its record at the end. -/
theorem write_atomic {w₀ : World} {cmds : List Cmd} (h₀ : Opened w₀)
    (hrun : Run (guarded (fun w c => c.Valid w.store) Step) w₀ cmds w) {c : Cmd} (hc : c.Valid w.store)
    {r : Record} (hr : c.written = some (ns, r)) (hd : d ∈ c.stops w) (s : Store) (points : List Disk) (durable : Bool) (now : UInt64) :
    ∃ w', openDurable durable now ⟨s, d, points⟩ = .ok () w' ∧ w'.store.policies = w.store.policies ∧
      (∀ n ≠ ns, w'.records n = w.records n) ∧ (w'.records ns = w.records ns ∨ w'.records ns = w.records ns ++ [r]) := by
  obtain ⟨g, hs⟩ := h₀.run_sound (fun _ _ h => h) hrun
  obtain ⟨g', hrep, hg'⟩ := (Cmd.passes_write hs.running hc hr).drop hd
  obtain ⟨w', hopen, _, _, hrunning, hpol, _⟩ := openDurable_apply hrep s points durable now
  have hat := hs.running.toAttached
  have hat' := hrunning.toAttached
  refine ⟨w', hopen, hpol, fun n hn => hat.records_congr hat' hpol ?_, ?_⟩
  · rcases hg' with rfl | ⟨_, rfl⟩
    · rfl
    · exact Function.update_of_ne hn ..
  · rcases hg' with rfl | ⟨hns, rfl⟩
    · exact .inl (hat.records_congr hat' hpol rfl)
    · obtain ⟨p, hp⟩ := Option.ne_none_iff_exists'.1 hns
      rw [hat.records_eq hp, hat'.records_eq (by rw [hpol, hp])]
      exact .inr (by simp [History.log])

omit [Crates] in
set_option maxRecDepth 100000 in
theorem write_atomic_delete : letI := Crates.trivial
    ∃ w d w', d ∈ (Cmd.delete [97] [1] 2 .zero .zero).stops w ∧ openDurable true 0 ⟨w.store, d, []⟩ = .ok () w' ∧
      (w'.records [97] = w.records [97] ∨ w'.records [97] = w.records [97] ++ [delRecord [1] 2 .zero .zero]) := by
  have h : letI := Crates.trivial
      ((freshRun (fun w c => c.Valid w.store) oneNamespace).any fun w =>
        (Cmd.delete [97] [1] 2 .zero .zero).stops w ≠ []) = true := by decide +kernel
  let _ := Crates.trivial
  obtain ⟨w, hw, hstops⟩ := (Option.any_eq_true ..).1 h
  obtain ⟨d, hd⟩ := List.exists_mem_of_ne_nil _ (of_decide_eq_true hstops)
  obtain ⟨w₀, h₀, hrun⟩ := freshRun_sound hw
  obtain ⟨w', hopen, _, _, hrecords⟩ := write_atomic h₀ hrun (show _ < _ by decide) rfl hd w.store [] true 0
  exact ⟨w, d, w', hd, hopen, hrecords⟩

/-! ### Peer clocks -/

def Disk.savedClocks (d : Disk) : BMap Bytes Int64 :=
  match loadSnapFile false d.snap with
  | .ok (s, _) => s.peerClocks
  | .error _ => ∅

theorem Disk.Stands.savedClocks (h : d.Stands base) : d.savedClocks = base.peerClocks := by
  obtain ⟨pol, g, hd, rfl⟩ := h
  obtain ⟨info, hload, _⟩ := hd.loadSnapFile false
  rw [Disk.savedClocks, hload]

omit [Crates] in
theorem refusePeers_of_ne {s : Store} (h : s.peerClocks.isEmpty = false) (message : Nat → String) (w : World) :
    refusePeers s message w = .error (.err (.io (message s.peerClocks.size))) w := by
  rw [refusePeers, h]
  rfl

theorem gcLive_refused (h : w.store.peerClocks.isEmpty = false) (now : UInt64) :
    gcLive now w = .error (.err (.io (gcRefusal w.store.peerClocks.size))) w := by
  simp [gcLive, refusePeers_of_ne h]

/-- On a directory with a peer clock in its snapshot offline compaction is refused, and leaves the directory as it is. -/
theorem compactDir_refused (h : d.Stands base) (hsized : ∀ n, (base.view n).Sized)
    (hclocks : base.peerClocks.isEmpty = false) (s : Store) (points : List Disk) (now opened : UInt64) :
    ∃ w', compactDir now opened ⟨s, d, points⟩ = .error (.err (.io (compactRefusal d.savedClocks.size))) w' ∧ w'.disk = d := by
  obtain ⟨w', _, hopen, hdisk, _, _, _, hpeers⟩ := h.opens hsized s points false opened
  refine ⟨w', ?_, hdisk⟩
  rw [h.savedClocks, ← hpeers]
  rw [← hpeers] at hclocks
  simp [compactDir, hopen, refusePeers_of_ne hclocks]

end

end BunnyMesh
