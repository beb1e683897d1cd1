import BunnyMesh.Storage.Events

/-!
# Runs of operations

A run is a sequence of operations on an opened store.  An operation of a valid caller fails and changes nothing, or it
is the sequence of its events (`Cmd.outcome`); `run_invariant` turns what events keep into what runs keep.
-/

namespace BunnyMesh

open Std Store
open Runs (Run guarded)

/-! ### Commands -/

/-- The operations of a run. -/
inductive Cmd where
  | createNamespace (ns : Bytes) (policy : ConflictPolicy)
  | put (ns key value : Bytes) (hlc : UInt64) (replica author : Bytes32) (expiresAt : UInt64)
  | delete (ns key : Bytes) (hlc : UInt64) (replica author : Bytes32)
  | putBatch (ns : Bytes) (ops : List Op)
  | setSchema (ns : Bytes) (value : Option Bytes) (hlc : UInt64) (replica author : Bytes32)
  | setIndex (ns : Bytes) (value : Option Bytes) (hlc : UInt64) (replica author : Bytes32)
  | applySynced (ns : Bytes) (record : Record)
  | applySyncedBatch (ns : Bytes) (records : List Record)
  | checkpoint
  | gcLive (now : UInt64)
  | reopen (durable : Bool) (now : UInt64)

namespace Cmd

section

variable [Crates]

def run : Cmd → M Unit
  | createNamespace ns policy => BunnyMesh.createNamespace ns policy
  | put ns key value hlc replica author expiresAt => do
    let _ ← BunnyMesh.put ns key value hlc replica author expiresAt
  | delete ns key hlc replica author => do
    let _ ← BunnyMesh.delete ns key hlc replica author
  | putBatch ns ops => do
    let _ ← BunnyMesh.putBatch ns ops
  | setSchema ns value hlc replica author => do
    let _ ← BunnyMesh.setSchema ns value hlc replica author
  | setIndex ns value hlc replica author => do
    let _ ← BunnyMesh.setIndex ns value hlc replica author
  | applySynced ns record => do
    let _ ← BunnyMesh.applySynced ns record
  | applySyncedBatch ns records => do
    let _ ← BunnyMesh.applySyncedBatch ns records
  | checkpoint => BunnyMesh.checkpoint
  | gcLive now => do
    let _ ← BunnyMesh.gcLive now
  | reopen durable now => openDurable durable now

end

def written : Cmd → Option (Bytes × Record)
  | put ns key value hlc replica author expiresAt => some (ns, putRecord key value hlc replica author expiresAt)
  | delete ns key hlc replica author => some (ns, delRecord key hlc replica author)
  | putBatch ns ops => some (ns, batchRecord ops)
  | setSchema ns value hlc replica author => some (ns, metaRecord tagSchema value hlc replica author)
  | setIndex ns value hlc replica author => some (ns, metaRecord tagIndex value hlc replica author)
  | createNamespace _ _ | applySynced _ _ | applySyncedBatch _ _ | checkpoint | gcLive _ | reopen _ _ => none

def isReopen : Cmd → Bool
  | reopen _ _ => true
  | _ => false

/-- What the callers of the store promise: records and snapshots fit their length fields, the sub-operations of a batch
carry the tags of writes, and synced records have passed the parser. -/
def Valid (s : Store) : Cmd → Prop
  | put _ key value hlc replica author expiresAt =>
    (putRecord key value hlc replica author expiresAt).payload.length < 2 ^ 32
  | delete _ key hlc replica author => (delRecord key hlc replica author).payload.length < 2 ^ 32
  | putBatch _ ops => (∀ op ∈ ops, op.SubOk) ∧ (batchRecord ops).payload.length < 2 ^ 32
  | setSchema _ value hlc replica author => (metaRecord tagSchema value hlc replica author).payload.length < 2 ^ 32
  | setIndex _ value hlc replica author => (metaRecord tagIndex value hlc replica author).payload.length < 2 ^ 32
  | applySynced _ record => record.WellFormed
  | applySyncedBatch _ records => ∀ r ∈ records, r.WellFormed
  | checkpoint => s.snapOf.Fits
  | gcLive _ => s.snapOf.Fits
  | createNamespace _ _ => True
  | reopen _ _ => True

instance (s : Store) (c : Cmd) : Decidable (c.Valid s) := by
  cases c <;> delta Cmd.Valid <;> infer_instance

def Enabled (s : Store) : Cmd → Prop
  | createNamespace ns _ => validNs ns ∧ s.policies[ns]? = none
  | putBatch ns ops => ops ≠ [] ∧ s.policies[ns]? ≠ none
  | put ns _ _ _ _ _ _ | delete ns _ _ _ _ | setSchema ns _ _ _ _ | setIndex ns _ _ _ _ | applySynced ns _
  | applySyncedBatch ns _ => s.policies[ns]? ≠ none
  | gcLive _ => s.peerClocks.isEmpty
  | checkpoint => True
  | reopen _ _ => True

end Cmd

section

variable [Crates]

/-- An operation that fails leaves the store running; an open that fails leaves no store. -/
inductive Step (w : World) (c : Cmd) : World → Prop where
  | ok {w' : World} (run : c.run w = .ok () w') : Step w c w'
  | failed {w' : World} {e : StorageError} (run : c.run w = .error (.err e) w') (store : c.isReopen = false) : Step w c w'

/-- The records of a batch that the log of the namespace does not have yet. -/
def World.unseen (w : World) (ns : Bytes) (records : List Record) : List Record :=
  match logVersions ns w with
  | .ok seen _ => newRecords seen records
  | .error _ _ => []

def Cmd.events (w : World) : Cmd → List Event
  | createNamespace ns policy => [.created ns policy]
  | put ns key value hlc replica author expiresAt =>
    [.changed ns (.write (putRecord key value hlc replica author expiresAt))]
  | delete ns key hlc replica author => [.changed ns (.write (delRecord key hlc replica author))]
  | putBatch ns ops => [.changed ns (.write (batchRecord ops))]
  | setSchema ns value hlc replica author => [.changed ns (.schema value hlc replica author)]
  | setIndex ns value hlc replica author => [.changed ns (.index value hlc replica author)]
  | applySynced ns record => (w.unseen ns [record]).map fun r => .changed ns (.synced r)
  | applySyncedBatch ns records => (w.unseen ns records).map fun r => .changed ns (.synced r)
  | checkpoint => [.snapshot]
  | gcLive now => [.compacted now]
  | reopen _ _ => [.reopened]

variable {w w' : World} {g g' : History} {ns : Bytes} {p : ConflictPolicy} {c : Cmd}

theorem act_write_single {r : Record} (h : isOpTag r.tag) (seq : Nat) :
    (Change.write r).act ns seq = applyLocalOp ns r.toOp seq := by
  funext s
  rw [Change.act, Record.dataOps, if_pos h]
  change (applyLocalOp ns r.toOp seq >>= fun _ => pure ()) s = _
  rw [Exec.bind_apply]
  cases applyLocalOp ns r.toOp seq s <;> rfl

theorem act_write_batch (ops : List Op) (seq : Nat) :
    (Change.write (batchRecord ops)).act ns seq = ops.forM fun op => applyLocalOp ns op seq := by
  rw [Change.act, Record.dataOps, batchRecord_tag, if_neg (by decide), if_pos rfl, batchRecord_ops]

/-- The outcome of an operation: an error and nothing done where it is not enabled, or its events. -/
def Outcome (w : World) (g : History) (enabled : Prop) (events : List Event) (run : M Unit) : Prop :=
  (¬ enabled ∧ ∃ e, run w = .error (.err e) w) ∨ ∃ w' g', run w = .ok () w' ∧ Run Happens (w, g) events (w', g')

theorem outcome_logged (h : Attached w g) {c : Change} (hc : c.record.WellFormed) {act : Nat → Mem Unit}
    (hact : ∀ seq, c.act ns seq = act seq) :
    Outcome w g (w.store.policies[ns]? ≠ none) [.changed ns c] (do let _ ← logged ns c.record act) := by
  cases hp : w.store.policies[ns]? with
  | none =>
    refine .inl ⟨fun h => h rfl, .notFound ns, ?_⟩
    simp [logged, getLog, h.noLogs ns hp]
  | some p =>
    obtain ⟨w', hrun, hlogged⟩ := logged_spec h hp hc
    rw [funext hact] at hrun
    exact .inr ⟨w', _, Exec.bind_ok (f := fun _ => pure ()) hrun, .single (.changed hlogged)⟩

theorem outcome_required {enabled : Prop} {events : List Event} {run : M Unit}
    (henabled : enabled → w.store.policies[ns]? ≠ none)
    (h : w.store.policies[ns]? ≠ none → Outcome w g enabled events run) :
    Outcome w g enabled events (do requirePolicy ns; run) := by
  by_cases hp : w.store.policies[ns]? = none
  · exact .inl ⟨fun he => henabled he hp, _, Exec.bind_error (f := fun _ => run) (requirePolicy_none hp)⟩
  · obtain ⟨p, hp'⟩ := Option.ne_none_iff_exists'.1 hp
    have hrun : (do requirePolicy ns; run : M Unit) w = run w :=
      Exec.bind_ok (f := fun _ => run) (requirePolicy_apply hp')
    unfold Outcome
    rw [hrun]
    exact h hp

theorem World.unseen_eq (h : Running w g) (hp : w.store.policies[ns]? = some p) (records : List Record) :
    w.unseen ns records = newRecords ((g.records ns).map versionKey) records := by
  rw [World.unseen, h.toAttached.logVersions_spec hp]

theorem outcome_createNamespace (h : Running w g) (ns : Bytes) (p : ConflictPolicy) :
    Outcome w g (validNs ns ∧ w.store.policies[ns]? = none) [.created ns p] (createNamespace ns p) := by
  by_cases hv : validNs ns = true
  · cases hp : w.store.policies[ns]? with
    | some q =>
      refine .inl ⟨(nomatch ·.2), .namespaceExists ns, ?_⟩
      have hcontains : w.store.policies.contains ns = true := by
        rw [ExtTreeMap.contains_eq_isSome_getElem?, hp]; rfl
      simp only [createNamespace, hv, Bool.not_true, Bool.false_eq_true, if_false, Exec.bind_apply, Exec.get_apply,
        hcontains, if_true, Exec.throw_apply]
    | none =>
      obtain ⟨log, disk, points, hrun, hrunning⟩ := createNamespace_spec h hv hp p
      exact .inr ⟨_, _, hrun, .single (.created hv hp hrunning)⟩
  · refine .inl ⟨fun h => hv h.1, .badName ns, ?_⟩
    simp [createNamespace, hv]

theorem Cmd.outcome_write (h : Attached w g) (hc : c.Valid w.store) (hw : c.written.isSome) :
    Outcome w g (c.Enabled w.store) (c.events w) c.run := by
  cases c with
  | put ns key value hlc replica author expiresAt =>
    refine outcome_logged h (c := .write (putRecord key value hlc replica author expiresAt)) (putRecord_wellFormed hc)
      fun seq => act_write_single ?_ seq
    rcases putRecord_tag key value hlc replica author expiresAt with ⟨ht, _⟩ | ⟨ht, _⟩ <;> rw [ht] <;> decide
  | delete ns key hlc replica author =>
    simp only [Cmd.run, BunnyMesh.delete, bind_assoc]
    exact outcome_required id fun _ => outcome_logged h (c := .write (delRecord key hlc replica author))
      (delRecord_wellFormed hc) fun seq => act_write_single rfl seq
  | putBatch ns ops =>
    cases hops : ops.isEmpty with
    | true =>
      refine .inl ⟨fun he => he.1 (List.isEmpty_iff.1 hops), .badName ns, ?_⟩
      simp [Cmd.run, BunnyMesh.putBatch, hops]
    | false =>
      simp only [Cmd.run, BunnyMesh.putBatch, hops, Bool.false_eq_true, if_false, bind_assoc]
      have hne : ops ≠ [] := fun e => by rw [e] at hops; cases hops
      have henabled : Cmd.Enabled w.store (.putBatch ns ops) = (w.store.policies[ns]? ≠ none) := by
        rw [Cmd.Enabled, eq_true hne, true_and]
      rw [henabled]
      exact outcome_required id fun _ => outcome_logged h (c := .write (batchRecord ops))
        (batchRecord_wellFormed hc.1 hc.2) fun seq => act_write_batch ops seq
  | setSchema ns value hlc replica author =>
    simp only [Cmd.run, BunnyMesh.setSchema, bind_assoc]
    exact outcome_required id fun _ => outcome_logged h (c := .schema value hlc replica author)
      (metaRecord_wellFormed (.inl rfl) hc) fun _ => rfl
  | setIndex ns value hlc replica author =>
    simp only [Cmd.run, BunnyMesh.setIndex, bind_assoc]
    exact outcome_required id fun _ => outcome_logged h (c := .index value hlc replica author)
      (metaRecord_wellFormed (.inr rfl) hc) fun _ => rfl
  | createNamespace | applySynced | applySyncedBatch | checkpoint | gcLive | reopen => cases hw

/-- An operation of a valid caller that is not enabled fails and changes nothing; an enabled one is the sequence of its
events. -/
theorem Cmd.outcome (h : Sound (w, g)) (hc : c.Valid w.store) :
    Outcome w g (c.Enabled w.store) (c.events w) c.run := by
  have hrun := h.running
  have hat := hrun.toAttached
  cases c with
  | put | delete | putBatch | setSchema | setIndex => exact Cmd.outcome_write hat hc rfl
  | createNamespace ns policy => exact outcome_createNamespace hrun ns policy
  | applySynced ns record =>
    cases hp : w.store.policies[ns]? with
    | none =>
      refine .inl ⟨fun he => he hp, .badName ns, ?_⟩
      simp [Cmd.run, BunnyMesh.applySynced, requirePolicy_none hp]
    | some p =>
      obtain ⟨w', g', happly, hevents⟩ := applySynced_spec hat hp hc
      rw [Cmd.events, World.unseen_eq hrun hp]
      exact .inr ⟨w', g', Exec.bind_ok (f := fun _ => pure ()) happly, hevents⟩
  | applySyncedBatch ns records =>
    cases hp : w.store.policies[ns]? with
    | none =>
      refine .inl ⟨fun he => he hp, .badName ns, ?_⟩
      simp [Cmd.run, BunnyMesh.applySyncedBatch, requirePolicy_none hp]
    | some p =>
      obtain ⟨w', happly, hevents, _⟩ := applySyncedBatch_spec hat hp hc
      rw [Cmd.events, World.unseen_eq hrun hp]
      exact .inr ⟨w', _, Exec.bind_ok (f := fun _ => pure ()) happly, hevents⟩
  | checkpoint =>
    obtain ⟨disk, points, hcheck, hrunning⟩ := hat.checkpoint_spec hc
    exact .inr ⟨_, _, hcheck, .single (.snapshot hrunning)⟩
  | gcLive now =>
    cases hpeers : w.store.peerClocks.isEmpty with
    | true =>
      obtain ⟨total, w1, g1, disk, points, hgc, hloop, hrunning⟩ := gcLive_spec hat h.sized hc hpeers
      exact .inr ⟨_, _, Exec.bind_ok (f := fun _ => pure ()) hgc, .single (.compacted hloop hrunning)⟩
    | false =>
      refine .inl ⟨fun he => absurd he (by rw [Cmd.Enabled, hpeers]; decide),
        .io (gcRefusal w.store.peerClocks.size), ?_⟩
      simp only [Cmd.run, BunnyMesh.gcLive, refusePeers, Exec.bind_apply, Exec.get_apply, hpeers, Bool.false_eq_true,
        if_false, Exec.throw_apply]
  | reopen durable now =>
    obtain ⟨w', hopen, hrunning, hpol, _, hderived, hview⟩ := openDurable_spec hrun.disk w.store w.points durable now
    exact .inr ⟨w', g, hopen, .single (.reopened hrunning hpol hderived hview)⟩

theorem Outcome.cases {enabled : Prop} {events : List Event} (h : Outcome w g enabled events c.run) (hs : Step w c w') :
    w' = w ∨ ∃ g', Run Happens (w, g) events (w', g') := by
  rcases h with ⟨_, e, herr⟩ | ⟨w1, g1, hok, hevents⟩
  · left
    cases hs with
    | ok run => rw [herr] at run; cases run
    | failed run => rw [herr] at run; cases run; rfl
  · right
    cases hs with
    | ok run => rw [hok] at run; cases run; exact ⟨g1, hevents⟩
    | failed run => rw [hok] at run; cases run

theorem Cmd.logged_of_events {x : Bytes × Record} {x' : World × History} (hw : c.written = some x)
    (hevents : Run Happens (w, g) (c.events w) x') : ∃ change p, change.record = x.2 ∧ Logged x.1 p change w g x'.1 := by
  obtain ⟨change, hchange, hrecord⟩ : ∃ change, c.events w = [.changed x.1 change] ∧ change.record = x.2 := by
    cases c with
    | put | delete | putBatch | setSchema | setIndex =>
      cases hw
      exact ⟨_, rfl, rfl⟩
    | createNamespace | applySynced | applySyncedBatch | checkpoint | gcLive | reopen => cases hw
  rw [hchange] at hevents
  cases hevents with
  | cons first rest =>
    cases rest
    cases first with
    | changed logged => exact ⟨change, _, hrecord, logged⟩

theorem Step.cases_write {x : Bytes × Record} (h : Attached w g) (hc : c.Valid w.store) (hw : c.written = some x)
    (hs : Step w c w') : w' = w ∨ ∃ change p, change.record = x.2 ∧ Logged x.1 p change w g w' :=
  ((Cmd.outcome_write h hc (by rw [hw]; rfl)).cases hs).imp_right fun ⟨_, hevents⟩ => Cmd.logged_of_events hw hevents

/-! ### Runs -/

def Opened (w : World) : Prop := ∃ s points durable now, openDurable durable now ⟨s, Disk.empty, points⟩ = .ok () w

def History.empty : History := ⟨fun _ => [], fun _ => [], Store.init false⟩

theorem diskRep_empty : DiskRep Disk.empty ∅ History.empty :=
  ⟨⟨by simp [Disk.empty], by simp, by simp, by simp⟩, baseRep_init .., .inl ⟨rfl, rfl⟩⟩

theorem History.view_empty (n : Bytes) : History.empty.base.view n = NsState.empty :=
  (baseRep_init ∅ (fun _ => []) fun _ => []).outside n (by simp [Store.init])

theorem Opened.sound (h : Opened w) : Sound (w, .empty) ∧ w.store.policies = ∅ := by
  obtain ⟨s, points, durable, now, hopen⟩ := h
  obtain ⟨w', hopen', hrun, hpol, _, _, hview⟩ := openDurable_spec diskRep_empty s points durable now
  rw [hopen] at hopen'
  cases hopen'
  refine ⟨⟨hrun, fun n => ?_, fun n => ?_⟩, hpol⟩
  · dsimp only
    rw [hrun.outside n (by rw [hpol]; simp)]
    exact NsState.sized_empty
  · dsimp only
    exact NsState.sized_empty

theorem Opened.view_empty (h : Opened w) (n : Bytes) : w.store.view n = NsState.empty := by
  obtain ⟨hsound, hempty⟩ := h.sound
  exact hsound.running.outside n (by rw [hempty]; simp)

variable {ok : World → Cmd → Prop}

theorem run_invariant {I : World × History → Prop} (hvalid : ∀ w c, ok w c → c.Valid w.store)
    (hstep : ∀ w g c x', Sound (w, g) → I (w, g) → ok w c → Run Happens (w, g) (c.events w) x' → I x')
    {cmds : List Cmd} (hrun : Run (guarded ok Step) w cmds w') (h : Sound (w, g)) (hI : I (w, g)) :
    ∃ g', Sound (w', g') ∧ I (w', g') := by
  refine hrun.invariant (I := fun w => ∃ g, Sound (w, g) ∧ I (w, g)) ?_ ⟨g, h, hI⟩
  rintro w c w' ⟨g, hs, hI⟩ ⟨hok, hstep'⟩
  rcases (Cmd.outcome hs (hvalid w c hok)).cases hstep' with rfl | ⟨g', hevents⟩
  · exact ⟨g, hs, hI⟩
  · exact ⟨g', hevents.invariant (fun _ _ _ hx he => he.sound hx) hs, hstep w g c _ hs hI hok hevents⟩

theorem Opened.run_sound (hvalid : ∀ w c, ok w c → c.Valid w.store) (h : Opened w)
    {cmds : List Cmd} (hrun : Run (guarded ok Step) w cmds w') : ∃ g, Sound (w', g) := by
  obtain ⟨g, hs, -⟩ := run_invariant (I := fun _ => True) hvalid (fun _ _ _ _ _ _ _ _ => trivial) hrun h.sound.1 trivial
  exact ⟨g, hs⟩

/-! ### Executing a run -/

/-- Run the operations one by one, as long as each of them is allowed and succeeds. -/
def execRun (ok : World → Cmd → Prop) [∀ w c, Decidable (ok w c)] : World → List Cmd → Option World
  | w, [] => some w
  | w, c :: cs =>
    if ok w c then (Exec.okState (c.run w)).bind (execRun ok · cs) else none

theorem execRun_sound [∀ w c, Decidable (ok w c)] {cs : List Cmd}
    (h : execRun ok w cs = some w') : Run (guarded ok Step) w cs w' := by
  induction cs generalizing w with
  | nil => cases h; exact .nil _
  | cons c cs ih =>
    simp only [execRun] at h
    split_ifs at h with hok
    obtain ⟨w1, hrun, hrest⟩ := Option.bind_eq_some_iff.1 h
    exact .cons ⟨hok, .ok (Exec.okState_eq_some.1 hrun)⟩ (ih hrest)

/-- The same on a store just opened on an empty directory. -/
def freshRun (ok : World → Cmd → Prop) [∀ w c, Decidable (ok w c)] (cs : List Cmd) : Option World :=
  (Exec.okState (openDurable false 0 ⟨Store.init false, Disk.empty, []⟩)).bind (execRun ok · cs)

theorem freshRun_sound [∀ w c, Decidable (ok w c)] {cs : List Cmd} {w : World}
    (h : freshRun ok cs = some w) : ∃ w0, Opened w0 ∧ Run (guarded ok Step) w0 cs w := by
  obtain ⟨w0, hopen, hrun⟩ := Option.bind_eq_some_iff.1 h
  exact ⟨w0, ⟨_, _, _, _, Exec.okState_eq_some.1 hopen⟩, execRun_sound hrun⟩

end

end BunnyMesh
