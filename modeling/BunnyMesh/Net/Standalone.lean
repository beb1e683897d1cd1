import BunnyMesh.Net.Mesh
import BunnyMesh.Net.Rounds
import BunnyMesh.Storage.Stops

/-!
# Compaction is for nodes without peers

`gc_live` and `compact_dir` refuse where a peer clock is recorded: it stands for the records of peers in the logs, which
compaction would have to keep.  A Hello notes the clock in memory, and only a checkpoint puts it into the snapshot, while
the records of a chunk are in the log at once.  `on_records` takes the checkpoint right behind the first chunk of a round,
so that the guard holds between events, and is lost where the process stops in between (`compaction_refused`).
-/

namespace BunnyMesh

open Std
open Exec (Triple Keeps Passes Always finalState)
open Runs (Run guarded)

/-! ### Handlers without a chunk -/

def Store.HasPeer (s : Store) : Prop := s.peerClocks.isEmpty = false

/-- The runner has pulls going on only where the store knows the clock of a peer. -/
def Runner.PullsFromPeers (r : Runner) : Prop :=
  ∀ (name : Bytes) c, r.peer[name]? = some c → c.phase.isPulling = true → r.world.store.HasPeer

/-- From `r₀` on nothing has happened to the store but clocks that were noted, and the count of the round was kept or
started anew. -/
structure Runner.Calm (r₀ r : Runner) : Prop where
  world : ∃ clocks, r.world = { r₀.world with store := { r₀.world.store with peerClocks := clocks } }
  clocks : r₀.world.store.HasPeer → r.world.store.HasPeer
  count : r.roundApplied = r₀.roundApplied ∨ r.roundApplied = 0
  pulls : r.PullsFromPeers

variable {r₀ : Runner}

theorem Runner.PullsFromPeers.modifyPeer {r : Runner} (h : r.PullsFromPeers) (name : Bytes) {f : PeerCtx → PeerCtx}
    (hf : ∀ c, (f c).phase = c.phase ∨ (f c).phase.isPulling = false) : (r.modifyPeer name f).PullsFromPeers := by
  unfold Runner.PullsFromPeers
  rw [(r.world_modifyPeer name f).1]
  refine Runner.EachPeer.modifyPeer h fun c _ hc hpulling => ?_
  rcases hf c with hphase | hphase
  · exact hc (hphase ▸ hpulling)
  · rw [hphase] at hpulling
    cases hpulling

theorem Runner.roundApplied_modifyPeer (r : Runner) (name : Bytes) (f : PeerCtx → PeerCtx) :
    (r.modifyPeer name f).roundApplied = r.roundApplied := by
  unfold Runner.modifyPeer
  split <;> rfl

theorem Runner.Calm.modifyPeer {r : Runner} (h : r₀.Calm r) (name : Bytes) {f : PeerCtx → PeerCtx}
    (hf : ∀ c, (f c).phase = c.phase ∨ (f c).phase.isPulling = false) : r₀.Calm (r.modifyPeer name f) := by
  have hworld := (r.world_modifyPeer name f).1
  refine ⟨by rw [hworld]; exact h.world, by rw [hworld]; exact h.clocks, ?_, h.pulls.modifyPeer name hf⟩
  rw [r.roundApplied_modifyPeer]
  exact h.count

theorem Runner.Calm.congr {r r' : Runner} (h : r₀.Calm r) (hworld : r'.world = r.world) (hpeer : r'.peer = r.peer)
    (hcount : r'.roundApplied = r.roundApplied ∨ r'.roundApplied = 0) : r₀.Calm r' := by
  refine ⟨hworld ▸ h.world, hworld ▸ h.clocks, ?_, ?_⟩
  · rcases hcount with hcount | hcount
    · rw [hcount]
      exact h.count
    · exact .inr hcount
  · unfold Runner.PullsFromPeers
    rw [hworld, hpeer]
    exact h.pulls

theorem routine_calm : RoundRoutine (Runner.Calm r₀) where
  books _ _ hworld _ hpeer hcount h := h.congr hworld hpeer hcount
  context _ name _ _ hf h := h.modifyPeer name hf
  added _ _ _ _ h := ⟨h.world, h.clocks, h.count, Runner.EachPeer.added h.pulls fun hpulling => nomatch hpulling⟩
  dialsFailed _ h :=
    ⟨h.world, h.clocks, h.count, Runner.EachPeer.dialsFailed h.pulls fun _ _ _ hpulling => nomatch hpulling⟩
  message _ _ _ h := h.congr rfl rfl (.inl rfl)

theorem calm_bind (r : Runner) (name : Bytes) (f : PeerCtx → PeerCtx) (hf : ∀ c, (f c).phase = c.phase) (h : r₀.Calm r) :
    r₀.Calm (r.modifyPeer name f) := h.modifyPeer name fun c => .inl (hf c)

theorem pullsFor_calm (name : Bytes) : PullsFor name (fun r => r₀.Calm r ∧ r.world.store.HasPeer) r₀.Calm where
  books _ _ h := ⟨h.1.congr rfl rfl (.inl rfl), h.2⟩
  asks _ _ _ h := ⟨h.1.congr rfl rfl (.inl rfl), h.2⟩
  phase r phase h := by
    have hworld := (r.world_modifyPeer name fun c => { c with phase := phase }).1
    have hpeer : (r.modifyPeer name fun c => { c with phase := phase }).world.store.HasPeer := by rw [hworld]; exact h.2
    refine ⟨by rw [hworld]; exact h.1.world, fun _ => hpeer, ?_, fun _ _ _ _ => hpeer⟩
    rw [r.roundApplied_modifyPeer]
    exact h.1.count

theorem Store.hasPeer_setPeerClock (s : Store) (name : Bytes) (diff : Int64) : (s.setPeerClock name diff).HasPeer := by
  simp [Store.HasPeer, Store.setPeerClock]

theorem triple_calm_noteClock (env : Env) (name : Bytes) (hlc : UInt64) :
    Triple r₀.Calm (noteClock env name hlc) fun _ r => r₀.Calm r ∧ r.world.store.HasPeer := by
  refine Triple.get_bind fun r hr => Triple.modify fun s hs => ?_
  subst hs
  have hpeer := s.world.store.hasPeer_setPeerClock name
  obtain ⟨clocks, hworld⟩ := hr.world
  exact ⟨⟨⟨_, by rw [hworld]; rfl⟩, fun _ => hpeer _, hr.count, fun _ _ _ _ => hpeer _⟩, hpeer _⟩

section

variable [Crates] [Libp2p]

theorem keeps_calm_handle (env : Env) {e : NetEvent} (hedit : ∀ w, e ≠ .storeEdit w)
    (hrecords : ∀ pid recs, e ≠ .response pid (.records recs)) : Keeps (Runner.Calm r₀) (handle env e) := by
  refine routine_calm.easing.triple_handle (fun _ h => h) env (fun _ => routine_calm.keeps_kickAll env) ?_ ?_ ?_ ?_ ?_
  · exact fun pid addr _ => routine_calm.easing.keeps_onEstablished env pid addr fun r name => calm_bind r name _ fun _ => rfl
  · intro pid req _
    refine routine_calm.easing.keeps_onRequest env pid fun ns fromSeq _ => Keeps.bind (triple_onStore fun r hr => ?_)
      fun res => Triple.modify fun r hr => hr.congr rfl rfl (.inl rfl)
    rw [logRecords_world]
    exact hr
  · intro pid resp _
    refine routine_calm.easing.keeps_onHello env pid resp (fun _ name _ _ _ s => calm_bind s name _ fun _ => rfl) fun name => ?_
    exact Triple.bind (triple_calm_noteClock env name resp.hlc) fun _ => (pullsFor_calm name).triple_queuePulls _
  · exact fun pid recs he => absurd he (hrecords pid recs)
  · exact fun w he => absurd he (hedit w)

end

/-! ### A chunk -/

def Runner.At (w : World) (n : Nat) (r : Runner) : Prop := r.world = w ∧ r.roundApplied = n

section

variable {w : World} {n : Nat}

theorem always_at_phaseSet (name : Bytes) (phase : Phase) : Always (Runner.At w n) (phaseSet name phase) :=
  Always.modify fun r hr => ⟨(r.world_modifyPeer name _).1.trans hr.1, (r.roundApplied_modifyPeer name _).trans hr.2⟩

theorem always_at_getCtx (name : Bytes) : Always (Runner.At w n) (getCtx name) := by
  refine Always.get_bind fun r => ?_
  split
  · exact Always.pure
  · exact Always.throw

theorem always_at_sendPull (name ns : Bytes) (target : Nat) : Always (Runner.At w n) (sendPull name ns target) := by
  refine Always.bind (always_at_getCtx name) fun c => ?_
  cases c.pid with
  | none => exact Always.throw
  | some pid =>
    exact Always.get_bind fun _ => Always.bind (Always.modify fun _ h => h) fun _ => always_at_phaseSet name _

theorem always_at_nextPull (name ns : Bytes) (target localSeq : Nat) :
    Always (Runner.At w n) (nextPull name ns target localSeq) := by
  refine Always.ite (always_at_sendPull name ns target) (Always.get_bind fun r => ?_)
  split
  · exact Always.bind (Always.modify fun _ h => h) fun _ => always_at_sendPull name _ _
  · exact Always.bind (Always.modify fun _ h => h) fun _ => always_at_phaseSet name _

variable [Crates] {g : History} {r : Runner} {ns : Bytes} {parsed fresh : List Record} {w₁ : World}

/-- Where `on_records` takes a checkpoint behind a chunk. -/
def Runner.Checkpoints (r : Runner) (applied records : Nat) : Prop :=
  r.roundApplied + applied > 0 ∧ (r.roundApplied + applied) % checkpointEvery ≤ records

instance (r : Runner) (applied records : Nat) : Decidable (r.Checkpoints applied records) := inferInstanceAs (Decidable (_ ∧ _))

variable {w2 : World}

omit [Crates] in
theorem checkpointAfter_apply (applied records : Nat) (hcheck : checkpoint r.world = .ok () w2) :
    checkpointAfter records { r with roundApplied := r.roundApplied + applied } = .ok () { r with
      roundApplied := r.roundApplied + applied
      world := if r.Checkpoints applied records then w2 else r.world } := by
  by_cases hcond : r.Checkpoints applied records
  · rw [if_pos hcond]
    unfold Runner.Checkpoints at hcond
    simp only [checkpointAfter, Exec.bind_apply, Exec.get_apply, if_pos hcond, onStore, hcheck, Exec.pure_apply]
  · rw [if_neg hcond]
    unfold Runner.Checkpoints at hcond
    simp only [checkpointAfter, Exec.bind_apply, Exec.get_apply, if_neg hcond, Exec.pure_apply]

omit [Crates] in
theorem afterApply_at (name ns : Bytes) (target applied : Nat) (parsed : List Record)
    (hcheck : checkpoint r.world = .ok () w2) :
    Runner.At (if r.Checkpoints applied parsed.length then w2 else r.world) (r.roundApplied + applied)
      (finalState (afterApply name ns target parsed (.ok applied) r)) := by
  have hafter := checkpointAfter_apply applied parsed.length hcheck
  simp only [afterApply, Exec.bind_apply, Exec.modify_apply, hafter, Exec.get_apply]
  generalize (if r.Checkpoints applied parsed.length then w2 else r.world) = w'
  have hphase := fun phase => always_at_phaseSet (w := w') (n := r.roundApplied + applied) name phase
  refine Always.ite (hphase _) (Always.bind (always_at_getCtx name) fun c => ?_) _ ⟨rfl, rfl⟩
  refine Always.bind (Always.modify fun r hr => ?_) fun _ => Always.ite (hphase _) (always_at_nextPull name ns target _)
  exact ⟨(r.world_modifyPeer name _).1.trans hr.1, (r.roundApplied_modifyPeer name _).trans hr.2⟩

def Event.isPlain : Event → Bool
  | .created _ _ | .changed _ _ | .snapshot => true
  | .reopened | .compacted _ => false

/-- A sound store that knows a peer where its snapshot does. -/
structure Covered (x : World × History) : Prop where
  sound : Sound x
  kept : x.2.base.HasPeer → x.1.store.HasPeer

theorem Covered.plain {x x' : World × History} {e : Event} (h : Covered x) (he : Happens x e x') (hplain : e.isPlain) :
    Covered x' ∧ (x.1.store.HasPeer → x'.1.store.HasPeer) ∧ (x.2.base.HasPeer → x'.2.base.HasPeer) := by
  have hsound := he.sound h.sound
  cases he with
  | created => exact ⟨⟨hsound, h.kept⟩, id, id⟩
  | changed logged =>
    obtain ⟨_, _, hclocks, _⟩ := logged.spec h.sound.running.toAttached
    have hstore : ∀ {s s' : Store}, s'.peerClocks = s.peerClocks → s.HasPeer → s'.HasPeer := by
      intro s s' heq hs
      rw [Store.HasPeer, heq]
      exact hs
    exact ⟨⟨hsound, fun hbase => hstore hclocks (h.kept hbase)⟩, hstore hclocks, id⟩
  | snapshot => exact ⟨⟨hsound, id⟩, id, h.kept⟩
  | reopened => cases hplain
  | compacted => cases hplain

theorem Covered.run {x x' : World × History} {es : List Event} (h : Covered x) (hrun : Run Happens x es x')
    (hplain : ∀ e ∈ es, e.isPlain) :
    Covered x' ∧ (x.1.store.HasPeer → x'.1.store.HasPeer) ∧ (x.2.base.HasPeer → x'.2.base.HasPeer) := by
  refine hrun.invariant_of_mem (I := fun y => Covered y ∧ (x.1.store.HasPeer → y.1.store.HasPeer) ∧
    (x.2.base.HasPeer → y.2.base.HasPeer)) (fun e he y y' ⟨hcovered, hstore, hbase⟩ hstep => ?_) ⟨h, id, id⟩
  obtain ⟨hcovered', hstore', hbase'⟩ := hcovered.plain hstep (hplain e he)
  exact ⟨hcovered', hstore' ∘ hstore, hbase' ∘ hbase⟩

/-- A chunk of a pull was applied: `fresh` are its new records, `w₁` is the store with them. -/
structure Runner.Applied (r : Runner) (g : History) (ns : Bytes) (parsed fresh : List Record) (w₁ : World) : Prop where
  pulling : ∃ (name : Bytes) (c : PeerCtx), r.peer[name]? = some c ∧ c.phase.isPulling = true
  wellFormed : ∀ x ∈ parsed, x.WellFormed
  length : fresh.length ≤ parsed.length
  run : applySyncedBatch ns parsed r.world = .ok fresh.length w₁
  events : Run Happens (r.world, g) (fresh.map fun x => .changed ns (.synced x)) (w₁, g.logAll ns fresh)

theorem Runner.Accepts.applied {env : Env} {pid : PeerId} {recs : Records} {name : Bytes} {target : Nat}
    (haccepts : r.Accepts env pid recs name ns target parsed) (h : Running r.world g)
    (hns : r.world.store.policies[ns]? ≠ none) : ∃ fresh w₁, r.Applied g ns parsed fresh w₁ := by
  obtain ⟨p, hp⟩ := Option.ne_none_iff_exists'.1 hns
  obtain ⟨batch, _, hverify⟩ := haccepts.verified
  have hwf : ∀ x ∈ parsed, x.WellFormed := verifyFrom_wellFormed hverify
  obtain ⟨w₁, hrun, hevents, _⟩ := applySyncedBatch_spec h.toAttached hp hwf
  obtain ⟨c, hc, hphase⟩ := Option.map_eq_some_iff.1 haccepts.pulling
  refine ⟨_, w₁, ⟨name, c, hc, by rw [hphase]; rfl⟩, hwf, ?_, hrun, hevents⟩
  exact Shipping.length_unseen_le _ _

theorem onRecords_cases {env : Env} {pid : PeerId} {recs : Records} {r' : Runner} (hpulls : r.PullsFromPeers)
    (hok : onRecords env pid recs r = .ok () r') :
    r.Calm r' ∨ ∃ name ns target parsed, r.Accepts env pid recs name ns target parsed ∧ r.world.store.policies[ns]? ≠ none ∧
      onRecords env pid recs r = (onStore (applySyncedBatch ns parsed) >>= afterApply name ns target parsed) r := by
  have hcalm : r.Calm r := ⟨⟨_, rfl⟩, id, .inl rfl, hpulls⟩
  have hidle : ∀ name {phase : Phase}, phase = .idle ∨ phase = .done →
      r.Calm (r.modifyPeer name fun c => { c with phase := phase }) := by
    intro name phase hphase
    refine hcalm.modifyPeer name fun c => .inr ?_
    rcases hphase with rfl | rfl <;> rfl
  cases hcheck : checkRecords env pid recs r with
  | error e s => rw [onRecords, Exec.bind_error hcheck] at hok; cases hok
  | ok res s =>
    rw [onRecords, Exec.bind_ok hcheck] at hok ⊢
    obtain ⟨rfl, hs⟩ | ⟨name, ns, target, parsed, rfl, rfl, haccepts⟩ := checkRecords_cases hcheck
    · left
      cases hok
      obtain rfl | ⟨name, phase, hphase, rfl⟩ := hs
      · exact hcalm
      · exact hidle name hphase
    · dsimp only at hok ⊢
      rw [applyPulled_eq] at hok ⊢
      cases hp : s.world.store.policies[ns]? with
      | some p => exact .inr ⟨name, ns, target, parsed, haccepts, by rw [hp]; simp, rfl⟩
      | none =>
        left
        have hrefused : onStore (applySyncedBatch ns parsed) s = .ok (.error (.badName ns)) s := by
          simp [onStore, applySyncedBatch, requirePolicy_none hp]
        rw [Exec.bind_ok hrefused] at hok
        cases hok
        exact hidle name (.inl rfl)

theorem Runner.Applied.onStore (h : r.Applied g ns parsed fresh w₁) :
    onStore (applySyncedBatch ns parsed) r = .ok (.ok fresh.length) { r with world := w₁ } := by
  rw [BunnyMesh.onStore, h.run]

theorem Runner.Applied.at (h : r.Applied g ns parsed fresh w₁) (name : Bytes) (target : Nat)
    (hcheck : checkpoint w₁ = .ok () w2) :
    Runner.At (if r.Checkpoints fresh.length parsed.length then w2 else w₁) (r.roundApplied + fresh.length)
      (finalState ((BunnyMesh.onStore (applySyncedBatch ns parsed) >>= afterApply name ns target parsed) r)) := by
  rw [Exec.bind_ok h.onStore]
  exact afterApply_at (r := { r with world := w₁ }) name ns target fresh.length parsed hcheck

omit [Crates] in
theorem passes_of_always_at {α : Type} {x : Net α} {G : Disk → Prop} (h : ∀ w n, Always (Runner.At w n) x) :
    Passes (fun r => r.world.points) G x r :=
  .of_eq (congrArg World.points (h r.world r.roundApplied r ⟨rfl, rfl⟩).1)

omit [Crates] in
theorem passes_onStore {α : Type} {x : M α} {G : Disk → Prop} (h : Passes World.points G x r.world) :
    Passes (fun r => r.world.points) G (BunnyMesh.onStore x) r := by
  obtain ⟨passed, heq, hG⟩ := h
  refine ⟨passed, ?_, hG⟩
  rw [← heq, BunnyMesh.onStore]
  cases x r.world with
  | ok a w => rfl
  | error e w => cases e <;> rfl

theorem passes_afterApply (h : Running r.world g) (hfits : r.world.store.snapOf.Fits) (name ns : Bytes) (target : Nat)
    (parsed : List Record) (applied : Nat) :
    Passes (fun r => r.world.points) (fun d => d.Stands g.base ∨ d.Stands r.world.store)
      (afterApply name ns target parsed (.ok applied)) r := by
  refine Passes.bind (.of_eq rfl) fun _ r1 hr1 => Passes.bind ?_ fun _ r2 _ => Passes.get_bind ?_
  · cases hr1
    refine Passes.get_bind (Passes.ite (fun _ => ?_) fun _ => Passes.pure)
    exact Passes.bind (passes_onStore (passes_checkpoint h hfits)) fun _ _ _ => Passes.pure
  · refine passes_of_always_at fun w n => Always.ite (always_at_phaseSet name _) (Always.bind (always_at_getCtx name) fun c => ?_)
    refine Always.bind (Always.modify fun r hr => ?_) fun _ =>
      Always.ite (always_at_phaseSet name _) (always_at_nextPull name ns target _)
    exact ⟨(r.world_modifyPeer name _).1.trans hr.1, (r.roundApplied_modifyPeer name _).trans hr.2⟩

theorem Runner.Applied.passes (h : r.Applied g ns parsed fresh w₁) (hrun : Running r.world g) (hrun1 : Running w₁ (g.logAll ns fresh))
    (hfits : w₁.store.snapOf.Fits) (name : Bytes) (target : Nat) :
    Passes (fun r => r.world.points) (fun d => d.Stands g.base ∨ d.Stands w₁.store)
      (BunnyMesh.onStore (applySyncedBatch ns parsed) >>= afterApply name ns target parsed) r := by
  refine Passes.bind (passes_onStore ((passes_applySyncedBatch hrun ns h.wellFormed).mono fun d => .inl)) fun res r' hr' => ?_
  rw [h.onStore] at hr'
  cases hr'
  have hafter := passes_afterApply (r := { r with world := w₁ }) hrun1 hfits name ns target parsed fresh.length
  rw [History.base_logAll] at hafter
  exact hafter

end

/-! ### A node that stops and starts -/

/-- What a node does: an operation of its own on the store, or an event of the mesh. -/
inductive Action where
  | store (c : Cmd)
  | net (env : Env) (e : NetEvent)

/-- A node acts; it stops between two actions and starts again; or it stops in the middle of an action, in the `k`-th of the
directories between its effects, and starts on that. -/
inductive MemberEvent where
  | act (a : Action)
  | restart (durable : Bool) (now : UInt64) (cfg : List Peer)
  | crash (a : Action) (k : Nat) (durable : Bool) (now : UInt64) (cfg : List Peer)

/-- A node, and whether a record of a peer was ever applied to its store. -/
structure Member where
  runner : Runner
  received : Bool

def Action.isNet : Action → Bool
  | store _ => false
  | net _ _ => true

def NetEvent.isEdit : NetEvent → Bool
  | storeEdit _ => true
  | _ => false

def World.grew (w w' : World) : Bool :=
  w'.store.namespaces.any fun x => (w.records x.1).length < (w'.records x.1).length

section

variable [Crates] [Libp2p]

/-- An action to its end; an operation that fails leaves the store running. -/
def Action.run (r : Runner) : Action → Option Runner
  | store c => match c.run r.world with
    | .ok _ w | .error (.err _) w => some { r with world := w }
    | .error (.panic _) _ => none
  | net env e => if env.order.Perm r.peer.keys then Exec.okState (handle env e { r with out := [] }) else none

def Action.between (r r' : Runner) : List Disk := (r'.world.points.drop r.world.points.length).dropLast

def Runner.boot (r : Runner) (d : Disk) (durable : Bool) (now : UInt64) (cfg : List Peer) : Option Runner :=
  (Exec.okState (openDurable durable now { r.world with disk := d })).map fun w => .start w r.host cfg

def Member.step (x : Member) : MemberEvent → Option Member
  | .act a => (a.run x.runner).map fun r => ⟨r, x.received || a.isNet && x.runner.world.grew r.world⟩
  | .restart durable now cfg => (x.runner.boot x.runner.world.disk durable now cfg).map fun r => ⟨r, x.received⟩
  | .crash a k durable now cfg => do
    let r ← a.run x.runner
    let d ← (Action.between x.runner r)[k]?
    let r' ← x.runner.boot d durable now cfg
    pure ⟨r', x.received || a.isNet && x.runner.world.grew r'.world⟩

def Member.Steps (x : Member) (e : MemberEvent) (x' : Member) : Prop := x.step e = some x'

/-- Operations of the node itself are local writes and checkpoints of valid callers; what a chunk leaves fits the lengths of
a snapshot. -/
def Action.Regular (r : Runner) : Action → Prop
  | store c => c.isLocal = true ∧ c.Valid r.world.store
  | net env e => e.isEdit = false ∧ ∀ r' ∈ (net env e).run r, r'.world.store.snapOf.Fits

def Member.Regular (x : Member) : MemberEvent → Prop
  | .act a | .crash a _ _ _ _ => a.Regular x.runner
  | .restart _ _ _ => True

/-- The process does not stop inside the handling of a chunk before the snapshot on disk names a peer. -/
def Member.Sheltered (x : Member) : MemberEvent → Prop
  | .crash (.net _ (.response _ (.records _))) _ _ _ _ => x.runner.world.disk.savedClocks.isEmpty = false
  | _ => True

/-- Both compactions refuse, and change nothing. -/
def Runner.RefusesCompaction (r : Runner) : Prop :=
  (∀ now, gcLive now r.world = .error (.err (.io (gcRefusal r.world.store.peerClocks.size))) r.world) ∧
  ∀ now opened s points, ∃ w, compactDir now opened ⟨s, r.world.disk, points⟩ =
    .error (.err (.io (compactRefusal r.world.disk.savedClocks.size))) w ∧ w.disk = r.world.disk

/-- The snapshot names a peer once a record of a peer is in the store, and in a round that has applied something. -/
structure Member.Guarded (x : Member) (g : History) : Prop where
  covered : Covered (x.runner.world, g)
  received : x.received = true → g.base.HasPeer
  round : x.runner.roundApplied ≠ 0 → g.base.HasPeer
  pulls : x.runner.PullsFromPeers

variable {x x' : Member} {g : History}

omit [Libp2p] in
theorem Member.Guarded.refuses (h : x.Guarded g) (hreceived : x.received = true) : x.runner.RefusesCompaction := by
  have hbase := h.received hreceived
  have hdisk : x.runner.world.disk.Stands g.base := ⟨_, _, h.covered.sound.running.disk, rfl⟩
  refine ⟨gcLive_refused (h.covered.kept hbase), fun now opened s points => ?_⟩
  exact compactDir_refused hdisk h.covered.sound.baseSized hbase s points now opened

variable {r r' : Runner} {c : Cmd}

omit [Libp2p] in
theorem Member.guarded_boot {d : Disk} {base : Store} {durable received : Bool} {now : UInt64} {cfg : List Peer}
    (hd : d.Stands base) (hsized : ∀ n, (base.view n).Sized) (hreceived : received = true → base.HasPeer)
    (hboot : r.boot d durable now cfg = some r') : ∃ g', Member.Guarded ⟨r', received⟩ g' := by
  obtain ⟨w, hw, rfl⟩ := Option.map_eq_some_iff.1 hboot
  obtain ⟨w', g', hopen, _, _, hsound, rfl, hclocks⟩ := hd.opens hsized r.world.store r.world.points durable now
  rw [Exec.okState_eq_some.1 hw] at hopen
  cases hopen
  refine ⟨g', ⟨hsound, fun hbase => ?_⟩, hreceived, fun hround => absurd rfl hround, fun name c hc => ?_⟩
  · rw [Store.HasPeer]
    exact hclocks ▸ hbase
  · simp [Runner.start] at hc

theorem Action.run_store (hlocal : c.isLocal) (h : (Action.store c).run r = some r') :
    ∃ w, r' = { r with world := w } ∧ Step r.world c w ∧ finalState (c.run r.world) = w := by
  have hreopen : c.isReopen = false := by cases c <;> first | rfl | cases hlocal
  cases hrun : c.run r.world with
  | ok u w =>
    simp only [Action.run, hrun, Option.some.injEq] at h
    exact ⟨w, h.symm, .ok hrun, rfl⟩
  | error e w =>
    cases e with
    | err e =>
      simp only [Action.run, hrun, Option.some.injEq] at h
      exact ⟨w, h.symm, .failed hrun hreopen, rfl⟩
    | panic detail => simp only [Action.run, hrun, reduceCtorEq] at h

omit [Crates] [Libp2p] in
theorem Cmd.isPlain_of_local (h : c.isLocal) {w : World} {e : Event} (he : e ∈ c.events w) : e.isPlain := by
  cases c with
  | createNamespace | put | delete | putBatch | setSchema | setIndex | checkpoint =>
    rw [Cmd.events, List.mem_singleton] at he
    rw [he]
    rfl
  | applySynced | applySyncedBatch | gcLive | reopen => cases h

theorem Member.Guarded.store (h : x.Guarded g) (hc : c.isLocal = true ∧ c.Valid x.runner.world.store)
    (hrun : (Action.store c).run x.runner = some r) : ∃ g', Member.Guarded ⟨r, x.received⟩ g' := by
  obtain ⟨w, rfl, hstep, _⟩ := Action.run_store hc.1 hrun
  rcases (Cmd.outcome h.covered.sound hc.2).cases hstep with rfl | ⟨g', hevents⟩
  · exact ⟨g, h.covered, h.received, h.round, h.pulls⟩
  · obtain ⟨hcovered, hstore, hbase⟩ := h.covered.run hevents fun e he => Cmd.isPlain_of_local hc.1 he
    refine ⟨g', hcovered, fun hr => hbase (h.received hr), fun hr => hbase (h.round hr), fun name c hc hpulling => ?_⟩
    exact hstore (h.pulls name c hc hpulling)

theorem Member.Guarded.store_crash (h : x.Guarded g) (hc : c.isLocal = true ∧ c.Valid x.runner.world.store)
    (hrun : (Action.store c).run x.runner = some r) {d : Disk} (hd : d ∈ Action.between x.runner r)
    {durable : Bool} {now : UInt64} {cfg : List Peer} (hboot : x.runner.boot d durable now cfg = some r') :
    ∃ g', Member.Guarded ⟨r', x.received⟩ g' := by
  obtain ⟨w, rfl, _, rfl⟩ := Action.run_store hc.1 hrun
  have hsound := h.covered.sound
  obtain hd | hd | hd := (Cmd.passes_local hsound.running hc.2 hc.1).drop (List.mem_of_mem_dropLast hd)
  · exact Member.guarded_boot hd hsound.baseSized h.received hboot
  · exact Member.guarded_boot hd hsound.sized (fun hr => h.covered.kept (h.received hr)) hboot
  · obtain ⟨w, hw, _⟩ := Option.map_eq_some_iff.1 hboot
    exact (hd _ _ _ _ _ (Exec.okState_eq_some.1 hw)).elim

omit [Libp2p] in
theorem Member.Guarded.calm (h : x.Guarded g) (hcalm : { x.runner with out := [] }.Calm r) :
    Member.Guarded ⟨r, x.received⟩ g ∧ x.runner.world.grew r.world = false := by
  obtain ⟨clocks, hworld⟩ := hcalm.world
  have hsound := h.covered.sound
  have hrunning : Running r.world g := by
    rw [hworld]
    exact hsound.running.congr rfl rfl rfl fun _ => rfl
  refine ⟨⟨⟨⟨hrunning, ?_, hsound.baseSized⟩, fun hbase => hcalm.clocks (h.covered.kept hbase)⟩, h.received, ?_, hcalm.pulls⟩, ?_⟩
  · rw [hworld]
    exact hsound.sized
  · rcases hcalm.count with hcount | hcount
    · rw [hcount]
      exact h.round
    · exact fun hr => absurd hcount hr
  · rw [World.grew, List.any_eq_false]
    intro n _
    rw [hsound.running.toAttached.records_congr hrunning.toAttached (by rw [hworld]) rfl]
    simp

variable {ns : Bytes} {parsed fresh : List Record} {w₁ : World}

omit [Libp2p] in
theorem Member.Guarded.applied (h : x.Guarded g) (happ : x.runner.Applied g ns parsed fresh w₁) :
    Covered (w₁, g.logAll ns fresh) ∧ w₁.store.HasPeer := by
  obtain ⟨name, c, hc, hpulling⟩ := happ.pulling
  obtain ⟨hcovered, hstore, _⟩ := h.covered.run happ.events fun e he => by
    obtain ⟨r, _, rfl⟩ := List.mem_map.1 he
    rfl
  exact ⟨hcovered, hstore (h.pulls name c hc hpulling)⟩

omit [Crates] [Libp2p] in
theorem Runner.checkpoints_first {applied records : Nat} (hround : r.roundApplied = 0) (happlied : applied ≠ 0)
    (hle : applied ≤ records) : r.Checkpoints applied records := by
  rw [Runner.Checkpoints, hround, Nat.zero_add]
  have := Nat.mod_le applied checkpointEvery
  omega

omit [Libp2p] in
theorem Member.Guarded.chunk (h : x.Guarded g) (happ : x.runner.Applied g ns parsed fresh w₁) {name : Bytes} {target : Nat}
    (hrun : (onStore (applySyncedBatch ns parsed) >>= afterApply name ns target parsed) x.runner = .ok () r)
    (hfits : r.world.store.snapOf.Fits) :
    w₁.store.snapOf.Fits ∧ ∃ g', Member.Guarded ⟨r, x.received || x.runner.world.grew r.world⟩ g' := by
  obtain ⟨hcovered, hpeer⟩ := h.applied happ
  have hat1 : Attached w₁ (g.logAll ns fresh) := hcovered.sound.running.toAttached
  obtain ⟨disk, points, hcheck, _⟩ := hat1.checkpoint_apply
  obtain ⟨hworld, hcount⟩ := happ.at name target hcheck
  rw [hrun, Exec.finalState_ok] at hworld hcount
  have hstore : r.world.store = w₁.store := by
    rw [hworld]
    split <;> rfl
  rw [hstore] at hfits
  have hpeer' : r.world.store.HasPeer := hstore ▸ hpeer
  refine ⟨hfits, ?_⟩
  by_cases hcond : x.runner.Checkpoints fresh.length parsed.length
  · rw [if_pos hcond] at hworld
    obtain ⟨disk', points', hcheck', hrunning⟩ := hat1.checkpoint_spec hfits
    rw [hcheck] at hcheck'
    cases hcheck'
    obtain ⟨hcovered', _, _⟩ := hcovered.plain (.snapshot hrunning) rfl
    rw [← hworld] at hcovered'
    exact ⟨_, hcovered', fun _ => hpeer, fun _ => hpeer, fun _ _ _ _ => hpeer'⟩
  · rw [if_neg hcond] at hworld
    rw [← hworld] at hcovered
    by_cases hfresh : fresh = []
    · -- nothing was new: the store is the one before
      subst hfresh
      cases happ.events
      have hgrew : x.runner.world.grew r.world = false := by simp [World.grew, hworld]
      refine ⟨g, hworld ▸ h.covered, fun hr => ?_, fun hr => h.round (by rwa [hcount] at hr), fun _ _ _ _ => hpeer'⟩
      rw [hgrew, Bool.or_false] at hr
      exact h.received hr
    · -- an earlier chunk of the round has saved the clock
      have hbase : (g.logAll ns fresh).base.HasPeer := by
        rw [History.base_logAll]
        refine h.round fun hround => hcond (Runner.checkpoints_first hround ?_ happ.length)
        exact fun hlen => hfresh (List.length_eq_zero_iff.1 hlen)
      exact ⟨_, hcovered, fun _ => hbase, fun _ => hbase, fun _ _ _ _ => hpeer'⟩

/-- Every event of the mesh keeps the guard; where it is stopped in between, it handles a chunk and leaves a snapshot of
before or with a peer. -/
theorem Member.Guarded.net (h : x.Guarded g) {env : Env} {e : NetEvent} (hreg : (Action.net env e).Regular x.runner)
    (hrun : (Action.net env e).run x.runner = some r) :
    (∃ g', Member.Guarded ⟨r, x.received || x.runner.world.grew r.world⟩ g') ∧
    ∀ d ∈ Action.between x.runner r, (∃ pid recs, e = .response pid (.records recs)) ∧
      (d.Stands g.base ∨ ∃ s : Store, d.Stands s ∧ (∀ n, (s.view n).Sized) ∧ s.HasPeer) := by
  obtain ⟨hedit, hall⟩ := hreg
  have hfits := hall r hrun
  have hready : Member.Guarded ⟨{ x.runner with out := [] }, x.received⟩ g := ⟨h.covered, h.received, h.round, h.pulls⟩
  obtain ⟨_, hhandle⟩ := Option.ite_none_right_eq_some.1 hrun
  have hok := Exec.okState_eq_some.1 hhandle
  -- where only clocks are noted there is nothing to be stopped in
  have quiet (hcalm : { x.runner with out := [] }.Calm r) :
      (∃ g', Member.Guarded ⟨r, x.received || x.runner.world.grew r.world⟩ g') ∧ Action.between x.runner r = [] := by
    obtain ⟨hguarded, hgrew⟩ := h.calm hcalm
    obtain ⟨clocks, hworld⟩ := hcalm.world
    refine ⟨⟨g, ?_⟩, ?_⟩
    · rw [hgrew, Bool.or_false]
      exact hguarded
    · simp [Action.between, hworld]
  have settle (hcalm : { x.runner with out := [] }.Calm r) :
      (∃ g', Member.Guarded ⟨r, x.received || x.runner.world.grew r.world⟩ g') ∧
      ∀ d ∈ Action.between x.runner r, (∃ pid recs, e = .response pid (.records recs)) ∧
        (d.Stands g.base ∨ ∃ s : Store, d.Stands s ∧ (∀ n, (s.view n).Sized) ∧ s.HasPeer) := by
    obtain ⟨hguarded, hnone⟩ := quiet hcalm
    rw [hnone]
    exact ⟨hguarded, nofun⟩
  have hcalm0 : { x.runner with out := [] }.Calm { x.runner with out := [] } := ⟨⟨_, rfl⟩, id, .inl rfl, h.pulls⟩
  by_cases hrecords : ∃ pid recs, e = .response pid (.records recs)
  · obtain ⟨pid, recs, rfl⟩ := hrecords
    rw [handle] at hok
    obtain hcalm | ⟨name, ns, target, parsed, haccepts, hns, heq⟩ := onRecords_cases hready.pulls hok
    · exact settle hcalm
    · obtain ⟨fresh, w₁, happ⟩ := haccepts.applied hready.covered.sound.running hns
      obtain ⟨hcovered, hpeer⟩ := hready.applied happ
      obtain ⟨hfits1, hguarded⟩ := hready.chunk happ (heq ▸ hok) hfits
      refine ⟨hguarded, fun d hd => ⟨⟨pid, recs, rfl⟩, ?_⟩⟩
      have hpasses := happ.passes hready.covered.sound.running hcovered.sound.running hfits1 name target
      have hdrop := hpasses.drop (d := d)
      rw [← heq, hok] at hdrop
      rcases hdrop (List.mem_of_mem_dropLast hd) with hd | hd
      · exact .inl hd
      · exact .inr ⟨_, hd, hcovered.sound.sized, hpeer⟩
  · refine settle (keeps_calm_handle env (fun w he => ?_) (fun pid recs he => hrecords ⟨pid, recs, he⟩) _ hcalm0 () r hok)
    rw [he] at hedit
    cases hedit

theorem Member.Guarded.step (h : x.Guarded g) {e : MemberEvent} (hreg : x.Regular e) (hshelter : x.Sheltered e)
    (hstep : x.step e = some x') : ∃ g', x'.Guarded g' := by
  have hdisk : x.runner.world.disk.Stands g.base := ⟨_, _, h.covered.sound.running.disk, rfl⟩
  cases e with
  | act a =>
    obtain ⟨r, hrun, rfl⟩ := Option.map_eq_some_iff.1 hstep
    cases a with
    | store c =>
      rw [Action.isNet, Bool.false_and, Bool.or_false]
      exact h.store hreg hrun
    | net env e => exact (h.net hreg hrun).1
  | restart durable now cfg =>
    obtain ⟨r, hboot, rfl⟩ := Option.map_eq_some_iff.1 hstep
    exact Member.guarded_boot hdisk h.covered.sound.baseSized h.received hboot
  | crash a k durable now cfg =>
    obtain ⟨r, hrun, hstep⟩ := Option.bind_eq_some_iff.1 hstep
    obtain ⟨d, hd, hstep⟩ := Option.bind_eq_some_iff.1 hstep
    obtain ⟨r', hboot, hstep⟩ := Option.bind_eq_some_iff.1 hstep
    cases hstep
    have hd := List.mem_of_getElem? hd
    cases a with
    | store c =>
      rw [Action.isNet, Bool.false_and, Bool.or_false]
      exact h.store_crash hreg hrun hd hboot
    | net env e =>
      obtain ⟨⟨pid, recs, rfl⟩, hleft⟩ := (h.net hreg hrun).2 d hd
      have hbase : g.base.HasPeer := by
        rw [Store.HasPeer, ← hdisk.savedClocks]
        exact hshelter
      rcases hleft with hd | ⟨s, hd, hsized, hpeer⟩
      · exact Member.guarded_boot hd h.covered.sound.baseSized (fun _ => hbase) hboot
      · exact Member.guarded_boot hd hsized (fun _ => hpeer) hboot

/-- In every run from a fresh directory in which the process never stops inside the handling of a chunk while the snapshot
on disk names no peer, both compactions refuse and change nothing once a record of a peer was applied. -/
theorem compaction_refused {w₀ : World} (h₀ : Opened w₀) (host : Bytes32) (cfg : List Peer) {events : List MemberEvent}
    (hrun : Run (guarded (fun x e => x.Regular e ∧ x.Sheltered e) Member.Steps) ⟨.start w₀ host cfg, false⟩ events x)
    (hreceived : x.received = true) : x.runner.RefusesCompaction := by
  obtain ⟨hsound, _⟩ := h₀.sound
  have hstart : Member.Guarded ⟨.start w₀ host cfg, false⟩ .empty := by
    refine ⟨⟨hsound, fun hbase => ?_⟩, nofun, fun hround => absurd rfl hround, fun name c hc => ?_⟩
    · simp [Store.HasPeer, History.empty, Store.init] at hbase
    · simp [Runner.start] at hc
  have hstep : ∀ y e y', (∃ g, Member.Guarded y g) → guarded (fun x e => x.Regular e ∧ x.Sheltered e) Member.Steps y e y' →
      ∃ g, Member.Guarded y' g := by
    intro y e y' hy hallowed
    obtain ⟨g, hg⟩ := hy
    exact hg.step hallowed.1.1 hallowed.1.2 hallowed.2
  obtain ⟨g, hguarded⟩ := hrun.invariant (I := fun x => ∃ g, Member.Guarded x g) hstep ⟨_, hstart⟩
  exact hguarded.refuses hreceived

end

/-! ### Runs of one node -/

instance Action.decidableRegular [Crates] [Libp2p] (r : Runner) (a : Action) : Decidable (a.Regular r) := by
  cases a <;> delta Action.Regular <;> infer_instance

instance Member.decidableRegular [Crates] [Libp2p] (x : Member) (e : MemberEvent) : Decidable (x.Regular e) := by
  cases e <;> delta Member.Regular <;> infer_instance

instance Member.decidableSheltered [Crates] (x : Member) (e : MemberEvent) : Decidable (x.Sheltered e) := by
  delta Member.Sheltered
  split <;> infer_instance

theorem memberRun_sound [Crates] [Libp2p] {ok : Member → MemberEvent → Prop} [∀ x e, Decidable (ok x e)]
    {events : List MemberEvent} {x x' : Member} (h : Runs.exec ok Member.step x events = some x') :
    Run (guarded ok Member.Steps) x events x' := Runs.run_of_exec (fun _ _ _ h => h) h

/-- A node on a fresh directory that knows one peer, without a pin. -/
def freshMember [Crates] : Option (World × Member) :=
  (Exec.okState (openDurable false 0 ⟨Store.init false, Disk.empty, []⟩)).map fun w =>
    (w, ⟨.start w .zero [⟨[98], [120], [], none⟩], false⟩)

/-- The node creates the namespace `a`, dials its peer and hears that it is ahead. -/
def greeted : List MemberEvent :=
  .act (.store (.createNamespace [97] .lww)) :: (helloEvents ⟨(Bytes32.fill 7).val⟩ (.fill 7)).map fun x => .act (.net x.1 x.2)

set_option maxRecDepth 100000 in
/-- The chunk of the peer is applied, and the node stops and starts. -/
theorem compaction_refused_after_chunk : letI := Crates.trivial; letI := Libp2p.trivial
    ∃ w₀, ∃ x : Member, Opened w₀ ∧ Run (guarded (fun x e => x.Regular e ∧ x.Sheltered e) Member.Steps)
        ⟨.start w₀ .zero [⟨[98], [120], [], none⟩], false⟩
        (greeted ++ [.act (.net chunkEvent.1 chunkEvent.2), .restart false 0 []]) x ∧
      x.received = true ∧ x.runner.RefusesCompaction := by
  have h : letI := Crates.trivial; letI := Libp2p.trivial
      ∃ y ∈ freshMember, ∃ x ∈ Runs.exec (fun x e => x.Regular e ∧ x.Sheltered e) Member.step y.2
        (greeted ++ [.act (.net chunkEvent.1 chunkEvent.2), .restart false 0 []]), x.received = true := by
    decide +kernel
  let _ := Crates.trivial
  let _ := Libp2p.trivial
  obtain ⟨y, hy, x, hx, hreceived⟩ := h
  obtain ⟨w₀, hopen, rfl⟩ := Option.map_eq_some_iff.1 hy
  have h₀ : Opened w₀ := ⟨_, _, _, _, Exec.okState_eq_some.1 hopen⟩
  have hrun := memberRun_sound hx
  exact ⟨w₀, x, h₀, hrun, hreceived, compaction_refused h₀ _ _ hrun hreceived⟩

set_option maxRecDepth 100000 in
/-- The process stops between the append of the peer's record and the checkpoint behind it; started again, the node compacts
its store with the record of the peer in it, and so does `compact_dir` on the directory. -/
theorem synced_node_compacts : letI := Crates.trivial; letI := Libp2p.trivial
    ∃ w₀, ∃ x : Member, ∃ n w n' w', Opened w₀ ∧ Run (guarded Member.Regular Member.Steps)
        ⟨.start w₀ .zero [⟨[98], [120], [], none⟩], false⟩
        (greeted ++ [.crash (.net chunkEvent.1 chunkEvent.2) 0 false 0 []]) x ∧
      x.received = true ∧ gcLive 0 x.runner.world = .ok n w ∧ compactDir 0 0 x.runner.world = .ok n' w' := by
  have h : letI := Crates.trivial; letI := Libp2p.trivial
      ∃ y ∈ freshMember, ∃ x ∈ Runs.exec Member.Regular Member.step y.2
        (greeted ++ [.crash (.net chunkEvent.1 chunkEvent.2) 0 false 0 []]), x.received = true ∧
          (Exec.okResult (gcLive 0 x.runner.world)).isSome ∧ (Exec.okResult (compactDir 0 0 x.runner.world)).isSome := by
    decide +kernel
  let _ := Crates.trivial
  let _ := Libp2p.trivial
  obtain ⟨y, hy, x, hx, hreceived, hgc, hcompact⟩ := h
  obtain ⟨⟨n, w⟩, hgc⟩ := Option.isSome_iff_exists.1 hgc
  obtain ⟨⟨n', w'⟩, hcompact⟩ := Option.isSome_iff_exists.1 hcompact
  obtain ⟨w₀, hopen, rfl⟩ := Option.map_eq_some_iff.1 hy
  have hrun := memberRun_sound hx
  exact ⟨w₀, x, n, w, n', w', ⟨_, _, _, _, Exec.okState_eq_some.1 hopen⟩, hrun, hreceived, Exec.okResult_eq_some.1 hgc,
    Exec.okResult_eq_some.1 hcompact⟩

end BunnyMesh
