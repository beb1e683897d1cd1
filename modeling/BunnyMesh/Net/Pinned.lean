import BunnyMesh.Net.Routine
import BunnyMesh.Storage.Runs

/-!
# Records are taken from the pinned identity

A chunk is applied only in the phase `pulling`.  The invariant: a peer in that phase has a pin, and is bound to the peer
id of its pin.  Every handler keeps it, except that a Hello on a pinned peer is believed when it only claims the pin, and
that a completed dial rebinds a peer in any phase (`PinChecked`).
-/

namespace BunnyMesh

open Std
open Exec (Triple Keeps)
open Runs (Run guarded)

section

variable [Libp2p]

/-! ### The invariant -/

def PeerCtx.PinnedTo (pid : PeerId) (c : PeerCtx) : Prop :=
  c.pid = some pid ∧ ∃ pk, c.pin = some pk ∧ Libp2p.peerIdOf pk = some pid

def PeerCtx.Bound (c : PeerCtx) : Prop := ∀ ns target, c.phase = .pulling ns target → ∃ pid, c.PinnedTo pid

def Runner.Pinned (r : Runner) : Prop := ∀ (n : Bytes) c, r.peer[n]? = some c → c.Bound

def Runner.NamePinned (name : Bytes) (r : Runner) : Prop := ∀ c, r.peer[name]? = some c → ∃ pid, c.PinnedTo pid

theorem routine_pinned : Routine Runner.Pinned := by
  refine routine_eachPeer (fun name addr pin ns target hpulling => ?_) fun name c c' h hbound hphase ns target hpulling => ?_
  · cases hpulling
  · unfold PeerCtx.PinnedTo
    rw [hbound.1, hbound.2]
    rcases hphase with heq | hno
    · exact h ns target (heq ▸ hpulling)
    · rw [hpulling] at hno
      cases hno

/-! ### Hello -/

theorem Runner.NamePinned.modifyPeer {r : Runner} {name : Bytes} (h : r.NamePinned name) {n : Bytes}
    {f : PeerCtx → PeerCtx} (hf : ∀ c, (f c).pid = c.pid ∧ (f c).pin = c.pin) : (r.modifyPeer n f).NamePinned name := by
  intro c hc
  rw [Runner.peer_modifyPeer] at hc
  split at hc
  · obtain ⟨c', hc', rfl⟩ := Option.map_eq_some_iff.1 hc
    unfold PeerCtx.PinnedTo
    rw [(hf c').1, (hf c').2]
    exact h c' hc'
  · exact h c hc

theorem keeps_namePinned_phaseSet (name n : Bytes) (phase : Phase) :
    Keeps (Runner.NamePinned name) (phaseSet n phase) :=
  Triple.modify fun _ hr => hr.modifyPeer fun _ => ⟨rfl, rfl⟩

theorem pullsFor_pinned (name : Bytes) : PullsFor name (fun r => r.Pinned ∧ r.NamePinned name) Runner.Pinned where
  books _ _ h := h
  asks _ _ _ h := h
  phase _ _ h := Runner.EachPeer.modifyPeer h.1 fun c hc _ _ _ _ => h.2 c hc

/-- A Hello that claims the pin of its peer comes from the key of the pin. -/
def Runner.HelloChecked (r : Runner) (name : Bytes) (pid : PeerId) (peerPk : Bytes32) : Prop :=
  ∀ c ∈ r.peer[name]?, c.pin = some peerPk → Libp2p.peerIdOf peerPk = some pid

instance (r : Runner) (name : Bytes) (pid : PeerId) (peerPk : Bytes32) : Decidable (r.HelloChecked name pid peerPk) :=
  inferInstanceAs (Decidable (∀ c ∈ r.peer[name]?, _))

theorem triple_checkPin (env : Env) (name : Bytes) (pid : PeerId) (peerPk : Bytes32) :
    Triple (fun r => r.Pinned ∧ (∀ c, r.peer[name]? = some c → c.pid = some pid) ∧ r.HelloChecked name pid peerPk)
      (checkPin env name pid peerPk) fun ok r => r.Pinned ∧ (ok = true → r.NamePinned name) := by
  refine Triple.bind (triple_getCtx _ name) fun c => ?_
  cases hpin : c.pin with
  | none =>
    cases hpid : Libp2p.peerIdOf peerPk with
    | none => exact Triple.throw
    | some advertisedPid =>
      refine Triple.ite (fun _ => ?_) fun heq => ?_
      · refine Triple.bind ((routine_pinned.easing.keeps_phaseSet name rfl).conseq (fun _ h => h.1.1) fun _ _ h => h) fun _ => ?_
        exact Triple.pure fun _ h => ⟨h, by simp⟩
      · -- the first key is pinned where it is the key of the connection
        obtain rfl : pid = advertisedPid := not_not.1 heq
        refine Triple.bind (Q := fun _ r => r.Pinned ∧ r.NamePinned name) (Triple.modify fun r hr => ?_) fun _ => ?_
        · have hbound : ∀ c' : PeerCtx, ({ c' with pin := some peerPk, pid := some pid } : PeerCtx).PinnedTo pid :=
            fun c' => ⟨rfl, peerPk, rfl, hpid⟩
          refine ⟨Runner.EachPeer.modifyPeer hr.1.1 fun c' _ _ _ _ _ => ⟨pid, hbound c'⟩, fun c' hc' => ?_⟩
          rw [Runner.peer_modifyPeer, if_pos rfl] at hc'
          obtain ⟨c'', _, rfl⟩ := Option.map_eq_some_iff.1 hc'
          exact ⟨pid, hbound c''⟩
        · refine Triple.bind (Q := fun _ r => r.Pinned ∧ r.NamePinned name) ?_ fun _ => Triple.pure fun _ h => ⟨h.1, fun _ => h.2⟩
          intro r hr a r' hrun
          refine ⟨routine_pinned.easing.keeps_persistPin env name peerPk r hr.1 a r' hrun, ?_⟩
          refine (Keeps.bind (Triple.modify fun _ h => h) fun _ => Triple.ite (fun _ => Keeps.pure) fun _ => ?_ :
            Keeps (Runner.NamePinned name) (persistPin env name peerPk)) r hr.2 a r' hrun
          exact keeps_namePinned_phaseSet name name _
  | some existing =>
    refine Triple.ite (fun _ => ?_) fun heq => ?_
    · refine Triple.bind ((routine_pinned.easing.keeps_phaseSet name rfl).conseq (fun _ h => h.1.1) fun _ _ h => h) fun _ => ?_
      exact Triple.pure fun _ h => ⟨h, by simp⟩
    · obtain rfl : existing = peerPk := not_not.1 heq
      refine Triple.pure fun r hr => ⟨hr.1.1, fun _ c' hc' => ?_⟩
      obtain rfl : c = c' := Option.some.inj (hr.2.symm.trans hc')
      exact ⟨pid, hr.1.2.1 c hc', existing, hpin, hr.1.2.2 c hc' hpin⟩

theorem triple_onHello (env : Env) (pid : PeerId) (resp : HelloResponse) :
    Triple (fun r => r.Pinned ∧ ∀ name ∈ r.nameForPid env.order pid, ∀ pk ∈ parseKey resp.hostId,
      r.HelloChecked name pid pk) (onHello env pid resp) fun _ => Runner.Pinned := by
  refine Triple.get_bind fun r hr => ?_
  cases hname : r.nameForPid env.order pid with
  | none => exact Triple.pure fun s hs => hs ▸ hr.1
  | some name =>
    cases hpk : parseKey resp.hostId with
    | none => exact (routine_pinned.easing.keeps_phaseSet name rfl).conseq (fun s hs => hs ▸ hr.1) fun _ _ h => h
    | some peerPk =>
      refine Triple.bind ((triple_checkPin env name pid peerPk).conseq (fun s hs => ?_) fun _ _ h => h) fun ok => ?_
      · rw [hs]
        exact ⟨hr.1, fun c hc => Runner.pid_of_nameForPid hname hc, hr.2 name hname peerPk hpk⟩
      · refine Triple.ite (fun hok => ?_) fun _ => Triple.pure fun _ h => h.1
        refine Triple.bind (Triple.get_bind fun s hs => Triple.modify fun t ht => ?_) fun _ => (pullsFor_pinned name).triple_queuePulls _
        rw [ht]
        exact ⟨hs.1, hs.2 hok⟩

/-! ### Records -/

section

variable [Crates]

theorem triple_checkRecords (env : Env) (pid : PeerId) (recs : Records) {r : Runner} (hr : r.Pinned) :
    Triple (· = r) (checkRecords env pid recs) fun res r' => r'.Pinned ∧ ∀ name ns target parsed,
      res = some (name, ns, target, parsed) → r' = r ∧ ∃ c, r.peer[name]? = some c ∧ c.PinnedTo pid := by
  rintro s rfl res r' hrun
  refine ⟨routine_pinned.easing.keeps_checkRecords env pid recs s hr res r' hrun, ?_⟩
  rintro name ns target parsed rfl
  obtain ⟨hnone, -⟩ | ⟨_, _, _, _, heq, rfl, haccepts⟩ := checkRecords_cases hrun
  · cases hnone
  · cases heq
    obtain ⟨c, hc, hphase⟩ := Option.map_eq_some_iff.1 haccepts.pulling
    obtain ⟨pid', hpinned⟩ := hr name c hc ns target hphase
    -- the peer id in the invariant is the sender's
    have hpid : c.pid = some pid := Runner.pid_of_nameForPid haccepts.bound hc
    obtain rfl : pid' = pid := Option.some.inj (hpinned.1.symm.trans hpid)
    exact ⟨rfl, c, hc, hpinned⟩

theorem triple_onRecords (env : Env) (pid : PeerId) (recs : Records) : Keeps Runner.Pinned (onRecords env pid recs) := by
  intro r hr a r' hrun
  suffices h : Triple (· = r) (onRecords env pid recs) fun _ => Runner.Pinned from h r rfl a r' hrun
  refine Triple.bind (triple_checkRecords env pid recs hr) fun res => ?_
  cases res with
  | none => exact Triple.pure fun _ h => h.1
  | some x =>
    obtain ⟨name, ns, target, parsed⟩ := x
    have hstore : ∀ {α : Type} (x : M α), Keeps (fun r => r.Pinned ∧ r.NamePinned name) (onStore x) :=
      fun x => triple_onStore fun _ h => h
    refine ((pullsFor_pinned name).triple_applyPulled (fun _ _ h => h) (fun s hs => ?_) (hstore _) (hstore _)).conseq
      (fun s hs => ?_) fun _ _ h => h
    · exact ⟨Runner.EachPeer.modifyPeer hs.1 fun _ _ h => h, hs.2.modifyPeer fun _ => ⟨rfl, rfl⟩⟩
    obtain ⟨rfl, c, hc, hpinned⟩ := hs.2 name ns target parsed rfl
    refine ⟨hr, fun c' hc' => ?_⟩
    obtain rfl : c = c' := Option.some.inj (hc.symm.trans hc')
    exact ⟨pid, hpinned⟩

/-! ### The other events -/

/-- A completed dial that rebinds a peer in the phase `pulling` binds it to the key of its pin. -/
def Runner.DialChecked (r : Runner) (name : Bytes) (pid : PeerId) : Prop :=
  ∀ c ∈ r.peer[name]?, c.phase.isPulling → ∃ pk ∈ c.pin, Libp2p.peerIdOf pk = some pid

instance (r : Runner) (name : Bytes) (pid : PeerId) : Decidable (r.DialChecked name pid) :=
  inferInstanceAs (Decidable (∀ c ∈ r.peer[name]?, _))

omit [Crates] in
theorem triple_onEstablished (env : Env) (pid : PeerId) (addr : Bytes) :
    Triple (fun r => r.Pinned ∧ ∀ name ∈ r.dialedName env.order addr, r.DialChecked name pid)
      (onEstablished env pid addr) fun _ => Runner.Pinned := by
  refine Triple.get_bind fun r hr => ?_
  refine Triple.bind (Q := fun _ s => s.Pinned ∧ s.peer = r.peer) (Triple.modify fun s hs => ?_) fun _ => ?_
  · rw [hs]
    exact ⟨hr.1, rfl⟩
  cases hname : r.dialedName env.order addr with
  | none => exact Triple.pure fun _ h => h.1
  | some name =>
    refine Triple.bind (triple_getCtx _ name) fun c => ?_
    refine Triple.bind (Q := fun _ => Runner.Pinned) (Triple.modify fun s hs => ?_) fun _ => ?_
    · refine Runner.EachPeer.modifyPeer hs.1.1 fun c' hc' _ ns target hphase => ⟨pid, rfl, ?_⟩
      have hphase' : c'.phase = .pulling ns target := hphase
      obtain ⟨pk, hpk, hpid⟩ := hr.2 name hname c' (by rw [← hs.1.2]; exact hc') (by rw [hphase']; rfl)
      exact ⟨pk, hpk, hpid⟩
    · exact Triple.ite (fun _ => routine_pinned.easing.keeps_sendHello name pid) fun _ => Keeps.pure

/-! ### Runs -/

/-- What an event has to meet: a Hello that claims the pin of a pinned peer comes from the key of the pin, and so does the
connection that rebinds a peer in the phase `pulling`. -/
def Runner.PinChecked (r : Runner) (env : Env) : NetEvent → Prop
  | .response pid (.hello resp) =>
    ∀ name ∈ r.nameForPid env.order pid, ∀ pk ∈ parseKey resp.hostId, r.HelloChecked name pid pk
  | .established pid (some addr) => ∀ name ∈ r.dialedName env.order addr, r.DialChecked name pid
  | _ => True

theorem triple_handle (env : Env) (e : NetEvent) :
    Triple (fun r => r.Pinned ∧ r.PinChecked env e) (handle env e) fun _ => Runner.Pinned := by
  have keeps : ∀ {x : Net Unit}, Keeps Runner.Pinned x →
      Triple (fun r => r.Pinned ∧ r.PinChecked env e) x fun _ => Runner.Pinned :=
    fun h => h.conseq (fun _ hs => hs.1) fun _ _ h => h
  refine routine_pinned.easing.triple_handle (fun _ h => h.1) env ?_ ?_ ?_ ?_ ?_ fun _ _ _ h => h.1
  · exact fun _ => keeps (routine_pinned.rounds.keeps_kickAll env)
  · rintro pid addr rfl
    exact triple_onEstablished env pid addr
  · intro pid req _
    refine keeps (routine_pinned.easing.keeps_onRequest env pid fun ns fromSeq _ => ?_)
    exact Keeps.bind (triple_onStore fun _ h => h) fun _ => Triple.modify fun _ h => h
  · rintro pid resp rfl
    exact triple_onHello env pid resp
  · exact fun pid recs _ => keeps (triple_onRecords env pid recs)

/-- In a run whose events are so checked, a chunk that `on_records` is about to apply for a peer was received from the
key the peer is pinned to. -/
theorem records_only_from_pin {world : World} {host : Bytes32} {cfg : List Peer} {events : List (Env × NetEvent)}
    {r r' : Runner} (hrun : Run (guarded (fun r x => r.PinChecked x.1 x.2) NetStep) (Runner.start world host cfg) events r)
    {env : Env} {pid : PeerId} {recs : Records} {name ns : Bytes} {target : Nat} {parsed : List Record}
    (happly : checkRecords env pid recs r = .ok (some (name, ns, target, parsed)) r') :
    ∃ c pk, r.peer[name]? = some c ∧ c.pin = some pk ∧ Libp2p.peerIdOf pk = some pid := by
  have hpinned : r.Pinned := by
    refine hrun.invariant (I := Runner.Pinned) ?_ fun n c hc => ?_
    · rintro s ⟨env, e⟩ s' hs ⟨hchecked, _, hstep⟩
      exact triple_handle env e { s with out := [] } ⟨hs, hchecked⟩ () s' hstep
    · simp [Runner.start] at hc
  obtain ⟨_, c, hc, _, pk, hpk, hpid⟩ := (triple_checkRecords env pid recs hpinned r rfl _ r' happly).2 name ns target
    parsed rfl
  exact ⟨c, pk, hc, hpk, hpid⟩

instance (r : Runner) (env : Env) (e : NetEvent) : Decidable (r.PinChecked env e) := by
  delta Runner.PinChecked
  split <;> infer_instance

end

end

/-! ### A node with one pinned peer -/

/-- Peer ids for closed examples: the bytes of the key. -/
@[reducible] def Libp2p.trivial : Libp2p := ⟨fun pk => some ⟨pk.val⟩, some⟩

/-- A node that hosts the empty namespace `a` and knows one peer, pinned to `pk`. -/
def pinnedNode (pk : Bytes32) : Option Runner :=
  letI := Crates.trivial
  (freshRun (fun _ _ => True) [.createNamespace [97] .lww]).map fun w =>
    .start w .zero [⟨[98], [120], showKey pk, none⟩]

/-- Connections are up, dials and saves succeed, the clock stands. -/
def quietEnv (order : List Bytes) : Env := ⟨order, fun _ => true, fun _ => true, true, 0, 0⟩

/-- The events up to the Hello of the peer that answered the dial as `pid`, claiming the key `pk`. -/
def helloEvents (pid : PeerId) (pk : Bytes32) : List (Env × NetEvent) :=
  [(quietEnv [], .kickAll), (quietEnv [[98]], .established pid (some [120])),
    (quietEnv [[98]], .response pid (.hello ⟨showKey pk, 0, [⟨[97], 1, []⟩]⟩))]

def offeredRecords : Records :=
  letI := Crates.trivial
  ⟨[97], [⟨1, b64Encode ((putRecord [1] [10] 1 .zero .zero 0).toBytes .zero)⟩]⟩

set_option synthInstance.maxSize 1000

set_option maxRecDepth 100000 in
/-- The pinned peer itself answers, and its record passes. -/
theorem records_only_from_pin_honest : letI := Crates.trivial; letI := Libp2p.trivial
    ∃ r₀ r r', pinnedNode (.fill 7) = some r₀ ∧
      Run (guarded (fun r x => r.PinChecked x.1 x.2) NetStep) r₀ (helloEvents ⟨(Bytes32.fill 7).val⟩ (.fill 7)) r ∧
      checkRecords (quietEnv [[98]]) ⟨(Bytes32.fill 7).val⟩ offeredRecords r =
        .ok (some ([98], [97], 1, [putRecord [1] [10] 1 .zero .zero 0])) r' ∧
      ∃ c pk, r.peer[([98] : Bytes)]? = some c ∧ c.pin = some pk ∧
        Libp2p.peerIdOf pk = some ⟨(Bytes32.fill 7).val⟩ := by
  have h : letI := Crates.trivial; letI := Libp2p.trivial
      ∃ r₀ ∈ pinnedNode (.fill 7), ∃ r ∈ netRun (fun r x => r.PinChecked x.1 x.2) r₀
        (helloEvents ⟨(Bytes32.fill 7).val⟩ (.fill 7)),
      ∃ x ∈ Exec.okResult (checkRecords (quietEnv [[98]]) ⟨(Bytes32.fill 7).val⟩ offeredRecords r),
        x.1 = some ([98], [97], 1, [putRecord [1] [10] 1 .zero .zero 0]) := by
    decide +kernel
  let _ := Crates.trivial
  let _ := Libp2p.trivial
  obtain ⟨r₀, hnode, r, hrun, ⟨res, r'⟩, hcheck, rfl⟩ := h
  obtain ⟨w, _, rfl⟩ := Option.map_eq_some_iff.1 hnode
  have hrun := netRun_sound hrun
  have hcheck := Exec.okResult_eq_some.1 hcheck
  exact ⟨_, r, r', hnode, hrun, hcheck, records_only_from_pin hrun hcheck⟩

set_option maxRecDepth 100000 in
/-- A peer that answers the dial with another key claims the pin, and its record is applied. -/
theorem impostor_records_applied : letI := Crates.trivial; letI := Libp2p.trivial
    ∃ r₀ r r' r'', pinnedNode (.fill 7) = some r₀ ∧ Run NetStep r₀ (helloEvents ⟨(Bytes32.fill 9).val⟩ (.fill 7)) r ∧
      checkRecords (quietEnv [[98]]) ⟨(Bytes32.fill 9).val⟩ offeredRecords r =
        .ok (some ([98], [97], 1, [putRecord [1] [10] 1 .zero .zero 0])) r' ∧
      (∃ c, r.peer[([98] : Bytes)]? = some c ∧ c.pin = some (.fill 7)) ∧
      Libp2p.peerIdOf (.fill 7) ≠ some ⟨(Bytes32.fill 9).val⟩ ∧
      NetStep r (quietEnv [[98]], .response ⟨(Bytes32.fill 9).val⟩ (.records offeredRecords)) r'' ∧
      r.world.store.get [97] [1] = none ∧ (r''.world.store.get [97] [1]).isSome := by
  have h : letI := Crates.trivial; letI := Libp2p.trivial
      ∃ r₀ ∈ pinnedNode (.fill 7), ∃ r ∈ netRun (fun _ _ => True) r₀ (helloEvents ⟨(Bytes32.fill 9).val⟩ (.fill 7)),
      ∃ x ∈ Exec.okResult (checkRecords (quietEnv [[98]]) ⟨(Bytes32.fill 9).val⟩ offeredRecords r),
        x.1 = some ([98], [97], 1, [putRecord [1] [10] 1 .zero .zero 0]) ∧
        (∃ c ∈ r.peer[([98] : Bytes)]?, c.pin = some (.fill 7)) ∧ r.world.store.get [97] [1] = none ∧
        ∃ r'' ∈ netRun (fun _ _ => True) r [(quietEnv [[98]], .response ⟨(Bytes32.fill 9).val⟩ (.records offeredRecords))],
          (r''.world.store.get [97] [1]).isSome := by
    decide +kernel
  let _ := Crates.trivial
  let _ := Libp2p.trivial
  obtain ⟨r₀, hnode, r, hrun, ⟨res, r'⟩, hcheck, rfl, hpin, hnone, r'', hstep, hsome⟩ := h
  have hrun := (netRun_sound hrun).mono fun _ _ _ h => h.2
  have hcheck := Exec.okResult_eq_some.1 hcheck
  exact ⟨r₀, r, r', r'', hnode, hrun, hcheck, hpin, by decide, netStep_of_netRun hstep, hnone, hsome⟩

end BunnyMesh
