import BunnyMesh.Net.Binding

/-!
# What one round pulls, and for whom

`on_hello` queues the namespaces a peer is ahead on, and `on_records` goes through them.  Where it gives up on a
namespace it ends the round, whatever is still queued.  The allow-list it reads says nothing about a peer that is no
longer in the configuration, and such a peer may contribute to any namespace.  `persist_pin` marks a peer bad whose pin
it could not save, and `on_hello` then sets the next phase over it.
-/

namespace BunnyMesh

open Std
open Exec (Triple Keeps)
open Runs (Run)

/-! ### Giving up on a namespace -/

/-- The chunk comes from the peer `name` and is of the namespace `ns` that it is asked for. -/
structure Runner.Asked (r : Runner) (env : Env) (pid : PeerId) (recs : Records) (name ns : Bytes) (target : Nat) :
    Prop where
  bound : r.nameForPid env.order pid = some name
  pulling : (r.peer[name]?).map PeerCtx.phase = some (.pulling ns target)
  records : recs.ns = ns

section

variable [Crates] {r : Runner} {env : Env} {pid : PeerId} {recs : Records} {name ns : Bytes} {target : Nat}

/-- The peer may not contribute to the namespace, its chunk does not verify, or nothing of it is applied. -/
inductive Runner.GivesUp (r : Runner) (recs : Records) (name ns : Bytes) : Prop where
  | refused (hallowed : r.allowed name ns = some false)
  | unverified {batch : List (Nat × Bytes)} {e : MergeError} (hallowed : r.allowed name ns ≠ some false)
    (hdecode : decodeRecs recs.records = .ok batch) (hverify : verifyBatch batch = .error (.err e))
  | nothing {batch : List (Nat × Bytes)} {parsed : List Record} {w : World} (hallowed : r.allowed name ns ≠ some false)
    (hdecode : decodeRecs recs.records = .ok batch) (hverify : verifyBatch batch = .ok parsed)
    (happly : applySyncedBatch ns parsed r.world = .ok 0 w)

/-- The round with the peer is over, and it was sent nothing. -/
def Runner.RoundOver (r : Runner) (name : Bytes) : Prop :=
  r.out = [] ∧ ∃ c, r.peer[name]? = some c ∧ c.phase = .done

theorem Runner.GivesUp.clear (h : r.GivesUp recs name ns) : { r with out := [] }.GivesUp recs name ns := by
  cases h with
  | refused hallowed => exact .refused hallowed
  | unverified hallowed hdecode hverify => exact .unverified hallowed hdecode hverify
  | nothing hallowed hdecode hverify happly => exact .nothing hallowed hdecode hverify happly

omit [Crates] in
theorem phaseSet_apply (name : Bytes) (phase : Phase) (r : Runner) :
    phaseSet name phase r = .ok () (r.modifyPeer name fun c => { c with phase := phase }) := rfl

omit [Crates] in
theorem Runner.roundOver_phaseSet {c : PeerCtx} (hout : r.out = []) (hc : r.peer[name]? = some c) :
    (r.modifyPeer name fun c => { c with phase := .done }).RoundOver name :=
  ⟨(r.world_modifyPeer name _).2.trans hout, _, Runner.peer_modifyPeer_self hc _, rfl⟩

theorem Runner.Asked.checkRecords_of_refused (h : r.Asked env pid recs name ns target)
    (hallowed : r.allowed name ns = some false) :
    checkRecords env pid recs r = .ok none (r.modifyPeer name fun c => { c with phase := .done }) := by
  simp only [checkRecords, Exec.bind_apply, Exec.get_apply, h.bound, h.pulling, h.records, ne_eq, not_true_eq_false,
    if_false, if_pos hallowed, phaseSet_apply, Exec.pure_apply]

theorem Runner.Asked.checkRecords_of_unverified (h : r.Asked env pid recs name ns target)
    (hallowed : r.allowed name ns ≠ some false) {batch : List (Nat × Bytes)} {e : MergeError}
    (hdecode : decodeRecs recs.records = .ok batch) (hverify : verifyBatch batch = .error (.err e)) :
    checkRecords env pid recs r = .ok none (r.modifyPeer name fun c => { c with phase := .done }) := by
  simp only [checkRecords, Exec.bind_apply, Exec.get_apply, h.bound, h.pulling, h.records, ne_eq, not_true_eq_false,
    if_false, if_neg hallowed, hdecode, hverify, phaseSet_apply, Exec.pure_apply]

omit [Crates] in
theorem triple_afterApply_zero (name ns : Bytes) (target : Nat) (parsed : List Record) :
    Triple (fun r => r.out = [] ∧ r.peer[name]? ≠ none) (afterApply name ns target parsed (.ok 0))
      fun _ r => r.RoundOver name := by
  let P : Runner → Prop := fun r => r.out = [] ∧ r.peer[name]? ≠ none
  refine Triple.bind (Q := fun _ => P) (Triple.modify fun _ hr => hr) fun _ => ?_
  refine Triple.bind (Q := fun _ => P) (Keeps.get_bind fun _ _ => ?_) fun _ => Triple.get_bind fun r hr => ?_
  · refine Triple.ite (fun _ => ?_) fun _ => Keeps.pure
    exact Keeps.bind (triple_onStore fun _ hr => hr) fun _ => Keeps.pure
  · rw [if_pos rfl]
    refine Triple.modify fun s hs => ?_
    subst hs
    obtain ⟨c, hc⟩ := Option.ne_none_iff_exists'.1 hr.2
    exact Runner.roundOver_phaseSet hr.1 hc

theorem Runner.Asked.roundOver (h : r.Asked env pid recs name ns target) (hout : r.out = [])
    (hgives : r.GivesUp recs name ns) {r' : Runner} (hrun : onRecords env pid recs r = .ok () r') :
    r'.RoundOver name := by
  obtain ⟨c, hc, -⟩ := Option.map_eq_some_iff.1 h.pulling
  rw [onRecords] at hrun
  cases hgives with
  | refused hallowed =>
    rw [Exec.bind_ok (h.checkRecords_of_refused hallowed)] at hrun
    cases hrun
    exact Runner.roundOver_phaseSet hout hc
  | unverified hallowed hdecode hverify =>
    rw [Exec.bind_ok (h.checkRecords_of_unverified hallowed hdecode hverify)] at hrun
    cases hrun
    exact Runner.roundOver_phaseSet hout hc
  | @nothing batch parsed w hallowed hdecode hverify happly =>
    have haccepts : r.Accepts env pid recs name ns target parsed :=
      ⟨h.bound, h.pulling, h.records, hallowed, batch, hdecode, hverify⟩
    have hstore : onStore (applySyncedBatch ns parsed) r = .ok (.ok 0) { r with world := w } := by
      rw [onStore, happly]
    rw [Exec.bind_ok (checkRecords_of_accepts haccepts)] at hrun
    change applyPulled name ns target parsed r = .ok () r' at hrun
    rw [applyPulled_eq, Exec.bind_ok hstore] at hrun
    exact triple_afterApply_zero name ns target parsed { r with world := w } ⟨hout, by simp [hc]⟩ () r' hrun

variable [Libp2p]

/-- Where the chunk makes `on_records` give up on its namespace before the peer's chunks of this tick are used up, and
the peer has another namespace queued, that one is pulled next. -/
def Runner.PullsNext (r : Runner) (env : Env) (pid : PeerId) (recs : Records) : Prop :=
  ∀ (name : Bytes) ns target c nextNs nextTarget rest, r.Asked env pid recs name ns target →
    r.GivesUp recs name ns → r.peer[name]? = some c → c.roundChunks < maxChunksPerTick →
    r.pendingPulls[name]? = some ((nextNs, nextTarget) :: rest) →
    ∃ r' c' fromSeq, handle env (.response pid (.records recs)) { r with out := [] } = .ok () r' ∧
      .request pid (.pull nextNs fromSeq) ∈ r'.out ∧ r'.peer[name]? = some c' ∧ c'.phase = .pulling nextNs nextTarget

/-- In every state and for every chunk, the next namespace is pulled exactly if there is none: a peer whose namespace is
given up has nothing queued, or has used up its chunks. -/
theorem pulls_next_iff (r : Runner) (env : Env) (pid : PeerId) (recs : Records) :
    r.PullsNext env pid recs ↔ ∀ (name : Bytes) ns target c, r.Asked env pid recs name ns target →
      r.GivesUp recs name ns → r.peer[name]? = some c → c.roundChunks < maxChunksPerTick →
      (r.pendingPulls[name]?).getD [] = [] := by
  constructor
  · intro hnext name ns target c hasked hgives hc hchunks
    by_contra hqueue
    obtain ⟨queue, hq⟩ : ∃ queue, r.pendingPulls[name]? = some queue := by
      refine Option.ne_none_iff_exists'.1 fun hnone => hqueue ?_
      rw [hnone, Option.getD_none]
    rw [hq, Option.getD_some] at hqueue
    obtain ⟨⟨nextNs, nextTarget⟩, rest, rfl⟩ := List.exists_cons_of_ne_nil hqueue
    obtain ⟨r', c', fromSeq, hrun, hsent, -⟩ := hnext name ns target c nextNs nextTarget rest hasked hgives hc hchunks hq
    -- the handler ends the round without a message
    have hasked' : { r with out := [] }.Asked env pid recs name ns target :=
      ⟨hasked.bound, hasked.pulling, hasked.records⟩
    have hover := hasked'.roundOver rfl hgives.clear hrun
    rw [hover.1] at hsent
    cases hsent
  · intro hempty name ns target c nextNs nextTarget rest hasked hgives hc hchunks hq
    have hnone := hempty name ns target c hasked hgives hc hchunks
    rw [hq] at hnone
    cases hnone

end

/-- A node that hosts the empty namespaces `a` and `c` and takes only `c` from its peer. -/
def scopedNode : Option Runner :=
  letI := Crates.trivial
  (freshRun (fun _ _ => True) [.createNamespace [97] .lww, .createNamespace [99] .lww]).map fun w =>
    .start w .zero [⟨[98], [120], [], some [[99]]⟩]

def aheadOnBoth : NetEvent :=
  .response ⟨(Bytes32.fill 9).val⟩ (.hello ⟨showKey (.fill 9), 0, [⟨[97], 1, []⟩, ⟨[99], 1, []⟩]⟩)

/-- What a round of the peer comes to: it is asked for `a`, which it may not contribute to, `c` is queued, and the chunk
ends the round. -/
def Runner.SkipsQueued [Crates] [Libp2p] (r : Runner) : Prop :=
  r.out = [.request ⟨(Bytes32.fill 9).val⟩ (.pull [97] 1)] ∧
    r.Asked (quietEnv [[98]]) ⟨(Bytes32.fill 9).val⟩ offeredRecords [98] [97] 1 ∧ r.GivesUp offeredRecords [98] [97] ∧
    (∃ c, r.peer[([98] : Bytes)]? = some c ∧ c.roundChunks < maxChunksPerTick) ∧
    r.pendingPulls[([98] : Bytes)]? = some [([99], 1)] ∧
    ∃ r', NetStep r (quietEnv [[98]], .response ⟨(Bytes32.fill 9).val⟩ (.records offeredRecords)) r' ∧
      r'.RoundOver [98]

def Runner.skipsQueued [Crates] [Libp2p] (r : Runner) : Bool :=
  decide (r.out = [.request ⟨(Bytes32.fill 9).val⟩ (.pull [97] 1)]) &&
  decide (r.nameForPid [[98]] ⟨(Bytes32.fill 9).val⟩ = some [98]) &&
  decide ((r.peer[([98] : Bytes)]?).map PeerCtx.phase = some (.pulling [97] 1)) &&
  decide (r.allowed [98] [97] = some false) &&
  (r.peer[([98] : Bytes)]?).any (fun c => decide (c.roundChunks < maxChunksPerTick)) &&
  decide (r.pendingPulls[([98] : Bytes)]? = some [([99], 1)]) &&
  (netRun (fun _ _ => True) r [(quietEnv [[98]], .response ⟨(Bytes32.fill 9).val⟩ (.records offeredRecords))]).isSome

theorem Runner.skipsQueued_sound [Crates] [Libp2p] {r : Runner} (h : r.skipsQueued = true) : r.SkipsQueued := by
  simp only [Runner.skipsQueued, Bool.and_eq_true, decide_eq_true_eq] at h
  obtain ⟨⟨⟨⟨⟨⟨hout, hname⟩, hphase⟩, hallowed⟩, hchunks⟩, hqueue⟩, hstep⟩ := h
  obtain ⟨c, hc, hchunks⟩ := (Option.any_eq_true ..).1 hchunks
  obtain ⟨r', hstep⟩ := Option.isSome_iff_exists.1 hstep
  have hasked : r.Asked (quietEnv [[98]]) ⟨(Bytes32.fill 9).val⟩ offeredRecords [98] [97] 1 := ⟨hname, hphase, rfl⟩
  have hgives : r.GivesUp offeredRecords [98] [97] := .refused hallowed
  have hover : r'.RoundOver [98] := by
    have hasked' : { r with out := [] }.Asked (quietEnv [[98]]) ⟨(Bytes32.fill 9).val⟩ offeredRecords [98] [97] 1 :=
      ⟨hname, hphase, rfl⟩
    exact hasked'.roundOver rfl hgives.clear (netStep_of_netRun hstep).2
  exact ⟨hout, hasked, hgives, ⟨c, hc, of_decide_eq_true hchunks⟩, hqueue, r', netStep_of_netRun hstep, hover⟩

set_option maxRecDepth 100000 in
/-- The peer lists `a` before `c`: one round after the other asks for `a`, refuses it and leaves `c` in the queue. -/
theorem skipped_namespace_starves_next : letI := Crates.trivial; letI := Libp2p.trivial
    ∃ r₀ r r₁, scopedNode = some r₀ ∧
      Run NetStep r₀ (dialEvents (.fill 9) ++ [(quietEnv [[98]], aheadOnBoth)]) r ∧ r.SkipsQueued ∧
      Run NetStep r [(quietEnv [[98]], .response ⟨(Bytes32.fill 9).val⟩ (.records offeredRecords)),
        (quietEnv [[98]], .kickAll), (quietEnv [[98]], aheadOnBoth)] r₁ ∧ r₁.SkipsQueued := by
  have h : letI := Crates.trivial; letI := Libp2p.trivial
      ∃ r₀ ∈ scopedNode, ∃ r ∈ netRun (fun _ _ => True) r₀ (dialEvents (.fill 9) ++ [(quietEnv [[98]], aheadOnBoth)]),
        r.skipsQueued = true ∧ ∃ r₁ ∈ netRun (fun _ _ => True) r
          [(quietEnv [[98]], .response ⟨(Bytes32.fill 9).val⟩ (.records offeredRecords)),
            (quietEnv [[98]], .kickAll), (quietEnv [[98]], aheadOnBoth)], r₁.skipsQueued = true := by
    decide +kernel
  let _ := Crates.trivial
  let _ := Libp2p.trivial
  obtain ⟨r₀, hnode, r, hr, hskips, r₁, hr₁, hskips₁⟩ := h
  exact ⟨r₀, r, r₁, hnode, (netRun_sound hr).mono fun _ _ _ h => h.2, Runner.skipsQueued_sound hskips,
    (netRun_sound hr₁).mono fun _ _ _ h => h.2, Runner.skipsQueued_sound hskips₁⟩

/-! ### Whose records are applied -/

/-- `on_records` is about to apply the chunk to the namespace `ns` for the peer `name`. -/
def Runner.Applies [Crates] (r : Runner) (env : Env) (pid : PeerId) (recs : Records) (name ns : Bytes) : Prop :=
  ∃ target parsed r', checkRecords env pid recs r = .ok (some (name, ns, target, parsed)) r'

def Runner.Permits (r : Runner) (name ns : Bytes) : Prop :=
  ∃ p, r.cfgPeer name = some p ∧ ∀ list, p.namespaces = some list → ns ∈ list

section

variable [Crates] {r : Runner} {env : Env} {pid : PeerId} {recs : Records}

theorem world_of_not_applies (h : ∀ name ns, ¬ r.Applies env pid recs name ns) {r' : Runner}
    (hrun : onRecords env pid recs r = .ok () r') : r'.world = r.world := by
  rw [onRecords] at hrun
  cases hcheck : checkRecords env pid recs r with
  | error e s =>
    rw [Exec.bind_error hcheck] at hrun
    cases hrun
  | ok res s =>
    rw [Exec.bind_ok hcheck] at hrun
    obtain ⟨rfl, hs⟩ | ⟨name, ns, target, parsed, rfl, -, -⟩ := checkRecords_cases hcheck
    · cases hrun
      obtain rfl | ⟨name, phase, -, rfl⟩ := hs
      · rfl
      · exact (r.world_modifyPeer name _).1
    · exact absurd ⟨target, parsed, s, hcheck⟩ (h name ns)

theorem Runner.Applies.permits_iff {name ns : Bytes} (h : r.Applies env pid recs name ns) :
    r.Permits name ns ↔ r.cfgPeer name ≠ none := by
  obtain ⟨target, parsed, r', hcheck⟩ := h
  constructor
  · rintro ⟨p, hp, -⟩
    rw [hp]
    exact Option.some_ne_none p
  · intro hconfigured
    obtain ⟨p, hp⟩ := Option.ne_none_iff_exists'.1 hconfigured
    refine ⟨p, hp, fun list hlist => ?_⟩
    obtain ⟨hnone, -⟩ | ⟨_, _, _, _, heq, -, haccepts⟩ := checkRecords_cases hcheck
    · cases hnone
    · cases heq
      have hallowed := haccepts.allowed
      rw [Runner.allowed, hp, Option.bind_some, hlist, Option.map_some] at hallowed
      simpa using hallowed

/-- The store takes records from a response only where they are applied for a peer, and the configuration of that moment
permits it exactly if the peer is still in it. -/
theorem applied_permitted_iff [Libp2p] (r : Runner) (env : Env) (pid : PeerId) (recs : Records) :
    (∀ r', handle env (.response pid (.records recs)) { r with out := [] } = .ok () r' → r'.world ≠ r.world →
      ∃ name ns, { r with out := [] }.Applies env pid recs name ns) ∧
    ∀ name ns, { r with out := [] }.Applies env pid recs name ns → (r.Permits name ns ↔ r.cfgPeer name ≠ none) := by
  constructor
  · intro r' hrun hworld
    by_contra hnone
    push Not at hnone
    exact hworld (world_of_not_applies hnone hrun)
  · intro name ns happlies
    exact happlies.permits_iff

end

def chunkEvent : Env × NetEvent := (quietEnv [[98]], .response ⟨(Bytes32.fill 7).val⟩ (.records offeredRecords))

set_option synthInstance.maxSize 1000

set_option maxRecDepth 100000 in
theorem applied_permitted_iff_configured : letI := Crates.trivial; letI := Libp2p.trivial
    ∃ r₀ r, pinnedNode (.fill 7) = some r₀ ∧ Run NetStep r₀ (helloEvents ⟨(Bytes32.fill 7).val⟩ (.fill 7)) r ∧
      { r with out := [] }.Applies (quietEnv [[98]]) ⟨(Bytes32.fill 7).val⟩ offeredRecords [98] [97] ∧
      r.Permits [98] [97] := by
  have h : letI := Crates.trivial; letI := Libp2p.trivial
      ∃ r₀ ∈ pinnedNode (.fill 7), ∃ r ∈ netRun (fun _ _ => True) r₀ (helloEvents ⟨(Bytes32.fill 7).val⟩ (.fill 7)),
        r.cfgPeer [98] ≠ none ∧ ∃ x ∈ Exec.okResult (checkRecords (quietEnv [[98]]) ⟨(Bytes32.fill 7).val⟩ offeredRecords
          { r with out := [] }), x.1 = some ([98], [97], 1, [putRecord [1] [10] 1 .zero .zero 0]) := by
    decide +kernel
  let _ := Crates.trivial
  let _ := Libp2p.trivial
  obtain ⟨r₀, hnode, r, hr, hpeer, ⟨res, r'⟩, hcheck, rfl⟩ := h
  have happlies : { r with out := [] }.Applies (quietEnv [[98]]) ⟨(Bytes32.fill 7).val⟩ offeredRecords [98] [97] :=
    ⟨_, _, r', Exec.okResult_eq_some.1 hcheck⟩
  refine ⟨r₀, r, hnode, (netRun_sound hr).mono fun _ _ _ h => h.2, happlies, ?_⟩
  exact ((applied_permitted_iff r _ _ _).2 _ _ happlies).2 hpeer

set_option maxRecDepth 100000 in
/-- The peer is removed while its chunk is on the way, and the chunk is applied. -/
theorem removed_peer_contributes : letI := Crates.trivial; letI := Libp2p.trivial
    ∃ r₀ r r', pinnedNode (.fill 7) = some r₀ ∧
      Run NetStep r₀ (helloEvents ⟨(Bytes32.fill 7).val⟩ (.fill 7) ++ [(quietEnv [[98]], .configEdit [])]) r ∧
      { r with out := [] }.Applies (quietEnv [[98]]) ⟨(Bytes32.fill 7).val⟩ offeredRecords [98] [97] ∧
      ¬ r.Permits [98] [97] ∧ NetStep r chunkEvent r' ∧
      r.world.store.get [97] [1] = none ∧ (r'.world.store.get [97] [1]).isSome := by
  have h : letI := Crates.trivial; letI := Libp2p.trivial
      ∃ r₀ ∈ pinnedNode (.fill 7), ∃ r ∈ netRun (fun _ _ => True) r₀
        (helloEvents ⟨(Bytes32.fill 7).val⟩ (.fill 7) ++ [(quietEnv [[98]], .configEdit [])]),
        r.cfgPeer [98] = none ∧ r.world.store.get [97] [1] = none ∧
        (∃ r' ∈ netRun (fun _ _ => True) r [chunkEvent], (r'.world.store.get [97] [1]).isSome) ∧
        ∃ x ∈ Exec.okResult (checkRecords (quietEnv [[98]]) ⟨(Bytes32.fill 7).val⟩ offeredRecords { r with out := [] }),
          x.1 = some ([98], [97], 1, [putRecord [1] [10] 1 .zero .zero 0]) := by
    decide +kernel
  let _ := Crates.trivial
  let _ := Libp2p.trivial
  obtain ⟨r₀, hnode, r, hr, hremoved, hnone, ⟨r', hstep, hsome⟩, ⟨res, s⟩, hcheck, rfl⟩ := h
  refine ⟨r₀, r, r', hnode, (netRun_sound hr).mono fun _ _ _ h => h.2, ⟨_, _, s, Exec.okResult_eq_some.1 hcheck⟩, ?_,
    netStep_of_netRun hstep, hnone, hsome⟩
  rintro ⟨p, hp, -⟩
  rw [hremoved] at hp
  cases hp

/-! ### A pin that is not saved -/

section

variable [Libp2p] {r r' : Runner} {env : Env} {pid : PeerId} {resp : HelloResponse} {name : Bytes}

/-- The Hello pins the peer to the key of the connection. -/
def Runner.BindsPin (r : Runner) (env : Env) (pid : PeerId) (resp : HelloResponse) (name : Bytes) : Prop :=
  ∃ c pk, r.nameForPid env.order pid = some name ∧ r.peer[name]? = some c ∧ c.pin = none ∧
    parseKey resp.hostId = some pk ∧ Libp2p.peerIdOf pk = some pid

/-- A Hello whose pin cannot be saved ends the round: the handler returns with the peer marked bad, and nothing is
pulled. -/
def Runner.StopsUnsaved [Crates] (r : Runner) (env : Env) (pid : PeerId) (resp : HelloResponse) : Prop :=
  ∀ name, r.BindsPin env pid resp name → env.saves = false →
    ∃ r' c why, handle env (.response pid (.hello resp)) { r with out := [] } = .ok () r' ∧
      r'.peer[name]? = some c ∧ c.phase = .bad why ∧ ∀ p ns fromSeq, .request p (.pull ns fromSeq) ∉ r'.out

omit [Libp2p] in
theorem triple_queuePulls_phase (name : Bytes) (namespaces : List NsHead) :
    Triple (fun _ => True) (queuePulls name namespaces)
      fun _ s => ∀ c, s.peer[name]? = some c → c.phase = .done ∨ c.phase.isPulling = true := by
  have hset : ∀ phase : Phase, phase = .done ∨ phase.isPulling = true → Triple (fun _ => True) (phaseSet name phase)
      fun _ s => ∀ c, s.peer[name]? = some c → c.phase = .done ∨ c.phase.isPulling = true := by
    intro phase hphase
    refine Triple.modify fun s _ c hc => ?_
    rw [Runner.peer_modifyPeer, if_pos rfl] at hc
    obtain ⟨_, -, rfl⟩ := Option.map_eq_some_iff.1 hc
    exact hphase
  have any : ∀ {α : Type} (x : Net α), Triple (fun _ => True) x fun _ _ => True := fun _ _ _ _ _ _ => trivial
  refine Triple.get_bind fun s _ => Triple.conseq (P := fun _ => True) ?_ (fun _ _ => trivial) fun _ _ h => h
  split
  · exact hset _ (.inl rfl)
  · refine Triple.bind (any _) fun _ => Triple.bind (any _) fun c => ?_
    split
    · exact Triple.throw
    · refine Triple.bind (any _) fun s => Triple.bind (any _) fun _ => ?_
      exact hset _ (.inr rfl)

theorem triple_checkPin_binds {c : PeerCtx} {pk : Bytes32} (hc : r.peer[name]? = some c) (hpin : c.pin = none)
    (hpid : Libp2p.peerIdOf pk = some pid) : Triple (· = r) (checkPin env name pid pk) fun ok _ => ok = true := by
  refine Triple.bind (triple_getCtx (· = r) name) fun c' s hs ok s' hrun => ?_
  obtain ⟨rfl, hc'⟩ := hs
  obtain rfl : c = c' := Option.some_inj.1 (hc.symm.trans hc')
  simp only [hpin, hpid, ne_eq, not_true_eq_false, if_false] at hrun
  have hlast : Triple (fun _ => True) (do
      modifyPeer name fun c => { c with pin := some pk, pid := some pid }
      persistPin env name pk
      pure true : Net Bool) fun ok _ => ok = true :=
    Triple.bind (Q := fun _ _ => True) (fun _ _ _ _ _ => trivial) fun _ =>
      Triple.bind (Q := fun _ _ => True) (fun _ _ _ _ _ => trivial) fun _ => Triple.pure fun _ _ => rfl
  exact hlast s trivial ok s' hrun

theorem Runner.BindsPin.phase (h : r.BindsPin env pid resp name) (hrun : onHello env pid resp r = .ok () r') (c : PeerCtx)
    (hc : r'.peer[name]? = some c) : c.phase = .done ∨ c.phase.isPulling = true := by
  obtain ⟨c0, pk, hname, hc0, hpin, hkey, hpid⟩ := h
  suffices hello : Triple (· = r) (onHello env pid resp)
      fun _ s => ∀ c, s.peer[name]? = some c → c.phase = .done ∨ c.phase.isPulling = true from hello r rfl () r' hrun c hc
  refine Triple.get_bind fun s hs => ?_
  subst hs
  rw [hname]
  rw [hkey]
  refine Triple.bind (triple_checkPin_binds hc0 hpin hpid) fun ok => ?_
  refine Triple.ite (fun _ => ?_) fun hno _ hok => absurd hok hno
  exact Triple.bind (Q := fun _ _ => True) (fun _ _ _ _ _ => trivial) fun _ => triple_queuePulls_phase name _

/-- In every state and for every Hello, a pin that is not saved stops the round exactly if there is none. -/
theorem stops_unsaved_iff [Crates] (r : Runner) (env : Env) (pid : PeerId) (resp : HelloResponse) :
    r.StopsUnsaved env pid resp ↔ ∀ name, r.BindsPin env pid resp name → env.saves = true := by
  constructor
  · intro hstops name hbinds
    by_contra hsaves
    obtain ⟨r', c, why, hrun, hc, hbad, -⟩ := hstops name hbinds (Bool.not_eq_true _ ▸ hsaves)
    have hbinds' : { r with out := [] }.BindsPin env pid resp name := hbinds
    rcases hbinds'.phase hrun c hc with hdone | hpulling
    · rw [hdone] at hbad
      cases hbad
    · rw [hbad] at hpulling
      cases hpulling
  · intro hsaved name hbinds hsaves
    rw [hsaved name hbinds] at hsaves
    cases hsaves

end

def unsavedEnv : Env := { quietEnv [[98]] with saves := false }

set_option maxRecDepth 100000 in
/-- The first Hello of a new peer: its pin is not saved, and the peer is asked for a chunk all the same. -/
theorem unsaved_pin_pulls : letI := Crates.trivial; letI := Libp2p.trivial
    ∃ (r₀ r r' : Runner) (c : PeerCtx) (resp : HelloResponse), scopedNode = some r₀ ∧
      Run NetStep r₀ (dialEvents (.fill 9)) r ∧ aheadOnBoth = .response ⟨(Bytes32.fill 9).val⟩ (.hello resp) ∧
      r.BindsPin unsavedEnv ⟨(Bytes32.fill 9).val⟩ resp [98] ∧ unsavedEnv.saves = false ∧
      NetStep r (unsavedEnv, aheadOnBoth) r' ∧ r'.peer[([98] : Bytes)]? = some c ∧ c.phase = .pulling [97] 1 ∧
      r'.out = [.request ⟨(Bytes32.fill 9).val⟩ (.pull [97] 1)] := by
  have h : letI := Crates.trivial; letI := Libp2p.trivial
      ∃ r₀ ∈ scopedNode, ∃ r ∈ netRun (fun _ _ => True) r₀ (dialEvents (.fill 9)),
        r.nameForPid [[98]] ⟨(Bytes32.fill 9).val⟩ = some [98] ∧ (∃ c ∈ r.peer[([98] : Bytes)]?, c.pin = none) ∧
        ∃ r' ∈ netRun (fun _ _ => True) r [(unsavedEnv, aheadOnBoth)],
          r'.out = [.request ⟨(Bytes32.fill 9).val⟩ (.pull [97] 1)] ∧
          ∃ c ∈ r'.peer[([98] : Bytes)]?, c.phase = .pulling [97] 1 := by
    decide +kernel
  have hkey : parseKey (showKey (.fill 9)) = some (.fill 9) := by decide +kernel
  let _ := Crates.trivial
  let _ := Libp2p.trivial
  obtain ⟨r₀, hnode, r, hr, hname, ⟨c₀, hc₀, hpin⟩, r', hr', hout, c, hc, hphase⟩ := h
  have hbinds : r.BindsPin unsavedEnv ⟨(Bytes32.fill 9).val⟩
      ⟨showKey (.fill 9), 0, [⟨[97], 1, []⟩, ⟨[99], 1, []⟩]⟩ [98] :=
    ⟨c₀, .fill 9, hname, hc₀, hpin, hkey, rfl⟩
  exact ⟨r₀, r, r', c, _, hnode, (netRun_sound hr).mono fun _ _ _ h => h.2, rfl, hbinds, rfl, netStep_of_netRun hr', hc,
    hphase, hout⟩

end BunnyMesh
