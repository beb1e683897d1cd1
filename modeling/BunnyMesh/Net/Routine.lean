import BunnyMesh.Lib.OrdMap
import BunnyMesh.Lib.Triple
import BunnyMesh.Net.Runner

/-!
# What most handlers do

Most of a handler is routine: it moves a peer between phases other than `pulling`, keeps the books of dials and queues,
and sends messages that carry no records and ask for none.  An invariant that survives these moves (`Routine`) is kept by
all handlers but those that bind a peer id or a pin, start a pull (`PullsFor`) or answer one.  One that survives them only
while no round starts (`Easing`) is kept by the same handlers but `kick_all`.
-/

namespace BunnyMesh

open Std
open Exec (Triple Keeps)

/-- A message that neither carries records nor asks for them. -/
def Out.isRoutine : Out → Bool
  | .request _ (.pull _ _) => false
  | .respond (.records _) => false
  | _ => true

/-- An invariant of the event loop that the routine moves keep. -/
structure Routine (I : Runner → Prop) : Prop where
  books : ∀ r r' : Runner, r'.world = r.world → r'.out = r.out → r'.peer = r.peer → I r → I r'
  context : ∀ r name (f : PeerCtx → PeerCtx), (∀ c, (f c).pid = c.pid ∧ (f c).pin = c.pin) →
    (∀ c, (f c).phase = c.phase ∨ (f c).phase.isPulling = false) → I r → I (r.modifyPeer name f)
  added : ∀ (r : Runner) name addr pin, I r → I { r with peer := r.peer.insert name ⟨addr, none, pin, .idle, 0⟩ }
  dialsFailed : ∀ r, I r → I (dialsFailed r)
  message : ∀ (r : Runner) o, o.isRoutine → I r → I { r with out := r.out ++ [o] }

/-- The same for an invariant that may look at the count of the round, which is kept or starts anew. -/
structure RoundRoutine (I : Runner → Prop) : Prop where
  books : ∀ r r' : Runner, r'.world = r.world → r'.out = r.out → r'.peer = r.peer →
    r'.roundApplied = r.roundApplied ∨ r'.roundApplied = 0 → I r → I r'
  context : ∀ r name (f : PeerCtx → PeerCtx), (∀ c, (f c).pid = c.pid ∧ (f c).pin = c.pin) →
    (∀ c, (f c).phase = c.phase ∨ (f c).phase.isPulling = false) → I r → I (r.modifyPeer name f)
  added : ∀ (r : Runner) name addr pin, I r → I { r with peer := r.peer.insert name ⟨addr, none, pin, .idle, 0⟩ }
  dialsFailed : ∀ r, I r → I (dialsFailed r)
  message : ∀ (r : Runner) o, o.isRoutine → I r → I { r with out := r.out ++ [o] }

/-- The same for an invariant that may look at the counts of the round, as long as no round starts and no peer comes. -/
structure Easing (I : Runner → Prop) : Prop where
  books : ∀ r r' : Runner, r'.world = r.world → r'.out = r.out → r'.peer = r.peer → r'.roundApplied = r.roundApplied →
    I r → I r'
  context : ∀ r name (f : PeerCtx → PeerCtx),
    (∀ c, (f c).pid = c.pid ∧ (f c).pin = c.pin ∧ (f c).roundChunks = c.roundChunks) →
    (∀ c, (f c).phase = c.phase ∨ (f c).phase.isPulling = false) → I r → I (r.modifyPeer name f)
  dialsFailed : ∀ r, I r → I (dialsFailed r)
  message : ∀ (r : Runner) o, o.isRoutine → I r → I { r with out := r.out ++ [o] }

variable {I : Runner → Prop}

theorem Routine.rounds (hI : Routine I) : RoundRoutine I :=
  ⟨fun r r' hworld hout hpeer _ h => hI.books r r' hworld hout hpeer h, hI.context, hI.added, hI.dialsFailed, hI.message⟩

theorem RoundRoutine.easing (hI : RoundRoutine I) : Easing I :=
  ⟨fun r r' hworld hout hpeer hcount => hI.books r r' hworld hout hpeer (.inl hcount),
    fun r name f hf => hI.context r name f fun c => ⟨(hf c).1, (hf c).2.1⟩, hI.dialsFailed, hI.message⟩

theorem Routine.easing (hI : Routine I) : Easing I := hI.rounds.easing

theorem Runner.peer_modifyPeer (r : Runner) (name : Bytes) (f : PeerCtx → PeerCtx) (n : Bytes) :
    (r.modifyPeer name f).peer[n]? = if name = n then (r.peer[n]?).map f else r.peer[n]? := by
  unfold Runner.modifyPeer
  split
  · rename_i c hc
    rw [OrdMap.getElem?_insert]
    split
    · rename_i he
      rw [← he, hc, Option.map_some]
    · rfl
  · rename_i hc
    split
    · rename_i he
      rw [← he, hc, Option.map_none]
    · rfl

def Runner.EachPeer (P : Bytes → PeerCtx → Prop) (r : Runner) : Prop :=
  ∀ (name : Bytes) c, r.peer[name]? = some c → P name c

section
variable {P : Bytes → PeerCtx → Prop} {r : Runner}

theorem Runner.EachPeer.modifyPeer (h : r.EachPeer P) {name : Bytes} {f : PeerCtx → PeerCtx}
    (hf : ∀ c, r.peer[name]? = some c → P name c → P name (f c)) : (r.modifyPeer name f).EachPeer P := by
  intro n c hc
  rw [Runner.peer_modifyPeer] at hc
  split at hc
  · rename_i he
    subst he
    obtain ⟨c', hc', rfl⟩ := Option.map_eq_some_iff.1 hc
    exact hf c' hc' (h name c' hc')
  · exact h n c hc

theorem Runner.EachPeer.added (h : r.EachPeer P) {name : Bytes} {c : PeerCtx} (hc : P name c) :
    { r with peer := r.peer.insert name c }.EachPeer P := by
  intro n c' hc'
  rw [OrdMap.getElem?_insert] at hc'
  split at hc'
  · rename_i he
    cases hc'
    exact he ▸ hc
  · exact h n c' hc'

theorem Runner.EachPeer.dialsFailed (h : r.EachPeer P)
    (hP : ∀ name (c : PeerCtx), P name c → P name { c with phase := .idle }) : (dialsFailed r).EachPeer P := by
  intro n c hc
  simp only [BunnyMesh.dialsFailed, ExtTreeMap.getElem?_map] at hc
  obtain ⟨c', hc', rfl⟩ := Option.map_eq_some_iff.1 hc
  split
  · exact hP n c' (h n c' hc')
  · exact h n c' hc'

/-- What only looks at bindings and pulls is routine. -/
theorem routine_eachPeer (hadded : ∀ name addr pin, P name ⟨addr, none, pin, .idle, 0⟩)
    (hcontext : ∀ name c c', P name c → c'.pid = c.pid ∧ c'.pin = c.pin →
      c'.phase = c.phase ∨ c'.phase.isPulling = false → P name c') : Routine (Runner.EachPeer P) where
  books r r' _ _ hpeer h := by
    unfold Runner.EachPeer
    rwa [hpeer]
  context r name f hf hphase h := h.modifyPeer fun c _ hc => hcontext name c (f c) hc (hf c) (hphase c)
  added r name addr pin h := h.added (hadded name addr pin)
  dialsFailed r h := h.dialsFailed fun name c hc => hcontext name c _ hc ⟨rfl, rfl⟩ (.inr rfl)
  message _ _ _ h := h

end

theorem Runner.world_modifyPeer (r : Runner) (name : Bytes) (f : PeerCtx → PeerCtx) :
    (r.modifyPeer name f).world = r.world ∧ (r.modifyPeer name f).out = r.out := by
  unfold Runner.modifyPeer
  split <;> exact ⟨rfl, rfl⟩

theorem Runner.pid_of_nameForPid {r : Runner} {order : List Bytes} {pid : PeerId} {name : Bytes}
    (h : r.nameForPid order pid = some name) {c : PeerCtx} (hc : r.peer[name]? = some c) : c.pid = some pid := by
  have hfound := List.find?_some h
  rw [hc, Option.any_some, beq_iff_eq] at hfound
  exact hfound

theorem triple_getCtx (P : Runner → Prop) (name : Bytes) :
    Triple P (getCtx name) fun c r => P r ∧ r.peer[name]? = some c := by
  refine Triple.get_bind fun r hr => ?_
  cases hc : r.peer[name]? with
  | some c => exact Triple.pure fun s hs => by rw [hs]; exact ⟨hr, hc⟩
  | none => exact Triple.throw

theorem keeps_getCtx (I : Runner → Prop) (name : Bytes) : Keeps I (getCtx name) :=
  (triple_getCtx I name).conseq (fun _ h => h) fun _ _ h => h.1

theorem triple_onStore {α : Type} {P Q : Runner → Prop} {x : M α}
    (h : ∀ r : Runner, P r → Q { r with world := Exec.finalState (x r.world) }) : Triple P (onStore x) fun _ => Q := by
  intro r hr a r' hrun
  have hQ := h r hr
  unfold onStore at hrun
  split at hrun
  · rename_i a' w hx
    cases hrun
    rwa [hx] at hQ
  · rename_i e w hx
    cases hrun
    rwa [hx] at hQ
  · cases hrun

theorem keeps_onRequest_of_emit [Libp2p] (hemit : ∀ o : Out, o.isRoutine → Keeps I (emit o)) (env : Env)
    (pid : PeerId) {req : SyncRequest} (hpull : ∀ ns fromSeq, req = .pull ns fromSeq → Keeps I (servePull ns fromSeq)) :
    Keeps I (onRequest env pid req) := by
  have hpinned : ∀ ps, Keeps I (pinnedName pid ps) := by
    intro ps
    induction ps with
    | nil => exact Keeps.pure
    | cons p ps ih =>
      refine Triple.ite (fun _ => ih) fun _ => ?_
      split
      · exact ih
      · split
        · exact Triple.throw
        · exact Triple.ite (fun _ => Keeps.pure) fun _ => ih
  have haccess : Keeps I (inboundAccess env pid) := by
    refine Keeps.get_bind fun r _ => Keeps.bind (hpinned r.cfg) fun res => ?_
    cases res with
    | some name => exact Keeps.pure
    | none =>
      refine Keeps.get_bind fun s _ => ?_
      split
      · exact Keeps.get_bind fun _ _ => Keeps.pure
      · exact Keeps.pure
  refine Keeps.bind haccess fun access => ?_
  split
  · exact hemit _ rfl
  · exact Keeps.get_bind fun _ _ => hemit _ rfl
  · exact hemit _ rfl
  · exact Keeps.get_bind fun _ _ => hemit _ rfl
  · exact hpull _ _ rfl

namespace Easing

variable {I : Runner → Prop} (hI : Easing I)
include hI

theorem keeps_phaseSet (name : Bytes) {phase : Phase} (h : phase.isPulling = false) : Keeps I (phaseSet name phase) :=
  Triple.modify fun r hr => hI.context r name _ (fun _ => ⟨rfl, rfl, rfl⟩) (fun _ => .inr h) hr

theorem keeps_books {f : Runner → Runner} (h : ∀ r, (f r).world = r.world ∧ (f r).out = r.out ∧ (f r).peer = r.peer ∧
    (f r).roundApplied = r.roundApplied) : Keeps I (modify f : Net Unit) :=
  Triple.modify fun r hr => hI.books r (f r) (h r).1 (h r).2.1 (h r).2.2.1 (h r).2.2.2 hr

theorem keeps_emit {o : Out} (h : o.isRoutine) : Keeps I (emit o) := Triple.modify fun r hr => hI.message r o h hr

theorem keeps_sendHello (name : Bytes) (pid : PeerId) : Keeps I (sendHello name pid) :=
  Keeps.bind (hI.keeps_emit rfl) fun _ => hI.keeps_phaseSet name rfl

theorem keeps_persistPin (env : Env) (name : Bytes) (pk : Bytes32) : Keeps I (persistPin env name pk) :=
  Keeps.bind (hI.keeps_books fun _ => ⟨rfl, rfl, rfl, rfl⟩) fun _ =>
    Triple.ite (fun _ => Keeps.pure) fun _ => hI.keeps_phaseSet name rfl

theorem keeps_idleIfBound (env : Env) (pid : PeerId) : Keeps I (idleIfBound env pid) := by
  refine Keeps.get_bind fun r _ => ?_
  split
  · exact Keeps.pure
  · exact hI.keeps_phaseSet _ rfl

theorem keeps_onClosed (env : Env) (pid : PeerId) : Keeps I (onClosed env pid) := by
  refine Keeps.get_bind fun r _ => ?_
  split
  · exact Keeps.pure
  · exact Keeps.get_bind fun _ _ => Triple.ite (fun _ => hI.keeps_phaseSet _ rfl) fun _ => Keeps.pure

theorem keeps_onRequest [Libp2p] (env : Env) (pid : PeerId) {req : SyncRequest}
    (hpull : ∀ ns fromSeq, req = .pull ns fromSeq → Keeps I (servePull ns fromSeq)) : Keeps I (onRequest env pid req) :=
  keeps_onRequest_of_emit (fun _ ho => hI.keeps_emit ho) env pid hpull

theorem keeps_onEstablished (env : Env) (pid : PeerId) (addr : Bytes)
    (hbind : ∀ (r : Runner) name, I r → I (r.modifyPeer name fun c => { c with pid := some pid })) :
    Keeps I (onEstablished env pid addr) := by
  refine Keeps.get_bind fun r _ => Keeps.bind (hI.keeps_books fun _ => ⟨rfl, rfl, rfl, rfl⟩) fun _ => ?_
  cases r.dialedName env.order addr with
  | none => exact Keeps.pure
  | some name =>
    refine Keeps.bind (keeps_getCtx _ name) fun c => Keeps.bind (Triple.modify fun s hs => hbind s name hs) fun _ => ?_
    exact Triple.ite (fun _ => hI.keeps_sendHello name pid) fun _ => Keeps.pure

theorem keeps_checkPin [Libp2p] (env : Env) (name : Bytes) (pid : PeerId) (peerPk : Bytes32)
    (hbind : ∀ r : Runner, I r → I (r.modifyPeer name fun c => { c with pin := some peerPk, pid := some pid })) :
    Keeps I (checkPin env name pid peerPk) := by
  have refused : ∀ why, Keeps I (do phaseSet name (.bad why); pure false) :=
    fun why => Keeps.bind (hI.keeps_phaseSet name rfl) fun _ => Keeps.pure
  refine Keeps.bind (keeps_getCtx _ name) fun c => ?_
  cases c.pin with
  | none =>
    cases Libp2p.peerIdOf peerPk with
    | none => exact Triple.throw
    | some advertisedPid =>
      refine Triple.ite (fun _ => refused _) fun heq => Keeps.bind (Triple.modify fun r hr => ?_) fun _ => ?_
      · obtain rfl : pid = advertisedPid := not_not.1 heq
        exact hbind r hr
      · exact Keeps.bind (hI.keeps_persistPin env name peerPk) fun _ => Keeps.pure
  | some existing => exact Triple.ite (fun _ => refused _) fun _ => Keeps.pure

theorem keeps_onHello [Libp2p] (env : Env) (pid : PeerId) (resp : HelloResponse)
    (hbind : ∀ (r : Runner) name peerPk, r.nameForPid env.order pid = some name → I r →
      ∀ s : Runner, I s → I (s.modifyPeer name fun c => { c with pin := some peerPk, pid := some pid }))
    (hpull : ∀ name, Keeps I (do noteClock env name resp.hlc; queuePulls name resp.namespaces)) :
    Keeps I (onHello env pid resp) := by
  refine Keeps.get_bind fun r hr => ?_
  cases hname : r.nameForPid env.order pid with
  | none => exact Keeps.pure
  | some name =>
    cases parseKey resp.hostId with
    | none => exact hI.keeps_phaseSet name rfl
    | some peerPk =>
      refine Keeps.bind (hI.keeps_checkPin env name pid peerPk (hbind r name peerPk hname hr)) fun ok => ?_
      exact Triple.ite (fun _ => hpull name) fun _ => Keeps.pure

/-- The events that are routine throughout leave the invariant alone; the others are left to the caller. -/
theorem triple_handle [Crates] [Libp2p] {P : Runner → Prop} (hP : ∀ r, P r → I r) (env : Env) {e : NetEvent}
    (kick : e = .kickAll → Triple P (kickAll env) fun _ => I)
    (established : ∀ pid addr, e = .established pid (some addr) → Triple P (onEstablished env pid addr) fun _ => I)
    (request : ∀ pid req, e = .request pid req → Triple P (onRequest env pid req) fun _ => I)
    (hello : ∀ pid resp, e = .response pid (.hello resp) → Triple P (onHello env pid resp) fun _ => I)
    (records : ∀ pid recs, e = .response pid (.records recs) → Triple P (onRecords env pid recs) fun _ => I)
    (edit : ∀ world, e = .storeEdit world → ∀ r, P r → I { r with world := world }) :
    Triple P (handle env e) fun _ => I := by
  have keeps : ∀ {x : Net Unit}, Keeps I x → Triple P x fun _ => I := fun h => h.conseq hP fun _ _ h => h
  cases e with
  | kickAll => exact kick rfl
  | established pid dialed =>
    cases dialed with
    | none => exact keeps Keeps.pure
    | some addr => exact established pid addr rfl
  | closed pid => exact keeps (hI.keeps_onClosed env pid)
  | dialError pid =>
    cases pid with
    | none => exact keeps (Triple.modify fun r hr => hI.dialsFailed r hr)
    | some pid => exact keeps (hI.keeps_idleIfBound env pid)
  | request pid req => exact request pid req rfl
  | response pid resp =>
    cases resp with
    | hello resp => exact hello pid resp rfl
    | records recs => exact records pid recs rfl
    | denied => exact keeps (hI.keeps_idleIfBound env pid)
  | outboundFailure pid => exact keeps (hI.keeps_idleIfBound env pid)
  | configEdit cfg => exact keeps (hI.keeps_books fun _ => ⟨rfl, rfl, rfl, rfl⟩)
  | storeEdit world => exact Triple.modify fun r hr => edit world rfl r hr

end Easing

namespace RoundRoutine

variable {I : Runner → Prop} (hI : RoundRoutine I)
include hI

theorem keeps_kick (env : Env) (name : Bytes) : Keeps I (kick env name) := by
  have hset : ∀ {phase : Phase}, phase.isPulling = false → Keeps I (phaseSet name phase) := hI.easing.keeps_phaseSet name
  refine Keeps.get_bind fun r _ => Triple.ite (fun _ => Keeps.pure) fun _ => Keeps.bind (keeps_getCtx I name) fun c => ?_
  cases c.pid with
  | some pid =>
    refine Triple.ite (fun _ => ?_) fun _ => hI.easing.keeps_sendHello name pid
    exact Keeps.bind (hI.easing.keeps_emit rfl) fun _ => hset rfl
  | none =>
    have hbooks : ∀ f : Runner → BMap Bytes Bytes, Keeps I (modify fun r => { r with pendingDials := f r } : Net Unit) :=
      fun f => hI.easing.keeps_books fun _ => ⟨rfl, rfl, rfl, rfl⟩
    refine Keeps.bind (hbooks _) fun _ => Triple.ite (fun _ => ?_) fun _ => hset rfl
    exact Keeps.bind (hI.easing.keeps_emit rfl) fun _ => Keeps.bind (hbooks _) fun _ => hset rfl

theorem keeps_kickAll [Libp2p] (env : Env) : Keeps I (kickAll env) := by
  refine Keeps.bind (Triple.modify fun r hr => hI.books r _ rfl rfl rfl (.inr rfl) hr) fun _ => ?_
  refine Keeps.get_bind fun r _ => Keeps.forM fun p _ => ?_
  unfold kickPeer
  cases Libp2p.parseAddr p.addr with
  | none => exact Keeps.pure
  | some addr =>
    refine Keeps.get_bind fun r _ => Keeps.get_bind fun s _ => ?_
    cases s.peer[p.name]? with
    | some ctx =>
      refine Keeps.bind (Triple.modify fun t ht => hI.context t p.name _ (fun _ => ⟨rfl, rfl⟩) (fun _ => .inl rfl) ht)
        fun _ => Triple.ite (fun _ => Keeps.pure) fun _ => ?_
      exact Keeps.bind (hI.easing.keeps_phaseSet p.name rfl) fun _ => hI.keeps_kick env p.name
    | none => exact Keeps.bind (Triple.modify fun t ht => hI.added t _ _ _ ht) fun _ => hI.keeps_kick env p.name

end RoundRoutine

/-! ### Pulls -/

/-- While a handler works for the peer `name`, `P` holds; it asks the peer for a chunk, or leaves it in some phase with
`I`. -/
structure PullsFor (name : Bytes) (P I : Runner → Prop) : Prop where
  books : ∀ (r : Runner) pulls, P r → P { r with pendingPulls := pulls }
  asks : ∀ (r : Runner) pid ns, P r →
    P { r with out := r.out ++ [.request pid (.pull ns (((r.world.store.head ns).map fun h => h.1 + 1).getD 1))] }
  phase : ∀ (r : Runner) phase, P r → I (r.modifyPeer name fun c => { c with phase := phase })

namespace PullsFor

variable {name : Bytes} {P I : Runner → Prop} (h : PullsFor name P I)
include h

theorem triple_phaseSet (phase : Phase) : Triple P (phaseSet name phase) fun _ => I :=
  Triple.modify fun r hr => h.phase r phase hr

theorem triple_sendPull (ns : Bytes) (target : Nat) : Triple P (sendPull name ns target) fun _ => I := by
  refine Triple.bind (keeps_getCtx P name) fun c => ?_
  cases c.pid with
  | none => exact Triple.throw
  | some pid =>
    refine Triple.get_bind fun r hr => Triple.bind (Triple.modify fun s hs => ?_) fun _ => h.triple_phaseSet _
    subst hs
    exact h.asks s pid ns hr

theorem triple_queuePulls (namespaces : List NsHead) : Triple P (queuePulls name namespaces) fun _ => I := by
  refine Triple.get_bind fun r hr => ?_
  split
  · exact (h.triple_phaseSet _).conseq (fun s hs => hs ▸ hr) fun _ _ h => h
  · refine Triple.bind (Triple.modify fun s hs => ?_) fun _ => h.triple_sendPull _ _
    exact h.books s _ (hs ▸ hr)

theorem triple_nextPull (ns : Bytes) (target localSeq : Nat) :
    Triple P (nextPull name ns target localSeq) fun _ => I := by
  refine Triple.ite (fun _ => h.triple_sendPull ns target) fun _ => Triple.get_bind fun r hr => ?_
  split
  · exact Triple.bind (Triple.modify fun s hs => h.books s _ (hs ▸ hr)) fun _ => h.triple_sendPull _ _
  · exact Triple.bind (Triple.modify fun s hs => h.books s _ (hs ▸ hr)) fun _ => h.triple_phaseSet _

theorem triple_applyPulled [Crates] {P₀ : Runner → Prop} {ns : Bytes} {target : Nat} {parsed : List Record}
    (hcount : ∀ (r : Runner) n, P r → P { r with roundApplied := n })
    (hchunk : ∀ r : Runner, P r → P (r.modifyPeer name fun c => { c with roundChunks := c.roundChunks + 1 }))
    (hcheckpoint : Keeps P (onStore checkpoint)) (happly : Triple P₀ (onStore (applySyncedBatch ns parsed)) fun _ => P) :
    Triple P₀ (applyPulled name ns target parsed) fun _ => I := by
  refine Triple.bind happly fun res => ?_
  cases res with
  | error e => exact h.triple_phaseSet _
  | ok applied =>
    refine Triple.bind (Q := fun _ => P) (Triple.modify fun r hr => hcount r _ hr) fun _ => ?_
    refine Triple.bind (Q := fun _ => P) ?_ fun _ => ?_
    · refine Keeps.get_bind fun r _ => Triple.ite (fun _ => ?_) fun _ => Keeps.pure
      exact Keeps.bind hcheckpoint fun _ => Keeps.pure
    · refine Triple.get_bind fun r hr => Triple.conseq (P := P) ?_ (fun s hs => hs ▸ hr) fun _ _ h => h
      refine Triple.ite (fun _ => h.triple_phaseSet _) fun _ => Triple.bind (keeps_getCtx P name) fun c => ?_
      refine Triple.bind (Q := fun _ => P) (Triple.modify hchunk) fun _ => ?_
      exact Triple.ite (fun _ => h.triple_phaseSet _) fun _ => h.triple_nextPull ns target _

end PullsFor

/-! ### Chunks -/

section

variable [Crates] {r : Runner} {env : Env} {pid : PeerId} {recs : Records}

/-- The chunk passes every check of `on_records`: it is of the namespace its sender is asked for, the allow-list does not
refuse it, and its records verify. -/
structure Runner.Accepts (r : Runner) (env : Env) (pid : PeerId) (recs : Records) (name ns : Bytes) (target : Nat)
    (parsed : List Record) : Prop where
  bound : r.nameForPid env.order pid = some name
  pulling : (r.peer[name]?).map PeerCtx.phase = some (.pulling ns target)
  records : recs.ns = ns
  allowed : r.allowed name ns ≠ some false
  verified : ∃ batch, decodeRecs recs.records = .ok batch ∧ verifyBatch batch = .ok parsed

theorem checkRecords_of_accepts {name ns : Bytes} {target : Nat} {parsed : List Record}
    (h : r.Accepts env pid recs name ns target parsed) :
    checkRecords env pid recs r = .ok (some (name, ns, target, parsed)) r := by
  obtain ⟨batch, hdecode, hverify⟩ := h.verified
  simp [checkRecords, h.bound, h.pulling, h.records, if_neg h.allowed, hdecode, hverify]

theorem checkRecords_cases {res : Option (Bytes × Bytes × Nat × List Record)} {r' : Runner}
    (h : checkRecords env pid recs r = .ok res r') :
    (res = none ∧ (r' = r ∨ ∃ name phase, (phase = .idle ∨ phase = .done) ∧
      r' = r.modifyPeer name fun c => { c with phase := phase })) ∨
    ∃ name ns target parsed, res = some (name, ns, target, parsed) ∧ r' = r ∧
      r.Accepts env pid recs name ns target parsed := by
  let Q : Option (Bytes × Bytes × Nat × List Record) → Runner → Prop := fun res r' =>
    (res = none ∧ (r' = r ∨ ∃ name phase, (phase = .idle ∨ phase = .done) ∧
      r' = r.modifyPeer name fun c => { c with phase := phase })) ∨
    ∃ name ns target parsed, res = some (name, ns, target, parsed) ∧ r' = r ∧
      r.Accepts env pid recs name ns target parsed
  have refuse : ∀ name {phase : Phase}, phase = .idle ∨ phase = .done →
      Triple (· = r) (do phaseSet name phase; pure none : Net _) Q := by
    intro name phase hphase
    refine Triple.bind (Q := fun _ s => s = r.modifyPeer name fun c => { c with phase := phase })
      (Triple.modify fun s hs => hs ▸ rfl) fun _ => Triple.pure fun s hs => ?_
    exact .inl ⟨rfl, .inr ⟨name, phase, hphase, hs⟩⟩
  have nothing : Triple (· = r) (pure none : Net _) Q := Triple.pure fun s hs => .inl ⟨rfl, .inl hs⟩
  suffices hcheck : Triple (· = r) (checkRecords env pid recs) Q from hcheck r rfl res r' h
  refine Triple.get_bind fun s hs => ?_
  subst hs
  cases hname : s.nameForPid env.order pid with
  | none => exact nothing
  | some name =>
    refine Triple.get_bind fun t ht => ?_
    subst ht
    split
    · rename_i ns target hphase
      refine Triple.ite (fun _ => refuse name (.inl rfl)) fun hns => Triple.get_bind fun u hu => ?_
      subst hu
      refine Triple.ite (fun _ => refuse name (.inr rfl)) fun hallowed => ?_
      split
      · exact refuse name (.inl rfl)
      · rename_i batch hdecode
        split
        · exact Triple.throw
        · exact refuse name (.inr rfl)
        · rename_i parsed hverify
          refine Triple.pure fun v hv => .inr ⟨name, ns, target, parsed, rfl, hv, ?_⟩
          exact ⟨hname, hphase, not_not.1 hns, hallowed, batch, hdecode, hverify⟩
    · exact nothing

theorem Easing.keeps_checkRecords {I : Runner → Prop} (hI : Easing I) (env : Env) (pid : PeerId)
    (recs : Records) : Keeps I (checkRecords env pid recs) := by
  intro r hr res r' hrun
  obtain ⟨-, rfl | ⟨name, phase, hphase, rfl⟩⟩ | ⟨_, _, _, _, -, rfl, -⟩ := checkRecords_cases hrun
  · exact hr
  · refine hI.context r name _ (fun _ => ⟨rfl, rfl, rfl⟩) (fun _ => .inr ?_) hr
    rcases hphase with rfl | rfl <;> rfl
  · exact hr

end

end BunnyMesh
