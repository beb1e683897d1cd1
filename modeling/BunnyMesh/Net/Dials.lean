import BunnyMesh.Net.Routine

/-!
# The books of dials

`pending_dials` says whose dial an address belongs to.  Handlers that start, answer or give up dials change it together
with the phases and peer ids of the peers; an invariant that survives these moves (`DialMoves`) is kept by every handler.
A handler fails only where it is handed a key that is no curve point.
-/

namespace BunnyMesh

open Std
open Exec (Triple Keeps Total)

section

variable [Libp2p]

def Runner.Configured (r : Runner) (name addr : Bytes) : Prop :=
  ∃ p ∈ r.cfg, p.name = name ∧ Libp2p.parseAddr p.addr = some addr

def PeerCtx.answered (pid : PeerId) (c : PeerCtx) : PeerCtx :=
  { c with pid := some pid, phase := if c.phase = .waitingDial then .awaitingHello else c.phase }

/-- An invariant of the event loop that the moves on dials keep. -/
structure DialMoves (I : Runner → Prop) : Prop where
  known : ∀ (r : Runner) (addr name : Bytes), I r → r.pendingDials[addr]? = some name → r.peer[name]? ≠ none
  books : ∀ r r' : Runner, r'.peer = r.peer → r'.pendingDials = r.pendingDials → r'.cfg = r.cfg → I r → I r'
  pin : ∀ (r : Runner) name pin, I r → I { r with cfg := setPin name pin r.cfg }
  context : ∀ (r : Runner) name (f : PeerCtx → PeerCtx), (∀ c, (f c).addr = c.addr) →
    (∀ c, (f c).pid = c.pid ∨ (f c).pid ≠ none) → (∀ c, (f c).phase = c.phase ∨ (f c).phase ≠ .waitingDial) →
    I r → I (r.modifyPeer name f)
  waits : ∀ (r : Runner) (name : Bytes) c, r.peer[name]? = some c →
    (c.pid = none → r.pendingDials[c.addr]? = some name) → I r →
    I (r.modifyPeer name fun c => { c with phase := .waitingDial })
  address : ∀ (r : Runner) name addr, r.Configured name addr → I r →
    I (r.modifyPeer name fun c => { c with addr := addr, roundChunks := 0 })
  added : ∀ (r : Runner) (name addr : Bytes) pin, r.Configured name addr → r.peer[name]? = none → I r →
    I { r with peer := r.peer.insert name ⟨addr, none, pin, .idle, 0⟩ }
  forgets : ∀ (r : Runner) (name : Bytes) c, r.peer[name]? = some c → c.phase ≠ .waitingDial → I r →
    I { r with pendingDials := r.pendingDials.erase c.addr }
  notes : ∀ (r : Runner) (name : Bytes) c, r.peer[name]? = some c → I r →
    I { r with pendingDials := r.pendingDials.insert c.addr name }
  failed : ∀ r, I r → I (dialsFailed r)
  answered : ∀ (r : Runner) order (addr name : Bytes) pid c, r.dialedName order addr = some name →
    r.peer[name]? = some c → I r →
    I { r with pendingDials := r.pendingDials.erase addr, peer := r.peer.insert name (c.answered pid) }

end

/-! ### Moves of the handlers -/

theorem Runner.books_modifyPeer (r : Runner) (name : Bytes) (f : PeerCtx → PeerCtx) :
    (r.modifyPeer name f).cfg = r.cfg ∧ (r.modifyPeer name f).pendingDials = r.pendingDials := by
  unfold Runner.modifyPeer
  split <;> exact ⟨rfl, rfl⟩

variable {r : Runner} {name : Bytes}

theorem Runner.peer_modifyPeer_self {c : PeerCtx} (h : r.peer[name]? = some c)
    (f : PeerCtx → PeerCtx) : (r.modifyPeer name f).peer[name]? = some (f c) := by
  rw [Runner.peer_modifyPeer, if_pos rfl, h, Option.map_some]

variable {pid : PeerId}

theorem onEstablished_of_none {env : Env} {addr : Bytes}
    (h : r.dialedName env.order addr = none) :
    onEstablished env pid addr r = .ok () { r with pendingDials := r.pendingDials.erase addr } := by
  simp [onEstablished, h]

theorem onEstablished_of_some {env : Env} {addr : Bytes} {c : PeerCtx}
    (h : r.dialedName env.order addr = some name) (hc : r.peer[name]? = some c) :
    onEstablished env pid addr r = .ok () { r with
      pendingDials := r.pendingDials.erase addr
      peer := r.peer.insert name (c.answered pid)
      out := r.out ++ if c.phase = .waitingDial then [.request pid .hello] else [] } := by
  simp only [onEstablished, Exec.bind_apply, Exec.get_apply, Exec.modify_apply, h, getCtx, hc, Exec.pure_apply,
    modifyPeer, Runner.modifyPeer]
  by_cases hw : c.phase = .waitingDial
  · simp [if_pos hw, sendHello, emit, phaseSet, modifyPeer, Runner.modifyPeer, OrdMap.insert_insert, PeerCtx.answered]
  · simp [if_neg hw, PeerCtx.answered]

theorem total_getCtx {P : Runner → Prop} (h : ∀ r, P r → r.peer[name]? ≠ none) :
    Total P (getCtx name) fun c r => P r ∧ r.peer[name]? = some c := by
  intro r hr
  obtain ⟨c, hc⟩ := Option.ne_none_iff_exists'.1 (h r hr)
  refine ⟨c, r, ?_, hr, hc⟩
  simp [getCtx, hc]

def Runner.IsBound (r : Runner) (name : Bytes) : Prop := ∃ c, r.peer[name]? = some c ∧ c.pid ≠ none

theorem Runner.IsBound.modifyPeer (h : r.IsBound name) (n : Bytes) {f : PeerCtx → PeerCtx}
    (hf : ∀ c, (f c).pid = c.pid ∨ (f c).pid ≠ none) : (r.modifyPeer n f).IsBound name := by
  obtain ⟨c, hc, hpid⟩ := h
  unfold Runner.IsBound
  rw [Runner.peer_modifyPeer]
  split
  · refine ⟨f c, by rw [hc, Option.map_some], ?_⟩
    rcases hf c with heq | hne
    · rwa [heq]
    · exact hne
  · exact ⟨c, hc, hpid⟩

theorem Runner.isBound_of_nameForPid {order : List Bytes}
    (h : r.nameForPid order pid = some name) : r.IsBound name := by
  have hfound := List.find?_some h
  cases hc : r.peer[name]? with
  | none =>
    rw [hc] at hfound
    cases hfound
  | some c => exact ⟨c, hc, by rw [Runner.pid_of_nameForPid h hc]; simp⟩

namespace DialMoves

variable [Libp2p] {I : Runner → Prop} (hI : DialMoves I)
include hI

theorem total_emit (o : Out) : Total I (emit o) fun _ => I :=
  Total.modify fun r hr => hI.books r _ rfl rfl rfl hr

theorem total_phaseSet (name : Bytes) {phase : Phase} (h : phase ≠ .waitingDial) :
    Total I (phaseSet name phase) fun _ => I :=
  Total.modify fun r hr => hI.context r name _ (fun _ => rfl) (fun _ => .inl rfl) (fun _ => .inr h) hr

theorem total_kick (env : Env) (name : Bytes) (cfg : List Peer) :
    Total (fun r => (I r ∧ r.cfg = cfg) ∧ r.peer[name]? ≠ none) (kick env name) fun _ r => I r ∧ r.cfg = cfg := by
  refine Total.get_bind fun r hr => Total.ite (fun _ => Total.pure fun s hs => hs ▸ hr.1) fun hmid => ?_
  refine Total.bind (total_getCtx fun s hs => hs ▸ hr.2) fun c => ?_
  refine Total.intro fun s ⟨hs, hc⟩ => ?_
  subst hs
  have hphase : c.phase ≠ .waitingDial := by
    intro hw
    rw [hc, Option.map_some, Option.getD_some, hw] at hmid
    exact hmid rfl
  -- from here on the peer has the context `c`, which is in no dial
  let P : Runner → Prop := fun t => (I t ∧ t.cfg = cfg) ∧ t.peer[name]? = some c
  refine Total.conseq (P := P) ?_ (fun t ht => ht ▸ ⟨hr.1, hc⟩) fun _ _ h => h
  have hemit : ∀ o, Total P (emit o) fun _ => P := fun o =>
    Total.modify fun s hs => ⟨⟨hI.books s _ rfl rfl rfl hs.1.1, hs.1.2⟩, hs.2⟩
  have hset : ∀ {phase : Phase}, phase ≠ .waitingDial → Total P (phaseSet name phase) fun _ r => I r ∧ r.cfg = cfg :=
    fun h => Total.modify fun s hs => ⟨hI.context s name _ (fun _ => rfl) (fun _ => .inl rfl) (fun _ => .inr h) hs.1.1,
      (s.books_modifyPeer name _).1.trans hs.1.2⟩
  cases hpid : c.pid with
  | some pid =>
    refine Total.ite (fun _ => Total.bind (hemit _) fun _ => Total.modify fun s hs => ?_) fun _ => ?_
    · refine ⟨hI.waits s name c hs.2 (fun hnone => ?_) hs.1.1, (s.books_modifyPeer name _).1.trans hs.1.2⟩
      rw [hpid] at hnone
      cases hnone
    · exact Total.bind (hemit _) fun _ => hset (by simp)
  | none =>
    refine Total.bind (Q := fun _ => P) (Total.modify fun s hs => ?_) fun _ => ?_
    · exact ⟨⟨hI.forgets s name c hs.2 hphase hs.1.1, hs.1.2⟩, hs.2⟩
    refine Total.ite (fun _ => Total.bind (hemit _) fun _ => ?_) fun _ => hset (by simp)
    refine Total.bind (Q := fun _ s => P s ∧ s.pendingDials[c.addr]? = some name) (Total.modify fun s hs => ?_) fun _ => ?_
    · exact ⟨⟨⟨hI.notes s name c hs.2 hs.1.1, hs.1.2⟩, hs.2⟩, by rw [OrdMap.getElem?_insert, if_pos rfl]⟩
    · refine Total.modify fun s hs => ⟨hI.waits s name c hs.1.2 (fun _ => hs.2) hs.1.1.1, ?_⟩
      exact (s.books_modifyPeer name _).1.trans hs.1.1.2

theorem total_kickPeer (env : Env) {p : Peer} {cfg : List Peer} (hp : p ∈ cfg) :
    Total (fun r => I r ∧ r.cfg = cfg) (kickPeer env p) fun _ r => I r ∧ r.cfg = cfg := by
  unfold kickPeer
  cases haddr : Libp2p.parseAddr p.addr with
  | none => exact Total.pure fun _ h => h
  | some addr =>
    have hown : ∀ r : Runner, r.cfg = cfg → r.Configured p.name addr := fun r hr => ⟨p, hr ▸ hp, rfl, haddr⟩
    refine Total.get_bind fun r hr => Total.get_bind fun s hs => ?_
    subst hs
    cases hctx : s.peer[p.name]? with
    | some ctx =>
      refine Total.bind (Q := fun _ t => (I t ∧ t.cfg = cfg) ∧ t.peer[p.name]? ≠ none) (Total.modify fun t ht => ?_)
        fun _ => Total.ite (fun _ => Total.pure fun _ h => h.1) fun _ => ?_
      · subst ht
        refine ⟨⟨hI.address t p.name addr (hown t hr.2) hr.1, (t.books_modifyPeer p.name _).1.trans hr.2⟩, ?_⟩
        rw [Runner.peer_modifyPeer_self hctx]
        simp
      · refine Total.bind (Total.modify fun t ht => ⟨⟨?_, ?_⟩, ?_⟩) fun _ => hI.total_kick env p.name cfg
        · exact hI.context t p.name _ (fun _ => rfl) (fun _ => .inl rfl) (fun _ => .inr (by simp)) ht.1.1
        · exact (t.books_modifyPeer p.name _).1.trans ht.1.2
        · obtain ⟨c, hc⟩ := Option.ne_none_iff_exists'.1 ht.2
          rw [Runner.peer_modifyPeer_self hc]
          simp
    | none =>
      refine Total.bind (Total.modify fun t ht => ?_) fun _ => hI.total_kick env p.name cfg
      subst ht
      refine ⟨⟨hI.added t p.name addr _ (hown t hr.2) hctx hr.1, hr.2⟩, ?_⟩
      simp

theorem total_kickAll (env : Env) : Total I (kickAll env) fun _ => I := by
  refine Total.bind (Q := fun _ => I) (Total.modify fun r hr => hI.books r _ rfl rfl rfl hr) fun _ => ?_
  refine Total.get_bind fun r hr => ?_
  refine Total.conseq (P := fun s => I s ∧ s.cfg = r.cfg) (Total.forM fun p hp => hI.total_kickPeer env hp)
    (fun s hs => ?_) fun _ _ h => h.1
  rw [hs]
  exact ⟨hr, rfl⟩

theorem total_idleIfBound (env : Env) (pid : PeerId) : Total I (idleIfBound env pid) fun _ => I := by
  refine Total.get_bind fun r hr => ?_
  split
  · exact Total.pure fun s hs => hs ▸ hr
  · exact (hI.total_phaseSet _ (by simp)).conseq (fun s hs => hs ▸ hr) fun _ _ h => h

theorem total_onClosed (env : Env) (pid : PeerId) : Total I (onClosed env pid) fun _ => I := by
  refine Total.get_bind fun r hr => ?_
  split
  · exact Total.pure fun s hs => hs ▸ hr
  · refine Total.get_bind fun s hs => ?_
    subst hs
    refine Total.ite (fun _ => ?_) fun _ => Total.pure fun t ht => ht ▸ hr
    exact (hI.total_phaseSet _ (by simp)).conseq (fun t ht => ht ▸ hr) fun _ _ h => h

theorem exists_dialed {r : Runner} (hr : I r) {order : List Bytes} {addr name : Bytes}
    (h : r.dialedName order addr = some name) : ∃ c, r.peer[name]? = some c := by
  refine Option.ne_none_iff_exists'.1 ?_
  rw [Runner.dialedName, Option.or_eq_some_iff] at h
  rcases h with hd | ⟨-, hfind⟩
  · exact hI.known r addr name hr hd
  · intro hnone
    have hany := List.find?_some hfind
    rw [hnone] at hany
    cases hany

theorem total_onEstablished (env : Env) (pid : PeerId) (addr : Bytes) :
    Total I (onEstablished env pid addr) fun _ => I := by
  intro r hr
  cases hname : r.dialedName env.order addr with
  | none =>
    refine ⟨(), _, onEstablished_of_none hname, hI.books r _ rfl ?_ rfl hr⟩
    rw [Runner.dialedName, Option.or_eq_none_iff] at hname
    exact OrdMap.erase_eq_self hname.1
  | some name =>
    obtain ⟨c, hc⟩ := hI.exists_dialed hr hname
    have hanswered := hI.answered r env.order addr name pid c hname hc hr
    exact ⟨(), _, onEstablished_of_some hname hc, hI.books _ _ (by rfl) (by rfl) (by rfl) hanswered⟩

/-! ### Hello -/

theorem total_sendPull (name ns : Bytes) (target : Nat) :
    Total (fun r => I r ∧ r.IsBound name) (sendPull name ns target) fun _ => I := by
  refine Total.bind (total_getCtx fun r hr => ?_) fun c => Total.intro fun r hr => ?_
  · obtain ⟨c, hc, -⟩ := hr.2
    rw [hc]
    simp
  · obtain ⟨⟨hr, c', hc', hpid⟩, hc⟩ := hr
    obtain rfl : c = c' := Option.some.inj (hc.symm.trans hc')
    obtain ⟨pid, hpid⟩ := Option.ne_none_iff_exists'.1 hpid
    rw [hpid]
    refine Total.get_bind fun s hs => Total.bind (Q := fun _ => I) ?_ fun _ => hI.total_phaseSet name (by simp)
    exact (hI.total_emit _).conseq (fun t ht => by rw [ht, hs]; exact hr) fun _ _ h => h

theorem total_queuePulls (name : Bytes) (namespaces : List NsHead) :
    Total (fun r => I r ∧ r.IsBound name) (queuePulls name namespaces) fun _ => I := by
  refine Total.get_bind fun r hr => ?_
  split
  · exact (hI.total_phaseSet name (by simp)).conseq (fun s hs => hs ▸ hr.1) fun _ _ h => h
  · refine Total.bind (Total.modify fun s hs => ?_) fun _ => hI.total_sendPull name _ _
    subst hs
    exact ⟨hI.books s _ rfl rfl rfl hr.1, hr.2⟩

theorem total_checkPin (env : Env) (name : Bytes) (pid : PeerId) (peerPk : Bytes32) :
    Total (fun r => (I r ∧ r.IsBound name) ∧
        ∀ c, r.peer[name]? = some c → c.pin = none → Libp2p.peerIdOf peerPk ≠ none)
      (checkPin env name pid peerPk) fun _ r => I r ∧ r.IsBound name := by
  let P : Runner → Prop := fun r => I r ∧ r.IsBound name
  have hset : ∀ why, Total P (phaseSet name (.bad why)) fun _ => P := fun why => Total.modify fun r hr =>
    ⟨hI.context r name _ (fun _ => rfl) (fun _ => .inl rfl) (fun _ => .inr (by simp)) hr.1,
      hr.2.modifyPeer name fun _ => .inl rfl⟩
  refine Total.bind (total_getCtx fun r hr => ?_) fun c => Total.intro fun r hr => ?_
  · obtain ⟨c, hc, -⟩ := hr.1.2
    rw [hc]
    simp
  · obtain ⟨⟨hr, hkey⟩, hc⟩ := hr
    cases hpin : c.pin with
    | none =>
      obtain ⟨advertisedPid, hpid⟩ := Option.ne_none_iff_exists'.1 (hkey c hc hpin)
      simp only [hpid]
      refine Total.ite (fun _ => ?_) fun _ => ?_
      · exact Total.bind ((hset _).conseq (fun s hs => hs ▸ hr) fun _ _ h => h) fun _ => Total.pure fun _ h => h
      · refine Total.bind (Q := fun _ => P) (Total.modify fun s hs => ?_) fun _ => ?_
        · subst hs
          exact ⟨hI.context s name _ (fun _ => rfl) (fun _ => .inr (by simp)) (fun _ => .inl rfl) hr.1,
            hr.2.modifyPeer name fun _ => .inr (by simp)⟩
        · refine Total.bind (Q := fun _ => P) ?_ fun _ => Total.pure fun _ h => h
          refine Total.bind (Q := fun _ => P) (Total.modify fun s hs => ⟨hI.pin s name _ hs.1, hs.2⟩) fun _ => ?_
          exact Total.ite (fun _ => Total.pure fun _ h => h) fun _ => hset _
    | some existing =>
      refine Total.ite (fun _ => ?_) fun _ => Total.pure fun s hs => hs ▸ hr
      exact Total.bind ((hset _).conseq (fun s hs => hs ▸ hr) fun _ _ h => h) fun _ => Total.pure fun _ h => h

end DialMoves

end BunnyMesh
