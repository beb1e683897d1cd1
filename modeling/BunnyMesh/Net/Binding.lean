import BunnyMesh.Net.Crash

/-!
# Whose connection it is

With a fixed configuration of peers with distinct addresses, `pending_dials` has exactly the dials to unbound peers that
are waiting, each under its own address (`Runner.Booked`).  An established connection that is found there belongs to its
peer.  One that is not found there, as after a dial to a known peer id, is given to any peer that waits and is not bound.
-/

namespace BunnyMesh

open Std
open Exec (Triple Keeps Total)
open Runs (Run guarded)

section

variable [Libp2p]

/-- No two peers have an address in common, and no peer has two. -/
structure DistinctPeers (cfg : List Peer) : Prop where
  names : ∀ p ∈ cfg, ∀ q ∈ cfg, p.name = q.name → Libp2p.parseAddr p.addr = Libp2p.parseAddr q.addr
  addrs : ∀ p ∈ cfg, ∀ q ∈ cfg, Libp2p.parseAddr p.addr ≠ none → Libp2p.parseAddr p.addr = Libp2p.parseAddr q.addr →
    p.name = q.name

variable {cfg : List Peer} {name addr : Bytes} {r : Runner}

omit [Libp2p] in
theorem mem_setPin {pin : Bytes} {q : Peer} (h : q ∈ setPin name pin cfg) :
    ∃ p ∈ cfg, q.name = p.name ∧ q.addr = p.addr := by
  induction cfg with
  | nil => cases h
  | cons p ps ih =>
    rw [setPin] at h
    split at h
    · rcases List.mem_cons.1 h with rfl | h
      · exact ⟨p, List.mem_cons_self, rfl, rfl⟩
      · exact ⟨q, List.mem_cons_of_mem _ h, rfl, rfl⟩
    · rcases List.mem_cons.1 h with rfl | h
      · exact ⟨q, List.mem_cons_self, rfl, rfl⟩
      · obtain ⟨p', hp', heq⟩ := ih h
        exact ⟨p', List.mem_cons_of_mem _ hp', heq⟩

omit [Libp2p] in
theorem exists_mem_setPin {p : Peer} (h : p ∈ cfg) (name pin : Bytes) :
    ∃ q ∈ setPin name pin cfg, q.name = p.name ∧ q.addr = p.addr := by
  induction cfg with
  | nil => cases h
  | cons p' ps ih =>
    rw [setPin]
    rcases List.mem_cons.1 h with rfl | h
    · split
      · exact ⟨_, List.mem_cons_self, rfl, rfl⟩
      · exact ⟨p, List.mem_cons_self, rfl, rfl⟩
    · split
      · exact ⟨p, List.mem_cons_of_mem _ h, rfl, rfl⟩
      · obtain ⟨q, hq, heq⟩ := ih h
        exact ⟨q, List.mem_cons_of_mem _ hq, heq⟩

theorem DistinctPeers.setPin (h : DistinctPeers cfg) (name pin : Bytes) : DistinctPeers (setPin name pin cfg) where
  names p hp q hq hname := by
    obtain ⟨p', hp', hpn, hpa⟩ := mem_setPin hp
    obtain ⟨q', hq', hqn, hqa⟩ := mem_setPin hq
    rw [hpa, hqa]
    exact h.names p' hp' q' hq' (hpn.symm.trans (hname.trans hqn))
  addrs p hp q hq hparses haddr := by
    obtain ⟨p', hp', hpn, hpa⟩ := mem_setPin hp
    obtain ⟨q', hq', hqn, hqa⟩ := mem_setPin hq
    rw [hpa] at hparses haddr
    rw [hqa] at haddr
    rw [hpn, hqn]
    exact h.addrs p' hp' q' hq' hparses haddr

theorem Runner.Configured.setPin (h : r.Configured name addr) (n pin : Bytes) :
    { r with cfg := setPin n pin r.cfg }.Configured name addr := by
  obtain ⟨p, hp, hname, haddr⟩ := h
  obtain ⟨q, hq, hqn, hqa⟩ := exists_mem_setPin hp n pin
  exact ⟨q, hq, hqn.trans hname, by rw [hqa, haddr]⟩

theorem DistinctPeers.addr_unique (h : DistinctPeers r.cfg) {addr' : Bytes}
    (ha : r.Configured name addr) (ha' : r.Configured name addr') : addr = addr' := by
  obtain ⟨p, hp, hpn, hpa⟩ := ha
  obtain ⟨q, hq, hqn, hqa⟩ := ha'
  have heq := h.names p hp q hq (hpn.trans hqn.symm)
  rw [hpa, hqa] at heq
  exact Option.some.inj heq

theorem DistinctPeers.name_unique (h : DistinctPeers r.cfg) {name' : Bytes}
    (ha : r.Configured name addr) (ha' : r.Configured name' addr) : name = name' := by
  obtain ⟨p, hp, rfl, hpa⟩ := ha
  obtain ⟨q, hq, rfl, hqa⟩ := ha'
  exact h.addrs p hp q hq (by rw [hpa]; simp) (hpa.trans hqa.symm)

/-! ### The books -/

structure Runner.Booked (r : Runner) : Prop where
  distinct : DistinctPeers r.cfg
  own : ∀ (name : Bytes) c, r.peer[name]? = some c → r.Configured name c.addr
  dials : ∀ addr name : Bytes, r.pendingDials[addr]? = some name → ∃ c, r.peer[name]? = some c ∧ c.addr = addr
  waits : ∀ (name : Bytes) c, r.peer[name]? = some c → c.phase = .waitingDial → c.pid = none →
    r.pendingDials[c.addr]? = some name

/-- A change of one context that keeps its address and does not put it to wait for a dial that is not in the books. -/
theorem Runner.Booked.modifyPeer (h : r.Booked) {f : PeerCtx → PeerCtx}
    (haddr : ∀ c, r.peer[name]? = some c → (f c).addr = c.addr)
    (hwaits : ∀ c, r.peer[name]? = some c → (f c).phase = .waitingDial → (f c).pid = none →
      r.pendingDials[c.addr]? = some name) : (r.modifyPeer name f).Booked := by
  obtain ⟨hcfg, hdials⟩ := r.books_modifyPeer name f
  have hctx : ∀ (n : Bytes) c', (r.modifyPeer name f).peer[n]? = some c' →
      ∃ c, r.peer[n]? = some c ∧ c'.addr = c.addr ∧ (c'.phase = .waitingDial → c'.pid = none →
        r.pendingDials[c.addr]? = some n) := by
    intro n c' hc'
    rw [Runner.peer_modifyPeer] at hc'
    split at hc'
    · rename_i heq
      subst heq
      obtain ⟨c, hc, rfl⟩ := Option.map_eq_some_iff.1 hc'
      exact ⟨c, hc, haddr c hc, hwaits c hc⟩
    · exact ⟨c', hc', rfl, h.waits n c' hc'⟩
  refine ⟨hcfg ▸ h.distinct, fun n c' hc' => ?_, fun a n hd => ?_, fun n c' hc' hphase hpid => ?_⟩
  · obtain ⟨c, hc, ha, -⟩ := hctx n c' hc'
    unfold Runner.Configured
    rw [ha, hcfg]
    exact h.own n c hc
  · rw [hdials] at hd
    obtain ⟨c, hc, rfl⟩ := h.dials a n hd
    rw [Runner.peer_modifyPeer]
    split
    · rename_i heq
      subst heq
      exact ⟨f c, by rw [hc, Option.map_some], haddr c hc⟩
    · exact ⟨c, hc, rfl⟩
  · obtain ⟨c, hc, ha, hwait⟩ := hctx n c' hc'
    rw [hdials, ha]
    exact hwait hphase hpid

theorem dialMoves_booked : DialMoves Runner.Booked where
  known r addr name h hd := by
    obtain ⟨c, hc, -⟩ := h.dials addr name hd
    rw [hc]
    simp
  books r r' hpeer hdials hcfg h := by
    refine ⟨hcfg ▸ h.distinct, fun n c hc => ?_, fun a n hd => ?_, fun n c hc => ?_⟩
    · unfold Runner.Configured
      rw [hcfg]
      exact h.own n c (hpeer ▸ hc)
    · rw [hpeer]
      exact h.dials a n (hdials ▸ hd)
    · rw [hdials]
      exact h.waits n c (hpeer ▸ hc)
  pin r name pin h := ⟨h.distinct.setPin name pin, fun n c hc => (h.own n c hc).setPin name pin, h.dials, h.waits⟩
  context r name f haddr hpid hphase h := by
    refine h.modifyPeer (fun c _ => haddr c) fun c hc hw hunbound => ?_
    have hw' : c.phase = .waitingDial := by
      rcases hphase c with heq | hne
      · rw [← heq, hw]
      · exact absurd hw hne
    have hunbound' : c.pid = none := by
      rcases hpid c with heq | hne
      · rw [← heq, hunbound]
      · exact absurd hunbound hne
    exact h.waits name c hc hw' hunbound'
  waits r name c hc hdial h := by
    refine h.modifyPeer (fun _ _ => rfl) fun c' hc' _ hunbound => ?_
    rw [hc] at hc'
    cases hc'
    exact hdial hunbound
  address r name addr hconf h := by
    refine h.modifyPeer (fun c hc => ?_) fun c hc => h.waits name c hc
    exact h.distinct.addr_unique hconf (h.own name c hc)
  added r name addr pin hconf hnew h := by
    refine ⟨h.distinct, fun n c hc => ?_, fun a n hd => ?_, fun n c hc hw hunbound => ?_⟩
    · rw [OrdMap.getElem?_insert] at hc
      split at hc
      · rename_i heq
        cases hc
        exact heq ▸ hconf
      · exact h.own n c hc
    · obtain ⟨c, hc, ha⟩ := h.dials a n hd
      have hne : name ≠ n := fun heq => by
        rw [← heq, hnew] at hc
        cases hc
      exact ⟨c, by rw [OrdMap.getElem?_insert, if_neg hne, hc], ha⟩
    · rw [OrdMap.getElem?_insert] at hc
      split at hc
      · cases hc
        cases hw
      · exact h.waits n c hc hw hunbound
  forgets r name c hc hphase h := by
    refine ⟨h.distinct, h.own, fun a n hd => ?_, fun n c' hc' hw hunbound => ?_⟩
    · rw [OrdMap.getElem?_erase] at hd
      split at hd
      · cases hd
      · exact h.dials a n hd
    · -- the forgotten address is another peer's
      have hne : c.addr ≠ c'.addr := fun heq => by
        have hname := h.distinct.name_unique (h.own name c hc) (heq ▸ h.own n c' hc')
        rw [← hname, hc] at hc'
        cases hc'
        exact hphase hw
      rw [OrdMap.getElem?_erase, if_neg hne]
      exact h.waits n c' hc' hw hunbound
  notes r name c hc h := by
    refine ⟨h.distinct, h.own, fun a n hd => ?_, fun n c' hc' hw hunbound => ?_⟩
    · rw [OrdMap.getElem?_insert] at hd
      split at hd
      · rename_i heq
        cases hd
        exact ⟨c, hc, heq⟩
      · exact h.dials a n hd
    · rw [OrdMap.getElem?_insert]
      split
      · rename_i heq
        rw [h.distinct.name_unique (h.own name c hc) (heq ▸ h.own n c' hc')]
      · exact h.waits n c' hc' hw hunbound
  failed r h := by
    have hctx : ∀ (n : Bytes) c', (dialsFailed r).peer[n]? = some c' →
        ∃ c, r.peer[n]? = some c ∧ c'.addr = c.addr ∧ c'.phase ≠ .waitingDial := by
      intro n c' hc'
      simp only [dialsFailed, ExtTreeMap.getElem?_map, Option.map_eq_some_iff] at hc'
      obtain ⟨c, hc, rfl⟩ := hc'
      refine ⟨c, hc, ?_⟩
      split
      · exact ⟨rfl, by simp⟩
      · exact ⟨rfl, by assumption⟩
    refine ⟨h.distinct, fun n c' hc' => ?_, fun a n hd => ?_, fun n c' hc' hw => ?_⟩
    · obtain ⟨c, hc, ha, -⟩ := hctx n c' hc'
      rw [ha]
      exact h.own n c hc
    · simp [dialsFailed] at hd
    · obtain ⟨_, -, -, hne⟩ := hctx n c' hc'
      exact absurd hw hne
  answered r order addr name pid c hdialed hc h := by
    have hctx : ∀ (n : Bytes) c', (r.peer.insert name (c.answered pid))[n]? = some c' →
        (n = name ∧ c' = c.answered pid) ∨ (n ≠ name ∧ r.peer[n]? = some c') := by
      intro n c' hc'
      rw [OrdMap.getElem?_insert] at hc'
      split at hc'
      · rename_i heq
        exact .inl ⟨heq.symm, (Option.some.inj hc').symm⟩
      · rename_i hne
        exact .inr ⟨Ne.symm hne, hc'⟩
    refine ⟨h.distinct, fun n c' hc' => ?_, fun a n hd => ?_, fun n c' hc' hw hunbound => ?_⟩
    · obtain ⟨rfl, rfl⟩ | ⟨-, hc'⟩ := hctx n c' hc'
      · exact h.own n c hc
      · exact h.own n c' hc'
    · rw [OrdMap.getElem?_erase] at hd
      split at hd
      · cases hd
      · obtain ⟨c', hc', ha⟩ := h.dials a n hd
        rw [OrdMap.getElem?_insert]
        split
        · rename_i heq
          rw [← heq, hc] at hc'
          cases hc'
          exact ⟨_, rfl, ha⟩
        · exact ⟨c', hc', ha⟩
    · obtain ⟨rfl, rfl⟩ | ⟨hne, hc'⟩ := hctx n c' hc'
      · cases hunbound
      · -- a dial of another peer is in the books under another address
        have hdial := h.waits n c' hc' hw hunbound
        have haddr : addr ≠ c'.addr := fun heq => by
          rw [Runner.dialedName, heq, hdial, Option.some_or] at hdialed
          exact hne (Option.some.inj hdialed)
        rw [OrdMap.getElem?_erase, if_neg haddr]
        exact hdial

end

/-! ### Runs with a fixed configuration -/

def NetEvent.isConfigEdit : NetEvent → Bool
  | configEdit _ => true
  | _ => false

def Runner.WaitsUnbound (r : Runner) (name : Bytes) : Prop :=
  ∃ c, r.peer[name]? = some c ∧ c.phase = .waitingDial ∧ c.pid = none

section

variable [Crates] [Libp2p] {world : World} {host : Bytes32} {cfg : List Peer} {events : List (Env × NetEvent)}
  {r : Runner}

theorem Runner.booked_of_run (hcfg : DistinctPeers cfg) (hrun : Run NetStep (.start world host cfg) events r)
    (hfixed : ∀ x ∈ events, x.2.isConfigEdit = false) : r.Booked := by
  refine hrun.invariant_of_mem (I := Runner.Booked) ?_ ?_
  · rintro ⟨env, e⟩ hmem s s' hs ⟨-, hstep⟩
    refine dialMoves_booked.keeps_handle env (fun _ cfg he => ?_) { s with out := [] } ?_ () s' hstep
    · have hfix := hfixed _ hmem
      rw [he] at hfix
      cases hfix
    · exact dialMoves_booked.books s _ rfl rfl rfl hs
  · refine ⟨hcfg, fun n c hc => ?_, fun a n hd => ?_, fun n c hc => ?_⟩
    · simp [Runner.start] at hc
    · simp [Runner.start] at hd
    · simp [Runner.start] at hc

variable {name : Bytes}

omit [Crates] [Libp2p] in
theorem Runner.waitsUnbound_of_find {order : List Bytes}
    (h : (order.find? fun n => (r.peer[n]?).any fun c => c.phase == .waitingDial && c.pid.isNone) = some name) :
    r.WaitsUnbound name := by
  have hfound := List.find?_some h
  cases hc : r.peer[name]? with
  | none =>
    rw [hc] at hfound
    cases hfound
  | some c =>
    rw [hc, Option.any_some, Bool.and_eq_true, beq_iff_eq, Option.isNone_iff_eq_none] at hfound
    exact ⟨c, hc, hfound.1, hfound.2⟩

omit [Crates] [Libp2p] in
theorem Runner.exists_find_of_waitsUnbound {order : List Bytes} (horder : order.Perm r.peer.keys)
    (h : r.WaitsUnbound name) :
    ∃ n, (order.find? fun n => (r.peer[n]?).any fun c => c.phase == .waitingDial && c.pid.isNone) = some n := by
  obtain ⟨c, hc, hw, hpid⟩ := h
  refine Option.isSome_iff_exists.1 (List.find?_isSome.2 ⟨name, ?_, ?_⟩)
  · rw [horder.mem_iff, ExtTreeMap.mem_keys, ExtTreeMap.mem_iff_isSome_getElem?, hc]
    rfl
  · rw [hc, Option.any_some, hw, hpid]
    rfl

omit [Crates] in
theorem Runner.Booked.own_of_binds (h : r.Booked) {env : Env} {pid : PeerId} {addr : Bytes} {r' : Runner}
    (hbook : r.pendingDials[addr]? ≠ none ∨ ∀ name, ¬ r.WaitsUnbound name)
    (hok : onEstablished env pid addr { r with out := [] } = .ok () r') {c c' : PeerCtx}
    (hc : r.peer[name]? = some c) (hc' : r'.peer[name]? = some c') (hset : c'.pid ≠ c.pid) :
    r.Configured name addr := by
  cases hdialed : r.dialedName env.order addr with
  | none =>
    rw [onEstablished_of_none (r := { r with out := [] }) hdialed] at hok
    cases hok
    rw [hc] at hc'
    cases hc'
    exact absurd rfl hset
  | some n =>
    -- the dial is in the books: there is no fallback peer
    have hdial : r.pendingDials[addr]? = some n := by
      rw [Runner.dialedName] at hdialed
      cases hp : r.pendingDials[addr]? with
      | some m =>
        rw [hp, Option.some_or] at hdialed
        exact hdialed
      | none =>
        rw [hp, Option.none_or] at hdialed
        rcases hbook with hne | hnone
        · exact absurd hp hne
        · exact absurd (Runner.waitsUnbound_of_find hdialed) (hnone n)
    obtain ⟨cn, hcn, ha⟩ := h.dials addr n hdial
    rw [onEstablished_of_some (r := { r with out := [] }) hdialed hcn] at hok
    cases hok
    rw [OrdMap.getElem?_insert] at hc'
    split at hc'
    · rename_i heq
      subst heq
      exact ha ▸ h.own n cn hcn
    · rw [hc] at hc'
      cases hc'
      exact absurd rfl hset

/-- A run of kicks, dials, connections, requests and responses under a fixed configuration of peers with distinct
addresses.  In its last state a completed dial binds only a peer whose own address was dialed, exactly if the address is
in the books, or no peer waits for a dial without being bound. -/
theorem established_binds_own_iff (hcfg : DistinctPeers cfg) (hrun : Run NetStep (.start world host cfg) events r)
    (hfixed : ∀ x ∈ events, x.2.isConfigEdit = false) (env : Env) (horder : env.order.Perm r.peer.keys) (pid : PeerId)
    (addr : Bytes) :
    (∀ r', handle env (.established pid (some addr)) { r with out := [] } = .ok () r' → ∀ (name : Bytes) c c',
      r.peer[name]? = some c → r'.peer[name]? = some c' → c'.pid ≠ c.pid → r.Configured name addr) ↔
      r.pendingDials[addr]? ≠ none ∨ ∀ name, ¬ r.WaitsUnbound name := by
  have hbooked := Runner.booked_of_run hcfg hrun hfixed
  constructor
  · intro hown
    by_contra hneither
    push Not at hneither
    obtain ⟨hmiss, name, hwaits⟩ := hneither
    obtain ⟨n, hfind⟩ := Runner.exists_find_of_waitsUnbound horder hwaits
    obtain ⟨c, hc, hw, hpid⟩ := Runner.waitsUnbound_of_find hfind
    have hdialed : r.dialedName env.order addr = some n := by
      rw [Runner.dialedName, hmiss, Option.none_or, hfind]
    -- the fallback binds `n`, which waits for another dial
    have hconf : r.Configured n addr := by
      refine hown _ (onEstablished_of_some (r := { r with out := [] }) hdialed hc) n c (c.answered pid) hc ?_ ?_
      · rw [OrdMap.getElem?_insert, if_pos rfl]
      · rw [hpid]
        exact Option.some_ne_none pid
    have haddr := hbooked.distinct.addr_unique hconf (hbooked.own n c hc)
    rw [haddr, hbooked.waits n c hc hw hpid] at hmiss
    cases hmiss
  · intro hbook r' hok name c c' hc hc' hset
    exact hbooked.own_of_binds hbook hok hc hc' hset

end

/-- A node with no namespaces that knows two peers and neither's key. -/
def twoPeerNode : Runner :=
  .start ⟨Store.init false, Disk.empty, []⟩ .zero [⟨[97], [1], [], none⟩, ⟨[98], [2], [], none⟩]

def lostEnv (order : List Bytes) : Env := { quietEnv order with connected := fun _ => false }

/-- The first peer is dialed, answers as `fill 9` and has nothing to offer, while the second one cannot be dialed. -/
def firstSynced : List (Env × NetEvent) :=
  [({ quietEnv [] with dials := (· == [1]) }, .kickAll),
    (quietEnv [[97], [98]], .established ⟨(Bytes32.fill 9).val⟩ (some [1])),
    (quietEnv [[97], [98]], helloFrom (.fill 9) (.fill 9))]

set_option maxRecDepth 100000 in
theorem established_binds_own_iff_first : letI := Crates.trivial; letI := Libp2p.trivial
    ∃ r, Run NetStep twoPeerNode firstSynced r ∧
      ((∀ r', handle (quietEnv [[97], [98]]) (.established ⟨(Bytes32.fill 9).val⟩ (some [1])) { r with out := [] } =
        .ok () r' → ∀ (name : Bytes) c c', r.peer[name]? = some c → r'.peer[name]? = some c' → c'.pid ≠ c.pid →
          r.Configured name [1]) ↔ r.pendingDials[([1] : Bytes)]? ≠ none ∨ ∀ name, ¬ r.WaitsUnbound name) := by
  have h : letI := Crates.trivial; letI := Libp2p.trivial
      ∃ r ∈ netRun (fun _ _ => True) twoPeerNode firstSynced, [[97], [98]].Perm r.peer.keys := by decide +kernel
  let _ := Crates.trivial
  let _ := Libp2p.trivial
  obtain ⟨r, hr, horder⟩ := h
  have hrun := (netRun_sound hr).mono fun _ _ _ h => h.2
  exact ⟨r, hrun, established_binds_own_iff ⟨by decide, by decide⟩ hrun (by decide) _ horder _ _⟩

set_option maxRecDepth 100000 in
/-- The first peer has synced and lost its connection, the second one was never reached; both are dialed.  The answer of
the first one at its own address binds the second one, and its Hello is pinned for the second one. -/
theorem reconnect_binds_other_peer : letI := Crates.trivial; letI := Libp2p.trivial
    ∃ r r' r'' c c', Run NetStep twoPeerNode (firstSynced ++ [(lostEnv [[97], [98]], .kickAll)]) r ∧
      .dialPeer ⟨(Bytes32.fill 9).val⟩ [1] ∈ r.out ∧
      handle (quietEnv [[97], [98]]) (.established ⟨(Bytes32.fill 9).val⟩ (some [1])) { r with out := [] } = .ok () r' ∧
      r.peer[([98] : Bytes)]? = some c ∧ c.pid = none ∧
      r'.peer[([98] : Bytes)]? = some c' ∧ c'.pid = some ⟨(Bytes32.fill 9).val⟩ ∧ ¬ r.Configured [98] [1] ∧
      NetStep r' (quietEnv [[98], [97]], helloFrom (.fill 9) (.fill 9)) r'' ∧
      r''.cfgPeer [98] = some ⟨[98], [2], showKey (.fill 9), none⟩ := by
  have h : letI := Crates.trivial; letI := Libp2p.trivial
      ∃ r ∈ netRun (fun _ _ => True) twoPeerNode (firstSynced ++ [(lostEnv [[97], [98]], .kickAll)]),
        .dialPeer ⟨(Bytes32.fill 9).val⟩ [1] ∈ r.out ∧
        r.cfg = [⟨[97], [1], showKey (.fill 9), none⟩, ⟨[98], [2], [], none⟩] ∧
        (∃ c ∈ r.peer[([98] : Bytes)]?, c.pid = none) ∧
        ∃ r' ∈ Exec.okState (handle (quietEnv [[97], [98]]) (.established ⟨(Bytes32.fill 9).val⟩ (some [1]))
          { r with out := [] }), (∃ c ∈ r'.peer[([98] : Bytes)]?, c.pid = some ⟨(Bytes32.fill 9).val⟩) ∧
        ∃ r'' ∈ netRun (fun _ _ => True) r' [(quietEnv [[98], [97]], helloFrom (.fill 9) (.fill 9))],
          r''.cfgPeer [98] = some ⟨[98], [2], showKey (.fill 9), none⟩ := by
    decide +kernel
  let _ := Crates.trivial
  let _ := Libp2p.trivial
  obtain ⟨r, hr, hout, hcfg, ⟨c, hc, hpid⟩, r', hr', ⟨c', hc', hpid'⟩, r'', hhello, hpin⟩ := h
  have hconf : ¬ r.Configured [98] [1] := by
    rw [Runner.Configured, hcfg]
    decide
  exact ⟨r, r', r'', c, c', (netRun_sound hr).mono fun _ _ _ h => h.2, hout, Exec.okState_eq_some.1 hr', hc,
    hpid, hc', hpid', hconf, netStep_of_netRun hhello, hpin⟩

/-! ### Resuming -/

section

variable [Crates] [Libp2p] {world : World} {host : Bytes32} {cfg : List Peer} {events : List (Env × NetEvent)}
  {r : Runner}

/-- The connection sends the peer a Hello, and the peer is awaited to answer it. -/
def Runner.Resumes (r : Runner) (env : Env) (name : Bytes) (pid : PeerId) (addr : Bytes) : Prop :=
  ∃ r' c', handle env (.established pid (some addr)) { r with out := [] } = .ok () r' ∧ .request pid .hello ∈ r'.out ∧
    r'.peer[name]? = some c' ∧ c'.phase = .awaitingHello

theorem Runner.resumes_iff_dialedName (hknown : r.DialsKnown) (env : Env) {name : Bytes} {c : PeerCtx}
    (hc : r.peer[name]? = some c) (hw : c.phase = .waitingDial) (pid : PeerId) (addr : Bytes) :
    r.Resumes env name pid addr ↔ r.dialedName env.order addr = some name := by
  constructor
  · rintro ⟨r', c', hok, -, hc', hphase⟩
    rw [handle] at hok
    -- a peer the connection is not for goes on waiting
    have hother : r'.peer[name]? ≠ r.peer[name]? := by
      intro heq
      rw [hc', hc] at heq
      cases heq
      rw [hw] at hphase
      cases hphase
    cases hdialed : r.dialedName env.order addr with
    | none =>
      rw [onEstablished_of_none (r := { r with out := [] }) hdialed] at hok
      cases hok
      exact absurd rfl hother
    | some n =>
      by_contra hne
      have hne : n ≠ name := fun heq => hne (congrArg some heq)
      obtain ⟨cn, hcn⟩ := dialMoves_dialsKnown.exists_dialed hknown hdialed
      rw [onEstablished_of_some (r := { r with out := [] }) hdialed hcn] at hok
      cases hok
      rw [OrdMap.getElem?_insert, if_neg hne] at hother
      exact hother rfl
  · intro hdialed
    refine ⟨_, c.answered pid, onEstablished_of_some (r := { r with out := [] }) hdialed hc, ?_, ?_, ?_⟩
    · simp [hw]
    · rw [OrdMap.getElem?_insert, if_pos rfl]
    · rw [PeerCtx.answered, if_pos hw]

def Runner.FirstUnbound (r : Runner) (order : List Bytes) (name : Bytes) : Prop :=
  (order.find? fun n => (r.peer[n]?).any fun c => c.phase == .waitingDial && c.pid.isNone) = some name

/-- In every state the event loop can reach, a completed dial resumes a waiting peer exactly if the books have the
address under its name, or have nothing there and it is the first unbound peer that waits: a peer that was dialed by its
peer id is bound and in no book.  Under a fixed configuration of peers with distinct addresses the books do have every
dial by address. -/
theorem reconnect_resumes_iff (hrun : Run NetStep (.start world host cfg) events r) (env : Env) {name : Bytes}
    {c : PeerCtx} (hc : r.peer[name]? = some c) (hw : c.phase = .waitingDial) (pid : PeerId) (addr : Bytes) :
    (r.Resumes env name pid addr ↔
      r.pendingDials[addr]? = some name ∨ (r.pendingDials[addr]? = none ∧ r.FirstUnbound env.order name)) ∧
    (c.pid ≠ none → ¬ r.FirstUnbound env.order name) ∧
    (DistinctPeers cfg → (∀ x ∈ events, x.2.isConfigEdit = false) → c.pid = none →
      r.pendingDials[c.addr]? = some name) := by
  refine ⟨?_, fun hbound hfirst => ?_, fun hcfg hfixed hunbound => ?_⟩
  · rw [Runner.resumes_iff_dialedName (Runner.dialsKnown_of_run hrun) env hc hw, Runner.dialedName,
      Option.or_eq_some_iff, Runner.FirstUnbound]
  · obtain ⟨c', hc', -, hpid⟩ := Runner.waitsUnbound_of_find hfirst
    rw [hc] at hc'
    cases hc'
    exact hbound hpid
  · exact (Runner.booked_of_run hcfg hrun hfixed).waits name c hc hw hunbound

end

/-- The one peer of the node has synced, and its connection is lost when the next round starts. -/
def lostEvents : List (Env × NetEvent) :=
  dialEvents (.fill 9) ++ [(quietEnv [[98]], helloFrom (.fill 9) (.fill 9)), (lostEnv [[98]], .kickAll)]

set_option maxRecDepth 100000 in
/-- The first dial is by address, and its answer resumes the peer. -/
theorem reconnect_resumes_iff_dialed : letI := Crates.trivial; letI := Libp2p.trivial
    ∃ r, Run NetStep (onePeerNode []) [(quietEnv [], .kickAll)] r ∧
      r.Resumes (quietEnv [[98]]) [98] ⟨(Bytes32.fill 9).val⟩ [120] := by
  have h : letI := Crates.trivial; letI := Libp2p.trivial
      ∃ r ∈ netRun (fun _ _ => True) (onePeerNode []) [(quietEnv [], .kickAll)],
        (∃ c ∈ r.peer[([98] : Bytes)]?, c.phase = .waitingDial) ∧ r.pendingDials[([120] : Bytes)]? = some [98] := by
    decide +kernel
  let _ := Crates.trivial
  let _ := Libp2p.trivial
  obtain ⟨r, hr, ⟨c, hc, hw⟩, hdial⟩ := h
  have hrun := (netRun_sound hr).mono fun _ _ _ h => h.2
  exact ⟨r, hrun, (reconnect_resumes_iff hrun _ hc hw _ _).1.2 (.inl hdial)⟩

set_option maxRecDepth 100000 in
/-- The peer is dialed by its peer id and answers: no Hello is sent, it goes on waiting, and the next round, with the
connection up, passes it over. -/
theorem reconnect_stays_waiting : letI := Crates.trivial; letI := Libp2p.trivial
    ∃ r r' r'', Run NetStep (onePeerNode []) lostEvents r ∧ r.out = [.dialPeer ⟨(Bytes32.fill 9).val⟩ [120]] ∧
      NetStep r (quietEnv [[98]], .established ⟨(Bytes32.fill 9).val⟩ (some [120])) r' ∧ r'.out = [] ∧
      NetStep r' (quietEnv [[98]], .kickAll) r'' ∧ r''.out = [] ∧
      (r.peer[([98] : Bytes)]?).map (·.phase) = some .waitingDial ∧
      (r'.peer[([98] : Bytes)]?).map (·.phase) = some .waitingDial ∧
      (r''.peer[([98] : Bytes)]?).map (·.phase) = some .waitingDial := by
  have h : letI := Crates.trivial; letI := Libp2p.trivial
      ∃ r ∈ netRun (fun _ _ => True) (onePeerNode []) lostEvents,
        r.out = [.dialPeer ⟨(Bytes32.fill 9).val⟩ [120]] ∧ (r.peer[([98] : Bytes)]?).map (·.phase) = some .waitingDial ∧
        ∃ r' ∈ netRun (fun _ _ => True) r [(quietEnv [[98]], .established ⟨(Bytes32.fill 9).val⟩ (some [120]))],
          r'.out = [] ∧ (r'.peer[([98] : Bytes)]?).map (·.phase) = some .waitingDial ∧
          ∃ r'' ∈ netRun (fun _ _ => True) r' [(quietEnv [[98]], .kickAll)],
            r''.out = [] ∧ (r''.peer[([98] : Bytes)]?).map (·.phase) = some .waitingDial := by
    decide +kernel
  let _ := Crates.trivial
  let _ := Libp2p.trivial
  obtain ⟨r, hr, hout, hw, r', hr', hout', hw', r'', hr'', hout'', hw''⟩ := h
  exact ⟨r, r', r'', (netRun_sound hr).mono fun _ _ _ h => h.2, hout, netStep_of_netRun hr', hout',
    netStep_of_netRun hr'', hout'', hw, hw', hw''⟩

end BunnyMesh
