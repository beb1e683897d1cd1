import BunnyMesh.Net.Crash
import BunnyMesh.Net.Pulls

/-!
# Whom a node answers

`inbound_access` looks at the configuration of the moment and at the table of bound peer ids.  A peer id enters the table
only where a dial of this node is answered, so the table never holds a stranger that merely connected; but a pin that is
no curve point makes the look at the configuration panic before anything is answered.
-/

namespace BunnyMesh

open Std
open Exec (Triple Keeps)
open Runs (Run)

/-! ### Bindings -/

def Runner.BoundWithin (B : Bytes → PeerId → Prop) (r : Runner) : Prop :=
  ∀ (name : Bytes) c pid, r.peer[name]? = some c → c.pid = some pid → B name pid

variable {B : Bytes → PeerId → Prop}

variable {r : Runner}

theorem Runner.BoundWithin.mono {B' : Bytes → PeerId → Prop} (h : r.BoundWithin B)
    (hB : ∀ name pid, B name pid → B' name pid) : r.BoundWithin B' :=
  fun name c pid hc hpid => hB name pid (h name c pid hc hpid)

theorem Runner.boundWithin_iff :
    r.BoundWithin B ↔ r.EachPeer fun name c => ∀ pid, c.pid = some pid → B name pid :=
  ⟨fun h name c hc pid => h name c pid hc, fun h name c pid hc => h name c hc pid⟩

theorem Runner.BoundWithin.modifyPeer (h : r.BoundWithin B) {name : Bytes} {f : PeerCtx → PeerCtx}
    (hf : ∀ c pid, (f c).pid = some pid → c.pid = some pid ∨ B name pid) : (r.modifyPeer name f).BoundWithin B :=
  boundWithin_iff.2 ((boundWithin_iff.1 h).modifyPeer fun c _ hc pid hpid => (hf c pid hpid).elim (hc pid) id)

theorem routine_boundWithin (B : Bytes → PeerId → Prop) : Routine (Runner.BoundWithin B) := by
  have heach : Runner.BoundWithin B = Runner.EachPeer fun name c => ∀ pid, c.pid = some pid → B name pid :=
    funext fun r => propext Runner.boundWithin_iff
  rw [heach]
  exact routine_eachPeer (by simp) fun name c c' h hbound _ pid hpid => h pid (hbound.1 ▸ hpid)

theorem pullsFor_boundWithin (name : Bytes) : PullsFor name (Runner.BoundWithin B) (Runner.BoundWithin B) where
  books _ _ h := h
  asks _ _ _ h := h
  phase _ _ h := h.modifyPeer fun _ _ => .inl

section

variable [Libp2p]

theorem keeps_boundWithin_onHello (env : Env) (pid : PeerId) (resp : HelloResponse) :
    Keeps (Runner.BoundWithin B) (onHello env pid resp) := by
  refine (routine_boundWithin B).easing.keeps_onHello env pid resp (fun r name peerPk hname hr s hs => ?_) fun name => ?_
  · have hfound := List.find?_some hname
    obtain ⟨c, hc, -⟩ := (Option.any_eq_true ..).1 hfound
    have hB : B name pid := hr name c pid hc (Runner.pid_of_nameForPid hname hc)
    exact hs.modifyPeer fun c pid' hpid => .inr (Option.some.inj hpid ▸ hB)
  · refine Keeps.bind (Keeps.get_bind fun _ _ => Triple.modify fun _ h => h) fun _ => ?_
    exact (pullsFor_boundWithin name).triple_queuePulls _

variable [Crates]

omit [Libp2p] in
theorem keeps_boundWithin_onRecords (env : Env) (pid : PeerId) (recs : Records) :
    Keeps (Runner.BoundWithin B) (onRecords env pid recs) := by
  refine Keeps.bind ((routine_boundWithin B).easing.keeps_checkRecords env pid recs) fun res => ?_
  cases res with
  | none => exact Keeps.pure
  | some x =>
    exact (pullsFor_boundWithin x.1).triple_applyPulled (fun _ _ h => h) (fun _ h => h.modifyPeer fun _ _ => .inl)
      (triple_onStore fun _ h => h) (triple_onStore fun _ h => h)

variable {r : Runner}

omit [Libp2p] [Crates] in
theorem triple_boundWithin_onEstablished (env : Env) (pid : PeerId) (addr : Bytes) (hr : r.BoundWithin B)
    {B' : Bytes → PeerId → Prop} (hB : ∀ n p, B n p → B' n p) (hnew : ∀ n, r.dialedName env.order addr = some n → B' n pid) :
    Triple (· = r) (onEstablished env pid addr) fun _ => Runner.BoundWithin B' := by
  refine Triple.get_bind fun s hs => Triple.bind (Q := fun _ => Runner.BoundWithin B') (Triple.modify fun t ht => ?_) fun _ => ?_
  · rw [ht, hs]
    exact hr.mono hB
  rw [hs]
  cases hname : r.dialedName env.order addr with
  | none => exact Keeps.pure
  | some name =>
    refine Keeps.bind (keeps_getCtx _ name) fun c => Keeps.bind (Triple.modify fun t ht => ?_) fun _ => ?_
    · exact ht.modifyPeer fun c pid' hpid => .inr (Option.some.inj hpid ▸ hnew name hname)
    · exact Triple.ite (fun _ => (routine_boundWithin B').easing.keeps_sendHello name pid) fun _ => Keeps.pure

def Runner.Binds (r : Runner) (x : Env × NetEvent) (name : Bytes) (pid : PeerId) : Prop :=
  ∃ addr, x.2 = .established pid (some addr) ∧ r.dialedName x.1.order addr = some name

theorem NetStep.boundWithin {r' : Runner} {x : Env × NetEvent} (hstep : NetStep r x r') (hr : r.BoundWithin B) :
    r'.BoundWithin fun n p => B n p ∨ r.Binds x n p := by
  obtain ⟨env, e⟩ := x
  obtain ⟨-, hrun⟩ := hstep
  have weaken : ∀ s : Runner, s.BoundWithin B → s.BoundWithin fun n p => B n p ∨ r.Binds (env, e) n p :=
    fun s hs => hs.mono fun _ _ => .inl
  have keeps : ∀ {x : Net Unit}, Keeps (Runner.BoundWithin B) x →
      Triple (· = { r with out := [] }) x fun _ => Runner.BoundWithin fun n p => B n p ∨ r.Binds (env, e) n p :=
    fun h => h.conseq (fun s hs => hs ▸ hr) fun _ => weaken
  refine (routine_boundWithin _).easing.triple_handle (P := (· = { r with out := [] })) (fun s hs => hs ▸ weaken r hr) env
    ?_ ?_ ?_ ?_ ?_ (fun _ _ s hs => hs ▸ weaken r hr) _ rfl () r' hrun
  · exact fun _ => keeps ((routine_boundWithin B).rounds.keeps_kickAll env)
  · rintro pid addr rfl
    exact triple_boundWithin_onEstablished env pid addr (r := { r with out := [] }) hr (fun _ _ => .inl)
      fun n hn => .inr ⟨addr, rfl, hn⟩
  · intro pid req _
    refine keeps ((routine_boundWithin B).easing.keeps_onRequest env pid fun ns fromSeq _ => ?_)
    exact Keeps.bind (triple_onStore fun _ h => h) fun _ => Triple.modify fun _ h => h
  · exact fun pid resp _ => keeps (keeps_boundWithin_onHello env pid resp)
  · exact fun pid recs _ => keeps (keeps_boundWithin_onRecords env pid recs)

/-- Somewhere in the run from `r` a dial of the peer is answered by that peer id. -/
def Runner.DialedIn (r : Runner) (events : List (Env × NetEvent)) (name : Bytes) (pid : PeerId) : Prop :=
  ∃ pre x post s, events = pre ++ x :: post ∧ Run NetStep r pre s ∧ s.Binds x name pid

theorem Runner.boundWithin_of_run {r' : Runner} {events : List (Env × NetEvent)} (hrun : Run NetStep r events r')
    (hr : r.BoundWithin B) : r'.BoundWithin fun n p => B n p ∨ r.DialedIn events n p := by
  induction hrun generalizing B with
  | nil s => exact hr.mono fun _ _ => .inl
  | @cons s s1 s' x xs first rest ih =>
    refine (ih (first.boundWithin hr)).mono fun n p h => ?_
    rcases h with (hold | hbinds) | ⟨pre, y, post, t, rfl, hpre, hbinds⟩
    · exact .inl hold
    · exact .inr ⟨[], x, xs, s, rfl, .nil s, hbinds⟩
    · exact .inr ⟨x :: pre, y, post, t, rfl, .cons first hpre, hbinds⟩

end

/-! ### Access -/

section

variable [Libp2p]

def Runner.Pins (r : Runner) (pid : PeerId) : Prop :=
  ∃ p ∈ r.cfg, ∃ pk, parseKey p.pin = some pk ∧ Libp2p.peerIdOf pk = some pid

def Runner.AwaitsPin (r : Runner) (name : Bytes) (pid : PeerId) : Prop :=
  ∃ c p, r.peer[name]? = some c ∧ c.pid = some pid ∧ r.cfgPeer name = some p ∧ p.pin = []

/-- Neither the key of a configured pin, nor bound to a peer without one and asking for a Hello. -/
def Runner.Stranger (r : Runner) (pid : PeerId) (req : SyncRequest) : Prop :=
  ¬ r.Pins pid ∧ ¬ (req = .hello ∧ ∃ name, r.AwaitsPin name pid)

variable {pid : PeerId} {r : Runner}

theorem pinnedName_ok {ps : List Peer} {r' : Runner} {res : Option Bytes}
    (h : pinnedName pid ps r = .ok res r') : (∀ s, pinnedName pid ps s = .ok res s) ∧
      ((res = none ∧ ∀ p ∈ ps, ∀ pk, parseKey p.pin = some pk → Libp2p.peerIdOf pk ≠ some pid) ∨
        ∃ p ∈ ps, res = some p.name ∧ ∃ pk, parseKey p.pin = some pk ∧ Libp2p.peerIdOf pk = some pid) := by
  induction ps with
  | nil =>
    cases h
    exact ⟨fun _ => rfl, .inl ⟨rfl, nofun⟩⟩
  | cons p ps ih =>
    -- a peer whose pin is not the key of the peer id is passed over
    have next : (∀ pk, parseKey p.pin = some pk → Libp2p.peerIdOf pk ≠ some pid) →
        (∀ s, pinnedName pid (p :: ps) s = pinnedName pid ps s) → (∀ s, pinnedName pid (p :: ps) s = .ok res s) ∧
          ((res = none ∧ ∀ q ∈ p :: ps, ∀ pk, parseKey q.pin = some pk → Libp2p.peerIdOf pk ≠ some pid) ∨
            ∃ q ∈ p :: ps, res = some q.name ∧ ∃ pk, parseKey q.pin = some pk ∧ Libp2p.peerIdOf pk = some pid) := by
      intro hp hskip
      obtain ⟨hstate, hfound⟩ := ih (hskip r ▸ h)
      refine ⟨fun s => (hskip s).trans (hstate s), ?_⟩
      rcases hfound with ⟨hres, hall⟩ | ⟨q, hq, hres⟩
      · exact .inl ⟨hres, List.forall_mem_cons.2 ⟨hp, hall⟩⟩
      · exact .inr ⟨q, List.mem_cons_of_mem _ hq, hres⟩
    cases hkey : parseKey p.pin with
    | none =>
      refine next (fun pk hpk => ?_) fun s => ?_
      · rw [hkey] at hpk
        cases hpk
      · rw [pinnedName]
        by_cases hempty : p.pin.isEmpty
        · rw [if_pos hempty]
        · rw [if_neg hempty, hkey]
    | some pk =>
      have hempty : ¬ p.pin.isEmpty := by
        intro hempty
        rw [List.isEmpty_iff.1 hempty, parseKey_nil] at hkey
        cases hkey
      cases hpinned : Libp2p.peerIdOf pk with
      | none =>
        rw [pinnedName, if_neg hempty, hkey] at h
        simp only [hpinned] at h
        cases h
      | some pinned =>
        by_cases heq : pinned = pid
        · have hhit : ∀ s, pinnedName pid (p :: ps) s = .ok (some p.name) s := by
            intro s
            rw [pinnedName, if_neg hempty, hkey]
            simp [hpinned, if_pos heq]
          rw [hhit] at h
          cases h
          exact ⟨hhit, .inr ⟨p, List.mem_cons_self, rfl, pk, hkey, heq ▸ hpinned⟩⟩
        · refine next (fun k hk => ?_) fun s => ?_
          · obtain rfl : pk = k := Option.some.inj (hkey.symm.trans hk)
            rw [hpinned]
            exact fun e => heq (Option.some.inj e)
          · rw [pinnedName, if_neg hempty, hkey]
            simp [hpinned, if_neg heq]

omit [Libp2p] in
theorem Runner.awaitsPin_of_nameForPid {order : List Bytes} {name : Bytes}
    (hname : r.nameForPid order pid = some name)
    (hpin : ((r.cfgPeer name).map (·.pin.isEmpty)).getD false = true) : r.AwaitsPin name pid := by
  have hfound := List.find?_some hname
  obtain ⟨c, hc, -⟩ := (Option.any_eq_true ..).1 hfound
  cases hp : r.cfgPeer name with
  | none =>
    rw [hp] at hpin
    cases hpin
  | some p =>
    rw [hp] at hpin
    exact ⟨c, p, hc, Runner.pid_of_nameForPid hname hc, hp, List.isEmpty_iff.1 hpin⟩

/-- The access of a request that does not stop at a pin: full for the key of a pin, a Hello for a binding that awaits its
pin, none else.  It does not depend on the store. -/
theorem inboundAccess_spec (hgood : ¬ BadPin pid r.cfg) (env : Env) :
    ∃ access, (∀ world out, inboundAccess env pid { r with world := world, out := out } =
        .ok access { r with world := world, out := out }) ∧
      ((access = .deny ∧ ¬ r.Pins pid) ∨ (∃ name, access = .helloOnly name ∧ ¬ r.Pins pid ∧ r.AwaitsPin name pid) ∨
        ∃ name, access = .full name ∧ r.Pins pid) := by
  obtain ⟨res, hres⟩ := (pinnedName_spec pid r.cfg r).2 hgood
  obtain ⟨hstate, ⟨rfl, hnone⟩ | ⟨p, hp, rfl, hpin⟩⟩ := pinnedName_ok hres
  · have hpins : ¬ r.Pins pid := fun ⟨p, hp, pk, hpk, hpid⟩ => hnone p hp pk hpk hpid
    cases hname : r.nameForPid env.order pid with
    | none =>
      refine ⟨.deny, fun world out => ?_, .inl ⟨rfl, hpins⟩⟩
      have hname' : Runner.nameForPid { r with world := world, out := out } env.order pid = none := hname
      simp [inboundAccess, hstate, hname']
    | some name =>
      refine ⟨if ((r.cfgPeer name).map (·.pin.isEmpty)).getD false then .helloOnly name else .deny, fun world out => ?_, ?_⟩
      · have hname' : Runner.nameForPid { r with world := world, out := out } env.order pid = some name := hname
        simp only [inboundAccess, Exec.bind_apply, Exec.get_apply, hstate, hname', Exec.pure_apply]
        rfl
      · split
        · rename_i hempty
          exact .inr (.inl ⟨name, rfl, hpins, Runner.awaitsPin_of_nameForPid hname hempty⟩)
        · exact .inl ⟨rfl, hpins⟩
  · refine ⟨.full p.name, fun world out => ?_, .inr (.inr ⟨p.name, rfl, p, hp, hpin⟩)⟩
    simp [inboundAccess, hstate]

/-! ### Answers -/

omit [Libp2p] in
theorem servePull_ok (ns : Bytes) (fromSeq : Nat) (r : Runner) :
    ∃ recs, servePull ns fromSeq r = .ok () { r with out := r.out ++ [.respond (.records recs)] } := by
  have hworld := logRecords_world ns fromSeq maxRecords r.world
  have hreturns := logRecords_returns ns fromSeq maxRecords r.world
  simp only [servePull, Exec.bind_apply, onStore]
  cases hread : logRecords ns fromSeq maxRecords r.world with
  | ok a w =>
    rw [hread] at hworld
    cases hworld
    exact ⟨_, rfl⟩
  | error e w =>
    rw [hread] at hworld
    cases hworld
    cases e with
    | err e => exact ⟨_, rfl⟩
    | panic detail => exact absurd hread (hreturns detail _)

variable [Crates]

/-- The node answers the request with `resp`, and nothing else changes. -/
def Runner.Answers (r : Runner) (env : Env) (pid : PeerId) (req : SyncRequest) (resp : SyncResponse) : Prop :=
  handle env (.request pid req) { r with out := [] } = .ok () { r with out := [.respond resp] }

theorem Runner.Answers.unique {env : Env} {req : SyncRequest} {resp resp' : SyncResponse}
    (h : r.Answers env pid req resp) (h' : r.Answers env pid req resp') : resp = resp' := by
  have hout := h.symm.trans h'
  simp only [EStateM.Result.ok.injEq, Runner.mk.injEq, List.cons.injEq, Out.respond.injEq] at hout
  tauto

theorem Runner.answers_cases (hgood : ¬ BadPin pid r.cfg) (env : Env) (req : SyncRequest) :
    (¬ r.Pins pid ∧ ∀ world, Runner.Answers { r with world := world } env pid req .denied) ∨
      (∃ name resp, req = .hello ∧ r.AwaitsPin name pid ∧ r.Answers env pid req (.hello resp)) ∨
      (∃ resp, r.Pins pid ∧ r.Answers env pid req (.hello resp)) ∨
      ∃ recs, r.Pins pid ∧ r.Answers env pid req (.records recs) := by
  obtain ⟨access, haccess, hcases⟩ := inboundAccess_spec hgood env
  have hrun : ∀ world, handle env (.request pid req) { r with world := world, out := [] } = _ :=
    fun world => Exec.bind_ok (haccess world [])
  rcases hcases with ⟨rfl, hpins⟩ | ⟨name, rfl, hpins, hawaits⟩ | ⟨name, rfl, hpins⟩
  · exact .inl ⟨hpins, fun world => hrun world⟩
  · cases req with
    | hello => exact .inr (.inl ⟨name, _, rfl, hawaits, hrun r.world⟩)
    | pull ns fromSeq => exact .inl ⟨hpins, fun world => hrun world⟩
  · cases req with
    | hello => exact .inr (.inr (.inl ⟨_, hpins, hrun r.world⟩))
    | pull ns fromSeq =>
      obtain ⟨recs, hserve⟩ := servePull_ok ns fromSeq { r with out := [] }
      exact .inr (.inr (.inr ⟨recs, hpins, (hrun r.world).trans hserve⟩))

/-- Nothing is served to strangers: records go to the key of a configured pin, a Hello also to the peer that answered a
dial of this node for a configured peer without a pin; strangers are denied, and a denial does not look at the store. -/
structure Runner.ServesKnown (r₀ : Runner) (events : List (Env × NetEvent)) (r : Runner) (env : Env) (pid : PeerId)
    (req : SyncRequest) : Prop where
  only : ∀ r', handle env (.request pid req) { r with out := [] } = .ok () r' →
    ∃ resp, r.Answers env pid req resp ∧ r' = { r with out := [.respond resp] }
  records : ∀ recs, r.Answers env pid req (.records recs) → r.Pins pid
  hello : ∀ resp, r.Answers env pid req (.hello resp) →
    r.Pins pid ∨ ∃ name, r.AwaitsPin name pid ∧ r₀.DialedIn events name pid
  denied : r.Stranger pid req → r.Answers env pid req .denied
  unread : r.Answers env pid req .denied → ∀ world, Runner.Answers { r with world := world } env pid req .denied

/-- In every state the event loop can reach, a node serves only whom it knows, exactly if the request is not a
stranger's or meets no configured pin that is no curve point. -/
theorem strangers_denied_iff {world : World} {host : Bytes32} {cfg : List Peer} {events : List (Env × NetEvent)}
    {r : Runner} (hrun : Run NetStep (.start world host cfg) events r) (env : Env) (pid : PeerId) (req : SyncRequest) :
    Runner.ServesKnown (.start world host cfg) events r env pid req ↔ (r.Stranger pid req → ¬ BadPin pid r.cfg) := by
  have hpanics : BadPin pid r.cfg → ∀ r', handle env (.request pid req) { r with out := [] } ≠ .ok () r' := by
    intro hbad r' hok
    have hpanic := @onRequest_of_badPin _ env { r with out := [] } pid req hbad
    cases hpanic.symm.trans hok
  constructor
  · intro h hstranger hbad
    exact hpanics hbad _ (h.denied hstranger)
  · intro hgood
    by_cases hbad : BadPin pid r.cfg
    · exact ⟨fun r' h => absurd h (hpanics hbad r'), fun _ h => absurd h (hpanics hbad _),
        fun _ h => absurd h (hpanics hbad _), fun hs => absurd hbad (hgood hs), fun h => absurd h (hpanics hbad _)⟩
    · have hbound : r.BoundWithin fun n p => False ∨ (Runner.start world host cfg).DialedIn events n p := by
        refine Runner.boundWithin_of_run hrun fun name c pid hc _ => ?_
        simp [Runner.start] at hc
      have hdialed : ∀ name, r.AwaitsPin name pid → (Runner.start world host cfg).DialedIn events name pid := by
        rintro name ⟨c, p, hc, hpid, -⟩
        exact (hbound name c pid hc hpid).resolve_left id
      -- the one answer there is decides every clause
      have serves : ∀ resp, r.Answers env pid req resp → ((∃ recs, resp = .records recs) → r.Pins pid) →
          ((∃ h, resp = .hello h) → r.Pins pid ∨ ∃ name, r.AwaitsPin name pid) →
          (r.Stranger pid req → resp = .denied) →
          (resp = .denied → ∀ world, Runner.Answers { r with world := world } env pid req .denied) →
          Runner.ServesKnown (.start world host cfg) events r env pid req := by
        intro resp hresp hrecords hhello hdenied hunread
        refine ⟨fun r' h => ?_, fun recs h => ?_, fun h hh => ?_, fun hs => ?_, fun h => ?_⟩
        · rw [Runner.Answers, h] at hresp
          cases hresp
          exact ⟨resp, h, rfl⟩
        · exact hrecords ⟨recs, hresp.unique h⟩
        · refine (hhello ⟨h, hresp.unique hh⟩).imp_right ?_
          rintro ⟨name, hawaits⟩
          exact ⟨name, hawaits, hdialed name hawaits⟩
        · exact hdenied hs ▸ hresp
        · exact hunread (hresp.unique h)
      rcases Runner.answers_cases hbad env req with ⟨hpins, hdenied⟩ | ⟨name, resp, rfl, hawaits, hresp⟩ |
        ⟨resp, hpins, hresp⟩ | ⟨recs, hpins, hresp⟩
      · exact serves .denied (hdenied r.world) (by simp) (by simp) (fun _ => rfl) fun _ => hdenied
      · exact serves _ hresp (by simp) (fun _ => .inr ⟨name, hawaits⟩) (fun hs => absurd ⟨rfl, name, hawaits⟩ hs.2) (by simp)
      · exact serves _ hresp (by simp) (fun _ => .inl hpins) (fun hs => absurd hpins hs.1) (by simp)
      · exact serves _ hresp (fun _ => hpins) (by simp) (fun hs => absurd hpins hs.1) (by simp)

end

/-! ### A node with one peer -/

set_option maxRecDepth 100000 in
/-- The peer that answered the dial asks for a Hello, before it is pinned. -/
theorem strangers_denied_iff_dialed : letI := Crates.trivial; letI := Libp2p.offCurve
    ∃ r, Run NetStep (onePeerNode []) (dialEvents (.fill 9)) r ∧ r.AwaitsPin [98] ⟨(Bytes32.fill 9).val⟩ ∧
      Runner.ServesKnown (onePeerNode []) (dialEvents (.fill 9)) r (quietEnv [[98]]) ⟨(Bytes32.fill 9).val⟩ .hello := by
  have h : letI := Crates.trivial; letI := Libp2p.offCurve
      ∃ r ∈ netRun (fun _ _ => True) (onePeerNode []) (dialEvents (.fill 9)),
        (∃ c ∈ r.peer[([98] : Bytes)]?, c.pid = some ⟨(Bytes32.fill 9).val⟩) ∧ ∃ p ∈ r.cfgPeer [98], p.pin = [] := by
    decide +kernel
  let _ := Crates.trivial
  let _ := Libp2p.offCurve
  obtain ⟨r, hr, ⟨c, hc, hpid⟩, p, hp, hpin⟩ := h
  have hrun := (netRun_sound hr).mono fun _ _ _ h => h.2
  have hawaits : r.AwaitsPin [98] ⟨(Bytes32.fill 9).val⟩ := ⟨c, p, hc, hpid, hp, hpin⟩
  exact ⟨r, hrun, hawaits, (strangers_denied_iff hrun (quietEnv [[98]]) _ .hello).2 fun hs =>
    absurd ⟨rfl, _, hawaits⟩ hs.2⟩

set_option maxRecDepth 100000 in
/-- A stranger asks a node with a pin that is no curve point: it is not denied, the event loop panics. -/
theorem stranger_stops_node : letI := Crates.trivial; letI := Libp2p.offCurve
    (onePeerNode (showKey (.fill 7))).Stranger ⟨(Bytes32.fill 9).val⟩ (.pull [97] 1) ∧
      (∃ r', handle (quietEnv []) (.request ⟨(Bytes32.fill 9).val⟩ (.pull [97] 1)) (onePeerNode (showKey (.fill 7))) =
        .error "valid ed25519 pk" r') ∧
      ¬ (onePeerNode (showKey (.fill 7))).Answers (quietEnv []) ⟨(Bytes32.fill 9).val⟩ (.pull [97] 1) .denied := by
  have hkey : parseKey (showKey (.fill 7)) = some (.fill 7) := by decide +kernel
  have hrun : letI := Crates.trivial; letI := Libp2p.offCurve
      Exec.failure (handle (quietEnv []) (.request ⟨(Bytes32.fill 9).val⟩ (.pull [97] 1))
        (onePeerNode (showKey (.fill 7)))) = some "valid ed25519 pk" := by decide +kernel
  let _ := Crates.trivial
  let _ := Libp2p.offCurve
  obtain ⟨r', hpanic⟩ := Exec.failure_eq_some.1 hrun
  refine ⟨⟨?_, fun h => nomatch h.1⟩, ⟨r', hpanic⟩, fun hanswers => ?_⟩
  · rintro ⟨p, hp, pk, hpk, hpid⟩
    obtain rfl := List.mem_singleton.1 hp
    obtain rfl : Bytes32.fill 7 = pk := Option.some.inj (hkey.symm.trans hpk)
    cases hpid
  · cases hpanic.symm.trans hanswers

end BunnyMesh
