import BunnyMesh.Net.Pinned
import BunnyMesh.Net.Pulls
import BunnyMesh.Storage.Runs
import Mathlib.Data.List.Infix

/-!
# Two nodes

Two nodes that sync with each other: each writes to its own store and handles its own events, and what one of them sends
is in flight until it is delivered to the other one or lost.  Once nothing is in flight and neither node would pull a
namespace from the other, their logs of it hold the same records, provided no node writes while it is behind
(`Mesh.InTurn`).
-/

namespace BunnyMesh

open Std
open Runs (Run guarded)
open Exec (Triple Keeps)
open Shipping (Comparable)

/-! ### The mesh -/

inductive Side where
  | left
  | right
deriving DecidableEq

instance Side.decidableForall (p : Side → Prop) [DecidablePred p] : Decidable (∀ s, p s) :=
  decidable_of_iff (p .left ∧ p .right) ⟨fun h s => s.casesOn h.1 h.2, fun h => ⟨h .left, h .right⟩⟩

def Side.other : Side → Side
  | left => right
  | right => left

@[simp] theorem Side.other_ne (s : Side) : s.other ≠ s := by cases s <;> decide

@[simp] theorem Side.other_other (s : Side) : s.other.other = s := by cases s <;> rfl

theorem Side.eq_or (s t : Side) : t = s ∨ t = s.other := by cases s <;> cases t <;> decide

inductive Message where
  | request (req : SyncRequest)
  | response (resp : SyncResponse)
deriving DecidableEq

/-- A message on its way to one of the nodes. -/
structure Packet where
  dest : Side
  body : Message
deriving DecidableEq

structure Mesh where
  node : Side → Runner
  flight : List Packet

/-- What a node hands to the swarm reaches the other node where it is meant for it. -/
def outgoing (pids : Side → PeerId) (s : Side) : Out → Option Packet
  | .request pid req => if pid = pids s.other then some ⟨s.other, .request req⟩ else none
  | .respond resp => some ⟨s.other, .response resp⟩
  | .dial _ | .dialPeer _ _ => none

/-- A packet as an event of the node it reaches, on the connection of the other one. -/
def Packet.event (pids : Side → PeerId) (p : Packet) : NetEvent :=
  match p.body with
  | .request req => .request (pids p.dest.other) req
  | .response resp => .response (pids p.dest.other) resp

def NetEvent.isOwn : NetEvent → Bool
  | kickAll | established _ _ | closed _ | dialError _ | outboundFailure _ | configEdit _ => true
  | request _ _ | response _ _ | storeEdit _ => false

inductive MeshEvent where
  | write (s : Side) (c : Cmd)
  | own (s : Side) (env : Env) (e : NetEvent)
  | deliver (p : Packet) (env : Env)
  | lose (p : Packet)

namespace Mesh

def handled (m : Mesh) (pids : Side → PeerId) (s : Side) (r : Runner) : Mesh :=
  ⟨Function.update m.node s r, m.flight ++ r.out.filterMap (outgoing pids s)⟩

def drop (m : Mesh) (p : Packet) : Mesh := { m with flight := m.flight.erase p }

end Mesh

section

variable [Crates]

/-- The mesh takes a step: a local write, an event of one node, or a message delivered or lost. -/
inductive MeshStep [Libp2p] (pids : Side → PeerId) (m : Mesh) : MeshEvent → Mesh → Prop where
  | write {s : Side} {c : Cmd} {w : World} (writes : c.written.isSome) (valid : c.Valid (m.node s).world.store)
      (step : Step (m.node s).world c w) :
      MeshStep pids m (.write s c) (m.handled pids s { m.node s with world := w, out := [] })
  | own {s : Side} {env : Env} {e : NetEvent} {r : Runner} (isOwn : e.isOwn) (step : NetStep (m.node s) (env, e) r) :
      MeshStep pids m (.own s env e) (m.handled pids s r)
  | deliver {p : Packet} {env : Env} {r : Runner} (inFlight : p ∈ m.flight)
      (step : NetStep (m.node p.dest) (env, p.event pids) r) :
      MeshStep pids m (.deliver p env) ((m.drop p).handled pids p.dest r)
  | lose {p : Packet} (inFlight : p ∈ m.flight) : MeshStep pids m (.lose p) (m.drop p)

def Mesh.seq (m : Mesh) (s : Side) (ns : Bytes) : Nat := (((m.node s).world.store.head ns).map (·.1)).getD 0

def World.versions (w : World) (ns : Bytes) : List (UInt8 × UInt64 × Bytes32) :=
  ((Exec.okResult (logVersions ns w)).map (·.1)).getD []

/-- Both nodes have just started on stores that host `ns`, with nothing in its log. -/
def Mesh.Start (ns : Bytes) (m : Mesh) : Prop :=
  m.flight = [] ∧ ∀ s, (∃ world host cfg, m.node s = Runner.start world host cfg) ∧
    (∃ w₀ cs, Opened w₀ ∧ Run (guarded (fun w c => c.Valid w.store) Step) w₀ cs (m.node s).world) ∧
    (m.node s).world.store.head ns = some (0, .zero)

/-- Nothing is in flight, and no Hello would make a node pull `ns` from the other one. -/
def Mesh.Quiescent (ns : Bytes) (m : Mesh) : Prop :=
  m.flight = [] ∧ ∀ s, ∀ nh ∈ (m.node (Side.other s)).world.store.nsHeads, nh.ns = ns →
    pullTarget (m.node s).world.store nh = none

/-- A local write to `ns` happens where the node is not behind the other one, and its record is a new one. -/
def Mesh.InTurn (ns : Bytes) (m : Mesh) : MeshEvent → Prop
  | .write s c => ∀ x ∈ c.written, x.1 = ns →
      m.seq s.other ns ≤ m.seq s ns ∧ versionKey x.2 ∉ (m.node s).world.versions ns
  | .own _ _ _ | .deliver _ _ | .lose _ => True

/-! ### The invariant -/

abbrev logAt (g : Side → History) (ns : Bytes) (s : Side) : List Record := (g s).records ns

/-- What may be in flight: pulls from no further than behind the log of their sender, and chunks of the log of their
sender that start within the log of their receiver. -/
def Packet.Honest (ns : Bytes) (g : Side → History) (p : Packet) : Prop :=
  match p.body with
  | .request req => req.Asks ns (logAt g ns p.dest.other).length
  | .response resp => ∃ start ≤ (logAt g ns p.dest).length, resp.Answers ns (logAt g ns p.dest.other) start

/-- The histories behind the two stores: of the two logs of `ns` one is an initial part of the other, no identity occurs
twice in a log, and what is in flight is honest. -/
structure Mesh.Agreeing (ns : Bytes) (m : Mesh) (g : Side → History) : Prop where
  attached : ∀ s, Attached (m.node s).world (g s)
  hosted : ∀ s, (m.node s).world.store.policies[ns]? ≠ none
  comparable : ∀ s, Comparable (logAt g ns s) (logAt g ns s.other)
  nodup : ∀ s, ((logAt g ns s).map versionKey).Nodup
  honest : ∀ p ∈ m.flight, p.Honest ns g

variable {pids : Side → PeerId} {m m' : Mesh} {ns : Bytes} {g g' : Side → History}

theorem Packet.Honest.grow {p : Packet} (h : p.Honest ns g) (hgrow : ∀ s, logAt g ns s <+: logAt g' ns s) :
    p.Honest ns g' := by
  obtain ⟨dest, body⟩ := p
  have hdest := (hgrow dest).length_le
  have hother := (hgrow dest.other).length_le
  cases body with
  | request req =>
    cases req with
    | hello => trivial
    | pull n fromSeq =>
      intro hn
      obtain ⟨h1, h2⟩ := h hn
      exact ⟨h1, by dsimp only at h2 ⊢; omega⟩
  | response resp =>
    obtain ⟨start, hstart, hanswers⟩ := h
    refine ⟨start, hstart.trans hdest, ?_⟩
    cases resp with
    | hello | denied => trivial
    | records recs =>
      intro hns
      obtain ⟨rs, hcarries, hpre⟩ := hanswers hns
      exact ⟨rs, hcarries, hpre.trans ((hgrow dest.other).drop start)⟩

variable {s : Side} {start : Nat}

theorem Mesh.Agreeing.advance (h : m.Agreeing ns g) {g' : History} {r : Runner}
    (hr : Steady ns start g' r) (hstart : start ≤ (logAt g ns s.other).length) (hgrow : logAt g ns s <+: g'.records ns)
    (hcomp : Comparable (g'.records ns) (logAt g ns s.other)) (hnodup : ((g'.records ns).map versionKey).Nodup) :
    (m.handled pids s r).Agreeing ns (Function.update g s g') := by
  have hself : logAt (Function.update g s g') ns s = g'.records ns := by simp [logAt]
  have hother : logAt (Function.update g s g') ns s.other = logAt g ns s.other := by simp [logAt]
  have hgrows : ∀ t, logAt g ns t <+: logAt (Function.update g s g') ns t := by
    intro t
    rcases s.eq_or t with rfl | rfl
    · rw [hself]
      exact hgrow
    · rw [hother]
  refine ⟨fun t => ?_, fun t => ?_, fun t => ?_, fun t => ?_, fun p hp => ?_⟩
  · rcases s.eq_or t with rfl | rfl
    · simpa [Mesh.handled] using hr.attached
    · simpa [Mesh.handled] using h.attached s.other
  · rcases s.eq_or t with rfl | rfl
    · simpa [Mesh.handled] using hr.hosted
    · simpa [Mesh.handled] using h.hosted s.other
  · rcases s.eq_or t with rfl | rfl
    · rw [hself, hother]
      exact hcomp
    · rw [Side.other_other, hself, hother]
      exact hcomp.symm
  · rcases s.eq_or t with rfl | rfl
    · rw [hself]
      exact hnodup
    · rw [hother]
      exact h.nodup s.other
  · rcases List.mem_append.1 hp with hold | hnew
    · exact (h.honest p hold).grow hgrows
    · -- what the node has just sent
      obtain ⟨o, ho, hout⟩ := List.mem_filterMap.1 hnew
      have hhonest := hr.honest o ho
      cases o with
      | request pid req =>
        simp only [outgoing] at hout
        split_ifs at hout
        cases hout
        change req.Asks ns (logAt _ ns s.other.other).length
        rw [Side.other_other, hself]
        exact hhonest
      | respond resp =>
        cases hout
        refine ⟨start, ?_, ?_⟩
        · rw [hother]
          exact hstart
        · rw [Side.other_other, hself]
          exact hhonest
      | dial | dialPeer => cases hout

theorem Mesh.Agreeing.drop (h : m.Agreeing ns g) (p : Packet) : (m.drop p).Agreeing ns g :=
  ⟨h.attached, h.hosted, h.comparable, h.nodup, fun q hq => h.honest q (List.mem_of_mem_erase hq)⟩

theorem Mesh.Agreeing.stay (h : m.Agreeing ns g) {r : Runner} (hr : Steady ns start (g s) r)
    (hstart : start ≤ (logAt g ns s.other).length) : (m.handled pids s r).Agreeing ns g := by
  have hadvance : (m.handled pids s r).Agreeing ns (Function.update g s (g s)) :=
    h.advance hr hstart List.prefix_rfl (h.comparable s) (h.nodup s)
  rwa [Function.update_eq_self] at hadvance

theorem Mesh.Agreeing.steady (h : m.Agreeing ns g) (s : Side) (start : Nat) :
    Steady ns start (g s) { m.node s with out := [] } :=
  ⟨h.attached s, h.hosted s, by simp⟩

/-! ### Steps -/

theorem RoundRoutine.keeps_own [Libp2p] {I : Runner → Prop} (hI : RoundRoutine I)
    (hbind : ∀ (r : Runner) name (f : PeerCtx → PeerCtx), (∀ c, (f c).phase = c.phase) → I r → I (r.modifyPeer name f))
    (env : Env) {e : NetEvent} (he : e.isOwn) : Keeps I (handle env e) := by
  refine hI.easing.triple_handle (fun _ h => h) env (fun _ => hI.keeps_kickAll env) (fun pid addr _ => ?_) ?_ ?_ ?_ ?_
  · exact hI.easing.keeps_onEstablished env pid addr fun r name hr => hbind r name _ (fun _ => rfl) hr
  all_goals
    intros
    subst_vars
    cases he

theorem keeps_steady_own [Libp2p] {g : History} (env : Env) {e : NetEvent} (he : e.isOwn) :
    Keeps (Steady ns start g) (handle env e) :=
  routine_steady.rounds.keeps_own (fun _ name f _ h => h.modifyPeer name f) env he

theorem Mesh.Agreeing.write (h : m.Agreeing ns g) {c : Cmd} {w : World} (hw : c.written.isSome)
    (hc : c.Valid (m.node s).world.store) (hturn : m.InTurn ns (.write s c)) (hs : Step (m.node s).world c w) :
    ∃ g', (m.handled pids s { m.node s with world := w, out := [] }).Agreeing ns g' := by
  obtain ⟨⟨n, record⟩, hx⟩ := Option.isSome_iff_exists.1 hw
  rcases hs.cases_write (h.attached s) hc hx with rfl | ⟨change, p, hrecord, hlogged⟩
  · exact ⟨g, h.stay (h.steady s 0) (Nat.zero_le _)⟩
  · obtain ⟨hat, hpol, _⟩ := hlogged.spec (h.attached s)
    have hsteady : Steady ns 0 ((g s).log n change.record) { m.node s with world := w, out := [] } :=
      ⟨hat, by rw [hpol]; exact h.hosted s, by simp⟩
    by_cases hn : n = ns
    · subst hn
      obtain ⟨hseq, hfresh⟩ := hturn _ hx rfl
      have hlog : ((g s).log n change.record).records n = logAt g n s ++ [record] := by
        simp [History.log, hrecord]
      have hpre : logAt g n s.other <+: logAt g n s := by
        refine (h.comparable s).symm.initial_of_length_le ?_
        obtain ⟨_, hhead⟩ := (h.attached s).head_length (h.hosted s)
        obtain ⟨_, hhead'⟩ := (h.attached s.other).head_length (h.hosted s.other)
        simpa [Mesh.seq, hhead, hhead'] using hseq
      have hnew : versionKey record ∉ (logAt g n s).map versionKey := by
        obtain ⟨q, hq⟩ := Option.ne_none_iff_exists'.1 (h.hosted s)
        rw [World.versions, (h.attached s).logVersions_spec hq] at hfresh
        exact hfresh
      refine ⟨_, h.advance hsteady (Nat.zero_le _) ?_ ?_ ?_⟩
      · rw [hlog]
        exact List.prefix_append _ _
      · rw [hlog]
        exact .inr (hpre.trans (List.prefix_append _ _))
      · rw [hlog, List.map_append, List.nodup_append]
        refine ⟨h.nodup s, by simp, fun a ha b hb => ?_⟩
        obtain rfl : b = versionKey record := by simpa using hb
        exact fun e => hnew (e ▸ ha)
    · have hlog : ((g s).log n change.record).records ns = logAt g ns s := Function.update_of_ne (Ne.symm hn) ..
      refine ⟨_, h.advance hsteady (Nat.zero_le _) ?_ ?_ ?_⟩ <;> rw [hlog]
      · exact h.comparable s
      · exact h.nodup s

section

variable [Libp2p]

variable {s : Side} {env : Env} {r : Runner}

theorem Mesh.Agreeing.handles (h : m.Agreeing ns g) {e : NetEvent} {start : Nat}
    (hstart : start ≤ (logAt g ns s.other).length) (hkeeps : Keeps (Steady ns start (g s)) (handle env e))
    (hs : NetStep (m.node s) (env, e) r) : (m.handled pids s r).Agreeing ns g :=
  h.stay (hkeeps _ (h.steady s start) () r hs.2) hstart

theorem Mesh.Agreeing.deliver_request (h : m.Agreeing ns g) {req : SyncRequest}
    (hasks : req.Asks ns (logAt g ns s.other).length) {pid : PeerId}
    (hs : NetStep (m.node s) (env, .request pid req) r) : (m.handled pids s r).Agreeing ns g := by
  by_cases hpull : ∃ fromSeq, req = .pull ns fromSeq
  · obtain ⟨fromSeq, rfl⟩ := hpull
    obtain ⟨hlow, hhigh⟩ := hasks rfl
    have hkeeps : Keeps (Steady ns (fromSeq - 1) (g s)) (onRequest env pid (.pull ns fromSeq)) := by
      refine routine_steady.easing.keeps_onRequest env pid ?_
      rintro n f ⟨⟩
      exact keeps_steady_servePull fun _ => by omega
    exact h.handles (by omega) hkeeps hs
  · refine h.handles (Nat.zero_le _) (routine_steady.easing.keeps_onRequest env pid ?_) hs
    rintro n f rfl
    exact keeps_steady_servePull fun hn => absurd ⟨f, hn ▸ rfl⟩ hpull

theorem Mesh.Agreeing.deliver_response (h : m.Agreeing ns g) {resp : SyncResponse} {start : Nat}
    (hstart : start ≤ (logAt g ns s).length) (hanswers : resp.Answers ns (logAt g ns s.other) start) {pid : PeerId}
    (hs : NetStep (m.node s) (env, .response pid resp) r) :
    ∃ g', (m.handled pids s r).Agreeing ns g' := by
  cases resp with
  | hello resp => exact ⟨g, h.handles (Nat.zero_le _) (keeps_steady_onHello env pid resp) hs⟩
  | denied => exact ⟨g, h.handles (Nat.zero_le _) (routine_steady.easing.keeps_idleIfBound env pid) hs⟩
  | records recs =>
    rcases triple_steady_onRecords env pid recs _ (h.steady s 0) () r hs.2 with hsteady | ⟨rs, g', hcarries, hlog, hsteady⟩
    · exact ⟨g, h.stay hsteady (Nat.zero_le _)⟩
    · refine ⟨_, h.advance hsteady (Nat.zero_le _) ?_ ?_ ?_⟩ <;> rw [hlog, absorbed] <;> split_ifs with hns
      · exact List.prefix_append _ _
      · exact List.prefix_rfl
      all_goals try exact h.comparable s
      all_goals try exact h.nodup s
      all_goals
        obtain ⟨rs', hcarries', hpre⟩ := hanswers hns
        obtain rfl := hcarries.unique hcarries'
        have habsorb := Shipping.comparable_absorb (h.comparable s) (h.nodup s) (h.nodup s.other) hstart hpre
      · exact habsorb.1
      · exact habsorb.2

theorem MeshStep.agreeing {e : MeshEvent} (h : m.Agreeing ns g) (hturn : m.InTurn ns e) (hs : MeshStep pids m e m') :
    ∃ g', m'.Agreeing ns g' := by
  cases hs with
  | write writes valid step => exact h.write writes valid hturn step
  | own isOwn step => exact ⟨g, h.handles (Nat.zero_le _) (keeps_steady_own _ isOwn) step⟩
  | @deliver p env r inFlight step =>
    obtain ⟨dest, body⟩ := p
    have hhonest := h.honest _ inFlight
    cases body with
    | request req => exact ⟨g, (h.drop _).deliver_request hhonest step⟩
    | response resp =>
      obtain ⟨start, hstart, hanswers⟩ := hhonest
      exact (h.drop _).deliver_response hstart hanswers step
  | lose inFlight => exact ⟨g, h.drop _⟩

end

/-! ### Agreement -/

theorem Mesh.Start.agreeing (h : m.Start ns) : ∃ g, m.Agreeing ns g := by
  obtain ⟨hflight, hnodes⟩ := h
  have hsound : ∀ s, ∃ g, Sound ((m.node s).world, g) := by
    intro s
    obtain ⟨_, ⟨w0, cs, hopened, hrun⟩, _⟩ := hnodes s
    exact hopened.run_sound (fun _ _ h => h) hrun
  choose g hg using hsound
  have hhosted : ∀ s, (m.node s).world.store.policies[ns]? ≠ none := by
    intro s hp
    have hhead := (hnodes s).2.2
    rw [(hg s).running.toAttached.head_none hp] at hhead
    cases hhead
  have hlog : ∀ s, logAt g ns s = [] := by
    intro s
    obtain ⟨hash, hhead⟩ := (hg s).running.toAttached.head_length (hhosted s)
    rw [(hnodes s).2.2] at hhead
    exact List.length_eq_zero_iff.1 (Prod.mk.inj (Option.some.inj hhead)).1.symm
  refine ⟨g, fun s => (hg s).running.toAttached, hhosted, fun s => ?_, fun s => ?_, by rw [hflight]; simp⟩
  · rw [hlog, hlog]
    exact .inl List.prefix_rfl
  · rw [hlog]
    exact List.nodup_nil

theorem Mesh.Agreeing.log_eq (h : m.Agreeing ns g) (hq : m.Quiescent ns) : logAt g ns .left = logAt g ns .right := by
  have hle : ∀ s : Side, (logAt g ns s.other).length ≤ (logAt g ns s).length := by
    intro s
    obtain ⟨hash, hhead⟩ := (h.attached s).head_length (h.hosted s)
    obtain ⟨hash', hhead'⟩ := (h.attached s.other).head_length (h.hosted s.other)
    obtain ⟨log, hlog, hheads⟩ := Option.map_eq_some_iff.1 hhead'
    have hmem : (⟨ns, log.seq, ByteCodec.hexEncode log.head.val⟩ : NsHead) ∈ (m.node s.other).world.store.nsHeads := by
      refine List.mem_filterMap.2 ⟨ns, ?_, by rw [hlog]; rfl⟩
      rw [ExtTreeMap.mem_keys, ← ExtTreeMap.contains_iff_mem, ExtTreeMap.contains_eq_isSome_getElem?,
        Option.isSome_iff_ne_none]
      exact h.hosted s.other
    have hnone := (pullTarget_eq_none ?_ hhead).1 (hq.2 s _ hmem rfl)
    · rw [(Prod.mk.inj hheads).1] at hnone
      exact hnone
    · exact Option.isSome_iff_ne_none.2 (h.hosted s)
  have hpre := (h.comparable .left).initial_of_length_le (hle .right)
  exact hpre.eq_of_length_le (hle .left)

/-- In a run in which no node writes to `ns` out of turn, once nothing is in flight and neither node would pull `ns` from
the other one, both logs of `ns` hold the same identities. -/
theorem quiescent_mesh_agrees [Libp2p] {m₀ : Mesh} {es : List MeshEvent} (hstart : m₀.Start ns)
    (hrun : Run (guarded (Mesh.InTurn ns) (MeshStep pids)) m₀ es m) (hq : m.Quiescent ns) :
    ∃ left right, logVersions ns (m.node .left).world = .ok left (m.node .left).world ∧
      logVersions ns (m.node .right).world = .ok right (m.node .right).world ∧ ∀ id, id ∈ left ↔ id ∈ right := by
  obtain ⟨g, hg⟩ := hrun.invariant (I := fun m => ∃ g, m.Agreeing ns g)
    (fun _ _ _ ⟨_, h⟩ hstep => hstep.2.agreeing h hstep.1) hstart.agreeing
  obtain ⟨p, hp⟩ := Option.ne_none_iff_exists'.1 (hg.hosted .left)
  obtain ⟨q, hq'⟩ := Option.ne_none_iff_exists'.1 (hg.hosted .right)
  refine ⟨_, _, (hg.attached .left).logVersions_spec hp, (hg.attached .right).logVersions_spec hq', fun id => ?_⟩
  rw [show (g .left).records ns = (g .right).records ns from hg.log_eq hq]

end

/-! ### Two fresh nodes -/

section

variable [Crates] [Libp2p]

instance (ns : Bytes) (m : Mesh) (e : MeshEvent) : Decidable (m.InTurn ns e) := by
  cases e <;> delta Mesh.InTurn <;> infer_instance

def Mesh.exec (pids : Side → PeerId) (m : Mesh) : MeshEvent → Option Mesh
  | .write s c =>
    if c.written.isSome ∧ c.Valid (m.node s).world.store then
      (Exec.okState (c.run (m.node s).world)).map fun w => m.handled pids s { m.node s with world := w, out := [] }
    else none
  | .own s env e => if e.isOwn then (netRun (fun _ _ => True) (m.node s) [(env, e)]).map (m.handled pids s) else none
  | .deliver p env =>
    if p ∈ m.flight then
      (netRun (fun _ _ => True) (m.node p.dest) [(env, p.event pids)]).map ((m.drop p).handled pids p.dest)
    else none
  | .lose p => if p ∈ m.flight then some (m.drop p) else none

theorem Mesh.exec_sound {pids : Side → PeerId} {m m' : Mesh} {e : MeshEvent} (h : m.exec pids e = some m') :
    MeshStep pids m e m' := by
  cases e with
  | write s c =>
    simp only [Mesh.exec] at h
    split_ifs at h with hok
    obtain ⟨w, hrun, rfl⟩ := Option.map_eq_some_iff.1 h
    exact .write hok.1 hok.2 (.ok (Exec.okState_eq_some.1 hrun))
  | own s env e =>
    simp only [Mesh.exec] at h
    split_ifs at h with hok
    obtain ⟨r, hrun, rfl⟩ := Option.map_eq_some_iff.1 h
    exact .own hok (netStep_of_netRun hrun)
  | deliver p env =>
    simp only [Mesh.exec] at h
    split_ifs at h with hok
    obtain ⟨r, hrun, rfl⟩ := Option.map_eq_some_iff.1 h
    exact .deliver hok (netStep_of_netRun hrun)
  | lose p =>
    simp only [Mesh.exec] at h
    split_ifs at h with hok
    cases h
    exact .lose hok

/-- A run whose events may depend on what is in flight. -/
def meshRun (ok : Mesh → MeshEvent → Prop) [∀ m e, Decidable (ok m e)] (pids : Side → PeerId) :
    Mesh → List (Mesh → Option MeshEvent) → Option Mesh
  | m, [] => some m
  | m, f :: fs => (f m).bind fun e => if ok m e then (m.exec pids e).bind (meshRun ok pids · fs) else none

theorem meshRun_sound {ok : Mesh → MeshEvent → Prop} [∀ m e, Decidable (ok m e)] {pids : Side → PeerId}
    {fs : List (Mesh → Option MeshEvent)} {m m' : Mesh} (h : meshRun ok pids m fs = some m') :
    ∃ es, Run (guarded ok (MeshStep pids)) m es m' := by
  induction fs generalizing m with
  | nil => cases h; exact ⟨[], .nil _⟩
  | cons f fs ih =>
    obtain ⟨e, _, h⟩ := Option.bind_eq_some_iff.1 h
    split_ifs at h with hok
    obtain ⟨m1, hstep, hrest⟩ := Option.bind_eq_some_iff.1 h
    obtain ⟨es, hrun⟩ := ih hrest
    exact ⟨e :: es, .cons ⟨hok, Mesh.exec_sound hstep⟩ hrun⟩

end

def sideKey : Side → Bytes32
  | .left => .fill 7
  | .right => .fill 9

def sidePid (s : Side) : PeerId := ⟨(sideKey s).val⟩

/-- Two nodes that host the empty namespace `a` and have pinned each other. -/
def twoNodes : Option Mesh :=
  letI := Crates.trivial
  (freshRun (fun w c => c.Valid w.store) [.createNamespace [97] .lww]).map fun w =>
    ⟨fun s => .start w (sideKey s) [⟨[98], [120], showKey (sideKey s.other), none⟩], []⟩

def deliverFirst (env : Env) (m : Mesh) : Option MeshEvent := m.flight.head?.map (.deliver · env)

theorem twoNodes_start {m : Mesh} (h : twoNodes = some m)
    (hhead : ∀ s, (m.node s).world.store.head [97] = some (0, .zero)) : letI := Crates.trivial; m.Start [97] := by
  let _ := Crates.trivial
  obtain ⟨w, hrun, rfl⟩ := Option.map_eq_some_iff.1 h
  obtain ⟨w0, hopened, hrun⟩ := freshRun_sound hrun
  exact ⟨rfl, fun s => ⟨⟨w, _, _, rfl⟩, ⟨w0, _, hopened, hrun⟩, hhead s⟩⟩

/-- Would the Hello of the other node make this one pull `a`? -/
def Mesh.pulls (m : Mesh) (s : Side) : Bool :=
  (m.node s.other).world.store.nsHeads.any fun nh => nh.ns = [97] ∧ (pullTarget (m.node s).world.store nh).isSome

theorem quiescent_of_pulls {m : Mesh} (h : m.flight = []) (hpulls : ∀ s, m.pulls s = false) : m.Quiescent [97] := by
  refine ⟨h, fun s nh hnh hns => ?_⟩
  have hno := List.any_eq_false.1 (hpulls s) nh hnh
  simpa [hns] using hno

/-- The left node writes a record, and the right one fetches it. -/
def oneRound : List (Mesh → Option MeshEvent) :=
  [fun _ => some (.write .left (.put [97] [1] [10] 1 (.fill 7) .zero 0)), fun _ => some (.own .right (quietEnv []) .kickAll),
    fun _ => some (.own .right (quietEnv [[98]]) (.established (sidePid .left) (some [120]))),
    deliverFirst (quietEnv []), deliverFirst (quietEnv [[98]]), deliverFirst (quietEnv []), deliverFirst (quietEnv [[98]])]

set_option maxRecDepth 100000 in
/-- One round brings the record over. -/
theorem quiescent_mesh_agrees_after_round : letI := Crates.trivial; letI := Libp2p.trivial
    ∃ m₀ es m, twoNodes = some m₀ ∧ Run (guarded (Mesh.InTurn [97]) (MeshStep sidePid)) m₀ es m ∧ m.Quiescent [97] ∧
      (m.node .right).world.versions [97] = [(tagPut, 1, .fill 7)] ∧
      ∃ left right, logVersions [97] (m.node .left).world = .ok left (m.node .left).world ∧
        logVersions [97] (m.node .right).world = .ok right (m.node .right).world ∧ ∀ id, id ∈ left ↔ id ∈ right := by
  have h : letI := Crates.trivial; letI := Libp2p.trivial
      ∃ m₀ ∈ twoNodes, ∃ m ∈ meshRun (Mesh.InTurn [97]) sidePid m₀ oneRound,
        (∀ s, (m₀.node s).world.store.head [97] = some (0, .zero)) ∧ m.flight = [] ∧
        (∀ s, m.pulls s = false) ∧
        (m.node .right).world.versions [97] = [(tagPut, 1, .fill 7)] := by
    decide +kernel
  let _ := Crates.trivial
  let _ := Libp2p.trivial
  obtain ⟨m₀, hnodes, m, hrun, hheads, hflight, hpulls, hversions⟩ := h
  obtain ⟨es, hrun⟩ := meshRun_sound hrun
  have hstart := twoNodes_start hnodes hheads
  have hq := quiescent_of_pulls hflight hpulls
  exact ⟨m₀, es, m, hnodes, hrun, hq, hversions, quiescent_mesh_agrees hstart hrun hq⟩

def bothWrite : List (Mesh → Option MeshEvent) :=
  [fun _ => some (.write .left (.put [97] [1] [10] 1 (.fill 7) .zero 0)),
    fun _ => some (.write .right (.put [97] [2] [20] 2 (.fill 9) .zero 0))]

set_option maxRecDepth 100000 in
/-- With one record of its own each, neither node ever asks the other one, and their logs have nothing in common. -/
theorem independent_writes_stay_apart : letI := Crates.trivial; letI := Libp2p.trivial
    ∃ m₀ es m, m₀.Start [97] ∧ Run (MeshStep sidePid) m₀ es m ∧ m.Quiescent [97] ∧
      ¬ ∃ left right, logVersions [97] (m.node .left).world = .ok left (m.node .left).world ∧
        logVersions [97] (m.node .right).world = .ok right (m.node .right).world ∧ ∀ id, id ∈ left ↔ id ∈ right := by
  have h : letI := Crates.trivial; letI := Libp2p.trivial
      ∃ m₀ ∈ twoNodes, ∃ m ∈ meshRun (fun _ _ => True) sidePid m₀ bothWrite,
        (∀ s, (m₀.node s).world.store.head [97] = some (0, .zero)) ∧ m.flight = [] ∧
        (∀ s, m.pulls s = false) ∧
        (m.node .left).world.versions [97] = [(tagPut, 1, .fill 7)] ∧
        (m.node .right).world.versions [97] = [(tagPut, 2, .fill 9)] := by
    decide +kernel
  let _ := Crates.trivial
  let _ := Libp2p.trivial
  obtain ⟨m₀, hnodes, m, hrun, hheads, hflight, hpulls, hvl, hvr⟩ := h
  obtain ⟨es, hrun⟩ := meshRun_sound hrun
  refine ⟨m₀, es, m, twoNodes_start hnodes hheads, hrun.mono fun _ _ _ h => h.2, quiescent_of_pulls hflight hpulls, ?_⟩
  rintro ⟨left, right, hl, hr, hsame⟩
  rw [World.versions, hl] at hvl
  rw [World.versions, hr] at hvr
  obtain rfl : left = [(tagPut, 1, .fill 7)] := hvl
  obtain rfl : right = [(tagPut, 2, .fill 9)] := hvr
  have hmem := (hsame (tagPut, 1, .fill 7)).1 List.mem_cons_self
  simp at hmem

end BunnyMesh
