import BunnyMesh.Lib.Run
import BunnyMesh.Net.Wire
import Mathlib.Data.List.Perm.Basic

/-!
# The sync engine of a node

`Runner` is the state of the event loop of `net/mod.rs`: the shared store and configuration, and for every peer the
connection, the pin and the phase of its round.  A handler runs on it and hands requests, responses and dials to the
swarm (`Out`); it fails only where the code would panic.  What a handler meets outside the program is its `Env`: the
order in which the peer map is iterated, the state of connections, the clock.
-/

namespace BunnyMesh

open Std
open Runs (Run guarded)

/-! ### State -/

structure Peer where
  name : Bytes
  addr : Bytes
  pin : Bytes
  namespaces : Option (List Bytes)
deriving DecidableEq

inductive Phase where
  | idle
  | waitingDial
  | awaitingHello
  | pulling (ns : Bytes) (target : Nat)
  | done
  | bad (why : String)
deriving DecidableEq

/-- `AwaitingHello | Pulling { .. } | WaitingDial` -/
def Phase.midFlight : Phase → Bool
  | awaitingHello | pulling _ _ | waitingDial => true
  | idle | done | bad _ => false

def Phase.isPulling : Phase → Bool
  | pulling _ _ => true
  | _ => false

structure PeerCtx where
  addr : Bytes
  pid : Option PeerId
  pin : Option Bytes32
  phase : Phase
  roundChunks : Nat
deriving DecidableEq

/-- What a node hands to the swarm. -/
inductive Out where
  | request (pid : PeerId) (req : SyncRequest)
  | respond (resp : SyncResponse)
  | dial (addr : Bytes)
  | dialPeer (pid : PeerId) (addr : Bytes)
deriving DecidableEq

structure Runner where
  world : World
  host : Bytes32
  cfg : List Peer
  skew : BMap Bytes (List Int64)
  peer : BMap Bytes PeerCtx
  roundApplied : Nat
  pendingDials : BMap Bytes Bytes
  pendingPulls : BMap Bytes (List (Bytes × Nat))
  out : List Out

/-- What a handler meets outside the program. -/
structure Env where
  order : List Bytes
  connected : PeerId → Bool
  dials : Bytes → Bool
  saves : Bool
  nowMs : Int64
  hlc : UInt64

/-- A handler; its failures are panics. -/
abbrev Net := EStateM String Runner

def unwrapNone : String := "called `Option::unwrap()` on a `None` value"

def Runner.cfgPeer (r : Runner) (name : Bytes) : Option Peer := r.cfg.find? (·.name == name)

def Runner.modifyPeer (r : Runner) (name : Bytes) (f : PeerCtx → PeerCtx) : Runner :=
  match r.peer[name]? with
  | some c => { r with peer := r.peer.insert name (f c) }
  | none => r

def getCtx (name : Bytes) : Net PeerCtx := do
  match (← get).peer[name]? with
  | some c => pure c
  | none => throw unwrapNone

def modifyPeer (name : Bytes) (f : PeerCtx → PeerCtx) : Net Unit := modify (·.modifyPeer name f)

def phaseSet (name : Bytes) (phase : Phase) : Net Unit := modifyPeer name fun c => { c with phase := phase }

def emit (o : Out) : Net Unit := modify fun r => { r with out := r.out ++ [o] }

def onStore {α : Type} (x : M α) : Net (Except StorageError α) := fun r =>
  match x r.world with
  | .ok a w => .ok (.ok a) { r with world := w }
  | .error (.err e) w => .ok (.error e) { r with world := w }
  | .error (.panic detail) w => .error detail { r with world := w }

/-- The first peer of the iteration bound to the peer id. -/
def Runner.nameForPid (r : Runner) (order : List Bytes) (pid : PeerId) : Option Bytes :=
  order.find? fun n => (r.peer[n]?).any (·.pid == some pid)

/-! ### Starting rounds -/

def sendHello (name : Bytes) (pid : PeerId) : Net Unit := do
  emit (.request pid .hello)
  phaseSet name .awaitingHello

/-- Advance one peer's round: ensure a connection, then send Hello. -/
def kick (env : Env) (name : Bytes) : Net Unit := do
  let phase := (((← get).peer[name]?).map (·.phase)).getD .idle
  if phase.midFlight then pure ()
  else do
    let c ← getCtx name
    match c.pid with
    | some pid =>
      if !env.connected pid then do
        emit (.dialPeer pid c.addr)
        phaseSet name .waitingDial
      else sendHello name pid
    | none => do
      -- a stale pending dial never blocks a retry
      modify fun r => { r with pendingDials := r.pendingDials.erase c.addr }
      if env.dials c.addr then do
        emit (.dial c.addr)
        modify fun r => { r with pendingDials := r.pendingDials.insert c.addr name }
        phaseSet name .waitingDial
      else phaseSet name .idle

def Runner.loadPin (r : Runner) (name : Bytes) : Option Bytes32 := (r.cfgPeer name).bind fun p => parseKey p.pin

section

variable [Libp2p]

def kickPeer (env : Env) (p : Peer) : Net Unit := do
  match Libp2p.parseAddr p.addr with
  | none => pure ()
  | some addr => do
    let pin := (← get).loadPin p.name
    match (← get).peer[p.name]? with
    | some ctx => do
      modifyPeer p.name fun c => { c with addr := addr, roundChunks := 0 }
      if ctx.phase.midFlight then pure ()
      else do
        phaseSet p.name .idle
        kick env p.name
    | none => do
      modify fun r => { r with peer := r.peer.insert p.name ⟨addr, none, pin, .idle, 0⟩ }
      kick env p.name

/-- (Re)start a sync round for every configured peer not mid-flight. -/
def kickAll (env : Env) : Net Unit := do
  modify fun r => { r with roundApplied := 0 }
  (← get).cfg.forM (kickPeer env)

end

/-! ### Responses -/

/-- `p.pin = pk.to_string()` on the first peer of that name. -/
def setPin (name pin : Bytes) : List Peer → List Peer
  | [] => []
  | p :: ps => if p.name == name then { p with pin := pin } :: ps else p :: setPin name pin ps

def persistPin (env : Env) (name : Bytes) (pk : Bytes32) : Net Unit := do
  modify fun r => { r with cfg := setPin name (showKey pk) r.cfg }
  if env.saves then pure () else phaseSet name (.bad "pin persist failed")

section

variable [Libp2p]

/-- The pin check of a Hello; may the round go on?  The first key is pinned only where it is the key of the connection,
a pinned peer only has to claim its pin. -/
def checkPin (env : Env) (name : Bytes) (pid : PeerId) (peerPk : Bytes32) : Net Bool := do
  let ctx ← getCtx name
  match ctx.pin with
  | none =>
    match Libp2p.peerIdOf peerPk with
    | none => throw "valid ed25519 pk"
    | some advertisedPid =>
      if pid ≠ advertisedPid then do
        phaseSet name (.bad "host_id/connection mismatch")
        pure false
      else do
        modifyPeer name fun c => { c with pin := some peerPk, pid := some advertisedPid }
        persistPin env name peerPk
        pure true
  | some existing =>
    if existing ≠ peerPk then do
      phaseSet name (.bad "pin mismatch")
      pure false
    else pure true

end

def median (samples : List Int64) : Int64 :=
  (samples.mergeSort fun a b => decide (a ≤ b)).getD (samples.length / 2) 0

/-- Keep the last eight samples of the peer's clock skew, and note their median in the store. -/
def noteClock (env : Env) (name : Bytes) (hlc : UInt64) : Net Unit := do
  let sample := (hlc >>> 16).toInt64 - env.nowMs
  let buf := ((← get).skew[name]?).getD []
  let buf := (if buf.length = 8 then buf.drop 1 else buf) ++ [sample]
  modify fun r => { r with
    skew := r.skew.insert name buf
    world := { r.world with store := r.world.store.setPeerClock name (median buf) } }

def sendPull (name ns : Bytes) (target : Nat) : Net Unit := do
  let c ← getCtx name
  match c.pid with
  | none => throw unwrapNone
  | some pid => do
    let fromSeq := (((← get).world.store.head ns).map fun h => h.1 + 1).getD 1
    emit (.request pid (.pull ns fromSeq))
    phaseSet name (.pulling ns target)

/-- Pull the namespaces the peer is ahead on, one after another. -/
def queuePulls (name : Bytes) (namespaces : List NsHead) : Net Unit := do
  match namespaces.filterMap (pullTarget (← get).world.store) with
  | [] => phaseSet name .done
  | (ns, target) :: pulls => do
    modify fun r => { r with pendingPulls := r.pendingPulls.insert name pulls }
    sendPull name ns target

def onHello [Libp2p] (env : Env) (pid : PeerId) (resp : HelloResponse) : Net Unit := do
  match (← get).nameForPid env.order pid with
  | none => pure ()
  | some name =>
    match parseKey resp.hostId with
    | none => phaseSet name (.bad "bad host_id")
    | some peerPk => do
      if ← checkPin env name pid peerPk then do
        noteClock env name resp.hlc
        queuePulls name resp.namespaces
      else pure ()

/-- May the peer contribute to the namespace?  `none` where its configuration says nothing. -/
def Runner.allowed (r : Runner) (name ns : Bytes) : Option Bool :=
  (r.cfgPeer name).bind fun p => p.namespaces.map (·.contains ns)

section

variable [Crates]

/-- Everything `on_records` checks before it applies a chunk: the peer's name, the namespace, the sequence number to
reach and the records. -/
def checkRecords (env : Env) (pid : PeerId) (recs : Records) : Net (Option (Bytes × Bytes × Nat × List Record)) := do
  match (← get).nameForPid env.order pid with
  | none => pure none
  | some name =>
    match ((← get).peer[name]?).map PeerCtx.phase with
    | some (.pulling ns target) =>
      if recs.ns ≠ ns then do
        phaseSet name .idle
        pure none
      else if (← get).allowed name ns = some false then do
        phaseSet name .done
        pure none
      else
        match decodeRecs recs.records with
        | .error _ => do
          phaseSet name .idle
          pure none
        | .ok batch =>
          match verifyBatch batch with
          | .error (.panic detail) => throw detail
          | .error (.err _) => do
            phaseSet name .done
            pure none
          | .ok parsed => pure (some (name, ns, target, parsed))
    | _ => pure none

/-- Another chunk, the next namespace, or the end of the round. -/
def nextPull (name ns : Bytes) (target localSeq : Nat) : Net Unit := do
  if localSeq < target then sendPull name ns target
  else
    match ((← get).pendingPulls[name]?).getD [] with
    | (nextNs, nextTarget) :: rest => do
      modify fun r => { r with pendingPulls := r.pendingPulls.insert name rest }
      sendPull name nextNs nextTarget
    | [] => do
      modify fun r => { r with pendingPulls := r.pendingPulls.erase name }
      phaseSet name .done

/-- Force a checkpoint once enough records have been applied in the round. -/
def checkpointAfter (records : Nat) : Net Unit := do
  let roundApplied := (← get).roundApplied
  if roundApplied > 0 ∧ roundApplied % checkpointEvery ≤ records then do
    let _ ← onStore checkpoint
    pure ()
  else pure ()

def applyPulled (name ns : Bytes) (target : Nat) (parsed : List Record) : Net Unit := do
  match ← onStore (applySyncedBatch ns parsed) with
  | .error _ => phaseSet name .idle
  | .ok applied => do
    modify fun r => { r with roundApplied := r.roundApplied + applied }
    checkpointAfter parsed.length
    let localSeq := (((← get).world.store.head ns).map (·.1)).getD 0
    if applied = 0 then phaseSet name .done
    else do
      let c ← getCtx name
      modifyPeer name fun c => { c with roundChunks := c.roundChunks + 1 }
      if c.roundChunks + 1 ≥ maxChunksPerTick then phaseSet name .done
      else nextPull name ns target localSeq

def onRecords (env : Env) (pid : PeerId) (recs : Records) : Net Unit := do
  match ← checkRecords env pid recs with
  | none => pure ()
  | some (name, ns, target, parsed) => applyPulled name ns target parsed

end

/-! ### Requests -/

inductive InboundAccess where
  | deny
  | helloOnly (name : Bytes)
  | full (name : Bytes)
deriving DecidableEq

def serveHello (env : Env) : Net Unit := do
  let r ← get
  emit (.respond (.hello ⟨showKey r.host, env.hlc, r.world.store.nsHeads⟩))

section

variable [Libp2p]

/-- The first configured peer whose pin is the key of the peer id; a malformed pin never matches. -/
def pinnedName (pid : PeerId) : List Peer → Net (Option Bytes)
  | [] => pure none
  | p :: ps =>
    if p.pin.isEmpty then pinnedName pid ps
    else match parseKey p.pin with
      | none => pinnedName pid ps
      | some pk =>
        match Libp2p.peerIdOf pk with
        | none => throw "valid ed25519 pk"
        | some pinned => if pinned = pid then pure (some p.name) else pinnedName pid ps

/-- Classify a request by the authenticated peer id alone. -/
def inboundAccess (env : Env) (pid : PeerId) : Net InboundAccess := do
  match ← pinnedName pid (← get).cfg with
  | some name => pure (.full name)
  | none =>
    match (← get).nameForPid env.order pid with
    | some name =>
      pure (if (((← get).cfgPeer name).map (·.pin.isEmpty)).getD false then .helloOnly name else .deny)
    | none => pure .deny

def servePull (ns : Bytes) (fromSeq : Nat) : Net Unit := do
  let records ← onStore (logRecords ns fromSeq maxRecords)
  let recs := match records with
    | .ok recs => (chunk recs [] 0).getD []
    | .error _ => []
  emit (.respond (.records ⟨ns, recs⟩))

def onRequest (env : Env) (pid : PeerId) (req : SyncRequest) : Net Unit := do
  match ← inboundAccess env pid, req with
  | .deny, _ => emit (.respond .denied)
  | .helloOnly _, .hello => serveHello env
  | .helloOnly _, .pull _ _ => emit (.respond .denied)
  | .full _, .hello => serveHello env
  | .full _, .pull ns fromSeq => servePull ns fromSeq

end

/-! ### Events -/

/-- What the event loop waits for, and the edits other threads make to the shared store and configuration. -/
inductive NetEvent where
  | kickAll
  | established (pid : PeerId) (dialed : Option Bytes)
  | closed (pid : PeerId)
  | dialError (pid : Option PeerId)
  | request (pid : PeerId) (req : SyncRequest)
  | response (pid : PeerId) (resp : SyncResponse)
  | outboundFailure (pid : PeerId)
  | configEdit (cfg : List Peer)
  | storeEdit (world : World)

def Runner.dialedName (r : Runner) (order : List Bytes) (addr : Bytes) : Option Bytes :=
  (r.pendingDials[addr]?).or
    (order.find? fun n => (r.peer[n]?).any fun c => c.phase == .waitingDial && c.pid.isNone)

/-- Bind the peer that answered at the address we dialled. -/
def onEstablished (env : Env) (pid : PeerId) (addr : Bytes) : Net Unit := do
  let name := (← get).dialedName env.order addr
  modify fun r => { r with pendingDials := r.pendingDials.erase addr }
  match name with
  | none => pure ()
  | some name => do
    let c ← getCtx name
    modifyPeer name fun c => { c with pid := some pid }
    if c.phase = .waitingDial then sendHello name pid else pure ()

def idleIfBound (env : Env) (pid : PeerId) : Net Unit := do
  match (← get).nameForPid env.order pid with
  | none => pure ()
  | some name => phaseSet name .idle

def onClosed (env : Env) (pid : PeerId) : Net Unit := do
  match (← get).nameForPid env.order pid with
  | none => pure ()
  | some name =>
    if ((← get).peer[name]?).map (·.phase) = some .waitingDial then phaseSet name .idle else pure ()

def dialsFailed (r : Runner) : Runner :=
  { r with
    pendingDials := ∅
    peer := r.peer.map fun _ c => if c.phase = .waitingDial then { c with phase := .idle } else c }

def handle [Crates] [Libp2p] (env : Env) : NetEvent → Net Unit
  | .kickAll => kickAll env
  | .established pid (some addr) => onEstablished env pid addr
  | .established _ none => pure ()
  | .closed pid => onClosed env pid
  | .dialError (some pid) => idleIfBound env pid
  | .dialError none => modify dialsFailed
  | .request pid req => onRequest env pid req
  | .response pid (.hello resp) => onHello env pid resp
  | .response pid (.records recs) => onRecords env pid recs
  | .response pid .denied => idleIfBound env pid
  | .outboundFailure pid => idleIfBound env pid
  | .configEdit cfg => modify fun r => { r with cfg := cfg }
  | .storeEdit world => modify fun r => { r with world := world }

def Runner.start (world : World) (host : Bytes32) (cfg : List Peer) : Runner := ⟨world, host, cfg, ∅, ∅, 0, ∅, ∅, []⟩

/-- One event, handled to its end; the peer map is iterated in any order. -/
def NetStep [Crates] [Libp2p] (r : Runner) (x : Env × NetEvent) (r' : Runner) : Prop :=
  x.1.order.Perm r.peer.keys ∧ handle x.1 x.2 { r with out := [] } = .ok () r'

/-- Handle the events one by one, as long as each of them is allowed and no handler panics. -/
def netRun [Crates] [Libp2p] (ok : Runner → Env × NetEvent → Prop) [∀ r x, Decidable (ok r x)] :
    Runner → List (Env × NetEvent) → Option Runner
  | r, [] => some r
  | r, x :: xs =>
    if ok r x ∧ x.1.order.Perm r.peer.keys then
      (Exec.okState (handle x.1 x.2 { r with out := [] })).bind (netRun ok · xs)
    else none

theorem netRun_sound [Crates] [Libp2p] {ok : Runner → Env × NetEvent → Prop} [∀ r x, Decidable (ok r x)]
    {xs : List (Env × NetEvent)} {r r' : Runner} (h : netRun ok r xs = some r') : Run (guarded ok NetStep) r xs r' := by
  induction xs generalizing r with
  | nil => cases h; exact .nil _
  | cons x xs ih =>
    simp only [netRun] at h
    split_ifs at h with hok
    obtain ⟨r1, hstep, hrest⟩ := Option.bind_eq_some_iff.1 h
    exact .cons ⟨hok.1, hok.2, Exec.okState_eq_some.1 hstep⟩ (ih hrest)

theorem netStep_of_netRun [Crates] [Libp2p] {ok : Runner → Env × NetEvent → Prop} [∀ r x, Decidable (ok r x)]
    {x : Env × NetEvent} {r r' : Runner} (h : netRun ok r [x] = some r') : NetStep r x r' := by
  cases netRun_sound h with
  | cons first rest =>
    cases rest
    exact first.2

end BunnyMesh
