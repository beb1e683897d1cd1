import BunnyMesh.Fs.Mount
import BunnyMesh.Query.Exec
import BunnyMesh.Server.Batch
import BunnyMesh.Storage.Runs

/-!
# A node

The handlers of one process, the store and the clock they share, and what happens to them: a request arrives, a handler
makes its next access, the sync loop applies a batch of a peer, the process restarts.  A handler draws time stamps with
and without the lock of the store, so the accesses of different handlers alternate freely up to that lock.
-/

namespace BunnyMesh

open Std Store
open Interface (Prog)
open Runs (Run guarded exec run_of_exec)

/-! ### Requests -/

/-- What the handlers of a node are given: its configuration, and the functions of the schema and JSON libraries. -/
structure Site where
  cfg : NodeConfig
  validate : JValue → JValue → Except Bytes Unit
  supported : JValue → Except Bytes Unit
  encode : List Bytes → Bytes

/-- What can write: the requests that are authorized, and the callbacks of the mount. -/
inductive Surface where
  | put (ns key body : Bytes) (ttl : Option Bytes) (principal : PublicKey)
  | delete (ns key : Bytes) (principal : PublicKey)
  | batch (ns : Bytes) (principal : PublicKey) (ops : List BatchOp)
  | query (ns : Bytes) (call : Query.Call)
  | createNamespace (name policy : Bytes)
  | schemaSet (ns body : Bytes)
  | schemaClear (ns : Bytes)
  | indexSet (ns body : Bytes)
  | indexClear (ns : Bytes)
  | create (parent name : Bytes)
  | flush (path data : Bytes)
  | mkdir (parent name : Bytes)
  | unlink (parent name : Bytes)
  | rmdir (parent name : Bytes)
  | rename (flagged : Bool) (parent name newParent newName : Bytes)
  | truncate (path : Bytes) (size : Nat)

inductive Answer where
  | reply (r : Reply)
  | results (rs : List (Option BatchResult))
  | value (v : Query.Value)
  | fs (r : Except Fs.Errno Unit)

namespace Surface

def isHttp : Surface → Bool
  | put .. | delete .. | batch .. | query .. | createNamespace .. | schemaSet .. | schemaClear .. | indexSet ..
  | indexClear .. => true
  | create .. | flush .. | mkdir .. | unlink .. | rmdir .. | rename .. | truncate .. => false

variable [AuthCrates]

def ns (cfg : NodeConfig) : Surface → Bytes
  | put ns .. | delete ns .. | batch ns .. | query ns .. | schemaSet ns .. | schemaClear ns | indexSet ns ..
  | indexClear ns => ns
  | createNamespace name _ => name
  | create .. | flush .. | mkdir .. | unlink .. | rmdir .. | rename .. | truncate .. => Fs.nsOf cfg.root

def handler (site : Site) : Surface → Handler Answer
  | put ns key body ttl principal => do
    pure (.reply (← Handler.handlePut site.validate site.cfg ns key body ttl principal))
  | delete ns key principal => do pure (.reply (← Handler.handleDelete site.cfg ns key principal))
  | batch ns principal ops => do
    match ← Handler.handleBatch site.validate site.cfg ns principal ops with
    | .ok rs => pure (.results rs)
    | .error r => pure (.reply r)
  | query ns call => do
    match ← Handler.runQl site.encode site.cfg ns call with
    | .ok v => pure (.value v)
    | .error _ => pure (.reply (.error 400 (str "query_error")))
  | createNamespace name policy => do pure (.reply (← Handler.l1CreateNamespace name policy))
  | schemaSet ns body => do pure (.reply (← Handler.l1SchemaSet site.cfg site.supported ns body))
  | schemaClear ns => do pure (.reply (← Handler.l1SchemaClear site.cfg ns))
  | indexSet ns body => do pure (.reply (← Handler.l1IndexSet site.cfg site.encode ns body))
  | indexClear ns => do pure (.reply (← Handler.l1IndexClear site.cfg ns))
  | create parent name => do pure (.fs (← Handler.fsCreate (Fs.nsOf site.cfg.root) parent name))
  | flush path data => do pure (.fs (← Handler.fsFlush (Fs.nsOf site.cfg.root) path data))
  | mkdir parent name => do pure (.fs (← Handler.fsMkdir (Fs.nsOf site.cfg.root) parent name))
  | unlink parent name => do pure (.fs (← Handler.fsUnlink (Fs.nsOf site.cfg.root) parent name))
  | rmdir parent name => do pure (.fs (← Handler.fsRmdir (Fs.nsOf site.cfg.root) parent name))
  | rename flagged parent name newParent newName => do
    pure (.fs (← Handler.fsRename (Fs.nsOf site.cfg.root) flagged parent name newParent newName))
  | truncate path size => do pure (.fs (← Handler.fsTruncate (Fs.nsOf site.cfg.root) path size))

end Surface

/-! ### The node -/

/-- A handler in progress: the namespace it writes to, the time stamps it has drawn since it last let go of the lock, and
the rest of its program. -/
structure Thread where
  ns : Bytes
  drawn : List UInt64
  rest : Handler Answer

/-- A process: the store, the watermark of the clock, who holds the lock, and the handlers. -/
structure Node where
  world : World
  last : UInt64
  writer : Option Nat
  readers : List Nat
  threads : List Thread

def Node.boot (w : World) : Node := ⟨w, 0, none, [], []⟩

namespace Node

def release (n : Node) (i : Nat) : Node :=
  { n with writer := if n.writer = some i then none else n.writer, readers := n.readers.erase i }

def setThread (n : Node) (i : Nat) (t : Thread) : Node := { n with threads := n.threads.set i t }

end Node

section
variable [AuthCrates]

/-- An access of the handler `i` at the wall clock `ms`: the answer, `none` where the store panics, and what is shared
afterwards.  A lock that is held elsewhere has to be waited for, and the store is only at hand for a holder. -/
def Access.perform (i : Nat) (ms : UInt64) (n : Node) : {β : Type} → Access β → Option (Option β × Node)
  | _, .readLock => if n.writer = none then some (some (), { n with readers := i :: n.readers }) else none
  | _, .writeLock => if n.writer = none ∧ n.readers = [] then some (some (), { n with writer := some i }) else none
  | _, .unlock => some (some (), n.release i)
  | _, .read f => if n.writer = some i ∨ i ∈ n.readers then some (some (f n.world.store), n) else none
  | _, .scanKeys ns pre =>
    if n.writer = some i ∨ i ∈ n.readers then some (some (n.world.store.scanKeys ns pre), n) else none
  | _, .store o =>
    if n.writer = some i then
      match o.run n.world with
      | .ok a w => some (some (.ok a), { n with world := w })
      | .error (.err e) w => some (some (.error e), { n with world := w })
      | .error (.panic _) w => some (none, { n with world := w }.release i)
    else none
  | _, .draw _ => some (some (Hlc.now ms n.last), { n with last := Hlc.now ms n.last })
  | _, .clock => some (some ms, n)

/-- The time stamps a handler keeps account of, after an access. -/
def Access.account : {β : Type} → Access β → β → List UInt64 → List UInt64
  | _, .draw true, h, drawn => drawn ++ [h]
  | _, .unlock, _, _ => []
  | _, _, _, drawn => drawn

def Node.access (n : Node) (i : Nat) (ms : UInt64) : Option Node :=
  match n.threads[i]? with
  | some ⟨ns, drawn, .call o k⟩ =>
    match o.perform i ms n with
    | some (some b, n') => some (n'.setThread i ⟨ns, o.account b drawn, k b⟩)
    | some (none, n') => some (n'.setThread i ⟨ns, [], .ret (.reply .aborted)⟩)
    | none => none
  | _ => none

/-- What happens to a node; `sync` is `apply_synced_batch` on the records of a peer. -/
inductive NodeEvent where
  | start (s : Surface)
  | access (i : Nat) (ms : UInt64)
  | sync (ns : Bytes) (records : List Record)
  | restart (durable : Bool) (now : UInt64)

def Node.step (site : Site) (n : Node) : NodeEvent → Option Node
  | .start s => some { n with threads := n.threads ++ [⟨s.ns site.cfg, [], s.handler site⟩] }
  | .access i ms => n.access i ms
  | .sync ns records =>
    if n.writer = none ∧ n.readers = [] then
      some { n with world := Exec.finalState (applySyncedBatch ns records n.world) }
    else none
  | .restart durable now => (Exec.okState (openDurable durable now n.world)).map .boot

def NodeStep (site : Site) (n : Node) (e : NodeEvent) (n' : Node) : Prop := n.step site e = some n'

/-! ### Executing a run -/

def Node.fresh : Option Node := (Exec.okState (openDurable false 0 ⟨Store.init false, Disk.empty, []⟩)).map .boot

/-- Run a process on an empty directory, as long as each event is allowed, and look at the last step. -/
def Node.runThen {α : Type} (ok : Node → NodeEvent → Prop) [∀ n e, Decidable (ok n e)] (site : Site) (es : List NodeEvent)
    (e : NodeEvent) (look : Node → Node → α) : Option α :=
  Node.fresh.bind fun n₀ => (exec ok (Node.step site) n₀ es).bind fun n =>
    if ok n e then (n.step site e).map (look n) else none

theorem Node.runThen_sound {α : Type} {ok : Node → NodeEvent → Prop} [∀ n e, Decidable (ok n e)] {site : Site}
    {es : List NodeEvent} {e : NodeEvent} {look : Node → Node → α} {a : α} (h : Node.runThen ok site es e look = some a) :
    ∃ w0 n n', Opened w0 ∧ Run (guarded ok (NodeStep site)) (Node.boot w0) es n ∧ guarded ok (NodeStep site) n e n' ∧
      look n n' = a := by
  obtain ⟨n0, hfresh, h⟩ := Option.bind_eq_some_iff.1 h
  obtain ⟨w0, hopen, rfl⟩ := Option.map_eq_some_iff.1 hfresh
  obtain ⟨n, hexec, h⟩ := Option.bind_eq_some_iff.1 h
  split_ifs at h with hok
  obtain ⟨n', hstep, hlook⟩ := Option.map_eq_some_iff.1 h
  exact ⟨w0, n, n', ⟨_, _, _, _, Exec.okState_eq_some.1 hopen⟩, run_of_exec (fun _ _ _ => id) hexec, ⟨hok, hstep⟩, hlook⟩

end

/-- A node with the root key zero that takes every document for valid. -/
def plainSite : Site := ⟨⟨⟨.zero, []⟩, .zero, str "h", 100⟩, fun _ _ => .ok (), fun _ => .ok (), fun _ => []⟩

def serving (s : Surface) (i : Nat) (ms : UInt64) (accesses : Nat) : List NodeEvent :=
  .start s :: List.replicate accesses (.access i ms)

end BunnyMesh
