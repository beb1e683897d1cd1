import BunnyMesh.Lib.Interface
import BunnyMesh.Server.Data

/-!
# Handlers as programs

The handlers of a node run next to each other.  What they share is the store behind its readers-writer lock and the
clock of `core/hlc.rs`.  A handler is a program over these accesses, in the order the source makes them; the wall clock
decides what `now_ms` and `Hlc::now` read.
-/

namespace BunnyMesh

open Store
open Interface (Prog)

/-! ### The clock -/

namespace Hlc

def base (ms : UInt64) : UInt64 := ms <<< 16

/-- `Hlc::now` at the wall clock `ms`: the value it returns, which is also the new watermark.  The loop ends with a
successful exchange of a watermark below `base`, or with an increment of one that is not below it, and the watermark of a
process only grows; so a call takes effect at this one step. -/
def now (ms last : UInt64) : UInt64 := if base ms > last then base ms else last + 1

def ms (h : UInt64) : UInt64 := h >>> 16

end Hlc

/-! ### Accesses -/

/-- The operations of the store that need the write lock. -/
inductive StoreOp : Type → Type where
  | createNamespace (ns : Bytes) (policy : ConflictPolicy) : StoreOp Unit
  | metaSet (key value : Bytes) : StoreOp Unit
  | put (ns key value : Bytes) (hlc : UInt64) (replica author : Bytes32) (expiresAt : UInt64) : StoreOp Nat
  | delete (ns key : Bytes) (hlc : UInt64) (replica author : Bytes32) : StoreOp Nat
  | putBatch (ns : Bytes) (ops : List Op) : StoreOp Nat
  | setSchema (ns : Bytes) (value : Option Bytes) (hlc : UInt64) (replica author : Bytes32) : StoreOp Nat
  | setIndex (ns : Bytes) (value : Option Bytes) (hlc : UInt64) (replica author : Bytes32) : StoreOp Nat

namespace StoreOp

def run [Crates] : {β : Type} → StoreOp β → M β
  | _, createNamespace ns policy => BunnyMesh.createNamespace ns policy
  | _, metaSet key value => modify fun w => { w with store := w.store.metaSet key value }
  | _, put ns key value hlc replica author expiresAt => BunnyMesh.put ns key value hlc replica author expiresAt
  | _, delete ns key hlc replica author => BunnyMesh.delete ns key hlc replica author
  | _, putBatch ns ops => BunnyMesh.putBatch ns ops
  | _, setSchema ns value hlc replica author => BunnyMesh.setSchema ns value hlc replica author
  | _, setIndex ns value hlc replica author => BunnyMesh.setIndex ns value hlc replica author

def written : {β : Type} → StoreOp β → Option (Bytes × Record)
  | _, createNamespace _ _ => none
  | _, metaSet _ _ => none
  | _, put ns key value hlc replica author expiresAt => some (ns, putRecord key value hlc replica author expiresAt)
  | _, delete ns key hlc replica author => some (ns, delRecord key hlc replica author)
  | _, putBatch ns ops => some (ns, batchRecord ops)
  | _, setSchema ns value hlc replica author => some (ns, metaRecord tagSchema value hlc replica author)
  | _, setIndex ns value hlc replica author => some (ns, metaRecord tagIndex value hlc replica author)

end StoreOp

/-- What a handler asks of what the handlers share.  `draw` is a call of `Hlc::now`; `stamp` says that the value goes into
a record. -/
inductive Access : Type → Type 1 where
  | readLock : Access Unit
  | writeLock : Access Unit
  | unlock : Access Unit
  | read {β : Type} (f : Store → β) : Access β
  | scanKeys (ns pre : Bytes) : Access (List Bytes)
  | store {β : Type} (o : StoreOp β) : Access (Except StorageError β)
  | draw (stamp : Bool) : Access UInt64
  | clock : Access UInt64

abbrev Handler := Prog Access

/-! ### A caller with the store to itself -/

/-- What the calls of `Hlc::now` and of `now_ms` return, by the number of calls before. -/
structure ClockOracle where
  now : Nat → UInt64
  nowMs : Nat → UInt64

/-- The store at hand, and the number of calls of the clocks. -/
structure Caller where
  world : World
  ticks : Nat

/-- An access by a caller that holds the lock it needs; a panic of the store ends the run. -/
def Access.answer [Crates] (clocks : ClockOracle) : {β : Type} → Access β → EStateM String Caller β
  | _, .readLock | _, .writeLock | _, .unlock => pure ()
  | _, .read f => fun c => .ok (f c.world.store) c
  | _, .scanKeys ns pre => fun c => .ok (c.world.store.scanKeys ns pre) c
  | _, .store o => fun c =>
    match o.run c.world with
    | .error (.panic detail) w => .error detail ⟨w, c.ticks⟩
    | .error (.err e) w => .ok (.error e) ⟨w, c.ticks⟩
    | .ok a w => .ok (.ok a) ⟨w, c.ticks⟩
  | _, .draw _ => fun c => .ok (clocks.now c.ticks) ⟨c.world, c.ticks + 1⟩
  | _, .clock => fun c => .ok (clocks.nowMs c.ticks) ⟨c.world, c.ticks + 1⟩

namespace Handler

def reading {α : Type} (body : Handler α) : Handler α := do
  Prog.op .readLock
  let a ← body
  Prog.op .unlock
  pure a

def writing {α : Type} (body : Handler α) : Handler α := do
  Prog.op .writeLock
  let a ← body
  Prog.op .unlock
  pure a

def look {α : Type} (f : Store → α) : Handler α := reading (Prog.op (.read f))

def stamp : Handler UInt64 := Prog.op (.draw true)

def nowMs : Handler UInt64 := Prog.op .clock

def store {α : Type} (o : StoreOp α) : Handler (Except StorageError α) := Prog.op (.store o)

/-! ### The data routes -/

section
variable [AuthCrates]

/-- Provision the owner namespace on L3, and require the namespace elsewhere; the reply of a refusal. -/
def provide (ns : Bytes) (principal : PublicKey) : Handler (Option Reply) := do
  if tierOf ns = .l3 then
    let owner := str "u/" ++ PublicKey.display principal
    if (← Prog.op (.read (·.policy owner))).isNone then
      match ← store (.createNamespace owner .lww) with
      | .ok () => pure none
      | .error _ => pure (some (.error 403 (str "forbidden")))
    else pure none
  else if (← Prog.op (.read (·.policy ns))).isNone then pure (some (.error 404 (str "namespace_not_found")))
  else pure none

def accountWrite (ns : Bytes) (delta limit : Nat) : Handler (Except AuthError Unit) := do
  let total := (← Prog.op (.read (bytesWritten · ns))) + delta
  if total > limit then pure (.error (.quotaExceeded ns limit))
  else
    let _ ← store (.metaSet (quotaKey ns) (le 8 total))
    pure (.ok ())

def replyTo {α : Type} (reply : α → Reply) : Except StorageError α → Reply
  | .ok a => reply a
  | .error _ => .error 500 (str "internal")

variable (validate : JValue → JValue → Except Bytes Unit) (cfg : NodeConfig)

def handlePut (ns key body : Bytes) (ttl : Option Bytes) (principal : PublicKey) : Handler Reply := writing do
  match ← provide ns principal with
  | some r => pure r
  | none =>
    match ← Prog.op (.read (checkSchema validate · ns body)) with
    | some r => pure r
    | none =>
      match ← accountWrite ns body.length cfg.defaultQuota with
      | .error e => pure (authToResponse e)
      | .ok () =>
        let hlc ← stamp
        let expiresAt := ttlExpiry ttl (← nowMs).toNat
        pure (replyTo (.written · expiresAt) (← store (.put ns key body hlc cfg.root principal expiresAt)))

def handleDelete (ns key : Bytes) (principal : PublicKey) : Handler Reply := writing do
  if (← Prog.op (.read (·.policy ns))).isNone then pure (.error 404 (str "namespace_not_found"))
  else
    let hlc ← stamp
    pure (replyTo (fun _ => .ok) (← store (.delete ns key hlc cfg.root principal)))

/-! ### The admin routes of a namespace -/

/-- `l1_create_namespace`; `policy` is the name in the body. -/
def l1CreateNamespace (name policy : Bytes) : Handler Reply :=
  if (str "u/").isPrefixOf name then pure (.error 403 (str "forbidden"))
  else if policy ≠ str "lww" ∧ policy ≠ str "register" then pure badRequest
  else writing do
    match ← store (.createNamespace name (if policy = str "lww" then .lww else .crdtRegister)) with
    | .ok () => pure .ok
    | .error (.namespaceExists _) => pure (.error 409 (str "namespace_exists"))
    | .error (.badName _) => pure badRequest
    | .error _ => pure (.error 500 (str "internal"))

def define (ns : Bytes) (change : UInt64 → StoreOp Nat) : Handler Reply := writing do
  if (← Prog.op (.read (·.policy ns))).isNone then pure (.error 404 (str "namespace_not_found"))
  else
    let hlc ← stamp
    pure (replyTo .defined (← store (change hlc)))

/-- `l1_schema_set`; `supported` is `check_supported`. -/
def l1SchemaSet (supported : JValue → Except Bytes Unit) (ns body : Bytes) : Handler Reply :=
  match Crates.fromStrValue (ByteCodec.fromUtf8Lossy body) with
  | none => pure (.error 400 (str "bad_json"))
  | some schema =>
    match supported schema with
    | .error msg => pure (.error 400 (str "unsupported_schema: " ++ msg))
    | .ok () => define ns fun hlc => .setSchema ns (some body) hlc cfg.root cfg.root

def l1SchemaClear (ns : Bytes) : Handler Reply := define ns fun hlc => .setSchema ns none hlc cfg.root cfg.root

def dedupeFields (fields : List Bytes) : List Bytes :=
  fields.foldl (fun seen f => if f.isEmpty || seen.contains f then seen else seen ++ [f]) []

/-- `l1_index_set`; `encode` writes a list of strings as JSON. -/
def l1IndexSet (encode : List Bytes → Bytes) (ns body : Bytes) : Handler Reply :=
  match Crates.fromStrStrings (ByteCodec.fromUtf8Lossy body) with
  | none => pure (.error 400 (str "bad_index_def"))
  | some fields =>
    define ns fun hlc => .setIndex ns (some (encode (dedupeFields fields))) hlc cfg.root cfg.root

def l1IndexClear (ns : Bytes) : Handler Reply := define ns fun hlc => .setIndex ns none hlc cfg.root cfg.root

end

end Handler

end BunnyMesh
