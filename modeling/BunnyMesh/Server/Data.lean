import BunnyMesh.Server.State

/-!
# The data routes

`handle_data` (`server/mod.rs`): GET, PUT and DELETE of a key, and GET with `?prefix=`.  The arguments `clock` and `hlc`
are the readings of the wall clock, in the order they are taken, and what `Hlc::now` returns; `validate` is
`validate_schema`.
-/

namespace BunnyMesh

open Std Store

/-! ### Requests -/

inductive Method where
  | get
  | put
  | delete
  | other
deriving DecidableEq

/-- The query parameters the route reads. -/
structure DataQuery where
  keyPrefix : Option Bytes
  versions : Option Bytes
  ttl : Option Bytes
deriving DecidableEq

structure DataRequest where
  ns : Bytes
  key : Bytes
  method : Method
  query : DataQuery
  body : Bytes
deriving DecidableEq

/-! ### Scopes -/

/-- `key[..i]` at the last slash, if there is something before it. -/
def dirOf (key : Bytes) : Option Bytes :=
  match key.reverse.dropWhile (· != Scope.slash) with
  | [] => none
  | _ :: before => if before.isEmpty then none else some before.reverse

/-- `host/<tier>/<ns>[/dir-prefix]`; leading slashes of the key are trimmed. -/
def dataScope (tier : Tier) (ns key host : Bytes) : Scope :=
  ⟨host, tier, ns, dirOf (key.dropWhile (· == Scope.slash))⟩

def tierOf (ns : Bytes) : Tier := if (str "u/").isPrefixOf ns then .l3 else .l2

/-! ### Values -/

def Version.live (now : Nat) (v : Version) : Bool := v.expiresAt == 0 || decide (now < v.expiresAt.toNat)

def latestValue (e : Entry) (now : Nat) : Option Bytes :=
  match e with
  | .lww v => if v.live now then some v.value else none
  | .register vs => (maxByStamp (vs.filter (·.live now))).map (·.value)

def entryExpiresAt : Entry → UInt64
  | .lww v => v.expiresAt
  | .register vs => ((maxByStamp vs).map (·.expiresAt)).getD 0

def parseU64 (s : Bytes) : Option Nat :=
  let digits := if s.head? = some 43 then s.drop 1 else s
  if digits.isEmpty then none
  else (digits.foldlM (fun acc b => if isAsciiDigit b then some (acc * 10 + (b.toNat - 48)) else none) 0).bind fun n =>
    if n < 2 ^ 64 then some n else none

/-- `?ttl=<secs>` as an expiry, 0 for never; the sum wraps. -/
def ttlExpiry (ttl : Option Bytes) (now : Nat) : UInt64 :=
  match ttl.bind parseU64 with
  | some secs => if secs > 0 then UInt64.ofNat now + UInt64.ofNat secs * 1000 else 0
  | none => 0

/-! ### Quotas and owner namespaces -/

def quotaKey (ns : Bytes) : Bytes := str "quota:" ++ ns

def bytesWritten (s : Store) (ns : Bytes) : Nat :=
  match s.metaGet (quotaKey ns) with
  | some v => if v.length = 8 then ByteCodec.fromLe v else 0
  | none => 0

/-- The store with `delta` more bytes on the quota of `ns`, or the error. -/
def accountWrite (s : Store) (ns : Bytes) (delta limit : Nat) : Except AuthError Store :=
  let total := bytesWritten s ns + delta
  if total > limit then .error (.quotaExceeded ns limit) else .ok (s.metaSet (quotaKey ns) (le 8 total))

section
variable [AuthCrates]

def dataAuth (cfg : NodeConfig) (d : Daemon) (caps : Option (List Capability)) (ns key : Bytes) (perms : PermSet)
    (nowMs : Nat) : Except Reply (PublicKey × Tier) :=
  (authL1L2 cfg d caps (dataScope (tierOf ns) ns key cfg.hostName) perms nowMs).map fun p => (p, tierOf ns)

/-- Provision the owner namespace on L3, and require the namespace elsewhere; the reply of a refusal. -/
def provide (tier : Tier) (ns : Bytes) (principal : PublicKey) (w : World) : Option Reply × World :=
  if tier = .l3 then
    let owner := str "u/" ++ PublicKey.display principal
    if (w.store.policy owner).isNone then
      match createNamespace owner .lww w with
      | .ok _ w => (none, w)
      | .error (.err _) w => (some (.error 403 (str "forbidden")), w)
      | .error (.panic _) w => (some .aborted, w)
    else (none, w)
  else if (w.store.policy ns).isNone then (some (.error 404 (str "namespace_not_found")), w)
  else (none, w)

variable (validate : JValue → JValue → Except Bytes Unit)

def checkSchema (s : Store) (ns body : Bytes) : Option Reply :=
  match s.schema ns with
  | none => none
  | some schemaBytes =>
    let schema := (Crates.fromStrValue (ByteCodec.fromUtf8Lossy schemaBytes)).getD .null
    match Crates.fromStrValue (ByteCodec.fromUtf8Lossy body) with
    | none => some (.error 400 (str "schema_violation: value is not valid JSON"))
    | some value =>
      match validate schema value with
      | .ok () => none
      | .error msg => some (.error 400 (str "schema_violation: " ++ msg))

def Daemon.withStore (d : Daemon) (s : Store) : Daemon := { d with world := { d.world with store := s } }

def Daemon.stored (d : Daemon) {α : Type} (reply : α → Reply) : EStateM.Result Fault World α → Reply × Daemon
  | .ok a w => (reply a, { d with world := w })
  | .error (.err _) w => (.error 500 (str "internal"), { d with world := w })
  | .error (.panic _) w => (.aborted, { d with world := w })

/-- GET with `?prefix=p`: the capability must cover `p`, too. -/
def handlePrefix (cfg : NodeConfig) (caps : Option (List Capability)) (ns p : Bytes) (clock : Nat → Nat) (d : Daemon) :
    Reply × Daemon :=
  match authL1L2 cfg d caps ⟨cfg.hostName, tierOf ns, ns, some p⟩ .read (clock 1) with
  | .error r => (r, d)
  | .ok _ =>
    (.entries ((d.world.store.scan ns p).filterMap fun x =>
      (latestValue x.2 (clock 2)).map fun v => (x.1, v, entryExpiresAt x.2)), d)

def handleGet (req : DataRequest) (clock : Nat → Nat) (d : Daemon) : Reply × Daemon :=
  let notFound := Reply.error 404 (str "not_found")
  match d.world.store.get req.ns req.key with
  | none => (notFound, d)
  | some e =>
    if req.query.versions = some (str "true") then (.versions req.key e.versions, d)
    else
      match latestValue e (clock 1) with
      | some v => (.value v, d)
      | none => (notFound, d)

def handlePut (cfg : NodeConfig) (req : DataRequest) (principal : PublicKey) (clock : Nat → Nat) (hlc : UInt64)
    (d : Daemon) : Reply × Daemon :=
  match provide (tierOf req.ns) req.ns principal d.world with
  | (some r, w) => (r, { d with world := w })
  | (none, w) =>
    let d := { d with world := w }
    match checkSchema validate w.store req.ns req.body with
    | some r => (r, d)
    | none =>
      match accountWrite w.store req.ns req.body.length cfg.defaultQuota with
      | .error e => (authToResponse e, d)
      | .ok s =>
        let d := d.withStore s
        let expiresAt := ttlExpiry req.query.ttl (clock 1)
        d.stored (fun seq => .written seq expiresAt)
          (put req.ns req.key req.body hlc cfg.root principal expiresAt d.world)

def handleDelete (cfg : NodeConfig) (req : DataRequest) (principal : PublicKey) (hlc : UInt64) (d : Daemon) :
    Reply × Daemon :=
  if (d.world.store.policy req.ns).isNone then (.error 404 (str "namespace_not_found"), d)
  else d.stored (fun _ => .ok) (delete req.ns req.key hlc cfg.root principal d.world)

def handleData (cfg : NodeConfig) (caps : Option (List Capability)) (req : DataRequest) (clock : Nat → Nat) (hlc : UInt64)
    (d : Daemon) : Reply × Daemon :=
  let perms := if req.method = .get then PermSet.read else PermSet.write
  match dataAuth cfg d caps req.ns req.key perms (clock 0) with
  | .error r => (r, d)
  | .ok (principal, _) =>
    match req.method with
    | .get =>
      match req.query.keyPrefix with
      | some p => handlePrefix cfg caps req.ns p clock d
      | none => handleGet req clock d
    | .put => handlePut validate cfg req principal clock hlc d
    | .delete => handleDelete cfg req principal hlc d
    | .other => (.error 405 (str "method_not_allowed"), d)

end

end BunnyMesh
