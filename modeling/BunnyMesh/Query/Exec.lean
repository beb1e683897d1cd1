import BunnyMesh.Server.Handler

/-!
# Queries

The evaluator of the query language (`query/mod.rs`) on parsed calls.  Functions that write draw a time stamp
and change the store before their call returns, also where they are nested in the arguments of another call.
-/

namespace BunnyMesh

open Store
open Interface (Prog)
open ByteCodec (fromUtf8Lossy hexEncode)

namespace Query

/-! ### Values, errors and calls -/

inductive Value where
  | null
  | bool (b : Bool)
  | num (n : UInt64)
  | str (s : Bytes)
  | list (xs : List Value)

inductive QueryError where
  | parse (line col : Nat) (msg : Bytes)
  | unknownFn (name : Bytes)
  | type (msg : Bytes)
  | eval (e : StorageError)
deriving DecidableEq

mutual

inductive Arg where
  | str (s : Bytes)
  | call (c : Call)

inductive Call where
  | mk (name : Bytes) (args : List Arg)

end

def Call.name : Call → Bytes
  | mk name _ => name

inductive Fn where
  | now
  | hlc
  | before
  | clockSkew
  | use
  | createNs
  | get
  | put
  | del
  | scan
  | getAll
  | indexCreate
  | indexFields
  | indexDrop
  | byIndex
  | other
deriving DecidableEq

def Fn.ofName (name : Bytes) : Fn :=
  if name = BunnyMesh.str "now" then .now
  else if name = BunnyMesh.str "hlc" then .hlc
  else if name = BunnyMesh.str "before" then .before
  else if name = BunnyMesh.str "clock_skew" then .clockSkew
  else if name = BunnyMesh.str "use" then .use
  else if name = BunnyMesh.str "create_ns" then .createNs
  else if name = BunnyMesh.str "get" then .get
  else if name = BunnyMesh.str "put" then .put
  else if name = BunnyMesh.str "del" then .del
  else if name = BunnyMesh.str "scan" then .scan
  else if name = BunnyMesh.str "get_all" then .getAll
  else if name = BunnyMesh.str "index_create" then .indexCreate
  else if name = BunnyMesh.str "index_fields" then .indexFields
  else if name = BunnyMesh.str "index_drop" then .indexDrop
  else if name = BunnyMesh.str "by_index" then .byIndex
  else .other

/-- The mutating functions that a remote caller reaches. -/
def Fn.isMutator : Fn → Bool
  | .put | .del | .indexCreate | .indexDrop => true
  | _ => false

mutual

def Arg.containsMutator : Arg → Bool
  | .str _ => false
  | .call c => c.containsMutator

def Call.containsMutator : Call → Bool
  | .mk name args => (Fn.ofName name).isMutator || anyMutator args

def anyMutator : List Arg → Bool
  | [] => false
  | a :: args => a.containsMutator || anyMutator args

end

/-! ### Execution -/

/-- The parts of `QueryCtx` that do not change: whether the store is at hand for writing, the key of the host, and whether
the caller is remote. -/
structure QueryCtx where
  write : Bool
  hostId : PublicKey
  remote : Bool

/-- Execution can fail, and it can move the scope. -/
abbrev Exec := ExceptT QueryError (StateT (Option Bytes) Handler)

section
variable [AuthCrates]

mutual

def Value.debug : Value → Bytes
  | .null => BunnyMesh.str "Null"
  | .bool b => BunnyMesh.str s!"Bool({b})"
  | .num n => BunnyMesh.str s!"Num({n.toNat})"
  | .str s => BunnyMesh.str "Str(" ++ AuthCrates.debugStr s ++ BunnyMesh.str ")"
  | .list xs => BunnyMesh.str "List([" ++ (BunnyMesh.str ", ").intercalate (debugAll xs) ++ BunnyMesh.str "])"

def debugAll : List Value → List Bytes
  | [] => []
  | v :: vs => v.debug :: debugAll vs

end

def argcError (name : Bytes) (n got : Nat) : QueryError :=
  .type (name ++ BunnyMesh.str s!"() takes {n} argument(s), got {got}")

def access {α : Type} (o : Access α) : Exec α := ExceptT.lift (StateT.lift (Prog.op o))

def readStore {α : Type} (f : Store → α) : Exec α := access (.read f)

def scope : Exec Bytes := do
  match ← get with
  | some ns => pure ns
  | none => throw (.eval .noScope)

/-- `store_mut` and the operation on it. -/
def change {α : Type} (ctx : QueryCtx) (o : StoreOp α) : Exec α := do
  if !ctx.write then
    throw (.type (BunnyMesh.str "store is read-only in this context, but the statement mutates"))
  match ← access (.store o) with
  | .ok a => pure a
  | .error e => throw (.eval e)

def latestText (e : Entry) : Bytes := ((latestEntryValue e).map fun v => fromUtf8Lossy v.value).getD []

def versionValues (v : Version) : List Value :=
  [.str (hexEncode v.replica.val), .num v.hlc, .str (fromUtf8Lossy v.value)]

def expectStr (name : Bytes) : Value → Exec Bytes
  | .str s => pure s
  | other => throw (.type (BunnyMesh.str "expected string from " ++ name ++ BunnyMesh.str ", got " ++ other.debug))

def expectNum (name : Bytes) : Value → Exec UInt64
  | .num n => pure n
  | other => throw (.type (BunnyMesh.str "expected Num from " ++ name ++ BunnyMesh.str ", got " ++ other.debug))

def parseNum (s : Bytes) : Exec UInt64 :=
  match parseU64 s with
  | some n => pure (UInt64.ofNat n)
  | none => throw (.type (BunnyMesh.str "expected number, got string " ++ AuthCrates.debugStr s))

variable (encode : List Bytes → Bytes) (ctx : QueryCtx)

/-- A function on its arguments: `strArg i` and `numArg i` evaluate the `i`-th, `strArgs` all of them. -/
def execFn (name : Bytes) (strArg : Nat → Exec Bytes) (numArg : Nat → Exec UInt64) (strArgs : Exec (List Bytes))
    (argc : Nat) : Exec Value := do
  let takes (n : Nat) : Exec PUnit := if argc = n then pure ⟨⟩ else throw (argcError name n argc)
  match Fn.ofName name with
  | .now =>
    takes 0
    pure (.num (Hlc.ms (← access (.draw false))))
  | .hlc =>
    takes 0
    pure (.num (← access (.draw false)))
  | .before =>
    takes 2
    let a ← numArg 0
    let b ← numArg 1
    pure (.bool (decide (a < b)))
  | .clockSkew =>
    takes 1
    let host ← strArg 0
    match ← readStore (·.peerClocks[host]?) with
    | some diff => pure (.num (max diff 0).toUInt64)
    | none => pure .null
  | .use =>
    takes 1
    if ctx.remote then throw (.type (BunnyMesh.str "use() is not available over the HTTP ql API"))
    let ns ← strArg 0
    if (← readStore (·.policy ns)).isNone then throw (.eval (.notFound ns))
    set (some ns)
    pure (.bool true)
  | .createNs =>
    takes 1
    if ctx.remote then throw (.type (BunnyMesh.str "create_ns() is not available over the HTTP ql API"))
    let ns ← strArg 0
    change ctx (.createNamespace ns .lww)
    pure (.bool true)
  | .get =>
    takes 1
    let ns ← scope
    let key ← strArg 0
    match ← readStore (·.get ns key) with
    | none => pure .null
    | some e => pure (.str (latestText e))
  | .put =>
    takes 2
    let ns ← scope
    let key ← strArg 0
    let val ← strArg 1
    let hlc ← access (.draw true)
    let _ ← change ctx (.put ns key val hlc ctx.hostId ctx.hostId 0)
    pure (.bool true)
  | .del =>
    takes 1
    let ns ← scope
    let key ← strArg 0
    let hlc ← access (.draw true)
    let _ ← change ctx (.delete ns key hlc ctx.hostId ctx.hostId)
    pure (.bool true)
  | .scan =>
    takes 1
    let ns ← scope
    let pre ← strArg 0
    let rows ← readStore (·.scan ns pre)
    pure (.list (rows.flatMap fun x => [.str (fromUtf8Lossy x.1), .str (latestText x.2)]))
  | .getAll =>
    takes 1
    let ns ← scope
    let key ← strArg 0
    match ← readStore (·.get ns key) with
    | some (.lww v) => pure (.list (versionValues v))
    | some (.register vs) => pure (.list (vs.flatMap versionValues))
    | none => pure .null
  | .indexCreate =>
    if argc = 0 then throw (.type (BunnyMesh.str "index_create(field[, field...])"))
    let ns ← scope
    let fields ← strArgs
    let hlc ← access (.draw true)
    let _ ← change ctx (.setIndex ns (some (encode fields)) hlc ctx.hostId ctx.hostId)
    pure (.bool true)
  | .indexFields =>
    let ns ← scope
    pure (.list ((← readStore (·.indexFields ns)).map .str))
  | .indexDrop =>
    let ns ← scope
    let hlc ← access (.draw true)
    let _ ← change ctx (.setIndex ns none hlc ctx.hostId ctx.hostId)
    pure (.bool true)
  | .byIndex =>
    if argc < 2 || argc > 3 then throw (.type (BunnyMesh.str "by_index(field, value[, ns])"))
    let ns ← scope
    let field ← strArg 0
    let want ← strArg 1
    let rows ← readStore (·.indexLookup ns field want)
    pure (.list ((rows.takeWhile fun x => x.1 == want).map fun x => .str (fromUtf8Lossy x.2)))
  | .other => throw (.unknownFn name)

mutual

/-- `encode` writes a list of strings as JSON. -/
def exec : Call → Exec Value
  | .mk name args => execFn encode ctx name (strArgAt args) (numArgAt args) (strArgs args) args.length

def strArg : Arg → Exec Bytes
  | .str s => pure s
  | .call c => do expectStr c.name (← exec c)

def numArg : Arg → Exec UInt64
  | .str s => parseNum s
  | .call c => do expectNum c.name (← exec c)

def strArgs : List Arg → Exec (List Bytes)
  | [] => pure []
  | a :: args => do
    let s ← strArg a
    pure (s :: (← strArgs args))

/-- The `i`-th argument; every function checks their number first. -/
def strArgAt : List Arg → Nat → Exec Bytes
  | [], _ => pure []
  | a :: _, 0 => strArg a
  | _ :: args, i + 1 => strArgAt args i

def numArgAt : List Arg → Nat → Exec UInt64
  | [], _ => pure 0
  | a :: _, 0 => numArg a
  | _ :: args, i + 1 => numArgAt args i

end

end

end Query

/-- `run_ql` on a statement that parses, once it is authorized: one that writes takes the write lock. -/
def Handler.runQl [AuthCrates] (encode : List Bytes → Bytes) (cfg : NodeConfig) (ns : Bytes) (call : Query.Call) :
    Handler (Except Query.QueryError Query.Value) := do
  let ctx : Query.QueryCtx := ⟨call.containsMutator, cfg.root, true⟩
  let run : Handler (Except Query.QueryError Query.Value) := do
    pure (← (Query.exec encode ctx call).run.run (some ns)).1
  if call.containsMutator then writing run else reading run

end BunnyMesh
