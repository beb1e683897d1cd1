import BunnyMesh.Net.Base64
import BunnyMesh.Server.Handler

/-!
# Batches

`handle_batch` (`server/mod.rs`): a request of many operations that becomes at most one log record.  The values are
decoded and validated and the time stamps are drawn without any lock; quota and record follow under the write lock, and
the reads under a read lock behind it.
-/

namespace BunnyMesh

open Store
open Interface (Prog Discipline)

/-- The fields of an operation in the body: `op`, `key`, `value_b64` and `ttl`. -/
structure BatchOp where
  op : Bytes
  key : Option Bytes
  value : Option Bytes
  ttl : Option Nat
deriving DecidableEq

/-- The outcome of an operation; a value is carried as it is, not in base64. -/
inductive BatchResult where
  | failed (error : Bytes)
  | value (v : Option Bytes)
  | written (seq : Nat)
deriving DecidableEq

def maxBatch : Nat := 1000
def maxBatchRecordBytes : Nat := 6 * 1024 * 1024
def maxBatchGetBytes : Nat := 8 * 1024 * 1024

/-- The bound on the record of the batch, from the lengths in the request. -/
def batchEstimate (ops : List BatchOp) : Nat :=
  (ops.map fun op =>
    let keyLen := (op.key.map List.length).getD 0
    if op.op = str "put" then 93 + keyLen + (op.value.map fun s => (s.length + 3) / 4 * 3).getD 0
    else if op.op = str "del" then 85 + keyLen
    else 0).sum

/-- What the first pass collects: the results by position, the accepted writes, and the positions of the reads and of the
writes with the bytes they are charged for. -/
structure BatchPlan where
  results : List (Option BatchResult)
  accepted : List Op
  pendingGets : List (Nat × Bytes)
  pendingWrites : List (Nat × Nat)

namespace BatchPlan

def empty : BatchPlan := ⟨[], [], [], []⟩

def fail (plan : BatchPlan) (error : Bytes) : BatchPlan :=
  { plan with results := plan.results ++ [some (.failed error)] }

def get (plan : BatchPlan) (key : Bytes) : BatchPlan :=
  { plan with results := plan.results ++ [none], pendingGets := plan.pendingGets ++ [(plan.results.length, key)] }

def accept (plan : BatchPlan) (op : Op) : BatchPlan :=
  { plan with
    results := plan.results ++ [none]
    accepted := plan.accepted ++ [op]
    pendingWrites := plan.pendingWrites ++ [(plan.results.length, op.value.length)] }

end BatchPlan

def resolve (results : List (Option BatchResult)) (is : List Nat) (r : BatchResult) : List (Option BatchResult) :=
  is.foldl (fun rs i => if (rs[i]?.getD none).isNone then rs.set i (some r) else rs) results

def AuthError.display : AuthError → Bytes
  | .unauthorized m => str "unauthorized: " ++ m
  | .forbidden m => str "forbidden: " ++ m
  | .quotaExceeded ns limit => str s!"quota exceeded for {showBytes ns} (limit {limit} bytes)"

namespace Handler

section
variable [AuthCrates] (validate : JValue → JValue → Except Bytes Unit) (cfg : NodeConfig)

/-- The first pass on one operation; `schema` is the one read at the start. -/
def planOp (schema : Option JValue) (principal : PublicKey) (plan : BatchPlan) (op : BatchOp) : Handler BatchPlan :=
  match op.key with
  | none => pure (plan.fail (str "missing_key"))
  | some key =>
    if op.op = str "get" then pure (plan.get key)
    else if op.op = str "put" then
      match op.value.map b64Decode with
      | none => pure (plan.fail (str "missing_value_b64"))
      | some (.error _) => pure (plan.fail (str "bad_value_b64"))
      | some (.ok value) =>
        match schema.bind fun schema =>
          match Crates.fromStrValue (ByteCodec.fromUtf8Lossy value) with
          | none => some (str "value is not valid JSON")
          | some v => match validate schema v with
            | .ok () => none
            | .error msg => some msg with
        | some msg => pure (plan.fail (str "schema_violation: " ++ msg))
        | none => do
          let expiresAt ← if op.ttl.getD 0 > 0 then
              pure ((← nowMs) + UInt64.ofNat (op.ttl.getD 0) * 1000)
            else pure 0
          let hlc ← stamp
          pure (plan.accept ⟨if expiresAt = 0 then tagPut else tagPutTtl, key, hlc, cfg.root, principal, value, expiresAt⟩)
    else if op.op = str "del" then do
      let hlc ← stamp
      pure (plan.accept ⟨tagDel, key, hlc, cfg.root, principal, [], 0⟩)
    else pure (plan.fail (str "unknown_op"))

/-- Charge the accepted writes one by one; those that fit, and the results with the others refused. -/
def chargeAll (ns : Bytes) (writes : List (Op × Nat × Nat)) (results : List (Option BatchResult)) :
    Handler (List Op × List (Option BatchResult)) :=
  writes.foldlM (fun (applied, results) (op, i, bytes) => do
    match ← accountWrite ns bytes cfg.defaultQuota with
    | .ok () => pure (applied ++ [op], results)
    | .error e => pure (applied, results.set i (some (.failed e.display)))) ([], results)

/-- The write lock of the batch: the reply of a refusal, or the results and the number of the record. -/
def applyPlan (ns : Bytes) (principal : PublicKey) (plan : BatchPlan) :
    Handler (Except Reply (List (Option BatchResult) × Nat)) := writing do
  match ← provide ns principal with
  | some r => pure (.error r)
  | none =>
    let (applied, results) ← chargeAll cfg ns (plan.accepted.zip plan.pendingWrites) plan.results
    if applied.isEmpty then pure (.ok (results, 0))
    else
      match ← store (.putBatch ns applied) with
      | .ok seq => pure (.ok (results, seq))
      | .error e => pure (.ok (resolve results (plan.pendingWrites.map (·.1)) (.failed (str e.display)), 0))

def readBack (s : Store) (ns : Bytes) (now : Nat) (gets : List (Nat × Bytes)) (results : List (Option BatchResult)) :
    List (Option BatchResult) :=
  (gets.foldl (fun (results, budget) (i, key) =>
    match budget with
    | none => (results.set i (some (.failed (str "batch_get_response_too_large"))), none)
    | some left =>
      match (s.get ns key).bind (latestValue · now) with
      | none => (results.set i (some (.value none)), some left)
      | some v =>
        if v.length ≤ left then (results.set i (some (.value (some v))), some (left - v.length))
        else (results.set i (some (.failed (str "batch_get_response_too_large"))), none))
    (results, some maxBatchGetBytes)).1

def handleBatch (ns : Bytes) (principal : PublicKey) (ops : List BatchOp) :
    Handler (Except Reply (List (Option BatchResult))) := do
  if ops.isEmpty then return .error (.error 400 (str "empty_batch"))
  if ops.length > maxBatch then return .error (.error 400 (str "batch_too_large"))
  if batchEstimate ops > maxBatchRecordBytes then return .error (.error 413 (str "batch_too_large"))
  let schema ← look fun s => (s.schema ns).map fun bytes =>
    (Crates.fromStrValue (ByteCodec.fromUtf8Lossy bytes)).getD .null
  let plan ← ops.foldlM (planOp validate cfg schema principal) .empty
  match ← applyPlan cfg ns principal plan with
  | .error r => pure (.error r)
  | .ok (results, seq) =>
    let now ← nowMs
    let results ← look fun s => readBack s ns now.toNat plan.pendingGets results
    pure (.ok (resolve results (plan.pendingWrites.map (·.1)) (.written seq)))

end

end Handler

/-! ### The first pass -/

def BatchOp.Gets (op : BatchOp) (key : Bytes) : Prop := op.op = str "get" ∧ op.key = some key

/-- The write that an operation of the body becomes once it is accepted. -/
inductive BatchOp.Writes (op : BatchOp) : Op → Prop where
  | put (key text value : Bytes) (hlc now expiresAt : UInt64) (replica author : Bytes32) (hop : op.op = str "put")
      (hkey : op.key = some key) (htext : op.value = some text) (hvalue : b64Decode text = .ok value)
      (hexpires : expiresAt = if op.ttl.getD 0 > 0 then now + UInt64.ofNat (op.ttl.getD 0) * 1000 else 0) :
      op.Writes ⟨if expiresAt = 0 then tagPut else tagPutTtl, key, hlc, replica, author, value, expiresAt⟩
  | del (key : Bytes) (hlc : UInt64) (replica author : Bytes32) (hop : op.op = str "del") (hkey : op.key = some key) :
      op.Writes ⟨tagDel, key, hlc, replica, author, [], 0⟩

theorem BatchOp.Writes.subOk {op : BatchOp} {o : Op} (h : op.Writes o) : o.SubOk := by
  cases h with
  | put key text value hlc now expiresAt replica author hop hkey htext hvalue hexpires =>
    by_cases hzero : expiresAt = 0
    · subst hzero
      exact ⟨rfl, fun _ => rfl⟩
    · exact ⟨by rw [if_neg hzero]; rfl, fun htag => absurd (by rw [if_neg hzero]) htag⟩
  | del => exact ⟨rfl, fun _ => rfl⟩

section
variable [AuthCrates] {validate : JValue → JValue → Except Bytes Unit} {cfg : NodeConfig}

/-- The schema that a batch has read lets no other values pass than those with `V`. -/
def Enforced (validate : JValue → JValue → Except Bytes Unit) (V : Bytes → Prop) (schema : Option JValue) : Prop :=
  ∀ value, (schema.bind fun schema =>
    match Crates.fromStrValue (ByteCodec.fromUtf8Lossy value) with
    | none => some (str "value is not valid JSON")
    | some v => match validate schema v with
      | .ok () => none
      | .error msg => some msg) = none → V value

/-- What the first pass can make of an operation, under a discipline whose clock keeps `G`. -/
theorem keeps_planOp {γ : Type} {D : Discipline Access γ} {G : γ → Prop} {Q : BatchPlan → γ → Prop} {schema : Option JValue}
    {principal : PublicKey} {plan : BatchPlan} {op : BatchOp} {g : γ} (hg : G g)
    (hfail : ∀ e, (∀ key, ¬ op.Gets key) → Q (plan.fail e) g) (hget : ∀ key, op.Gets key → Q (plan.get key) g)
    (hclock : D.wp .clock g fun _ => G)
    (hwrite : ∀ o : UInt64 → Op, (∀ hlc, (o hlc).hlc = hlc ∧ op.Writes (o hlc) ∧
      ∀ V, Enforced validate V schema → isPutTag (o hlc).tag → V (o hlc).value) →
        ∀ g, G g → D.wp (.draw true) g fun hlc => Q (plan.accept (o hlc))) :
    (Handler.planOp validate cfg schema principal plan op).Keeps D Q g := by
  unfold Handler.planOp
  cases hkey : op.key with
  | none => exact hfail _ fun key hgets => by rw [hgets.2] at hkey; cases hkey
  | some key =>
    dsimp only
    by_cases hop : op.op = str "get"
    · rw [if_pos hop]
      exact hget key ⟨hop, hkey⟩
    · have hno : ∀ key, ¬ op.Gets key := fun _ h => hop h.1
      rw [if_neg hop]
      by_cases hput : op.op = str "put"
      · rw [if_pos hput]
        cases htext : op.value with
        | none => exact hfail _ hno
        | some text =>
          rw [Option.map_some]
          cases hvalue : b64Decode text with
          | error e => exact hfail _ hno
          | ok value =>
            dsimp only
            split
            · exact hfail _ hno
            · rename_i hpasses
              have haccept : ∀ now expiresAt, (expiresAt = if op.ttl.getD 0 > 0 then now + UInt64.ofNat (op.ttl.getD 0) * 1000
                  else 0) → ∀ g, G g → D.wp (.draw true) g fun hlc => Q (plan.accept ⟨if expiresAt = 0 then tagPut else tagPutTtl,
                    key, hlc, cfg.root, principal, value, expiresAt⟩) :=
                fun now expiresAt hexp => hwrite _ fun hlc =>
                  ⟨rfl, .put key text value hlc now expiresAt _ _ hput hkey htext hvalue hexp, fun V hV _ => hV value hpasses⟩
              by_cases httl : op.ttl.getD 0 > 0
              · rw [if_pos httl]
                exact D.mono _ _ (fun now g' hg' => haccept now _ (if_pos httl).symm g' hg') hclock
              · rw [if_neg httl]
                exact haccept 0 0 (if_neg httl).symm g hg
      · rw [if_neg hput]
        by_cases hdel : op.op = str "del"
        · rw [if_pos hdel]
          exact hwrite _ (fun hlc => ⟨rfl, .del key hlc _ _ hdel hkey, fun _ _ htag => nomatch htag⟩) g hg
        · rw [if_neg hdel]
          exact hfail _ hno

end

end BunnyMesh
