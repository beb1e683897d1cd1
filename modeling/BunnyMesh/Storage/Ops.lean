import BunnyMesh.Storage.World

/-!
# The operations of the store

Opening a directory, the local writes, the synced records and the checkpoint, as `storage/mod.rs` runs them against the
files.
-/

namespace BunnyMesh

open Std Store
open ByteCodec (fromUtf8Lossy)

/-! ### Opening -/

def readPolicySidecar (ns : Bytes) : M (Option ConflictPolicy) := do
  match ((← get).disk.dirs[nsDir ns]?).bind (·.policy) with
  | none => pure none
  | some [b] => do pure (some (← liftRes (policyFromU8 b)))
  | some _ => throw (.err (.corrupt (some ns) "policy sidecar length != 1"))

/-- The snapshot is authoritative, the sidecar a fallback; both must agree. -/
def choosePolicy (ns : Bytes) : Option ConflictPolicy → Option ConflictPolicy → Res ConflictPolicy
  | some a, some b => if a ≠ b then .error (.err (.corrupt (some ns) "snapshot policy disagrees with sidecar")) else .ok a
  | some a, none => .ok a
  | none, some b => .ok b
  | none, none => .error (.err (.corrupt (some ns) "namespace has no policy"))

section

variable [Crates]

/-- Replay records, verifying the chain from `head` on; the running head at the end. -/
def replayRecords (ns : Bytes) : List (Nat × Bytes) → Bytes32 → M Bytes32
  | [], head => pure head
  | (seq, bytes) :: rest, head => do
    let (record, prev) ← liftRes (parse bytes head)
    mem (applyRecord ns record seq)
    replayRecords ns rest (recordHash prev bytes)

/-- Recover one namespace: its log, its policy, and the records behind the snapshot. -/
def openNs (info : BMap Bytes (Nat × Bytes32)) (durable : Bool) (ns : Bytes) : M Unit := do
  let log ← recoverLog ns durable
  let snapPolicy := (← get).store.policies[ns]?
  let sidecarPolicy ← readPolicySidecar ns
  let policy ← liftRes (choosePolicy ns snapPolicy sidecarPolicy)
  let (snapSeq, snapHash) := info[ns]?.getD (0, .zero)
  if snapSeq > log.seq then
    throw (.err (.corrupt (some ns) s!"snapshot seq {snapSeq} ahead of log seq {log.seq}"))
  setPolicy ns policy
  let recs ← liftRes (log.readRecords (← getDir ns) (snapSeq + 1) 0)
  let runningHead ← replayRecords ns recs snapHash
  if log.head ≠ runningHead then
    throw (.err (.corrupt (some ns) "replayed head != stored head"))
  setLog ns log

end

def Disk.nsNames (d : Disk) : List Bytes :=
  (ExtTreeSet.ofList (d.dirs.keys.filterMap fun name => parseNsDir (fromUtf8Lossy name)) compare).toList

/-- `load_snap` on the bytes of `index.snap`, if there is one. -/
def loadSnapFile (durable : Bool) : Option Bytes → Res (Store × BMap Bytes (Nat × Bytes32))
  | none => .ok (Store.init durable, ∅)
  | some bytes => do
    let snap ← decodeSnap bytes
    pure ((Store.init durable).loadSnap snap, snap.info)

def createdKey : Bytes := str "created_ms"

def Store.stampCreated (s : Store) (now : UInt64) : Store :=
  if (s.metaGet createdKey).isNone then { s with metaMap := s.metaMap.insert createdKey (le 8 now.toNat) } else s

section

variable [Crates]

/-- `Store::open_durable`; `now` is the wall clock in milliseconds. -/
def openDurable (durable : Bool) (now : UInt64) : M Unit := do
  let (store, info) ← liftRes (loadSnapFile durable (← get).disk.snap)
  modify fun w => { w with store := store }
  let names := (← get).disk.nsNames
  info.keys.forM fun ns =>
    if names.contains ns then pure ()
    else throw (.err (.corrupt (some ns) "snapshot references namespace whose log dir is gone"))
  names.forM (openNs info durable)
  modify fun w => { w with store := w.store.stampCreated now }
  modify fun w => { w with store := w.store.rebuildSecondaryIndexes }

/-! ### Local writes -/

def createNamespace (ns : Bytes) (policy : ConflictPolicy) : M Unit := do
  if !validNs ns then throw (.err (.badName ns))
  if (← get).store.policies.contains ns then throw (.err (.namespaceExists ns))
  let log ← openLog ns (← get).store.durable
  if (((← get).disk.dirs[nsDir ns]?).bind (·.policy)).isSome then
    throw (.err (.io "File exists (os error 17)"))
  effect fun d => d.modifyDir ns fun nd => { nd with policy := some [] }
  effect fun d => d.modifyDir ns fun nd => { nd with policy := some [policyToU8 policy] }
  setPolicy ns policy
  setLog ns log
  mem bumpRevision

/-- Append a record to the log of its namespace, then change the memory. -/
def logged (ns : Bytes) (record : Record) (act : Nat → Mem Unit) : M Nat := do
  let log ← getLog ns
  let seq ← appendLog ns log (record.toBytes log.head)
  mem (act seq)
  pure seq

def putRecord (key value : Bytes) (hlc : UInt64) (replica author : Bytes32) (expiresAt : UInt64) : Record :=
  ⟨⟨if expiresAt = 0 then tagPut else tagPutTtl, key, hlc, replica, author, value, expiresAt⟩, []⟩

def delRecord (key : Bytes) (hlc : UInt64) (replica author : Bytes32) : Record :=
  ⟨⟨tagDel, key, hlc, replica, author, [], 0⟩, []⟩

def put (ns key value : Bytes) (hlc : UInt64) (replica author : Bytes32) (expiresAt : UInt64) : M Nat :=
  let record := putRecord key value hlc replica author expiresAt
  logged ns record (applyLocalOp ns record.toOp)

def delete (ns key : Bytes) (hlc : UInt64) (replica author : Bytes32) : M Nat := do
  requirePolicy ns
  let record := delRecord key hlc replica author
  logged ns record (applyLocalOp ns record.toOp)

/-- The batch record mirrors its first sub-operation. -/
def putBatch (ns : Bytes) (ops : List Op) : M Nat := do
  if ops.isEmpty then throw (.err (.badName ns))
  requirePolicy ns
  logged ns (batchRecord ops) fun seq => ops.forM fun op => applyLocalOp ns op seq

/-- The record of a definition; clearing writes an empty value. -/
def metaRecord (tag : UInt8) (value : Option Bytes) (hlc : UInt64) (replica author : Bytes32) : Record :=
  ⟨⟨tag, [], hlc, replica, author, value.getD [], 0⟩, []⟩

def setMeta (metaKey : Bytes) (value : Option Bytes) : Mem Unit :=
  modify fun s => { s with metaMap := OrdMap.setOrErase s.metaMap metaKey value }

def setSchema (ns : Bytes) (value : Option Bytes) (hlc : UInt64) (replica author : Bytes32) : M Nat := do
  requirePolicy ns
  logged ns (metaRecord tagSchema value hlc replica author) fun _ => do
    setMeta (schemaKey ns) value
    bumpRevision

def setIndex (ns : Bytes) (value : Option Bytes) (hlc : UInt64) (replica author : Bytes32) : M Nat := do
  requirePolicy ns
  logged ns (metaRecord tagIndex value hlc replica author) fun _ => do
    setMeta (indexKey ns) value
    modify fun s => s.rebuildSecIndexNs ns
    bumpRevision

/-! ### Synced records -/

/-- Version identity of a record for dedupe. -/
def versionKey (r : Record) : UInt8 × UInt64 × Bytes32 := (r.tag, r.hlc, r.replica)

def versionKeys : List (Nat × Bytes) → Res (List (UInt8 × UInt64 × Bytes32))
  | [] => .ok []
  | (_, bytes) :: rest =>
    match parseChain bytes none with
    | .ok (record, _) => do pure (versionKey record :: (← versionKeys rest))
    | .error (.err _) => versionKeys rest
    | .error (.panic detail) => .error (.panic detail)

def logVersions (ns : Bytes) : M (List (UInt8 × UInt64 × Bytes32)) := do
  match (← get).store.logs[ns]? with
  | none => pure []
  | some _ => do liftRes (versionKeys (← logRecords ns 1 0))

def applyNew (ns : Bytes) (record : Record) : M Nat :=
  logged ns record fun seq => do
    applyRecord ns record seq
    bumpRevision

def applySynced (ns : Bytes) (record : Record) : M Bool := do
  requirePolicy ns
  if (← logVersions ns).contains (versionKey record) then pure false
  else
    let _ ← applyNew ns record
    pure true

/-- The batch loop: `seen` grows with the records. -/
def applySyncedLoop (ns : Bytes) : List Record → List (UInt8 × UInt64 × Bytes32) → Nat → M Nat
  | [], _, applied => pure applied
  | record :: rest, seen, applied =>
    if seen.contains (versionKey record) then applySyncedLoop ns rest seen applied
    else do
      let _ ← applyNew ns record
      applySyncedLoop ns rest (versionKey record :: seen) (applied + 1)

def applySyncedBatch (ns : Bytes) (records : List Record) : M Nat := do
  requirePolicy ns
  let seen ← logVersions ns
  applySyncedLoop ns records seen 0

/-! ### Checkpoint -/

/-- Fsync the logs, then write the snapshot to a temporary file and rename it. -/
def checkpoint : M Unit := do
  (← get).store.logs.toList.forM fun x => segEffects x.1 [.sync x.2.curSeg]
  let bytes := encodeSnap (← get).store.snapOf
  effect fun d => { d with snapTmp := some [] }
  effect fun d => { d with snapTmp := some bytes }
  effect fun d => { d with snap := d.snapTmp, snapTmp := none }

end

end BunnyMesh
