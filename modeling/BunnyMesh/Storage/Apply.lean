import BunnyMesh.Lib.Exec
import BunnyMesh.Storage.Store

/-!
# Applying operations in memory

The two ways a write reaches the in-memory state.  `applyLocalOp` is new user intent: it resurrects a tombstoned key
and overwrites an LWW entry unconditionally.  `applyRecordOp` is used for synced and replayed records: an LWW entry
keeps the greater `(hlc, replica)`, and a tombstone stays.  A failing call keeps what it has done so far.
-/

namespace BunnyMesh

open Store

abbrev Mem := EStateM Fault Store

def badTag (ns : Bytes) (tag : UInt8) : Fault := .err (.corrupt (some ns) s!"bad tag {tag.toNat}")

def notRegister (ns : Bytes) : Fault := .err (.corrupt (some ns) "register policy entry not a Register")

/-- The version an operation writes; `seq` is the number of the record that carries it. -/
def Op.version (op : Op) (seq : Nat) : Version := ⟨op.hlc, op.replica, op.author, op.value, seq, op.expiresAt⟩

def Store.bump (s : Store) : Store := { s with revision := s.revision + 1 }

def bumpRevision : Mem Unit := modify Store.bump

def setEntry (ek : EntryKey) (e : Entry) : Mem Unit := modify fun s => { s with index := s.index.insert ek e }

def getPolicy (ns : Bytes) : Mem ConflictPolicy := do
  match (← get).policies[ns]? with
  | some policy => pure policy
  | none => throw (.err (.badName ns))

def pushVersion (ns : Bytes) (ek : EntryKey) (version : Version) : Mem Unit := do
  match (← get).index[ek]? with
  | some (.register vs) => setEntry ek (.register (vs ++ [version]))
  | some (.lww _) => throw (notRegister ns)
  | none => setEntry ek (.register [version])

section

variable [Crates]

/-- The deletion of a key, the same on both paths. -/
def applyDel (ns : Bytes) (op : Op) : Mem Unit := do
  modify fun s => { s with index := s.index.erase (ns, op.key), tombs := s.tombs.insert (ns, op.key) op.hlc }
  modify fun s => s.removeFromSecIndex ns op.key

def applyLocalOp (ns : Bytes) (op : Op) (seq : Nat) : Mem Unit := do
  let policy ← getPolicy ns
  if isPutTag op.tag then
    modify fun s => { s with tombs := s.tombs.erase (ns, op.key) }
    match policy with
    | .lww => setEntry (ns, op.key) (.lww (op.version seq))
    | .crdtRegister => pushVersion ns (ns, op.key) (op.version seq)
    modify fun s => s.refreshSecIndexFor ns op.key
  else if op.tag = tagDel then applyDel ns op
  else throw (badTag ns op.tag)
  bumpRevision

/-- Keep the greater `(hlc, replica)`; a later arrival wins a tie. -/
def isNewer (version : Version) : Option Entry → Bool
  | some (.lww v) => v.stamp ≤ version.stamp
  | _ => true

def applyRecordOp (ns : Bytes) (op : Op) (seq : Nat) : Mem Unit := do
  let policy ← getPolicy ns
  if isPutTag op.tag then
    match policy with
    | .lww =>
      if isNewer (op.version seq) (← get).index[(ns, op.key)]? then
        setEntry (ns, op.key) (.lww (op.version seq))
    | .crdtRegister => pushVersion ns (ns, op.key) (op.version seq)
    modify fun s => s.refreshSecIndexFor ns op.key
  else if op.tag = tagDel then applyDel ns op
  else throw (badTag ns op.tag)

/-- A metadata record: an empty value clears. -/
def setOrClear (key value : Bytes) : Mem Unit :=
  modify fun s => { s with metaMap := if value.isEmpty then s.metaMap.erase key else s.metaMap.insert key value }

def applyRecord (ns : Bytes) (record : Record) (seq : Nat) : Mem Unit := do
  if isOpTag record.tag then applyRecordOp ns record.toOp seq
  else if record.tag = tagBatch then record.ops.forM fun op => applyRecordOp ns op seq
  else if record.tag = tagSchema then setOrClear (schemaKey ns) record.value
  else if record.tag = tagIndex then
    setOrClear (indexKey ns) record.value
    modify fun s => s.rebuildSecIndexNs ns
  else throw (badTag ns record.tag)

end

end BunnyMesh
