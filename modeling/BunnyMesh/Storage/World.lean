import BunnyMesh.Lib.Exec
import BunnyMesh.Storage.Snapshot
import BunnyMesh.Storage.Apply

/-!
# The store on its directory

A `World` is the store of a running process together with the directory it works on.  Every change of a file goes
through `effect`, which also notes the directory it leaves in `points`: these are the directories a crash can leave
behind.
-/

namespace BunnyMesh

open Std Store

/-- The data directory: the namespace directories by name, `index.snap` and `index.snap.tmp`. -/
structure Disk where
  dirs : BMap Bytes NsDir
  snap : Option Bytes
  snapTmp : Option Bytes

def Disk.empty : Disk := ⟨∅, none, none⟩

structure World where
  store : Store
  disk : Disk
  points : List Disk

abbrev M := EStateM Fault World

def effect (f : Disk → Disk) : M Unit :=
  modify fun w => { w with disk := f w.disk, points := w.points ++ [f w.disk] }

def Disk.modifyDir (d : Disk) (ns : Bytes) (f : NsDir → NsDir) : Disk :=
  match d.dirs[nsDir ns]? with
  | some nd => { d with dirs := d.dirs.insert (nsDir ns) (f nd) }
  | none => d

def Disk.ensureDir (d : Disk) (ns : Bytes) : Disk :=
  if d.dirs[nsDir ns]?.isNone then { d with dirs := d.dirs.insert (nsDir ns) NsDir.empty } else d

/-- The effects of a log function in the directory of its namespace, in order. -/
def segEffects (ns : Bytes) (effects : List SegEffect) : M Unit :=
  effects.forM fun e => effect fun d => d.modifyDir ns e.apply

def mem {α : Type} (x : Mem α) : M α := fun w =>
  match x w.store with
  | .ok a s => .ok a { w with store := s }
  | .error e s => .error e { w with store := s }

def liftRes {α : Type} : Res α → M α
  | .ok a => pure a
  | .error e => throw e

def notFoundIo : Fault := .err (.io "No such file or directory (os error 2)")

def getDir (ns : Bytes) : M NsDir := do
  match (← get).disk.dirs[nsDir ns]? with
  | some nd => pure nd
  | none => throw notFoundIo

def getLog (ns : Bytes) : M Log := do
  match (← get).store.logs[ns]? with
  | some log => pure log
  | none => throw (.err (.notFound ns))

def Store.setLog (s : Store) (ns : Bytes) (log : Log) : Store := { s with logs := s.logs.insert ns log }

def setLog (ns : Bytes) (log : Log) : M Unit := modify fun w => { w with store := w.store.setLog ns log }

def Store.setPolicy (s : Store) (ns : Bytes) (policy : ConflictPolicy) : Store :=
  { s with policies := s.policies.insert ns policy }

def setPolicy (ns : Bytes) (policy : ConflictPolicy) : M Unit :=
  modify fun w => { w with store := w.store.setPolicy ns policy }

/-- `BadName` unless the namespace exists. -/
def requirePolicy (ns : Bytes) : M Unit := do
  if (← get).store.policies[ns]?.isNone then throw (.err (.badName ns))

section

variable [Crates]

/-- `Log::recover_durable` on the directory of a namespace. -/
def recoverLog (ns : Bytes) (durable : Bool) : M Log := do
  let nd ← getDir ns
  let (log, _, effects) ← liftRes (recoverDurable (nsDir ns) nd durable)
  segEffects ns effects
  pure log

def openLog (ns : Bytes) (durable : Bool) : M Log := do
  effect (·.ensureDir ns)
  recoverLog ns durable

def appendLog (ns : Bytes) (log : Log) (bytes : Bytes) : M Nat := do
  let (effects, res) := log.append bytes
  segEffects ns effects
  let log ← liftRes res
  setLog ns log
  pure log.seq

def logRecords (ns : Bytes) (fromSeq max : Nat) : M (List (Nat × Bytes)) := do
  let log ← getLog ns
  let nd ← getDir ns
  liftRes (log.readRecords nd fromSeq max)

end

end BunnyMesh
