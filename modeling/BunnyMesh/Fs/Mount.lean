import BunnyMesh.Server.Handler

/-!
# The mount

The callbacks of the FUSE mount that write (`fs/mod.rs`), from the paths on: a file `a/b` of the mount is the key
`fs/a/b` of the owner namespace of the host, and directories are the prefixes of keys.  Every look at the store takes the
read lock for itself, and every change the write lock.
-/

namespace BunnyMesh

open Store
open Interface (Prog)
open ByteCodec (hexEncode hexDecode)

namespace Fs

inductive Errno where
  | eio
  | enoent
  | eacces
  | enospc
  | enosys
deriving DecidableEq

/-! ### Paths and keys -/

def joinChild (parent name : Bytes) : Bytes := if parent.isEmpty then name else parent ++ Scope.slash :: name

def keyOf (path : Bytes) : Bytes := str "fs/" ++ path

def dirPrefix (path : Bytes) : Bytes :=
  let p := str "fs/" ++ path
  if p.getLast? = some Scope.slash then p else p ++ [Scope.slash]

def nsOf (rootPk : Bytes32) : Bytes := str "u/" ++ hexEncode rootPk.val

/-- The replica the mount writes as, read back from the name of its namespace. -/
def rid (ns : Bytes) : Bytes32 :=
  match hexDecode (ns.drop 2) with
  | some b => if h : b.length = 32 then ⟨b, h⟩ else .zero
  | none => .zero

/-! ### What the mount reads -/

/-- `max_by` as the mount compares versions: by the time stamp alone, the last one of the greatest. -/
def maxByHlc : List Version → Option Version
  | [] => none
  | v :: vs => some (vs.foldl (fun a b => if a.hlc ≤ b.hlc then b else a) v)

def liveVersion (s : Store) (ns path : Bytes) (now : UInt64) : Option Version :=
  match s.get ns (keyOf path) with
  | none => none
  | some (.lww v) => if v.live now.toNat then some v else none
  | some (.register vs) => maxByHlc (vs.filter (·.live now.toNat))

/-- The expiry of the winning version that will expire, 0 without one. -/
def liveExpiry (s : Store) (ns path : Bytes) (now : UInt64) : UInt64 :=
  let expires (v : Version) : Bool := v.expiresAt != 0 && decide (v.expiresAt > now)
  match s.get ns (keyOf path) with
  | some (.lww v) => if expires v then v.expiresAt else 0
  | some (.register vs) => ((maxByHlc (vs.filter expires)).map (·.expiresAt)).getD 0
  | none => 0

def dirHasKeys (s : Store) (ns path : Bytes) : Bool :=
  (s.scanKeys ns (dirPrefix path)).any fun k => (dirPrefix path).length ≤ k.length

end Fs

namespace Handler

open Fs

section
variable (ns : Bytes)

def lookNow {α : Type} (f : Store → UInt64 → α) : Handler α := reading do
  let now ← nowMs
  Prog.op (.read (f · now))

def fileExists (path : Bytes) : Handler Bool := do
  pure (← lookNow (liveVersion · ns path ·)).isSome

def readValue (path : Bytes) : Handler (Option Bytes) := do
  pure ((← lookNow (liveVersion · ns path ·)).map (·.value))

def liveExpiresAt (path : Bytes) : Handler UInt64 := lookNow (liveExpiry · ns path ·)

def dirExists (path : Bytes) : Handler Bool := look (dirHasKeys · ns path)

def authorizedSelf : Handler Bool := look fun s => (s.policy ns).isSome

/-! ### What the mount writes -/

def orErrno {α : Type} (e : Errno) : Except StorageError α → Except Errno Unit
  | .ok _ => .ok ()
  | .error _ => .error e

/-- The expiry a rewrite gets: the hint if it lies ahead, and what the key carries without a hint. -/
def expiryFor (path : Bytes) : Option UInt64 → Handler UInt64
  | none => liveExpiresAt ns path
  | some h => do if h ≠ 0 ∧ h > (← nowMs) then pure h else pure 0

def commitTtl (path data : Bytes) (ttlHint : Option UInt64) : Handler (Except Errno Unit) := do
  if !(← authorizedSelf ns) then pure (.error .eacces)
  else
    let expiresAt ← expiryFor ns path ttlHint
    writing do
      let hlc ← stamp
      pure (orErrno .enospc (← store (.put ns (keyOf path) data hlc (rid ns) (rid ns) expiresAt)))

def commit (path data : Bytes) : Handler (Except Errno Unit) := commitTtl ns path data none

def deletePath (path : Bytes) : Handler (Except Errno Unit) := do
  if !(← authorizedSelf ns) then pure (.error .eacces)
  else if path.isEmpty then pure (.error .enoent)
  else writing do
    let hlc ← stamp
    pure (orErrno .eio (← store (.delete ns (keyOf path) hlc (rid ns) (rid ns))))

/-- Delete the keys one after another under one time stamp, until one fails. -/
def deleteKeys (hlc : UInt64) : List Bytes → Handler (Except Errno Unit)
  | [] => pure (.ok ())
  | k :: keys => do
    match ← store (.delete ns k hlc (rid ns) (rid ns)) with
    | .ok _ => deleteKeys hlc keys
    | .error _ => pure (.error .eio)

def deleteAllUnder (path : Bytes) : Handler (Except Errno Unit) := do
  if !(← authorizedSelf ns) then pure (.error .eacces)
  else
    let keys ← reading (Prog.op (.scanKeys ns (dirPrefix path)))
    writing do
      let hlc ← stamp
      deleteKeys ns hlc keys

/-- Move the keys one after another under one time stamp, until one fails; a register is refused. -/
def moveKeys (oldPref newPref : Bytes) (hlc : UInt64) : List Bytes → Handler (Except Errno Unit)
  | [] => pure (.ok ())
  | k :: keys => do
    match ← Prog.op (.read (·.get ns k)) with
    | none => moveKeys oldPref newPref hlc keys
    | some (.register _) => pure (.error .eio)
    | some (.lww v) =>
      match ← store (.put ns (newPref ++ k.drop oldPref.length) v.value hlc (rid ns) (rid ns) v.expiresAt) with
      | .error _ => pure (.error .eio)
      | .ok _ =>
        match ← store (.delete ns k hlc (rid ns) (rid ns)) with
        | .error _ => pure (.error .eio)
        | .ok _ => moveKeys oldPref newPref hlc keys

/-! ### Callbacks -/

def fsCreate (parent name : Bytes) : Handler (Except Errno Unit) := commit ns (joinChild parent name) []

/-- `flush` of a handle that has been written to. -/
def fsFlush (path data : Bytes) : Handler (Except Errno Unit) := commit ns path data

/-- `mkdir` leaves a marker behind, and does not look whether it could. -/
def fsMkdir (parent name : Bytes) : Handler (Except Errno Unit) := do
  if !(← authorizedSelf ns) then pure (.error .eacces)
  else
    let _ ← writing do
      let hlc ← stamp
      store (.put ns (str "fs/" ++ joinChild parent name ++ [Scope.slash]) [] hlc (rid ns) (rid ns) 0)
    pure (.ok ())

def fsUnlink (parent name : Bytes) : Handler (Except Errno Unit) := deletePath ns (joinChild parent name)

def fsRmdir (parent name : Bytes) : Handler (Except Errno Unit) := do
  match ← deleteAllUnder ns (joinChild parent name) with
  | .ok () => deletePath ns (joinChild parent name)
  | .error e => pure (.error e)

def renameFile (source target : Bytes) : Handler (Except Errno Unit) := do
  match ← readValue ns source with
  | none => pure (.error .enoent)
  | some d =>
    let ttl ← liveExpiresAt ns source
    match ← commitTtl ns target d (some ttl) with
    | .error e => pure (.error e)
    | .ok () => deletePath ns source

def renameDir (source target : Bytes) : Handler (Except Errno Unit) := do
  let keys ← reading (Prog.op (.scanKeys ns (dirPrefix source)))
  writing do
    let hlc ← stamp
    moveKeys ns (dirPrefix source) (dirPrefix target) hlc keys

/-- `rename`; `flagged` says that the call carries flags. -/
def fsRename (flagged : Bool) (parent name newParent newName : Bytes) : Handler (Except Errno Unit) := do
  let source := joinChild parent name
  let target := joinChild newParent newName
  if flagged then pure (.error .enosys)
  else if source = target then pure (.ok ())
  else if !(← authorizedSelf ns) then pure (.error .eacces)
  else if ← fileExists ns source then renameFile ns source target
  else if ← dirExists ns source then renameDir ns source target
  else pure (.ok ())

def resized (data : Bytes) (size : Nat) : Bytes := data.take size ++ List.replicate (size - data.length) 0

/-- `setattr` of the size of a file that no handle buffers. -/
def fsTruncate (path : Bytes) (size : Nat) : Handler (Except Errno Unit) := do
  if path.isEmpty then pure (.ok ())
  else if ← dirExists ns path then pure (.ok ())
  else if !(← fileExists ns path) then pure (.error .enoent)
  else commit ns path (resized ((← readValue ns path).getD []) size)

end

end Handler

end BunnyMesh
