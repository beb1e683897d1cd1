import BunnyMesh.Storage.Ops

/-!
# Compaction

`gc_live` on the running store and `compact_dir` on a directory: both rewrite the log of a namespace to the records
that reproduce its current state.  `now` is the wall clock in milliseconds.
-/

namespace BunnyMesh

open Std Store

/-! ### The records that are kept -/

def Version.expired (now : UInt64) (v : Version) : Bool := v.expiresAt ≠ 0 && v.expiresAt ≤ now

/-- The PUT that reproduces a version of `key`. -/
def Version.toRecord (key : Bytes) (v : Version) : Record :=
  putRecord key v.value v.hlc v.replica v.author v.expiresAt

def Entry.kept (now : UInt64) : Entry → List Version
  | .lww v => if v.expired now then [] else [v]
  | .register vs => vs.filter fun v => !v.expired now

def putRecords (s : Store) (ns : Bytes) (now : UInt64) : List Record :=
  (s.scan ns []).flatMap fun x => (x.2.kept now).map (Version.toRecord x.1)

def delRecords (s : Store) (ns : Bytes) : List Record :=
  s.tombs.toList.filterMap fun x =>
    if x.1.1 = ns ∧ s.index.contains (ns, x.1.2) = false then some (delRecord x.1.2 x.2 .zero .zero) else none

def compacted (s : Store) (ns : Bytes) (now : UInt64) : List Record := putRecords s ns now ++ delRecords s ns

/-! ### Steps shared by both -/

def segBytes (ns : Bytes) : M Nat := do
  match (← get).disk.dirs[nsDir ns]? with
  | some nd => pure (nd.discover.map fun x => x.2.data.length).sum
  | none => pure 0

def saturatingAdd (a b : Nat) : Nat := min (a + b) (2 ^ 64 - 1)

/-- Compaction is refused on a node with synced peers. -/
def refusePeers (s : Store) (message : Nat → String) : M Unit :=
  if s.peerClocks.isEmpty then pure () else throw (.err (.io (message s.peerClocks.size)))

def gcRefusal (n : Nat) : String :=
  s!"refusing to compact: node has mesh-synced peers ({n} recorded); compaction is only safe standalone"

def compactRefusal (n : Nat) : String :=
  s!"refusing to compact: node has mesh-synced peers ({n} peer clock(s) recorded); " ++
    "compaction is only safe on a standalone node"

def createDir (ns : Bytes) : M NsDir := do
  effect (·.ensureDir ns)
  getDir ns

section

variable [Crates]

def writeFreshIn (ns : Bytes) (records : List Record) : M Unit := do
  let nd ← createDir ns
  segEffects ns (writeFresh nd records)

/-! ### Live compaction -/

def Store.dropNs (s : Store) (ns : Bytes) : Store :=
  { s with index := s.index.filter fun ek _ => ek.1 ≠ ns, tombs := s.tombs.filter fun ek _ => ek.1 ≠ ns }

/-- `log_records(ns, 1, 0).unwrap_or_default()` -/
def allRecords (ns : Bytes) : M (List (Nat × Bytes)) := fun w =>
  match logRecords ns 1 0 w with
  | .ok recs w => .ok recs w
  | .error (.err _) w => .ok [] w
  | .error (.panic detail) w => .error (.panic detail) w

def reapply (ns : Bytes) : List (Nat × Bytes) → M Unit
  | [] => pure ()
  | (seq, bytes) :: rest =>
    match parseChain bytes none with
    | .ok (record, _) => do
      mem (applyRecord ns record seq)
      reapply ns rest
    | .error (.err _) => reapply ns rest
    | .error (.panic detail) => throw (.panic detail)

/-- Rewrite the log of a namespace and rebuild its state from it. -/
def rewriteNs (ns : Bytes) (out : List Record) : M Unit := do
  writeFreshIn ns out
  let fresh ← openLog ns (← get).store.durable
  setLog ns fresh
  mem (modify fun s => s.dropNs ns)
  reapply ns (← allRecords ns)

/-- One pass of `gc_live`; the bytes reclaimed. -/
def gcNs (now : UInt64) (ns : Bytes) : M Nat := do
  let before ← segBytes ns
  let out := compacted (← get).store ns now
  if !out.isEmpty then rewriteNs ns out
  let after ← segBytes ns
  pure (before - after)

def gcLoop (now : UInt64) : List Bytes → Nat → M Nat
  | [], reclaimed => pure reclaimed
  | ns :: rest, reclaimed => do
    let freed ← gcNs now ns
    gcLoop now rest (saturatingAdd reclaimed freed)

def gcLive (now : UInt64) : M Nat := do
  refusePeers (← get).store gcRefusal
  let nss := (← get).store.namespaces.map (·.1)
  let reclaimed ← gcLoop now nss 0
  checkpoint
  pure reclaimed

/-! ### Offline compaction -/

/-- One pass of `compact_dir`; `s` is the store opened at the start. -/
def compactNs (s : Store) (now : UInt64) (ns : Bytes) : M Nat := do
  let before ← segBytes ns
  let out := compacted s ns now
  if out.isEmpty then
    let nd := ((← get).disk.dirs[nsDir ns]?).getD NsDir.empty
    segEffects ns (nd.discover.map fun x => .remove x.1)
  else writeFreshIn ns out
  let after ← segBytes ns
  pure (before - after)

def compactLoop (s : Store) (now : UInt64) : List Bytes → Nat → M Nat
  | [], reclaimed => pure reclaimed
  | ns :: rest, reclaimed => do
    let freed ← compactNs s now ns
    compactLoop s now rest (saturatingAdd reclaimed freed)

/-- `compact_dir`; `opened` is the time of the two calls of `Store::open`. -/
def compactDir (now opened : UInt64) : M Nat := do
  openDurable false opened
  let s := (← get).store
  refusePeers s compactRefusal
  let reclaimed ← compactLoop s now (s.namespaces.map (·.1)) 0
  openDurable false opened
  checkpoint
  pure reclaimed

end

end BunnyMesh
