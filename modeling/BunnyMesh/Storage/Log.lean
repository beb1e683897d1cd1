import BunnyMesh.Storage.Record

/-!
# The append log of a namespace

`storage/log.rs`: a namespace directory holds the segments `log.0.seg`, `log.1.seg`, … and the policy sidecar.  A
`Log` is the in-memory handle; `append` writes a record at its cursor and rolls to a new segment past the cap,
`recoverDurable` scans the segments of a directory and rebuilds the handle, `readRecords` reads records back, and
`writeFresh` replaces the segments by one that holds a given list of records.

Functions that change files return the file-system effects they have, in order, so that a run can be stopped between
any two of them.
-/

namespace BunnyMesh

/-! ### Files -/

/-- A segment file: its bytes, and how many of them have been forced to disk. -/
structure SegFile where
  data : Bytes
  synced : Nat
deriving DecidableEq

/-- A namespace directory: `log.i.seg` at index `i`, and `policy.bin`. -/
structure NsDir where
  segs : List (Option SegFile)
  policy : Option Bytes
deriving DecidableEq

/-- The directory `create_dir_all` leaves when there was none. -/
def NsDir.empty : NsDir := ⟨[], none⟩

def NsDir.seg (nd : NsDir) (i : Nat) : Option SegFile := nd.segs.getD i none

def NsDir.setSeg (nd : NsDir) (i : Nat) (f : Option SegFile) : NsDir :=
  { nd with segs := (nd.segs ++ List.replicate (i + 1 - nd.segs.length) none).set i f }

/-- Overwrite the bytes from position `pos` on; a file grows when the write passes its end. -/
def writeAt (data : Bytes) (pos : Nat) (bytes : Bytes) : Bytes :=
  (data ++ List.replicate (pos - data.length) 0).take pos ++ bytes ++ data.drop (pos + bytes.length)

/-- One file-system effect inside a namespace directory. -/
inductive SegEffect where
  | create (seg : Nat)
  | truncate (seg : Nat)
  | write (seg pos : Nat) (bytes : Bytes)
  | setLen (seg len : Nat)
  | sync (seg : Nat)
  | remove (seg : Nat)
deriving DecidableEq

def SegEffect.apply (nd : NsDir) : SegEffect → NsDir
  | .create i => nd.setSeg i (some ((nd.seg i).getD ⟨[], 0⟩))
  | .truncate i => nd.setSeg i (some ⟨[], 0⟩)
  | .write i pos bytes => nd.setSeg i ((nd.seg i).map fun f => { f with data := writeAt f.data pos bytes })
  | .setLen i len => nd.setSeg i ((nd.seg i).map fun f => ⟨f.data.take len, min f.synced len⟩)
  | .sync i => nd.setSeg i ((nd.seg i).map fun f => { f with synced := f.data.length })
  | .remove i => nd.setSeg i none

def applyAll (nd : NsDir) (effects : List SegEffect) : NsDir := effects.foldl SegEffect.apply nd

/-- The segments `log.i.seg`, `log.(i+1).seg`, … up to the first one missing. -/
def discoverFrom : Nat → List (Option SegFile) → List (Nat × SegFile)
  | _, [] => []
  | _, none :: _ => []
  | i, some f :: rest => (i, f) :: discoverFrom (i + 1) rest

def NsDir.discover (nd : NsDir) : List (Nat × SegFile) := discoverFrom 0 nd.segs

/-! ### The handle -/

/-- 64 MiB segment roll threshold. -/
def segmentBytes : Nat := 64 * 1024 * 1024

inductive RecoverWarning where
  | truncatedTail (recordsDropped : Nat)
deriving DecidableEq

/-- `cur` is the cursor of the open file `log.<curSeg>.seg`. -/
structure Log where
  curSeg : Nat
  cur : Nat
  curLen : Nat
  segLens : List (Nat × Nat)
  seq : Nat
  head : Bytes32
  offsets : List Nat
  durable : Bool
deriving DecidableEq

/-- `if let Some(last) = seg_lens.last_mut() { last.1 = len }` -/
def setLastLen : List (Nat × Nat) → Nat → List (Nat × Nat)
  | [], _ => []
  | [(n, _)], len => [(n, len)]
  | x :: y :: rest, len => x :: setLastLen (y :: rest) len

/-! ### Recovery -/

/-- The running values of the recovery scan. -/
structure Scan where
  seq : Nat
  head : Bytes32
  offsets : List Nat

section Recover

variable [Crates] (dir : Bytes)

def corruptIn (detail : String) : Fault := .err (.corrupt (some dir) detail)

/-- Scan one segment from `pos` on.  `some cut` asks to truncate the segment there and to stop. -/
def scanSeg (segNo : Nat) (isLast : Bool) (segBase : Nat) (buf : Bytes) (pos : Nat) (st : Scan) :
    Res (Scan × Option Nat) :=
  if _hpos : pos < buf.length then do
    let remaining := buf.length - pos
    if remaining < headerLen then
      if isLast then pure (st, some pos)
      else .error (corruptIn dir s!"partial record header in non-final segment {segNo} at offset {pos}")
    else
      let tag ← index buf pos
      ensure (isRecordTag tag) (corruptIn dir s!"bad record tag {hexTag tag} at logical offset {segBase + pos}")
      let declared := fromLe (← slice buf (pos + 1) (pos + 5))
      let recLen := headerLen + declared
      if recLen > remaining then
        if isLast then pure (st, some pos)
        else .error (corruptIn dir s!"record length {recLen} exceeds non-final segment {segNo} remainder")
      else
        let bytes ← slice buf pos (pos + recLen)
        match parse bytes st.head with
        | .ok (_, prev) =>
          scanSeg segNo isLast segBase buf (pos + recLen)
            ⟨st.seq + 1, recordHash prev bytes, st.offsets ++ [segBase + pos]⟩
        | .error (.err e) =>
          if isLast && recLen ≥ remaining then pure (st, some pos)
          else .error (corruptIn dir s!"record {st.seq} (logical offset {segBase + pos}): {e.display}")
        | .error (.panic detail) => .error (.panic detail)
  else pure (st, none)
termination_by buf.length - pos
decreasing_by
  have : 0 < headerLen := by decide
  omega

def scanSegs : List (Nat × SegFile) → Nat → Scan → Res (Scan × Option (Nat × Nat))
  | [], _, st => pure (st, none)
  | (segNo, f) :: rest, total, st => do
    let (st, cut) ← scanSeg dir segNo rest.isEmpty total f.data 0 st
    match cut with
    | some pos => pure (st, some (segNo, pos))
    | none => scanSegs rest (total + f.data.length) st

/-- The handle, the warning and the effects once the scan of `segs` is over. -/
def rebuildLog (segs : List (Nat × Nat)) (st : Scan) (truncate : Option (Nat × Nat)) (durable : Bool) :
    Log × Option RecoverWarning × List SegEffect :=
  let segs := match truncate with
    | some (_, cut) => setLastLen segs cut
    | none => segs
  let warning := truncate.map fun _ => RecoverWarning.truncatedTail 1
  let cutEffects := match truncate with
    | some (segNo, cut) => [SegEffect.setLen segNo cut]
    | none => []
  let (finalSeg, finalLen) := segs.getLastD (0, 0)
  let segs := if segs.isEmpty then [(finalSeg, 0)] else segs
  (⟨finalSeg, finalLen, finalLen, segs, st.seq, st.head, st.offsets, durable⟩, warning,
    cutEffects ++ [.create finalSeg])

/-- Replay all segments, verifying CRC and chain; rebuild head, seq and offsets.  `dir` is the name of the directory. -/
def recoverDurable (nd : NsDir) (durable : Bool) : Res (Log × Option RecoverWarning × List SegEffect) := do
  let (st, truncate) ← scanSegs dir nd.discover 0 ⟨0, .zero, []⟩
  pure (rebuildLog (nd.discover.map fun x => (x.1, x.2.data.length)) st truncate durable)

end Recover

/-! ### Appending -/

/-- A record of this length does not go into the current segment. -/
def Log.Rolls (log : Log) (len : Nat) : Prop := log.curLen > 0 ∧ log.curLen + len > segmentBytes

instance (log : Log) (len : Nat) : Decidable (log.Rolls len) := inferInstanceAs (Decidable (_ ∧ _))

/-- Roll to a fresh segment when the record does not fit the current one. -/
def Log.roll (log : Log) (len : Nat) : Log × List SegEffect :=
  if log.curLen > 0 ∧ log.curLen + len > segmentBytes then
    ({ log with curSeg := log.curSeg + 1, cur := 0, curLen := 0, segLens := log.segLens ++ [(log.curSeg + 1, 0)] },
      [.create (log.curSeg + 1)])
  else (log, [])

/-- Write a serialized record at the cursor of the current segment. -/
def Log.writeRecord [Crates] (log : Log) (bytes : Bytes) : List SegEffect × Res Log :=
  let off := (log.segLens.map (·.2)).sum
  let curLen := log.curLen + bytes.length
  (.write log.curSeg log.cur bytes :: if log.durable then [.sync log.curSeg] else [], do
    let prev ← tryInto32 (← slice bytes 9 41)
    pure { log with
      cur := log.cur + bytes.length
      curLen := curLen
      segLens := setLastLen log.segLens curLen
      seq := log.seq + 1
      offsets := log.offsets ++ [off]
      head := recordHash prev bytes })

/-- Append a serialized record; the effects, and the handle behind it. -/
def Log.append [Crates] (log : Log) (bytes : Bytes) : List SegEffect × Res Log :=
  let (log, rollEffects) := log.roll bytes.length
  let (writeEffects, res) := log.writeRecord bytes
  (rollEffects ++ writeEffects, res)

/-! ### Reading -/

/-- `segment_at`: the segment that holds the logical offset, and the logical offset of its start. -/
def segmentAt (off : Nat) : List (Nat × Nat) → Nat → Res (Nat × Nat)
  | [], _ => .error (corrupt s!"offset {off} beyond log end")
  | (segNo, len) :: rest, acc => if off < acc + len then .ok (segNo, acc) else segmentAt off rest (acc + len)

/-- `read_exact`: `n` bytes at the cursor `pos`. -/
def readExact (data : Bytes) (pos n : Nat) : Res Bytes :=
  if pos + n ≤ data.length then .ok (range data pos (pos + n)) else .error (.err (.io "failed to fill whole buffer"))

def Log.readAt (log : Log) (nd : NsDir) (off : Nat) : Res Bytes := do
  let (segNo, segStart) ← segmentAt off log.segLens 0
  match nd.seg segNo with
  | none => .error (.err (.io "No such file or directory (os error 2)"))
  | some f =>
    let hdr ← readExact f.data (off - segStart) headerLen
    let declared := fromLe (← slice hdr 1 5)
    let rest ← readExact f.data (off - segStart + headerLen) declared
    pure (hdr ++ rest)

def Log.readNth (log : Log) (nd : NsDir) (idx : Nat) : Res (Nat × Bytes) :=
  match log.offsets[idx]? with
  | none => .error (.panic "index out of bounds")
  | some off => do pure (idx + 1, ← log.readAt nd off)

/-- Raw records `[from, from + max)` as `(seq, bytes)`, oldest first; `max = 0` reads to the end. -/
def Log.readRecords (log : Log) (nd : NsDir) (fromSeq max : Nat) : Res (List (Nat × Bytes)) :=
  if fromSeq = 0 ∨ fromSeq > log.seq then .ok []
  else
    let start := fromSeq - 1
    let stop := if max = 0 then log.offsets.length else min (start + max) log.offsets.length
    (List.range' start (stop - start)).mapM (log.readNth nd)

/-! ### Rewriting -/

/-- The bytes of a list of records, each chained to the one before; `head` is the running head. -/
def encodeChain [Crates] : Bytes32 → List Record → List Bytes
  | _, [] => []
  | head, r :: rs => r.toBytes head :: encodeChain (recordHash head (r.toBytes head)) rs

def writeAllFrom : Nat → List Bytes → List SegEffect
  | _, [] => []
  | pos, b :: bs => .write 0 pos b :: writeAllFrom (pos + b.length) bs

/-- Replace the segments by a `log.0.seg` with the given records. -/
def writeFresh [Crates] (nd : NsDir) (records : List Record) : List SegEffect :=
  (nd.discover.map fun x => .remove x.1) ++ [.truncate 0] ++ writeAllFrom 0 (encodeChain .zero records) ++
    [.sync 0]

end BunnyMesh
