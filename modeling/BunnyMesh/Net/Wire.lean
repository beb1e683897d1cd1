import BunnyMesh.Net.Base64
import BunnyMesh.Storage.Ops

/-!
# Messages of the sync protocol

The requests and responses two nodes exchange, the chunk of its log a node answers a pull with, the check of a pulled
chunk, and the choice of the namespaces to pull.
-/

namespace BunnyMesh

open Std
open ByteCodec (hexEncode hexDecode)

/-! ### Identities -/

structure PeerId where
  bytes : Bytes
deriving DecidableEq

/-- What the sync engine takes from `libp2p`: the peer id of a host key (`none` where the bytes are no ed25519 key, on
which the code panics), and the canonical text of an address it can parse. -/
class Libp2p where
  peerIdOf : Bytes32 → Option PeerId
  parseAddr : Bytes → Option Bytes

def parseKey (s : Bytes) : Option Bytes32 :=
  match hexDecode s with
  | some b => if h : b.length = 32 then some ⟨b, h⟩ else none
  | none => none

def showKey (pk : Bytes32) : Bytes := hexEncode pk.val

theorem parseKey_showKey (pk : Bytes32) : parseKey (showKey pk) = some pk := by
  simp [parseKey, showKey, ByteCodec.hexDecode_hexEncode]

/-! ### Messages -/

inductive SyncRequest where
  | hello
  | pull (ns : Bytes) (fromSeq : Nat)
deriving DecidableEq

structure NsHead where
  ns : Bytes
  seq : Nat
  hash : Bytes
deriving DecidableEq

structure HelloResponse where
  hostId : Bytes
  hlc : UInt64
  namespaces : List NsHead
deriving DecidableEq

structure Rec where
  seq : Nat
  payloadB64 : Bytes
deriving DecidableEq

structure Records where
  ns : Bytes
  records : List Rec
deriving DecidableEq

inductive SyncResponse where
  | hello (resp : HelloResponse)
  | records (recs : Records)
  | denied
deriving DecidableEq

def maxRecords : Nat := 1000

def maxFrameBytes : Nat := 960 * 1024

def checkpointEvery : Nat := 1000

def maxChunksPerTick : Nat := 32

def maxSingleRecordB64 : Nat := 8 * 1024 * 1024

/-! ### Serving a pull -/

/-- The records of the log that go into one chunk; `none` where a record is too large to serve at all. -/
def chunk : List (Nat × Bytes) → List Rec → Nat → Option (List Rec)
  | [], out, _ => some out
  | (seq, payload) :: rest, out, bytes =>
    if (payload.length + 2) / 3 * 4 > maxSingleRecordB64 then none
    else if payload.length > maxFrameBytes then
      -- larger than the budget of a chunk: sent alone
      some (if out.isEmpty then [⟨seq, b64Encode payload⟩] else out)
    else if out.length ≥ maxRecords || bytes + payload.length > maxFrameBytes then some out
    else chunk rest (out ++ [⟨seq, b64Encode payload⟩]) (bytes + payload.length)

/-- `Store::namespaces_with_head`, as a Hello advertises it. -/
def Store.nsHeads (s : Store) : List NsHead :=
  s.policies.keys.filterMap fun ns => (s.logs[ns]?).map fun l => ⟨ns, l.seq, hexEncode l.head.val⟩

/-! ### Checking a pulled chunk -/

inductive MergeError where
  | corrupt (detail : String)
  | nonMonotonicHlc (seq : Nat)
  | unknownNamespace (ns : Bytes)
deriving DecidableEq

inductive MergeFault where
  | err (e : MergeError)
  | panic (detail : String)
deriving DecidableEq

section

variable [Crates]

/-- The records of a chunk, each chained to the one before it; the first one is chained to nothing we know. -/
def verifyFrom : Option Bytes32 → List (Nat × Bytes) → Except MergeFault (List Record)
  | _, [] => .ok []
  | prevHash, (seq, bytes) :: rest =>
    match parseChain bytes prevHash with
    | .error (.err e) => .error (.err (.corrupt s!"record {seq}: {e.display}"))
    | .error (.panic detail) => .error (.panic detail)
    | .ok (record, prev) =>
      if isRecordTag record.tag then do
        let out ← verifyFrom (some (recordHash prev bytes)) rest
        pure (record :: out)
      else .error (.err (.corrupt s!"record {seq}: bad tag {hexTag record.tag}"))

def verifyBatch (records : List (Nat × Bytes)) : Except MergeFault (List Record) := verifyFrom none records

end

def decodeRecs (recs : List Rec) : Except B64Error (List (Nat × Bytes)) :=
  recs.mapM fun r => do pure (r.seq, ← b64Decode r.payloadB64)

/-! ### Choosing what to pull -/

/-- The namespaces a Hello makes us pull, each with the sequence number to reach: those we host and are behind on, never
further than the records of two full rounds at once. -/
def pullTarget (s : Store) (nh : NsHead) : Option (Bytes × Nat) :=
  if (s.policy nh.ns).isNone then none
  else match s.head nh.ns with
    | none => none
    | some (localSeq, _) =>
      if localSeq < nh.seq then
        let target := min nh.seq (localSeq + maxRecords * maxChunksPerTick * 2)
        if localSeq < target then some (nh.ns, target) else none
      else none

/-! ### Lemmas -/

theorem chunk_eq_some {recs : List (Nat × Bytes)} {out out' : List Rec} {bytes : Nat}
    (h : chunk recs out bytes = some out') :
    ∃ k, out' = out ++ (recs.take k).map fun x => ⟨x.1, b64Encode x.2⟩ := by
  induction recs generalizing out bytes with
  | nil => exact ⟨0, by simpa [chunk, eq_comm] using h⟩
  | cons x recs ih =>
    obtain ⟨seq, payload⟩ := x
    rw [chunk] at h
    split_ifs at h with hbig hframe hempty hfull
    · -- a record larger than the chunk budget goes alone
      have hout : out = [] := List.isEmpty_iff.1 hempty
      exact ⟨1, by rw [← Option.some.inj h, hout]; rfl⟩
    · exact ⟨0, by simpa [eq_comm] using h⟩
    · exact ⟨0, by simpa [eq_comm] using h⟩
    · obtain ⟨k, hk⟩ := ih h
      exact ⟨k + 1, by rw [hk, List.take_succ_cons, List.map_cons, List.append_assoc]; rfl⟩

theorem decodeRecs_encoded (recs : List (Nat × Bytes)) :
    decodeRecs (recs.map fun x => ⟨x.1, b64Encode x.2⟩) = .ok recs := by
  unfold decodeRecs
  induction recs with
  | nil => rfl
  | cons x recs ih =>
    rw [List.map_cons, List.mapM_cons, ih, b64Decode_b64Encode]
    rfl

theorem pullTarget_eq_none {s : Store} {nh : NsHead} {localSeq : Nat} {hash : Bytes32}
    (hp : (s.policy nh.ns).isSome) (hh : s.head nh.ns = some (localSeq, hash)) :
    pullTarget s nh = none ↔ nh.seq ≤ localSeq := by
  have hpos : 0 < maxRecords * maxChunksPerTick * 2 := by decide
  have hn : (s.policy nh.ns).isNone = false := by
    cases hs : s.policy nh.ns with
    | none => rw [hs] at hp; cases hp
    | some p => rfl
  simp only [pullTarget, hn, Bool.false_eq_true, if_false, hh]
  split_ifs with h1 h2
  · simp only [false_iff]
    omega
  · omega
  · simp only [true_iff]
    omega

end BunnyMesh
