import BunnyMesh.Lib.Reader
import BunnyMesh.Lib.OrdMap
import BunnyMesh.Storage.Store

/-!
# The snapshot

`index.snap`: the revision, the metadata, the peer clocks and, for every namespace, its policy, the log head it was
taken at, its entries and its tombstones.  `snapOf` is what a checkpoint writes and `loadSnap` what opening reads.  A
snapshot whose lengths fit their 32-bit fields is read back (`decodeSnap_encodeSnap`).
-/

namespace BunnyMesh

open Std Store ByteCodec
open ByteCodec.Reader (Reads)
open OrdMap (insertAll)

def snapMagic : Bytes := str "BMDBIDX2"

/-- v1 (pre-TTL) snapshot. -/
def snapMagicV1 : Bytes := str "BMDBIDX1"

structure SnapNs where
  ns : Bytes
  policy : ConflictPolicy
  headSeq : Nat
  headHash : Bytes32
  entries : List (Bytes × Entry)
  tombs : List (Bytes × UInt64)

structure Snap where
  revision : Nat
  metas : List (Bytes × Bytes)
  peerClocks : List (Bytes × Int64)
  nss : List SnapNs

/-! ### Writing -/

def writeBytes (b : Bytes) : Bytes := le 4 b.length ++ b

def writeVersion (v : Version) : Bytes :=
  le 8 v.hlc.toNat ++ (v.replica.val ++ (v.author.val ++ (writeBytes v.value ++ (le 8 v.seq ++
    le 8 v.expiresAt.toNat))))

def writeEntry : Entry → Bytes
  | .lww v => [0] ++ writeVersion v
  | .register vs => [1] ++ (le 4 vs.length ++ vs.flatMap writeVersion)

def writeKeyed (x : Bytes × Entry) : Bytes := writeBytes x.1 ++ writeEntry x.2

def writeTomb (x : Bytes × UInt64) : Bytes := writeBytes x.1 ++ le 8 x.2.toNat

def writeMeta (x : Bytes × Bytes) : Bytes := writeBytes x.1 ++ writeBytes x.2

def writePeerClock (x : Bytes × Int64) : Bytes := writeBytes x.1 ++ le 8 x.2.toUInt64.toNat

def writeNs (n : SnapNs) : Bytes :=
  writeBytes n.ns ++ ([policyToU8 n.policy] ++ (le 8 n.headSeq ++ (n.headHash.val ++
    ((le 4 n.entries.length ++ n.entries.flatMap writeKeyed) ++ (le 4 n.tombs.length ++ n.tombs.flatMap writeTomb)))))

def writeBody (snap : Snap) : Bytes :=
  le 8 snap.revision ++ ((le 4 snap.metas.length ++ snap.metas.flatMap writeMeta) ++
    ((le 4 snap.peerClocks.length ++ snap.peerClocks.flatMap writePeerClock) ++
      (le 4 snap.nss.length ++ snap.nss.flatMap writeNs)))

def encodeSnap (snap : Snap) : Bytes := snapMagic ++ writeBody snap

def Store.snapOf (s : Store) : Snap where
  revision := s.revision
  metas := s.metaMap.toList
  peerClocks := s.peerClocks.toList
  nss := s.policies.toList.map fun x =>
    let head := (s.head x.1).getD (0, .zero)
    { ns := x.1
      policy := x.2
      headSeq := head.1
      headHash := head.2
      entries := (s.index.toList.filter fun y => y.1.1 == x.1).map fun y => (y.1.2, y.2)
      tombs := (s.tombs.toList.filter fun y => y.1.1 == x.1).map fun y => (y.1.2, y.2) }

/-! ### Reading -/

def snapTruncated : Fault := corrupt "snapshot truncated"

abbrev R := Reader Fault

def readU64 : R UInt64 := do pure (UInt64.ofNat (← Reader.int snapTruncated 8))

def readFixed32 : R Bytes32 := do Reader.lift (tryInto32 (← Reader.take snapTruncated 32))

def readBytes : R Bytes := Reader.bytes snapTruncated

/-- A name: `String::from_utf8_lossy` of the bytes. -/
def readName : R Bytes := do pure (fromUtf8Lossy (← readBytes))

/-- A version; v1 snapshots have no `expires_at`. -/
def readVersion (v1 : Bool) : R Version := do
  let hlc ← readU64
  let replica ← readFixed32
  let author ← readFixed32
  let value ← readBytes
  let seq ← Reader.int snapTruncated 8
  let expiresAt ← if v1 then pure 0 else readU64
  pure ⟨hlc, replica, author, value, seq, expiresAt⟩

def readEntry (v1 : Bool) (ns : Bytes) : R Entry := do
  let tag ← Reader.byte snapTruncated
  if tag = 0 then
    let v ← readVersion v1
    pure (.lww v)
  else if tag = 1 then
    let vs ← Reader.list snapTruncated (readVersion v1)
    pure (.register vs)
  else Reader.lift (.error (.err (.corrupt (some ns) s!"bad entry tag {tag.toNat}")))

def readKeyed (v1 : Bool) (ns : Bytes) : R (Bytes × Entry) := do
  let key ← readBytes
  let entry ← readEntry v1 ns
  pure (key, entry)

def readTomb : R (Bytes × UInt64) := do
  let key ← readBytes
  let hlc ← readU64
  pure (key, hlc)

def readMeta : R (Bytes × Bytes) := do
  let k ← readName
  let v ← readBytes
  pure (k, v)

def readPeerClock : R (Bytes × Int64) := do
  let name ← readName
  let diff ← readU64
  pure (name, diff.toInt64)

def readNs (v1 : Bool) : R SnapNs := do
  let ns ← readName
  let policy ← Reader.lift (policyFromU8 (← Reader.byte snapTruncated))
  let headSeq ← Reader.int snapTruncated 8
  let headHash ← readFixed32
  let entries ← Reader.list snapTruncated (readKeyed v1 ns)
  let tombs ← Reader.list snapTruncated readTomb
  pure ⟨ns, policy, headSeq, headHash, entries, tombs⟩

def readBody (v1 : Bool) : R Snap := do
  let revision ← Reader.int snapTruncated 8
  let metas ← Reader.list snapTruncated readMeta
  let peerClocks ← Reader.list snapTruncated readPeerClock
  let nss ← Reader.list snapTruncated (readNs v1)
  pure ⟨revision, metas, peerClocks, nss⟩

def decodeSnap (bytes : Bytes) : Res Snap := do
  ensure (8 ≤ bytes.length) (corrupt "index.snap too short")
  let v1 := bytes.take 8 == snapMagicV1
  ensure (v1 || bytes.take 8 == snapMagic) (corrupt "index.snap magic mismatch")
  let (snap, rest) ← readBody v1 (bytes.drop 8)
  ensure rest.isEmpty (corrupt "trailing bytes in snapshot")
  pure snap

def Snap.indexList (snap : Snap) : List (EntryKey × Entry) :=
  snap.nss.flatMap fun n => n.entries.map fun x => ((n.ns, x.1), x.2)

def Snap.tombList (snap : Snap) : List (EntryKey × UInt64) :=
  snap.nss.flatMap fun n => n.tombs.map fun x => ((n.ns, x.1), x.2)

def Store.loadSnap (s : Store) (snap : Snap) : Store :=
  { s with
    revision := snap.revision
    metaMap := insertAll s.metaMap snap.metas
    peerClocks := insertAll s.peerClocks snap.peerClocks
    index := insertAll s.index snap.indexList
    tombs := insertAll s.tombs snap.tombList
    policies := insertAll s.policies (snap.nss.map fun n => (n.ns, n.policy)) }

def Snap.info (snap : Snap) : BMap Bytes (Nat × Bytes32) :=
  insertAll ∅ (snap.nss.map fun n => (n.ns, (n.headSeq, n.headHash)))

/-! ### Reading back a snapshot -/

def Version.Fits (v : Version) : Prop := v.value.length < 2 ^ 32 ∧ v.seq < 2 ^ 64

def Entry.Fits : Entry → Prop
  | .lww v => v.Fits
  | .register vs => vs.length < 2 ^ 32 ∧ ∀ v ∈ vs, v.Fits

@[mk_iff]
structure SnapNs.Fits (n : SnapNs) : Prop where
  name : isUtf8 n.ns
  nameLen : n.ns.length < 2 ^ 32
  headSeq : n.headSeq < 2 ^ 64
  entriesLen : n.entries.length < 2 ^ 32
  entries : ∀ x ∈ n.entries, x.1.length < 2 ^ 32 ∧ x.2.Fits
  tombsLen : n.tombs.length < 2 ^ 32
  tombs : ∀ x ∈ n.tombs, x.1.length < 2 ^ 32

@[mk_iff]
structure Snap.Fits (snap : Snap) : Prop where
  revision : snap.revision < 2 ^ 64
  metasLen : snap.metas.length < 2 ^ 32
  metas : ∀ x ∈ snap.metas, isUtf8 x.1 ∧ x.1.length < 2 ^ 32 ∧ x.2.length < 2 ^ 32
  peerClocksLen : snap.peerClocks.length < 2 ^ 32
  peerClocks : ∀ x ∈ snap.peerClocks, isUtf8 x.1 ∧ x.1.length < 2 ^ 32
  nssLen : snap.nss.length < 2 ^ 32
  nss : ∀ n ∈ snap.nss, n.Fits

instance (v : Version) : Decidable v.Fits := inferInstanceAs (Decidable (_ ∧ _))

instance : (e : Entry) → Decidable e.Fits
  | .lww v => inferInstanceAs (Decidable v.Fits)
  | .register vs => inferInstanceAs (Decidable (vs.length < 2 ^ 32 ∧ ∀ v ∈ vs, v.Fits))

instance (n : SnapNs) : Decidable n.Fits := decidable_of_iff' _ (SnapNs.fits_iff n)

instance (snap : Snap) : Decidable snap.Fits := decidable_of_iff' _ (Snap.fits_iff snap)

theorem reads_u64 (n : UInt64) : Reads readU64 (le 8 n.toNat) n :=
  (Reader.reads_int snapTruncated n.toNat_lt).map (by rw [UInt64.ofNat_toNat])

theorem reads_fixed32 (b : Bytes32) : Reads readFixed32 b.val b := by
  have h := (Reader.reads_take snapTruncated b.len).bind
    (f := fun x => Reader.lift (tryInto32 x)) (Reader.reads_lift (tryInto32_val b))
  rwa [List.append_nil] at h

theorem reads_bytes {b : Bytes} (h : b.length < 2 ^ 32) : Reads readBytes (writeBytes b) b :=
  Reader.reads_bytes snapTruncated h

theorem reads_name {b : Bytes} (hu : isUtf8 b) (h : b.length < 2 ^ 32) : Reads readName (writeBytes b) b :=
  (reads_bytes h).map (by rw [fromUtf8Lossy_of_isUtf8 hu])

theorem reads_version {v : Version} (h : v.Fits) : Reads (readVersion false) (writeVersion v) v :=
  (reads_u64 v.hlc).bind <| (reads_fixed32 v.replica).bind <| (reads_fixed32 v.author).bind <|
    (reads_bytes h.1).bind <| (Reader.reads_int snapTruncated (w := 8) h.2).bind <| (reads_u64 v.expiresAt).map rfl

theorem reads_entry {e : Entry} (h : e.Fits) (ns : Bytes) : Reads (readEntry false ns) (writeEntry e) e := by
  cases e with
  | lww v => exact (Reader.reads_byte snapTruncated 0).bind ((reads_version h).map rfl)
  | register vs =>
    exact (Reader.reads_byte snapTruncated 1).bind
      ((Reader.reads_list snapTruncated h.1 fun v hv => reads_version (h.2 v hv)).map rfl)

theorem reads_keyed {x : Bytes × Entry} (h : x.1.length < 2 ^ 32 ∧ x.2.Fits) (ns : Bytes) :
    Reads (readKeyed false ns) (writeKeyed x) x :=
  (reads_bytes h.1).bind ((reads_entry h.2 ns).map rfl)

theorem reads_tomb {x : Bytes × UInt64} (h : x.1.length < 2 ^ 32) : Reads readTomb (writeTomb x) x :=
  (reads_bytes h).bind ((reads_u64 x.2).map rfl)

theorem reads_meta {x : Bytes × Bytes} (h : isUtf8 x.1 ∧ x.1.length < 2 ^ 32 ∧ x.2.length < 2 ^ 32) :
    Reads readMeta (writeMeta x) x :=
  (reads_name h.1 h.2.1).bind ((reads_bytes h.2.2).map rfl)

theorem reads_peerClock {x : Bytes × Int64} (h : isUtf8 x.1 ∧ x.1.length < 2 ^ 32) :
    Reads readPeerClock (writePeerClock x) x :=
  (reads_name h.1 h.2).bind ((reads_u64 x.2.toUInt64).map rfl)

theorem policyFromU8_policyToU8 (p : ConflictPolicy) : policyFromU8 (policyToU8 p) = .ok p := by
  cases p <;> rfl

theorem reads_ns {n : SnapNs} (h : n.Fits) : Reads (readNs false) (writeNs n) n := by
  refine (reads_name h.name h.nameLen).bind <| (Reader.reads_byte snapTruncated _).bind ?_
  refine (Reader.reads_lift (policyFromU8_policyToU8 n.policy)).bind (w := []) ?_
  exact (Reader.reads_int snapTruncated (w := 8) h.headSeq).bind <| (reads_fixed32 n.headHash).bind <|
    (Reader.reads_list snapTruncated h.entriesLen fun x hx => reads_keyed (h.entries x hx) n.ns).bind <|
      (Reader.reads_list snapTruncated h.tombsLen fun x hx => reads_tomb (h.tombs x hx)).map rfl

theorem reads_body {snap : Snap} (h : snap.Fits) : Reads (readBody false) (writeBody snap) snap :=
  (Reader.reads_int snapTruncated (w := 8) h.revision).bind <|
    (Reader.reads_list snapTruncated h.metasLen fun x hx => reads_meta (h.metas x hx)).bind <|
      (Reader.reads_list snapTruncated h.peerClocksLen fun x hx => reads_peerClock (h.peerClocks x hx)).bind <|
        (Reader.reads_list snapTruncated h.nssLen fun n hn => reads_ns (h.nss n hn)).map rfl

theorem decodeSnap_encodeSnap {snap : Snap} (h : snap.Fits) : decodeSnap (encodeSnap snap) = .ok snap := by
  have hlen : snapMagic.length = 8 := by decide
  have htake : (encodeSnap snap).take 8 = snapMagic := by rw [encodeSnap, ← hlen, List.take_left]
  have hdrop : (encodeSnap snap).drop 8 = writeBody snap := by rw [encodeSnap, ← hlen, List.drop_left]
  have hmagic : (snapMagic == snapMagicV1) = false := by decide
  have hle : 8 ≤ (encodeSnap snap).length := by rw [encodeSnap, List.length_append]; omega
  simp [decodeSnap, htake, hdrop, hmagic, decide_eq_true hle, ensure_true, (reads_body h).run_nil]

/-! ### Loading what a checkpoint wrote -/

/-- Every entry and tombstone belongs to a namespace of the store. -/
structure Store.Owned (s : Store) : Prop where
  index : ∀ ns k : Bytes, s.index[(ns, k)]? ≠ none → s.policies[ns]? ≠ none
  tombs : ∀ ns k : Bytes, s.tombs[(ns, k)]? ≠ none → s.policies[ns]? ≠ none

theorem mem_flatMap_namespaces {V : Type} (m : BMap EntryKey V) (policies : BMap Bytes ConflictPolicy) (ek : EntryKey)
    (v : V) : (ek, v) ∈ (policies.toList.flatMap fun x =>
      ((m.toList.filter fun y => y.1.1 == x.1).map fun y => ((x.1, y.1.2), y.2))) ↔
      policies[ek.1]? ≠ none ∧ m[ek]? = some v := by
  simp only [List.mem_flatMap, List.mem_map, List.mem_filter, beq_iff_eq, Prod.exists, Prod.mk.injEq]
  constructor
  · rintro ⟨ns, p, hp, n, k, v', ⟨hm, rfl⟩, rfl, rfl⟩
    exact ⟨by rw [ExtTreeMap.mem_toList_iff_getElem?_eq_some.1 hp]; simp, ExtTreeMap.mem_toList_iff_getElem?_eq_some.1 hm⟩
  · rintro ⟨hp, hm⟩
    obtain ⟨p, hp⟩ := Option.ne_none_iff_exists'.1 hp
    exact ⟨ek.1, p, ExtTreeMap.mem_toList_iff_getElem?_eq_some.2 hp, ek.1, ek.2, v,
      ⟨ExtTreeMap.mem_toList_iff_getElem?_eq_some.2 hm, rfl⟩, rfl, rfl⟩

theorem insertAll_namespaces {V : Type} {m : BMap EntryKey V} {policies : BMap Bytes ConflictPolicy}
    (h : ∀ ns k : Bytes, m[(ns, k)]? ≠ none → policies[ns]? ≠ none) :
    insertAll ∅ (policies.toList.flatMap fun x =>
      ((m.toList.filter fun y => y.1.1 == x.1).map fun y => ((x.1, y.1.2), y.2))) = m := by
  refine ExtTreeMap.ext_getElem? fun ek => ?_
  cases hm : m[ek]? with
  | none =>
    rw [OrdMap.getElem?_insertAll_of_not_mem, ExtTreeMap.getElem?_empty]
    intro v hv
    rw [mem_flatMap_namespaces, hm] at hv
    cases hv.2
  | some v =>
    refine OrdMap.getElem?_insertAll_of_mem (fun v' hv' => ?_) ?_
    · rw [mem_flatMap_namespaces, hm] at hv'
      exact (Option.some.inj hv'.2).symm
    · rw [mem_flatMap_namespaces]
      exact ⟨h ek.1 ek.2 (by rw [hm]; simp), hm⟩

theorem Store.indexList_snapOf (s : Store) : s.snapOf.indexList = s.policies.toList.flatMap fun x =>
    ((s.index.toList.filter fun y => y.1.1 == x.1).map fun y => ((x.1, y.1.2), y.2)) := by
  simp [Snap.indexList, Store.snapOf, List.flatMap_map, Function.comp_def]

theorem Store.tombList_snapOf (s : Store) : s.snapOf.tombList = s.policies.toList.flatMap fun x =>
    ((s.tombs.toList.filter fun y => y.1.1 == x.1).map fun y => ((x.1, y.1.2), y.2)) := by
  simp [Snap.tombList, Store.snapOf, List.flatMap_map, Function.comp_def]

theorem Store.loadSnap_snapOf {s : Store} (h : s.Owned) (durable : Bool) :
    (Store.init durable).loadSnap s.snapOf = { s with logs := ∅, durable := durable, secIndex := ∅ } := by
  have hpol : insertAll ∅ (s.snapOf.nss.map fun n => (n.ns, n.policy)) = s.policies := by
    simp only [Store.snapOf, List.map_map, Function.comp_def, Prod.mk.eta, List.map_id']
    exact OrdMap.insertAll_empty_toList s.policies
  simp only [Store.loadSnap, Store.init, hpol, indexList_snapOf, tombList_snapOf, insertAll_namespaces h.index,
    insertAll_namespaces h.tombs]
  simp [Store.snapOf, OrdMap.insertAll_empty_toList]

theorem Store.info_snapOf (s : Store) (ns : Bytes) :
    s.snapOf.info[ns]? = if s.policies[ns]? = none then none else some ((s.head ns).getD (0, .zero)) := by
  have hinfo : s.snapOf.info = insertAll ∅ (s.policies.toList.map fun x => (x.1, (s.head x.1).getD (0, .zero))) := by
    simp [Snap.info, Store.snapOf, Function.comp_def]
  rw [hinfo]
  split
  · rename_i hp
    rw [OrdMap.getElem?_insertAll_of_not_mem, ExtTreeMap.getElem?_empty]
    intro v hv
    simp only [List.mem_map, Prod.exists, Prod.mk.injEq] at hv
    obtain ⟨n, p, hmem, rfl, _⟩ := hv
    rw [ExtTreeMap.mem_toList_iff_getElem?_eq_some, hp] at hmem
    cases hmem
  · rename_i hp
    obtain ⟨p, hp⟩ := Option.ne_none_iff_exists'.1 hp
    refine OrdMap.getElem?_insertAll_of_mem (fun v' hv' => ?_) ?_
    · simp only [List.mem_map, Prod.exists, Prod.mk.injEq] at hv'
      obtain ⟨n, p', _, rfl, rfl⟩ := hv'
      rfl
    · exact List.mem_map.2 ⟨(ns, p), ExtTreeMap.mem_toList_iff_getElem?_eq_some.2 hp, rfl⟩

end BunnyMesh
