import Std.Data.ExtTreeMap
import Std.Data.ExtTreeSet
import BunnyMesh.Lib.Hex
import BunnyMesh.Lib.Utf8
import BunnyMesh.Storage.Log

/-!
# The store in memory

`storage/mod.rs`: the index over all namespaces, the tombstones, the metadata map and the log handles, with the reads
on them.  A `BTreeMap` is an ordered map with the same order on keys, so iteration and ranges go through `toList`.
-/

namespace BunnyMesh

open Std
open ByteCodec (fromUtf8Lossy isUtf8 hexEncode hexDecode hexOfNat natOfHex isHexDigit)

/-! ### Maps -/

abbrev BMap (K V : Type) [Ord K] := ExtTreeMap K V compare

/-- `(Namespace, Key)`, and the rows `(field value, key)` of the secondary index. -/
abbrev EntryKey := Bytes × Bytes

instance : Ord EntryKey := lexOrd
instance : TransOrd EntryKey := inferInstanceAs (@TransOrd _ lexOrd)
instance : LawfulEqOrd EntryKey := inferInstanceAs (@LawfulEqOrd _ lexOrd)

abbrev Rows := ExtTreeSet EntryKey compare

/-! ### Entries -/

/-- One write to one key; `seq` is its record number in the namespace log. -/
structure Version where
  hlc : UInt64
  replica : Bytes32
  author : Bytes32
  value : Bytes
  seq : Nat
  expiresAt : UInt64
deriving DecidableEq

def Version.stamp (v : Version) : Stamp := ⟨v.hlc, v.replica⟩

/-- Index entry, shaped by the namespace's conflict policy. -/
inductive Entry where
  | lww (v : Version)
  | register (vs : List Version)
deriving DecidableEq

inductive ConflictPolicy where
  | lww
  | crdtRegister
deriving DecidableEq

/-- `max_by` on `(hlc, replica)`: the last one of the greatest. -/
def maxByStamp : List Version → Option Version
  | [] => none
  | v :: vs => some (vs.foldl (fun a b => if a.stamp ≤ b.stamp then b else a) v)

def latestEntryValue : Entry → Option Version
  | .lww v => some v
  | .register vs => maxByStamp vs

/-! ### Names -/

def isAsciiLowercase (b : UInt8) : Bool := 97 ≤ b && b ≤ 122
def isAsciiDigit (b : UInt8) : Bool := 48 ≤ b && b ≤ 57

/-- `^[a-z0-9._-]{1,64}$`, or `u/` and 64 hex digits. -/
def validNs (name : Bytes) : Bool :=
  let flat := !name.isEmpty && name.length ≤ 64 &&
    name.all fun b => isAsciiLowercase b || isAsciiDigit b || b == 46 || b == 95 || b == 45
  let l3Owner := (str "u/").isPrefixOf name && (name.drop 2).length == 64 && (name.drop 2).all isHexDigit
  flat || l3Owner

/-- The name of a namespace's directory under the store root. -/
def nsDir (ns : Bytes) : Bytes := hexOfNat (ns.length * 2) ++ 95 :: hexEncode ns

def splitUnderscore : Bytes → Option (Bytes × Bytes)
  | [] => none
  | b :: rest => if b = 95 then some ([], rest) else (splitUnderscore rest).map fun x => (b :: x.1, x.2)

def parseNsDir (name : Bytes) : Option Bytes := do
  let (lenS, rest) ← splitUnderscore name
  let hexlen ← natOfHex lenS
  if !lenS.all isHexDigit then none
  else if rest.length ≠ hexlen || !rest.all isHexDigit then none
  else
    let ns ← hexDecode rest
    if isUtf8 ns && validNs ns then some ns else none

def policyToU8 : ConflictPolicy → UInt8
  | .lww => 0
  | .crdtRegister => 1

def policyFromU8 (v : UInt8) : Res ConflictPolicy :=
  if v = 0 then .ok .lww else if v = 1 then .ok .crdtRegister
  else .error (corrupt s!"bad policy byte {v.toNat}")

/-! ### The store -/

structure Store where
  logs : BMap Bytes Log
  policies : BMap Bytes ConflictPolicy
  index : BMap EntryKey Entry
  tombs : BMap EntryKey UInt64
  metaMap : BMap Bytes Bytes
  peerClocks : BMap Bytes Int64
  revision : Nat
  durable : Bool
  secIndex : BMap Bytes Rows

def Store.init (durable : Bool) : Store := ⟨∅, ∅, ∅, ∅, ∅, ∅, 0, durable, ∅⟩

namespace Store

def namespaces (s : Store) : List (Bytes × ConflictPolicy) := s.policies.toList

def policy (s : Store) (ns : Bytes) : Option ConflictPolicy := s.policies[ns]?

def get (s : Store) (ns key : Bytes) : Option Entry :=
  if s.tombs.contains (ns, key) then none else s.index[(ns, key)]?

/-- The index entries from `(ns, [])` on, up to the first one of another namespace. -/
def rangeOf (s : Store) (ns : Bytes) : List (Bytes × Entry) :=
  ((s.index.toList.dropWhile fun x => (compare x.1 (ns, [])).isLT).takeWhile fun x => x.1.1 == ns).map
    fun x => (x.1.2, x.2)

def scan (s : Store) (ns pre : Bytes) : List (Bytes × Entry) :=
  (s.rangeOf ns).filter fun x => pre.isEmpty || pre.isPrefixOf x.1

def scanKeys (s : Store) (ns pre : Bytes) : List Bytes :=
  ((s.rangeOf ns).map (·.1)).filter fun k => pre.isEmpty || pre.isPrefixOf k

def head (s : Store) (ns : Bytes) : Option (Nat × Bytes32) := s.logs[ns]?.map fun l => (l.seq, l.head)

def metaGet (s : Store) (key : Bytes) : Option Bytes := s.metaMap[key]?

def schemaKey (ns : Bytes) : Bytes := str "schema/" ++ ns

def indexKey (ns : Bytes) : Bytes := str "index/" ++ ns

def schema (s : Store) (ns : Bytes) : Option Bytes := s.metaMap[schemaKey ns]?

def indexDef (s : Store) (ns : Bytes) : Option Bytes := s.metaMap[indexKey ns]?

def metaSet (s : Store) (key value : Bytes) : Store :=
  { s with metaMap := s.metaMap.insert key value, revision := s.revision + 1 }

def setPeerClock (s : Store) (name : Bytes) (diff : Int64) : Store :=
  { s with peerClocks := s.peerClocks.insert name diff }

/-! ### The derived secondary index -/

section SecIndex

variable [Crates]

/-- The field names to index; empty without a definition or when it is not a list of strings. -/
def indexFields (s : Store) (ns : Bytes) : List Bytes :=
  match s.indexDef ns with
  | none => []
  | some bytes => (Crates.fromStrStrings (fromUtf8Lossy bytes)).getD []

def pushScalar : JValue → List Bytes
  | .number text => [text]
  | .string s => [s]
  | .bool b => [if b then str "true" else str "false"]
  | _ => []

def fieldValues (value field : Bytes) : List Bytes :=
  match Crates.fromStrValue (fromUtf8Lossy value) with
  | some (.object fields) => fields.flatMap fun x => if x.1 = field then pushScalar x.2 else []
  | some v => pushScalar v
  | none => []

/-- Key into the secondary index: `ns`, NUL, `field`. -/
def secMapKey (ns field : Bytes) : Bytes := ns ++ 0 :: field

def insertRow (si : BMap Bytes Rows) (mapKey : Bytes) (row : EntryKey) : BMap Bytes Rows :=
  si.insert mapKey ((si[mapKey]?.getD ∅).insert row)

def removeRows (si : BMap Bytes Rows) (mapKey key : Bytes) : BMap Bytes Rows :=
  match si[mapKey]? with
  | some rows => si.insert mapKey (rows.filter fun row => row.2 != key)
  | none => si

def removeFromSecIndex (s : Store) (ns key : Bytes) : Store :=
  { s with secIndex := (s.indexFields ns).foldl (fun si field => removeRows si (secMapKey ns field) key) s.secIndex }

/-- The rows `key` contributes: one for every configured field and value of it. -/
def rowsOf (fields : List Bytes) (value : Bytes) : List (Bytes × Bytes) :=
  fields.flatMap fun field => (fieldValues value field).map fun fv => (field, fv)

def refreshSecIndexFor (s : Store) (ns key : Bytes) : Store :=
  let s := s.removeFromSecIndex ns key
  let fields := s.indexFields ns
  if fields.isEmpty then s
  else match (s.get ns key).bind latestEntryValue with
    | none => s
    | some v =>
      let insert := fun (si : BMap Bytes Rows) (x : Bytes × Bytes) => insertRow si (secMapKey ns x.1) (x.2, key)
      { s with secIndex := (rowsOf fields v.value).foldl insert s.secIndex }

/-- The source collects the map keys that start with `ns` and NUL, and keeps those. -/
def clearSecIndexNs (s : Store) (ns : Bytes) : Store :=
  { s with secIndex := s.secIndex.filter fun k _ => (ns ++ [0]).isPrefixOf k }

def liveKeys (s : Store) (ns : Bytes) : List Bytes :=
  s.index.toList.filterMap fun x => if x.1.1 = ns ∧ (latestEntryValue x.2).isSome then some x.1.2 else none

def rebuildSecIndexNs (s : Store) (ns : Bytes) : Store :=
  let s := s.clearSecIndexNs ns
  if (s.indexFields ns).isEmpty then s
  else (s.liveKeys ns).foldl (fun s k => s.refreshSecIndexFor ns k) s

def rebuildSecondaryIndexes (s : Store) : Store :=
  s.policies.keys.foldl (fun s ns => if (s.indexFields ns).isEmpty then s else s.rebuildSecIndexNs ns)
    { s with secIndex := ∅ }

def indexLookup (s : Store) (ns field start : Bytes) : List (Bytes × Bytes) :=
  match s.secIndex[secMapKey ns field]? with
  | some rows => rows.toList.dropWhile fun row => (compare row (start, [])).isLT
  | none => []

end SecIndex

end Store

end BunnyMesh
