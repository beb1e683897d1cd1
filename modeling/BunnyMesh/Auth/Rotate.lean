import BunnyMesh.Auth.Ledger
import BunnyMesh.Storage.Meta
import BunnyMesh.Storage.Stops

/-!
# Rotation of the root key

`core/meta.rs` and `core/rotate.rs`.  The key pair of a node is in `meta.bin`; the keys it had before and still accepts are
in the metadata of the store under `sys/root_chain`, one in a line.  A rotation writes the chain with a checkpoint, then
replaces `meta.bin` through `meta.bin.tmp`, and then, if it is asked to, signs the persisted admin capability anew.  What it
writes into the chain is what is read back (`parseChain_toChainBytes`).
-/

namespace BunnyMesh

open Store ByteCodec

/-! ### Capabilities on the wire -/

structure CapWire where
  scope : Bytes
  perms : List Bytes
  expiryMs : Option Nat
  nonce : Nat
  issuer : Bytes
  subject : Bytes
  sig : Bytes

/-- What rotation takes from outside the repository besides: `serde_json::from_str` of a capability. -/
class RotateCrates extends AuthCrates where
  fromStr : Bytes → Option CapWire

/-- Crates for closed examples: no text is a capability. -/
@[reducible] def RotateCrates.trivial : RotateCrates := { AuthCrates.trivial with fromStr := fun _ => none }

inductive CapJsonError where
  /-- bad cap json -/
  | json
  | scope (e : Bytes)
  | perms (e : Bytes)
  /-- bad issuer -/
  | issuer
  /-- bad subject -/
  | subject
  /-- bad sig -/
  | sig (e : B64Error)
  /-- bad sig length -/
  | sigLength (n : Nat)
deriving DecidableEq

def capScheme : Bytes := str "bmdb-cap:"

namespace Capability

section
variable [RotateCrates]

def fromJson (s : Bytes) : Except CapJsonError Capability := do
  let w ← (RotateCrates.fromStr s).elim (.error .json) .ok
  let scope ← (Scope.parse w.scope).mapError .scope
  let perms ← (PermSet.parseList w.perms).mapError .perms
  let issuer ← (PublicKey.parse w.issuer).elim (.error .issuer) .ok
  let subject ← (PublicKey.parse w.subject).elim (.error .subject) .ok
  let sig ← (decodeImpl w.sig b64Url).mapError .sig
  if h : sig.length = 64 then .ok ⟨scope, perms, w.expiryMs, w.nonce, issuer, subject, ⟨sig, h⟩⟩
  else .error (.sigLength sig.length)

end

def toHeader [AuthCrates] (cap : Capability) : Bytes := capScheme ++ encodeImpl cap.toJson b64Url

end Capability

/-! ### The chain of retired keys -/

namespace RootKeyring

/-- The retired keys, one in a line. -/
def toChainBytes (r : RootKeyring) : Bytes := r.retired.flatMap fun k => PublicKey.display k ++ [newline]

/-- The key of a line; other lines are passed over. -/
def parseChainLine (line : Bytes) : Option PublicKey :=
  let line := trim line
  if line.isEmpty then none else PublicKey.parse line

def parseChain (bytes : Bytes) : List PublicKey := (lines (fromUtf8Lossy bytes)).filterMap parseChainLine

theorem newline_notMem_display (k : PublicKey) : newline ∉ PublicKey.display k := by
  intro hmem
  obtain ⟨n, hn, hd⟩ := mem_hexEncode hmem
  have hdigit : ∀ n < 16, newline ≠ hexDigit n := by decide
  exact hdigit n hn hd

theorem ends_display (k : PublicKey) :
    (∃ n < 16, (PublicKey.display k).head? = some (hexDigit n)) ∧
    ∃ n < 16, (PublicKey.display k).getLast? = some (hexDigit n) := by
  constructor
  · cases h : PublicKey.display k with
    | nil =>
      obtain ⟨d, n, hlast, _⟩ := PublicKey.getLast?_display k
      rw [h] at hlast
      cases hlast
    | cons b rest =>
      obtain ⟨n, hn, hb⟩ := mem_hexEncode (show b ∈ PublicKey.display k by rw [h]; exact List.mem_cons_self)
      exact ⟨n, hn, by rw [hb]; rfl⟩
  · obtain ⟨d, n, hlast, hn, rfl⟩ := PublicKey.getLast?_display k
    exact ⟨n, hn, hlast⟩

theorem parseChainLine_display (k : PublicKey) : parseChainLine (stripCr (PublicKey.display k)) = some k := by
  obtain ⟨⟨m, hm, hhead⟩, n, hn, hlast⟩ := ends_display k
  have hcr : stripCr (PublicKey.display k) = PublicKey.display k := by
    have hdigit : ∀ n < 16, hexDigit n ≠ 13 := by decide
    refine if_neg fun h => hdigit n hn ?_
    rw [hlast] at h
    exact Option.some.inj h
  have htrim : trim (PublicKey.display k) = PublicKey.display k := by
    have hfirst : ∀ n < 16, ∀ w ∈ spaces, w.head? ≠ some (hexDigit n) := by decide
    have hfinal : ∀ n < 16, ∀ w ∈ spaces, w.getLast? ≠ some (hexDigit n) := by decide
    refine trim_eq_self ?_ ?_
    · rw [hhead]
      exact hfirst m hm
    · rw [hlast]
      exact hfinal n hn
  have hne : (PublicKey.display k).isEmpty = false := by
    cases h : PublicKey.display k with
    | nil => rw [h] at hhead; cases hhead
    | cons => rfl
  rw [hcr, parseChainLine, htrim, hne, PublicKey.parse_display]
  rfl

theorem isUtf8_toChainBytes (r : RootKeyring) : isUtf8 r.toChainBytes := by
  refine isUtf8_of_ascii fun b hb => ?_
  obtain ⟨k, _, hb⟩ := List.mem_flatMap.1 hb
  rcases List.mem_append.1 hb with hb | hb
  · obtain ⟨n, hn, rfl⟩ := mem_hexEncode hb
    exact hexDigit_lt hn
  · rw [List.mem_singleton.1 hb]
    decide

theorem parseChain_toChainBytes (r : RootKeyring) : parseChain r.toChainBytes = r.retired := by
  rw [parseChain, fromUtf8Lossy_of_isUtf8 r.isUtf8_toChainBytes, toChainBytes]
  induction r.retired with
  | nil => rfl
  | cons k ks ih =>
    rw [List.flatMap_cons, List.append_assoc, List.singleton_append, lines_append,
      List.splitOn_eq_singleton (newline_notMem_display k), List.map_singleton, List.singleton_append,
      List.filterMap_cons, parseChainLine_display, ih]

theorem acceptsIssuer_iff (r : RootKeyring) (k : PublicKey) : r.acceptsIssuer k = true ↔ k = r.active ∨ k ∈ r.retired := by
  unfold acceptsIssuer keyForIssuer
  by_cases hk : k = r.active
  · simp [hk]
  · simp [hk]

theorem keyForIssuer_eq (r : RootKeyring) (k : PublicKey) :
    r.keyForIssuer k = if r.acceptsIssuer k then some k else none := by
  unfold acceptsIssuer
  cases h : r.keyForIssuer k with
  | none => rfl
  | some a =>
    unfold keyForIssuer at h
    split_ifs at h with hk
    · rw [hk, ← Option.some.inj h]
      rfl
    · have ha := List.find?_some h
      rw [beq_iff_eq.1 ha]
      rfl

end RootKeyring

/-! ### The data directory -/

/-- `meta.bin`, its temporary file, and the files of the store. -/
structure DataDir where
  metaBin : Option Bytes
  metaTmp : Option Bytes
  store : Disk

def DataDir.withTmp (d : DataDir) (tmp : Option Bytes) : DataDir := { d with metaTmp := tmp }

def DataDir.withStore (d : DataDir) (disk : Disk) : DataDir := { d with store := disk }

/-- A function at work on a data directory: the directory, every directory it has passed, and the stores of which it has
written a snapshot. -/
structure Rotation where
  dir : DataDir
  points : List DataDir
  snapshots : List Store

inductive RotateError where
  /-- `read meta.bin`: there is none -/
  | readMeta
  /-- `meta.bin` is not a bunnymeshdb meta.bin -/
  | notMeta
  /-- open store -/
  | openStore (e : Fault)
  /-- checkpoint -/
  | checkpoint (e : Fault)
  /-- `create meta.bin.tmp`: it exists -/
  | createMeta
  /-- reopen store -/
  | reopenStore (e : Fault)
  /-- the admin capability is no base64 -/
  | adminB64 (e : B64Error)
  /-- it is no text -/
  | adminUtf8
  /-- it is no capability -/
  | adminJson (e : CapJsonError)
  /-- checkpoint admin -/
  | checkpointAdmin (e : Fault)
deriving DecidableEq

abbrev RotateM := EStateM RotateError Rotation

/-- A file-system effect outside the store. -/
def dirEffect (f : DataDir → DataDir) : RotateM Unit :=
  modify fun r => { r with dir := f r.dir, points := r.points ++ [f r.dir] }

def liftRotate {α : Type} : Except RotateError α → RotateM α
  | .ok a => pure a
  | .error e => throw e

/-- After a function of the store that ended in `w`. -/
def Rotation.through (r : Rotation) (w : World) : Rotation :=
  { r with
    dir := r.dir.withStore w.disk
    points := r.points ++ w.points.map r.dir.withStore }

/-- Run a function on a store of the data directory. -/
def runStore (x : M Unit) (s : Store) (wrap : Fault → RotateError) : RotateM Store := fun r =>
  match x ⟨s, r.dir.store, []⟩ with
  | .ok _ w => .ok w.store (r.through w)
  | .error e w => .error (wrap e) (r.through w)

/-! ### `meta.bin` -/

def metaMagic : Bytes := str "BMDMETA1"

/-- `meta::load`: the seed behind the magic and the public key. -/
def loadMetaBin : Option Bytes → Except RotateError Bytes32
  | none => .error .readMeta
  | some bytes =>
    if h : bytes.length = 8 + 32 + 32 ∧ bytes.take 8 = metaMagic then
      .ok ⟨bytes.drop (8 + 32), by rw [List.length_drop, h.1]⟩
    else .error .notMeta

def metaBytes [AuthCrates] (seed : Bytes32) : Bytes := metaMagic ++ (AuthCrates.verifyingKey seed).val ++ seed.val

/-- `write_all` of the rest of a text to the temporary file, byte by byte. -/
def writeTmp (written : Bytes) : Bytes → RotateM Unit
  | [] => pure ()
  | b :: rest => do
    dirEffect (·.withTmp (some (written ++ [b])))
    writeTmp (written ++ [b]) rest

/-- `meta::write`: the temporary file must not exist; it is written, then renamed. -/
def writeMetaBin [AuthCrates] (seed : Bytes32) : RotateM Unit := do
  if (← get).dir.metaTmp.isSome then throw .createMeta
  dirEffect (·.withTmp (some []))
  writeTmp [] (metaBytes seed)
  dirEffect fun d => { d with metaBin := d.metaTmp, metaTmp := none }

/-! ### Rotation -/

def rootChainKey : Bytes := str "sys/root_chain"

def adminCapKey : Bytes := str "sys/admin_cap"

def Store.rootChain (s : Store) : List PublicKey := ((s.metaGet rootChainKey).map RootKeyring.parseChain).getD []

/-- The chain a rotation writes: a graceful one adds the old key, once. -/
def retire (dropPredecessor : Bool) (oldRoot : PublicKey) (retired : List PublicKey) : List PublicKey :=
  if !dropPredecessor && !retired.contains oldRoot then retired ++ [oldRoot] else retired

/-- The arguments of `rotate_root`, with what it takes from outside: the seed `Keypair::generate` draws and the wall clock
at the two times it opens the store. -/
structure RotateCall where
  dropPredecessor : Bool
  reissueAdmin : Bool
  newSeed : Bytes32
  opened : UInt64
  reopened : UInt64

structure RotateOutcome where
  oldRoot : PublicKey
  newRoot : PublicKey
  dropped : Bool
  adminCap : Option Bytes
  adminWarning : Option Bytes
deriving DecidableEq

def headerBody (header : Bytes) : Option Bytes :=
  if capScheme.isPrefixOf header then some (header.drop capScheme.length) else none

section
variable [RotateCrates]

def openStore (durable : Bool) (now : UInt64) (wrap : Fault → RotateError) : RotateM Store :=
  runStore (openDurable durable now) (Store.init durable) wrap

def checkpointStore (s : Store) (wrap : Fault → RotateError) : RotateM Store := do
  modify fun r => { r with snapshots := r.snapshots ++ [s] }
  runStore BunnyMesh.checkpoint s wrap

def readAdminCap (body : Bytes) : Except RotateError Capability := do
  let bytes ← (decodeImpl body Capability.b64Url).mapError .adminB64
  if !isUtf8 bytes then throw .adminUtf8
  (Capability.fromJson bytes).mapError .adminJson

/-- The same capability, signed by the new root for itself. -/
def reissued (old : Capability) (newSeed : Bytes32) : Capability :=
  Capability.signFor old.scope old.perms old.expiryMs old.nonce (AuthCrates.verifyingKey newSeed) newSeed

/-- Sign the persisted admin capability anew; the new header, or why there is none. -/
def reissueAdminCap (newSeed : Bytes32) (now : UInt64) : RotateM (Option Bytes × Option Bytes) := do
  let s ← openStore false now .reopenStore
  match s.metaGet adminCapKey with
  | none => pure (none, some (str "no sys/admin_cap found to re-key"))
  | some v =>
    match headerBody (fromUtf8Lossy v) with
    | none => pure (none, some (str "persisted admin cap is not a bmdb-cap token"))
    | some body => do
      let old ← liftRotate (readAdminCap body)
      let header := (reissued old newSeed).toHeader
      let _ ← checkpointStore (s.metaSet adminCapKey header) .checkpointAdmin
      pure (some header, none)

/-- The part of `rotate_root` behind the checkpoint of the chain. -/
def installRoot (c : RotateCall) (oldRoot : PublicKey) : RotateM RotateOutcome := do
  writeMetaBin c.newSeed
  let admin ← if c.reissueAdmin then reissueAdminCap c.newSeed c.reopened else pure (none, none)
  pure ⟨oldRoot, AuthCrates.verifyingKey c.newSeed, c.dropPredecessor, admin.1, admin.2⟩

/-- `rotate_root`: the chain first, then `meta.bin`. -/
def rotateRoot (c : RotateCall) : RotateM RotateOutcome := do
  let seed ← liftRotate (loadMetaBin (← get).dir.metaBin)
  let s ← openStore false c.opened .openStore
  let oldRoot := AuthCrates.verifyingKey seed
  let newRoot := AuthCrates.verifyingKey c.newSeed
  let chain : RootKeyring := ⟨newRoot, retire c.dropPredecessor oldRoot s.rootChain⟩
  let _ ← checkpointStore (s.metaSet rootChainKey chain.toChainBytes) .checkpoint
  installRoot c oldRoot

/-- The root keys as the daemon reads them when it starts. -/
def readKeyring (durable : Bool) (now : UInt64) : RotateM RootKeyring := do
  let seed ← liftRotate (loadMetaBin (← get).dir.metaBin)
  let s ← openStore durable now .openStore
  pure ⟨AuthCrates.verifyingKey seed, s.rootChain⟩

def RotateCall.run (c : RotateCall) (d : DataDir) : EStateM.Result RotateError Rotation RotateOutcome :=
  rotateRoot c ⟨d, [], []⟩

/-- The root keys of a data directory; `none` if the daemon does not start on it. -/
def DataDir.keyring (d : DataDir) (durable : Bool) (now : UInt64) : Option RootKeyring :=
  (Exec.okResult (readKeyring durable now ⟨d, [], []⟩)).map (·.1)

/-- The directories `rotate_root` can leave when it is stopped at some point: the one it starts from, and the one behind each
of its effects. -/
def RotateCall.leaves (c : RotateCall) (d : DataDir) : List DataDir := d :: (Exec.finalState (c.run d)).points

end

end BunnyMesh
