import BunnyMesh.Basic
import BunnyMesh.Lib.Hex
import BunnyMesh.Net.Base64
import Mathlib.Data.Finset.Insert

/-!
# Capabilities

Scopes, permission sets, revocations and signed capabilities (`caps.rs`).  A string is its UTF-8 bytes.
-/

namespace BunnyMesh

open ByteCodec

/-! ### Tiers and permissions -/

inductive Tier where
  | l1
  | l2
  | l3
deriving DecidableEq

def Tier.asStr : Tier → Bytes
  | .l1 => str "l1"
  | .l2 => str "l2"
  | .l3 => str "l3"

def Tier.parse (s : Bytes) : Option Tier :=
  if s = str "l1" then some .l1 else if s = str "l2" then some .l2 else if s = str "l3" then some .l3 else none

/-- Bit flags. -/
structure PermSet where
  bits : UInt8
deriving DecidableEq

namespace PermSet

def read : PermSet := ⟨1⟩
def write : PermSet := ⟨2⟩
def admin : PermSet := ⟨4⟩

def contains (p other : PermSet) : Bool := p.bits &&& other.bits == other.bits

def names (p : PermSet) : List Bytes :=
  (if p.contains read then [str "read"] else []) ++ (if p.contains write then [str "write"] else []) ++
    (if p.contains admin then [str "admin"] else [])

def flag (s : Bytes) : Option PermSet :=
  if s = str "read" then some read else if s = str "write" then some write
  else if s = str "admin" then some admin else none

end PermSet

/-! ### Crates -/

/-- `[u8; 32]` as an ed25519 public key. -/
abbrev PublicKey := Bytes32

def PublicKey.display (k : PublicKey) : Bytes := hexEncode k.val

def PublicKey.parse (s : Bytes) : Option PublicKey :=
  (hexDecode s).bind fun b => if h : b.length = 32 then some ⟨b, h⟩ else none

structure Signature where
  val : Bytes
  len : val.length = 64
deriving DecidableEq

def Signature.zero : Signature := ⟨List.replicate 64 0, List.length_replicate⟩

/-- The signed view of a capability; the order of the fields is the order of the canonical bytes. -/
structure SignView where
  scope : Bytes
  perms : PermSet
  expiryMs : Option Nat
  nonce : Nat
  issuer : Bytes
  subject : Bytes
deriving DecidableEq

/-- What the capability code takes from outside the repository: `serde_json::to_vec` of a view and
`serde_json::to_string` of a string, ed25519, and the `{:?}` form of a string. -/
class AuthCrates extends Crates where
  toVec : SignView → Bytes
  jsonStr : Bytes → Bytes
  verifySig : PublicKey → Bytes → Signature → Bool
  verifyingKey : Bytes32 → PublicKey
  signSeed : Bytes32 → Bytes → Signature
  debugStr : Bytes → Bytes

def PermSet.parseList [AuthCrates] (list : List Bytes) : Except Bytes PermSet :=
  list.foldlM (fun p s =>
    match PermSet.flag s with
    | some f => .ok ⟨p.bits ||| f.bits⟩
    | none => .error (str "unknown perm " ++ AuthCrates.debugStr s)) ⟨0⟩

/-- Crates for closed examples: every signature is good. -/
@[reducible] def AuthCrates.trivial : AuthCrates :=
  { Crates.trivial with
    toVec := fun _ => []
    jsonStr := fun s => s
    verifySig := fun _ _ _ => true
    verifyingKey := fun seed => seed
    signSeed := fun _ _ => .zero
    debugStr := fun s => s }

/-! ### Scopes -/

/-- `bmdb://<host>/<tier>/<ns>[/prefix]` -/
structure Scope where
  host : Bytes
  tier : Tier
  ns : Bytes
  keyPrefix : Option Bytes
deriving DecidableEq

namespace Scope

def scheme : Bytes := str "bmdb://"

def slash : UInt8 := 47

/-- The prefix as it stands behind the namespace. -/
def tailPath : Option Bytes → Bytes
  | some p => slash :: p
  | none => []

def toUrl (s : Scope) : Bytes :=
  scheme ++ (s.host ++ slash :: (s.tier.asStr ++ slash :: (s.ns ++ tailPath s.keyPrefix)))

/-- `segs[n..].join("/")` -/
def joinFrom (segs : List Bytes) (n : Nat) : Option Bytes :=
  if n < segs.length then some ([slash].intercalate (segs.drop n)) else none

/-- The namespace, and the number of segments before the prefix. -/
def parseNs (segs : List Bytes) : Except Bytes (Bytes × Nat) :=
  if segs[2]? = some (str "u") then
    match segs[3]? with
    | none => .error (str "missing owner pk after u/")
    | some pk => .ok (str "u/" ++ pk, 4)
  else
    match segs[2]? with
    | none => .error (str "missing namespace")
    | some ns => .ok (ns, 3)

def parse [AuthCrates] (url : Bytes) : Except Bytes Scope :=
  if scheme.isPrefixOf url then
    let segs := (url.drop scheme.length).splitOn slash
    match segs[0]?, segs[1]? with
    | none, _ => .error (str "missing host")
    | _, none => .error (str "missing tier")
    | some host, some tierS =>
      if host.isEmpty then .error (str "empty host")
      else
        match Tier.parse tierS with
        | none => .error (str "bad tier " ++ AuthCrates.debugStr tierS)
        | some tier => do
          let (ns, n) ← parseNs segs
          if ns.isEmpty then .error (str "empty namespace") else .ok ⟨host, tier, ns, joinFrom segs n⟩
  else .error (str "scope must start with bmdb://: " ++ AuthCrates.debugStr url)

/-- `a` covers `a` and `a/b`, never `ab`. -/
def prefixCovers : Option Bytes → Option Bytes → Bool
  | some a, some b => b == a || (a ++ [slash]).isPrefixOf b
  | some _, none => false
  | none, _ => true

def covers (s other : Scope) : Bool :=
  s.host == other.host && s.tier == other.tier && s.ns == other.ns && prefixCovers s.keyPrefix other.keyPrefix

end Scope

/-! ### Revocations and root keys -/

structure RevocationSet where
  byPrincipal : Finset (Bytes × Bytes)
  byNonce : Finset Nat
deriving DecidableEq

namespace RevocationSet

def new : RevocationSet := ⟨∅, ∅⟩

def revokePrincipal (r : RevocationSet) (scope : Scope) (principalHex : Bytes) : RevocationSet :=
  { r with byPrincipal := insert (scope.toUrl, principalHex) r.byPrincipal }

def revokeNonce (r : RevocationSet) (nonce : Nat) : RevocationSet := { r with byNonce := insert nonce r.byNonce }

def isRevoked (r : RevocationSet) (scope : Scope) (principalHex : Bytes) (nonce : Nat) : Bool :=
  decide ((scope.toUrl, principalHex) ∈ r.byPrincipal) || decide (nonce ∈ r.byNonce)

end RevocationSet

structure RootKeyring where
  active : PublicKey
  retired : List PublicKey
deriving DecidableEq

namespace RootKeyring

def keyForIssuer (r : RootKeyring) (issuer : PublicKey) : Option PublicKey :=
  if issuer = r.active then some r.active else r.retired.find? (· == issuer)

def acceptsIssuer (r : RootKeyring) (issuer : PublicKey) : Bool := (r.keyForIssuer issuer).isSome

end RootKeyring

/-! ### Signed capabilities -/

structure Capability where
  scope : Scope
  perms : PermSet
  expiryMs : Option Nat
  nonce : Nat
  issuer : PublicKey
  subject : PublicKey
  sig : Signature
deriving DecidableEq

inductive CapError where
  | badIssuer
  | badSig
  | expired
  | revoked
  | malformed
deriving DecidableEq

namespace Capability

variable [AuthCrates]

def canonicalBytes (cap : Capability) : Bytes :=
  AuthCrates.toVec ⟨cap.scope.toUrl, cap.perms, cap.expiryMs, cap.nonce, PublicKey.display cap.issuer,
    PublicKey.display cap.subject⟩

def signFor (scope : Scope) (perms : PermSet) (expiryMs : Option Nat) (nonce : Nat) (subject : PublicKey)
    (seed : Bytes32) : Capability :=
  let issuer := AuthCrates.verifyingKey seed
  ⟨scope, perms, expiryMs, nonce, issuer, subject,
    AuthCrates.signSeed seed (AuthCrates.toVec ⟨scope.toUrl, perms, expiryMs, nonce, PublicKey.display issuer,
      PublicKey.display subject⟩)⟩

def b64Url : Bytes := str "ABCDEFGHIJKLMNOPQRSTUVWXYZabcdefghijklmnopqrstuvwxyz0123456789-_"

def decimal (n : Nat) : Bytes := str (toString n)

def toJson (cap : Capability) : Bytes :=
  [123] ++ str "\"scope\":" ++ AuthCrates.jsonStr cap.scope.toUrl ++
    str ",\"perms\":[" ++ [44].intercalate (cap.perms.names.map AuthCrates.jsonStr) ++
    str "],\"expiry_ms\":" ++ (cap.expiryMs.map decimal).getD (str "null") ++
    str ",\"nonce\":" ++ decimal cap.nonce ++
    str ",\"issuer\":" ++ AuthCrates.jsonStr (PublicKey.display cap.issuer) ++
    str ",\"subject\":" ++ AuthCrates.jsonStr (PublicKey.display cap.subject) ++
    str ",\"sig\":" ++ AuthCrates.jsonStr (encodeImpl cap.sig.val b64Url) ++ [125]

/-- The content address of a capability: the hash of the signed bytes with the signature. -/
def digestHex (cap : Capability) : Bytes := hexEncode (Crates.sha256 (cap.canonicalBytes ++ cap.sig.val)).val

/-- The signature check: the issuer is a root key and signed these bytes. -/
def checkSig (cap : Capability) (keyring : RootKeyring) : Except CapError Unit :=
  match keyring.keyForIssuer cap.issuer with
  | none => .error .badIssuer
  | some issuer => if AuthCrates.verifySig issuer cap.canonicalBytes cap.sig then .ok () else .error .badSig

/-- The cheap checks: presented by its subject, and in time. -/
def checkSubject (cap : Capability) (principal : PublicKey) (nowMs : Nat) : Except CapError Unit :=
  if cap.subject ≠ principal then .error .malformed
  else
    match cap.expiryMs with
    | some exp => if nowMs ≥ exp then .error .expired else .ok ()
    | none => .ok ()

def checkRevoked (cap : Capability) (principal : PublicKey) (revocations : RevocationSet) : Except CapError Unit :=
  if revocations.isRevoked cap.scope (PublicKey.display principal) cap.nonce then .error .revoked else .ok ()

def verify (cap : Capability) (keyring : RootKeyring) (principal : PublicKey) (revocations : RevocationSet)
    (nowMs : Nat) : Except CapError Unit := do
  cap.checkSig keyring
  cap.checkSubject principal nowMs
  cap.checkRevoked principal revocations

def verifyOrCached (cap : Capability) (keyring : RootKeyring) (principal : PublicKey) (revocations : RevocationSet)
    (nowMs : Nat) (cachedOk : Bool) : Except CapError Unit := do
  if !keyring.acceptsIssuer cap.issuer then throw .badIssuer
  cap.checkSubject principal nowMs
  if cachedOk then return ()
  cap.checkSig keyring
  cap.checkRevoked principal revocations

end Capability

end BunnyMesh
