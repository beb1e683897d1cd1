import BunnyMesh.Auth.Caps
import BunnyMesh.Lib.OrdMap
import BunnyMesh.Lib.Run
import BunnyMesh.Lib.Threads

/-!
# Authorization

`authorize_cached` (`ns.rs`) as a program over the shared verification cache, and the system of the calls in flight and
the revocations.  A cache entry of the current epoch stands for a full verification under the current revocations
(`CapCache.Backed`), so a call gives what it would give without a cache (`Answers`).
-/

namespace BunnyMesh

open Std
open Runs (Run)
open Threads (Prog Pool)

inductive AuthError where
  | unauthorized (detail : Bytes)
  | forbidden (detail : Bytes)
  | quotaExceeded (ns : Bytes) (limit : Nat)
deriving DecidableEq

/-! ### The cache -/

/-- The map, the generation and the cached epoch of each of the 256 shards. -/
structure CapCache where
  ticks : UInt8 → Nat
  shards : UInt8 → ExtTreeMap Bytes Nat compare
  epochs : UInt8 → Nat

namespace CapCache

def new : CapCache := ⟨fun _ => 0, fun _ => ∅, fun _ => 0⟩

/-- The shard of a digest, `key.as_bytes()[0] % 256`; a digest is never empty. -/
def shardOf (key : Bytes) : UInt8 := key.headD 0

def setShard (c : CapCache) (i : UInt8) (m : ExtTreeMap Bytes Nat compare) (tick : Nat) : CapCache :=
  { c with shards := fun j => if j = i then m else c.shards j, ticks := fun j => if j = i then tick else c.ticks j }

/-- The section of `mark_verified` under the lock of the shard. -/
def mark (c : CapCache) (key : Bytes) (epoch : Nat) : CapCache :=
  let i := shardOf key
  let m := c.shards i
  if m.size ≥ 8192 then c.setShard i ((∅ : ExtTreeMap Bytes Nat compare).insert key epoch) (c.ticks i + 1)
  else c.setShard i (m.insert key epoch) (c.ticks i)

end CapCache

/-- A program over the cache; the environment decides whether a `try_lock` succeeds. -/
abbrev CacheProg := Prog CapCache Bool

/-- Was the digest fully verified in `epoch`?  `cache` says whether there is a cache at all. -/
def epochOk (cache : Bool) (key : Bytes) (epoch : Nat) : CacheProg Bool :=
  if cache then do
    let shard := CapCache.shardOf key
    let ticks ← Prog.access fun _ c => (c.ticks shard, c)
    let epochs ← Prog.access fun _ c => (c.epochs shard, c)
    if ticks != epochs then pure false
    else Prog.access fun free c => (free && (c.shards shard)[key]? == some epoch, c)
  else pure false

def markVerified (cache : Bool) (key : Bytes) (epoch : Nat) (cachedOk : Bool) : CacheProg Unit :=
  if cache && !cachedOk then Prog.access fun _ c => ((), c.mark key epoch) else pure ()

namespace Capability

def tierOk (cap : Capability) (t : Tier) : Bool := cap.scope.tier == t || (t == .l1 && cap.scope.tier == .l1)

end Capability

section
variable [AuthCrates]

/-- The loop over the capabilities: the first one that verifies and fits is recorded. -/
def firstValid (fits : Capability → Bool) (keyring : RootKeyring) (principal : PublicKey) (revocations : RevocationSet)
    (nowMs : Nat) (cache : Bool) (epoch : Nat) : List Capability → CacheProg Bool
  | [] => pure false
  | cap :: caps => do
    let ckey := cap.digestHex
    let cachedOk ← epochOk cache ckey epoch
    if (cap.verifyOrCached keyring principal revocations nowMs cachedOk).toBool && fits cap then
      markVerified cache ckey epoch cachedOk
      pure true
    else firstValid fits keyring principal revocations nowMs cache epoch caps

/-- The arguments of a call beyond the keyring, the revocations and the cache. -/
structure AuthCall where
  scope : Scope
  principal : PublicKey
  perms : PermSet
  caps : List Capability
  hostName : Bytes
  nowMs : Nat
deriving DecidableEq

def AuthCall.fits (call : AuthCall) (cap : Capability) : Bool :=
  match call.scope.tier with
  | .l3 => cap.scope.tier == .l3 && cap.scope.covers call.scope &&
      str "u/" ++ PublicKey.display cap.subject == call.scope.ns && cap.perms.contains call.perms
  | .l1 => cap.tierOk .l1 && cap.scope.tier == .l1 && cap.scope.ns == str "*" && cap.perms.contains .admin
  | .l2 => cap.scope.tier == .l2 && cap.scope.covers call.scope && cap.perms.contains call.perms

/-- `{:?}` of the names of a permission set. -/
def PermSet.debug (p : PermSet) : Bytes :=
  str "[" ++ (str ", ").intercalate (p.names.map fun n => str "\"" ++ n ++ str "\"") ++ str "]"

def AuthCall.denied (call : AuthCall) : AuthError :=
  match call.scope.tier with
  | .l3 => .unauthorized (str "no capability covers " ++ call.scope.toUrl ++ str " for its owner")
  | .l1 => .unauthorized (str "no valid L1 admin capability")
  | .l2 => .unauthorized (str "no capability covers " ++ call.scope.toUrl ++ str " with " ++ call.perms.debug)

def authorizeCached (call : AuthCall) (keyring : RootKeyring) (revocations : RevocationSet) (cache : Bool)
    (epoch : Nat) : CacheProg (Except AuthError Unit) :=
  if call.scope.host ≠ call.hostName then
    pure (.error (.unauthorized (str "scope host " ++ AuthCrates.debugStr call.scope.host ++
      str " is not this host (" ++ AuthCrates.debugStr call.hostName ++ str ")")))
  else do
    let found ← firstValid call.fits keyring call.principal revocations call.nowMs cache epoch call.caps
    pure (if found then .ok () else .error call.denied)

def authorize (call : AuthCall) (keyring : RootKeyring) (revocations : RevocationSet) : Except AuthError Unit :=
  ((authorizeCached call keyring revocations false 0).alone true CapCache.new).1

/-! ### What a verification comes to -/

namespace Capability

variable {cap : Capability} {keyring : RootKeyring} {principal : PublicKey} {revocations : RevocationSet} {nowMs : Nat}

/-- The checks that the cache stands for: the signature is good and the capability of its subject is not revoked. -/
def Verified (cap : Capability) (keyring : RootKeyring) (revocations : RevocationSet) : Prop :=
  cap.checkSig keyring = .ok () ∧ cap.checkRevoked cap.subject revocations = .ok ()

theorem acceptsIssuer_of_checkSig (h : cap.checkSig keyring = .ok ()) : keyring.acceptsIssuer cap.issuer := by
  unfold checkSig at h
  unfold RootKeyring.acceptsIssuer
  cases hkey : keyring.keyForIssuer cap.issuer with
  | none => rw [hkey] at h; cases h
  | some key => rfl

omit [AuthCrates] in
theorem subject_of_checkSubject (h : cap.checkSubject principal nowMs = .ok ()) : cap.subject = principal := by
  unfold checkSubject at h
  split at h
  · cases h
  · rename_i hne
    exact not_not.1 hne

omit [AuthCrates] in
theorem toBool_eq_true {x : Except CapError Unit} : x.toBool = true ↔ x = .ok () := by
  cases x <;> simp [Except.toBool]

theorem verifyOrCached_true : (cap.verifyOrCached keyring principal revocations nowMs true).toBool =
    (keyring.acceptsIssuer cap.issuer && (cap.checkSubject principal nowMs).toBool) := by
  unfold verifyOrCached
  cases keyring.acceptsIssuer cap.issuer <;> cases cap.checkSubject principal nowMs <;> rfl

theorem verifyOrCached_false : (cap.verifyOrCached keyring principal revocations nowMs false).toBool =
    (keyring.acceptsIssuer cap.issuer && (cap.checkSubject principal nowMs).toBool && (cap.checkSig keyring).toBool &&
      (cap.checkRevoked principal revocations).toBool) := by
  unfold verifyOrCached
  cases keyring.acceptsIssuer cap.issuer <;> cases cap.checkSubject principal nowMs <;> cases cap.checkSig keyring <;>
    cases cap.checkRevoked principal revocations <;> rfl

theorem verified_of_verifyOrCached (h : (cap.verifyOrCached keyring principal revocations nowMs false).toBool) :
    cap.Verified keyring revocations := by
  rw [verifyOrCached_false] at h
  simp only [Bool.and_eq_true, toBool_eq_true] at h
  obtain ⟨⟨⟨_, hsubject⟩, hsig⟩, hrevoked⟩ := h
  rw [← subject_of_checkSubject hsubject] at hrevoked
  exact ⟨hsig, hrevoked⟩

theorem Verified.verifyOrCached (h : cap.Verified keyring revocations) :
    (cap.verifyOrCached keyring principal revocations nowMs true).toBool =
      (cap.verifyOrCached keyring principal revocations nowMs false).toBool := by
  rw [verifyOrCached_true, verifyOrCached_false, acceptsIssuer_of_checkSig h.1, h.1]
  cases hsubject : cap.checkSubject principal nowMs with
  | error e => rfl
  | ok u =>
    rw [← subject_of_checkSubject hsubject, h.2]
    rfl

end Capability

/-! ### Without a cache -/

def AuthCall.served (call : AuthCall) (keyring : RootKeyring) (revocations : RevocationSet) : Bool :=
  call.caps.any fun cap =>
    (cap.verifyOrCached keyring call.principal revocations call.nowMs false).toBool && call.fits cap

variable {call : AuthCall} {keyring : RootKeyring} {revocations : RevocationSet}

theorem firstValid_uncached {fits : Capability → Bool} {principal : PublicKey} {nowMs epoch : Nat}
    (caps : List Capability) : firstValid fits keyring principal revocations nowMs false epoch caps =
      .ret (caps.any fun cap => (cap.verifyOrCached keyring principal revocations nowMs false).toBool && fits cap) := by
  induction caps with
  | nil => rfl
  | cons cap caps ih =>
    rw [firstValid, List.any_cons]
    show (if _ then _ else _) = _
    split
    · rename_i h
      rw [h]
      rfl
    · rename_i h
      rw [Bool.not_eq_true] at h
      rw [h, Bool.false_or]
      exact ih

def AuthCall.answer (call : AuthCall) (found : Bool) : Except AuthError Unit :=
  if found then .ok () else .error call.denied

theorem authorize_eq (hhost : call.scope.host = call.hostName) :
    authorize call keyring revocations = call.answer (call.served keyring revocations) := by
  unfold authorize authorizeCached
  rw [if_neg (by simpa using hhost), firstValid_uncached]
  rfl

/-! ### Hosts -/

namespace Capability

variable {cap : Capability} {principal : PublicKey} {nowMs : Nat}

theorem verifyOrCached_eq_verify :
    (cap.verifyOrCached keyring principal revocations nowMs false).toBool = true ↔
      cap.verify keyring principal revocations nowMs = .ok () := by
  rw [verifyOrCached_false]
  unfold verify
  constructor
  · intro h
    simp only [Bool.and_eq_true, toBool_eq_true] at h
    obtain ⟨⟨⟨_, hsubject⟩, hsig⟩, hrevoked⟩ := h
    rw [hsig, hsubject, hrevoked]
    rfl
  · intro h
    cases hsig : cap.checkSig keyring with
    | error e => rw [hsig] at h; cases h
    | ok _ =>
      cases hsubject : cap.checkSubject principal nowMs with
      | error e => rw [hsig, hsubject] at h; cases h
      | ok _ =>
        rw [hsig, hsubject] at h
        have hrevoked : cap.checkRevoked principal revocations = .ok () := h
        rw [acceptsIssuer_of_checkSig hsig, hrevoked]
        rfl

def isAdmin (cap : Capability) : Bool := cap.scope.tier == .l1 && cap.scope.ns == str "*" && cap.perms.contains .admin

end Capability

theorem authorize_eq_ok : authorize call keyring revocations = .ok () ↔ call.scope.host = call.hostName ∧
    ∃ cap ∈ call.caps, cap.verify keyring call.principal revocations call.nowMs = .ok () ∧ call.fits cap = true := by
  by_cases hhost : call.scope.host = call.hostName
  · rw [authorize_eq hhost, AuthCall.answer]
    have hserved : call.served keyring revocations = true ↔ ∃ cap ∈ call.caps,
        cap.verify keyring call.principal revocations call.nowMs = .ok () ∧ call.fits cap = true := by
      simp [AuthCall.served, Capability.verifyOrCached_eq_verify]
    rw [← hserved]
    simp [hhost]
  · constructor
    · intro h
      unfold authorize authorizeCached at h
      rw [if_pos hhost] at h
      cases h
    · exact fun h => absurd h.1 hhost

omit [AuthCrates] in
theorem Scope.host_of_covers {s other : Scope} (h : s.covers other = true) : s.host = other.host := by
  simp only [Scope.covers, Bool.and_eq_true, beq_iff_eq] at h
  exact h.1.1.1

variable {cap : Capability}

omit [AuthCrates] in
theorem AuthCall.host_of_fits (htier : call.scope.tier ≠ .l1) (h : call.fits cap = true) :
    cap.scope.host = call.scope.host := by
  unfold AuthCall.fits at h
  cases ht : call.scope.tier with
  | l1 => exact absurd ht htier
  | l2 =>
    rw [ht] at h
    simp only [Bool.and_eq_true] at h
    exact Scope.host_of_covers h.1.2
  | l3 =>
    rw [ht] at h
    simp only [Bool.and_eq_true] at h
    exact Scope.host_of_covers h.1.1.2

omit [AuthCrates] in
theorem AuthCall.fits_l1 (htier : call.scope.tier = .l1) : call.fits cap = cap.isAdmin := by
  unfold AuthCall.fits Capability.isAdmin Capability.tierOk
  rw [htier]
  cases cap.scope.tier == Tier.l1 <;> rfl

/-- What is authorized is authorized by a capability for this host, exactly if a call of the host tier that brings an
administrator's capability for another host also brings one for this host. -/
theorem authorized_on_host_iff (call : AuthCall) (keyring : RootKeyring) (revocations : RevocationSet) :
    (authorize call keyring revocations = .ok () → ∃ cap ∈ call.caps,
      cap.verify keyring call.principal revocations call.nowMs = .ok () ∧ cap.scope.host = call.hostName) ↔
    (call.scope.tier = .l1 → call.scope.host = call.hostName →
      (∃ cap ∈ call.caps, cap.verify keyring call.principal revocations call.nowMs = .ok () ∧
        cap.isAdmin = true ∧ cap.scope.host ≠ call.hostName) →
      ∃ cap ∈ call.caps, cap.verify keyring call.principal revocations call.nowMs = .ok () ∧
        cap.scope.host = call.hostName) := by
  constructor
  · rintro h htier hhost ⟨cap, hcap, hverify, hadmin, _⟩
    refine h (authorize_eq_ok.2 ⟨hhost, cap, hcap, hverify, ?_⟩)
    rw [AuthCall.fits_l1 htier]
    exact hadmin
  · intro h hok
    obtain ⟨hhost, cap, hcap, hverify, hfits⟩ := authorize_eq_ok.1 hok
    by_cases hcaphost : cap.scope.host = call.hostName
    · exact ⟨cap, hcap, hverify, hcaphost⟩
    · by_cases htier : call.scope.tier = .l1
      · refine h htier hhost ⟨cap, hcap, hverify, ?_, hcaphost⟩
        rw [← AuthCall.fits_l1 htier]
        exact hfits
      · exact absurd ((AuthCall.host_of_fits htier hfits).trans hhost) hcaphost

section

omit [AuthCrates]

def formerAdmin : Capability := ⟨⟨[104], .l1, [42], none⟩, .admin, none, 7, .zero, .zero, .zero⟩

/-- A call to the host tier of the node, which now has the name `n`. -/
def restoredCall : AuthCall := ⟨⟨[110], .l1, [42], none⟩, .zero, .admin, [formerAdmin], [110], 5⟩

/-- The restored node takes the capability of the host it was. -/
theorem restored_host_takes_admin : letI := AuthCrates.trivial
    authorize restoredCall ⟨.zero, []⟩ .new = .ok () ∧ restoredCall.caps.map (·.scope.host) = [[104]] ∧
      restoredCall.hostName = [110] := by
  decide +kernel

end

/-! ### With the cache -/

/-- Every entry is of an epoch up to the current one, and an entry of the current epoch is the digest of one of the
capabilities `known` that verifies now. -/
def CapCache.Backed (known : Set Capability) (keyring : RootKeyring) (revocations : RevocationSet) (epoch : Nat)
    (c : CapCache) : Prop :=
  ∀ i key e, (c.shards i)[key]? = some e →
    e ≤ epoch ∧ (e = epoch → ∃ cap ∈ known, cap.digestHex = key ∧ cap.Verified keyring revocations)

variable {known : Set Capability} {epoch : Nat}

theorem CapCache.backed_new : CapCache.new.Backed known keyring revocations epoch := by
  intro i key e h
  simp [CapCache.new] at h

theorem CapCache.Backed.setShard {c : CapCache} (hc : c.Backed known keyring revocations epoch) {i : UInt8}
    {m : ExtTreeMap Bytes Nat compare} {tick : Nat}
    (hm : ∀ (key : Bytes) e, m[key]? = some e →
      e ≤ epoch ∧ (e = epoch → ∃ cap ∈ known, cap.digestHex = key ∧ cap.Verified keyring revocations)) :
    (c.setShard i m tick).Backed known keyring revocations epoch := by
  intro j key e h
  dsimp only [CapCache.setShard] at h
  split at h
  · exact hm key e h
  · exact hc j key e h

theorem CapCache.Backed.mark {c : CapCache} (hc : c.Backed known keyring revocations epoch)
    (hcap : cap ∈ known) (hv : cap.Verified keyring revocations) :
    (c.mark cap.digestHex epoch).Backed known keyring revocations epoch := by
  have hinsert : ∀ m : ExtTreeMap Bytes Nat compare,
      (∀ (key : Bytes) e, m[key]? = some e →
        e ≤ epoch ∧ (e = epoch → ∃ cap ∈ known, cap.digestHex = key ∧ cap.Verified keyring revocations)) →
      ∀ (key : Bytes) e, (m.insert cap.digestHex epoch)[key]? = some e →
        e ≤ epoch ∧ (e = epoch → ∃ cap ∈ known, cap.digestHex = key ∧ cap.Verified keyring revocations) := by
    intro m hm key e h
    rw [OrdMap.getElem?_insert] at h
    split at h
    · rename_i hkey
      cases h
      exact ⟨Nat.le_refl _, fun _ => ⟨cap, hcap, hkey, hv⟩⟩
    · exact hm key e h
  unfold CapCache.mark
  dsimp only
  split
  · refine hc.setShard (hinsert _ ?_)
    intro key e h
    simp at h
  · exact hc.setShard (hinsert _ (hc _))

theorem epochOk_safe (hinj : Set.InjOn Capability.digestHex known) (hcap : cap ∈ known) :
    (epochOk true cap.digestHex epoch).Safe (CapCache.Backed known keyring revocations epoch)
      (fun cachedOk => cachedOk = true → cap.Verified keyring revocations) := by
  refine Prog.Safe.bind (P := fun _ => True) (Prog.safe_access fun _ _ hc => ⟨hc, trivial⟩) fun ticks _ => ?_
  refine Prog.Safe.bind (P := fun _ => True) (Prog.safe_access fun _ _ hc => ⟨hc, trivial⟩) fun epochs _ => ?_
  split
  · intro h; cases h
  · refine Prog.safe_access fun free c hc => ⟨hc, fun h => ?_⟩
    simp only [Bool.and_eq_true, beq_iff_eq] at h
    obtain ⟨cap', hcap', hdigest, hv⟩ := (hc _ _ _ h.2).2 rfl
    rw [← hinj hcap' hcap hdigest]
    exact hv

theorem markVerified_safe {cachedOk : Bool} (hcap : cap ∈ known) (hv : cap.Verified keyring revocations) :
    (markVerified true cap.digestHex epoch cachedOk).Safe (CapCache.Backed known keyring revocations epoch)
      (fun _ => True) := by
  unfold markVerified
  split
  · exact Prog.safe_access fun _ c hc => ⟨hc.mark hcap hv, trivial⟩
  · trivial

theorem firstValid_safe {fits : Capability → Bool} {principal : PublicKey} {nowMs : Nat}
    (hinj : Set.InjOn Capability.digestHex known) {caps : List Capability} (hcaps : ∀ cap ∈ caps, cap ∈ known) :
    (firstValid fits keyring principal revocations nowMs true epoch caps).Safe
      (CapCache.Backed known keyring revocations epoch)
      (· = caps.any fun cap => (cap.verifyOrCached keyring principal revocations nowMs false).toBool && fits cap) := by
  induction caps with
  | nil => exact (rfl : false = false)
  | cons cap caps ih =>
    obtain ⟨hcap, hrest⟩ := List.forall_mem_cons.1 hcaps
    refine Prog.Safe.bind (epochOk_safe hinj hcap) fun cachedOk hcached => ?_
    -- the cached verdict does not change the test
    have hsame : (cap.verifyOrCached keyring principal revocations nowMs cachedOk).toBool =
        (cap.verifyOrCached keyring principal revocations nowMs false).toBool := by
      cases cachedOk with
      | false => rfl
      | true => exact (hcached rfl).verifyOrCached
    rw [hsame, List.any_cons]
    split
    · rename_i h
      rw [h, Bool.true_or]
      have hv := Capability.verified_of_verifyOrCached (Bool.and_eq_true_iff.1 h).1
      exact (markVerified_safe hcap hv).bind fun _ _ => rfl
    · rename_i h
      rw [Bool.not_eq_true] at h
      rw [h, Bool.false_or]
      exact ih hrest

theorem authorizeCached_safe (hinj : Set.InjOn Capability.digestHex known) (hcaps : ∀ cap ∈ call.caps, cap ∈ known) :
    (authorizeCached call keyring revocations true epoch).Safe (CapCache.Backed known keyring revocations epoch)
      (· = authorize call keyring revocations) := by
  by_cases hhost : call.scope.host = call.hostName
  · rw [authorize_eq hhost]
    unfold authorizeCached
    rw [if_neg (by simpa using hhost)]
    refine (firstValid_safe hinj hcaps).bind fun found hfound => ?_
    rw [hfound]
    rfl
  · unfold authorize authorizeCached
    rw [if_pos hhost, if_pos hhost]
    rfl

/-! ### Calls and revocations -/

/-- The calls in flight, the cache they share, and the revocations with their epoch.  A call holds the read lock of the
revocations from before it reads the epoch until it has its answer. -/
structure AuthSystem where
  cache : CapCache
  revocations : RevocationSet
  epoch : Nat
  calls : Pool AuthCall CapCache Bool (Except AuthError Unit)

namespace AuthSystem

def init : AuthSystem := ⟨CapCache.new, RevocationSet.new, 0, []⟩

inductive Event where
  | call (c : AuthCall)
  | access (i : Nat) (lockFree : Bool)
  | answer (i : Nat)
  | revokePrincipal (scope : Scope) (principalHex : Bytes)
  | revokeNonce (nonce : Nat)
deriving DecidableEq

/-- A revocation takes the write lock, so no call is in flight. -/
inductive Step (keyring : RootKeyring) : AuthSystem → Event → AuthSystem → Prop where
  | call {s : AuthSystem} (c : AuthCall) : Step keyring s (.call c)
      { s with calls := s.calls ++ [(c, authorizeCached c keyring s.revocations true s.epoch)] }
  | access {s : AuthSystem} {i : Nat} {c : AuthCall} {p p' : CacheProg (Except AuthError Unit)} {cache' : CapCache}
      {free : Bool} (thread : s.calls[i]? = some (c, p)) (next : p.next free s.cache = some (p', cache')) :
      Step keyring s (.access i free) { s with cache := cache', calls := s.calls.set i (c, p') }
  | answer {s : AuthSystem} {i : Nat} {c : AuthCall} {r : Except AuthError Unit}
      (thread : s.calls[i]? = some (c, .ret r)) : Step keyring s (.answer i) { s with calls := s.calls.eraseIdx i }
  | revokePrincipal {s : AuthSystem} (idle : s.calls = []) (scope : Scope) (principalHex : Bytes) :
      Step keyring s (.revokePrincipal scope principalHex)
        { s with revocations := s.revocations.revokePrincipal scope principalHex, epoch := s.epoch + 1 }
  | revokeNonce {s : AuthSystem} (idle : s.calls = []) (nonce : Nat) :
      Step keyring s (.revokeNonce nonce)
        { s with revocations := s.revocations.revokeNonce nonce, epoch := s.epoch + 1 }

def presented (history : List Event) : Set Capability := {cap | ∃ c, Event.call c ∈ history ∧ cap ∈ c.caps}

/-- The cache is backed, and every call in flight will answer as without it. -/
structure Faithful (known : Set Capability) (keyring : RootKeyring) (s : AuthSystem) : Prop where
  backed : s.cache.Backed known keyring s.revocations s.epoch
  calls : s.calls.Safe (CapCache.Backed known keyring s.revocations s.epoch)
    (fun c r => r = authorize c keyring s.revocations)

variable {s s' : AuthSystem} {e : Event}

theorem faithful_init : init.Faithful known keyring :=
  ⟨CapCache.backed_new, fun _ h => nomatch h⟩

theorem Faithful.revoke (h : s.Faithful known keyring) (idle : s.calls = []) (revocations : RevocationSet) :
    Faithful known keyring { s with revocations := revocations, epoch := s.epoch + 1 } := by
  refine ⟨fun i key e he => ?_, fun t ht => ?_⟩
  · have hle := (h.backed i key e he).1
    exact ⟨Nat.le_succ_of_le hle, fun heq => absurd heq (Nat.ne_of_lt (Nat.lt_succ_of_le hle))⟩
  · rw [show s.calls = [] from idle] at ht
    cases ht

theorem Faithful.step (h : s.Faithful known keyring) (hinj : Set.InjOn Capability.digestHex known)
    (hknown : ∀ c, e = .call c → ∀ cap ∈ c.caps, cap ∈ known) (hstep : Step keyring s e s') :
    s'.Faithful known keyring := by
  cases hstep with
  | call c => exact ⟨h.backed, h.calls.start (authorizeCached_safe hinj (hknown c rfl))⟩
  | access thread next =>
    obtain ⟨hcache, hcalls⟩ := h.calls.access h.backed thread next
    exact ⟨hcache, hcalls⟩
  | answer thread => exact ⟨h.backed, fun t ht => h.calls t (List.mem_of_mem_eraseIdx ht)⟩
  | revokePrincipal idle => exact h.revoke idle _
  | revokeNonce idle => exact h.revoke idle _

theorem run_faithful {history : List Event} (hinj : Set.InjOn Capability.digestHex (presented history))
    (hrun : Run (Step keyring) init history s) : s.Faithful (presented history) keyring := by
  refine hrun.invariant_of_mem (fun e he s s' h hstep => h.step hinj ?_ hstep) faithful_init
  rintro c rfl cap hcap
  exact ⟨c, he, hcap⟩

/-- Every call that shares the cache returns `Ok` exactly when it would without a cache under the current revocations,
however the calls, their accesses to the cache and the revocations alternate: a call that has returned did so, and a
call in flight returns so once it goes on.  The digest is assumed to tell apart the capabilities that are presented. -/
theorem cached_authorizer_exact {history : List Event} (hinj : Set.InjOn Capability.digestHex (presented history))
    (hrun : Run (Step keyring) init history s) :
    (∀ (i : Nat) c r, s.calls[i]? = some (c, .ret r) → (r = .ok () ↔ authorize c keyring s.revocations = .ok ())) ∧
    ∀ (i : Nat) c p, s.calls[i]? = some (c, p) →
      ∀ free, (p.alone free s.cache).1 = .ok () ↔ authorize c keyring s.revocations = .ok () := by
  have hfaithful := run_faithful hinj hrun
  constructor
  · intro i c r hi
    have hr : r = authorize c keyring s.revocations := hfaithful.calls _ (List.mem_of_getElem? hi)
    rw [hr]
  · intro i c p hi free
    have hr := (hfaithful.calls _ (List.mem_of_getElem? hi)).alone hfaithful.backed free
    rw [hr]

omit [AuthCrates]

/-- A capability to read a namespace, and a call that presents it. -/
def readerCap : Capability := ⟨⟨[104], .l2, [97], none⟩, .read, none, 7, .zero, .zero, .zero⟩

def readerCall : AuthCall := ⟨⟨[104], .l2, [97], none⟩, .zero, .read, [readerCap], [104], 5⟩

/-- The call twice: the second one finds the verdict of the first in the cache. -/
def readTwice : List Event :=
  .call readerCall :: List.replicate 4 (.access 0 true) ++ .answer 0 :: .call readerCall ::
    List.replicate 3 (.access 0 true)

theorem cached_authorizer_exact_hit : letI := AuthCrates.trivial
    ∃ s, Run (Step ⟨.zero, []⟩) init readTwice s ∧ s.calls[0]? = some (readerCall, .ret (.ok ())) ∧
      authorize readerCall ⟨.zero, []⟩ s.revocations = .ok () := by
  let _ := AuthCrates.trivial
  have hrun : ∃ s, Run (Step ⟨.zero, []⟩) init readTwice s ∧ s.calls[0]? = some (readerCall, .ret (.ok ())) := by
    refine Run.exists_cons (.call _) ?_
    iterate 4 refine Run.exists_cons (.access rfl rfl) ?_
    refine Run.exists_cons (.answer rfl) (Run.exists_cons (.call _) ?_)
    iterate 3 refine Run.exists_cons (.access rfl rfl) ?_
    exact ⟨_, .nil _, rfl⟩
  have honly : ∀ cap ∈ presented readTwice, cap = readerCap := by
    rintro cap ⟨c, hc, hcap⟩
    have hc' : c = readerCall := by simpa [readTwice] using hc
    subst hc'
    exact List.mem_singleton.1 hcap
  obtain ⟨s, hs, hret⟩ := hrun
  refine ⟨s, hs, hret, ((cached_authorizer_exact ?_ hs).1 0 _ _ hret).1 rfl⟩
  intro a ha b hb _
  rw [honly a ha, honly b hb]

end AuthSystem

end

end BunnyMesh
