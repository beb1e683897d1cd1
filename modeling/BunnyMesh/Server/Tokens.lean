import BunnyMesh.Auth.Rotate
import BunnyMesh.Server.Revocations
import Mathlib.Data.Finset.Card

/-!
# Tokens in headers

`parse_cap_header` and what `auth_mw` (`server/mod.rs`) makes of a header before a handler runs.  The bytes that are signed
determine every field of a capability, and a header with an issued capability is read as that capability.  The key under
which the rate limiter counts a request is the digest of its header, taken before the signature is looked at: the keys are
bounded by the signed capabilities only as far as no other capability is sent, and each one in one header.
-/

namespace BunnyMesh

open ByteCodec Capability

theorem mapError_eq_ok {ε ε' α : Type} {x : Except ε α} {f : ε → ε'} {a : α} : x.mapError f = .ok a ↔ x = .ok a := by
  cases x <;> simp [Except.mapError]

inductive HeaderError where
  /-- expected Bearer scheme -/
  | scheme
  /-- expected bmdb-cap: token -/
  | token
  | base64 (e : B64Error)
  | utf8
  | json (e : CapJsonError)
deriving DecidableEq

/-- `Bearer ` -/
def bearer : Bytes := str "Bearer "

def parseCapHeader [RotateCrates] (h : Bytes) : Except HeaderError Capability := do
  let rest ← if bearer.isPrefixOf h then .ok (h.drop bearer.length) else .error .scheme
  let b64 ← (headerBody rest).elim (.error .token) .ok
  let capJson ← (decodeImpl b64 b64Url).mapError .base64
  if isUtf8 capJson then (Capability.fromJson capJson).mapError .json else .error .utf8

/-! ### Permissions -/

namespace PermSet

def known : List PermSet := (List.range 8).map fun n => ⟨UInt8.ofNat n⟩

theorem utf8_of_mem_names {p : PermSet} {s : Bytes} (h : s ∈ p.names) : isUtf8 s := by
  have hutf : isUtf8 (str "read") ∧ isUtf8 (str "write") ∧ isUtf8 (str "admin") := by decide +kernel
  unfold names at h
  simp only [List.mem_append] at h
  rcases h with (h | h) | h
  all_goals
    split_ifs at h
    · rw [List.mem_singleton.1 h]
      simp [hutf]
    · cases h

variable [AuthCrates]

theorem mem_known_of_parseList {list : List Bytes} {p : PermSet} (h : parseList list = .ok p) : p ∈ known := by
  have hflag : ∀ p ∈ known, ∀ f ∈ [read, write, admin], (⟨p.bits ||| f.bits⟩ : PermSet) ∈ known := by decide
  have hstart : (⟨0⟩ : PermSet) ∈ known := by decide
  unfold parseList at h
  generalize (⟨0⟩ : PermSet) = start at h hstart
  induction list generalizing start with
  | nil =>
    cases h
    exact hstart
  | cons s list ih =>
    rw [List.foldlM_cons] at h
    obtain ⟨q, hq, hrest⟩ := bind_eq_ok.1 h
    refine ih q hrest ?_
    cases hs : flag s with
    | none =>
      rw [hs] at hq
      cases hq
    | some f =>
      rw [hs] at hq
      cases hq
      refine hflag _ hstart f ?_
      unfold flag at hs
      split_ifs at hs <;> cases hs <;> simp

theorem parseList_names {p : PermSet} (h : p ∈ known) : parseList p.names = .ok p := by
  have hflags : flag (str "read") = some read ∧ flag (str "write") = some write ∧ flag (str "admin") = some admin := by
    decide +kernel
  have hor : ∀ p ∈ known, (if p.contains read then 1 else 0) ||| (if p.contains write then 2 else 0) |||
      (if p.contains admin then 4 else 0) = p.bits := by decide
  refine Eq.trans ?_ (congrArg (fun bits => (.ok ⟨bits⟩ : Except Bytes PermSet)) (hor p h))
  unfold names parseList
  cases p.contains read <;> cases p.contains write <;> cases p.contains admin <;>
    simp [hflags, bind, Except.bind, pure, Except.pure] <;> rfl

end PermSet

/-! ### The text of a token -/

def jsonObject (members : List (Bytes × Bytes)) : Bytes :=
  [123] ++ [44].intercalate (members.map fun m => [34] ++ m.1 ++ [34, 58] ++ m.2) ++ [125]

theorem alphabet_b64Url : Alphabet b64Url := by decide +kernel

theorem ascii_encodeImpl {alpha : Bytes} (h : Alphabet alpha) (data : Bytes) : ∀ b ∈ encodeImpl data alpha, b < 0x80 := by
  intro b hb
  obtain ⟨i, hi, rfl⟩ := List.mem_map.1 hb
  have hindex := (h i (sextets_lt data i hi)).2
  unfold revIndex at hindex
  split_ifs at hindex with hlt
  exact UInt8.not_le.1 hlt

theorem PublicKey.isUtf8_display (k : PublicKey) : isUtf8 (PublicKey.display k) := by
  refine isUtf8_of_ascii fun b hb => ?_
  obtain ⟨n, hn, rfl⟩ := mem_hexEncode hb
  exact hexDigit_lt hn

section
variable [AuthCrates]

def CapWire.text (w : CapWire) : Bytes :=
  jsonObject [(str "scope", AuthCrates.jsonStr w.scope),
    (str "perms", [91] ++ [44].intercalate (w.perms.map AuthCrates.jsonStr) ++ [93]),
    (str "expiry_ms", (w.expiryMs.map decimal).getD (str "null")), (str "nonce", decimal w.nonce),
    (str "issuer", AuthCrates.jsonStr w.issuer), (str "subject", AuthCrates.jsonStr w.subject),
    (str "sig", AuthCrates.jsonStr w.sig)]

/-- The members have the types of `Wire`: strings are UTF-8, numbers are 64-bit. -/
structure CapWire.Typed (w : CapWire) : Prop where
  strings : ∀ s ∈ w.scope :: w.issuer :: w.subject :: w.sig :: w.perms, isUtf8 s
  numbers : ∀ n ∈ w.nonce :: w.expiryMs.toList, n < 2 ^ 64

/-- The members of the object that `to_json` writes. -/
def Capability.wire (c : Capability) : CapWire :=
  ⟨c.scope.toUrl, c.perms.names, c.expiryMs, c.nonce, PublicKey.display c.issuer, PublicKey.display c.subject,
    encodeImpl c.sig.val b64Url⟩

theorem Capability.toJson_eq (c : Capability) : c.toJson = c.wire.text := by
  have h : str "\"scope\":" = [34] ++ str "scope" ++ [34, 58] ∧
      str ",\"perms\":[" = [44] ++ ([34] ++ str "perms" ++ [34, 58]) ++ [91] ∧
      str "],\"expiry_ms\":" = [93] ++ [44] ++ ([34] ++ str "expiry_ms" ++ [34, 58]) ∧
      str ",\"nonce\":" = [44] ++ ([34] ++ str "nonce" ++ [34, 58]) ∧
      str ",\"issuer\":" = [44] ++ ([34] ++ str "issuer" ++ [34, 58]) ∧
      str ",\"subject\":" = [44] ++ ([34] ++ str "subject" ++ [34, 58]) ∧
      str ",\"sig\":" = [44] ++ ([34] ++ str "sig" ++ [34, 58]) := by
    decide +kernel
  simp [toJson, CapWire.text, wire, jsonObject, h]

theorem l1IssueCap_capability {cfg : NodeConfig} {caps : Option (List Capability)} {body : IssueCapBody} {nonce nowMs : Nat}
    {d : Daemon} {c : Capability} (h : (l1IssueCap cfg caps body nonce nowMs d).1 = .capability c) :
    Scope.parse body.scope = .ok c.scope ∧ PermSet.parseList body.perms = .ok c.perms ∧ c.expiryMs = body.expiryMs ∧
      c.nonce = nonce := by
  unfold l1IssueCap at h
  split at h
  case h_1 r hauth =>
    obtain ⟨status, err, rfl⟩ := authL1L2_error hauth
    cases h
  case h_2 principal _ =>
    split at h
    case h_1 => cases h
    case h_2 cap hcap =>
      cases h
      unfold issuedCap at hcap
      split at hcap
      case h_1 => cases hcap
      case h_2 target hscope =>
        split_ifs at hcap
        split at hcap
        case h_1 perms subject hperms _ =>
          cases hcap
          exact ⟨hscope, hperms, rfl, rfl⟩
        case h_2 => cases hcap

end

/-! ### What is signed -/

section
variable [RotateCrates] {s : Bytes} {c : Capability}

theorem Capability.fromJson_eq_ok (h : fromJson s = .ok c) :
    Scope.parse c.scope.toUrl = .ok c.scope ∧ c.perms ∈ PermSet.known := by
  obtain ⟨w, _, h⟩ := bind_eq_ok.1 h
  obtain ⟨scope, hscope, h⟩ := bind_eq_ok.1 h
  obtain ⟨perms, hperms, h⟩ := bind_eq_ok.1 h
  obtain ⟨issuer, _, h⟩ := bind_eq_ok.1 h
  obtain ⟨subject, _, h⟩ := bind_eq_ok.1 h
  obtain ⟨sig, _, h⟩ := bind_eq_ok.1 h
  split_ifs at h
  cases h
  rw [mapError_eq_ok] at hscope hperms
  refine ⟨?_, PermSet.mem_known_of_parseList hperms⟩
  rw [Scope.toUrl_of_parse hscope, hscope]

theorem Capability.fromJson_toJson (hread : RotateCrates.fromStr c.wire.text = some c.wire)
    (hscope : Scope.parse c.scope.toUrl = .ok c.scope) (hperms : c.perms ∈ PermSet.known) : fromJson c.toJson = .ok c := by
  rw [fromJson, toJson_eq, hread]
  simp [wire, hscope, PermSet.parseList_names hperms, PublicKey.parse_display, decodeImpl_encodeImpl alphabet_b64Url,
    c.sig.len, bind, Except.bind, Except.mapError]

theorem parseCapHeader_bearer (c : Capability) (hutf : isUtf8 c.toJson) :
    parseCapHeader (bearer ++ c.toHeader) = (fromJson c.toJson).mapError .json := by
  have hbearer : bearer.isPrefixOf (bearer ++ c.toHeader) := List.isPrefixOf_iff_prefix.2 (List.prefix_append _ _)
  have hbody : headerBody c.toHeader = some (encodeImpl c.toJson b64Url) := by
    rw [headerBody, toHeader, if_pos (List.isPrefixOf_iff_prefix.2 (List.prefix_append _ _)), List.drop_left]
  simp [parseCapHeader, hbearer, hbody, decodeImpl_encodeImpl alphabet_b64Url, hutf, bind, Except.bind, Except.mapError]

end

def SignView.fields (v : SignView) : Bytes × List Bytes × Option Nat × Nat × Bytes × Bytes :=
  (v.scope, v.perms.names, v.expiryMs, v.nonce, v.issuer, v.subject)

/-- Where `serde_json` writes the fields of a view faithfully, equal signed bytes mean the same; and where it reads back
what it writes, a header with an issued capability is read as that capability. -/
theorem signature_has_one_meaning [RotateCrates] :
    ((∀ v v', AuthCrates.toVec v = AuthCrates.toVec v' → v.fields = v'.fields) →
      ∀ s s' c c', fromJson s = .ok c → fromJson s' = .ok c' → c.canonicalBytes = c'.canonicalBytes →
        c.scope = c'.scope ∧ c.perms = c'.perms ∧ c.expiryMs = c'.expiryMs ∧ c.nonce = c'.nonce ∧ c.issuer = c'.issuer ∧
          c.subject = c'.subject) ∧
    ((∀ w : CapWire, w.Typed → isUtf8 w.text ∧ RotateCrates.fromStr w.text = some w) →
      ∀ cfg caps body nonce nowMs d c, nonce < 2 ^ 64 → (∀ n ∈ body.expiryMs, n < 2 ^ 64) →
        (l1IssueCap cfg caps body nonce nowMs d).1 = .capability c → parseCapHeader (bearer ++ c.toHeader) = .ok c) := by
  constructor
  · intro hvec s s' c c' h h' hbytes
    obtain ⟨hscope, hperms⟩ := fromJson_eq_ok h
    obtain ⟨hscope', hperms'⟩ := fromJson_eq_ok h'
    obtain ⟨hurl, hnames, hexpiry, hnonce, hissuer, hsubject⟩ : _ = _ ∧ _ = _ ∧ _ = _ ∧ _ = _ ∧ _ = _ ∧ _ = _ := by
      simpa only [SignView.fields, Prod.mk.injEq] using hvec _ _ hbytes
    have hkey : ∀ k k' : PublicKey, PublicKey.display k = PublicKey.display k' → k = k' := by
      intro k k' hk
      have hparse := PublicKey.parse_display k
      rw [hk, PublicKey.parse_display] at hparse
      exact (Option.some.inj hparse).symm
    refine ⟨?_, ?_, hexpiry, hnonce, hkey _ _ hissuer, hkey _ _ hsubject⟩
    · rw [hurl, hscope'] at hscope
      exact (Except.ok.inj hscope).symm
    · have hlist := PermSet.parseList_names hperms
      rw [hnames, PermSet.parseList_names hperms'] at hlist
      exact (Except.ok.inj hlist).symm
  · intro hwire cfg caps body nonce nowMs d c hnonce hexpiry hissue
    obtain ⟨hscope, hperms, hexp, hn⟩ := l1IssueCap_capability hissue
    have hurl := Scope.toUrl_of_parse hscope
    have htyped : c.wire.Typed := by
      refine ⟨fun s hs => ?_, fun n hmem => ?_⟩
      · simp only [wire, List.mem_cons] at hs
        rcases hs with rfl | rfl | rfl | rfl | hs
        · rw [hurl]
          exact body.utf8
        · exact PublicKey.isUtf8_display _
        · exact PublicKey.isUtf8_display _
        · exact isUtf8_of_ascii (ascii_encodeImpl alphabet_b64Url _)
        · exact PermSet.utf8_of_mem_names hs
      · rcases List.mem_cons.1 hmem with rfl | hmem
        · rw [wire, hn]
          exact hnonce
        · exact hexpiry n (hexp ▸ Option.mem_toList.1 hmem)
    obtain ⟨hutf, hread⟩ := hwire _ htyped
    have hparse : Scope.parse c.scope.toUrl = .ok c.scope := hurl ▸ hscope
    rw [parseCapHeader_bearer c (by rw [toJson_eq]; exact hutf),
      fromJson_toJson hread hparse (PermSet.mem_known_of_parseList hperms)]
    rfl

/-! ### Keys of the rate limiter -/

/-- A request as `auth_mw` sees it: its header, and what the token cache has under the digest of the header. -/
structure TokenRequest where
  header : Option Bytes
  cached : Option Capability
deriving DecidableEq

/-- The key of all requests without a bucket of their own. -/
def anonKey : Bytes := str "anon"

section
variable [Crates]

def tokenKey (h : Bytes) : Bytes := hexEncode (Crates.sha256 h).val

theorem tokenKey_inj {h h' : Bytes} : tokenKey h = tokenKey h' ↔ Crates.sha256 h = Crates.sha256 h' := by
  refine ⟨fun heq => ?_, fun heq => by rw [tokenKey, tokenKey, heq]⟩
  have hdecode := congrArg hexDecode heq
  rw [tokenKey, tokenKey, hexDecode_hexEncode, hexDecode_hexEncode] at hdecode
  exact Bytes32.ext (Option.some.inj hdecode)

theorem anonKey_ne_tokenKey (h : Bytes) : anonKey ≠ tokenKey h := by
  intro heq
  have hlen := congrArg List.length heq
  have hanon : anonKey.length = 4 := by decide +kernel
  rw [tokenKey, length_hexEncode, (Crates.sha256 h).len, hanon] at hlen
  cases hlen

end

section
variable [RotateCrates] {cfg : NodeConfig} {H : Set Bytes}

/-- The key that `auth_mw` passes to `RateLimiter::allow`. -/
def rateKey (hostName : Bytes) (r : TokenRequest) : Bytes :=
  match r.header with
  | none => anonKey
  | some h =>
    match r.cached.elim (parseCapHeader h) .ok with
    | .ok cap => if cap.scope.host = hostName then tokenKey h else anonKey
    | .error _ => anonKey

/-- What the cache has was parsed from the header of a request with the same digest. -/
def CacheFilled (rs : List TokenRequest) : Prop :=
  ∀ r ∈ rs, ∀ h ∈ r.header, ∀ cap ∈ r.cached,
    ∃ r' ∈ rs, ∃ h' ∈ r'.header, Crates.sha256 h' = Crates.sha256 h ∧ parseCapHeader h' = .ok cap

/-- The capability is for this node and signed by one of its root keys. -/
def Capability.SignedFor (cfg : NodeConfig) (cap : Capability) : Prop :=
  cap.scope.host = cfg.hostName ∧ cap.checkSig cfg.keyring = .ok ()

/-- The clients send headers of `H`, and of the signed capabilities only those of `V`. -/
def Presents (cfg : NodeConfig) (H : Set Bytes) (V : Finset Capability) (rs : List TokenRequest) : Prop :=
  ∀ r ∈ rs, ∀ h ∈ r.header, h ∈ H ∧ ∀ cap, parseCapHeader h = .ok cap → cap.SignedFor cfg → cap ∈ V

/-- Every header of `H` with a capability for this node has a signed one, and no other header has the same one, up to
collisions of the digest. -/
def OneHeaderEach (cfg : NodeConfig) (H : Set Bytes) : Prop :=
  ∀ h ∈ H, ∀ cap, parseCapHeader h = .ok cap → cap.scope.host = cfg.hostName →
    cap.checkSig cfg.keyring = .ok () ∧ ∀ h' ∈ H, parseCapHeader h' = .ok cap → Crates.sha256 h' = Crates.sha256 h

theorem rateKey_cases {rs : List TokenRequest} (hcache : CacheFilled rs) {r : TokenRequest} (hr : r ∈ rs) :
    rateKey cfg.hostName r = anonKey ∨ ∃ r' ∈ rs, ∃ h ∈ r'.header, ∃ cap, parseCapHeader h = .ok cap ∧
      cap.scope.host = cfg.hostName ∧ rateKey cfg.hostName r = tokenKey h := by
  cases hheader : r.header with
  | none => exact .inl (by rw [rateKey, hheader])
  | some h =>
    cases hparse : r.cached.elim (parseCapHeader h) .ok with
    | error e => exact .inl (by simp only [rateKey, hheader, hparse])
    | ok cap =>
      by_cases hhost : cap.scope.host = cfg.hostName
      · right
        have hkey : rateKey cfg.hostName r = tokenKey h := by simp [rateKey, hheader, hparse, if_pos hhost]
        cases hcached : r.cached with
        | none =>
          rw [hcached] at hparse
          exact ⟨r, hr, h, hheader, cap, hparse, hhost, hkey⟩
        | some cap' =>
          rw [hcached] at hparse
          obtain rfl : cap' = cap := Except.ok.inj hparse
          obtain ⟨r', hr', h', hh', hsha, hparse'⟩ := hcache r hr h hheader cap' hcached
          exact ⟨r', hr', h', hh', cap', hparse', hhost, by rw [hkey, tokenKey, tokenKey, hsha]⟩
      · exact .inl (by simp only [rateKey, hheader, hparse, if_neg hhost])

/-- The headers that clients send make at most one key for each signed capability they hold, and one more, exactly if each
one that is for this node carries a signed capability and each capability comes in one header. -/
theorem keys_bounded_iff : (∀ (V : Finset Capability) (rs : List TokenRequest), (∀ cap ∈ V, cap.SignedFor cfg) →
      CacheFilled rs → Presents cfg H V rs → (rs.map (rateKey cfg.hostName)).toFinset.card ≤ V.card + 1) ↔
    OneHeaderEach cfg H := by
  have hkey : ∀ h cap, parseCapHeader h = .ok cap → cap.scope.host = cfg.hostName →
      rateKey cfg.hostName ⟨some h, none⟩ = tokenKey h := by
    intro h cap hparse hhost
    simp [rateKey, hparse, if_pos hhost]
  constructor
  · intro hbound h hh cap hparse hhost
    -- an anonymous request, and requests with headers that carry `cap`
    have hrun : ∀ (V : Finset Capability) (hs : List Bytes), (∀ c ∈ V, c.SignedFor cfg) → (cap.SignedFor cfg → cap ∈ V) →
        (∀ h ∈ hs, h ∈ H ∧ parseCapHeader h = .ok cap) → (anonKey :: hs.map tokenKey).toFinset.card ≤ V.card + 1 := by
      intro V hs hV hcap hhs
      have hkeys : (hs.map fun h => (⟨some h, none⟩ : TokenRequest)).map (rateKey cfg.hostName) = hs.map tokenKey := by
        rw [List.map_map]
        exact List.map_congr_left fun h hmem => hkey h cap (hhs h hmem).2 hhost
      have hsent : ∀ r ∈ (⟨none, none⟩ : TokenRequest) :: hs.map fun h => ⟨some h, none⟩, r.cached = none ∧
          ∀ h ∈ r.header, h ∈ hs := by
        simp
      have hcard := hbound V (⟨none, none⟩ :: hs.map fun h => ⟨some h, none⟩) hV ?_ ?_
      · rwa [List.map_cons, hkeys] at hcard
      · intro r hr h _ c hc
        rw [(hsent r hr).1] at hc
        cases hc
      · intro r hr x hx
        obtain ⟨hmem, hcarried⟩ := hhs x ((hsent r hr).2 x hx)
        refine ⟨hmem, fun c hc hsigned => ?_⟩
        rw [hcarried] at hc
        cases hc
        exact hcap hsigned
    have hsigned : cap.checkSig cfg.keyring = .ok () := by
      by_contra hnot
      have hcard := hrun ∅ [h] (by simp) (fun hcap => absurd hcap.2 hnot) (by simpa using ⟨hh, hparse⟩)
      simp [anonKey_ne_tokenKey] at hcard
    refine ⟨hsigned, fun h' hh' hparse' => ?_⟩
    by_contra hne
    have hcard := hrun {cap} [h, h'] (by simpa using ⟨hhost, hsigned⟩) (fun _ => by simp) (by simp [hh, hparse, hh', hparse'])
    have hkeys : tokenKey h ≠ tokenKey h' := fun heq => hne (tokenKey_inj.1 heq).symm
    simp [anonKey_ne_tokenKey, hkeys] at hcard
  · intro hone V rs _ hcache hpresents
    classical
    -- the key of a capability is that of any header with it
    let key : Capability → Bytes := fun cap =>
      if hx : ∃ h ∈ H, parseCapHeader h = .ok cap then tokenKey hx.choose else anonKey
    have hsub : (rs.map (rateKey cfg.hostName)).toFinset ⊆ insert anonKey (V.image key) := by
      intro k hk
      obtain ⟨r, hr, rfl⟩ := List.mem_map.1 (List.mem_toFinset.1 hk)
      rcases rateKey_cases hcache hr with hanon | ⟨r', hr', h, hh, cap, hparse, hhost, hkey⟩
      · rw [hanon]
        exact Finset.mem_insert_self _ _
      · obtain ⟨hmem, hheld⟩ := hpresents r' hr' h hh
        obtain ⟨hsigned, _⟩ := hone h hmem cap hparse hhost
        refine Finset.mem_insert_of_mem (Finset.mem_image.2 ⟨cap, hheld cap hparse ⟨hhost, hsigned⟩, ?_⟩)
        have hx : ∃ h ∈ H, parseCapHeader h = .ok cap := ⟨h, hmem, hparse⟩
        rw [hkey]
        simp only [key, dif_pos hx]
        exact tokenKey_inj.2 ((hone h hmem cap hparse hhost).2 _ hx.choose_spec.1 hx.choose_spec.2)
    calc (rs.map (rateKey cfg.hostName)).toFinset.card
        ≤ (insert anonKey (V.image key)).card := Finset.card_le_card hsub
      _ ≤ (V.image key).card + 1 := Finset.card_insert_le _ _
      _ ≤ V.card + 1 := Nat.add_le_add_right Finset.card_image_le 1

end

/-- Crates for the example: no signature is good, every text is read as one capability for the node `h`, and the digest
of a header is its last byte. -/
@[reducible] def forgedCrates : RotateCrates :=
  { AuthCrates.trivial with
    verifySig := fun _ _ _ => false
    sha256 := fun h => .fill (h.getLast?.getD 0)
    fromStr := fun _ => some ⟨str "bmdb://h/l2/n", [str "read"], none, 1, PublicKey.display .zero, PublicKey.display .zero,
      encodeImpl (List.replicate 64 0) b64Url⟩ }

def forgedRequests : List TokenRequest :=
  [⟨none, none⟩, ⟨some (str "Bearer bmdb-cap:QQ"), none⟩, ⟨some (str "Bearer bmdb-cap:Qg"), none⟩]

/-- Without any signed capability, two headers have keys of their own beside the anonymous one. -/
theorem forged_headers_have_keys : letI := forgedCrates
    CacheFilled forgedRequests ∧ Presents hostNode Set.univ ∅ forgedRequests ∧
      (forgedRequests.map (rateKey hostNode.hostName)).toFinset.card = 3 := by
  have hkeys : letI := forgedCrates
      (forgedRequests.map (rateKey hostNode.hostName)).Nodup := by
    decide +kernel
  let _ := forgedCrates
  refine ⟨fun r hr h _ cap hcap => ?_, fun r _ h _ => ⟨trivial, fun cap _ hsigned => ?_⟩, List.toFinset_card_of_nodup hkeys⟩
  · have hnone : ∀ r ∈ forgedRequests, r.cached = none := by simp [forgedRequests]
    rw [hnone r hr] at hcap
    cases hcap
  · have hsig := hsigned.2
    unfold checkSig at hsig
    cases hkey : hostNode.keyring.keyForIssuer cap.issuer <;> rw [hkey] at hsig <;> cases hsig

end BunnyMesh
