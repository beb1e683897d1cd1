import BunnyMesh.Server.Data
import BunnyMesh.Storage.Frame
import BunnyMesh.Storage.Scan

/-!
# What a prefix capability reaches

A capability whose scope has the prefix `p` is meant for `p` and the keys behind `p/`.  The data routes authorize a scope
made from the key without its leading slashes and without its last segment, and then use the key as it is;
`?prefix=` is authorized as a path and scanned as a string of bytes.
-/

namespace BunnyMesh

open Std Store Exec
open Runs (Run guarded)

/-- The keys a capability with the prefix `p` is meant for. -/
def Under (p key : Bytes) : Prop := key = p ∨ p ++ [Scope.slash] <+: key

variable {q : Bytes}

variable {p : Bytes}

theorem under_of_prefixCovers (h : Scope.prefixCovers (some p) (some q)) : Under p q := by
  simp only [Scope.prefixCovers, Bool.or_eq_true, beq_iff_eq, List.isPrefixOf_iff_prefix] at h
  exact h

theorem Under.below (h : Under p q) (rest : Bytes) : p ++ [Scope.slash] <+: q ++ Scope.slash :: rest := by
  rcases h with rfl | h
  · exact ⟨rest, by simp⟩
  · exact h.trans (List.prefix_append q _)

variable {key : Bytes}

theorem eq_of_dirOf (h : dirOf key = some q) : q ≠ [] ∧ ∃ rest, key = q ++ Scope.slash :: rest := by
  unfold dirOf at h
  split at h
  · cases h
  · rename_i b before hdrop
    split at h
    · cases h
    · rename_i hne
      simp only [Option.some.injEq] at h
      subst h
      have hb : (b != Scope.slash) = false := by
        have := List.head_dropWhile_not (· != Scope.slash) (l := key.reverse) (by rw [hdrop]; simp)
        simpa only [hdrop, List.head_cons] using this
      rw [bne_eq_false_iff_eq] at hb
      have hkey := List.takeWhile_append_dropWhile (p := (· != Scope.slash)) (l := key.reverse)
      rw [hdrop, hb] at hkey
      refine ⟨fun hnil => hne ?_, (key.reverse.takeWhile (· != Scope.slash)).reverse, ?_⟩
      · rw [List.reverse_eq_nil_iff] at hnil
        rw [hnil]
        rfl
      · have hrev := congrArg List.reverse hkey
        simpa using hrev.symm

theorem below_of_dirOf (h : Scope.prefixCovers (some p) (dirOf key)) : p ++ [Scope.slash] <+: key := by
  cases hdir : dirOf key with
  | none => rw [hdir] at h; cases h
  | some q =>
    rw [hdir] at h
    obtain ⟨_, rest, rfl⟩ := eq_of_dirOf hdir
    exact (under_of_prefixCovers h).below rest

def Rooted (key : Bytes) : Prop := key.head? = some Scope.slash

instance (key : Bytes) : Decidable (Rooted key) := inferInstanceAs (Decidable (_ = _))

theorem not_rooted_trimmed (key : Bytes) : ¬ Rooted (key.dropWhile (· == Scope.slash)) := by
  intro h
  have := List.head?_dropWhile_not (· == Scope.slash) key
  rw [show (key.dropWhile (· == Scope.slash)).head? = _ from h] at this
  exact absurd this (by decide)

theorem trimmed_eq_self (h : ¬ Rooted key) : key.dropWhile (· == Scope.slash) = key := by
  cases key with
  | nil => rfl
  | cons b key =>
    have hb : b ≠ Scope.slash := fun hb => h (by rw [hb]; rfl)
    exact List.dropWhile_cons_of_neg (by simpa using hb)

/-- Where the scope of a key is covered, the key itself lies under the prefix unless it starts with a slash. -/
theorem under_iff_of_covered (h : Scope.prefixCovers (some p) (dirOf (key.dropWhile (· == Scope.slash)))) :
    Under p key ↔ ¬ Rooted key := by
  have hbelow := below_of_dirOf h
  constructor
  · intro hunder hrooted
    -- the prefix does not start with a slash, because the trimmed key does not
    have hp : p ≠ [] ∧ p.head? ≠ some Scope.slash := by
      have htrim := not_rooted_trimmed key
      obtain ⟨tail, htail⟩ := hbelow
      rw [Rooted, ← htail] at htrim
      cases p with
      | nil => exact absurd rfl htrim
      | cons b p => exact ⟨List.cons_ne_nil _ _, htrim⟩
    have hhead : key.head? = p.head? := by
      rcases hunder with rfl | ⟨tail, rfl⟩
      · rfl
      · rw [List.append_assoc, List.head?_append_of_ne_nil _ hp.1]
    exact hp.2 (hhead ▸ hrooted)
  · intro hrooted
    rw [trimmed_eq_self hrooted] at hbelow
    exact .inr hbelow

/-! ### What a request changes -/

section
variable [AuthCrates]

omit [AuthCrates] in
theorem Daemon.stored_world (d : Daemon) {α : Type} (reply : α → Reply) (x : EStateM.Result Fault World α) :
    (d.stored reply x).2.world = finalState x := by
  cases x with
  | ok a w => rfl
  | error e w => cases e <;> rfl

variable {w : World}

theorem provide_inStore {I : Store → Prop} (hI : LogBlind I) (tier : Tier) (ns : Bytes) (principal : PublicKey)
    (h : I w.store) : I (provide tier ns principal w).2.store := by
  have hcreate : I (finalState (createNamespace (str "u/" ++ PublicKey.display principal) .lww w)).store :=
    always_createNamespace hI .lww w h
  unfold provide
  split
  · dsimp only
    split
    · split
      · rename_i hw; rw [hw] at hcreate; exact hcreate
      · rename_i hw; rw [hw] at hcreate; exact hcreate
      · rename_i hw; rw [hw] at hcreate; exact hcreate
    · exact h
  · split
    · exact h
    · exact h

variable (validate : JValue → JValue → Except Bytes Unit)

theorem handlePut_sameBut (cfg : NodeConfig) (req : DataRequest) (principal : PublicKey) (clock : Nat → Nat) (hlc : UInt64)
    (d : Daemon) : SameBut (req.ns, req.key) d.world.store (handlePut validate cfg req principal clock hlc d).2.world.store := by
  have hprovide := provide_inStore logBlind_sameBut (tierOf req.ns) req.ns principal (SameBut.refl (req.ns, req.key) d.world.store)
  unfold handlePut
  split
  · rename_i hw; rw [hw] at hprovide; exact hprovide
  · rename_i hw
    rw [hw] at hprovide
    split
    · exact hprovide
    · split
      · exact hprovide
      · rename_i s hs
        rw [Daemon.stored_world]
        refine always_sameBut_put _ _ _ _ _ _ _ _ ?_
        unfold accountWrite at hs
        dsimp only at hs
        split at hs
        · cases hs
        · cases hs
          exact hprovide

theorem handlePut_over_quota {cfg : NodeConfig} {req : DataRequest} (h : cfg.defaultQuota < req.body.length)
    (principal : PublicKey) (clock : Nat → Nat) (hlc : UInt64) (d : Daemon) (n k : Bytes) :
    ((handlePut validate cfg req principal clock hlc d).2.world.store.view n).slot k =
      (d.world.store.view n).slot k := by
  have hblind : LogBlind fun s => (s.view n).slot k = (d.world.store.view n).slot k :=
    ⟨fun _ _ _ h => h, fun _ _ _ h => h, fun _ h => h⟩
  have hprovide := provide_inStore hblind (tierOf req.ns) req.ns principal (w := d.world) rfl
  unfold handlePut
  split
  · rename_i hw; rw [hw] at hprovide; exact hprovide
  · rename_i w hw
    rw [hw] at hprovide
    split
    · exact hprovide
    · split
      · exact hprovide
      · rename_i s hs
        have hover : bytesWritten w.store req.ns + req.body.length > cfg.defaultQuota := by omega
        rw [accountWrite, if_pos hover] at hs
        cases hs

theorem handleDelete_sameBut (cfg : NodeConfig) (req : DataRequest) (principal : PublicKey) (hlc : UInt64) (d : Daemon) :
    SameBut (req.ns, req.key) d.world.store (handleDelete cfg req principal hlc d).2.world.store := by
  unfold handleDelete
  split
  · exact SameBut.refl _ _
  · rw [Daemon.stored_world]
    exact always_sameBut_delete _ _ _ _ _ _ (SameBut.refl _ _)

/-! ### What a request returns -/

def Reply.returned (key : Bytes) : Reply → List Bytes
  | .value _ => [key]
  | .versions k _ => [k]
  | .entries rows => rows.map (·.1)
  | _ => []

/-- The request on `key` returns the value of `k`, or changes what is stored for `k` in some namespace. -/
def Touches (key : Bytes) (w : World) (out : Reply × Daemon) (k : Bytes) : Prop :=
  k ∈ out.1.returned key ∨ ∃ n, (out.2.world.store.view n).slot k ≠ (w.store.view n).slot k

variable {ns key k : Bytes}

section
omit [AuthCrates]

theorem Touches.of_sameBut {out : Reply × Daemon} (h : Touches key w out k)
    (hreturned : ∀ k ∈ out.1.returned key, k = key) (hsame : SameBut (ns, key) w.store out.2.world.store) : k = key := by
  rcases h with h | ⟨n, hne⟩
  · exact hreturned k h
  · by_contra hk
    exact hne (hsame n k fun heq => hk (congrArg Prod.snd heq))

theorem returned_authToResponse (key : Bytes) (e : AuthError) : (authToResponse e).returned key = [] := by cases e <;> rfl

theorem returned_stored (key : Bytes) (d : Daemon) {α : Type} {reply : α → Reply} (hreply : ∀ a, (reply a).returned key = [])
    (x : EStateM.Result Fault World α) : (d.stored reply x).1.returned key = [] := by
  cases x with
  | ok a w => exact hreply a
  | error e w => cases e <;> rfl

end

variable {principal : PublicKey}

theorem returned_provide {tier : Tier} {w' : World} {r : Reply}
    (h : provide tier ns principal w = (some r, w')) : r.returned key = [] := by
  unfold provide at h
  dsimp only at h
  split at h
  · split at h
    · split at h <;> cases h <;> rfl
    · cases h
  · split at h <;> cases h
    rfl

variable {s : Store}

theorem returned_checkSchema {body : Bytes} {r : Reply} (h : checkSchema validate s ns body = some r) :
    r.returned key = [] := by
  unfold checkSchema at h
  dsimp only at h
  split at h
  · cases h
  · split at h
    · cases h
      rfl
    · split at h <;> cases h
      rfl

theorem returned_handlePut (key : Bytes) (cfg : NodeConfig) (req : DataRequest) (principal : PublicKey) (clock : Nat → Nat)
    (hlc : UInt64) (d : Daemon) : (handlePut validate cfg req principal clock hlc d).1.returned key = [] := by
  unfold handlePut
  split
  · exact returned_provide ‹_›
  · dsimp only
    split
    · exact returned_checkSchema validate ‹_›
    · split
      · exact returned_authToResponse key _
      · exact returned_stored key _ (fun _ => rfl) _

theorem returned_handleDelete (key : Bytes) (cfg : NodeConfig) (req : DataRequest) (principal : PublicKey) (hlc : UInt64)
    (d : Daemon) : (handleDelete cfg req principal hlc d).1.returned key = [] := by
  unfold handleDelete
  split
  · rfl
  · exact returned_stored key d (fun _ => rfl) _

omit [AuthCrates] in
theorem returned_handleGet {req : DataRequest} {clock : Nat → Nat} {d : Daemon}
    (h : k ∈ (handleGet req clock d).1.returned req.key) : k = req.key := by
  unfold handleGet at h
  split at h
  · cases h
  · split at h
    · exact List.mem_singleton.1 h
    · split at h
      · exact List.mem_singleton.1 h
      · cases h

omit [AuthCrates] in
theorem handleGet_daemon (req : DataRequest) (clock : Nat → Nat) (d : Daemon) : (handleGet req clock d).2 = d := by
  unfold handleGet
  split
  · rfl
  · split
    · rfl
    · split <;> rfl

/-! ### What a capability alone authorizes -/

theorem covers_of_authL1L2 {cfg : NodeConfig} {d : Daemon} {cap : Capability} {pre : Option Bytes}
    {perms : PermSet} {nowMs : Nat}
    (h : (authL1L2 cfg d (some [cap]) ⟨cfg.hostName, tierOf ns, ns, pre⟩ perms nowMs).isOk) :
    Scope.prefixCovers cap.scope.keyPrefix pre := by
  simp only [authL1L2, authorize_eq, AuthCall.answer] at h
  by_cases hserved : AuthCall.served ⟨⟨cfg.hostName, tierOf ns, ns, pre⟩, cap.subject, perms, [cap], cfg.hostName, nowMs⟩
    cfg.keyring d.revocations
  · simp only [AuthCall.served, List.any_cons, List.any_nil, Bool.or_false, Bool.and_eq_true] at hserved
    have hfits := hserved.2
    unfold AuthCall.fits at hfits
    unfold tierOf at hfits
    split at hfits
    · simp only [Bool.and_eq_true, Scope.covers] at hfits
      exact hfits.1.1.2.2
    · rename_i htier
      split at htier <;> cases htier
    · simp only [Bool.and_eq_true, Scope.covers] at hfits
      exact hfits.1.2.2
  · rw [if_neg hserved] at h
    cases h

def DataRequest.perms (req : DataRequest) : PermSet := if req.method = .get then .read else .write

/-- The capability alone authorizes the request, for `?prefix=` the scan, too. -/
structure Authorized (cfg : NodeConfig) (d : Daemon) (cap : Capability) (req : DataRequest) (clock : Nat → Nat) : Prop where
  key : (dataAuth cfg d (some [cap]) req.ns req.key req.perms (clock 0)).isOk
  scan : ∀ q, req.method = .get → req.query.keyPrefix = some q →
    (authL1L2 cfg d (some [cap]) ⟨cfg.hostName, tierOf req.ns, req.ns, some q⟩ .read (clock 1)).isOk

/-- The request stays under `p` whatever the store holds: `?prefix=` does not ask for `p` itself, and the key does not
start with a slash.  A put whose body is over the quota writes nothing. -/
def DataRequest.Confined (cfg : NodeConfig) (p : Bytes) (req : DataRequest) : Prop :=
  match req.method, req.query.keyPrefix with
  | .get, some q => q ≠ p
  | .get, none => ¬ Rooted req.key
  | .put, _ => ¬ Rooted req.key ∨ cfg.defaultQuota < req.body.length
  | .delete, _ => ¬ Rooted req.key
  | .other, _ => True

variable {cfg : NodeConfig} {d : Daemon} {cap : Capability} {req : DataRequest} {clock : Nat → Nat} {p : Bytes}

theorem Authorized.under_key (h : Authorized cfg d cap req clock) (hp : cap.scope.keyPrefix = some p) :
    Under p req.key ↔ ¬ Rooted req.key := by
  have hkey := h.key
  rw [dataAuth] at hkey
  refine under_iff_of_covered ?_
  rw [← hp]
  cases hauth : authL1L2 cfg d (some [cap]) (dataScope (tierOf req.ns) req.ns req.key cfg.hostName) req.perms (clock 0) with
  | ok pr =>
    have hok : (authL1L2 cfg d (some [cap]) (dataScope (tierOf req.ns) req.ns req.key cfg.hostName) req.perms
      (clock 0)).isOk := by rw [hauth]; rfl
    exact covers_of_authL1L2 hok
  | error e =>
    rw [hauth] at hkey
    cases hkey

/-! ### Requests that stay under the prefix -/

theorem handlePrefix_apply {caps : Option (List Capability)} {q : Bytes}
    (h : (authL1L2 cfg d caps ⟨cfg.hostName, tierOf req.ns, req.ns, some q⟩ .read (clock 1)).isOk) :
    handlePrefix cfg caps req.ns q clock d = (.entries ((d.world.store.scan req.ns q).filterMap fun x =>
      (latestValue x.2 (clock 2)).map fun v => (x.1, v, entryExpiresAt x.2)), d) := by
  unfold handlePrefix
  split
  · rename_i hauth
    rw [hauth] at h
    cases h
  · rfl

omit [AuthCrates] in
theorem mem_returned_entries {q : Bytes} {now : Nat} :
    k ∈ (Reply.entries ((s.scan ns q).filterMap fun x =>
      (latestValue x.2 now).map fun v => (x.1, v, entryExpiresAt x.2))).returned key ↔
    q <+: k ∧ ∃ e v, s.index[(ns, k)]? = some e ∧ latestValue e now = some v := by
  simp only [Reply.returned, List.mem_map, List.mem_filterMap, Option.map_eq_some_iff, Prod.exists]
  constructor
  · rintro ⟨k', v, t, ⟨⟨k'', e, hmem, v', hv, hrow⟩, rfl⟩⟩
    cases hrow
    rw [Store.mem_scan] at hmem
    exact ⟨hmem.2, e, v, hmem.1, hv⟩
  · rintro ⟨hq, e, v, hmem, hv⟩
    exact ⟨k, v, entryExpiresAt e, ⟨k, e, (Store.mem_scan ..).2 ⟨hmem, hq⟩, v, hv, rfl⟩, rfl⟩

section
variable {caps : Option (List Capability)} {pr : PublicKey × Tier} {hlc : UInt64}
  (h : dataAuth cfg d caps req.ns req.key req.perms (clock 0) = .ok pr)
include h

theorem handleData_scan {q : Bytes} (hm : req.method = .get) (hq : req.query.keyPrefix = some q) :
    handleData validate cfg caps req clock hlc d = handlePrefix cfg caps req.ns q clock d := by
  rw [DataRequest.perms] at h
  simp only [handleData, h]
  rw [hm, hq]

theorem handleData_get (hm : req.method = .get) (hq : req.query.keyPrefix = none) :
    handleData validate cfg caps req clock hlc d = handleGet req clock d := by
  rw [DataRequest.perms] at h
  simp only [handleData, h]
  rw [hm, hq]

theorem handleData_put (hm : req.method = .put) :
    handleData validate cfg caps req clock hlc d = handlePut validate cfg req pr.1 clock hlc d := by
  rw [DataRequest.perms] at h
  simp only [handleData, h]
  rw [hm]

theorem handleData_delete (hm : req.method = .delete) :
    handleData validate cfg caps req clock hlc d = handleDelete cfg req pr.1 hlc d := by
  rw [DataRequest.perms] at h
  simp only [handleData, h]
  rw [hm]

theorem handleData_other (hm : req.method = .other) :
    handleData validate cfg caps req clock hlc d = (.error 405 (str "method_not_allowed"), d) := by
  rw [DataRequest.perms] at h
  simp only [handleData, h]
  rw [hm]

end

def StaysUnder (cfg : NodeConfig) (d : Daemon) (cap : Capability) (req : DataRequest) (clock : Nat → Nat) (hlc : UInt64)
    (p : Bytes) : Prop :=
  ∀ (w : World) (k : Bytes),
    Touches req.key w (handleData validate cfg (some [cap]) req clock hlc { d with world := w }) k → Under p k

theorem Authorized.withWorld (h : Authorized cfg d cap req clock) (w : World) :
    Authorized cfg { d with world := w } cap req clock := ⟨h.key, h.scan⟩

theorem Authorized.dataAuth_ok (h : Authorized cfg d cap req clock) :
    ∃ pr, dataAuth cfg d (some [cap]) req.ns req.key req.perms (clock 0) = .ok pr := by
  cases hauth : dataAuth cfg d (some [cap]) req.ns req.key req.perms (clock 0) with
  | ok pr => exact ⟨pr, rfl⟩
  | error e => exact absurd (congrArg Except.isOk hauth ▸ h.key) (by simp [Except.isOk, Except.toBool])

variable {hlc : UInt64}

theorem touched_of_put
    (h : Touches req.key w (handlePut validate cfg req principal clock hlc { d with world := w }) k) : k = req.key :=
  h.of_sameBut (fun k hk => by rw [returned_handlePut] at hk; cases hk)
    (handlePut_sameBut validate cfg req principal clock hlc { d with world := w })

theorem touched_of_delete
    (h : Touches req.key w (handleDelete cfg req principal hlc { d with world := w }) k) : k = req.key :=
  h.of_sameBut (fun k hk => by rw [returned_handleDelete] at hk; cases hk)
    (handleDelete_sameBut cfg req principal hlc { d with world := w })

omit [AuthCrates] in
theorem touched_of_get (h : Touches req.key w (handleGet req clock { d with world := w }) k) :
    k = req.key := by
  have hsame : SameBut (req.ns, req.key) w.store (handleGet req clock { d with world := w }).2.world.store := by
    rw [handleGet_daemon]
    exact SameBut.refl _ _
  exact h.of_sameBut (fun k hk => returned_handleGet hk) hsame

theorem Confined.staysUnder (hp : cap.scope.keyPrefix = some p) (h : Authorized cfg d cap req clock)
    (hc : req.Confined cfg p) (hlc : UInt64) : StaysUnder validate cfg d cap req clock hlc p := by
  intro w k hk
  have h' := h.withWorld w
  obtain ⟨pr, hpr⟩ := h'.dataAuth_ok
  unfold DataRequest.Confined at hc
  cases hm : req.method with
  | get =>
    cases hq : req.query.keyPrefix with
    | some q =>
      rw [handleData_scan validate hpr hm hq, handlePrefix_apply (h'.scan q hm hq)] at hk
      rw [hm, hq] at hc
      have hcovers := under_of_prefixCovers (hp ▸ covers_of_authL1L2 (h.scan q hm hq))
      rcases hk with hk | ⟨n, hne⟩
      · exact .inr ((hcovers.resolve_left hc).trans (mem_returned_entries.1 hk).1)
      · exact absurd rfl hne
    | none =>
      rw [handleData_get validate hpr hm hq] at hk
      rw [hm, hq] at hc
      rw [touched_of_get hk]
      exact (h.under_key hp).2 hc
  | put =>
    rw [handleData_put validate hpr hm] at hk
    rw [hm] at hc
    by_cases hquota : cfg.defaultQuota < req.body.length
    · rcases hk with hk | ⟨n, hne⟩
      · rw [returned_handlePut] at hk
        cases hk
      · exact absurd (handlePut_over_quota validate hquota pr.1 clock hlc { d with world := w } n k) hne
    · rw [touched_of_put validate hk]
      exact (h.under_key hp).2 (hc.resolve_right hquota)
  | delete =>
    rw [handleData_delete validate hpr hm] at hk
    rw [hm] at hc
    rw [touched_of_delete hk]
    exact (h.under_key hp).2 hc
  | other =>
    rw [handleData_other validate hpr hm] at hk
    rcases hk with hk | ⟨n, hne⟩
    · cases hk
    · exact absurd rfl hne

/-! ### Requests that leave the prefix -/

def plantedEntry (body : Bytes) : Entry := .lww ⟨0, .zero, .zero, body ++ [0], 0, 0⟩

def planted (ns key owner body : Bytes) : Store :=
  { Store.init false with
    logs := (∅ : BMap Bytes Log).insert ns (logOf [[]] false)
    policies := ((∅ : BMap Bytes ConflictPolicy).insert owner .lww).insert ns .lww
    index := (∅ : BMap EntryKey Entry).insert (ns, key) (plantedEntry body) }

def World.ofStore (s : Store) : World := ⟨s, Disk.empty, []⟩

omit [AuthCrates] in
theorem latestValue_planted (body : Bytes) (now : Nat) : latestValue (plantedEntry body) now = some (body ++ [0]) := rfl

theorem get_planted (ns key owner body : Bytes) : (planted ns key owner body).get ns key = some (plantedEntry body) := by
  simp [planted, Store.get, Store.init]

theorem shaped_planted (ns key owner body : Bytes) : ((planted ns key owner body).view ns).Shaped .lww := by
  intro k
  by_cases hk : key = k
  · simp [planted, Store.view, Slot.Shaped, plantedEntry, hk]
  · simp [planted, Store.view, Slot.Shaped, hk]

theorem slot_planted (ns key owner body : Bytes) :
    ((planted ns key owner body).view ns).slot key = ⟨some (plantedEntry body), none⟩ := by
  simp [planted, Store.view, Store.init]

theorem handlePut_planted (hs : s = planted req.ns req.key (str "u/" ++ PublicKey.display principal) req.body)
    (hquota : req.body.length ≤ cfg.defaultQuota) :
    ((handlePut validate cfg req principal clock hlc { d with world := .ofStore s }).2.world.store.view req.ns).slot req.key ≠
      (s.view req.ns).slot req.key := by
  have howner : s.policy (str "u/" ++ PublicKey.display principal) = some .lww := by
    simp only [hs, planted, Store.policy, OrdMap.getElem?_insert]
    split <;> simp
  have hns : s.policy req.ns = some .lww := by simp [hs, planted, Store.policy]
  have hlog : s.logs[req.ns]? = some (logOf [[]] false) := by simp [hs, planted]
  have hprovide : provide (tierOf req.ns) req.ns principal (.ofStore s) = (none, .ofStore s) := by
    simp [provide, World.ofStore, howner, hns]
  have hschema : checkSchema validate (World.ofStore s).store req.ns req.body = none := by
    simp [checkSchema, World.ofStore, hs, planted, Store.schema, Store.init]
  have hused : bytesWritten s req.ns = 0 := by simp [bytesWritten, hs, planted, Store.metaGet, Store.init]
  have hcount : accountWrite (World.ofStore s).store req.ns req.body.length cfg.defaultQuota =
      .ok (s.metaSet (quotaKey req.ns) (le 8 req.body.length)) := by
    simp [accountWrite, World.ofStore, hused, Nat.not_lt.2 hquota]
  have hshaped : ((s.metaSet (quotaKey req.ns) (le 8 req.body.length)).view req.ns).Shaped .lww := by
    rw [hs]
    exact shaped_planted req.ns req.key (str "u/" ++ PublicKey.display principal) req.body
  simp only [handlePut, hprovide, hschema, hcount, Daemon.stored_world]
  obtain ⟨v, hv, hslot⟩ := slot_put (w := .ofStore (s.metaSet (quotaKey req.ns) (le 8 req.body.length))) req.key hlc
    cfg.root principal hlog hns hshaped req.body (ttlExpiry req.query.ttl (clock 1))
  intro heq
  have hplanted : (s.view req.ns).slot req.key = ⟨some (plantedEntry req.body), none⟩ := by rw [hs, slot_planted]
  have hentry := congrArg Slot.entry ((hslot.symm.trans heq).trans hplanted)
  simp only [plantedEntry, Option.some.injEq, Entry.lww.injEq] at hentry
  rw [hentry] at hv
  exact absurd (congrArg List.length hv) (by simp)

theorem handleDelete_planted (hs : s = planted req.ns req.key [] []) :
    ((handleDelete cfg req principal hlc { d with world := .ofStore s }).2.world.store.view req.ns).slot req.key ≠
      (s.view req.ns).slot req.key := by
  have hns : (World.ofStore s).store.policy req.ns = some .lww := by simp [hs, planted, Store.policy, World.ofStore]
  have hlog : s.logs[req.ns]? = some (logOf [[]] false) := by simp [hs, planted]
  have hshaped : (s.view req.ns).Shaped .lww := by
    rw [hs]
    exact shaped_planted req.ns req.key [] []
  simp only [handleDelete, hns, Option.isNone_some, Bool.false_eq_true, if_false, Daemon.stored_world]
  rw [slot_delete (w := .ofStore s) req.key hlc cfg.root principal hlog hns hshaped, hs, slot_planted]
  intro heq
  cases congrArg Slot.entry heq

theorem returned_get_planted (owner body : Bytes) : req.key ∈
    (handleGet req clock { d with world := .ofStore (planted req.ns req.key owner body) }).1.returned req.key := by
  simp only [handleGet, World.ofStore, get_planted, latestValue_planted]
  split <;> exact List.mem_singleton.2 rfl

theorem StaysUnder.confined (hp : cap.scope.keyPrefix = some p) (h : Authorized cfg d cap req clock)
    (hstays : StaysUnder validate cfg d cap req clock hlc p) : req.Confined cfg p := by
  obtain ⟨pr, hpr⟩ := h.dataAuth_ok
  have hauth : ∀ s, dataAuth cfg { d with world := .ofStore s } (some [cap]) req.ns req.key req.perms (clock 0) = .ok pr :=
    fun _ => hpr
  unfold DataRequest.Confined
  cases hm : req.method with
  | get =>
    cases hq : req.query.keyPrefix with
    | some q =>
      rintro rfl
      -- the byte prefix also holds for a key with another byte behind it
      have hunder := hstays (.ofStore (planted req.ns (q ++ [88]) [] [])) (q ++ [88])
      rw [handleData_scan validate (hauth _) hm hq,
        handlePrefix_apply ((h.withWorld _).scan q hm hq)] at hunder
      have hindex : (planted req.ns (q ++ [88]) [] []).index[(req.ns, q ++ [88])]? = some (plantedEntry []) := by
        simp [planted]
      rcases hunder (.inl (mem_returned_entries.2 ⟨List.prefix_append .., _, _, hindex, latestValue_planted ..⟩)) with h | h
      · simp at h
      · obtain ⟨t, ht⟩ := h
        simp [Scope.slash] at ht
    | none =>
      have hunder := hstays (.ofStore (planted req.ns req.key [] [])) req.key
      rw [handleData_get validate (hauth _) hm hq] at hunder
      exact (h.under_key hp).1 (hunder (.inl (returned_get_planted [] [])))
  | put =>
    by_cases hquota : cfg.defaultQuota < req.body.length
    · exact .inr hquota
    · have hunder := hstays (.ofStore (planted req.ns req.key (str "u/" ++ PublicKey.display pr.1) req.body)) req.key
      rw [handleData_put validate (hauth _) hm] at hunder
      exact .inl ((h.under_key hp).1 (hunder (.inr ⟨req.ns, handlePut_planted validate rfl (Nat.not_lt.1 hquota)⟩)))
  | delete =>
    have hunder := hstays (.ofStore (planted req.ns req.key [] [])) req.key
    rw [handleData_delete validate (hauth _) hm] at hunder
    exact (h.under_key hp).1 (hunder (.inr ⟨req.ns, handleDelete_planted rfl⟩))
  | other => trivial

/-- A request that a prefix capability alone authorizes touches only keys under the prefix, whatever the store holds,
exactly if it does not scan for the prefix itself and its key does not start with a slash. -/
theorem prefix_capability_confined_iff {hlc : UInt64} (hp : cap.scope.keyPrefix = some p)
    (h : Authorized cfg d cap req clock) : StaysUnder validate cfg d cap req clock hlc p ↔ req.Confined cfg p :=
  ⟨fun hstays => hstays.confined validate hp h, fun hc => Confined.staysUnder validate hp h hc hlc⟩

end

/-! ### Examples -/

def dataNode : NodeConfig := ⟨⟨.zero, []⟩, .zero, str "h", 100⟩

/-- A capability to read the keys of the namespace `n` under `a`. -/
def readUnder : Capability := ⟨⟨str "h", .l2, str "n", some (str "a")⟩, .read, none, 1, .zero, .zero, .zero⟩

def getRequest (key : Bytes) (pre : Option Bytes) : DataRequest := ⟨str "n", key, .get, ⟨pre, none, none⟩, []⟩

/-- The namespace `n` with the keys `/a/x` and `ab`. -/
def outsideKeys : List Cmd :=
  [.createNamespace (str "n") .lww, .put (str "n") (str "/a/x") [1] 1 .zero .zero 0,
    .put (str "n") (str "ab") [2] 2 .zero .zero 0]

instance (p key : Bytes) : Decidable (Under p key) := inferInstanceAs (Decidable (_ ∨ _))

section
variable [AuthCrates]

def getReply (req : DataRequest) (w : World) : Reply :=
  (handleData (fun _ _ => .ok ()) dataNode (some [readUnder]) req (fun _ => 5) 0 ⟨w, RevocationSet.new, 0⟩).1

/-- The capability alone authorizes the request in the state `w`, which returns a key that is not under `a`. -/
def Escapes (req : DataRequest) (w : World) : Prop :=
  Authorized dataNode ⟨w, RevocationSet.new, 0⟩ readUnder req (fun _ => 5) ∧
    ∃ k ∈ (getReply req w).returned req.key, ¬ Under (str "a") k

end

theorem escapes_of_authorized [AuthCrates] {req : DataRequest} {w w' : World} {k : Bytes}
    (h : Authorized dataNode ⟨w', RevocationSet.new, 0⟩ readUnder req fun _ => 5)
    (hk : (getReply req w).returned req.key = [k]) (hunder : ¬ Under (str "a") k) : Escapes req w :=
  ⟨h.withWorld w, k, by rw [hk]; exact List.mem_singleton_self k, hunder⟩

/-- A GET of a key that the capability authorizes, with a scan for `a`. -/
def scanRequest : DataRequest := getRequest (str "a/x") (some (str "a"))

set_option maxRecDepth 100000 in
/-- A GET of `/a/x` returns it, and a GET with `?prefix=a` returns `ab`. -/
theorem prefix_capability_escapes : letI := AuthCrates.trivial
    ∃ w₀ w, Opened w₀ ∧ Run (guarded (fun w c => c.Valid w.store) Step) w₀ outsideKeys w ∧
      Escapes (getRequest (str "/a/x") none) w ∧ Escapes scanRequest w := by
  have h : letI := AuthCrates.trivial; ((freshRun (fun w c => c.Valid w.store) outsideKeys).any fun w =>
      decide ((getReply (getRequest (str "/a/x") none) w).returned (str "/a/x") = [str "/a/x"]) &&
      decide ((getReply scanRequest w).returned (str "a/x") = [str "ab"])) = true := by
    decide +kernel
  have hkey : letI := AuthCrates.trivial; Authorized dataNode ⟨.ofStore (Store.init false), RevocationSet.new, 0⟩ readUnder
      (getRequest (str "/a/x") none) fun _ => 5 :=
    @Authorized.mk AuthCrates.trivial _ _ _ _ _ (by decide +kernel) fun q _ hq => by cases hq
  have hscan : letI := AuthCrates.trivial; Authorized dataNode ⟨.ofStore (Store.init false), RevocationSet.new, 0⟩ readUnder
      scanRequest fun _ => 5 :=
    @Authorized.mk AuthCrates.trivial _ _ _ _ _ (by decide +kernel) fun q _ hq => by cases hq; decide +kernel
  let _ := AuthCrates.trivial
  obtain ⟨w, hw, hreplies⟩ := (Option.any_eq_true ..).1 h
  obtain ⟨w₀, h₀, hrun⟩ := freshRun_sound hw
  simp only [Bool.and_eq_true, decide_eq_true_eq] at hreplies
  exact ⟨w₀, w, h₀, hrun, escapes_of_authorized hkey hreplies.1 (by decide), escapes_of_authorized hscan hreplies.2 (by decide)⟩

set_option maxRecDepth 100000 in
/-- A GET of `a/x` is confined. -/
theorem prefix_capability_confined_get : letI := AuthCrates.trivial
    StaysUnder (fun _ _ => .ok ()) dataNode ⟨.ofStore (Store.init false), RevocationSet.new, 0⟩ readUnder
      (getRequest (str "a/x") none) (fun _ => 5) 0 (str "a") := by
  have hauth : letI := AuthCrates.trivial; Authorized dataNode ⟨.ofStore (Store.init false), RevocationSet.new, 0⟩ readUnder
      (getRequest (str "a/x") none) fun _ => 5 :=
    @Authorized.mk AuthCrates.trivial _ _ _ _ _ (by decide +kernel) fun q _ hq => by cases hq
  let _ := AuthCrates.trivial
  exact (prefix_capability_confined_iff _ rfl hauth).2 (by decide : ¬ Rooted (str "a/x"))

end BunnyMesh
