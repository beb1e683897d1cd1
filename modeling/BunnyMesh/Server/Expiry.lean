import BunnyMesh.Server.Batch
import BunnyMesh.Storage.Converge

/-!
# Expiry

A version has the wall-clock time of its expiry with it, 0 for never.  A read filters the versions of a register by it
before it chooses among them, so that a version that lost comes back when the winner expires before it
(`expired_winner_hides_iff`).  A `ttl` in seconds is turned into the time of expiry with sums that wrap, so that a large
one can give any time (`ttl_safe_iff`).
-/

namespace BunnyMesh

open Store
open Greatest (greatest LastGreatest greatest_eq_some_iff)

/-! ### The winner and its expiry -/

namespace Entry

/-- A read shows the value of the winning version as long as it has not expired, and nothing afterwards. -/
def ShowsWinner (e : Entry) (now : Nat) : Prop :=
  ∀ value, latestValue e now = some value ↔ ∃ v, latestEntryValue e = some v ∧ v.live now ∧ v.value = value

/-- Where a version has not expired, the winning one has not. -/
def WinnerLasts (e : Entry) (now : Nat) : Prop :=
  (∃ v ∈ e.versions, v.live now) → ∃ v, latestEntryValue e = some v ∧ v.live now

end Entry

variable {now ttl : Nat} {v : Version} {vs : List Version}

theorem Version.live_mono {later : Nat} (h : now ≤ later) (hlive : v.live later) : v.live now := by
  simp only [Version.live, Bool.or_eq_true, decide_eq_true_eq] at hlive ⊢
  exact hlive.imp id fun hlt => by omega

theorem exists_of_latestValue {value : Bytes}
    (h : latestValue (.register vs) now = some value) : ∃ v ∈ vs, v.live now := by
  obtain ⟨v, hv, -⟩ := Option.map_eq_some_iff.1 h
  rw [maxByStamp_eq, greatest_eq_some_iff] at hv
  exact ⟨v, List.mem_filter.1 hv.mem⟩

theorem latestValue_of_live (hv : maxByStamp vs = some v)
    (hlive : v.live now) : latestValue (.register vs) now = some v.value := by
  rw [maxByStamp_eq, greatest_eq_some_iff] at hv
  have hfilter : maxByStamp (vs.filter (·.live now)) = some v := by
    rw [maxByStamp_eq, greatest_eq_some_iff]
    exact hv.filter hlive
  rw [latestValue, hfilter]
  rfl

theorem latestValue_isSome (hv : v ∈ vs) (hlive : v.live now) :
    ∃ value, latestValue (.register vs) now = some value := by
  have hne : vs.filter (·.live now) ≠ [] := List.ne_nil_of_mem (List.mem_filter.2 ⟨hv, hlive⟩)
  obtain ⟨w, hw⟩ := Greatest.exists_lastGreatest Version.stamp hne
  refine ⟨w.value, ?_⟩
  rw [latestValue, maxByStamp_eq, greatest_eq_some_iff.2 hw]
  rfl

theorem Entry.showsWinner_iff (e : Entry) (now : Nat) : e.ShowsWinner now ↔ e.WinnerLasts now := by
  cases e with
  | lww v =>
    have hshows : (Entry.lww v).ShowsWinner now := by
      intro value
      by_cases hlive : v.live now <;> simp [latestValue, latestEntryValue, hlive]
    refine ⟨fun _ hsome => ?_, fun _ => hshows⟩
    obtain ⟨u, hu, hlive⟩ := hsome
    obtain rfl := List.mem_singleton.1 hu
    exact ⟨u, rfl, hlive⟩
  | register vs =>
    constructor
    · rintro hshows ⟨v, hv, hlive⟩
      obtain ⟨value, hvalue⟩ := latestValue_isSome hv hlive
      obtain ⟨w, hw, hwlive, -⟩ := (hshows value).1 hvalue
      exact ⟨w, hw, hwlive⟩
    · intro hlasts value
      constructor
      · intro hvalue
        obtain ⟨v, hv, hlive⟩ := hlasts (exists_of_latestValue hvalue)
        rw [latestValue_of_live hv hlive] at hvalue
        exact ⟨v, hv, hlive, Option.some.inj hvalue⟩
      · rintro ⟨v, hv, hlive, rfl⟩
        exact latestValue_of_live hv hlive

/-- A read shows the winner and nothing else exactly if no version outlasts it; the passage of time then only takes the
value away. -/
theorem expired_winner_hides_iff (e : Entry) : (∀ now, e.ShowsWinner now ↔ e.WinnerLasts now) ∧
    ((∀ now, e.WinnerLasts now) → ∀ now later, now ≤ later →
      latestValue e later = latestValue e now ∨ latestValue e later = none) := by
  refine ⟨e.showsWinner_iff, fun hlasts now later hle => ?_⟩
  cases hlater : latestValue e later with
  | none => exact .inr rfl
  | some value =>
    obtain ⟨v, hv, hlive, rfl⟩ := ((e.showsWinner_iff later).2 (hlasts later) value).1 hlater
    exact .inl (((e.showsWinner_iff now).2 (hlasts now) _).2 ⟨v, hv, Version.live_mono hle hlive, rfl⟩).symm

def outlastedEntry : Entry := .register [⟨1, .fill 1, .zero, [97], 1, 0⟩, ⟨2, .fill 2, .zero, [98], 2, 10⟩]

/-- At the time 5 the newer value is shown, at the time 10 the older one comes back. -/
theorem older_value_returns : latestValue outlastedEntry 5 = some [98] ∧ latestValue outlastedEntry 10 = some [97] ∧
    (latestEntryValue outlastedEntry).map (·.live 10) = some false ∧ ¬ outlastedEntry.ShowsWinner 10 := by
  have h : latestValue outlastedEntry 5 = some [98] ∧ latestValue outlastedEntry 10 = some [97] ∧
      (latestEntryValue outlastedEntry).map (·.live 10) = some false := by decide +kernel
  refine ⟨h.1, h.2.1, h.2.2, fun hshows => ?_⟩
  obtain ⟨v, hv, hlive, -⟩ := (hshows [97]).1 h.2.1
  have hdead := h.2.2
  rw [hv, Option.map_some, hlive] at hdead
  cases hdead

/-! ### From a `ttl` to an expiry -/

/-- The expiry is the time `1000 * ttl` behind `now` where that is a `u64`, and otherwise a time that has passed. -/
def TtlSafe (now ttl : Nat) (expiresAt : UInt64) : Prop :=
  if now + 1000 * ttl < 2 ^ 64 then expiresAt.toNat = now + 1000 * ttl else expiresAt ≠ 0 ∧ expiresAt.toNat ≤ now

/-- The sum is a `u64`, or a multiple of `2 ^ 64` lies between the `ttl` in milliseconds and the time of expiry. -/
def TtlWraps (now ttl : Nat) : Prop :=
  now + 1000 * ttl < 2 ^ 64 ∨ ∃ q, 1000 * ttl ≤ q * 2 ^ 64 ∧ q * 2 ^ 64 < now + 1000 * ttl

theorem toNat_expiry (hmax : ttl < 2 ^ 64) :
    (UInt64.ofNat now + UInt64.ofNat ttl * 1000).toNat = (now + 1000 * ttl) % 2 ^ 64 := by
  rw [UInt64.toNat_add, UInt64.toNat_mul, UInt64.toNat_ofNat', UInt64.toNat_ofNat']
  have h1000 : (1000 : UInt64).toNat = 1000 := rfl
  rw [h1000, Nat.mod_eq_of_lt hmax, Nat.mul_comm ttl, ← Nat.add_mod]

theorem ttlSafe_iff (hnow : now < 2 ^ 63) {expiresAt : UInt64}
    (h : expiresAt.toNat = (now + 1000 * ttl) % 2 ^ 64) : TtlSafe now ttl expiresAt ↔ TtlWraps now ttl := by
  unfold TtlSafe TtlWraps
  by_cases hfits : now + 1000 * ttl < 2 ^ 64
  · rw [if_pos hfits, h, Nat.mod_eq_of_lt hfits]
    exact iff_of_true rfl (.inl hfits)
  · have hzero : expiresAt ≠ 0 ↔ expiresAt.toNat ≠ 0 := by
      rw [Ne, Ne, ← UInt64.toNat_inj]
      rfl
    rw [if_neg hfits, hzero, h]
    constructor
    · rintro ⟨hne, hle⟩
      exact .inr ⟨(now + 1000 * ttl) / 2 ^ 64, by omega, by omega⟩
    · rintro (hcontra | ⟨q, hlow, hhigh⟩)
      · exact absurd hcontra hfits
      · -- the multiple is the greatest one below the sum
        have hq : (now + 1000 * ttl) / 2 ^ 64 = q := by
          omega
        omega

theorem ttlExpiry_eq {text : Bytes} (hpos : 0 < ttl) (htext : parseU64 text = some ttl) (now : Nat) :
    ttlExpiry (some text) now = UInt64.ofNat now + UInt64.ofNat ttl * 1000 := by
  rw [ttlExpiry, Option.bind_some, htext]
  exact if_pos hpos

section
variable [AuthCrates]

def MeetsSchema (validate : JValue → JValue → Except Bytes Unit) (schema : Option JValue) (value : Bytes) : Prop :=
  ∀ s, schema = some s → ∃ v, Crates.fromStrValue (ByteCodec.fromUtf8Lossy value) = some v ∧ validate s v = .ok ()

variable {validate : JValue → JValue → Except Bytes Unit} {schema : Option JValue} {op : BatchOp} {key value : Bytes}
  {ttl : Nat}

theorem planOp_put (cfg : NodeConfig) (principal : PublicKey) (plan : BatchPlan) (hop : op.op = str "put")
    (hkey : op.key = some key) (hvalue : op.value.map b64Decode = some (.ok value))
    (hschema : MeetsSchema validate schema value) (httl : op.ttl = some ttl) (hpos : 0 < ttl) (clocks : ClockOracle)
    (c : Caller) : ∃ planned c', planned.expiresAt = clocks.nowMs c.ticks + UInt64.ofNat ttl * 1000 ∧
      (Handler.planOp validate cfg schema principal plan op).interpret (Access.answer clocks) c =
        .ok (plan.accept planned) c' := by
  have hget : ¬ str "put" = str "get" := by decide +kernel
  have hsome : op.ttl.getD 0 > 0 := by rwa [httl, Option.getD_some]
  unfold Handler.planOp
  cases schema with
  | none =>
    simp only [hkey, hop, if_neg hget, if_true, hvalue, Option.bind_none, if_pos hsome]
    exact ⟨_, _, by rw [httl]; rfl, rfl⟩
  | some s =>
    obtain ⟨v, hv, hvalid⟩ := hschema s rfl
    simp only [hkey, hop, if_neg hget, if_true, hvalue, Option.bind_some, hv, hvalid, if_pos hsome]
    exact ⟨_, _, by rw [httl]; rfl, rfl⟩

/-- The expiry of a PUT and of a write in a batch is safe exactly if the sum is a `u64` or wraps to a time that has passed; a
version with an expiry that has passed is not shown. -/
theorem ttl_safe_iff {now ttl : Nat} (hnow : now < 2 ^ 63) (hpos : 0 < ttl) (hmax : ttl < 2 ^ 64) :
    (∀ text, parseU64 text = some ttl → (TtlSafe now ttl (ttlExpiry (some text) now) ↔ TtlWraps now ttl)) ∧
    (∀ (validate : JValue → JValue → Except Bytes Unit) (cfg : NodeConfig) (schema : Option JValue) (principal : PublicKey)
      (plan : BatchPlan) (op : BatchOp) (key value : Bytes) (clocks : ClockOracle) (c : Caller), op.op = str "put" →
      op.key = some key → op.value.map b64Decode = some (.ok value) → MeetsSchema validate schema value →
      op.ttl = some ttl → clocks.nowMs c.ticks = UInt64.ofNat now →
      ∃ planned c', (Handler.planOp validate cfg schema principal plan op).interpret (Access.answer clocks) c =
        .ok (plan.accept planned) c' ∧ (TtlSafe now ttl planned.expiresAt ↔ TtlWraps now ttl)) ∧
    ∀ v : Version, v.expiresAt ≠ 0 → v.expiresAt.toNat ≤ now → latestValue (.lww v) now = none := by
  refine ⟨fun text htext => ?_, ?_, fun v hne hle => ?_⟩
  · rw [ttlExpiry_eq hpos htext]
    exact ttlSafe_iff hnow (toNat_expiry hmax)
  · intro validate cfg schema principal plan op key value clocks c hop hkey hvalue hschema httl hclock
    obtain ⟨planned, c', hexpiry, hrun⟩ := planOp_put cfg principal plan hop hkey hvalue hschema httl hpos clocks c
    refine ⟨planned, c', hrun, ttlSafe_iff hnow ?_⟩
    rw [hexpiry, hclock]
    exact toNat_expiry hmax
  · have hdead : ¬ v.live now := by
      rw [Version.live, Bool.or_eq_true, beq_iff_eq, decide_eq_true_eq]
      rintro (hzero | hlt)
      · exact hne hzero
      · omega
    exact if_neg hdead

end

/-- Five seconds. -/
theorem ttl_safe_iff_five : letI := AuthCrates.trivial
    parseU64 [53] = some 5 ∧ (TtlSafe 1000 5 (ttlExpiry (some [53]) 1000) ↔ TtlWraps 1000 5) := by
  have h : parseU64 [53] = some 5 := by decide +kernel
  let _ := AuthCrates.trivial
  exact ⟨h, (ttl_safe_iff (by decide) (by decide) (by decide)).1 [53] h⟩

/-- The sum wraps to 0, which is no expiry at all, and to a time that has not come. -/
theorem ttl_wraps_to_never :
    (parseU64 (str "18446744073709551") = some 18446744073709551 ∧
      ttlExpiry (some (str "18446744073709551")) 616 = 0 ∧
      ¬ TtlSafe 616 18446744073709551 (ttlExpiry (some (str "18446744073709551")) 616)) ∧
    parseU64 (str "18446744073709552") = some 18446744073709552 ∧
      ttlExpiry (some (str "18446744073709552")) 1000 = 1384 ∧
      ¬ TtlSafe 1000 18446744073709552 (ttlExpiry (some (str "18446744073709552")) 1000) := by
  have hnever : ttlExpiry (some (str "18446744073709551")) 616 = 0 := by decide +kernel
  have hsoon : ttlExpiry (some (str "18446744073709552")) 1000 = 1384 := by decide +kernel
  refine ⟨⟨by decide +kernel, hnever, ?_⟩, by decide +kernel, hsoon, ?_⟩
  · rw [hnever, TtlSafe, if_neg (by decide)]
    exact fun h => h.1 rfl
  · rw [hsoon, TtlSafe, if_neg (by decide)]
    exact fun h => absurd h.2 (by decide)

end BunnyMesh
