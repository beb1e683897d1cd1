import BunnyMesh.Lib.Run
import BunnyMesh.Server.Handler

/-!
# The clock of a process

All calls of `Hlc::now` share one watermark (`core/hlc.rs`), which they load, exchange and increment, one atomic step at a
time.  A step that returns a value raises the watermark to that value, and the value is the one `Hlc.now` gives for the
watermark right before it (`Clock.Sound.cases`): the steps of other calls in between do not matter.  So the values are
distinct, they respect the order of calls that do not overlap, and none is below its caller's clock (`now_values`).
-/

namespace BunnyMesh

open Runs (Run guarded)

namespace Hlc

/-- `u64::MAX`, after which the watermark wraps around. -/
def top : UInt64 := 0xffffffffffffffff

theorem lt_now (ms : UInt64) {last h : UInt64} (htop : last ≠ top) (hh : h < base ms ∨ h ≤ last) : h < now ms last := by
  have hlast : last.toNat ≠ top.toNat := fun heq => htop (UInt64.toNat_inj.1 heq)
  have hbound := last.toNat_lt
  rw [show top.toNat = 18446744073709551615 from rfl] at hlast
  rw [UInt64.lt_iff_toNat_lt, UInt64.le_iff_toNat_le] at hh
  rw [UInt64.lt_iff_toNat_lt, now]
  split
  case isTrue hbase =>
    rw [gt_iff_lt, UInt64.lt_iff_toNat_lt] at hbase
    omega
  case isFalse hbase =>
    rw [gt_iff_lt, UInt64.lt_iff_toNat_lt] at hbase
    rw [UInt64.toNat_add, UInt64.toNat_one, Nat.mod_eq_of_lt (by omega)]
    omega

theorem last_lt_now (ms : UInt64) {last : UInt64} (htop : last ≠ top) : last < now ms last :=
  lt_now ms htop (.inr (UInt64.le_refl last))

theorem toNat_base {ms : UInt64} (hms : ms.toNat < 2 ^ 47) : (base ms).toNat = ms.toNat * 2 ^ 16 := by
  rw [base, UInt64.toNat_shiftLeft, Nat.shiftLeft_eq, show (16 : UInt64).toNat % 64 = 16 from rfl, Nat.mod_eq_of_lt]
  omega

theorem base_le_now (ms : UInt64) {last : UInt64} (htop : last ≠ top) : base ms ≤ now ms last := by
  rw [now]
  split
  · exact UInt64.le_refl _
  · rename_i hbase
    rw [gt_iff_lt, UInt64.not_lt] at hbase
    have hlt := last_lt_now ms htop
    rw [now, if_neg (by rwa [gt_iff_lt, UInt64.not_lt])] at hlt
    exact UInt64.le_trans hbase (UInt64.le_of_lt hlt)

end Hlc

/-! ### Calls -/

/-- Where a call of `Hlc::now` stands: before the load, before the exchange of the watermark `cur` it has loaded, before the
increment, or behind its return. -/
inductive CallPoint where
  | load
  | exchange (cur : UInt64)
  | add
  | returned (value : UInt64)
deriving DecidableEq

/-- A call, with the wall clock it has read. -/
structure ClockCall where
  ms : UInt64
  point : CallPoint
deriving DecidableEq

/-- The watermark `LAST`, and the calls in the order they were made.  A thread that calls again and again is a call after
the other. -/
structure Clock where
  last : UInt64
  calls : List ClockCall
deriving DecidableEq

/-- A thread calls, its wall clock showing `ms`; the call `i` takes its next atomic step, where a
`compare_exchange_weak` may fail for no reason. -/
inductive ClockEvent where
  | call (ms : UInt64)
  | step (i : Nat) (spurious : Bool)

def ClockCall.step (c : ClockCall) (spurious : Bool) (last : UInt64) : Option (CallPoint × UInt64) :=
  match c.point with
  | .load => some (if Hlc.base c.ms > last then .exchange last else .add, last)
  | .exchange cur =>
    if last = cur ∧ spurious = false then some (.returned (Hlc.base c.ms), Hlc.base c.ms) else some (.load, last)
  | .add => some (.returned (last + 1), last + 1)
  | .returned _ => none

namespace Clock

def init : Clock := ⟨0, []⟩

def next (s : Clock) : ClockEvent → Option Clock
  | .call ms => some { s with calls := s.calls ++ [⟨ms, .load⟩] }
  | .step i spurious => do
    let c ← s.calls[i]?
    let (point, last) ← c.step spurious s.last
    pure ⟨last, s.calls.set i ⟨c.ms, point⟩⟩

def Steps (s : Clock) (e : ClockEvent) (s' : Clock) : Prop := s.next e = some s'

/-- The wall clocks stay below `2 ^ 47` milliseconds, and there are fewer than `2 ^ 48` calls. -/
def InRange (s : Clock) : ClockEvent → Prop
  | .call ms => ms.toNat < 2 ^ 47 ∧ s.calls.length + 1 < 2 ^ 48
  | .step _ _ => True

instance (s : Clock) (e : ClockEvent) : Decidable (s.InRange e) := by
  cases e <;> delta InRange <;> infer_instance

def Returned (s : Clock) (i : Nat) (v : UInt64) : Prop := ∃ ms, s.calls[i]? = some ⟨ms, .returned v⟩

end Clock

def CallPoint.isReturned : CallPoint → Bool
  | returned _ => true
  | load | exchange _ | add => false

/-- What a call knows: the watermark it has loaded is below its clock, or its clock is not above the watermark, which never
goes down, or it has returned a value that is not below its clock. -/
def CallPoint.Knows (ms last : UInt64) : CallPoint → Prop
  | load => True
  | exchange cur => cur < Hlc.base ms
  | add => Hlc.base ms ≤ last
  | returned v => Hlc.base ms ≤ v

theorem CallPoint.Knows.mono {ms last last' : UInt64} {p : CallPoint} (h : p.Knows ms last) (hle : last ≤ last') :
    p.Knows ms last' := by
  cases p with
  | add => exact UInt64.le_trans h hle
  | load | exchange | returned => exact h

namespace Clock

variable {s s' : Clock} {e : ClockEvent}

/-- The watermark cannot have wrapped: every increment is that of a call that has returned. -/
structure Sound (s : Clock) : Prop where
  small : ∀ c ∈ s.calls, c.ms.toNat < 2 ^ 47
  few : s.calls.length < 2 ^ 48
  bound : s.last.toNat ≤ 2 ^ 63 + s.calls.countP (·.point.isReturned)
  knows : ∀ c ∈ s.calls, c.point.Knows c.ms s.last

theorem Sound.last_ne_top (h : s.Sound) : s.last ≠ Hlc.top := by
  intro htop
  have hbound := h.bound
  have hcount := List.countP_le_length (p := fun c : ClockCall => c.point.isReturned) (l := s.calls)
  have hfew := h.few
  rw [htop, show Hlc.top.toNat = 18446744073709551615 from rfl] at hbound
  omega

/-- What a step of a call can do: it goes on and leaves the watermark, or it returns what `Hlc.now` gives for the watermark,
which is the new one. -/
inductive Moves (s : Clock) (i : Nat) (c : ClockCall) : Clock → Prop where
  | on {p : CallPoint} (going : p.isReturned = false) (knows : p.Knows c.ms s.last) :
      Moves s i c ⟨s.last, s.calls.set i ⟨c.ms, p⟩⟩
  | back : Moves s i c ⟨Hlc.now c.ms s.last, s.calls.set i ⟨c.ms, .returned (Hlc.now c.ms s.last)⟩⟩

theorem Sound.cases (h : s.Sound) (hstep : s.Steps e s') :
    (∃ ms, e = .call ms ∧ s' = ⟨s.last, s.calls ++ [⟨ms, .load⟩]⟩) ∨
    ∃ i c, s.calls[i]? = some c ∧ c.point.isReturned = false ∧ s.Moves i c s' := by
  cases e with
  | call ms => exact .inl ⟨ms, rfl, (Option.some.inj hstep).symm⟩
  | step i spurious =>
    obtain ⟨c, hc, hstep⟩ := Option.bind_eq_some_iff.1 hstep
    obtain ⟨⟨point, last⟩, hmove, hstep⟩ := Option.bind_eq_some_iff.1 hstep
    cases hstep
    obtain ⟨ms, at'⟩ := c
    have hknows := h.knows _ (List.mem_of_getElem? hc)
    refine .inr ⟨i, _, hc, ?_, ?_⟩
    · cases at' with
      | returned v => cases hmove
      | load | exchange | add => rfl
    · cases at' with
      | load =>
        simp only [ClockCall.step, Option.some.injEq, Prod.mk.injEq] at hmove
        obtain ⟨rfl, rfl⟩ := hmove
        by_cases hbase : Hlc.base ms > s.last
        · rw [if_pos hbase]
          exact .on rfl hbase
        · rw [if_neg hbase]
          exact .on rfl (UInt64.not_lt.1 hbase)
      | exchange cur =>
        simp only [ClockCall.step] at hmove
        split at hmove
        · -- the watermark is still the one that was loaded, which is below the clock of the call
          rename_i hsame
          obtain ⟨rfl, rfl⟩ := hmove
          have hnow : Hlc.now ms s.last = Hlc.base ms := by
            rw [Hlc.now, hsame.1]
            exact if_pos hknows
          exact hnow ▸ Moves.back (c := ⟨ms, .exchange cur⟩)
        · simp only [Option.some.injEq, Prod.mk.injEq] at hmove
          obtain ⟨rfl, rfl⟩ := hmove
          exact .on rfl trivial
      | add =>
        obtain ⟨rfl, rfl⟩ := hmove
        have hnow : Hlc.now ms s.last = s.last + 1 := by
          exact if_neg (UInt64.not_lt.2 hknows)
        exact hnow ▸ Moves.back (c := ⟨ms, .add⟩)
      | returned v => cases hmove

variable {i j : Nat} {v : UInt64} {c : ClockCall}

theorem Moves.last_le (h : s.Sound) (hmoves : s.Moves i c s') : s.last ≤ s'.last := by
  have hlt := Hlc.last_lt_now c.ms h.last_ne_top
  cases hmoves with
  | on => exact UInt64.le_refl _
  | back =>
    dsimp only
    exact UInt64.le_of_lt hlt

theorem Moves.sound (h : s.Sound) (hc : s.calls[i]? = some c) (hgoing : c.point.isReturned = false)
    (hmoves : s.Moves i c s') : s'.Sound := by
  have hle := hmoves.last_le h
  have hmem := List.mem_of_getElem? hc
  obtain ⟨hi, hci⟩ := List.getElem?_eq_some_iff.1 hc
  have hms := h.small c hmem
  have small {p : CallPoint} : ∀ d ∈ s.calls.set i ⟨c.ms, p⟩, d.ms.toNat < 2 ^ 47 := by
    intro d hd
    rcases List.mem_or_eq_of_mem_set hd with hd | rfl
    · exact h.small d hd
    · exact hms
  have knows {p : CallPoint} {last : UInt64} (hlast : s.last ≤ last) (hp : p.Knows c.ms last) :
      ∀ d ∈ s.calls.set i ⟨c.ms, p⟩, d.point.Knows d.ms last := by
    intro d hd
    rcases List.mem_or_eq_of_mem_set hd with hd | rfl
    · exact (h.knows d hd).mono hlast
    · exact hp
  have count {p : CallPoint} : (s.calls.set i ⟨c.ms, p⟩).countP (·.point.isReturned) =
      s.calls.countP (·.point.isReturned) + if p.isReturned then 1 else 0 := by
    rw [List.countP_set hi, hci, hgoing]
    rfl
  have few {p : CallPoint} : (s.calls.set i ⟨c.ms, p⟩).length < 2 ^ 48 := by
    rw [List.length_set]
    exact h.few
  cases hmoves with
  | @on p going hknows =>
    refine ⟨small, few, ?_, knows hle hknows⟩
    rw [count, going]
    exact h.bound
  | back =>
    refine ⟨small, few, ?_, knows hle (Hlc.base_le_now c.ms h.last_ne_top)⟩
    have hbound := h.bound
    rw [count, CallPoint.isReturned, if_pos rfl]
    rw [Hlc.now]
    split
    · rw [Hlc.toNat_base hms]
      omega
    · rw [UInt64.toNat_add, UInt64.toNat_one]
      omega

theorem Sound.step (h : s.Sound) (hrange : s.InRange e) (hstep : s.Steps e s') : s'.Sound ∧ s.last ≤ s'.last := by
  obtain ⟨ms, rfl, rfl⟩ | ⟨i, c, hc, hgoing, hmoves⟩ := h.cases hstep
  · refine ⟨⟨?_, ?_, ?_, ?_⟩, UInt64.le_refl _⟩
    · rw [List.forall_mem_append]
      exact ⟨h.small, by simpa using hrange.1⟩
    · rw [List.length_append]
      exact hrange.2
    · have hbound := h.bound
      dsimp only
      rw [List.countP_append]
      omega
    · rw [List.forall_mem_append]
      exact ⟨h.knows, by simp [CallPoint.Knows]⟩
  · exact ⟨hmoves.sound h hc hgoing, hmoves.last_le h⟩

theorem Sound.returned (h : s.Sound) (hstep : s.Steps e s') :
    ∃ i, ∀ j v, s'.Returned j v → s.Returned j v ∨ j = i ∧ v = s'.last ∧ s.last < s'.last := by
  obtain ⟨ms, rfl, rfl⟩ | ⟨i, c, hc, _, hmoves⟩ := h.cases hstep
  · refine ⟨0, fun j v ⟨ms', hj⟩ => .inl ⟨ms', ?_⟩⟩
    rw [List.getElem?_append] at hj
    split at hj
    · exact hj
    · have hmem := List.mem_singleton.1 (List.mem_of_getElem? hj)
      cases hmem
  · have hlt := Hlc.last_lt_now c.ms h.last_ne_top
    refine ⟨i, fun j v ⟨ms', hj⟩ => ?_⟩
    cases hmoves with
    | @on p going _ =>
      rw [List.getElem?_set] at hj
      split_ifs at hj with hij hi
      · cases hj
        cases going
      · exact .inl ⟨ms', hj⟩
    | back =>
      rw [List.getElem?_set] at hj
      split_ifs at hj with hij hi
      · rw [Option.some.injEq, ClockCall.mk.injEq, CallPoint.returned.injEq] at hj
        right
        dsimp only
        exact ⟨hij.symm, hj.2.symm, hlt⟩
      · exact .inl ⟨ms', hj⟩

theorem sound_init : init.Sound :=
  ⟨by simp [init], by simp [init], by simp [init], by simp [init]⟩

/-- The values returned so far are distinct, and up to the watermark. -/
structure Distinct (s : Clock) : Prop extends Sound s where
  le_last : ∀ i v, s.Returned i v → v ≤ s.last
  unique : ∀ i j v, s.Returned i v → s.Returned j v → i = j

theorem Distinct.step (h : s.Distinct) (hrange : s.InRange e) (hstep : s.Steps e s') : s'.Distinct := by
  obtain ⟨hsound, hlast⟩ := h.toSound.step hrange hstep
  obtain ⟨i, hnew⟩ := h.toSound.returned hstep
  have apart {j : Nat} (hold : s.Returned j s'.last) (hraised : s.last < s'.last) : False :=
    UInt64.lt_irrefl _ (UInt64.lt_of_lt_of_le hraised (h.le_last j _ hold))
  refine ⟨hsound, fun j v hv => ?_, fun j k v hj hk => ?_⟩
  · rcases hnew j v hv with hold | ⟨_, rfl, _⟩
    · exact UInt64.le_trans (h.le_last j v hold) hlast
    · exact UInt64.le_refl _
  · rcases hnew j v hj with hold | ⟨rfl, rfl, hraised⟩
    · rcases hnew k v hk with hold' | ⟨_, rfl, hraised⟩
      · exact h.unique j k v hold hold'
      · exact (apart hold hraised).elim
    · rcases hnew k _ hk with hold' | ⟨rfl, _⟩
      · exact (apart hold' hraised).elim
      · rfl

theorem lt_of_later {s1 : Clock} {after : List ClockEvent} (h : s1.Distinct) (hrun : Run (guarded InRange Steps) s1 after s)
    (hv : s1.Returned i v) {w : UInt64} (hj : s1.calls.length ≤ j) (hw : s.Returned j w) : v < w := by
  have hI := hrun.invariant (I := fun s => s.Sound ∧ v ≤ s.last ∧ ∀ k w, s1.calls.length ≤ k → s.Returned k w → v < w)
    (fun t e t' ⟨hsound, hle, hlater⟩ ⟨hrange, hstep⟩ => by
      obtain ⟨hsound', hlast⟩ := hsound.step hrange hstep
      obtain ⟨n, hnew⟩ := hsound.returned hstep
      refine ⟨hsound', UInt64.le_trans hle hlast, fun k w hk hw => ?_⟩
      rcases hnew k w hw with hold | ⟨_, rfl, hraised⟩
      · exact hlater k w hk hold
      · exact UInt64.lt_of_le_of_lt hle hraised)
    ⟨h.toSound, h.le_last i v hv, fun k w hk ⟨ms, hw⟩ => by
      rw [List.getElem?_eq_none hk] at hw
      cases hw⟩
  exact hI.2.2 j w hj hw

/-- However the steps of the calls alternate, the values they return are pairwise distinct, a call made after another one
has returned returns more, and every value is at least the clock of its caller. -/
theorem now_values {before after : List ClockEvent} {s₁ : Clock} (hbefore : Run (guarded InRange Steps) init before s₁)
    (hafter : Run (guarded InRange Steps) s₁ after s) :
    (∀ i j v, s.Returned i v → s.Returned j v → i = j) ∧
    (∀ i v, s₁.Returned i v → ∀ j w, s₁.calls.length ≤ j → s.Returned j w → v < w) ∧
    ∀ (i : Nat) ms v, s.calls[i]? = some ⟨ms, .returned v⟩ → ms.toNat * 2 ^ 16 ≤ v.toNat := by
  have hinit : init.Distinct := ⟨sound_init, by simp [Returned, init], by simp [Returned, init]⟩
  have h₁ := hbefore.invariant (I := Distinct) (fun _ _ _ h ⟨hrange, hstep⟩ => h.step hrange hstep) hinit
  have h := hafter.invariant (I := Distinct) (fun _ _ _ h ⟨hrange, hstep⟩ => h.step hrange hstep) h₁
  refine ⟨h.unique, fun i v hv j w hj hw => lt_of_later h₁ hafter hv hj hw, fun i ms v hi => ?_⟩
  have hmem := List.mem_of_getElem? hi
  have hknows : Hlc.base ms ≤ v := h.knows _ hmem
  rw [UInt64.le_iff_toNat_le, Hlc.toNat_base (h.small _ hmem)] at hknows
  exact hknows

/-- Two calls load the watermark before either exchanges it; the second wins, the first tries again and increments.  A
third one, made later on a clock that went back, returns more. -/
theorem now_values_race :
    ∃ s₁ s, Run (guarded InRange Steps) init [.call 5, .call 5, .step 0 false, .step 1 false, .step 1 false, .step 0 false,
        .step 0 false, .step 0 false] s₁ ∧ Run (guarded InRange Steps) s₁ [.call 4, .step 2 false, .step 2 false] s ∧
      s₁.Returned 0 327681 ∧ s.Returned 2 327682 ∧ (327681 : UInt64) < 327682 := by
  let s₁ : Clock := ⟨327681, [⟨5, .returned 327681⟩, ⟨5, .returned 327680⟩]⟩
  let s : Clock := ⟨327682, [⟨5, .returned 327681⟩, ⟨5, .returned 327680⟩, ⟨4, .returned 327682⟩]⟩
  have hnext : ∀ s a s', next s a = some s' → Steps s a s' := fun _ _ _ h => h
  have h₁ : Run (guarded InRange Steps) init [.call 5, .call 5, .step 0 false, .step 1 false, .step 1 false, .step 0 false,
      .step 0 false, .step 0 false] s₁ := Runs.run_of_exec hnext (by decide +kernel)
  have h : Run (guarded InRange Steps) s₁ [.call 4, .step 2 false, .step 2 false] s :=
    Runs.run_of_exec hnext (by decide +kernel)
  have hs₁ : s₁.Returned 0 327681 := ⟨5, rfl⟩
  have hs : s.Returned 2 327682 := ⟨4, rfl⟩
  exact ⟨s₁, s, h₁, h, hs₁, hs, (now_values h₁ h).2.1 0 _ hs₁ 2 _ (by decide) hs⟩

end Clock

end BunnyMesh
