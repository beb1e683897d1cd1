import BunnyMesh.Fs.Mount
import BunnyMesh.Query.Exec
import BunnyMesh.Storage.Converge

/-!
# What readers see of an entry

Every reader chooses a version of an entry for itself: HTTP by the stamp among the versions that have not expired, the
mount among the same ones by the time stamp alone, a query by the stamp among all of them, and shows it as text.  They
see the same value exactly if the choice is not disputed (`readers_agree_iff`).
-/

namespace BunnyMesh

open Greatest (greatest LastGreatest)
open ByteCodec (isUtf8 fromUtf8Lossy)

namespace Entry

/-- The entry for a GET of its key, a scan and the `get` of a batch. -/
def httpValue (e : Entry) (now : UInt64) : Option Bytes := latestValue e now.toNat

/-- The entry for the query functions `get` and `scan`, which have a text for every entry. -/
def queryValue (e : Entry) : Option Bytes := some (Query.latestText e)

def mountVersion (now : UInt64) : Entry → Option Version
  | .lww v => if v.live now.toNat then some v else none
  | .register vs => Fs.maxByHlc (vs.filter (·.live now.toNat))

def mountValue (e : Entry) (now : UInt64) : Option Bytes := (e.mountVersion now).map (·.value)

/-- All readers report the key as absent, or all the same value. -/
def ReadersAgree (e : Entry) (now : UInt64) : Prop :=
  (e.httpValue now = none ∧ e.queryValue = none ∧ e.mountValue now = none) ∨
    ∃ value, e.httpValue now = some value ∧ e.queryValue = some value ∧ e.mountValue now = some value

end Entry

/-! ### Disputed entries -/

def Version.time (v : Version) : Nat := v.hlc.toNat

/-- The value of the version is what all readers see: it wins by its stamp among the versions that have not expired; the
version that wins among all of them is text if it has not expired, and has its value as its text if it has; and where
another version that has not expired comes last among those of the greatest time stamp, it has the same value. -/
def Entry.Undisputed (now : UInt64) (v : Version) : Entry → Prop
  | .lww u => u = v ∧ v.live now.toNat ∧ isUtf8 v.value
  | .register vs => LastGreatest Version.stamp (vs.filter (·.live now.toNat)) v ∧
      (∀ u, LastGreatest Version.stamp vs u →
        if u.live now.toNat then isUtf8 u.value else fromUtf8Lossy u.value = v.value) ∧
      ∀ u, LastGreatest Version.time (vs.filter (·.live now.toNat)) u → u.replica ≠ v.replica → u.value = v.value

theorem fromUtf8Lossy_eq_iff (b : Bytes) : fromUtf8Lossy b = b ↔ isUtf8 b := by
  constructor
  · intro h
    have hutf := ByteCodec.isUtf8_fromUtf8Lossy b
    rwa [h] at hutf
  · exact ByteCodec.fromUtf8Lossy_of_isUtf8

theorem Fs.maxByHlc_eq (vs : List Version) : Fs.maxByHlc vs = greatest Version.time vs := by
  have hlater : (fun a b : Version => if a.hlc ≤ b.hlc then b else a) = Greatest.later Version.time := by
    funext a b
    have hiff : a.hlc ≤ b.hlc ↔ a.time ≤ b.time := UInt64.le_iff_toNat_le
    by_cases h : a.hlc ≤ b.hlc
    · rw [if_pos h, Greatest.later, if_pos (hiff.1 h)]
    · rw [if_neg h, Greatest.later, if_neg (mt hiff.2 h)]
  cases vs with
  | nil => rfl
  | cons v vs => rw [Fs.maxByHlc, hlater, greatest]

variable {u v : Version}

theorem Version.stamp_lt_of_time_lt (h : u.time < v.time) : u.stamp < v.stamp := by
  exact Prod.Lex.lt_iff.2 (.inl h)

theorem lastGreatest_stamp_of_time {vs : List Version} (hu : LastGreatest Version.time vs u)
    (hv : LastGreatest Version.stamp vs v) (h : u.stamp = v.stamp) : u = v := by
  have hle : ∀ x ∈ vs, x.stamp ≤ u.stamp := fun x hx => h ▸ hv.le hx
  obtain ⟨front, back, rfl, -, hback⟩ := hu
  refine LastGreatest.unique ⟨front, back, rfl, fun x hx => hle x ?_, fun x hx => ?_⟩ hv
  · exact List.mem_append_left _ hx
  · exact Version.stamp_lt_of_time_lt (hback x hx)

theorem time_eq_of_lastGreatest {vs : List Version} (hu : LastGreatest Version.time vs u)
    (hv : LastGreatest Version.stamp vs v) : u.time = v.time := by
  refine le_antisymm ?_ (hu.le hv.mem)
  by_contra hlt
  exact absurd (hv.le hu.mem) (not_le.2 (Version.stamp_lt_of_time_lt (not_le.1 hlt)))

theorem readers_agree_register (vs : List Version) (now : UInt64) :
    (Entry.register vs).ReadersAgree now ↔ ∃ v, (Entry.register vs).Undisputed now v := by
  have hhttp : (Entry.register vs).httpValue now =
      (greatest Version.stamp (vs.filter (·.live now.toNat))).map (·.value) := by
    rw [← maxByStamp_eq]
    rfl
  have hquery : (Entry.register vs).queryValue =
      some (((greatest Version.stamp vs).map fun v => fromUtf8Lossy v.value).getD []) := by
    rw [← maxByStamp_eq]
    rfl
  have hmount : (Entry.register vs).mountValue now =
      (greatest Version.time (vs.filter (·.live now.toNat))).map (·.value) := by
    rw [← Fs.maxByHlc_eq]
    rfl
  unfold Entry.ReadersAgree
  rw [hhttp, hquery, hmount]
  constructor
  · rintro (⟨-, hnone, -⟩ | ⟨value, hvalue, htext, hshown⟩)
    · cases hnone
    · obtain ⟨v, hv, rfl⟩ := Option.map_eq_some_iff.1 hvalue
      obtain ⟨w, hw, hwv⟩ := Option.map_eq_some_iff.1 hshown
      rw [Greatest.greatest_eq_some_iff] at hv hw
      refine ⟨v, hv, fun u hu => ?_, fun u hu _ => ?_⟩
      · rw [Greatest.greatest_eq_some_iff.2 hu, Option.map_some, Option.getD_some, Option.some.injEq] at htext
        split
        · rename_i hlive
          obtain rfl : u = v := (hu.filter hlive).unique hv
          exact (fromUtf8Lossy_eq_iff _).1 htext
        · exact htext
      · rw [hu.unique hw]
        exact hwv
  · rintro ⟨v, hv, hwinner, hlast⟩
    obtain ⟨u, hu⟩ := Greatest.exists_lastGreatest Version.stamp (List.ne_nil_of_mem (List.mem_of_mem_filter hv.mem))
    obtain ⟨w, hw⟩ := Greatest.exists_lastGreatest Version.time (List.ne_nil_of_mem hv.mem)
    refine .inr ⟨v.value, ?_, ?_, ?_⟩
    · rw [Greatest.greatest_eq_some_iff.2 hv]
      rfl
    · rw [Greatest.greatest_eq_some_iff.2 hu, Option.map_some, Option.getD_some, Option.some.injEq]
      have h := hwinner u hu
      split at h
      · rename_i hlive
        obtain rfl : u = v := (hu.filter hlive).unique hv
        exact (fromUtf8Lossy_eq_iff _).2 h
      · exact h
    · rw [Greatest.greatest_eq_some_iff.2 hw, Option.map_some, Option.some.injEq]
      by_cases hreplica : w.replica = v.replica
      · have htime := time_eq_of_lastGreatest hw hv
        have hstamp : w.stamp = v.stamp := by
          simp only [Version.stamp, Stamp.mk.injEq]
          exact ⟨UInt64.toNat_inj.1 htime, hreplica⟩
        rw [lastGreatest_stamp_of_time hw hv hstamp]
      · exact hlast w hw hreplica

/-- All readers see an entry alike exactly if it has a version that is not disputed. -/
theorem readers_agree_iff (e : Entry) (now : UInt64) : e.ReadersAgree now ↔ ∃ v, e.Undisputed now v := by
  cases e with
  | lww v =>
    constructor
    · rintro (⟨-, hnone, -⟩ | ⟨value, hvalue, htext, -⟩)
      · cases hnone
      · have hlive : v.live now.toNat = true ∧ v.value = value := by
          simpa [Entry.httpValue, latestValue] using hvalue
        obtain ⟨hlive, rfl⟩ := hlive
        exact ⟨v, rfl, hlive, (fromUtf8Lossy_eq_iff _).1 (Option.some.inj htext)⟩
    · rintro ⟨_, rfl, hlive, hutf⟩
      refine .inr ⟨v.value, ?_, ?_, ?_⟩
      · exact if_pos hlive
      · exact congrArg some ((fromUtf8Lossy_eq_iff _).2 hutf)
      · rw [Entry.mountValue, Entry.mountVersion, if_pos hlive]
        rfl
  | register vs => exact readers_agree_register vs now

def expiringEntry : Entry := .lww ⟨5, .zero, .zero, [120], 1, 10⟩

/-- Two versions of one time, the one of the smaller replica last. -/
def tiedEntry : Entry := .register [⟨5, .fill 2, .zero, [120], 1, 0⟩, ⟨5, .fill 1, .zero, [121], 2, 0⟩]

/-- A value past its expiry is gone for HTTP and the mount, and a query shows it; of two versions of one time HTTP and a
query see the one of the greater replica, the mount the one that arrived last. -/
theorem readers_disagree :
    (¬ expiringEntry.ReadersAgree 20 ∧ expiringEntry.httpValue 20 = none ∧ expiringEntry.queryValue = some [120] ∧
      expiringEntry.mountValue 20 = none) ∧
    (¬ tiedEntry.ReadersAgree 20 ∧ tiedEntry.httpValue 20 = some [120] ∧ tiedEntry.queryValue = some [120] ∧
      tiedEntry.mountValue 20 = some [121]) := by
  have hexpiring : expiringEntry.httpValue 20 = none ∧ expiringEntry.queryValue = some [120] ∧
      expiringEntry.mountValue 20 = none := by decide +kernel
  have htied : tiedEntry.httpValue 20 = some [120] ∧ tiedEntry.queryValue = some [120] ∧
      tiedEntry.mountValue 20 = some [121] := by decide +kernel
  refine ⟨⟨?_, hexpiring⟩, ?_, htied⟩
  · rintro (⟨-, h, -⟩ | ⟨value, h, -, -⟩)
    · cases hexpiring.2.1.symm.trans h
    · cases hexpiring.1.symm.trans h
  · rintro (⟨h, -, -⟩ | ⟨value, h, -, h'⟩)
    · cases htied.1.symm.trans h
    · cases htied.1.symm.trans h
      cases htied.2.2.symm.trans h'

end BunnyMesh
