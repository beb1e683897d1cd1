import BunnyMesh.Lib.Shipping
import BunnyMesh.Storage.Gc

/-!
# Events

What can happen to a running store, seen as events on the store and on the history of its directory.  Every operation
fails without a trace or is a sequence of events, so whatever every event keeps, every run of operations keeps.
-/

namespace BunnyMesh

open Std Store
open Runs (Run)

/-- The records of a batch that are new: neither in the log nor earlier in the batch. -/
abbrev newRecords (seen : List (UInt8 × UInt64 × Bytes32)) (records : List Record) : List Record :=
  Shipping.unseen versionKey seen records

theorem requirePolicy_apply {w : World} {ns : Bytes} {p : ConflictPolicy}
    (hp : w.store.policies[ns]? = some p) : requirePolicy ns w = .ok () w := by
  simp only [requirePolicy, Exec.bind_apply, Exec.get_apply, hp, Option.isNone_some, Bool.false_eq_true, if_false,
    Exec.pure_apply]

theorem requirePolicy_none {w : World} {ns : Bytes} (hp : w.store.policies[ns]? = none) :
    requirePolicy ns w = .error (.err (.badName ns)) w := by
  simp only [requirePolicy, Exec.bind_apply, Exec.get_apply, hp, Option.isNone_none, if_true, Exec.throw_apply]

section

variable [Crates]
variable {w w' : World} {g g' : History} {ns : Bytes} {p : ConflictPolicy}

/-- What can happen to a running store. -/
inductive Event where
  | created (ns : Bytes) (p : ConflictPolicy)
  | changed (ns : Bytes) (c : Change)
  | snapshot
  | reopened
  | compacted (now : UInt64)

/-- The store and the history of its directory, before and after an event. -/
inductive Happens : World × History → Event → World × History → Prop where
  | created {w : World} {g : History} {ns : Bytes} {p : ConflictPolicy} {log : Log} {disk : Disk} {points : List Disk}
      (valid : validNs ns) (fresh : w.store.policies[ns]? = none)
      (running : Running ⟨((w.store.setPolicy ns p).setLog ns log).bump, disk, points⟩ (g.create ns)) :
      Happens (w, g) (.created ns p) (⟨((w.store.setPolicy ns p).setLog ns log).bump, disk, points⟩, g.create ns)
  | changed {w w' : World} {g : History} {ns : Bytes} {p : ConflictPolicy} {c : Change} (logged : Logged ns p c w g w') :
      Happens (w, g) (.changed ns c) (w', g.log ns c.record)
  | snapshot {w : World} {g : History} {disk : Disk} {points : List Disk}
      (running : Running ⟨w.store, disk, points⟩ (g.snapshot w.store)) :
      Happens (w, g) .snapshot (⟨w.store, disk, points⟩, g.snapshot w.store)
  | reopened {w w' : World} {g : History} (running : Running w' g) (policies : w'.store.policies = w.store.policies)
      (derived : w'.store.rebuildSecondaryIndexes = w'.store)
      (view : ∀ (ns : Bytes) p, w.store.policies[ns]? = some p → w'.store.view ns = g.recovered ns p) :
      Happens (w, g) .reopened (w', g)
  | compacted {w w₁ : World} {g g₁ : History} {now : UInt64} {disk : Disk} {points : List Disk}
      (run : Run (CompactStep now) (w, g) (w.store.namespaces.map (·.1)) (w₁, g₁))
      (running : Running ⟨w₁.store, disk, points⟩ (g₁.snapshot w₁.store)) :
      Happens (w, g) (.compacted now) (⟨w₁.store, disk, points⟩, g₁.snapshot w₁.store)

/-! ### Synced records -/

/-- The history with the records logged in `ns`, one after another. -/
def History.logAll (g : History) (ns : Bytes) (rs : List Record) : History := rs.foldl (fun g r => g.log ns r) g

theorem History.base_logAll (g : History) (ns : Bytes) (rs : List Record) : (g.logAll ns rs).base = g.base := by
  induction rs generalizing g with
  | nil => rfl
  | cons r rs ih => exact (ih (g.log ns r)).trans rfl

theorem History.records_logAll (g : History) (ns : Bytes) (rs : List Record) :
    (g.logAll ns rs).records ns = g.records ns ++ rs ∧ ∀ n, n ≠ ns → (g.logAll ns rs).records n = g.records n := by
  induction rs generalizing g with
  | nil => exact ⟨(List.append_nil _).symm, fun _ _ => rfl⟩
  | cons r rs ih =>
    obtain ⟨hself, hother⟩ := ih (g.log ns r)
    refine ⟨?_, fun n hn => (hother n hn).trans (Function.update_of_ne hn ..)⟩
    refine hself.trans ?_
    simp only [History.log, Function.update_self, List.append_assoc]
    rfl

theorem applyNew_spec (h : Attached w g) (hp : w.store.policies[ns]? = some p) {r : Record} (hr : r.WellFormed) :
    ∃ w', applyNew ns r w = .ok ((g.records ns).length + 1) w' ∧ Logged ns p (.synced r) w g w' :=
  logged_spec (c := .synced r) h hp hr

variable {records : List Record}

theorem applySyncedLoop_spec (h : Attached w g) (hp : w.store.policies[ns]? = some p)
    {seen : List (UInt8 × UInt64 × Bytes32)} (hr : ∀ r ∈ newRecords seen records, r.WellFormed) (applied : Nat) :
    ∃ w', applySyncedLoop ns records seen applied w = .ok (applied + (newRecords seen records).length) w' ∧
      Run Happens (w, g) ((newRecords seen records).map fun r => .changed ns (.synced r))
        (w', g.logAll ns (newRecords seen records)) ∧
      Attached w' (g.logAll ns (newRecords seen records)) ∧ w'.store.policies = w.store.policies := by
  induction records generalizing w g seen applied with
  | nil => exact ⟨w, rfl, .nil _, h, rfl⟩
  | cons r rest ih =>
    unfold newRecords Shipping.unseen at hr ⊢
    unfold applySyncedLoop
    split_ifs at hr ⊢ with hseen
    · exact ih h hp hr applied
    · obtain ⟨hr, hrest⟩ := List.forall_mem_cons.1 hr
      obtain ⟨w1, happly, hlogged⟩ := applyNew_spec h hp hr
      obtain ⟨hat, hpol, _⟩ := hlogged.spec h
      obtain ⟨w', hloop, hsynced, hat', hpol'⟩ := ih hat (by rw [hpol, hp]) hrest (applied + 1)
      refine ⟨w', ?_, .cons (.changed hlogged) hsynced, hat', hpol'.trans hpol⟩
      rw [Exec.bind_ok happly, hloop, List.length_cons, Nat.add_right_comm, Nat.add_assoc]

theorem applySyncedBatch_spec (h : Attached w g) (hp : w.store.policies[ns]? = some p)
    (hr : ∀ r ∈ records, r.WellFormed) : ∃ w',
      applySyncedBatch ns records w = .ok (newRecords ((g.records ns).map versionKey) records).length w' ∧
      Run Happens (w, g) ((newRecords ((g.records ns).map versionKey) records).map fun r => .changed ns (.synced r))
        (w', g.logAll ns (newRecords ((g.records ns).map versionKey) records)) ∧
      Attached w' (g.logAll ns (newRecords ((g.records ns).map versionKey) records)) ∧
      w'.store.policies = w.store.policies := by
  obtain ⟨w', hloop, hsynced, hat, hpol⟩ := applySyncedLoop_spec h hp
    (fun r (hmem : r ∈ newRecords ((g.records ns).map versionKey) records) => hr r (Shipping.mem_of_mem_unseen hmem)) 0
  refine ⟨w', ?_, hsynced, hat, hpol⟩
  simp [applySyncedBatch, requirePolicy_apply hp, h.logVersions_spec hp, hloop]

theorem applySynced_spec (h : Attached w g) (hp : w.store.policies[ns]? = some p) {r : Record} (hr : r.WellFormed) :
    ∃ w' g', applySynced ns r w = .ok (!((g.records ns).map versionKey).contains (versionKey r)) w' ∧
      Run Happens (w, g) ((newRecords ((g.records ns).map versionKey) [r]).map fun r => .changed ns (.synced r)) (w', g') := by
  simp only [applySynced, Exec.bind_apply, requirePolicy_apply hp, h.logVersions_spec hp, newRecords, Shipping.unseen]
  split_ifs with hseen
  · exact ⟨w, g, by rw [hseen]; rfl, .nil _⟩
  · obtain ⟨w', happly, hlogged⟩ := applyNew_spec h hp hr
    refine ⟨w', _, ?_, .single (.changed hlogged)⟩
    rw [Exec.bind_ok happly, Bool.eq_false_iff.2 hseen]
    rfl

/-- `apply_synced` for one record after the other; the number of records that were new. -/
def applySyncedEach (ns : Bytes) : List Record → M Nat
  | [] => pure 0
  | r :: rs => do
    let new ← applySynced ns r
    let n ← applySyncedEach ns rs
    pure (new.toNat + n)

/-- The loop that keeps the identities goes through the same worlds as the calls that read them off the log. -/
theorem applySyncedEach_eq_loop (h : Attached w g) (hp : w.store.policies[ns]? = some p)
    (hr : ∀ r ∈ records, r.WellFormed) {seen : List (UInt8 × UInt64 × Bytes32)}
    (hseen : ∀ k, k ∈ seen ↔ k ∈ (g.records ns).map versionKey) (applied : Nat) :
    applySyncedLoop ns records seen applied w = (do pure (applied + (← applySyncedEach ns records))) w := by
  -- along the batch; the invariant is that `seen` holds the identities of the log
  induction records generalizing w g seen applied with
  | nil => rfl
  | cons r rest ih =>
    obtain ⟨hr, hrest⟩ := List.forall_mem_cons.1 hr
    have hone : applySynced ns r w = if versionKey r ∈ seen then .ok false w
        else (do let _ ← applyNew ns r; pure true : M Bool) w := by
      simp only [applySynced, Exec.bind_apply, requirePolicy_apply hp, h.logVersions_spec hp]
      by_cases hmem : versionKey r ∈ seen
      · rw [if_pos hmem, if_pos (List.contains_iff_mem.2 ((hseen _).1 hmem))]
        rfl
      · rw [if_neg hmem, if_neg fun hc => hmem ((hseen _).2 (List.contains_iff_mem.1 hc))]
        rfl
    rw [applySyncedLoop]
    by_cases hmem : versionKey r ∈ seen
    · rw [if_pos hmem] at hone
      rw [if_pos (List.contains_iff_mem.2 hmem), ih h hp hrest hseen applied]
      simp only [applySyncedEach, Exec.bind_apply, hone, Bool.toNat_false, Nat.zero_add, Exec.pure_apply]
      cases applySyncedEach ns rest w <;> rfl
    · obtain ⟨w1, happly, hlogged⟩ := applyNew_spec h hp hr
      obtain ⟨hat, hpol, _⟩ := hlogged.spec h
      have hseen' : ∀ k, k ∈ versionKey r :: seen ↔ k ∈ ((g.log ns r).records ns).map versionKey := by
        intro k
        have hlog : (g.log ns r).records ns = g.records ns ++ [r] := Function.update_self ..
        rw [List.mem_cons, hseen k, hlog, List.map_append, List.mem_append, List.map_singleton, List.mem_singleton,
          or_comm]
      rw [if_neg hmem, Exec.bind_ok happly] at hone
      rw [if_neg fun hc => hmem (List.contains_iff_mem.1 hc), Exec.bind_ok happly,
        ih hat (by rw [hpol, hp]) hrest hseen' (applied + 1)]
      simp only [applySyncedEach, Exec.bind_apply, hone, Exec.pure_apply, Bool.toNat_true]
      cases applySyncedEach ns rest w1 with
      | ok n w2 => simp [Nat.add_assoc]
      | error e w2 => rfl

theorem applySyncedEach_eq_batch (h : Attached w g) (hp : w.store.policies[ns]? = some p)
    (hr : ∀ r ∈ records, r.WellFormed) : applySyncedEach ns records w = applySyncedBatch ns records w := by
  simp only [applySyncedBatch, Exec.bind_apply, requirePolicy_apply hp, h.logVersions_spec hp,
    applySyncedEach_eq_loop h hp hr (fun _ => Iff.rfl), Nat.zero_add, Exec.pure_apply]
  cases applySyncedEach ns records w <;> rfl

/-! ### What every event keeps -/

variable {x x' : World × History} {e : Event}

/-- A running store whose contents, and those of its snapshot, fit records. -/
structure Sound (x : World × History) : Prop where
  running : Running x.1 x.2
  sized : ∀ n, (x.1.store.view n).Sized
  baseSized : ∀ n, (x.2.base.view n).Sized

theorem LogsRep.each_recovered {P : Bytes → Slot → Prop} (hP : SlotKept P) {d : Disk} {pol : BMap Bytes ConflictPolicy}
    (hd : LogsRep d pol g) (h : (g.base.view ns).Each P) (hp : pol[ns]? = some p) : (g.recovered ns p).Each P := by
  refine hP.replay h (fun r hr => ?_) _
  exact (hd.chained ns (by rw [hp]; simp)).wellFormed r (List.mem_of_mem_drop hr)

/-- Every slot of the store has the property, and every slot of its snapshot. -/
structure EachSlot (P : Bytes → Slot → Prop) (x : World × History) : Prop where
  view : ∀ n, (x.1.store.view n).Each P
  base : ∀ n, (x.2.base.view n).Each P

theorem Happens.eachSlot {P : Bytes → Slot → Prop} (hP : SlotKept P) (hrun : Running x.1 x.2)
    (hsized : ∀ n, (x.1.store.view n).Sized) (h : EachSlot P x) (he : Happens x e x') : EachSlot P x' := by
  cases he with
  | created valid fresh running => exact ⟨h.view, h.base⟩
  | @changed w w' g ns p c logged =>
    obtain ⟨_, _, _, hview, hrest⟩ := logged.spec hrun.toAttached
    refine ⟨fun n => ?_, h.base⟩
    rcases eq_or_ne n ns with rfl | hne
    · rw [hview]
      obtain ⟨_, hwf, _, _, _⟩ := logged
      exact (h.view n).effect hP hwf _
    · rw [hrest n hne]
      exact h.view n
  | snapshot running => exact ⟨h.view, h.view⟩
  | @reopened w w' g running policies derived view =>
    refine ⟨fun n => ?_, h.base⟩
    cases hp : w.store.policies[n]? with
    | none =>
      rw [running.outside n (by rw [policies, hp])]
      exact NsState.each_empty hP
    | some q =>
      rw [view n q hp]
      exact hrun.files.each_recovered hP (h.base n) hp
  | @compacted w w1 g g1 now disk points run running =>
    obtain ⟨_, _, _, _, _, hview, hrest⟩ := compactRun_spec run w.store.nodup_names
      fun n hn => (w.store.mem_names n).1 hn
    have heach : ∀ n, (w1.store.view n).Each P := by
      intro n
      cases hp : w.store.policies[n]? with
      | none =>
        rw [hrest n fun hn => (w.store.mem_names n).1 hn hp]
        exact h.view n
      | some q =>
        rw [hview n q ((w.store.mem_names n).2 (by rw [hp]; simp)) hp]
        exact (h.view n).compactedTo hP (compacted_wellFormed (hsized n) now)
    exact ⟨heach, heach⟩

theorem Happens.running (hrun : Running x.1 x.2) (he : Happens x e x') : Running x'.1 x'.2 := by
  cases he with
  | created valid fresh running => exact running
  | changed logged => exact logged.running hrun
  | snapshot running => exact running
  | reopened running => exact running
  | compacted run running => exact running

theorem Happens.sound (h : Sound x) (he : Happens x e x') : Sound x' := by
  have hsized := he.eachSlot Slot.Sized.slotKept h.running h.sized ⟨h.sized, h.baseSized⟩
  exact ⟨he.running h.running, hsized.view, hsized.base⟩

end

end BunnyMesh
