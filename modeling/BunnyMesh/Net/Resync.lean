import BunnyMesh.Net.Pulls

/-!
# Syncing a batch

`apply_synced_batch` reads the log once and keeps the identities it has seen; `apply_synced` reads the log for every
record.  On what `verify_batch` returns they do the same, and a second time they do nothing
(`applySyncedBatch_eq_each`).
-/

namespace BunnyMesh

open Std

section

variable [Crates]

variable {w w' : World} {g : History} {ns : Bytes} {p : ConflictPolicy} {records : List Record}

theorem applySyncedBatch_resync (h : Attached w g) (hp : w.store.policies[ns]? = some p)
    (hr : ∀ r ∈ records, r.WellFormed) : ∃ w' g',
      applySyncedBatch ns records w = .ok (newRecords ((w.records ns).map versionKey) records).length w' ∧
      Attached w' g' ∧ w'.store.policies = w.store.policies ∧
      w'.records ns = w.records ns ++ newRecords ((w.records ns).map versionKey) records ∧
      (∀ n, n ≠ ns → w'.records n = w.records n) ∧ applySyncedBatch ns records w' = .ok 0 w' := by
  obtain ⟨w', hrun, -, hat, hpol⟩ := applySyncedBatch_spec h hp hr
  have hp' : w'.store.policies[ns]? = some p := by rw [hpol, hp]
  obtain ⟨hself, hother⟩ := g.records_logAll ns (newRecords ((g.records ns).map versionKey) records)
  have hrecords : w'.records ns = w.records ns ++ newRecords ((w.records ns).map versionKey) records := by
    rw [hat.records_eq hp', hself, h.records_eq hp]
  refine ⟨w', _, ?_, hat, hpol, hrecords, fun n hn => h.records_congr hat hpol (hother n hn), ?_⟩
  · rw [hrun, h.records_eq hp]
  · -- every identity of the batch is in the log now, so the second time there is no event
    obtain ⟨w'', hagain, hevents, -⟩ := applySyncedBatch_spec hat hp' hr
    have hnone : newRecords (((g.logAll ns (newRecords ((g.records ns).map versionKey) records)).records ns).map
        versionKey) records = [] := by
      refine Shipping.unseen_of_seen fun r hmem => ?_
      rw [hself, List.map_append, List.mem_append]
      exact Shipping.key_mem_seen_or_unseen hmem
    rw [hnone] at hagain hevents
    cases hevents
    exact hagain

/-- On the records of a verified chunk, `apply_synced_batch` appends those whose identity is neither in the log of the
namespace nor earlier in the list, in order, and counts them; `apply_synced` on one after the other ends in the same
world, and from there both do nothing.  Without the namespace nothing happens. -/
theorem applySyncedBatch_eq_each (h : Attached w g) (ns : Bytes) {batch : List (Nat × Bytes)}
    (hv : verifyBatch batch = .ok records) :
    (w.store.policies[ns]? = none → applySyncedBatch ns records w = .error (.err (.badName ns)) w ∧
      Exec.finalState (applySyncedEach ns records w) = w) ∧
    (w.store.policies[ns]? ≠ none → ∃ w',
      applySyncedBatch ns records w = .ok (newRecords ((w.records ns).map versionKey) records).length w' ∧
      applySyncedEach ns records w = .ok (newRecords ((w.records ns).map versionKey) records).length w' ∧
      w'.records ns = w.records ns ++ newRecords ((w.records ns).map versionKey) records ∧
      (∀ n, n ≠ ns → w'.records n = w.records n) ∧
      applySyncedBatch ns records w' = .ok 0 w' ∧ applySyncedEach ns records w' = .ok 0 w') := by
  have hr := verifyFrom_wellFormed hv
  constructor
  · intro hp
    refine ⟨by rw [applySyncedBatch, Exec.bind_error (requirePolicy_none hp)], ?_⟩
    cases records with
    | nil => rfl
    | cons r rest => rw [applySyncedEach, applySynced, Exec.bind_error (Exec.bind_error (requirePolicy_none hp))]; rfl
  · intro hp
    obtain ⟨p, hp⟩ := Option.ne_none_iff_exists'.1 hp
    obtain ⟨w', g', hrun, hat, hpol, hself, hother, hagain⟩ := applySyncedBatch_resync h hp hr
    refine ⟨w', hrun, ?_, hself, hother, hagain, ?_⟩
    · rw [applySyncedEach_eq_batch h hp hr, hrun]
    · rw [applySyncedEach_eq_batch hat (by rw [hpol, hp]) hr, hagain]

end

def resyncedRecords : List Record :=
  [⟨⟨tagPut, [1], 1, .zero, .zero, [10], 0⟩, []⟩, ⟨⟨tagDel, [1], 2, .zero, .zero, [], 0⟩, []⟩,
    ⟨⟨tagDel, [1], 2, .zero, .zero, [], 0⟩, []⟩]

set_option maxRecDepth 100000 in
/-- Only the deletion is applied, once. -/
theorem applySyncedBatch_eq_each_resynced : letI := Crates.trivial
    ∃ w w' g batch, Attached w g ∧ verifyBatch batch = .ok resyncedRecords ∧
      applySyncedBatch [97] resyncedRecords w = .ok 1 w' ∧ applySyncedEach [97] resyncedRecords w = .ok 1 w' ∧
      applySyncedBatch [97] resyncedRecords w' = .ok 0 w' := by
  have h : letI := Crates.trivial
      ∃ w ∈ freshRun (fun w c => c.Valid w.store) [.createNamespace [97] .lww, .put [97] [1] [10] 1 .zero .zero 0],
        w.store.policies[([97] : Bytes)]? ≠ none ∧
        (newRecords ((w.records [97]).map versionKey) resyncedRecords).length = 1 := by decide +kernel
  have hwf : ∀ r ∈ resyncedRecords, r.WellFormed := by decide +kernel
  let _ := Crates.trivial
  obtain ⟨w, hw, hpolicy, hnew⟩ := h
  obtain ⟨w₀, h₀, hrun⟩ := freshRun_sound hw
  obtain ⟨g, hs⟩ := h₀.run_sound (fun _ _ hc => hc) hrun
  have hbatch := verifyBatch_of_chained (chained_encodeChain hwf .zero) 1
  obtain ⟨w', hrun, heach, -, -, hagain, -⟩ :=
    (applySyncedBatch_eq_each hs.running.toAttached [97] hbatch).2 hpolicy
  rw [hnew] at hrun heach
  exact ⟨w, w', g, _, hs.running.toAttached, hbatch, hrun, heach, hagain⟩

end BunnyMesh
