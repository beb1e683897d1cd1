import BunnyMesh.Storage.IndexRuns

/-!
# What live compaction preserves

`gc_live` regenerates the log of a namespace from its index and its tombstones.  What readers see of a key with an entry
and no tombstone is kept (`visible_compacted`), and the definitions are.  Two things are not: a key with a tombstone and
an unexpired entry comes back, and the rows that are left are not always those of a reopened store.
-/

namespace BunnyMesh

open Std Store
open Runs (Run guarded)

/-! ### Keys -/

variable {s s' : Store} {ns n k : Bytes} {p : ConflictPolicy} {now : UInt64}

theorem Entry.compact_eq_none (e : Entry) : e.compact now = none ↔ e.kept now = [] := by
  cases e with
  | lww v => cases hv : v.expired now <;> simp [Entry.compact, Entry.kept, hv]
  | register vs => simp [Entry.compact, Entry.kept]

/-- A key that compaction writes: an unexpired version, or a tombstone and no entry. -/
def Store.Outlives (s : Store) (now : UInt64) (ns k : Bytes) : Prop :=
  (∃ e, s.index[(ns, k)]? = some e ∧ e.kept now ≠ []) ∨ s.index[(ns, k)]? = none ∧ s.tombs[(ns, k)]? ≠ none

theorem mem_keysOf_compacted_iff : k ∈ keysOf (compacted s ns now) ↔ s.Outlives now ns k := by
  unfold Store.Outlives
  cases he : s.index[(ns, k)]? with
  | some e =>
    rw [mem_keysOf_compacted he]
    simp
  | none =>
    rw [mem_keysOf, compacted, opsOn_append, opsOn_putRecords, opsOn_delRecords, he]
    cases s.tombs[(ns, k)]? <;> simp

theorem compacted_ne_nil_iff : compacted s ns now ≠ [] ↔ ∃ k, s.Outlives now ns k := by
  simp only [← mem_keysOf_compacted_iff]
  constructor
  · intro hne
    obtain ⟨r, hr⟩ := List.exists_mem_of_ne_nil _ hne
    have hops : r.dataOps = [r.toOp] := by rw [Record.dataOps, if_pos (compacted_tag s ns now r hr)]
    refine ⟨r.toOp.key, List.mem_map.2 ⟨r.toOp, List.mem_flatMap.2 ⟨r, hr, ?_⟩, rfl⟩⟩
    rw [hops]
    exact List.mem_singleton_self _
  · rintro ⟨k, hk⟩ hnil
    rw [hnil] at hk
    cases hk

theorem visible_compacted (h : (s.view ns).Shaped p) (hne : compacted s ns now ≠ []) (k : Bytes) :
    (((s.view ns).compactedTo p (compacted s ns now)).slot k).visible.map Entry.unseq =
      (s.index[(ns, k)]?.bind (Entry.compact now)).map Entry.unseq := by
  have hcleared : ∀ k, (s.view ns).cleared.slot k = ⟨none, none⟩ := fun _ => rfl
  rw [← Slot.visible_unseq, NsState.compactedTo, if_neg hne, unseq_slot_compacted h now hcleared k, Slot.visible_unseq]
  have hentry : ((s.view ns).slot k).entry = s.index[(ns, k)]? := rfl
  unfold Slot.compact Slot.visible
  rw [hentry]
  cases s.index[(ns, k)]? with
  | none => simp
  | some e => simp

def Store.winnerAfter (s : Store) (now : UInt64) (ns k : Bytes) : Option Version :=
  (s.index[(ns, k)]?.bind (Entry.compact now)).bind latestEntryValue

theorem value_of_latest (o : Option Entry) :
    (o.bind latestEntryValue).map Version.value = ((o.map Entry.unseq).bind latestEntryValue).map Version.value := by
  cases o with
  | none => rfl
  | some e =>
    rw [Option.map_some, Option.bind_some, Option.bind_some, Entry.latest_unseq, Option.map_map]
    rfl

theorem outlives_of_winnerAfter {v : Version} (hv : s.winnerAfter now ns k = some v) : s.Outlives now ns k := by
  obtain ⟨e', he', -⟩ := Option.bind_eq_some_iff.1 hv
  obtain ⟨e, he, hc⟩ := Option.bind_eq_some_iff.1 he'
  refine .inl ⟨e, he, fun hkept => ?_⟩
  rw [e.compact_eq_none.2 hkept] at hc
  cases hc

/-! ### Lookups -/

theorem Store.indexLookup_eq (s : Store) (ns f start : Bytes) : s.indexLookup ns f start =
    (s.rows ns f).toList.dropWhile fun row => (compare row (start, [])).isLT := by
  unfold Store.indexLookup Store.rows rowsUnder
  cases s.secIndex[secMapKey ns f]? with
  | none => rfl
  | some rows => rfl

theorem Store.indexLookup_nil (s : Store) (ns f : Bytes) : s.indexLookup ns f [] = (s.rows ns f).toList := by
  have hstart : ∀ row : EntryKey, (compare row ([], [])).isLT = false := by
    rintro ⟨fv, k⟩
    cases fv with
    | nil => exact not_lt_start [] k
    | cons b fv => rfl
  rw [Store.indexLookup_eq]
  simp only [hstart]
  cases (s.rows ns f).toList <;> rfl

theorem Store.sameLookups_iff : (∀ f start, s'.indexLookup ns f start = s.indexLookup ns f start) ↔
    ∀ f fv k, (fv, k) ∈ s'.rows ns f ↔ (fv, k) ∈ s.rows ns f := by
  constructor
  · intro h f fv k
    rw [← ExtTreeSet.mem_toList, ← ExtTreeSet.mem_toList, ← Store.indexLookup_nil, ← Store.indexLookup_nil, h f []]
  · intro h f start
    have hrows : s'.rows ns f = s.rows ns f := ExtTreeSet.ext_mem fun row => h f row.1 row.2
    rw [Store.indexLookup_eq, Store.indexLookup_eq, hrows]

section

variable [Crates]
variable {w w' : World} {g g' : History}

/-! ### Before and after -/

/-- What `gc_live` should preserve: what is read, up to expired versions; that absent keys are absent; the definitions;
rows that refer to readable values; and all that when the directory is opened. -/
structure GcPreserves (now : UInt64) (w w' : World) : Prop where
  reads : ∀ ns k e, w.store.get ns k = some e → (w'.store.get ns k).map Entry.unseq = some e.unseq ∨
    (w'.store.get ns k).map Entry.unseq = (e.compact now).map Entry.unseq
  absent : ∀ ns k, w.store.get ns k = none → w'.store.get ns k = none
  schema : ∀ ns, w'.store.schema ns = w.store.schema ns
  indexDef : ∀ ns, w'.store.indexDef ns = w.store.indexDef ns
  rows : ∀ ns f start fv k, validNs ns → (fv, k) ∈ w'.store.indexLookup ns f start →
    ∃ e v, w'.store.get ns k = some e ∧ latestEntryValue e = some v ∧ fv ∈ fieldValues v.value f
  reopens : ∀ s points durable opened, ∃ w'', openDurable durable opened ⟨s, w'.disk, points⟩ = .ok () w'' ∧
    SameReads w'.store w''.store ∧
    ∀ ns, validNs ns → ∀ f start, w''.store.indexLookup ns f start = w'.store.indexLookup ns f start

/-- No key has a tombstone and an unexpired version. -/
def Store.NoneRevived (s : Store) (now : UInt64) : Prop :=
  ∀ (ns k : Bytes) (e : Entry), s.index[(ns, k)]? = some e → s.tombs[(ns, k)]? ≠ none → e.kept now = []

/-- The rows are those of a reopened store.  In a namespace without a key to write the rows are exact if it is the last
one with indexed fields, and there are none otherwise.  In any other, every row is of an indexed field and of a key that
is written, and unless it is the last one no value left has such a field. -/
def Store.RowsSettle (s : Store) (now : UInt64) : Prop :=
  ∀ ns, validNs ns →
    ((∀ k, ¬ s.Outlives now ns k) → ∀ f fv k,
      (fv, k) ∈ s.rows ns f ↔ s.lastIndexed s.policies.keys = some ns ∧ (s.view ns).Indexes f fv k) ∧
    ((∃ k, s.Outlives now ns k) →
      (∀ f fv k, (fv, k) ∈ s.rows ns f → f ∈ s.indexFields ns ∧ s.Outlives now ns k) ∧
      (s.lastIndexed s.policies.keys ≠ some ns → ∀ f ∈ s.indexFields ns, ∀ k v, s.winnerAfter now ns k = some v →
        fieldValues v.value f = []))

/-- A pass over all namespaces, from `s` to `s'`. -/
structure CompactedAll (now : UInt64) (s s' : Store) : Prop where
  policies : s'.policies = s.policies
  metaMap : s'.metaMap = s.metaMap
  outside : ∀ n : Bytes, s.policies[n]? = none → s.view n = NsState.empty ∧ s'.view n = NsState.empty
  shaped : ∀ (n : Bytes) p, s.policies[n]? = some p → (s.view n).Shaped p
  view : ∀ (n : Bytes) p, s.policies[n]? = some p → s'.view n = (s.view n).compactedTo p (compacted s n now)
  rows : ∀ n f fv k, validNs n →
    (s.Rederives now n f k → ((fv, k) ∈ s'.rows n f ↔ (s'.view n).Indexes f fv k)) ∧
      (¬ s.Rederives now n f k → ((fv, k) ∈ s'.rows n f ↔ (fv, k) ∈ s.rows n f))

theorem compactedAll_of_run (h : Attached w g)
    (hrun : Run (CompactStep now) (w, g) (w.store.namespaces.map (·.1)) (w', g')) :
    CompactedAll now w.store w'.store := by
  obtain ⟨hpol, -, hmeta, -, -, hview, hother⟩ := compactRun_spec hrun w.store.nodup_names
    fun n hn => (w.store.mem_names n).1 hn
  refine ⟨hpol, hmeta, fun n hp => ?_, h.shaped, fun n p hp => ?_, fun n f fv k hn => rows_of_compacted h hrun hn f fv k⟩
  · refine ⟨h.outside n hp, ?_⟩
    rw [hother n fun hn => (w.store.mem_names n).1 hn hp]
    exact h.outside n hp
  · exact hview n p ((w.store.mem_names n).2 (by rw [hp]; simp)) hp

namespace CompactedAll

theorem view_of_nothing (h : CompactedAll now s s') (hn : ∀ k, ¬ s.Outlives now n k) : s'.view n = s.view n := by
  cases hp : s.policies[n]? with
  | none =>
    obtain ⟨hv, hv'⟩ := h.outside n hp
    rw [hv, hv']
  | some p =>
    have hnil : compacted s n now = [] := by
      by_contra hne
      obtain ⟨k, hk⟩ := compacted_ne_nil_iff.1 hne
      exact hn k hk
    rw [h.view n p hp, NsState.compactedTo, if_pos hnil]

theorem get_of_rewritten (h : CompactedAll now s s') (hn : ∃ k, s.Outlives now n k) (k : Bytes) :
    (s'.get n k).map Entry.unseq = (s.index[(n, k)]?.bind (Entry.compact now)).map Entry.unseq := by
  cases hp : s.policies[n]? with
  | none =>
    obtain ⟨k', hk'⟩ := hn
    have hindex : s.index[(n, k')]? = none := congrArg (fun st => (st.slot k').entry) (h.outside n hp).1
    have htombs : s.tombs[(n, k')]? = none := congrArg (fun st => (st.slot k').tomb) (h.outside n hp).1
    simp [Store.Outlives, hindex, htombs] at hk'
  | some p =>
    rw [Store.get_eq_visible, h.view n p hp]
    exact visible_compacted (h.shaped n p hp) (compacted_ne_nil_iff.2 hn) k

theorem fields (h : CompactedAll now s s') (n : Bytes) : s'.indexFields n = s.indexFields n := by
  rw [Store.indexFields, Store.indexFields, Store.indexDef, Store.indexDef, h.metaMap]

theorem reads (h : CompactedAll now s s') {e : Entry} (he : s.get n k = some e) :
    (s'.get n k).map Entry.unseq = some e.unseq ∨
      (s'.get n k).map Entry.unseq = (e.compact now).map Entry.unseq := by
  by_cases hn : ∃ k, s.Outlives now n k
  · right
    have hindex : s.index[(n, k)]? = some e := by
      unfold Store.get at he
      split at he
      · cases he
      · exact he
    rw [h.get_of_rewritten hn, hindex, Option.bind_some]
  · left
    rw [not_exists] at hn
    rw [Store.get_eq_visible, h.view_of_nothing hn, ← Store.get_eq_visible, he, Option.map_some]

theorem absent_iff (h : CompactedAll now s s') :
    (∀ n k, s.get n k = none → s'.get n k = none) ↔ s.NoneRevived now := by
  constructor
  · intro habs n k e he ht
    by_contra hkept
    have hn : ∃ k, s.Outlives now n k := ⟨k, .inl ⟨e, he, hkept⟩⟩
    have hnone : s.get n k = none := by
      rw [Store.get, ExtTreeMap.contains_eq_isSome_getElem?, Option.isSome_iff_ne_none.2 ht, if_pos rfl]
    have hafter := h.get_of_rewritten hn k
    rw [habs n k hnone, he, Option.bind_some, Option.map_none, eq_comm, Option.map_eq_none_iff, e.compact_eq_none] at hafter
    exact hkept hafter
  · intro hrev n k hnone
    by_cases hn : ∃ k, s.Outlives now n k
    · rw [← Option.map_eq_none_iff, h.get_of_rewritten hn, Option.map_eq_none_iff]
      cases he : s.index[(n, k)]? with
      | none => rfl
      | some e =>
        rw [Option.bind_some, e.compact_eq_none]
        refine hrev n k e he fun ht => ?_
        rw [Store.get, ExtTreeMap.contains_eq_isSome_getElem?, ht, Option.isSome_none, if_neg (by simp), he] at hnone
        cases hnone
    · rw [not_exists] at hn
      rw [Store.get_eq_visible, h.view_of_nothing hn, ← Store.get_eq_visible, hnone]

theorem indexes_of_rewritten (h : CompactedAll now s s') (hn : ∃ k, s.Outlives now n k) (f fv k : Bytes) :
    (s'.view n).Indexes f fv k ↔ f ∈ s.indexFields n ∧ ∃ v, s.winnerAfter now n k = some v ∧ fv ∈ fieldValues v.value f := by
  have hwinner : ((s'.view n).winner k).map Version.value = (s.winnerAfter now n k).map Version.value := by
    rw [Store.winner_eq, value_of_latest, h.get_of_rewritten hn, ← value_of_latest, Store.winnerAfter]
  have hvalue : ∀ o : Option Version, (∃ v, o = some v ∧ fv ∈ fieldValues v.value f) ↔
      ∃ value, o.map Version.value = some value ∧ fv ∈ fieldValues value f := by
    intro o
    cases o <;> simp
  rw [NsState.Indexes, ← Store.indexFields_eq, h.fields, hvalue, hwinner, ← hvalue]

theorem rows_iff (h : CompactedAll now s s') : (∀ n, validNs n → ∀ f fv k, (fv, k) ∈ s'.rows n f ↔
    s.lastIndexed s.policies.keys = some n ∧ (s'.view n).Indexes f fv k) ↔ s.RowsSettle now := by
  have hcell : ∀ n f k, s.Rederives now n f k ↔ f ∈ s.indexFields n ∧ s.Outlives now n k := by
    intro n f k
    rw [Store.Rederives, mem_keysOf_compacted_iff, Store.indexFields_eq]
  refine forall_congr' fun n => imp_congr_right fun hvalid => ?_
  by_cases hn : ∃ k, s.Outlives now n k
  · rw [imp_iff_right hn, and_iff_right fun hnone => absurd hn (not_exists.2 hnone)]
    constructor
    · intro hrows
      refine ⟨fun f fv k hmem => ?_, fun hlast f hf k v hv => ?_⟩
      · rw [← hcell]
        by_contra hc
        have hrow := (hrows f fv k).1 (((h.rows n f fv k hvalid).2 hc).2 hmem)
        obtain ⟨hf, v, hv, -⟩ := (h.indexes_of_rewritten hn f fv k).1 hrow.2
        exact hc ((hcell n f k).2 ⟨hf, outlives_of_winnerAfter hv⟩)
      · rw [List.eq_nil_iff_forall_not_mem]
        intro fv hfv
        have hindexes := (h.indexes_of_rewritten hn f fv k).2 ⟨hf, v, hv, hfv⟩
        have hc := (hcell n f k).2 ⟨hf, outlives_of_winnerAfter hv⟩
        exact hlast ((hrows f fv k).1 (((h.rows n f fv k hvalid).1 hc).2 hindexes)).1
    · rintro ⟨hkept, hother⟩ f fv k
      by_cases hc : s.Rederives now n f k
      · rw [(h.rows n f fv k hvalid).1 hc, eq_comm, iff_and_self]
        intro hindexes
        obtain ⟨hf, v, hv, hfv⟩ := (h.indexes_of_rewritten hn f fv k).1 hindexes
        by_contra hlast
        rw [hother (fun he => hlast he.symm) f hf k v hv] at hfv
        cases hfv
      · rw [(h.rows n f fv k hvalid).2 hc]
        refine iff_of_false (fun hmem => hc ((hcell n f k).2 (hkept f fv k hmem))) ?_
        rintro ⟨-, hindexes⟩
        obtain ⟨hf, v, hv, -⟩ := (h.indexes_of_rewritten hn f fv k).1 hindexes
        exact hc ((hcell n f k).2 ⟨hf, outlives_of_winnerAfter hv⟩)
  · have hnone := not_exists.1 hn
    rw [imp_iff_right hnone, and_iff_left fun hex => absurd hex hn]
    refine forall_congr' fun f => forall_congr' fun fv => forall_congr' fun k => ?_
    have hc : ¬ s.Rederives now n f k := fun hc => hn ⟨k, ((hcell n f k).1 hc).2⟩
    rw [(h.rows n f fv k hvalid).2 hc, h.view_of_nothing hnone]

end CompactedAll

/-- Opening the directory right after a snapshot: everything is read as before, but the rows are derived anew. -/
theorem reopened_of_snapshot (h : Running w (g.snapshot w.store)) (s : Store) (points : List Disk) (durable : Bool)
    (opened : UInt64) : ∃ w'', openDurable durable opened ⟨s, w.disk, points⟩ = .ok () w'' ∧
      SameReads w.store w''.store ∧ ∀ n f fv k, validNs n → ((fv, k) ∈ w''.store.rows n f ↔
        w.store.lastIndexed w.store.policies.keys = some n ∧ (w.store.view n).Indexes f fv k) := by
  obtain ⟨w'', hopen, hrunning, hpol, -, hderived, hrecovered⟩ := openDurable_spec h.disk s points durable opened
  have hview : ∀ (n : Bytes) p, w.store.policies[n]? = some p → w''.store.view n = w.store.view n := by
    intro n p hp
    rw [hrecovered n p hp]
    exact h.toAttached.recovered_snapshot hp
  have hreads := h.toAttached.sameReads hrunning.toAttached hpol hview
  have hfields : ∀ n, w''.store.indexFields n = w.store.indexFields n := by
    intro n
    rw [Store.indexFields, Store.indexFields, hreads.indexDef]
  refine ⟨w'', hopen, hreads, fun n f fv k hn => ?_⟩
  have hvalid : ∀ n : Bytes, w''.store.policies[n]? ≠ none → (0 : UInt8) ∉ n :=
    fun n hn => nul_not_mem_of_validNs (hrunning.files.valid n hn)
  have hlast : w''.store.lastIndexed w''.store.policies.keys = w.store.lastIndexed w.store.policies.keys := by
    simp [Store.lastIndexed, hfields, hpol]
  rw [← hderived, mem_rows_rebuildSecondaryIndexes hvalid (nul_not_mem_of_validNs hn), hlast]
  refine and_congr_right fun _ => ?_
  rw [NsState.Indexes, NsState.Indexes, Store.winner_eq, Store.winner_eq, hreads.get, ← Store.indexFields_eq, hfields,
    Store.indexFields_eq]

/-- In every reachable store, `gc_live` preserves what readers see exactly if no key has a tombstone and an unexpired
version and the rows are those that a reopened store would have. -/
theorem gc_live_preserves_iff {w₀ : World} {cmds : List Cmd} {total : Nat} (h₀ : Opened w₀)
    (hrun : Run (guarded (fun w c => c.Valid w.store) Step) w₀ cmds w) (hc : (Cmd.gcLive now).Valid w.store)
    (hgc : gcLive now w = .ok total w') :
    GcPreserves now w w' ↔ w.store.NoneRevived now ∧ w.store.RowsSettle now := by
  obtain ⟨g, hs⟩ := h₀.run_sound (fun _ _ h => h) hrun
  have hat := hs.running.toAttached
  have hpeers : w.store.peerClocks.isEmpty = true := by
    by_contra hpeers
    simp only [gcLive, refusePeers, Exec.bind_apply, Exec.get_apply, hpeers, if_false, Exec.throw_apply] at hgc
    cases hgc
  obtain ⟨total', w₁, g₁, disk, points, hgc', hloop, hrunning⟩ := @gcLive_spec _ w g now hat hs.sized hc hpeers
  rw [hgc] at hgc'
  cases hgc'
  have hall := compactedAll_of_run hat hloop
  have hlast : w₁.store.lastIndexed w₁.store.policies.keys = w.store.lastIndexed w.store.policies.keys := by
    simp [Store.lastIndexed, hall.fields, hall.policies]
  have hreopen := reopened_of_snapshot hrunning
  rw [← hall.absent_iff, ← hall.rows_iff, ← hlast]
  constructor
  · intro hp
    refine ⟨hp.absent, fun n hn f fv k => ?_⟩
    obtain ⟨w'', hopen, -, hrows⟩ := hreopen w₁.store points false 0
    obtain ⟨w₂, hopen₂, -, hsame⟩ := hp.reopens w₁.store points false 0
    obtain rfl : w'' = w₂ := by
      rw [hopen] at hopen₂
      cases hopen₂
      rfl
    rw [← hrows n f fv k hn, (Store.sameLookups_iff.1 (hsame n hn)) f fv k]
  · rintro ⟨habsent, hrows⟩
    refine ⟨fun n k e he => hall.reads he, habsent, fun n => ?_, fun n => ?_, fun n f start fv k hn hmem => ?_,
      fun s points durable opened => ?_⟩
    · exact congrArg (fun m : BMap Bytes Bytes => m[schemaKey n]?) hall.metaMap
    · exact congrArg (fun m : BMap Bytes Bytes => m[indexKey n]?) hall.metaMap
    · rw [Store.indexLookup_eq] at hmem
      have hrow := (hrows n hn f fv k).1 (ExtTreeSet.mem_toList.1 ((List.dropWhile_sublist _).subset hmem))
      obtain ⟨-, v, hv, hfv⟩ := hrow.2
      rw [Store.winner_eq] at hv
      obtain ⟨e, he, hv⟩ := Option.bind_eq_some_iff.1 hv
      exact ⟨e, v, he, hv, hfv⟩
    · obtain ⟨w'', hopen, hreads, hrows''⟩ := hreopen s points durable opened
      refine ⟨w'', hopen, hreads, fun n hn => Store.sameLookups_iff.2 fun f fv k => ?_⟩
      rw [hrows'' n f fv k hn]
      exact (hrows n hn f fv k).symm

omit [Crates] in
theorem Store.noneRevived_of_tombs (h : ∀ x ∈ s.tombs.toList, ∀ e ∈ s.index[x.1]?, e.kept now = []) :
    s.NoneRevived now := by
  intro ns k e he ht
  obtain ⟨hlc, ht⟩ := Option.ne_none_iff_exists'.1 ht
  exact h ((ns, k), hlc) (ExtTreeMap.mem_toList_iff_getElem?_eq_some.2 ht) e he

theorem Store.rowsSettle_of_unindexed (hrows : s.secIndex.isEmpty) (hfields : ∀ ns, s.indexFields ns = []) :
    s.RowsSettle now := by
  have hnone : ∀ ns f fv k, (fv, k) ∉ s.rows ns f := by
    intro ns f fv k
    rw [Store.rows, rowsUnder, ExtTreeMap.isEmpty_iff.1 hrows]
    simp
  refine fun ns _ => ⟨fun _ f fv k => iff_of_false (hnone ns f fv k) ?_, fun _ => ⟨fun f fv k hmem => ?_, ?_⟩⟩
  · rintro ⟨-, hf, -⟩
    rw [← Store.indexFields_eq, hfields] at hf
    cases hf
  · exact absurd hmem (hnone ns f fv k)
  · intro _ f hf
    rw [hfields] at hf
    cases hf

end

def gcAfter [Crates] (cmds : List Cmd) : Option (World × World) :=
  (freshRun (fun w c => c.Valid w.store) cmds).bind fun w =>
    if (Cmd.gcLive 5).Valid w.store then (Exec.okResult (gcLive 5 w)).map fun x => (w, x.2) else none

theorem gcAfter_sound [Crates] {cmds : List Cmd} {x : World × World} (h : gcAfter cmds = some x) : ∃ w0 total, Opened w0 ∧
    Run (guarded (fun w c => c.Valid w.store) Step) w0 cmds x.1 ∧ (Cmd.gcLive 5).Valid x.1.store ∧
      gcLive 5 x.1 = .ok total x.2 := by
  obtain ⟨w, hw, hgc⟩ := Option.bind_eq_some_iff.1 h
  split_ifs at hgc with hc
  obtain ⟨⟨total, w'⟩, hok, rfl⟩ := Option.map_eq_some_iff.1 hgc
  obtain ⟨w0, h0, hrun⟩ := freshRun_sound hw
  exact ⟨w0, total, h0, hrun, hc, Exec.okResult_eq_some.1 hok⟩

set_option maxRecDepth 100000 in
/-- A namespace with a key that stays, one that expires and one that is deleted. -/
theorem gc_live_preserves_iff_unindexed : letI := Crates.trivial
    ∃ w₀ w w' total, Opened w₀ ∧ Run (guarded (fun w c => c.Valid w.store) Step) w₀
      [.createNamespace [97] .lww, .put [97] [1] [10] 1 .zero .zero 0, .put [97] [2] [20] 2 .zero .zero 3,
        .put [97] [3] [30] 3 .zero .zero 0, .delete [97] [3] 4 .zero .zero] w ∧
      gcLive 5 w = .ok total w' ∧ GcPreserves 5 w w' := by
  have h : letI := Crates.trivial
      ((gcAfter [.createNamespace [97] .lww, .put [97] [1] [10] 1 .zero .zero 0, .put [97] [2] [20] 2 .zero .zero 3,
        .put [97] [3] [30] 3 .zero .zero 0, .delete [97] [3] 4 .zero .zero]).any fun x =>
          x.1.store.secIndex.isEmpty && decide (∀ y ∈ x.1.store.tombs.toList, ∀ e ∈ x.1.store.index[y.1]?,
            e.kept 5 = [])) = true := by decide +kernel
  let _ := Crates.trivial
  obtain ⟨⟨w, w'⟩, hw, hstate⟩ := (Option.any_eq_true ..).1 h
  obtain ⟨w₀, total, h₀, hrun, hc, hgc⟩ := gcAfter_sound hw
  rw [Bool.and_eq_true, decide_eq_true_eq] at hstate
  refine ⟨w₀, w, w', total, h₀, hrun, hgc, (gc_live_preserves_iff h₀ hrun hc hgc).2 ⟨?_, ?_⟩⟩
  · exact Store.noneRevived_of_tombs hstate.2
  · refine Store.rowsSettle_of_unindexed hstate.1 fun ns => ?_
    unfold Store.indexFields
    cases w.store.indexDef ns <;> rfl

def GcBreaks [Crates] (cmds : List Cmd) : Prop :=
  ∃ w₀ w w' total, Opened w₀ ∧ Run (guarded (fun w c => c.Valid w.store) Step) w₀ cmds w ∧
    (Cmd.gcLive 5).Valid w.store ∧ gcLive 5 w = .ok total w' ∧ ¬ GcPreserves 5 w w'

theorem gcBreaks_of_run [Crates] {cmds : List Cmd} (seen : World → World → Bool)
    (hseen : ∀ w w', seen w w' = true → ¬ GcPreserves 5 w w')
    (h : ((gcAfter cmds).any fun x => seen x.1 x.2) = true) : GcBreaks cmds := by
  obtain ⟨⟨w, w'⟩, hw, hx⟩ := (Option.any_eq_true ..).1 h
  obtain ⟨w0, total, h0, hrun, hc, hgc⟩ := gcAfter_sound hw
  exact ⟨w0, w, w', total, h0, hrun, hc, hgc, hseen w w' hx⟩

def revives (ns k : Bytes) (w w' : World) : Bool := (w.store.get ns k).isNone && (w'.store.get ns k).isSome

def leavesRow [Crates] (ns f fv k : Bytes) (_ w' : World) : Bool :=
  validNs ns && (w'.store.indexLookup ns f []).contains (fv, k) && (w'.store.get ns k).isNone

def losesRow [Crates] (ns f fv k : Bytes) (_ w' : World) : Bool :=
  validNs ns && (w'.store.indexLookup ns f []).contains (fv, k) &&
    (Exec.okState (openDurable false 0 w')).any fun w'' => !(w''.store.indexLookup ns f []).contains (fv, k)

section

variable [Crates]
variable {w w' : World}

theorem not_preserves_of_revives (h : revives ns k w w' = true) : ¬ GcPreserves now w w' := by
  intro hp
  rw [revives, Bool.and_eq_true, Option.isNone_iff_eq_none] at h
  rw [hp.absent ns k h.1] at h
  exact absurd h.2 (by simp)

theorem not_preserves_of_leavesRow {f fv : Bytes} (h : leavesRow ns f fv k w w' = true) : ¬ GcPreserves now w w' := by
  intro hp
  rw [leavesRow, Bool.and_eq_true, Bool.and_eq_true, List.contains_iff_mem, Option.isNone_iff_eq_none] at h
  obtain ⟨e, v, he, -⟩ := hp.rows ns f [] fv k h.1.1 h.1.2
  rw [h.2] at he
  cases he

theorem not_preserves_of_losesRow {f fv : Bytes} (h : losesRow ns f fv k w w' = true) : ¬ GcPreserves now w w' := by
  intro hp
  rw [losesRow, Bool.and_eq_true, Bool.and_eq_true, Option.any_eq_true] at h
  obtain ⟨⟨hns, hrow⟩, w'', hopen, hgone⟩ := h
  obtain ⟨w2, hopen2, -, hsame⟩ := hp.reopens w'.store w'.points false 0
  obtain rfl : w'' = w2 := by
    have hopen := Exec.okState_eq_some.1 hopen
    rw [hopen] at hopen2
    cases hopen2
    rfl
  rw [hsame ns hns, hrow] at hgone
  cases hgone

end

set_option maxRecDepth 100000 in
/-- A deleted key, put again by a synced record, comes back; the row of a key that has expired stays; the row of the
first of two indexed namespaces is gone once the directory is opened. -/
theorem gc_live_not_preserved : letI := Crates.oneField
    GcBreaks [.createNamespace [97] .lww, .delete [97] [1] 2 .zero .zero,
      .applySynced [97] (putRecord [1] [10] 1 .zero .zero 0)] ∧
    GcBreaks [.createNamespace [97] .lww, .put [97] [1] (str "\x7b\"f\":1\x7d") 1 .zero .zero 3,
      .put [97] [2] [] 2 .zero .zero 0, .setIndex [97] (some (str "[\"f\"]")) 3 .zero .zero] ∧
    GcBreaks [.createNamespace [97] .lww, .createNamespace [98] .lww,
      .setIndex [97] (some (str "[\"f\"]")) 1 .zero .zero, .setIndex [98] (some (str "[\"f\"]")) 2 .zero .zero,
      .put [97] [1] (str "\x7b\"f\":1\x7d") 3 .zero .zero 0] := by
  let _ := Crates.oneField
  refine ⟨?_, ?_, ?_⟩
  · exact gcBreaks_of_run (revives [97] [1]) (fun _ _ => not_preserves_of_revives) (by decide +kernel)
  · exact gcBreaks_of_run (leavesRow [97] (str "f") (str "1") [1]) (fun _ _ => not_preserves_of_leavesRow)
      (by decide +kernel)
  · exact gcBreaks_of_run (losesRow [97] (str "f") (str "1") [1]) (fun _ _ => not_preserves_of_losesRow)
      (by decide +kernel)

end BunnyMesh
