import BunnyMesh.Storage.SecIndex
import BunnyMesh.Storage.Visible

/-!
# Is the secondary index exact?

The rows of a namespace are exact if they are the ones its definition and its readable values ask for.  Every write
keeps them so, since it derives the rows of its keys anew.  What does not: a definition set while other namespaces or
dropped fields have rows, compaction of a key whose versions have all expired, and opening a directory in which two
namespaces have something to index.
-/

namespace BunnyMesh

open Std Store
open Runs (Run guarded)

section

variable [Crates]
variable {s s' : Store} {ns n : Bytes} {keys : List Bytes}

/-- The rows of a namespace are those of its readable values. -/
def Store.ExactAt (s : Store) (ns : Bytes) : Prop :=
  ∀ f fv k, (fv, k) ∈ s.rows ns f ↔ f ∈ s.indexFields ns ∧
    ∃ e v, s.get ns k = some e ∧ latestEntryValue e = some v ∧ fv ∈ fieldValues v.value f

def Store.IndexExact (s : Store) : Prop := ∀ ns, validNs ns → s.ExactAt ns

theorem Store.exactAt_iff : s.ExactAt ns ↔ ∀ f fv k, (fv, k) ∈ s.rows ns f ↔ (s.view ns).Indexes f fv k := by
  refine forall_congr' fun f => forall_congr' fun fv => forall_congr' fun k => iff_congr Iff.rfl ?_
  rw [NsState.Indexes, Store.indexFields_eq, Store.winner_eq]
  refine and_congr_right fun _ => ?_
  simp only [Option.bind_eq_some_iff]
  constructor
  · rintro ⟨e, v, he, hv, hfv⟩
    exact ⟨v, ⟨e, he, hv⟩, hfv⟩
  · rintro ⟨v, ⟨e, he, hv⟩, hfv⟩
    exact ⟨e, v, he, hv, hfv⟩

theorem Store.exactAt_congr (hrows : ∀ f fv k, (fv, k) ∈ s'.rows n f ↔ (fv, k) ∈ s.rows n f)
    (hview : s'.view n = s.view n) : s'.ExactAt n ↔ s.ExactAt n := by
  simp [Store.exactAt_iff, hrows, hview]

/-! ### Writes -/

theorem Refreshes.exactAt_of_ne (h : Refreshes ns keys s s') (hview : ∀ n, n ≠ ns → s'.view n = s.view n)
    (hn : validNs n) (hne : n ≠ ns) : s'.ExactAt n ↔ s.ExactAt n :=
  exactAt_congr (fun f fv k => h.other n f fv k (nul_not_mem_of_validNs hn) fun hc => hne hc.1) (hview n hne)

theorem Refreshes.exactAt (h : Refreshes ns keys s s') (hns : validNs ns) (hx : s.ExactAt ns) : s'.ExactAt ns := by
  rw [Store.exactAt_iff] at hx ⊢
  intro f fv k
  by_cases hcell : f ∈ (s.view ns).fields ∧ k ∈ keys
  · exact h.own f fv k hcell.1 hcell.2
  · rw [h.other ns f fv k (nul_not_mem_of_validNs hns) fun hc => hcell hc.2, hx f fv k]
    unfold NsState.Indexes NsState.winner
    rw [h.fields]
    refine and_congr_right fun hf => ?_
    rw [h.slot k fun hk => hcell ⟨hf, hk⟩]

theorem Refreshes.indexExact (h : Refreshes ns keys s s') (hns : validNs ns)
    (hview : ∀ n, n ≠ ns → s'.view n = s.view n) (hx : s.IndexExact) : s'.IndexExact := by
  intro n hn
  rcases eq_or_ne n ns with rfl | hne
  · exact h.exactAt hn (hx n hn)
  · exact (h.exactAt_of_ne hview hn hne).2 (hx n hn)

/-! ### All rows -/

def Store.AllRows (s : Store) (P : Bytes → Bytes → EntryKey → Prop) : Prop :=
  ∀ x ∈ s.namespaces, ∀ f ∈ s.indexFields x.1, ∀ row ∈ (s.rows x.1 f).toList, P x.1 f row

instance (s : Store) (P : Bytes → Bytes → EntryKey → Prop) [∀ ns f row, Decidable (P ns f row)] :
    Decidable (s.AllRows P) :=
  inferInstanceAs (Decidable (∀ x ∈ s.namespaces, ∀ f ∈ s.indexFields x.1, ∀ row ∈ (s.rows x.1 f).toList, _))

/-- The namespaces have valid names, and a namespace that does not exist has nothing. -/
structure Store.Tidy (s : Store) : Prop where
  valid : ∀ n : Bytes, s.policies[n]? ≠ none → validNs n
  outside : ∀ n : Bytes, s.policies[n]? = none → s.view n = NsState.empty

theorem Attached.tidy {w : World} {g : History} (h : Attached w g) : w.store.Tidy := ⟨h.files.valid, h.outside⟩

variable {f fv k : Bytes}

theorem Store.Tidy.policy_of_row (hs : s.Tidy) (hx : s.ExactAt n) (hmem : (fv, k) ∈ s.rows n f) :
    s.policies[n]? ≠ none := by
  intro hp
  have hindexes := (Store.exactAt_iff.1 hx f fv k).1 hmem
  rw [hs.outside n hp] at hindexes
  exact absurd hindexes.1 List.not_mem_nil

theorem Store.allRows_iff {P : Bytes → Bytes → EntryKey → Prop} (hs : s.Tidy) (hx : s.IndexExact) :
    s.AllRows P ↔ ∀ n f fv k, validNs n → (fv, k) ∈ s.rows n f → P n f (fv, k) := by
  constructor
  · intro h n f fv k hn hmem
    obtain ⟨p, hp⟩ := Option.ne_none_iff_exists'.1 (hs.policy_of_row (hx n hn) hmem)
    exact h (n, p) (ExtTreeMap.mem_toList_iff_getElem?_eq_some.2 hp) f ((hx n hn f fv k).1 hmem).1 _
      (ExtTreeSet.mem_toList.2 hmem)
  · intro h x hx' f hf row hrow
    have hp := ExtTreeMap.mem_toList_iff_getElem?_eq_some.1 hx'
    exact h x.1 f row.1 row.2 (hs.valid x.1 (by rw [hp]; simp)) (ExtTreeSet.mem_toList.1 hrow)

/-! ### Definitions -/

/-- No namespace but `ns` has rows, and `ns` only for the given fields. -/
def Store.RowsWithin (s : Store) (ns : Bytes) (fields : List Bytes) : Prop := s.AllRows fun n f _ => n = ns ∧ f ∈ fields

instance (s : Store) (ns : Bytes) (fields : List Bytes) : Decidable (s.RowsWithin ns fields) :=
  inferInstanceAs (Decidable (s.AllRows _))

/-- A definition is set: the rows stay exact if it drops none that it should keep and keeps none that it should drop. -/
theorem indexExact_rebuild_iff (hs : s.Tidy) (hx : s.IndexExact) (hns : validNs ns) (value : Option Bytes) :
    (Store.rebuildSecIndexNs { s with metaMap := OrdMap.setOrErase s.metaMap (indexKey ns) value } ns).IndexExact ↔
      s.RowsWithin ns (indexedFields value) := by
  have hnul : (0 : UInt8) ∉ ns := nul_not_mem_of_validNs hns
  have hb := s.becomes_indexDef ns value
  generalize hs1 : { s with metaMap := OrdMap.setOrErase s.metaMap (indexKey ns) value } = s1 at hb
  have hcore : (s1.rebuildSecIndexNs ns).core = s1.core := core_rebuildSecIndexNs s1 ns
  have hrows : ∀ n f, s1.rows n f = s.rows n f := by
    intro n f
    rw [← hs1]
    rfl
  have hview : (s1.rebuildSecIndexNs ns).view ns = { s.view ns with indexDef := value } := (hb.of_core hcore).view_eq
  rw [Store.RowsWithin, Store.allRows_iff hs hx]
  constructor
  · intro hx' n f fv k hn hmem
    have hcell := Store.exactAt_iff.1 (hx' n hn) f fv k
    rw [mem_rows_rebuild hnul (nul_not_mem_of_validNs hn), hrows] at hcell
    rcases eq_or_ne n ns with rfl | hne
    · refine ⟨rfl, ?_⟩
      by_contra hf
      -- the row of a dropped field is left where it was
      have hkept : f ∉ (s1.view n).fields := by
        rw [hb.view_eq]
        exact hf
      have hindexes := hcell.1 ⟨rfl, .inr ⟨hmem, fun hc => hkept hc.1⟩⟩
      rw [hview] at hindexes
      exact hf hindexes.1
    · rw [Store.view_of_core hcore, hb.toOnlyNs.view hne] at hcell
      exact absurd (hcell.2 ((Store.exactAt_iff.1 (hx n hn) f fv k).1 hmem)).1 hne
  · intro h n hn
    rw [Store.exactAt_iff]
    intro f fv k
    have hold := Store.exactAt_iff.1 (hx n hn) f fv k
    rw [mem_rows_rebuild hnul (nul_not_mem_of_validNs hn), hrows, Store.view_of_core hcore]
    rcases eq_or_ne n ns with rfl | hne
    · rw [eq_self_iff_true, true_and, or_iff_left]
      rintro ⟨hmem, hcell⟩
      obtain ⟨-, v, hv, -⟩ := hold.1 hmem
      refine hcell ⟨?_, winner_mem_liveKeys (v := v) ?_⟩
      · rw [hb.view_eq]
        exact (h n f fv k hn hmem).2
      · rw [hb.view_eq]
        exact hv
    · rw [hb.toOnlyNs.view hne, ← hold]
      exact iff_of_false (fun hc => hne hc.1) fun hmem => hne (h n f fv k hn hmem).1

/-! ### Logged changes -/

variable {w w' : World} {g g' : History} {p : ConflictPolicy} {c : Change}

/-- A change that defines fields meets no rows but those of its namespace and its fields. -/
def Change.KeepsRows (s : Store) (ns : Bytes) : Change → Prop
  | write _ => True
  | schema _ _ _ _ => True
  | index value _ _ _ => s.RowsWithin ns (indexedFields value)
  | synced r => r.tag = tagIndex → s.RowsWithin ns (indexedFields (NsState.definition r.value))

instance (s : Store) (ns : Bytes) (c : Change) : Decidable (c.KeepsRows s ns) := by
  cases c <;> delta Change.KeepsRows <;> infer_instance

theorem applyRecord_index (ns : Bytes) {r : Record} (h : r.tag = tagIndex) (seq : Nat) (s : Store) : applyRecord ns r seq s =
    .ok () (Store.rebuildSecIndexNs
      { s with metaMap := OrdMap.setOrErase s.metaMap (indexKey ns) (NsState.definition r.value) } ns) := by
  unfold applyRecord
  rw [if_neg (by rw [h]; decide), if_neg (by rw [h]; decide), if_neg (by rw [h]; decide), if_pos h]
  exact Exec.bind_ok (setOrClear_apply ..)

theorem Logged.indexExact_iff (h : Attached w g) (hx : w.store.IndexExact) (hl : Logged ns p c w g w') :
    w'.store.IndexExact ↔ c.KeepsRows w.store ns := by
  obtain ⟨-, -, -, -, hview⟩ := hl.spec h
  obtain @⟨log, log', s', effects, points, hp, hwf, -, -, hact, -⟩ := hl
  have hns : validNs ns := h.files.valid ns (by rw [hp]; simp)
  have hnul : (0 : UInt8) ∉ ns := nul_not_mem_of_validNs hns
  have hs : ((w.store.setLog ns log').view ns).Shaped p := h.shaped ns p hp
  have hrefresh : ∀ {keys : List Bytes}, Refreshes ns keys (w.store.setLog ns log') s' → s'.IndexExact :=
    fun hr => hr.indexExact hns hview hx
  cases c with
  | write r =>
    exact iff_true_intro (hrefresh (refreshes_forM_applyLocalOp hnul hp hs hwf.dataOps_tag hact))
  | schema value hlc replica author =>
    cases hact
    exact iff_true_intro (hrefresh (refreshes_schema (w.store.setLog ns log') ns value).bump)
  | index value hlc replica author =>
    cases hact
    exact indexExact_rebuild_iff (s := w.store.setLog ns log') ⟨h.files.valid, h.outside⟩ hx hns value
  | synced r =>
    by_cases htag : r.tag = tagIndex
    · have hrun := Exec.bind_ok (f := fun _ => bumpRevision) (applyRecord_index ns htag
        ((g.records ns).length + 1) (w.store.setLog ns log'))
      rw [Change.act, hrun] at hact
      cases hact
      rw [Change.KeepsRows, imp_iff_right htag]
      exact indexExact_rebuild_iff (s := w.store.setLog ns log') ⟨h.files.valid, h.outside⟩ hx hns _
    · have hwf : r.WellFormed := hwf
      obtain ⟨s1, hrun, -, -⟩ := applyRecord_spec (s := w.store.setLog ns log') hp hs hwf ((g.records ns).length + 1)
      rw [Change.act, Exec.bind_ok (f := fun _ => bumpRevision) hrun] at hact
      cases hact
      have hr := (refreshes_applyRecord (s := w.store.setLog ns log') hnul hp hs hwf htag hrun).bump
      exact iff_of_true (hrefresh hr) fun ht => absurd ht htag

/-! ### Compaction -/

variable {now : UInt64} {rs : List Record}

def keysOf (rs : List Record) : List Bytes := (rs.flatMap Record.dataOps).map Op.key

omit [Crates] in
theorem mem_keysOf : k ∈ keysOf rs ↔ opsOn k rs ≠ [] := by
  rw [keysOf, List.mem_map]
  constructor
  · rintro ⟨op, hop, hk⟩ hnil
    exact List.filter_eq_nil_iff.1 hnil op hop (decide_eq_true hk)
  · intro hne
    obtain ⟨op, hop⟩ := List.exists_mem_of_ne_nil _ hne
    obtain ⟨hop, hk⟩ := List.mem_filter.1 hop
    exact ⟨op, hop, of_decide_eq_true hk⟩

omit [Crates] in
theorem mem_keysOf_compacted {e : Entry} (he : s.index[(ns, k)]? = some e) :
    k ∈ keysOf (compacted s ns now) ↔ e.kept now ≠ [] := by
  rw [mem_keysOf, compacted, opsOn_append, opsOn_putRecords, opsOn_delRecords, he]
  simp [keptOps]

theorem refreshes_applyRecords {seq : Nat} (hns : (0 : UInt8) ∉ ns) (hp : s.policies[ns]? = some p)
    (hs : (s.view ns).Shaped p) (hwf : ∀ r ∈ rs, r.WellFormed) (htag : ∀ r ∈ rs, r.tag ≠ tagIndex)
    (hrun : applyRecords ns seq rs s = .ok () s') : Refreshes ns (keysOf rs) s s' := by
  induction rs generalizing s seq with
  | nil =>
    cases hrun
    exact .refl ns _
  | cons r rs ih =>
    obtain ⟨hr, hwf⟩ := List.forall_mem_cons.1 hwf
    obtain ⟨ht, htag⟩ := List.forall_mem_cons.1 htag
    obtain ⟨s1, h1, hb, -⟩ := applyRecord_spec hp hs hr seq
    rw [applyRecords, Exec.bind_ok h1] at hrun
    have hrest := ih (by rw [hb.policies, hp]) (by rw [hb.view_eq]; exact hs.record seq r) hwf htag hrun
    rw [keysOf, List.flatMap_cons, List.map_append]
    exact (refreshes_applyRecord hns hp hs hr ht h1).trans hrest hns

/-- A row of a namespace that is rewritten has a key with a version left. -/
def Store.RowOutlives (s : Store) (now : UInt64) (ns : Bytes) (row : EntryKey) : Prop :=
  compacted s ns now ≠ [] → ∀ e ∈ s.index[(ns, row.2)]?, e.kept now ≠ []

def Store.RowsOutlive (s : Store) (now : UInt64) : Prop := s.AllRows fun ns _ row => s.RowOutlives now ns row

instance (s : Store) (now : UInt64) (ns : Bytes) (row : EntryKey) : Decidable (s.RowOutlives now ns row) :=
  inferInstanceAs (Decidable (compacted s ns now ≠ [] → ∀ e ∈ s.index[(ns, row.2)]?, e.kept now ≠ []))

instance (s : Store) (now : UInt64) : Decidable (s.RowsOutlive now) := inferInstanceAs (Decidable (s.AllRows _))

/-- A namespace that is rewritten: the cells of the keys written are derived anew, and the others are left alone. -/
theorem refreshes_rewritten {log : Log} (hns : validNs ns) (hp : s.policies[ns]? = some p)
    (hsz : (s.view ns).Sized)
    (hact : applyRecords ns 1 (compacted s ns now) ((s.setLog ns log).dropNs ns) = .ok () s') :
    Refreshes ns (keysOf (compacted s ns now)) ((s.setLog ns log).dropNs ns) s' := by
  have hshaped : (((s.setLog ns log).dropNs ns).view ns).Shaped p := by
    rw [(becomes_dropNs (s.setLog ns log) ns).view_eq]
    exact NsState.shaped_empty p
  refine refreshes_applyRecords (nul_not_mem_of_validNs hns) hp hshaped (compacted_wellFormed hsz now) (fun r hr => ?_)
    hact
  intro htag
  have hop := compacted_tag s ns now r hr
  rw [htag] at hop
  exact absurd hop (by decide)

def Store.Rederives (s : Store) (now : UInt64) (ns f k : Bytes) : Prop :=
  f ∈ (s.view ns).fields ∧ k ∈ keysOf (compacted s ns now)

theorem Store.rederives_congr (h : s.view n = s'.view n) : s.Rederives now n f k ↔ s'.Rederives now n f k := by
  rw [Store.Rederives, Store.Rederives, h, compacted_congr h]

theorem CompactStep.rows_iff (hs : CompactStep now (w, g) ns (w', g')) (hns : validNs ns) (hn : validNs n)
    (f fv k : Bytes) :
    (n = ns ∧ w.store.Rederives now n f k → ((fv, k) ∈ w'.store.rows n f ↔ (w'.store.view n).Indexes f fv k)) ∧
      (¬ (n = ns ∧ w.store.Rederives now n f k) → ((fv, k) ∈ w'.store.rows n f ↔ (fv, k) ∈ w.store.rows n f)) := by
  cases hs with
  | untouched nothing =>
    refine ⟨?_, fun _ => Iff.rfl⟩
    rintro ⟨rfl, -, hk⟩
    rw [nothing] at hk
    cases hk
  | @rewritten _ _ _ p log s' disk points policy sized something act attached snap =>
    have hr := refreshes_rewritten hns policy sized act
    have hfields : (((w.store.setLog ns log).dropNs ns).view ns).fields = (w.store.view ns).fields := by
      rfl
    constructor
    · rintro ⟨rfl, hf, hk⟩
      exact hr.own f fv k (by rw [hfields]; exact hf) hk
    · intro hcell
      refine hr.other n f fv k (nul_not_mem_of_validNs hn) ?_
      rintro ⟨rfl, hf, hk⟩
      exact hcell ⟨rfl, by rw [← hfields]; exact hf, hk⟩

theorem compactRun_rows_iff {nss : List Bytes} (hrun : Run (CompactStep now) (w, g) nss (w', g')) (hnodup : nss.Nodup)
    (hnss : ∀ ns ∈ nss, w.store.policies[ns]? ≠ none) (hvalid : ∀ ns ∈ nss, validNs ns) (hn : validNs n)
    (f fv k : Bytes) :
    (n ∈ nss ∧ w.store.Rederives now n f k → ((fv, k) ∈ w'.store.rows n f ↔ (w'.store.view n).Indexes f fv k)) ∧
      (¬ (n ∈ nss ∧ w.store.Rederives now n f k) → ((fv, k) ∈ w'.store.rows n f ↔ (fv, k) ∈ w.store.rows n f)) := by
  -- the pass over `n` itself decides, those before and after it leave `n` alone
  induction nss generalizing w g with
  | nil =>
    cases hrun
    exact ⟨fun hc => (nomatch hc.1), fun _ => Iff.rfl⟩
  | cons ns nss ih =>
    rw [List.nodup_cons] at hnodup
    obtain ⟨hp, hnss⟩ := List.forall_mem_cons.1 hnss
    obtain ⟨hns, hvalid'⟩ := List.forall_mem_cons.1 hvalid
    obtain ⟨p, hp⟩ := Option.ne_none_iff_exists'.1 hp
    cases hrun with
    | @cons _ x _ _ _ first rest =>
      obtain ⟨w1, g1⟩ := x
      obtain ⟨hpol, -, -, -, -, -, -, hview⟩ := first.spec hp
      have hnss1 : ∀ ns ∈ nss, w1.store.policies[ns]? ≠ none := by rw [hpol]; exact hnss
      have hrest := ih rest hnodup.2 hnss1 hvalid'
      have hfirst := first.rows_iff hns hn f fv k
      rcases eq_or_ne n ns with rfl | hne
      · obtain ⟨-, -, -, -, -, -, hafter⟩ := compactRun_spec rest hnodup.2 hnss1
        rw [hrest.2 fun hc => hnodup.1 hc.1, hafter n hnodup.1]
        simpa using hfirst
      · rw [hfirst.2 fun hc => hne hc.1, Store.rederives_congr (hview n hne)] at hrest
        simpa [hne] using hrest

theorem rows_of_compacted (h : Attached w g)
    (hrun : Run (CompactStep now) (w, g) (w.store.namespaces.map (·.1)) (w', g')) (hn : validNs n) (f fv k : Bytes) :
    (w.store.Rederives now n f k → ((fv, k) ∈ w'.store.rows n f ↔ (w'.store.view n).Indexes f fv k)) ∧
      (¬ w.store.Rederives now n f k → ((fv, k) ∈ w'.store.rows n f ↔ (fv, k) ∈ w.store.rows n f)) := by
  have hnss : ∀ n ∈ w.store.namespaces.map (·.1), w.store.policies[n]? ≠ none :=
    fun n hn => (w.store.mem_names n).1 hn
  have hmem : w.store.Rederives now n f k → n ∈ w.store.namespaces.map (·.1) := by
    rintro ⟨hf, -⟩
    rw [w.store.mem_names]
    intro hp
    rw [h.outside n hp] at hf
    cases hf
  have hrows := compactRun_rows_iff hrun w.store.nodup_names hnss (fun n hn => h.files.valid n (hnss n hn)) hn f fv k
  exact ⟨fun hc => hrows.1 ⟨hmem hc, hc⟩, fun hc => hrows.2 fun hc' => hc hc'.2⟩

omit [Crates] in
theorem winner_compactedTo_of_not_mem (hne : compacted s ns now ≠ [])
    (hk : k ∉ keysOf (compacted s ns now)) : ((s.view ns).compactedTo p (compacted s ns now)).winner k = none := by
  have hslot : (((s.view ns).cleared.replay p 1 (compacted s ns now)).slot k).unseq = ⟨none, none⟩ := by
    rw [NsState.unseq_slot_replay, not_not.1 (mt mem_keysOf.2 hk)]
    rfl
  have hentry := Option.map_eq_none_iff.1 (congrArg Slot.entry hslot)
  unfold NsState.compactedTo NsState.winner Slot.visible
  rw [if_neg hne, hentry, ite_self]
  rfl

theorem indexExact_compacted_iff (h : Attached w g) (hx : w.store.IndexExact)
    (hrun : Run (CompactStep now) (w, g) (w.store.namespaces.map (·.1)) (w', g')) :
    w'.store.IndexExact ↔ w.store.RowsOutlive now := by
  obtain ⟨-, -, -, -, -, hview, hother⟩ := compactRun_spec hrun w.store.nodup_names
    fun n hn => (w.store.mem_names n).1 hn
  have hcompacted : ∀ {n : Bytes} {p}, w.store.policies[n]? = some p →
      w'.store.view n = (w.store.view n).compactedTo p (compacted w.store n now) := by
    intro n p hp
    exact hview n p ((w.store.mem_names n).2 (by rw [hp]; simp)) hp
  have hentry : ∀ {n f fv k}, validNs n → (fv, k) ∈ w.store.rows n f → ∃ e, w.store.index[(n, k)]? = some e := by
    intro n f fv k hn hmem
    obtain ⟨-, v, hv, -⟩ := (Store.exactAt_iff.1 (hx n hn) f fv k).1 hmem
    obtain ⟨e, -, he, -⟩ := mem_liveKeys.1 (winner_mem_liveKeys hv)
    exact ⟨e, he⟩
  rw [Store.RowsOutlive, Store.allRows_iff h.tidy hx]
  constructor
  · intro hx' n f fv k hn hmem hne e he
    rw [← mem_keysOf_compacted he]
    by_contra hk
    -- the row of a key that is gone is left where it was
    have hrow := ((rows_of_compacted h hrun hn f fv k).2 fun hc => hk hc.2).2 hmem
    obtain ⟨-, v, hv, -⟩ := (Store.exactAt_iff.1 (hx' n hn) f fv k).1 hrow
    obtain ⟨p, hp⟩ := Option.ne_none_iff_exists'.1 (h.tidy.policy_of_row (hx n hn) hmem)
    rw [hcompacted hp, winner_compactedTo_of_not_mem hne hk] at hv
    cases hv
  · intro hall n hn
    rw [Store.exactAt_iff]
    intro f fv k
    by_cases hcell : w.store.Rederives now n f k
    · exact (rows_of_compacted h hrun hn f fv k).1 hcell
    · rw [(rows_of_compacted h hrun hn f fv k).2 hcell]
      have hold := Store.exactAt_iff.1 (hx n hn) f fv k
      cases hp : w.store.policies[n]? with
      | none =>
        rw [hother n fun hmem => (w.store.mem_names n).1 hmem hp]
        exact hold
      | some p =>
        by_cases hne : compacted w.store n now = []
        · rw [hcompacted hp, NsState.compactedTo, if_pos hne]
          exact hold
        · have hfields : (w'.store.view n).fields = (w.store.view n).fields := by
            rw [hcompacted hp]
            exact congrArg indexedFields (NsState.compactedTo_defs p w.store n now (w.store.view n)).2
          refine iff_of_false (fun hmem => ?_) ?_
          · obtain ⟨e, he⟩ := hentry hn hmem
            exact hcell ⟨(hold.1 hmem).1, (mem_keysOf_compacted he).2 (hall n f fv k hn hmem hne e he)⟩
          · rintro ⟨hf, v, hv, -⟩
            rw [hfields] at hf
            rw [hcompacted hp, winner_compactedTo_of_not_mem hne fun hk => hcell ⟨hf, hk⟩] at hv
            cases hv

/-! ### Reopening -/

/-- The keys that opening the directory can find in a namespace. -/
def World.recoveredKeys (w : World) (ns : Bytes) : List Bytes :=
  (w.base.1.rangeOf ns).map (·.1) ++ keysOf (w.behind ns)

omit [Crates] in
theorem mem_recoveredKeys {v : Version} (hv : (w.recovered ns p).winner k = some v) : k ∈ w.recoveredKeys ns := by
  rw [World.recoveredKeys, List.mem_append, or_iff_not_imp_right]
  intro hk
  have hslot : ((w.recovered ns p).slot k).unseq = ((w.base.1.view ns).slot k).unseq := by
    rw [World.recovered, NsState.unseq_slot_replay, not_not.1 (mt mem_keysOf.2 hk)]
    rfl
  -- nothing was replayed on the key, so its entry is the one of the snapshot
  obtain ⟨e, he, -⟩ := Option.bind_eq_some_iff.1 hv
  have hentry : ((w.recovered ns p).slot k).entry = some e := by
    unfold Slot.visible at he
    split at he
    · cases he
    · exact he
  have hbase : (w.base.1.index[(ns, k)]?).map Entry.unseq = some e.unseq := by
    have := congrArg Slot.entry hslot
    rw [Slot.unseq, Slot.unseq, hentry] at this
    exact this.symm
  obtain ⟨e', he', -⟩ := Option.map_eq_some_iff.1 hbase
  exact List.mem_map.2 ⟨(k, e'), (w.base.1.mem_rangeOf ns k e').2 he', rfl⟩

/-- The last namespace with indexed fields once the directory is opened. -/
def World.lastRecovered (w : World) : Option Bytes :=
  ((w.store.namespaces.filter fun x => !(w.recovered x.1 x.2).fields.isEmpty).map (·.1)).getLast?

/-- No namespace before the last one has anything to index. -/
def World.RecoversRows (w : World) : Prop :=
  ∀ x ∈ w.store.namespaces, w.lastRecovered = some x.1 ∨ ∀ k ∈ w.recoveredKeys x.1,
    ∀ v ∈ (w.recovered x.1 x.2).winner k, rowsOf (w.recovered x.1 x.2).fields v.value = []

instance (w : World) : Decidable w.RecoversRows :=
  inferInstanceAs (Decidable (∀ x ∈ w.store.namespaces, _ ∨ ∀ k ∈ w.recoveredKeys x.1,
    ∀ v ∈ (w.recovered x.1 x.2).winner k, rowsOf (w.recovered x.1 x.2).fields v.value = []))

theorem indexExact_reopened_iff (h : Sound (w, g)) (he : Happens (w, g) .reopened (w', g')) :
    w'.store.IndexExact ↔ w.RecoversRows := by
  cases he with
  | reopened running policies derived view =>
    have hvalid : ∀ n : Bytes, w'.store.policies[n]? ≠ none → (0 : UInt8) ∉ n :=
      fun n hn => nul_not_mem_of_validNs (running.files.valid n hn)
    have hview : ∀ {n : Bytes} {p}, w.store.policies[n]? = some p → w'.store.view n = w.recovered n p := by
      intro n p hp
      rw [view n p hp, (h.running.base_eq hp).2.2]
    have hlast : w'.store.lastIndexed w'.store.policies.keys = w.lastRecovered := by
      rw [Store.lastIndexed, World.lastRecovered, policies, ← ExtTreeMap.map_fst_toList_eq_keys, List.filter_map]
      congr 2
      refine List.filter_congr fun x hx => ?_
      rw [Function.comp_apply, Store.indexFields_eq, hview (ExtTreeMap.mem_toList_iff_getElem?_eq_some.1 hx)]
    have hrows : ∀ n f fv k, validNs n →
        ((fv, k) ∈ w'.store.rows n f ↔ w.lastRecovered = some n ∧ (w'.store.view n).Indexes f fv k) := by
      intro n f fv k hn
      rw [← hlast, ← mem_rows_rebuildSecondaryIndexes hvalid (nul_not_mem_of_validNs hn), derived]
    constructor
    · intro hx x hmem
      have hp := ExtTreeMap.mem_toList_iff_getElem?_eq_some.1 hmem
      have hn : validNs x.1 := h.running.files.valid x.1 (by rw [hp]; simp)
      rw [or_iff_not_imp_left]
      intro hne k _ v hv
      rw [List.eq_nil_iff_forall_not_mem]
      rintro ⟨f, fv⟩ hrow
      obtain ⟨hf, hfv⟩ := mem_rowsOf.1 hrow
      have hindexes : (w'.store.view x.1).Indexes f fv k := by
        rw [hview hp]
        exact ⟨hf, v, hv, hfv⟩
      exact hne ((hrows x.1 f fv k hn).1 ((Store.exactAt_iff.1 (hx x.1 hn) f fv k).2 hindexes)).1
    · intro hall n hn
      rw [Store.exactAt_iff]
      intro f fv k
      rw [hrows n f fv k hn, and_iff_right_iff_imp]
      intro hindexes
      cases hp : w.store.policies[n]? with
      | none =>
        rw [running.outside n (by rw [policies, hp])] at hindexes
        exact absurd hindexes.1 List.not_mem_nil
      | some p =>
        rw [hview hp] at hindexes
        obtain ⟨hf, v, hv, hfv⟩ := hindexes
        refine (hall (n, p) (ExtTreeMap.mem_toList_iff_getElem?_eq_some.2 hp)).resolve_right fun hnone => ?_
        have hnil := hnone k (mem_recoveredKeys hv) v hv
        exact List.eq_nil_iff_forall_not_mem.1 hnil (f, fv) (mem_rowsOf.2 ⟨hf, hfv⟩)

/-! ### Runs -/

variable {x x' : World × History} {e : Event} {cmd : Cmd}

def Event.KeepsRows (w : World) : Event → Prop
  | created _ _ => True
  | changed ns c => c.KeepsRows w.store ns
  | snapshot => True
  | reopened => w.RecoversRows
  | compacted now => w.store.RowsOutlive now

theorem Happens.indexExact_iff (h : Sound x) (hx : x.1.store.IndexExact) (he : Happens x e x') :
    x'.1.store.IndexExact ↔ e.KeepsRows x.1 := by
  cases he with
  | created valid fresh running => exact iff_of_true hx trivial
  | changed logged => exact logged.indexExact_iff h.running.toAttached hx
  | snapshot running => exact iff_of_true hx trivial
  | reopened running policies derived view => exact indexExact_reopened_iff h (.reopened running policies derived view)
  | @compacted w w1 g g1 now disk points run running =>
    have hiff : w1.store.IndexExact ↔ w.store.RowsOutlive now := indexExact_compacted_iff h.running.toAttached hx run
    exact hiff

/-- Of the records synced one after another, each that is new and defines fields meets no rows but those of its
namespace and its fields. -/
def World.SyncsRows (ns : Bytes) : World → List Record → Prop
  | _, [] => True
  | w, r :: rs => (∀ r' ∈ w.unseen ns [r], (Change.synced r').KeepsRows w.store ns) ∧
    SyncsRows ns (Exec.finalState (applySynced ns r w)) rs

instance World.decidableSyncsRows (ns : Bytes) : (w : World) → (rs : List Record) → Decidable (w.SyncsRows ns rs)
  | _, [] => .isTrue trivial
  | w, r :: rs =>
    haveI := decidableSyncsRows ns (Exec.finalState (applySynced ns r w)) rs
    inferInstanceAs (Decidable ((∀ r' ∈ w.unseen ns [r], (Change.synced r').KeepsRows w.store ns) ∧ _))

def Cmd.KeepsRows (w : World) : Cmd → Prop
  | setIndex ns value _ _ _ => w.store.policies[ns]? ≠ none → w.store.RowsWithin ns (indexedFields value)
  | applySynced ns record => w.store.policies[ns]? ≠ none → w.SyncsRows ns [record]
  | applySyncedBatch ns records => w.store.policies[ns]? ≠ none → w.SyncsRows ns records
  | gcLive now => w.store.peerClocks.isEmpty → w.store.RowsOutlive now
  | reopen _ _ => w.RecoversRows
  | createNamespace _ _ | put _ _ _ _ _ _ _ | delete _ _ _ _ _ | putBatch _ _ | setSchema _ _ _ _ _ | checkpoint => True

instance (w : World) (c : Cmd) : Decidable (c.KeepsRows w) := by
  induction c using Cmd.casesOn <;> dsimp only [Cmd.KeepsRows] <;> infer_instance

omit [Crates] in
theorem World.unseen_singleton (w : World) (ns : Bytes) (r : Record) :
    w.unseen ns [r] = [] ∨ w.unseen ns [r] = [r] := by
  unfold World.unseen
  split
  · unfold newRecords Shipping.unseen
    split
    · exact .inl rfl
    · exact .inr rfl
  · exact .inl rfl

theorem indexExact_synced_iff {r : Record} (h : Sound (w, g)) (hx : w.store.IndexExact)
    (hrun : Run Happens (w, g) ((w.unseen ns [r]).map fun r => .changed ns (.synced r)) (w', g')) :
    w'.store.policies = w.store.policies ∧
      (w'.store.IndexExact ↔ ∀ r' ∈ w.unseen ns [r], (Change.synced r').KeepsRows w.store ns) := by
  rcases w.unseen_singleton ns r with hnew | hnew
  · rw [hnew] at hrun ⊢
    cases hrun
    exact ⟨rfl, iff_of_true hx fun _ hr => (nomatch hr)⟩
  · rw [hnew] at hrun ⊢
    cases hrun with
    | cons first rest =>
      cases rest
      rw [first.indexExact_iff h hx, List.forall_mem_singleton]
      cases first with
      | changed logged => exact ⟨(logged.spec h.running.toAttached).2.1, Iff.rfl⟩

theorem indexExact_syncedEach {rs : List Record} {m : Nat} (h : Sound (w, g)) (hx : w.store.IndexExact)
    (hp : w.store.policies[ns]? = some p) (hwf : ∀ r ∈ rs, r.WellFormed) (hrows : w.SyncsRows ns rs)
    (hrun : applySyncedEach ns rs w = .ok m w') : w'.store.IndexExact := by
  -- along the records; each of them is an event or nothing
  induction rs generalizing w g m with
  | nil =>
    cases hrun
    exact hx
  | cons r rs ih =>
    obtain ⟨hr, hwf⟩ := List.forall_mem_cons.1 hwf
    obtain ⟨hfirst, hrest⟩ := hrows
    obtain ⟨w1, g1, hsynced, hevents⟩ := applySynced_spec h.running.toAttached hp hr
    rw [← World.unseen_eq h.running hp] at hevents
    have hsound := hevents.invariant (fun _ _ _ hs he => he.sound hs) h
    obtain ⟨hpol, hone⟩ := indexExact_synced_iff h hx hevents
    rw [hsynced, Exec.finalState_ok] at hrest
    rw [applySyncedEach, Exec.bind_ok hsynced] at hrun
    cases heach : applySyncedEach ns rs w1 with
    | ok n w2 =>
      rw [Exec.bind_ok heach] at hrun
      cases hrun
      exact ih hsound (hone.2 hfirst) (by rw [hpol, hp]) hwf hrest heach
    | error err w2 =>
      rw [Exec.bind_error heach] at hrun
      cases hrun

theorem Cmd.indexExact_iff (h : Sound (w, g)) (hx : w.store.IndexExact) (hc : cmd.Valid w.store)
    (hbatch : ∀ ns records, cmd ≠ .applySyncedBatch ns records) (hstep : Step w cmd w') :
    w'.store.IndexExact ↔ cmd.KeepsRows w := by
  rcases Cmd.outcome h hc with ⟨hdisabled, err, herr⟩ | ⟨w1, g1, hok, hevents⟩
  · -- an operation that is refused changes nothing
    obtain rfl : w' = w := by
      cases hstep with
      | ok run => rw [herr] at run; cases run
      | failed run => rw [herr] at run; cases run; rfl
    refine iff_of_true hx ?_
    cases cmd with
    | setIndex | applySynced | applySyncedBatch | gcLive => exact fun hp => absurd hp hdisabled
    | reopen => exact absurd trivial hdisabled
    | createNamespace | put | delete | putBatch | setSchema | checkpoint => trivial
  · obtain rfl : w' = w1 := by
      cases hstep with
      | ok run => rw [hok] at run; cases run; rfl
      | failed run => rw [hok] at run; cases run
    have hsingle : ∀ {e : Event}, Run Happens (w, g) [e] (w', g1) → (w'.store.IndexExact ↔ e.KeepsRows w) := by
      intro e hrun
      cases hrun with
      | cons first rest =>
        cases rest
        exact first.indexExact_iff h hx
    cases cmd with
    | createNamespace | put | delete | putBatch | setSchema | checkpoint | reopen => exact hsingle hevents
    | setIndex ns value hlc replica author =>
      have hp : w.store.policies[ns]? ≠ none := by
        obtain ⟨change, p, -, hlogged⟩ := Cmd.logged_of_events rfl hevents
        obtain ⟨hp, -, -, -, -⟩ := hlogged
        rw [hp]
        simp
      rw [Cmd.KeepsRows, imp_iff_right hp]
      exact hsingle hevents
    | gcLive now =>
      by_cases hpeers : w.store.peerClocks.isEmpty = true
      · rw [Cmd.KeepsRows, imp_iff_right hpeers]
        exact hsingle hevents
      · simp only [Cmd.run, BunnyMesh.gcLive, refusePeers, Exec.bind_apply, Exec.get_apply, hpeers, Bool.false_eq_true,
          if_false, Exec.throw_apply] at hok
        cases hok
    | applySynced ns record =>
      by_cases hp : w.store.policies[ns]? = none
      · simp only [Cmd.run, BunnyMesh.applySynced, Exec.bind_apply, requirePolicy_none hp] at hok
        cases hok
      · rw [Cmd.KeepsRows, imp_iff_right hp, World.SyncsRows, World.SyncsRows, and_true]
        exact (indexExact_synced_iff h hx hevents).2
    | applySyncedBatch ns records => exact absurd rfl (hbatch ns records)

theorem Cmd.indexExact_of_keepsRows (h : Sound (w, g)) (hx : w.store.IndexExact) (hc : cmd.Valid w.store)
    (hrows : cmd.KeepsRows w) (hstep : Step w cmd w') : w'.store.IndexExact := by
  by_cases hbatch : ∃ ns records, cmd = .applySyncedBatch ns records
  · obtain ⟨ns, records, rfl⟩ := hbatch
    cases hp : w.store.policies[ns]? with
    | none =>
      obtain rfl : w' = w := by
        cases hstep with
        | ok run =>
          simp only [Cmd.run, BunnyMesh.applySyncedBatch, Exec.bind_apply, requirePolicy_none hp] at run
          cases run
        | failed run =>
          simp only [Cmd.run, BunnyMesh.applySyncedBatch, Exec.bind_apply, requirePolicy_none hp] at run
          cases run
          rfl
      exact hx
    | some p =>
      obtain ⟨w1, hbatch, -⟩ := applySyncedBatch_spec h.running.toAttached hp hc
      have hrun := Exec.bind_ok (f := fun _ => (pure () : M Unit)) hbatch
      obtain rfl : w' = w1 := by
        cases hstep with
        | ok run => rw [Cmd.run, hrun] at run; cases run; rfl
        | failed run => rw [Cmd.run, hrun] at run; cases run
      rw [← applySyncedEach_eq_batch h.running.toAttached hp hc] at hbatch
      exact indexExact_syncedEach h hx hp hc (hrows (by rw [hp]; simp)) hbatch
  · push Not at hbatch
    exact (Cmd.indexExact_iff h hx hc hbatch hstep).2 hrows

theorem Opened.indexExact (h : Opened w) : w.store.IndexExact := by
  obtain ⟨hsound, hempty⟩ := h.sound
  have hview := h.view_empty
  obtain ⟨s, points, durable, now, hopen⟩ := h
  obtain ⟨w', hopen', -, -, -, hderived, -⟩ := openDurable_spec diskRep_empty s points durable now
  rw [hopen] at hopen'
  cases hopen'
  intro n hn
  rw [Store.exactAt_iff]
  intro f fv k
  have hnone : ¬ (w.store.view n).Indexes f fv k := by
    rw [hview]
    exact fun hc => absurd hc.1 List.not_mem_nil
  rw [← hderived, mem_rows_rebuildSecondaryIndexes
    (fun n hn => nul_not_mem_of_validNs (hsound.running.files.valid n hn)) (nul_not_mem_of_validNs hn), hderived]
  exact iff_of_false (fun hc => hnone hc.2) hnone

/-- In every run of operations that keep the rows, the index is exact, and one more operation, unless it is a batch,
leaves it exact exactly if it keeps them too. -/
theorem index_exact {w₀ : World} {cmds : List Cmd} (h₀ : Opened w₀)
    (hrun : Run (guarded (fun w c => c.Valid w.store ∧ c.KeepsRows w) Step) w₀ cmds w) :
    w.store.IndexExact ∧ ∀ c w', c.Valid w.store → (∀ ns records, c ≠ .applySyncedBatch ns records) →
      Step w c w' → (w'.store.IndexExact ↔ c.KeepsRows w) := by
  have hinv : ∃ g, Sound (w, g) ∧ w.store.IndexExact := by
    refine hrun.invariant (I := fun w => ∃ g, Sound (w, g) ∧ w.store.IndexExact) ?_ ⟨_, h₀.sound.1, h₀.indexExact⟩
    rintro w c w' ⟨g, hs, hx⟩ ⟨⟨hc, hrows⟩, hstep⟩
    have hx' := Cmd.indexExact_of_keepsRows hs hx hc hrows hstep
    rcases (Cmd.outcome hs hc).cases hstep with rfl | ⟨g', hevents⟩
    · exact ⟨g, hs, hx'⟩
    · exact ⟨g', hevents.invariant (fun _ _ _ hx he => he.sound hx) hs, hx'⟩
  obtain ⟨g, hs, hx⟩ := hinv
  exact ⟨hx, fun c w' hc hbatch hstep => Cmd.indexExact_iff hs hx hc hbatch hstep⟩

end

/-- Crates that parse the texts of the examples as JSON and nothing else. -/
@[reducible] def Crates.oneField : Crates where
  sha256 _ := .zero
  fromStrValue text := if text = str "\x7b\"f\":1\x7d" then some (.object [(str "f", .number (str "1"))]) else none
  fromStrStrings text := if text = str "[\"f\"]" then some [str "f"] else none

/-- Two namespaces with one value each, the first of them indexed. -/
def twoIndexed : List Cmd :=
  [.createNamespace [97] .lww, .put [97] [1] (str "\x7b\"f\":1\x7d") 1 .zero .zero 0,
    .setIndex [97] (some (str "[\"f\"]")) 2 .zero .zero,
    .createNamespace [98] .lww, .put [98] [2] (str "\x7b\"f\":1\x7d") 3 .zero .zero 0]

set_option maxRecDepth 100000 in
theorem index_exact_one_namespace : letI := Crates.oneField
    ∃ w₀ w, Opened w₀ ∧ Run (guarded (fun w c => c.Valid w.store ∧ c.KeepsRows w) Step) w₀
      (twoIndexed ++ [.checkpoint, .gcLive 5, .reopen false 0, .delete [97] [1] 4 .zero .zero]) w ∧
      w.store.IndexExact := by
  have h : letI := Crates.oneField
      (freshRun (fun w c => c.Valid w.store ∧ c.KeepsRows w)
        (twoIndexed ++ [.checkpoint, .gcLive 5, .reopen false 0, .delete [97] [1] 4 .zero .zero])).isSome = true := by
    decide +kernel
  let _ := Crates.oneField
  obtain ⟨w, hw⟩ := Option.isSome_iff_exists.1 h
  obtain ⟨w₀, h₀, hrun⟩ := freshRun_sound hw
  exact ⟨w₀, w, h₀, hrun, (index_exact h₀ hrun).1⟩

/-- A row that is stored although it should not be, or the other way round. -/
def Store.disagrees [Crates] (s : Store) (ns f fv k : Bytes) : Bool :=
  validNs ns && (decide ((fv, k) ∈ s.rows ns f) !=
    ((s.indexFields ns).contains f && ((s.get ns k).bind latestEntryValue).any fun v => (fieldValues v.value f).contains fv))

theorem not_indexExact_of_disagrees [Crates] {s : Store} {ns : Bytes} (h : s.disagrees ns f fv k = true) :
    ¬ s.IndexExact := by
  intro hx
  rw [Store.disagrees, Bool.and_eq_true, bne_iff_ne] at h
  refine h.2 (Bool.eq_iff_iff.2 ?_)
  rw [decide_eq_true_eq, Store.exactAt_iff.1 (hx ns h.1) f fv k, NsState.Indexes, Store.winner_eq, Bool.and_eq_true,
    Option.any_eq_true, List.contains_iff_mem, Store.indexFields_eq]
  simp

/-- The operations lead to a store whose index is not exact. -/
def Misindexes [Crates] (cmds : List Cmd) : Prop :=
  ∃ w₀ w, Opened w₀ ∧ Run (guarded (fun w c => c.Valid w.store) Step) w₀ cmds w ∧ ¬ w.store.IndexExact

theorem misindexes_of_run [Crates] {cmds : List Cmd} {ns f fv k : Bytes}
    (h : ((freshRun (fun w c => c.Valid w.store) cmds).any fun w => w.store.disagrees ns f fv k) = true) :
    Misindexes cmds := by
  obtain ⟨w, hw, hcell⟩ := (Option.any_eq_true ..).1 h
  obtain ⟨w0, h0, hrun⟩ := freshRun_sound hw
  exact ⟨w0, w, h0, hrun, not_indexExact_of_disagrees hcell⟩

set_option maxRecDepth 100000 in
/-- A definition that wipes the rows of the other namespace; one that is withdrawn and leaves its rows; a pass over a key
that has expired; a directory with two indexed namespaces that is opened. -/
theorem index_not_exact : letI := Crates.oneField
    Misindexes (twoIndexed ++ [.setIndex [98] (some (str "[\"f\"]")) 4 .zero .zero]) ∧
    Misindexes (twoIndexed ++ [.setIndex [97] none 4 .zero .zero]) ∧
    Misindexes [.createNamespace [97] .lww, .put [97] [1] (str "\x7b\"f\":1\x7d") 1 .zero .zero 3,
      .put [97] [2] [] 2 .zero .zero 0, .setIndex [97] (some (str "[\"f\"]")) 3 .zero .zero, .gcLive 5] ∧
    Misindexes [.createNamespace [97] .lww, .createNamespace [98] .lww,
      .setIndex [97] (some (str "[\"f\"]")) 1 .zero .zero, .setIndex [98] (some (str "[\"f\"]")) 2 .zero .zero,
      .put [97] [1] (str "\x7b\"f\":1\x7d") 3 .zero .zero 0, .reopen false 0] := by
  refine ⟨?_, ?_, ?_, ?_⟩
  · exact @misindexes_of_run Crates.oneField _ [97] (str "f") (str "1") [1] (by decide +kernel)
  · exact @misindexes_of_run Crates.oneField _ [97] (str "f") (str "1") [1] (by decide +kernel)
  · exact @misindexes_of_run Crates.oneField _ [97] (str "f") (str "1") [1] (by decide +kernel)
  · exact @misindexes_of_run Crates.oneField _ [97] (str "f") (str "1") [1] (by decide +kernel)

end BunnyMesh
