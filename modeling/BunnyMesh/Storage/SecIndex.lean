import BunnyMesh.Storage.Scan
import Mathlib.Data.List.Induction

/-!
# The rows of the secondary index

The rows of a namespace, cell by cell: a cell is a field and a key of it.  A write of a key derives its cells anew and
leaves every other cell alone (`Refreshes`).  Rebuilding a namespace drops the rows of all the others, where it should
have dropped its own (`mem_rows_rebuild`).
-/

namespace BunnyMesh

open Std Store

/-! ### Keys of the row map -/

theorem nul_not_mem_of_validNs {ns : Bytes} (h : validNs ns) : (0 : UInt8) ∉ ns := by
  simp only [validNs, Bool.or_eq_true, Bool.and_eq_true] at h
  intro hmem
  rcases h with ⟨-, hall⟩ | ⟨⟨hpre, -⟩, hall⟩
  · have h0 := List.all_eq_true.1 hall 0 hmem
    exact absurd h0 (by decide)
  · obtain ⟨rest, rfl⟩ := List.isPrefixOf_iff_prefix.1 hpre
    rcases List.mem_append.1 hmem with hmem | hmem
    · exact absurd hmem (by decide)
    · have h0 := List.all_eq_true.1 hall 0 hmem
      exact absurd h0 (by decide)

theorem secMapKey_inj {ns n f f' : Bytes} (hns : (0 : UInt8) ∉ ns) (hn : (0 : UInt8) ∉ n) :
    secMapKey ns f = secMapKey n f' ↔ ns = n ∧ f = f' := by
  constructor
  · intro heq
    induction ns generalizing n with
    | nil =>
      cases n with
      | nil => exact ⟨rfl, (List.cons.inj heq).2⟩
      | cons b n => exact absurd (List.mem_cons.2 (.inl (List.cons.inj heq).1)) hn
    | cons b ns ih =>
      cases n with
      | nil => exact absurd (List.mem_cons.2 (.inl (List.cons.inj heq).1.symm)) hns
      | cons b' n =>
        obtain ⟨rfl, hrest⟩ := List.cons.inj heq
        rw [List.mem_cons, not_or] at hns hn
        obtain ⟨rfl, rfl⟩ := ih hns.2 hn.2 hrest
        exact ⟨rfl, rfl⟩
  · rintro ⟨rfl, rfl⟩
    rfl

theorem isPrefixOf_secMapKey {ns n f : Bytes} (hns : (0 : UInt8) ∉ ns) (hn : (0 : UInt8) ∉ n) :
    (ns ++ [0]).isPrefixOf (secMapKey n f) = true ↔ n = ns := by
  have hkey : ∀ m f' : Bytes, secMapKey m f' = m ++ [0] ++ f' := by
    intro m f'
    rw [List.append_assoc, List.singleton_append, secMapKey]
  rw [List.isPrefixOf_iff_prefix]
  constructor
  · rintro ⟨f', hf'⟩
    rw [← hkey] at hf'
    exact ((secMapKey_inj hns hn).1 hf').1.symm
  · rintro rfl
    exact ⟨f, (hkey n f).symm⟩

/-! ### Row sets -/

def rowsUnder (si : BMap Bytes Rows) (mapKey : Bytes) : Rows := si[mapKey]?.getD ∅

theorem mem_insertRow {si : BMap Bytes Rows} {mapKey mapKey' : Bytes} {row row' : EntryKey} :
    row' ∈ rowsUnder (insertRow si mapKey row) mapKey' ↔
      mapKey = mapKey' ∧ row = row' ∨ row' ∈ rowsUnder si mapKey' := by
  unfold rowsUnder insertRow
  rw [OrdMap.getElem?_insert]
  by_cases hk : mapKey = mapKey'
  · subst hk
    simp
  · rw [if_neg hk]
    simp [hk]

theorem mem_removeRows {si : BMap Bytes Rows} {mapKey mapKey' key : Bytes} {row : EntryKey} :
    row ∈ rowsUnder (removeRows si mapKey key) mapKey' ↔
      row ∈ rowsUnder si mapKey' ∧ ¬ (mapKey = mapKey' ∧ row.2 = key) := by
  unfold rowsUnder removeRows
  cases hrows : si[mapKey]? with
  | none =>
    by_cases hk : mapKey = mapKey'
    · subst hk
      simp [hrows]
    · simp [hk]
  | some rows =>
    rw [OrdMap.getElem?_insert]
    by_cases hk : mapKey = mapKey'
    · subst hk
      rw [if_pos rfl, Option.getD_some, hrows, Option.getD_some, ExtTreeSet.mem_filter]
      simp [ExtTreeSet.get_eq]
    · rw [if_neg hk]
      simp [hk]

theorem mem_foldl_insertRow {α : Type} (l : List α) (mapKey : α → Bytes) (row : α → EntryKey) (si : BMap Bytes Rows)
    (mapKey' : Bytes) (row' : EntryKey) :
    row' ∈ rowsUnder (l.foldl (fun si a => insertRow si (mapKey a) (row a)) si) mapKey' ↔
      (∃ a ∈ l, mapKey a = mapKey' ∧ row a = row') ∨ row' ∈ rowsUnder si mapKey' := by
  induction l generalizing si with
  | nil => simp
  | cons a l ih =>
    rw [List.foldl_cons, ih, mem_insertRow, List.exists_mem_cons_iff, or_left_comm, or_assoc]

theorem mem_foldl_removeRows {α : Type} (l : List α) (mapKey : α → Bytes) (key : Bytes) (si : BMap Bytes Rows)
    (mapKey' : Bytes) (row : EntryKey) :
    row ∈ rowsUnder (l.foldl (fun si a => removeRows si (mapKey a) key) si) mapKey' ↔
      row ∈ rowsUnder si mapKey' ∧ ¬ ((∃ a ∈ l, mapKey a = mapKey') ∧ row.2 = key) := by
  induction l generalizing si with
  | nil => simp
  | cons a l ih =>
    rw [List.foldl_cons, ih, mem_removeRows, List.exists_mem_cons_iff, or_and_right, not_or, and_assoc]

/-! ### What the index asks for -/

def Store.rows (s : Store) (ns f : Bytes) : Rows := rowsUnder s.secIndex (secMapKey ns f)

def NsState.winner (st : NsState) (k : Bytes) : Option Version := (st.slot k).visible.bind latestEntryValue

theorem Store.winner_eq (s : Store) (ns k : Bytes) : (s.view ns).winner k = (s.get ns k).bind latestEntryValue := by
  rw [NsState.winner, Store.get_eq_visible]

section

variable [Crates]
variable {s s₁ s' : Store} {ns n f fv k key : Bytes} {keys keys' : List Bytes}

def indexedFields : Option Bytes → List Bytes
  | none => []
  | some bytes => (Crates.fromStrStrings (ByteCodec.fromUtf8Lossy bytes)).getD []

namespace NsState

def fields (st : NsState) : List Bytes := indexedFields st.indexDef

/-- The row that the key `k` has for the value `fv` of the field `f`. -/
def Indexes (st : NsState) (f fv k : Bytes) : Prop :=
  f ∈ st.fields ∧ ∃ v, st.winner k = some v ∧ fv ∈ fieldValues v.value f

end NsState

theorem Store.indexFields_eq (s : Store) (ns : Bytes) : s.indexFields ns = (s.view ns).fields := by
  change _ = indexedFields (s.indexDef ns)
  rw [Store.indexFields]
  cases s.indexDef ns <;> rfl

/-! ### Refreshing keys -/

/-- From `s` to `s'` the cells of the keys were derived anew, after these keys were changed. -/
structure Refreshes (ns : Bytes) (keys : List Bytes) (s s' : Store) : Prop where
  fields : (s'.view ns).fields = (s.view ns).fields
  slot : ∀ k, k ∉ keys → (s'.view ns).slot k = (s.view ns).slot k
  other : ∀ n f fv k, (0 : UInt8) ∉ n → ¬ (n = ns ∧ f ∈ (s.view ns).fields ∧ k ∈ keys) →
    ((fv, k) ∈ s'.rows n f ↔ (fv, k) ∈ s.rows n f)
  own : ∀ f fv k, f ∈ (s.view ns).fields → k ∈ keys → ((fv, k) ∈ s'.rows ns f ↔ (s'.view ns).Indexes f fv k)

namespace Refreshes

theorem refl (ns : Bytes) (s : Store) : Refreshes ns [] s s :=
  ⟨rfl, fun _ _ => rfl, fun _ _ _ _ _ _ => Iff.rfl, fun _ _ _ _ hk => (nomatch hk)⟩

theorem trans (h : Refreshes ns keys s s₁) (h' : Refreshes ns keys' s₁ s') (hns : (0 : UInt8) ∉ ns) :
    Refreshes ns (keys ++ keys') s s' := by
  refine ⟨h'.fields.trans h.fields, fun k hk => ?_, fun n f fv k hn hcell => ?_, fun f fv k hf hk => ?_⟩
  · rw [List.mem_append, not_or] at hk
    rw [h'.slot k hk.2, h.slot k hk.1]
  · rw [List.mem_append] at hcell
    rw [h'.other n f fv k hn (by rw [h.fields]; tauto), h.other n f fv k hn (by tauto)]
  · by_cases hk' : k ∈ keys'
    · exact h'.own f fv k (by rwa [h.fields]) hk'
    · -- the second part left the key alone
      have hk : k ∈ keys := (List.mem_append.1 hk).resolve_right hk'
      rw [h'.other ns f fv k hns (by tauto), h.own f fv k hf hk]
      unfold NsState.Indexes NsState.winner
      rw [h'.fields, h'.slot k hk']

end Refreshes

theorem mem_rows_removeFromSecIndex (hns : (0 : UInt8) ∉ ns) (hn : (0 : UInt8) ∉ n) :
    (fv, k) ∈ (s.removeFromSecIndex ns key).rows n f ↔
      (fv, k) ∈ s.rows n f ∧ ¬ ((n = ns ∧ f ∈ (s.view ns).fields) ∧ k = key) := by
  have hmem : (∃ f' ∈ s.indexFields ns, secMapKey ns f' = secMapKey n f) ↔ n = ns ∧ f ∈ (s.view ns).fields := by
    simp only [secMapKey_inj hns hn, Store.indexFields_eq]
    constructor
    · rintro ⟨f', hf', rfl, rfl⟩
      exact ⟨rfl, hf'⟩
    · rintro ⟨rfl, hf⟩
      exact ⟨f, hf, rfl, rfl⟩
  rw [← hmem]
  exact mem_foldl_removeRows (s.indexFields ns) (secMapKey ns) key s.secIndex (secMapKey n f) (fv, k)

theorem mem_rowsOf {fields : List Bytes} {value : Bytes} :
    (f, fv) ∈ rowsOf fields value ↔ f ∈ fields ∧ fv ∈ fieldValues value f := by
  simp [rowsOf]

theorem mem_rows_refreshSecIndexFor (hns : (0 : UInt8) ∉ ns) (hn : (0 : UInt8) ∉ n) :
    (fv, k) ∈ (s.refreshSecIndexFor ns key).rows n f ↔
      (n = ns ∧ k = key) ∧ (s.view ns).Indexes f fv k ∨
        (fv, k) ∈ s.rows n f ∧ ¬ ((n = ns ∧ f ∈ (s.view ns).fields) ∧ k = key) := by
  rw [← mem_rows_removeFromSecIndex hns hn]
  have hfields : (s.removeFromSecIndex ns key).indexFields ns = (s.view ns).fields := s.indexFields_eq ns
  have hwinner : ((s.removeFromSecIndex ns key).get ns key).bind latestEntryValue = (s.view ns).winner key :=
    (s.winner_eq ns key).symm
  unfold Store.refreshSecIndexFor
  dsimp only
  rw [hfields, hwinner]
  split
  · -- no field is indexed
    rename_i hempty
    rw [List.isEmpty_iff] at hempty
    simp [NsState.Indexes, hempty]
  · cases hv : (s.view ns).winner key with
    | none =>
      refine ⟨.inr, fun h => h.resolve_left ?_⟩
      rintro ⟨⟨-, rfl⟩, -, v, hv', -⟩
      rw [hv] at hv'
      cases hv'
    | some v =>
      refine (mem_foldl_insertRow _ (fun x : Bytes × Bytes => secMapKey ns x.1) (fun x => (x.2, key)) _ _ _).trans ?_
      refine or_congr ?_ Iff.rfl
      constructor
      · rintro ⟨⟨f', fv'⟩, hx, hkey, hrow⟩
        obtain ⟨rfl, rfl⟩ := (secMapKey_inj hns hn).1 hkey
        obtain ⟨rfl, rfl⟩ := Prod.mk.inj hrow
        obtain ⟨hf, hfv⟩ := mem_rowsOf.1 hx
        exact ⟨⟨rfl, rfl⟩, hf, v, hv, hfv⟩
      · rintro ⟨⟨rfl, rfl⟩, hf, v', hv', hfv⟩
        obtain rfl : v = v' := Option.some.inj (hv.symm.trans hv')
        exact ⟨(f, fv), mem_rowsOf.2 ⟨hf, hfv⟩, rfl, rfl⟩

theorem Refreshes.of_setSlot {sl : Slot} (hcore : s'.core = (s.setSlot ns key sl).core) (hns : (0 : UInt8) ∉ ns)
    (hrows : ∀ n f fv k, (0 : UInt8) ∉ n → ((fv, k) ∈ s'.rows n f ↔
      (n = ns ∧ k = key) ∧ ((s.view ns).update key sl).Indexes f fv k ∨
        (fv, k) ∈ s.rows n f ∧ ¬ ((n = ns ∧ f ∈ (s.view ns).fields) ∧ k = key))) :
    Refreshes ns [key] s s' := by
  have hview : s'.view ns = (s.view ns).update key sl := ((s.becomes_setSlot ns key sl).of_core hcore).view_eq
  have hfields : ((s.view ns).update key sl).fields = (s.view ns).fields := rfl
  refine ⟨by rw [hview, hfields], fun k hk => ?_, fun n f fv k hn hcell => ?_, fun f fv k hf hk => ?_⟩
  · rw [hview, NsState.slot_update_of_ne _ (List.ne_of_not_mem_cons hk)]
  · rw [hrows n f fv k hn]
    rw [List.mem_singleton] at hcell
    constructor
    · rintro (⟨⟨rfl, rfl⟩, hf, -⟩ | ⟨hmem, -⟩)
      · exact absurd ⟨rfl, hf, rfl⟩ hcell
      · exact hmem
    · exact fun hmem => .inr ⟨hmem, fun hc => hcell ⟨hc.1.1, hc.1.2, hc.2⟩⟩
  · obtain rfl := List.mem_singleton.1 hk
    rw [hrows ns f fv k hns, hview]
    constructor
    · rintro (⟨-, hindexes⟩ | ⟨-, hcell⟩)
      · exact hindexes
      · exact absurd ⟨⟨rfl, hf⟩, rfl⟩ hcell
    · exact fun hindexes => .inl ⟨⟨rfl, rfl⟩, hindexes⟩

theorem refreshes_refreshSecIndexFor (hns : (0 : UInt8) ∉ ns) (sl : Slot) :
    Refreshes ns [key] s ((s.setSlot ns key sl).refreshSecIndexFor ns key) := by
  refine .of_setSlot (core_refreshSecIndexFor ..) hns fun n f fv k hn => ?_
  rw [mem_rows_refreshSecIndexFor hns hn, (s.becomes_setSlot ns key sl).view_eq]
  exact Iff.rfl

theorem refreshes_removeFromSecIndex (hns : (0 : UInt8) ∉ ns) {sl : Slot} (hsl : sl.visible = none) :
    Refreshes ns [key] s ((s.setSlot ns key sl).removeFromSecIndex ns key) := by
  refine .of_setSlot (core_removeFromSecIndex ..) hns fun n f fv k hn => ?_
  rw [mem_rows_removeFromSecIndex hns hn, (s.becomes_setSlot ns key sl).view_eq]
  refine ⟨.inr, fun h => h.resolve_left ?_⟩
  rintro ⟨⟨-, rfl⟩, -, v, hv, -⟩
  rw [NsState.winner, NsState.slot_update_self, hsl] at hv
  cases hv

/-! ### Writes -/

variable {p : ConflictPolicy} {op : Op} {ops : List Op} {seq : Nat}

theorem Refreshes.bump (h : Refreshes ns keys s s') : Refreshes ns keys s s'.bump :=
  ⟨h.fields, h.slot, h.other, h.own⟩

theorem refreshes_schema (s : Store) (ns : Bytes) (value : Option Bytes) :
    Refreshes ns [] s { s with metaMap := OrdMap.setOrErase s.metaMap (schemaKey ns) value } := by
  have hview := (s.becomes_schema ns value).view_eq
  exact ⟨by rw [hview]; rfl, fun k _ => by rw [hview], fun _ _ _ _ _ _ => Iff.rfl, fun _ _ _ _ hk => (nomatch hk)⟩

section
variable (hns : (0 : UInt8) ∉ ns) (hp : s.policies[ns]? = some p) (hs : (s.view ns).Shaped p)
include hns hp hs

theorem refreshes_applyRecordOp (ht : isOpTag op.tag) (hrun : applyRecordOp ns op seq s = .ok () s') :
    Refreshes ns [op.key] s s' := by
  rcases isOpTag_cases ht with ht | ht
  · rw [applyRecordOp_put hp (hs op.key) ht] at hrun
    cases hrun
    exact refreshes_refreshSecIndexFor hns _
  · rw [applyRecordOp_del hp ht] at hrun
    cases hrun
    refine refreshes_removeFromSecIndex hns ?_
    unfold Slot.recordOp
    rw [if_neg (by rw [ht]; decide), if_pos ht]
    rfl

theorem refreshes_applyLocalOp (ht : isOpTag op.tag) (hrun : applyLocalOp ns op seq s = .ok () s') :
    Refreshes ns [op.key] s s' := by
  rcases isOpTag_cases ht with ht | ht
  · rw [applyLocalOp_put hp (hs op.key) ht] at hrun
    cases hrun
    exact (refreshes_refreshSecIndexFor hns _).bump
  · rw [applyLocalOp_del hp ht] at hrun
    cases hrun
    refine (refreshes_removeFromSecIndex hns ?_).bump
    unfold Slot.localOp
    rw [if_neg (by rw [ht]; decide), if_pos ht]
    rfl

theorem refreshes_forM {act : Op → Mem Unit}
    (hstep : ∀ op ∈ ops, ∀ s₁ : Store, s₁.policies[ns]? = some p → (s₁.view ns).Shaped p → ∃ s2,
      act op s₁ = .ok () s2 ∧ s2.policies[ns]? = some p ∧ (s2.view ns).Shaped p ∧ Refreshes ns [op.key] s₁ s2)
    (hrun : ops.forM act s = .ok () s') : Refreshes ns (ops.map Op.key) s s' := by
  induction ops generalizing s with
  | nil =>
    cases hrun
    exact .refl ns _
  | cons op ops ih =>
    obtain ⟨hfirst, hrest⟩ := List.forall_mem_cons.1 hstep
    obtain ⟨s₁, h1, hp1, hs1, hr1⟩ := hfirst s hp hs
    rw [Exec.forM_cons_ok h1] at hrun
    exact hr1.trans (ih hp1 hs1 hrest hrun) hns

theorem refreshes_forM_applyRecordOp (ht : ∀ op ∈ ops, isOpTag op.tag)
    (hrun : (ops.forM fun op => applyRecordOp ns op seq) s = .ok () s') : Refreshes ns (ops.map Op.key) s s' := by
  refine refreshes_forM hns hp hs (fun op hop s₁ hp1 hs1 => ?_) hrun
  obtain ⟨s2, h2, hb, -⟩ := applyRecordOp_spec hp1 hs1 (ht op hop) seq
  exact ⟨s2, h2, by rw [hb.policies, hp1], by rw [hb.view_eq]; exact hs1.recordOp seq op,
    refreshes_applyRecordOp hns hp1 hs1 (ht op hop) h2⟩

theorem refreshes_forM_applyLocalOp (ht : ∀ op ∈ ops, isOpTag op.tag)
    (hrun : (ops.forM fun op => applyLocalOp ns op seq) s = .ok () s') : Refreshes ns (ops.map Op.key) s s' := by
  refine refreshes_forM hns hp hs (fun op hop s₁ hp1 hs1 => ?_) hrun
  obtain ⟨s2, h2, hb⟩ := applyLocalOp_spec hp1 hs1 (ht op hop) seq
  exact ⟨s2, h2, by rw [hb.policies, hp1], by rw [hb.view_eq]; exact hs1.localOp seq op,
    refreshes_applyLocalOp hns hp1 hs1 (ht op hop) h2⟩

theorem refreshes_applyRecord {r : Record} (hr : r.WellFormed) (htag : r.tag ≠ tagIndex)
    (hrun : applyRecord ns r seq s = .ok () s') : Refreshes ns (r.dataOps.map Op.key) s s' := by
  unfold applyRecord at hrun
  unfold Record.dataOps
  split_ifs at hrun ⊢ with h1 h2 h3
  · exact refreshes_applyRecordOp hns hp hs h1 hrun
  · exact refreshes_forM_applyRecordOp hns hp hs (fun op hop => (hr.subs op hop).tag) hrun
  · rw [setOrClear_apply] at hrun
    cases hrun
    exact refreshes_schema s ns _
  · cases hrun

end

/-! ### Rebuilding a namespace -/

section
omit [Crates]

theorem mem_rows_clearSecIndexNs (hns : (0 : UInt8) ∉ ns) (hn : (0 : UInt8) ∉ n) :
    (fv, k) ∈ (s.clearSecIndexNs ns).rows n f ↔ n = ns ∧ (fv, k) ∈ s.rows n f := by
  unfold Store.rows rowsUnder Store.clearSecIndexNs
  rw [ExtTreeMap.getElem?_filter']
  by_cases hne : n = ns
  · subst hne
    have hpre := (isPrefixOf_secMapKey (f := f) hns hn).2 rfl
    cases s.secIndex[secMapKey n f]? <;> simp [hpre, Option.filter]
  · have hpre : (ns ++ [0]).isPrefixOf (secMapKey n f) = false :=
      Bool.eq_false_iff.2 fun h => hne ((isPrefixOf_secMapKey hns hn).1 h)
    cases s.secIndex[secMapKey n f]? <;> simp [hne, hpre]

theorem mem_liveKeys : k ∈ s.liveKeys ns ↔ ∃ e v, s.index[(ns, k)]? = some e ∧ latestEntryValue e = some v := by
  simp only [Store.liveKeys, List.mem_filterMap, Prod.exists]
  constructor
  · rintro ⟨n, k', e, hmem, hlive⟩
    split_ifs at hlive with hc
    obtain ⟨rfl, hv⟩ := hc
    obtain ⟨v, hv⟩ := Option.isSome_iff_exists.1 hv
    obtain rfl := Option.some.inj hlive
    exact ⟨e, v, ExtTreeMap.mem_toList_iff_getElem?_eq_some.1 hmem, hv⟩
  · rintro ⟨e, v, he, hv⟩
    exact ⟨ns, k, e, ExtTreeMap.mem_toList_iff_getElem?_eq_some.2 he, if_pos ⟨rfl, by rw [hv]; rfl⟩⟩

theorem winner_mem_liveKeys {v : Version} (h : (s.view ns).winner k = some v) : k ∈ s.liveKeys ns := by
  obtain ⟨e, he, hv⟩ := Option.bind_eq_some_iff.1 h
  refine mem_liveKeys.2 ⟨e, v, ?_, hv⟩
  unfold Slot.visible at he
  split at he
  · cases he
  · exact he

end

theorem refreshes_foldl (hns : (0 : UInt8) ∉ ns) (keys : List Bytes) (s : Store) :
    Refreshes ns keys s (keys.foldl (fun s k => s.refreshSecIndexFor ns k) s) := by
  induction keys generalizing s with
  | nil => exact .refl ns s
  | cons k keys ih =>
    have hfirst : Refreshes ns [k] s (s.refreshSecIndexFor ns k) := by
      have hself : Refreshes ns [k] s ((s.setSlot ns k ((s.view ns).slot k)).refreshSecIndexFor ns k) :=
        refreshes_refreshSecIndexFor hns _
      rwa [Store.setSlot_self] at hself
    exact hfirst.trans (ih _) hns

/-- After a rebuild the other namespaces have no rows; the own ones are derived for the indexed fields of the live keys
and left as they are elsewhere. -/
theorem mem_rows_rebuild (hns : (0 : UInt8) ∉ ns) (hn : (0 : UInt8) ∉ n) :
    (fv, k) ∈ (s.rebuildSecIndexNs ns).rows n f ↔ n = ns ∧
      ((s.view ns).Indexes f fv k ∨
        (fv, k) ∈ s.rows ns f ∧ ¬ (f ∈ (s.view ns).fields ∧ k ∈ s.liveKeys ns)) := by
  have hcleared : (s.clearSecIndexNs ns).view ns = s.view ns := rfl
  unfold Store.rebuildSecIndexNs
  dsimp only
  rw [Store.indexFields_eq, hcleared]
  split
  · rename_i hempty
    rw [List.isEmpty_iff] at hempty
    rw [mem_rows_clearSecIndexNs hns hn]
    constructor
    · rintro ⟨rfl, hmem⟩
      exact ⟨rfl, .inr ⟨hmem, by simp [hempty]⟩⟩
    · rintro ⟨rfl, ⟨hf, -⟩ | ⟨hmem, -⟩⟩
      · rw [hempty] at hf
        cases hf
      · exact ⟨rfl, hmem⟩
  · have hlive : (s.clearSecIndexNs ns).liveKeys ns = s.liveKeys ns := rfl
    have hr := refreshes_foldl hns (s.liveKeys ns) (s.clearSecIndexNs ns)
    have hview := Store.view_of_core (core_foldl_refresh (s.clearSecIndexNs ns) ns (s.liveKeys ns)) ns
    rw [hlive]
    by_cases hcell : n = ns ∧ f ∈ (s.view ns).fields ∧ k ∈ s.liveKeys ns
    · obtain ⟨rfl, hf, hk⟩ := hcell
      rw [hr.own f fv k hf hk, hview, hcleared]
      simp [hf, hk]
    · rw [hr.other n f fv k hn hcell, mem_rows_clearSecIndexNs hns hn]
      constructor
      · rintro ⟨rfl, hmem⟩
        exact ⟨rfl, .inr ⟨hmem, fun h => hcell ⟨rfl, h⟩⟩⟩
      · rintro ⟨rfl, ⟨hf, v, hv, -⟩ | ⟨hmem, -⟩⟩
        · exact absurd ⟨rfl, hf, winner_mem_liveKeys hv⟩ hcell
        · exact ⟨rfl, hmem⟩

/-! ### Rebuilding all -/

def Store.lastIndexed (s : Store) (nss : List Bytes) : Option Bytes :=
  (nss.filter fun ns => !(s.indexFields ns).isEmpty).getLast?

theorem mem_rows_rebuildSecondaryIndexes (hpol : ∀ n : Bytes, s.policies[n]? ≠ none → (0 : UInt8) ∉ n) (hn : (0 : UInt8) ∉ n) :
    (fv, k) ∈ s.rebuildSecondaryIndexes.rows n f ↔
      s.lastIndexed s.policies.keys = some n ∧ (s.view n).Indexes f fv k := by
  have hkeys : ∀ n ∈ s.policies.keys, (0 : UInt8) ∉ n := by
    intro n hn
    refine hpol n fun hnone => ?_
    rw [ExtTreeMap.mem_keys, ExtTreeMap.mem_iff_isSome_getElem?, hnone] at hn
    cases hn
  -- along the namespaces: the last one rebuilt has dropped the rows of those before it
  have hfold : ∀ nss : List Bytes, (∀ n ∈ nss, (0 : UInt8) ∉ n) → ∃ s' : Store,
      nss.foldl (fun s ns => if (s.indexFields ns).isEmpty then s else s.rebuildSecIndexNs ns)
        { s with secIndex := ∅ } = s' ∧ s'.core = s.core ∧ ∀ n f fv k, (0 : UInt8) ∉ n →
        ((fv, k) ∈ s'.rows n f ↔ s.lastIndexed nss = some n ∧ (s.view n).Indexes f fv k) := by
    intro nss
    induction nss using List.reverseRecOn with
    | nil =>
      refine fun _ => ⟨_, rfl, rfl, fun n f fv k _ => ?_⟩
      simp [Store.rows, rowsUnder, Store.lastIndexed]
    | append_singleton nss ns ih =>
      intro hnss
      obtain ⟨s', hs', hcore, hrows⟩ := ih fun n hn => hnss n (List.mem_append_left _ hn)
      have hns : (0 : UInt8) ∉ ns := hnss ns (by simp)
      have hfields : s'.indexFields ns = s.indexFields ns := by
        rw [Store.indexFields_eq, Store.view_of_core hcore, Store.indexFields_eq]
      rw [List.foldl_append, hs', List.foldl_cons, List.foldl_nil, hfields]
      unfold Store.lastIndexed
      by_cases hempty : (s.indexFields ns).isEmpty = true
      · have hsame : (nss ++ [ns]).filter (fun ns => !(s.indexFields ns).isEmpty) =
            nss.filter fun ns => !(s.indexFields ns).isEmpty := by
          rw [List.filter_append, List.filter_singleton, hempty]
          simp
        rw [hsame]
        exact ⟨s', if_pos hempty, hcore, hrows⟩
      · refine ⟨_, if_neg hempty, (core_rebuildSecIndexNs ..).trans hcore, fun n f fv k hn => ?_⟩
        have hlast : ((nss ++ [ns]).filter fun ns => !(s.indexFields ns).isEmpty).getLast? = some ns := by
          rw [List.filter_append, List.filter_singleton, Bool.eq_false_iff.2 hempty]
          simp
        rw [hlast, Option.some.injEq, mem_rows_rebuild hns hn, Store.view_of_core hcore]
        constructor
        · rintro ⟨rfl, hindexes | ⟨hmem, -⟩⟩
          · exact ⟨rfl, hindexes⟩
          · exact ⟨rfl, ((hrows n f fv k hn).1 hmem).2⟩
        · rintro ⟨rfl, hindexes⟩
          exact ⟨rfl, .inl hindexes⟩
  obtain ⟨s', hs', -, hrows⟩ := hfold _ hkeys
  rw [Store.rebuildSecondaryIndexes, hs']
  exact hrows n f fv k hn

end

end BunnyMesh
