import BunnyMesh.Storage.View

/-!
# Scans

The ordered index is read by ranges.  A range of a namespace holds exactly its entries (`Store.mem_rangeOf`), so a scan
shows the index and nothing else: the tombstones play no part in it.
-/

namespace BunnyMesh

open Std Store

theorem compare_entryKey (a b : EntryKey) : compare a b = (compare a.1 b.1).then (compare a.2 b.2) := rfl

theorem not_lt_start (ns k : Bytes) : (compare ((ns, k) : EntryKey) (ns, [])).isLT = false := by
  have hself : compare ns ns = .eq := LawfulEqCmp.compare_eq_iff_eq.2 rfl
  rw [compare_entryKey, hself]
  cases k <;> rfl

theorem fst_eq_of_between {a b : EntryKey} {ns : Bytes} (hab : compare a b = .lt) (hb : b.1 = ns)
    (ha : (compare a (ns, [])).isLT = false) : a.1 = ns := by
  subst hb
  rw [compare_entryKey] at hab ha
  cases h : compare a.1 b.1 with
  | lt => simp [h] at ha
  | eq => exact LawfulEqCmp.compare_eq_iff_eq.1 h
  | gt => simp [h] at hab

def nsList {V : Type} (m : BMap EntryKey V) (ns : Bytes) : List (Bytes × V) :=
  (m.toList.filter fun x => x.1.1 == ns).map fun x => (x.1.2, x.2)

section

variable {V : Type} (m : BMap EntryKey V) (ns : Bytes)

theorem mem_nsList (k : Bytes) (v : V) : (k, v) ∈ nsList m ns ↔ m[(ns, k)]? = some v := by
  simp only [nsList, List.mem_map, List.mem_filter, beq_iff_eq, Prod.mk.injEq]
  constructor
  · rintro ⟨⟨⟨n, k'⟩, e'⟩, ⟨hx, rfl⟩, rfl, rfl⟩
    rw [← ExtTreeMap.mem_toList_iff_getElem?_eq_some]
    exact hx
  · intro h
    exact ⟨((ns, k), v), ⟨ExtTreeMap.mem_toList_iff_getElem?_eq_some.2 h, rfl⟩, rfl, rfl⟩

theorem pairwise_nsList : (nsList m ns).Pairwise fun a b => compare a.1 b.1 = .lt := by
  rw [nsList, List.pairwise_map, List.pairwise_filter]
  refine (ExtTreeMap.ordered_keys_toList (t := m)).imp fun {a b} hab ha hb => ?_
  have hself : compare a.1.1 b.1.1 = .eq := by
    rw [beq_iff_eq.1 ha, beq_iff_eq.1 hb]
    exact LawfulEqCmp.compare_eq_iff_eq.2 rfl
  rwa [compare_entryKey, hself] at hab

theorem nodup_nsList : ((nsList m ns).map (·.1)).Nodup := by
  rw [List.Nodup, List.pairwise_map]
  refine (pairwise_nsList m ns).imp fun {a b} hab he => ?_
  have hself : compare b.1 b.1 = .eq := LawfulEqCmp.compare_eq_iff_eq.2 rfl
  rw [he, hself] at hab
  cases hab

end

theorem nsList_congr {V : Type} {m m' : BMap EntryKey V} {ns : Bytes} (h : ∀ k : Bytes, m[(ns, k)]? = m'[(ns, k)]?) :
    nsList m ns = nsList m' ns := by
  have hmem : ∀ x, x ∈ nsList m ns ↔ x ∈ nsList m' ns := fun x => by
    rw [mem_nsList m ns x.1 x.2, mem_nsList m' ns x.1 x.2, h]
  have hnodup : ∀ m : BMap EntryKey V, (nsList m ns).Nodup := fun m =>
    List.Pairwise.of_map (·.1) (fun a b hne he => hne (congrArg _ he)) (nodup_nsList m ns)
  have hperm : (nsList m ns).Perm (nsList m' ns) := (List.perm_ext_iff_of_nodup (hnodup m) (hnodup m')).2 hmem
  refine hperm.eq_of_pairwise (fun a b _ _ hab hba => ?_) (pairwise_nsList m ns) (pairwise_nsList m' ns)
  rw [OrientedCmp.gt_of_lt hab] at hba
  cases hba

theorem Store.rangeOf_eq (s : Store) (ns : Bytes) : s.rangeOf ns = nsList s.index ns := by
  have hsorted : s.index.toList.Pairwise fun a b => compare a.1 b.1 = .lt :=
    ExtTreeMap.ordered_keys_toList (t := s.index)
  have hdrop := OrdMap.dropWhile_eq_filter (l := s.index.toList) (q := fun x => (compare x.1 (ns, [])).isLT)
    (hsorted.imp fun {a b} hab hb => by
      have hb' : compare b.1 (ns, []) = .lt := by simpa using hb
      have := TransCmp.lt_trans hab hb'
      simp [this])
  unfold Store.rangeOf nsList
  rw [hdrop, OrdMap.takeWhile_eq_filter, List.filter_filter]
  · congr 1
    refine List.filter_congr fun x _ => ?_
    by_cases hx : x.1.1 = ns
    · have := not_lt_start x.1.1 x.1.2
      simp [← hx, this]
    · simp [hx]
  · rw [List.pairwise_filter]
    refine hsorted.imp fun {a b} hab ha _ hb => ?_
    exact beq_iff_eq.2 (fst_eq_of_between hab (beq_iff_eq.1 hb) (by simpa only [Bool.not_eq_true'] using ha))

theorem Store.mem_rangeOf (s : Store) (ns k : Bytes) (e : Entry) : (k, e) ∈ s.rangeOf ns ↔ s.index[(ns, k)]? = some e := by
  rw [rangeOf_eq, mem_nsList]

theorem Store.nodup_rangeOf (s : Store) (ns : Bytes) : ((s.rangeOf ns).map (·.1)).Nodup := by
  rw [rangeOf_eq]
  exact nodup_nsList ..

theorem Store.scan_nil (s : Store) (ns : Bytes) : s.scan ns [] = s.rangeOf ns := by
  simp [Store.scan]

theorem Store.mem_scan (s : Store) (ns pre k : Bytes) (e : Entry) :
    (k, e) ∈ s.scan ns pre ↔ s.index[(ns, k)]? = some e ∧ pre <+: k := by
  rw [Store.scan, List.mem_filter, mem_rangeOf, Bool.or_eq_true, List.isPrefixOf_iff_prefix, List.isEmpty_iff]
  refine and_congr_right fun _ => ⟨?_, .inr⟩
  rintro (rfl | h)
  · exact List.nil_prefix
  · exact h

theorem Store.mem_scanKeys (s : Store) (ns pre k : Bytes) :
    k ∈ s.scanKeys ns pre ↔ ∃ e, (k, e) ∈ s.scan ns pre := by
  simp [Store.scanKeys, Store.scan, exists_and_right]

theorem Store.mem_names (s : Store) (ns : Bytes) : ns ∈ s.namespaces.map (·.1) ↔ s.policies[ns]? ≠ none := by
  rw [Store.namespaces, List.mem_map]
  constructor
  · rintro ⟨x, hx, rfl⟩
    rw [ExtTreeMap.mem_toList_iff_getElem?_eq_some.1 hx]
    simp
  · intro h
    obtain ⟨p, hp⟩ := Option.ne_none_iff_exists'.1 h
    exact ⟨(ns, p), ExtTreeMap.mem_toList_iff_getElem?_eq_some.2 hp, rfl⟩

theorem Store.nodup_names (s : Store) : (s.namespaces.map (·.1)).Nodup := by
  rw [Store.namespaces, List.Nodup, List.pairwise_map]
  refine (ExtTreeMap.ordered_keys_toList (t := s.policies)).imp fun {a b} hab he => ?_
  have hself : compare b.1 b.1 = .eq := LawfulEqCmp.compare_eq_iff_eq.2 rfl
  rw [he, hself] at hab
  cases hab

end BunnyMesh
