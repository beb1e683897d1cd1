import Std.Data.ExtTreeMap
import Std.Data.ExtTreeSet
import Mathlib.Tactic.Common

/-!
# Ordered maps

Lookup lemmas for `Std.ExtTreeMap` over a lawful order, stated with equality of keys.
-/

namespace OrdMap

open Std

variable {K V : Type} [Ord K] [TransOrd K]

def setOrErase (m : ExtTreeMap K V compare) (k : K) : Option V → ExtTreeMap K V compare
  | some v => m.insert k v
  | none => m.erase k

variable [LawfulEqOrd K] [DecidableEq K]

@[simp] theorem getElem?_insert (m : ExtTreeMap K V compare) (k a : K) (v : V) :
    (m.insert k v)[a]? = if k = a then some v else m[a]? := by
  rw [ExtTreeMap.getElem?_insert]
  simp [LawfulEqCmp.compare_eq_iff_eq]

@[simp] theorem getElem?_erase (m : ExtTreeMap K V compare) (k a : K) :
    (m.erase k)[a]? = if k = a then none else m[a]? := by
  rw [ExtTreeMap.getElem?_erase]
  simp [LawfulEqCmp.compare_eq_iff_eq]

variable {k : K} {m : ExtTreeMap K V compare}

theorem insert_eq_self {v : V} (h : m[k]? = some v) : m.insert k v = m := by
  refine ExtTreeMap.ext_getElem? fun a => ?_
  rw [getElem?_insert]
  split
  · subst a; exact h.symm
  · rfl

theorem insert_insert (m : ExtTreeMap K V compare) (k : K) (v v' : V) : (m.insert k v).insert k v' = m.insert k v' := by
  refine ExtTreeMap.ext_getElem? fun a => ?_
  simp only [getElem?_insert]
  split <;> rfl

theorem erase_eq_self (h : m[k]? = none) : m.erase k = m := by
  refine ExtTreeMap.ext_getElem? fun a => ?_
  rw [getElem?_erase]
  split
  · subst a; exact h.symm
  · rfl

theorem getElem?_setOrErase (m : ExtTreeMap K V compare) (k a : K) (v : Option V) :
    (setOrErase m k v)[a]? = if k = a then v else m[a]? := by
  cases v <;> simp [setOrErase]

theorem setOrErase_self (m : ExtTreeMap K V compare) (k : K) : setOrErase m k m[k]? = m := by
  cases h : m[k]? with
  | none => exact erase_eq_self h
  | some v => exact insert_eq_self h

/-! ### Inserting a list -/

def insertAll (m : ExtTreeMap K V compare) (l : List (K × V)) : ExtTreeMap K V compare :=
  l.foldl (fun m x => m.insert x.1 x.2) m

theorem getElem?_insertAll_of_not_mem {l : List (K × V)} (h : ∀ v, (k, v) ∉ l) : (insertAll m l)[k]? = m[k]? := by
  induction l generalizing m with
  | nil => rfl
  | cons x l ih =>
    have hx : x.1 ≠ k := fun e => h x.2 (by rw [← e]; exact List.mem_cons_self)
    rw [insertAll, List.foldl_cons, ← insertAll, ih fun v hv => h v (List.mem_cons_of_mem _ hv), getElem?_insert,
      if_neg hx]

theorem getElem?_insertAll_of_mem {l : List (K × V)} {v : V}
    (huniq : ∀ v', (k, v') ∈ l → v' = v) (h : (k, v) ∈ l) : (insertAll m l)[k]? = some v := by
  induction l generalizing m with
  | nil => simp at h
  | cons x l ih =>
    rw [insertAll, List.foldl_cons, ← insertAll]
    by_cases hl : (k, v) ∈ l
    · exact ih (fun v' hv' => huniq v' (List.mem_cons_of_mem _ hv')) hl
    · have hx : x = (k, v) := ((List.mem_cons.1 h).resolve_right hl).symm
      subst hx
      have hnot : ∀ v', (k, v') ∉ l := fun v' hv' => hl (by
        rwa [← huniq v' (List.mem_cons_of_mem _ hv')])
      rw [getElem?_insertAll_of_not_mem hnot, getElem?_insert, if_pos rfl]

theorem getElem?_insertAll_toList (m m' : ExtTreeMap K V compare) (k : K) :
    (insertAll m m'.toList)[k]? = m'[k]?.or m[k]? := by
  cases h : m'[k]? with
  | none =>
    refine getElem?_insertAll_of_not_mem fun v hv => ?_
    rw [ExtTreeMap.mem_toList_iff_getElem?_eq_some, h] at hv
    cases hv
  | some v =>
    refine getElem?_insertAll_of_mem (fun v' hv' => ?_) (ExtTreeMap.mem_toList_iff_getElem?_eq_some.2 h)
    rw [ExtTreeMap.mem_toList_iff_getElem?_eq_some, h] at hv'
    exact (Option.some.inj hv').symm

theorem insertAll_empty_toList (m : ExtTreeMap K V compare) : insertAll ∅ m.toList = m := by
  refine ExtTreeMap.ext_getElem? fun k => ?_
  rw [getElem?_insertAll_toList, ExtTreeMap.getElem?_empty, Option.or_none]

/-! ### Sorted lists -/

theorem takeWhile_eq_filter {α : Type} {q : α → Bool} {l : List α} (h : l.Pairwise fun a b => q b → q a) :
    l.takeWhile q = l.filter q := by
  induction l with
  | nil => rfl
  | cons a l ih =>
    rw [List.pairwise_cons] at h
    by_cases ha : q a
    · rw [List.takeWhile_cons_of_pos ha, List.filter_cons_of_pos ha, ih h.2]
    · rw [List.takeWhile_cons_of_neg ha, List.filter_cons_of_neg ha, eq_comm, List.filter_eq_nil_iff]
      exact fun b hb hq => ha (h.1 b hb hq)

theorem dropWhile_eq_filter {α : Type} {q : α → Bool} {l : List α} (h : l.Pairwise fun a b => q b → q a) :
    l.dropWhile q = l.filter fun a => !q a := by
  induction l with
  | nil => rfl
  | cons a l ih =>
    rw [List.pairwise_cons] at h
    by_cases ha : q a
    · rw [List.dropWhile_cons_of_pos ha, List.filter_cons_of_neg (by simp [ha]), ih h.2]
    · rw [List.dropWhile_cons_of_neg ha, List.filter_cons_of_pos (by simp [ha]), eq_comm]
      congr 1
      rw [List.filter_eq_self]
      intro b hb
      have : ¬ q b := fun hq => ha (h.1 b hb hq)
      simp [this]
end OrdMap
