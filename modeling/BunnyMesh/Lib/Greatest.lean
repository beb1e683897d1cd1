import Mathlib.Data.List.Induction
import Mathlib.Data.List.Nodup
import Mathlib.Order.Lattice
import Mathlib.Tactic.Common

/-!
# The greatest element of a list by a key

The last one of the greatest, as a running maximum finds it.  Where no key occurs twice it depends on the elements only,
not on their order (`greatest_perm`).
-/

namespace Greatest

variable {α β : Type} [LinearOrder β] (key : α → β)

/-- Of two elements the greater one, and the second one of equals. -/
def later (a b : α) : α := if key a ≤ key b then b else a

def greatest : List α → Option α
  | [] => none
  | a :: l => some (l.foldl (later key) a)

theorem le_later (a b : α) : key a ≤ key (later key a b) ∧ key b ≤ key (later key a b) := by
  unfold later
  split
  · exact ⟨by assumption, le_rfl⟩
  · rename_i h
    exact ⟨le_rfl, le_of_lt (not_le.1 h)⟩

theorem later_eq (a b : α) : later key a b = a ∨ later key a b = b := by
  unfold later
  split
  · exact .inr rfl
  · exact .inl rfl

/-- The element is greatest, and those behind it are smaller. -/
def LastGreatest (l : List α) (a : α) : Prop :=
  ∃ front back, l = front ++ a :: back ∧ (∀ b ∈ front, key b ≤ key a) ∧ ∀ b ∈ back, key b < key a

variable {key} {l l' : List α} {a : α}

theorem greatest_concat (l : List α) (a : α) : greatest key (l ++ [a]) = some ((greatest key l).elim a (later key · a)) := by
  cases l with
  | nil => rfl
  | cons b l => simp [greatest]

theorem greatest_eq_none : greatest key l = none ↔ l = [] := by
  cases l <;> simp [greatest]

theorem greatest_spec (h : greatest key l = some a) : a ∈ l ∧ ∀ b ∈ l, key b ≤ key a := by
  induction l using List.reverseRecOn generalizing a with
  | nil => cases h
  | append_singleton l b ih =>
    rw [greatest_concat] at h
    cases hl : greatest key l with
    | none =>
      rw [hl, Option.elim_none, Option.some.injEq] at h
      subst h
      rw [greatest_eq_none] at hl
      simp [hl]
    | some c =>
      rw [hl, Option.elim_some, Option.some.injEq] at h
      subst h
      obtain ⟨hc, hle⟩ := ih hl
      obtain ⟨hca, hba⟩ := le_later key c b
      constructor
      · rcases later_eq key c b with heq | heq
        · rw [heq]
          exact List.mem_append_left _ hc
        · rw [heq]
          simp
      · intro d hd
        rcases List.mem_append.1 hd with hd | hd
        · exact (hle d hd).trans hca
        · rw [List.mem_singleton.1 hd]
          exact hba

theorem foldl_later_of_lt (h : ∀ b ∈ l, key b < key a) : l.foldl (later key) a = a := by
  induction l with
  | nil => rfl
  | cons b l ih =>
    obtain ⟨hb, hl⟩ := List.forall_mem_cons.1 h
    have hlater : later key a b = a := if_neg (not_le.2 hb)
    rw [List.foldl_cons, hlater, ih hl]

theorem greatest_append (h : greatest key l = some a) (m : List α) :
    greatest key (l ++ m) = some (m.foldl (later key) a) := by
  cases l with
  | nil => cases h
  | cons b l =>
    simp only [greatest, Option.some.injEq] at h
    simp [greatest, h]

theorem greatest_eq_some_iff : greatest key l = some a ↔ LastGreatest key l a := by
  constructor
  · intro h
    induction l using List.reverseRecOn generalizing a with
    | nil => cases h
    | append_singleton l b ih =>
      rw [greatest_concat] at h
      cases hl : greatest key l with
      | none =>
        rw [hl, Option.elim_none, Option.some.injEq] at h
        rw [greatest_eq_none] at hl
        subst hl h
        exact ⟨[], [], rfl, by simp, by simp⟩
      | some c =>
        rw [hl, Option.elim_some, Option.some.injEq] at h
        by_cases hle : key c ≤ key b
        · rw [later, if_pos hle] at h
          subst h
          exact ⟨l, [], rfl, fun d hd => ((greatest_spec hl).2 d hd).trans hle, by simp⟩
        · rw [later, if_neg hle] at h
          subst h
          obtain ⟨front, back, rfl, hfront, hback⟩ := ih hl
          refine ⟨front, back ++ [b], by simp, hfront, fun d hd => ?_⟩
          rcases List.mem_append.1 hd with hd | hd
          · exact hback d hd
          · rw [List.mem_singleton.1 hd]
            exact not_le.1 hle
  · rintro ⟨front, back, rfl, hfront, hback⟩
    have hhead : greatest key (front ++ [a]) = some a := by
      rw [greatest_concat]
      cases hl : greatest key front with
      | none => rfl
      | some c => exact congrArg some (if_pos (hfront c (greatest_spec hl).1))
    have happend := greatest_append hhead back
    rw [foldl_later_of_lt hback, List.append_assoc] at happend
    exact happend

theorem exists_lastGreatest (key : α → β) (h : l ≠ []) : ∃ a, LastGreatest key l a := by
  have hne : greatest key l ≠ none := fun hnone => h (greatest_eq_none.1 hnone)
  obtain ⟨a, ha⟩ := Option.ne_none_iff_exists'.1 hne
  exact ⟨a, greatest_eq_some_iff.1 ha⟩

theorem LastGreatest.unique {b : α} (h : LastGreatest key l a) (h' : LastGreatest key l b) : a = b :=
  Option.some.inj ((greatest_eq_some_iff.2 h).symm.trans (greatest_eq_some_iff.2 h'))

theorem LastGreatest.filter {p : α → Bool} (h : LastGreatest key l a) (ha : p a = true) : LastGreatest key (l.filter p) a := by
  obtain ⟨front, back, rfl, hfront, hback⟩ := h
  refine ⟨front.filter p, back.filter p, ?_, fun b hb => ?_, fun b hb => ?_⟩
  · rw [List.filter_append, List.filter_cons_of_pos ha]
  · exact hfront b (List.mem_of_mem_filter hb)
  · exact hback b (List.mem_of_mem_filter hb)

theorem LastGreatest.mem (h : LastGreatest key l a) : a ∈ l := (greatest_spec (greatest_eq_some_iff.2 h)).1

theorem LastGreatest.le {b : α} (h : LastGreatest key l a) (hb : b ∈ l) : key b ≤ key a :=
  (greatest_spec (greatest_eq_some_iff.2 h)).2 b hb

theorem greatest_perm (hnd : (l.map key).Nodup) (h : l.Perm l') : greatest key l = greatest key l' := by
  cases hl : greatest key l with
  | none =>
    rw [greatest_eq_none] at hl
    subst hl
    rw [List.nil_perm.1 h]
    rfl
  | some a =>
    cases hl' : greatest key l' with
    | none =>
      rw [greatest_eq_none] at hl'
      subst hl'
      rw [List.perm_nil.1 h] at hl
      cases hl
    | some a' =>
      obtain ⟨ha, hmax⟩ := greatest_spec hl
      obtain ⟨ha', hmax'⟩ := greatest_spec hl'
      have hkey : key a = key a' := le_antisymm (hmax' a (h.mem_iff.1 ha)) (hmax a' (h.mem_iff.2 ha'))
      rw [List.inj_on_of_nodup_map hnd ha (h.mem_iff.2 ha') hkey]

end Greatest
