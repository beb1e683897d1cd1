import Mathlib.Data.List.Infix
import Mathlib.Order.Lattice
import Mathlib.Tactic.Common

/-!
# Polling a growing list

A reader asks for the elements behind its cursor, gets at most `cap` of them together with the length of the list, and
moves its cursor there.  What lies between the end of the window and the end of the list is never read: the reader sees
everything behind its first cursor exactly if it keeps up at every poll (`polled_eq_iff`).
-/

namespace Polling

variable {α : Type*}

def window (cap cursor : Nat) (l : List α) : List (α × Nat) := ((l.zipIdx 1).drop cursor).take cap

/-- What polls of the lists `ls`, one after the other, bring. -/
def polled (cap : Nat) : Nat → List (List α) → List (α × Nat)
  | _, [] => []
  | cursor, l :: ls => window cap cursor l ++ polled cap l.length ls

/-- No poll leaves out anything behind `since`. -/
def KeepsUp (cap since : Nat) : Nat → List (List α) → Prop
  | _, [] => True
  | cursor, l :: ls => (l.length ≤ cursor + cap ∨ l.length ≤ since) ∧ KeepsUp cap since l.length ls

instance instDecidableKeepsUp (cap since : Nat) : ∀ (cursor : Nat) (ls : List (List α)), Decidable (KeepsUp cap since cursor ls)
  | _, [] => .isTrue trivial
  | cursor, l :: ls =>
    have : Decidable (KeepsUp cap since l.length ls) := instDecidableKeepsUp cap since l.length ls
    inferInstanceAs (Decidable ((l.length ≤ cursor + cap ∨ l.length ≤ since) ∧ KeepsUp cap since l.length ls))

variable {cap since cursor k : Nat} {l l' : List α} {ls : List (List α)} {x : α × Nat}

theorem mem_drop_zipIdx (h : x ∈ (l.zipIdx 1).drop k) : k < x.2 ∧ x.2 ≤ l.length := by
  obtain ⟨i, hi, rfl⟩ := List.mem_iff_getElem.1 h
  simp only [List.length_drop, List.length_zipIdx] at hi
  simp only [List.getElem_drop, List.getElem_zipIdx]
  omega

theorem mem_window (h : x ∈ window cap cursor l) : cursor < x.2 ∧ x.2 ≤ l.length ∧ x.2 ≤ cursor + cap := by
  obtain ⟨i, hi, rfl⟩ := List.mem_iff_getElem.1 h
  simp only [window, List.length_take, List.length_drop, List.length_zipIdx] at hi
  simp only [window, List.getElem_take, List.getElem_drop, List.getElem_zipIdx]
  omega

theorem window_eq (cap cursor : Nat) (l : List α) : window cap cursor l = ((l.drop cursor).take cap).zipIdx (cursor + 1) := by
  refine List.ext_getElem (by simp [window]) fun i hi hi' => ?_
  simp only [window, List.getElem_take, List.getElem_drop, List.getElem_zipIdx, Prod.mk.injEq, true_and]
  omega

theorem filter_drop_zipIdx (l : List α) (cursor since : Nat) :
    ((l.zipIdx 1).drop cursor).filter (fun x => since < x.2) = (l.zipIdx 1).drop (max cursor since) := by
  have hsplit := List.take_append_drop (max cursor since - cursor) ((l.zipIdx 1).drop cursor)
  have hmax : cursor + (max cursor since - cursor) = max cursor since := by omega
  rw [List.drop_drop, hmax] at hsplit
  have hfront : (((l.zipIdx 1).drop cursor).take (max cursor since - cursor)).filter (fun x => since < x.2) = [] := by
    refine List.filter_eq_nil_iff.2 fun x hx => ?_
    have hwindow := mem_window hx
    simp only [decide_eq_true_eq]
    omega
  have hback : ((l.zipIdx 1).drop (max cursor since)).filter (fun x => since < x.2) = (l.zipIdx 1).drop (max cursor since) := by
    refine List.filter_eq_self.2 fun x hx => ?_
    have hdrop := mem_drop_zipIdx hx
    simp only [decide_eq_true_eq]
    omega
  rw [← hsplit, List.filter_append, hfront, hback, List.nil_append]

/-- One poll brings everything behind `since` exactly if its window reaches the end, or everything is older. -/
theorem filter_window_iff (l : List α) (cap cursor since : Nat) :
    (window cap cursor l).filter (fun x => since < x.2) = (l.zipIdx 1).drop (max cursor since) ↔
      l.length ≤ cursor + cap ∨ l.length ≤ since := by
  constructor
  · intro h
    by_contra hlate
    push Not at hlate
    -- the last element is behind `since`, and the window does not reach it
    obtain ⟨x, hx, hlast⟩ : ∃ x ∈ (l.zipIdx 1).drop (max cursor since), x.2 = l.length := by
      have hlt : l.length - 1 - max cursor since < ((l.zipIdx 1).drop (max cursor since)).length := by
        simp only [List.length_drop, List.length_zipIdx]
        omega
      refine ⟨_, List.getElem_mem hlt, ?_⟩
      simp only [List.getElem_drop, List.getElem_zipIdx]
      omega
    rw [← h] at hx
    have hwindow := mem_window (List.mem_of_mem_filter hx)
    omega
  · rintro (h | h)
    · have hall : window cap cursor l = (l.zipIdx 1).drop cursor := by
        rw [window, List.take_of_length_le]
        simp only [List.length_drop, List.length_zipIdx]
        omega
      rw [hall, filter_drop_zipIdx]
    · have hnil : (l.zipIdx 1).drop (max cursor since) = [] := by
        rw [List.drop_eq_nil_iff, List.length_zipIdx]
        omega
      rw [hnil, List.filter_eq_nil_iff]
      intro x hx
      have hwindow := mem_window hx
      simp only [decide_eq_true_eq]
      omega

theorem mem_polled (hlen : ∀ l ∈ ls, cursor ≤ l.length) (hgrow : ls.Pairwise (· <+: ·)) (h : x ∈ polled cap cursor ls) :
    cursor < x.2 := by
  induction ls generalizing cursor with
  | nil => cases h
  | cons l ls ih =>
    obtain ⟨hl, -⟩ := List.forall_mem_cons.1 hlen
    rw [List.pairwise_cons] at hgrow
    rcases List.mem_append.1 h with h | h
    · exact (mem_window h).1
    · exact lt_of_le_of_lt hl (ih (fun l' hl' => (hgrow.1 l' hl').length_le) hgrow.2 h)

theorem append_inj_of_le {xs ys xs' ys' : List (α × Nat)} (hxs : ∀ x ∈ xs, x.2 ≤ k) (hys : ∀ x ∈ ys, k < x.2)
    (hxs' : ∀ x ∈ xs', x.2 ≤ k) (hys' : ∀ x ∈ ys', k < x.2) : xs ++ ys = xs' ++ ys' ↔ xs = xs' ∧ ys = ys' := by
  have hsplit : ∀ {us vs : List (α × Nat)}, (∀ x ∈ us, x.2 ≤ k) → (∀ x ∈ vs, k < x.2) →
      (us ++ vs).filter (fun x => x.2 ≤ k) = us := by
    intro us vs hus hvs
    rw [List.filter_append, List.filter_eq_self.2 (by simpa using hus), List.filter_eq_nil_iff.2 (by simpa using hvs),
      List.append_nil]
  constructor
  · intro h
    have hleft : xs = xs' := by rw [← hsplit hxs hys, h, hsplit hxs' hys']
    subst hleft
    exact ⟨rfl, List.append_cancel_left h⟩
  · rintro ⟨rfl, rfl⟩
    rfl

theorem filter_polled_iff (hcursor : cursor = since ∨ ∀ m ∈ ls ++ [l], cursor ≤ m.length)
    (hgrow : (ls ++ [l]).Pairwise (· <+: ·)) :
    (polled cap cursor (ls ++ [l])).filter (fun x => since < x.2) = (l.zipIdx 1).drop (max cursor since) ↔
      KeepsUp cap since cursor (ls ++ [l]) := by
  induction ls generalizing cursor with
  | nil => simp [polled, KeepsUp, filter_window_iff]
  | cons l1 ls ih =>
    rw [List.cons_append, List.pairwise_cons] at hgrow
    obtain ⟨hfirst, hrest⟩ := hgrow
    have hlen : ∀ l' ∈ ls ++ [l], l1.length ≤ l'.length := fun l' hl' => (hfirst l' hl').length_le
    have hstart : cursor = since ∨ cursor ≤ l1.length := hcursor.imp_right fun h => h l1 List.mem_cons_self
    -- the whole list is what the first poll saw, and what came later
    obtain ⟨tail, htail⟩ := hfirst l (List.mem_append_right _ List.mem_cons_self)
    have hdrop : (l.zipIdx 1).drop (max cursor since) =
        (l1.zipIdx 1).drop (max cursor since) ++ (l.zipIdx 1).drop (max l1.length since) := by
      have heq : max cursor since - l1.length = max l1.length since - l1.length := by omega
      have hnil : (l1.zipIdx 1).drop (max l1.length since) = [] := by
        rw [List.drop_eq_nil_iff, List.length_zipIdx]
        omega
      rw [← htail, List.zipIdx_append, List.drop_append, List.drop_append, hnil, List.nil_append, List.length_zipIdx, heq]
    rw [List.cons_append, polled, KeepsUp, List.filter_append, hdrop, ← ih (.inr hlen) hrest, ← filter_window_iff]
    refine @append_inj_of_le α l1.length _ _ _ _ (fun x hx => ?_) (fun x hx => ?_) (fun x hx => ?_) fun x hx => ?_
    · exact (mem_window (List.mem_of_mem_filter hx)).2.1
    · exact mem_polled hlen hrest (List.mem_of_mem_filter hx)
    · exact (mem_drop_zipIdx hx).2
    · have hlt := (mem_drop_zipIdx hx).1
      omega

/-- After the last poll the reader has everything behind its first cursor, each element once and in order, exactly if it
kept up. -/
theorem polled_eq_iff (hgrow : (ls ++ [l]).Pairwise (· <+: ·)) :
    (polled cap since (ls ++ [l])).filter (fun x => since < x.2) = (l.zipIdx 1).drop since ↔
      KeepsUp cap since since (ls ++ [l]) := by
  have h := @filter_polled_iff α cap since since l ls (.inl rfl) hgrow
  rwa [max_self] at h

theorem mem_zipIdx_of_mem_polled (hls : ∀ m ∈ ls, m <+: l) (h : x ∈ polled cap cursor ls) : x ∈ l.zipIdx 1 := by
  induction ls generalizing cursor with
  | nil => cases h
  | cons m ls ih =>
    obtain ⟨hm, hls⟩ := List.forall_mem_cons.1 hls
    rcases List.mem_append.1 h with h | h
    · obtain ⟨tail, rfl⟩ := hm
      rw [List.zipIdx_append]
      exact List.mem_append_left _ (List.mem_of_mem_drop (List.mem_of_mem_take h))
    · exact ih hls h

theorem eq_of_map_snd {xs ys : List (α × Nat)} (hxs : ∀ x ∈ xs, x ∈ l.zipIdx 1) (hys : ∀ y ∈ ys, y ∈ l.zipIdx 1)
    (h : xs.map Prod.snd = ys.map Prod.snd) : xs = ys := by
  induction xs generalizing ys with
  | nil =>
    cases ys with
    | nil => rfl
    | cons y ys => cases h
  | cons x xs ih =>
    cases ys with
    | nil => cases h
    | cons y ys =>
      rw [List.map_cons, List.map_cons, List.cons.injEq] at h
      obtain ⟨hx, hxs'⟩ := List.forall_mem_cons.1 hxs
      obtain ⟨hy, hys'⟩ := List.forall_mem_cons.1 hys
      obtain ⟨i, hi, rfl⟩ := List.mem_iff_getElem.1 hx
      obtain ⟨j, hj, rfl⟩ := List.mem_iff_getElem.1 hy
      have hij : i = j := by
        have hnum := h.1
        simp only [List.getElem_zipIdx] at hnum
        omega
      subst hij
      rw [ih hxs' hys' h.2]

theorem map_polled_eq_iff {β : Type*} {f : α × Nat → β} {num : β → Nat} (hf : ∀ x, num (f x) = x.2)
    (hgrow : (ls ++ [l]).Pairwise (· <+: ·)) :
    ((polled cap since (ls ++ [l])).map f).filter (fun b => since < num b) = ((l.zipIdx 1).drop since).map f ↔
      KeepsUp cap since since (ls ++ [l]) := by
  have hfilter : ((polled cap since (ls ++ [l])).map f).filter (fun b => since < num b) =
      ((polled cap since (ls ++ [l])).filter fun x => since < x.2).map f := by
    rw [List.filter_map]
    simp [Function.comp_def, hf]
  rw [hfilter, ← polled_eq_iff hgrow]
  refine ⟨fun h => ?_, fun h => by rw [h]⟩
  have hprefix : ∀ m ∈ ls ++ [l], m <+: l := by
    intro m hm
    rcases List.mem_append.1 hm with hm | hm
    · exact (List.pairwise_append.1 hgrow).2.2 m hm l List.mem_cons_self
    · rw [List.mem_singleton.1 hm]
  have hnum := congrArg (List.map num) h
  simp only [List.map_map, Function.comp_def, hf] at hnum
  refine eq_of_map_snd (fun x hx => ?_) (fun x hx => List.mem_of_mem_drop hx) hnum
  exact mem_zipIdx_of_mem_polled hprefix (List.mem_of_mem_filter hx)

end Polling
