import Mathlib.Data.List.Basic
import Mathlib.Data.List.Induction
import Mathlib.Tactic.Common

/-!
# Hash chains

A list of items folded into one head by a link function `f`, each item linked to the head before it.  When `f` has no
collision among the links of two chains and never comes back to the start, equal heads have equal lists behind them
(`eq_of_foldl_eq`): the last links agree, so the items and the heads before them do.
-/

namespace HashChain

variable {H X : Type} (f : H → X → H)

/-- The links of a chain: the head before each item, with the item. -/
def links : H → List X → List (H × X)
  | _, [] => []
  | h, x :: xs => (h, x) :: links (f h x) xs

theorem links_concat (h : H) (xs : List X) (x : X) : links f h (xs ++ [x]) = links f h xs ++ [(xs.foldl f h, x)] := by
  induction xs generalizing h with
  | nil => rfl
  | cons y ys ih => simp [links, ih]

variable {f} {start : H} {S : List (H × X)}

theorem eq_of_foldl_eq (hinj : ∀ p ∈ S, ∀ q ∈ S, f p.1 p.2 = f q.1 q.2 → p = q) (hstart : ∀ p ∈ S, f p.1 p.2 ≠ start)
    {xs ys : List X} (hx : links f start xs ⊆ S) (hy : links f start ys ⊆ S)
    (h : xs.foldl f start = ys.foldl f start) : xs = ys := by
  -- from the last item backwards, along `xs`
  induction xs using List.reverseRecOn generalizing ys with
  | nil =>
    rcases List.eq_nil_or_concat' ys with rfl | ⟨ys, y, rfl⟩
    · rfl
    · rw [links_concat] at hy
      rw [List.foldl_append, List.foldl_nil] at h
      exact absurd h.symm (hstart (_, y) (hy (by simp)))
  | append_singleton xs x ih =>
    rw [links_concat] at hx
    obtain ⟨hxs, hlast⟩ := List.append_subset.1 hx
    rw [List.foldl_append] at h
    rcases List.eq_nil_or_concat' ys with rfl | ⟨ys, y, rfl⟩
    · exact absurd h (hstart (_, x) (hlast (by simp)))
    · rw [links_concat] at hy
      obtain ⟨hys, hlast'⟩ := List.append_subset.1 hy
      rw [List.foldl_append] at h
      have hlink := hinj (_, x) (hlast (by simp)) (_, y) (hlast' (by simp)) h
      obtain ⟨hhead, rfl⟩ := Prod.mk.inj hlink
      rw [ih hxs hys hhead]

end HashChain
