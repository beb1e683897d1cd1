import Mathlib.Data.List.Nodup
import Mathlib.Tactic.Common

/-!
# Shipping a log by count

A reader that has `n` records of a log asks for those from `n` on and appends what it has not seen, by key.  As long as
the logs of two such readers are one an initial part of the other, they stay so (`comparable_absorb`): whatever piece of
the other log arrives, however late, it only brings the shorter one closer.
-/

namespace Shipping

variable {α κ : Type} [BEq κ] (key : α → κ)

/-- The records of a batch that are new: neither among the keys seen nor earlier in the batch. -/
def unseen : List κ → List α → List α
  | _, [] => []
  | seen, a :: rest => if seen.contains (key a) then unseen seen rest else a :: unseen (key a :: seen) rest

def Comparable (l m : List α) : Prop := l <+: m ∨ m <+: l

variable {key} {seen : List κ} {l m batch : List α}

theorem mem_of_mem_unseen {a : α} (h : a ∈ unseen key seen batch) : a ∈ batch := by
  fun_induction unseen key seen batch with
  | case1 => exact h
  | case2 seen b rest _ ih => exact List.mem_cons_of_mem _ (ih h)
  | case3 seen b rest _ ih =>
    rcases List.mem_cons.1 h with rfl | h
    · exact List.mem_cons_self
    · exact List.mem_cons_of_mem _ (ih h)

theorem length_unseen_le (seen : List κ) (batch : List α) : (unseen key seen batch).length ≤ batch.length := by
  fun_induction unseen key seen batch with
  | case1 => exact Nat.le_refl _
  | case2 seen b rest _ ih => exact Nat.le_succ_of_le ih
  | case3 seen b rest _ ih => exact Nat.succ_le_succ ih

variable [LawfulBEq κ]

theorem unseen_append_of_seen {front back : List α} (h : ∀ a ∈ front, key a ∈ seen) :
    unseen key seen (front ++ back) = unseen key seen back := by
  induction front with
  | nil => rfl
  | cons a front ih =>
    obtain ⟨ha, hfront⟩ := List.forall_mem_cons.1 h
    rw [List.cons_append, unseen, if_pos (List.contains_iff_mem.2 ha), ih hfront]

theorem unseen_of_fresh (hnew : ∀ a ∈ batch, key a ∉ seen) (hnd : (batch.map key).Nodup) :
    unseen key seen batch = batch := by
  induction batch generalizing seen with
  | nil => rfl
  | cons a rest ih =>
    obtain ⟨ha, hrest⟩ := List.forall_mem_cons.1 hnew
    rw [List.map_cons, List.nodup_cons] at hnd
    rw [unseen, if_neg (by simpa using ha)]
    congr 1
    refine ih (fun b hb hmem => ?_) hnd.2
    rcases List.mem_cons.1 hmem with heq | hmem
    · exact hnd.1 (heq ▸ List.mem_map_of_mem hb)
    · exact hrest b hb hmem

theorem unseen_of_seen (h : ∀ a ∈ batch, key a ∈ seen) : unseen key seen batch = [] := by
  have happ : unseen key seen (batch ++ []) = unseen key seen [] := unseen_append_of_seen h
  rwa [List.append_nil] at happ

theorem key_not_mem_of_mem_unseen {a : α} (h : a ∈ unseen key seen batch) : key a ∉ seen := by
  fun_induction unseen key seen batch with
  | case1 => cases h
  | case2 seen b rest _ ih => exact ih h
  | case3 seen b rest hb ih =>
    rcases List.mem_cons.1 h with rfl | h
    · exact fun hmem => hb (List.contains_iff_mem.2 hmem)
    · exact fun hmem => ih h (List.mem_cons_of_mem _ hmem)

theorem nodup_unseen : ((unseen key seen batch).map key).Nodup := by
  fun_induction unseen key seen batch with
  | case1 => exact List.nodup_nil
  | case2 seen b rest _ ih => exact ih
  | case3 seen b rest _ ih =>
    rw [List.map_cons, List.nodup_cons]
    refine ⟨fun hmem => ?_, ih⟩
    obtain ⟨a, ha, heq⟩ := List.mem_map.1 hmem
    exact key_not_mem_of_mem_unseen ha (heq ▸ List.mem_cons_self)

theorem key_mem_seen_or_unseen {a : α} (h : a ∈ batch) : key a ∈ seen ∨ key a ∈ (unseen key seen batch).map key := by
  fun_induction unseen key seen batch with
  | case1 => cases h
  | case2 seen b rest hb ih =>
    rcases List.mem_cons.1 h with rfl | h
    · exact .inl (List.contains_iff_mem.1 hb)
    · exact ih h
  | case3 seen b rest _ ih =>
    rw [List.map_cons, List.mem_cons]
    rcases List.mem_cons.1 h with rfl | h
    · exact .inr (.inl rfl)
    · rcases ih h with hs | hs
      · exact (List.mem_cons.1 hs).elim (fun heq => .inr (.inl heq)) .inl
      · exact .inr (.inr hs)

/-- What a reader with the log `l` makes of a piece of the log `m` that starts no further than its own end. -/
theorem absorb_initial (hl : l <+: m) (hnd : (m.map key).Nodup) {start : Nat} (hstart : start ≤ l.length)
    (hbatch : batch <+: m.drop start) : l ++ unseen key (l.map key) batch <+: m := by
  obtain ⟨rest, rfl⟩ := hl
  -- the first part of the batch lies in `l`, the rest behind it
  have hdrop : (l ++ rest).drop start = l.drop start ++ rest := List.drop_append_of_le_length hstart
  rw [hdrop] at hbatch
  have hfront : ∀ a ∈ batch.take (l.length - start), key a ∈ l.map key := by
    intro a ha
    have hpre : batch.take (l.length - start) <+: l.drop start := by
      rw [List.prefix_iff_eq_take.1 hbatch, List.take_take, Nat.min_comm, ← List.take_take, ← List.length_drop,
        List.take_left]
      exact List.take_prefix _ _
    exact List.mem_map_of_mem (List.mem_of_mem_drop (hpre.subset ha))
  have hback : batch.drop (l.length - start) <+: rest := by
    have hrest : (l.drop start ++ rest).drop (l.length - start) = rest := by
      rw [← List.length_drop, List.drop_left]
    rw [List.prefix_iff_eq_take.1 hbatch, List.drop_take, hrest]
    exact List.take_prefix _ _
  rw [List.map_append, List.nodup_append] at hnd
  obtain ⟨_, hndr, hdisj⟩ := hnd
  have hsub := hback.subset
  have hnew : unseen key (l.map key) (batch.drop (l.length - start)) = batch.drop (l.length - start) := by
    refine unseen_of_fresh (fun a ha hmem => ?_) ?_
    · exact hdisj _ hmem _ (List.mem_map_of_mem (hsub ha)) rfl
    · exact hndr.sublist (hback.map key).sublist
  rw [← List.take_append_drop (l.length - start) batch, unseen_append_of_seen hfront, hnew]
  exact (List.prefix_append_right_inj l).2 hback

theorem comparable_absorb (h : Comparable l m) (hl : (l.map key).Nodup) (hm : (m.map key).Nodup) {start : Nat}
    (hstart : start ≤ l.length) (hbatch : batch <+: m.drop start) :
    Comparable (l ++ unseen key (l.map key) batch) m ∧ ((l ++ unseen key (l.map key) batch).map key).Nodup := by
  rcases h with h | h
  · have hpre := absorb_initial h hm hstart hbatch
    exact ⟨.inl hpre, hm.sublist (hpre.map key).sublist⟩
  · have hsub : ∀ a ∈ batch, key a ∈ l.map key :=
      fun a ha => List.mem_map_of_mem (h.subset (List.mem_of_mem_drop (hbatch.subset ha)))
    rw [unseen_of_seen hsub, List.append_nil]
    exact ⟨.inr h, hl⟩

theorem Comparable.symm (h : Comparable l m) : Comparable m l := Or.symm h

theorem Comparable.initial_of_length_le (h : Comparable l m) (hlen : l.length ≤ m.length) : l <+: m := by
  rcases h with h | h
  · exact h
  · exact (h.eq_of_length_le hlen) ▸ List.prefix_rfl

end Shipping
