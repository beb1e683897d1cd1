import Mathlib.Tactic.Common

/-!
# Runs

A run of a system is a sequence of labelled steps.  The system is a relation `step s a s'`: in state `s` the label `a`
can lead to `s'`.
-/

namespace Runs

variable {σ α : Type*}

/-- The steps `as` lead from one state to another. -/
inductive Run (step : σ → α → σ → Prop) : σ → List α → σ → Prop where
  | nil (s : σ) : Run step s [] s
  | cons {s s₁ s' : σ} {a : α} {as : List α} (first : step s a s₁) (rest : Run step s₁ as s') : Run step s (a :: as) s'

/-- The same steps, each taken only where `ok` allows it. -/
def guarded (ok : σ → α → Prop) (step : σ → α → σ → Prop) (s : σ) (a : α) (s' : σ) : Prop := ok s a ∧ step s a s'

variable {step : σ → α → σ → Prop} {s s' : σ} {as : List α}

theorem Run.invariant_of_mem {I : σ → Prop} (h : Run step s as s')
    (hstep : ∀ a ∈ as, ∀ s s', I s → step s a s' → I s') (hs : I s) : I s' := by
  induction h with
  | nil => exact hs
  | cons first _ ih =>
    exact ih (fun a ha => hstep a (List.mem_cons_of_mem _ ha)) (hstep _ List.mem_cons_self _ _ hs first)

theorem Run.invariant {I : σ → Prop} (h : Run step s as s') (hstep : ∀ s a s', I s → step s a s' → I s') (hs : I s) :
    I s' :=
  h.invariant_of_mem (fun a _ s s' => hstep s a s') hs

theorem Run.mono {step' : σ → α → σ → Prop} (h : Run step s as s') (hstep : ∀ s a s', step s a s' → step' s a s') :
    Run step' s as s' := by
  induction h with
  | nil s => exact .nil s
  | cons first _ ih => exact .cons (hstep _ _ _ first) ih

theorem Run.append {s1 : σ} {bs : List α} (h : Run step s as s1) (h' : Run step s1 bs s') : Run step s (as ++ bs) s' := by
  induction h with
  | nil => exact h'
  | cons first _ ih => exact .cons first (ih h')

theorem Run.exists_cons {P : σ → Prop} {s1 : σ} {a : α} (first : step s a s1) (rest : ∃ s', Run step s1 as s' ∧ P s') :
    ∃ s', Run step s (a :: as) s' ∧ P s' := by
  obtain ⟨s', hrun, hs'⟩ := rest
  exact ⟨s', .cons first hrun, hs'⟩

theorem Run.single {a : α} (h : step s a s') : Run step s [a] s' := .cons h (.nil s')

/-- Take the steps of a function one by one, as long as each of them is allowed and leads somewhere. -/
def exec (ok : σ → α → Prop) [∀ s a, Decidable (ok s a)] (next : σ → α → Option σ) : σ → List α → Option σ
  | s, [] => some s
  | s, a :: as => if ok s a then (next s a).bind (exec ok next · as) else none

theorem run_of_exec {ok : σ → α → Prop} [∀ s a, Decidable (ok s a)] {next : σ → α → Option σ}
    (hnext : ∀ s a s', next s a = some s' → step s a s') (h : exec ok next s as = some s') :
    Run (guarded ok step) s as s' := by
  induction as generalizing s with
  | nil =>
    cases h
    exact .nil _
  | cons a as ih =>
    simp only [exec] at h
    split_ifs at h with hok
    obtain ⟨s1, hfirst, hrest⟩ := Option.bind_eq_some_iff.1 h
    exact .cons ⟨hok, hnext s a s1 hfirst⟩ (ih hrest)

end Runs
