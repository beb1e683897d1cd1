import Mathlib.Tactic.Common

/-!
# Stateful programs that may fail

`EStateM ε σ` runs from a state and ends with a value or an error; the state at the end is kept in both cases.  The
lemmas compute a run step by step.
-/

namespace Exec

variable {ε σ α β : Type}

@[simp] theorem bind_apply (x : EStateM ε σ α) (f : α → EStateM ε σ β) (s : σ) :
    (x >>= f) s = match x s with
      | .ok a s' => f a s'
      | .error e s' => .error e s' := rfl

@[simp] theorem pure_apply (a : α) (s : σ) : (pure a : EStateM ε σ α) s = .ok a s := rfl

@[simp] theorem get_apply (s : σ) : (get : EStateM ε σ σ) s = .ok s s := rfl

@[simp] theorem set_apply (s s' : σ) : (set s' : EStateM ε σ PUnit) s = .ok ⟨⟩ s' := rfl

@[simp] theorem modify_apply (f : σ → σ) (s : σ) : (modify f : EStateM ε σ PUnit) s = .ok ⟨⟩ (f s) := rfl

@[simp] theorem throw_apply (e : ε) (s : σ) : (throw e : EStateM ε σ α) s = .error e s := rfl

def finalState : EStateM.Result ε σ α → σ
  | .ok _ s => s
  | .error _ s => s

@[simp] theorem finalState_ok (a : α) (s : σ) : finalState (.ok a s : EStateM.Result ε σ α) = s := rfl

@[simp] theorem finalState_error (e : ε) (s : σ) : finalState (.error e s : EStateM.Result ε σ α) = s := rfl

variable {x : EStateM ε σ α} {s : σ}

theorem finalState_bind {f : α → EStateM ε σ β} (hx : finalState (x s) = s)
    (hf : ∀ a, finalState (f a s) = s) : finalState ((x >>= f) s) = s := by
  rw [bind_apply]
  cases h : x s with
  | ok a s' =>
    rw [h, finalState_ok] at hx
    rw [hx]
    exact hf a
  | error e s' =>
    rw [h, finalState_error] at hx
    exact hx

theorem finalState_bind_pure (x : EStateM ε σ α) (f : α → β) (s : σ) :
    finalState ((x >>= fun a => pure (f a)) s) = finalState (x s) := by
  rw [bind_apply]
  cases x s <;> rfl

theorem bind_pure_eq_ok {f : α → β} {s' : σ} {b : β} :
    (x >>= fun a => pure (f a)) s = .ok b s' ↔ ∃ a, x s = .ok a s' ∧ f a = b := by
  rw [bind_apply]
  cases x s <;> simp [and_comm]

def okResult : EStateM.Result ε σ α → Option (α × σ)
  | .ok a s => some (a, s)
  | .error _ _ => none

theorem okResult_eq_some {r : EStateM.Result ε σ α} {x : α × σ} : okResult r = some x ↔ r = .ok x.1 x.2 := by
  obtain ⟨a, s⟩ := x
  cases r <;> simp [okResult]

def okState (r : EStateM.Result ε σ α) : Option σ := (okResult r).map (·.2)

theorem okState_eq_some {r : EStateM.Result ε σ PUnit} : okState r = some s ↔ r = .ok ⟨⟩ s := by
  cases r <;> simp [okState, okResult]

def failure : EStateM.Result ε σ α → Option ε
  | .ok _ _ => none
  | .error e _ => some e

theorem failure_eq_some {r : EStateM.Result ε σ α} {e : ε} : failure r = some e ↔ ∃ s, r = .error e s := by
  cases r <;> simp [failure]

variable {s₁ : σ}

theorem bind_ok {f : α → EStateM ε σ β} {a : α} (h : x s = .ok a s₁) :
    (x >>= f) s = f a s₁ := by
  rw [bind_apply, h]

theorem bind_error {f : α → EStateM ε σ β} {e : ε} (h : x s = .error e s₁) :
    (x >>= f) s = .error e s₁ := by
  rw [bind_apply, h]

/-! ### Loops -/

variable {f : α → EStateM ε σ PUnit} {l : List α}

theorem forM_cons_ok {a : α} (h : f a s = .ok ⟨⟩ s₁) :
    (a :: l).forM f s = l.forM f s₁ :=
  bind_ok (f := fun _ => l.forM f) h

theorem forM_simulates {τ : Type} {I : σ → τ → Prop} {g : τ → α → τ}
    (step : ∀ a ∈ l, ∀ s t, I s t → ∃ s', f a s = .ok ⟨⟩ s' ∧ I s' (g t a)) {t : τ} (h : I s t) :
    ∃ s', l.forM f s = .ok ⟨⟩ s' ∧ I s' (l.foldl g t) := by
  induction l generalizing s t with
  | nil => exact ⟨s, rfl, h⟩
  | cons a l ih =>
    obtain ⟨hstep, hrest⟩ := List.forall_mem_cons.1 step
    obtain ⟨s₁, h1, hI₁⟩ := hstep s t h
    obtain ⟨s2, h2, hI₂⟩ := ih hrest hI₁
    exact ⟨s2, (forM_cons_ok h1).trans h2, hI₂⟩

theorem forM_unchanged (h : ∀ a ∈ l, f a s = .ok ⟨⟩ s) :
    l.forM f s = .ok ⟨⟩ s := by
  obtain ⟨s', h', rfl⟩ := forM_simulates (I := fun s' (_ : Unit) => s' = s) (g := fun _ _ => ()) (l := l) (f := f)
    (fun a ha s' _ hs => ⟨s, hs ▸ h a ha, rfl⟩) (s := s) (t := ()) rfl
  exact h'

theorem forM_processed {I : List α → σ → Prop}
    (step : ∀ pre a post, l = pre ++ a :: post → ∀ s, I pre s → ∃ s', f a s = .ok ⟨⟩ s' ∧ I (pre ++ [a]) s')
    (h : I [] s) : ∃ s', l.forM f s = .ok ⟨⟩ s' ∧ I l s' := by
  have go : ∀ rest pre, l = pre ++ rest → ∀ s, I pre s → ∃ s', rest.forM f s = .ok ⟨⟩ s' ∧ I l s' := by
    intro rest
    induction rest with
    | nil =>
      rintro pre hl s hs
      rw [List.append_nil] at hl
      exact ⟨s, rfl, hl ▸ hs⟩
    | cons a rest ih =>
      rintro pre hl s hs
      obtain ⟨s₁, h1, hI₁⟩ := step pre a rest hl s hs
      obtain ⟨s2, h2, hI₂⟩ := ih (pre ++ [a]) (by rw [hl, List.append_assoc]; rfl) s₁ hI₁
      exact ⟨s2, (forM_cons_ok h1).trans h2, hI₂⟩
  exact go l [] rfl s h

end Exec
