import Mathlib.Tactic.Common

/-!
# Programs that share a state

A program that runs next to others is a tree of its atomic accesses to what they share.  `χ` is what the environment
decides at an access (a reading of the clock, whether a lock is free).  Threads are verified one at a time: where every
access of every program keeps an invariant of the shared state, and the program is right for every answer an access can
give under that invariant (`Prog.Safe`), it does not matter how the accesses of several threads alternate
(`Pool.Safe.access`).
-/

namespace Threads

/-- A program over the shared state `σ` with result in `ρ`. -/
inductive Prog (σ χ ρ : Type) : Type 1 where
  | ret (r : ρ)
  | act {β : Type} (f : χ → σ → β × σ) (k : β → Prog σ χ ρ)

variable {σ χ ρ : Type}

namespace Prog

def bind {α : Type} : Prog σ χ α → (α → Prog σ χ ρ) → Prog σ χ ρ
  | ret a, g => g a
  | act f k, g => act f fun b => (k b).bind g

instance : Monad (Prog σ χ) where
  pure := ret
  bind := bind

def access {β : Type} (f : χ → σ → β × σ) : Prog σ χ β := act f ret

/-- The next access, under the environment's choice `c`. -/
def next (c : χ) (s : σ) : Prog σ χ ρ → Option (Prog σ χ ρ × σ)
  | ret _ => none
  | act f k => some (k (f c s).1, (f c s).2)

/-- The program run to its end with nothing in between, the environment deciding every time alike. -/
def alone (c : χ) : Prog σ χ ρ → σ → ρ × σ
  | ret r, s => (r, s)
  | act f k, s => (k (f c s).1).alone c (f c s).2

/-- Whatever the accesses find under the invariant `I`, they keep it, and the result is as `Q` says. -/
def Safe (I : σ → Prop) (Q : ρ → Prop) : Prog σ χ ρ → Prop
  | ret r => Q r
  | act f k => ∀ c s, I s → I (f c s).2 ∧ (k (f c s).1).Safe I Q

variable {I : σ → Prop} {Q : ρ → Prop}

theorem Safe.bind {α : Type} {P : α → Prop} {p : Prog σ χ α} {g : α → Prog σ χ ρ} (hp : p.Safe I P)
    (hg : ∀ a, P a → (g a).Safe I Q) : (p >>= g).Safe I Q := by
  induction p with
  | ret a => exact hg a hp
  | act f k ih =>
    intro c s hs
    obtain ⟨hI, hk⟩ := hp c s hs
    exact ⟨hI, ih _ hk⟩

theorem safe_access {β : Type} {P : β → Prop} {f : χ → σ → β × σ} (h : ∀ c s, I s → I (f c s).2 ∧ P (f c s).1) :
    (access f).Safe I P :=
  h

theorem Safe.next {p p' : Prog σ χ ρ} {c : χ} {s s' : σ} (hp : p.Safe I Q) (hs : I s) (h : p.next c s = some (p', s')) :
    I s' ∧ p'.Safe I Q := by
  cases p with
  | ret r => cases h
  | act f k =>
    obtain ⟨rfl, rfl⟩ := Prod.mk.injEq .. ▸ Option.some.inj h
    exact hp c s hs

theorem Safe.alone {p : Prog σ χ ρ} {s : σ} (hp : p.Safe I Q) (hs : I s) (c : χ) : Q (p.alone c s).1 := by
  induction p generalizing s with
  | ret r => exact hp
  | act f k ih =>
    obtain ⟨hI, hk⟩ := hp c s hs
    exact ih _ hk hI

end Prog

/-! ### Several threads -/

/-- Threads, each with what it was started for. -/
abbrev Pool (ι σ χ ρ : Type) := List (ι × Prog σ χ ρ)

/-- Every thread is safe for the result it owes. -/
def Pool.Safe {ι : Type} (pool : Pool ι σ χ ρ) (I : σ → Prop) (Q : ι → ρ → Prop) : Prop :=
  ∀ t ∈ pool, t.2.Safe I (Q t.1)

variable {ι : Type} {pool : Pool ι σ χ ρ} {I : σ → Prop} {Q : ι → ρ → Prop}

theorem Pool.Safe.start {a : ι} {p : Prog σ χ ρ} (h : pool.Safe I Q) (hp : p.Safe I (Q a)) :
    Pool.Safe (pool ++ [(a, p)]) I Q := by
  intro t ht
  rcases List.mem_append.1 ht with ht | ht
  · exact h t ht
  · rw [List.mem_singleton.1 ht]
    exact hp

theorem Pool.Safe.access {i : Nat} {a : ι} {p p' : Prog σ χ ρ} {c : χ} {s s' : σ} (h : pool.Safe I Q) (hs : I s)
    (hi : pool[i]? = some (a, p)) (hp : p.next c s = some (p', s')) :
    I s' ∧ Pool.Safe (pool.set i (a, p')) I Q := by
  obtain ⟨hs', hp'⟩ := (h _ (List.mem_of_getElem? hi)).next hs hp
  refine ⟨hs', fun t ht => ?_⟩
  rcases List.mem_or_eq_of_mem_set ht with ht | rfl
  · exact h t ht
  · exact hp'

end Threads
