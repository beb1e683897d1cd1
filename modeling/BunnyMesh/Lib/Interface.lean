import BunnyMesh.Lib.Exec

/-!
# Programs over an interface

A program that runs next to others, as the tree of the calls it makes on what they share.  The calls are data, so the
rules of a run can look at the call a program is about to make.  A discipline says, in terms of a private account `γ` of
the program, what a call asks of it and what it may count on afterwards; `Keeps D Q p g` says that the program `p`,
started with the account `g`, follows the discipline to its end and then has `Q`.  A program that runs alone has a meaning
of its own, `interpret`, given what each call does to a state.
-/

namespace Interface

/-- A program over the calls `O` with result in `ρ`. -/
inductive Prog (O : Type → Type 1) (ρ : Type) : Type 1 where
  | ret (r : ρ)
  | call {β : Type} (o : O β) (k : β → Prog O ρ)

variable {O : Type → Type 1} {α β γ ρ : Type}

namespace Prog

def bind : Prog O α → (α → Prog O ρ) → Prog O ρ
  | ret a, f => f a
  | call o k, f => call o fun b => (k b).bind f

instance : Monad (Prog O) where
  pure := ret
  bind := bind

def op (o : O β) : Prog O β := call o ret

def Next (P : {β : Type} → O β → Prop) : Prog O ρ → Prop
  | ret _ => True
  | call o _ => P o

instance (P : {β : Type} → O β → Prop) [∀ (β : Type) (o : O β), Decidable (P o)] : (p : Prog O ρ) → Decidable (p.Next P)
  | ret _ => inferInstanceAs (Decidable True)
  | call o _ => inferInstanceAs (Decidable (P o))

end Prog

/-- What a call asks for, as a weakest precondition: `wp o g Q` lets a program with the account `g` make the call `o` and
go on, whatever the answer, with an account that has `Q`. -/
structure Discipline (O : Type → Type 1) (γ : Type) where
  wp : {β : Type} → O β → γ → (β → γ → Prop) → Prop
  mono : ∀ {β : Type} (o : O β) (g : γ) {Q Q' : β → γ → Prop}, (∀ b g', Q b g' → Q' b g') → wp o g Q → wp o g Q'

namespace Prog

variable {D : Discipline O γ} {P : α → γ → Prop} {Q Q' : ρ → γ → Prop} {g : γ}

/-- The program follows the discipline and ends with `Q`. -/
def Keeps (D : Discipline O γ) (Q : ρ → γ → Prop) : Prog O ρ → γ → Prop
  | ret r, g => Q r g
  | call o k, g => D.wp o g fun b g' => (k b).Keeps D Q g'

variable {p : Prog O ρ}

theorem Keeps.mono (h : p.Keeps D Q g) (hQ : ∀ r g, Q r g → Q' r g) : p.Keeps D Q' g := by
  induction p generalizing g with
  | ret r => exact hQ r g h
  | call o k ih => exact D.mono o g (fun b g' hb => ih b hb) h

theorem Keeps.bind {p : Prog O α} {f : α → Prog O ρ} (hp : p.Keeps D P g) (hf : ∀ a g, P a g → (f a).Keeps D Q g) :
    Keeps D Q (p >>= f) g := by
  induction p generalizing g with
  | ret a => exact hf a g hp
  | call o k ih => exact D.mono o g (fun b g' hb => ih b hb) hp

/-- A program that follows a discipline follows every other one whose calls ask for no more, account by account. -/
theorem Keeps.simulate {γ' : Type} {D' : Discipline O γ'} {R : γ → γ' → Prop} {g' : γ'}
    (h : p.Keeps D Q g) (hR : R g g') (hwp : ∀ {β : Type} (o : O β) (g : γ) (g' : γ') (P : β → γ → Prop), R g g' →
      D.wp o g P → D'.wp o g' fun b h' => ∃ h, R h h' ∧ P b h) : p.Keeps D' (fun r h' => ∃ h, R h h' ∧ Q r h) g' := by
  induction p generalizing g g' with
  | ret r => exact ⟨g, hR, h⟩
  | call o k ih =>
    refine D'.mono o g' (fun b h' hb => ?_) (hwp o g g' _ hR h)
    obtain ⟨g1, hR₁, hk⟩ := hb
    exact ih b hk hR₁

theorem Keeps.op_bind {o : O β} {f : β → Prog O ρ} (h : D.wp o g fun b g' => (f b).Keeps D Q g') :
    Keeps D Q (op o >>= f) g := h

theorem Keeps.foldlM {J : ρ → γ → Prop} {f : ρ → α → Prog O ρ} {l : List α} {r : ρ} (h : J r g)
    (hf : ∀ r g, ∀ a ∈ l, J r g → (f r a).Keeps D J g) : (l.foldlM f r).Keeps D J g := by
  induction l generalizing r g with
  | nil => exact h
  | cons a l ih =>
    exact (hf r g a List.mem_cons_self h).bind fun r' g' h' =>
      ih h' fun r g b hb => hf r g b (List.mem_cons_of_mem a hb)

def Silent (D : Discipline O γ) (p : Prog O ρ) : Prop := ∀ g, p.Keeps D (fun _ g' => g' = g) g

theorem Silent.pure {r : ρ} : Silent D (Pure.pure r : Prog O ρ) := fun _ => rfl

theorem Silent.bind {p : Prog O α} {f : α → Prog O ρ} (hp : Silent D p) (hf : ∀ a, Silent D (f a)) : Silent D (p >>= f) :=
  fun g => (hp g).bind fun a _ hg => hg ▸ hf a g

theorem Silent.ite {c : Prop} [Decidable c] {q : Prog O ρ} (hp : Silent D p) (hq : Silent D q) :
    Silent D (if c then p else q) := by
  split
  · exact hp
  · exact hq

/-! ### Alone -/

/-- The program on a state that nobody else changes; `f` says what a call does. -/
def interpret {ε σ : Type} (f : {β : Type} → O β → EStateM ε σ β) : Prog O ρ → EStateM ε σ ρ
  | ret r => pure r
  | call o k => f o >>= fun b => (k b).interpret f

theorem interpret_bind {ε σ : Type} (f : {β : Type} → O β → EStateM ε σ β) (p : Prog O α) (k : α → Prog O ρ) :
    (p >>= k).interpret f = p.interpret f >>= fun a => (k a).interpret f := by
  induction p with
  | ret a => rfl
  | call o next ih =>
    change (f o >>= fun b => (next b >>= k).interpret f) = (f o >>= fun b => (next b).interpret f) >>= _
    rw [bind_assoc, funext ih]

theorem Keeps.interpret {ε σ : Type} {f : {β : Type} → O β → EStateM ε σ β} {I : γ → σ → Prop} {s : σ}
    (h : p.Keeps D Q g) (hI : I g s) (hcall : ∀ {β : Type} (o : O β) (g : γ) (s : σ) (P : β → γ → Prop), I g s →
      D.wp o g P → ∃ b s' g', f o s = .ok b s' ∧ I g' s' ∧ P b g') :
    ∃ r s' g', p.interpret f s = .ok r s' ∧ I g' s' ∧ Q r g' := by
  induction p generalizing g s with
  | ret r => exact ⟨r, s, g, rfl, hI, h⟩
  | call o k ih =>
    obtain ⟨b, s', g', hb, hI', hk⟩ := hcall o g s _ hI h
    obtain ⟨r, s'', g'', hr, hI'', hQ⟩ := ih b hk hI'
    refine ⟨r, s'', g'', ?_, hI'', hQ⟩
    show (f o >>= fun b => (k b).interpret f) s = _
    rw [Exec.bind_apply, hb]
    exact hr

end Prog

end Interface
