import BunnyMesh.Lib.Exec

/-!
# Pre- and postconditions

`Triple P x Q` says: started in a state with `P`, if the program `x` succeeds, its value and the state it leaves have
`Q`.  A failing run promises nothing.  `Keeps I x` is the case of an invariant; `Always I x` keeps the invariant even
where `x` fails.  `Total P x Q` says in addition that `x` succeeds.
-/

namespace Exec

variable {ε σ α β : Type}

def Triple (P : σ → Prop) (x : EStateM ε σ α) (Q : α → σ → Prop) : Prop :=
  ∀ s, P s → ∀ a s', x s = .ok a s' → Q a s'

/-- The program keeps the invariant. -/
abbrev Keeps (I : σ → Prop) (x : EStateM ε σ α) : Prop := Triple I x fun _ => I

variable {P P' : σ → Prop} {Q Q' : α → σ → Prop} {R : β → σ → Prop} {x : EStateM ε σ α} {f : α → EStateM ε σ β}

theorem Triple.conseq (h : Triple P x Q) (hpre : ∀ s, P' s → P s) (hpost : ∀ a s, Q a s → Q' a s) : Triple P' x Q' :=
  fun s hs a s' hx => hpost a s' (h s (hpre s hs) a s' hx)

theorem Triple.pure {a : α} (h : ∀ s, P s → Q a s) : Triple P (Pure.pure a : EStateM ε σ α) Q := by
  intro s hs b s' hx
  cases hx
  exact h s hs

theorem Triple.bind (hx : Triple P x Q) (hf : ∀ a, Triple (Q a) (f a) R) : Triple P (x >>= f) R := by
  intro s hs b s' hrun
  rw [bind_apply] at hrun
  cases hxs : x s with
  | ok a s1 =>
    rw [hxs] at hrun
    exact hf a s1 (hx s hs a s1 hxs) b s' hrun
  | error e s1 =>
    rw [hxs] at hrun
    cases hrun

theorem Triple.get_bind {f : σ → EStateM ε σ β} (h : ∀ s, P s → Triple (· = s) (f s) R) : Triple P (get >>= f) R :=
  fun s hs b s' hrun => h s hs s rfl b s' hrun

theorem Triple.modify {f : σ → σ} {Q : PUnit → σ → Prop} (h : ∀ s, P s → Q ⟨⟩ (f s)) :
    Triple P (modify f : EStateM ε σ PUnit) Q := by
  intro s hs a s' hx
  cases hx
  exact h s hs

theorem Triple.throw {e : ε} : Triple P (throw e : EStateM ε σ α) Q := by
  intro s hs a s' hx
  cases hx

variable {c : Prop} {y : EStateM ε σ α} {l : List α}

theorem Triple.ite [Decidable c] {x : EStateM ε σ α} (ht : c → Triple P x Q) (he : ¬ c → Triple P y Q) :
    Triple P (if c then x else y) Q := by
  split
  · exact ht ‹_›
  · exact he ‹_›

variable {I : σ → Prop}

theorem Keeps.get_bind {f : σ → EStateM ε σ β} (h : ∀ s, I s → Keeps I (f s)) : Keeps I (get >>= f) :=
  Triple.get_bind fun s hs => (h s hs).conseq (fun _ e => e ▸ hs) fun _ _ h => h

theorem Keeps.bind (hx : Keeps I x) (hf : ∀ a, Keeps I (f a)) : Keeps I (x >>= f) := Triple.bind hx hf

theorem Keeps.pure {a : α} : Keeps I (Pure.pure a : EStateM ε σ α) := Triple.pure fun _ h => h

theorem Keeps.forM {f : α → EStateM ε σ PUnit} (h : ∀ a ∈ l, Keeps I (f a)) : Keeps I (l.forM f) := by
  induction l with
  | nil => exact Keeps.pure
  | cons a l ih =>
    exact Keeps.bind (h a List.mem_cons_self) fun _ => ih fun b hb => h b (List.mem_cons_of_mem _ hb)

theorem Triple.forM_false [DecidableEq α] {f : α → EStateM ε σ PUnit} {a : α} (ha : a ∈ l)
    (hkeep : ∀ b ∈ l, b ≠ a → Keeps I (f b)) (hfail : Triple I (f a) fun _ _ => False) :
    Triple I (l.forM f) fun _ _ => False := by
  induction l with
  | nil => cases ha
  | cons b l ih =>
    by_cases hb : b = a
    · subst hb
      exact Triple.bind hfail fun _ _ h => h.elim
    · have hl : a ∈ l := (List.mem_cons.1 ha).resolve_left (Ne.symm hb)
      exact Triple.bind (hkeep b List.mem_cons_self hb) fun _ =>
        ih hl fun c hc hne => hkeep c (List.mem_cons_of_mem _ hc) hne

/-! ### Invariants that survive a failure -/

/-- The program keeps the invariant, whether it succeeds or fails. -/
def Always (I : σ → Prop) (x : EStateM ε σ α) : Prop := ∀ s, I s → I (finalState (x s))

theorem Always.keeps (h : Always I x) : Keeps I x := by
  intro s hs a s' hx
  have := h s hs
  rwa [hx] at this

theorem Always.bind (hx : Always I x) (hf : ∀ a, Always I (f a)) : Always I (x >>= f) := by
  intro s hs
  have hs' := hx s hs
  rw [bind_apply]
  cases h : x s with
  | ok a s' =>
    rw [h] at hs'
    exact hf a s' hs'
  | error e s' =>
    rw [h] at hs'
    exact hs'

theorem Always.pure {a : α} : Always I (Pure.pure a : EStateM ε σ α) := fun _ h => h

theorem Always.throw {e : ε} : Always I (throw e : EStateM ε σ α) := fun _ h => h

theorem Always.modify {g : σ → σ} (h : ∀ s, I s → I (g s)) : Always I (modify g : EStateM ε σ PUnit) := h

theorem Always.get_bind {f : σ → EStateM ε σ β} (h : ∀ s, Always I (f s)) : Always I (get >>= f) := fun s hs => h s s hs

theorem Always.ite [Decidable c] {x : EStateM ε σ α} (ht : Always I x) (he : Always I y) :
    Always I (if c then x else y) := by
  split
  · exact ht
  · exact he

theorem Always.forM {f : α → EStateM ε σ PUnit} (h : ∀ a, Always I (f a)) : Always I (l.forM f) := by
  induction l with
  | nil => exact Always.pure
  | cons a l ih => exact Always.bind (h a) fun _ => ih

/-! ### Programs that do not fail -/

/-- Started in a state with `P`, the program succeeds, and its value and the state it leaves have `Q`. -/
def Total (P : σ → Prop) (x : EStateM ε σ α) (Q : α → σ → Prop) : Prop := ∀ s, P s → ∃ a s', x s = .ok a s' ∧ Q a s'

theorem Total.triple (h : Total P x Q) : Triple P x Q := by
  intro s hs a s' hx
  obtain ⟨b, s1, hb, hQ⟩ := h s hs
  rw [hx] at hb
  cases hb
  exact hQ

theorem Total.conseq (h : Total P x Q) (hpre : ∀ s, P' s → P s) (hpost : ∀ a s, Q a s → Q' a s) : Total P' x Q' := by
  intro s hs
  obtain ⟨a, s', hx, hQ⟩ := h s (hpre s hs)
  exact ⟨a, s', hx, hpost a s' hQ⟩

theorem Total.intro (h : ∀ s, P s → Total (· = s) x Q) : Total P x Q := fun s hs => h s hs s rfl

theorem Total.pure {a : α} (h : ∀ s, P s → Q a s) : Total P (Pure.pure a : EStateM ε σ α) Q :=
  fun s hs => ⟨a, s, rfl, h s hs⟩

theorem Total.bind (hx : Total P x Q) (hf : ∀ a, Total (Q a) (f a) R) : Total P (x >>= f) R := by
  intro s hs
  obtain ⟨a, s1, hxs, hQ⟩ := hx s hs
  obtain ⟨b, s', hfs, hR⟩ := hf a s1 hQ
  exact ⟨b, s', (bind_ok hxs).trans hfs, hR⟩

theorem Total.get_bind {f : σ → EStateM ε σ β} (h : ∀ s, P s → Total (· = s) (f s) R) : Total P (get >>= f) R :=
  fun s hs => h s hs s rfl

theorem Total.modify {g : σ → σ} {Q : PUnit → σ → Prop} (h : ∀ s, P s → Q ⟨⟩ (g s)) :
    Total P (modify g : EStateM ε σ PUnit) Q :=
  fun s hs => ⟨⟨⟩, g s, rfl, h s hs⟩

theorem Total.ite [Decidable c] {x : EStateM ε σ α} (ht : c → Total P x Q) (he : ¬ c → Total P y Q) :
    Total P (if c then x else y) Q := by
  split
  · exact ht ‹_›
  · exact he ‹_›

theorem Total.forM {f : α → EStateM ε σ PUnit} (h : ∀ a ∈ l, Total I (f a) fun _ => I) :
    Total I (l.forM f) fun _ => I := by
  induction l with
  | nil => exact Total.pure fun _ hs => hs
  | cons a l ih =>
    exact Total.bind (h a List.mem_cons_self) fun _ => ih fun b hb => h b (List.mem_cons_of_mem _ hb)

end Exec
