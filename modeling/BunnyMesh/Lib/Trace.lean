import BunnyMesh.Lib.Triple

/-!
# What a computation passes

A state that keeps a trace of what it went through, such as the directories that every file-system effect has left.
`Passes trace G x s` says that `x`, run from `s`, adds to the trace only what is in `G`, whether it ends well or not: so
wherever it is stopped, what it leaves is in `G`.
-/

namespace Exec

variable {ε σ α β δ : Type} {trace : σ → List δ} {G G' : δ → Prop} {x : EStateM ε σ α} {s : σ}

def Passes (trace : σ → List δ) (G : δ → Prop) (x : EStateM ε σ α) (s : σ) : Prop :=
  ∃ passed, trace (finalState (x s)) = trace s ++ passed ∧ ∀ d ∈ passed, G d

theorem Passes.drop (h : Passes trace G x s) {d : δ} (hd : d ∈ (trace (finalState (x s))).drop (trace s).length) : G d := by
  obtain ⟨passed, heq, hG⟩ := h
  rw [heq, List.drop_left] at hd
  exact hG d hd

theorem Passes.mono (h : Passes trace G x s) (hG : ∀ d, G d → G' d) : Passes trace G' x s := by
  obtain ⟨passed, heq, hpassed⟩ := h
  exact ⟨passed, heq, fun d hd => hG d (hpassed d hd)⟩

theorem Passes.congr {y : EStateM ε σ α} (h : Passes trace G x s) (heq : y s = x s) : Passes trace G y s := by
  unfold Passes
  rw [heq]
  exact h

theorem Passes.of_eq (h : trace (finalState (x s)) = trace s) : Passes trace G x s :=
  ⟨[], by rw [h, List.append_nil], nofun⟩

theorem Passes.of_always (h : ∀ t, Always (fun s => trace s = t) x) : Passes trace G x s := .of_eq (h _ s rfl)

theorem Passes.pure {a : α} : Passes trace G (Pure.pure a : EStateM ε σ α) s := .of_eq rfl

theorem Passes.throw {e : ε} : Passes trace G (throw e : EStateM ε σ α) s := .of_eq rfl

theorem Passes.modify_one {f : σ → σ} {d : δ} (h : trace (f s) = trace s ++ [d]) (hd : G d) :
    Passes trace G (modify f : EStateM ε σ PUnit) s :=
  ⟨[d], h, fun d' hd' => by rw [List.mem_singleton.1 hd']; exact hd⟩

theorem Passes.bind {f : α → EStateM ε σ β} (hx : Passes trace G x s)
    (hf : ∀ a s', x s = .ok a s' → Passes trace G (f a) s') : Passes trace G (x >>= f) s := by
  obtain ⟨passed, heq, hG⟩ := hx
  unfold Passes
  cases h : x s with
  | error e s' =>
    rw [h] at heq
    rw [bind_error h]
    exact ⟨passed, heq, hG⟩
  | ok a s' =>
    obtain ⟨passed', heq', hG'⟩ := hf a s' h
    rw [h, finalState_ok] at heq
    rw [bind_ok h]
    refine ⟨passed ++ passed', ?_, fun d hd => ?_⟩
    · rw [heq', heq, List.append_assoc]
    · exact (List.mem_append.1 hd).elim (hG d) (hG' d)

theorem Passes.get_bind {f : σ → EStateM ε σ β} (h : Passes trace G (f s) s) : Passes trace G (get >>= f) s := h

theorem Passes.ite {c : Prop} [Decidable c] {y : EStateM ε σ α} (ht : c → Passes trace G x s)
    (he : ¬ c → Passes trace G y s) : Passes trace G (if c then x else y) s := by
  split
  · exact ht ‹_›
  · exact he ‹_›

theorem Passes.forM {I : σ → Prop} {f : α → EStateM ε σ PUnit} {l : List α}
    (h : ∀ a ∈ l, ∀ s, I s → Passes trace G (f a) s ∧ ∀ s', f a s = .ok ⟨⟩ s' → I s') (hs : I s) :
    Passes trace G (l.forM f) s := by
  induction l generalizing s with
  | nil => exact Passes.pure
  | cons a l ih =>
    obtain ⟨ha, hl⟩ := List.forall_mem_cons.1 h
    obtain ⟨hpass, hI⟩ := ha s hs
    exact Passes.bind hpass fun _ s' hrun => ih hl (hI s' hrun)

end Exec
