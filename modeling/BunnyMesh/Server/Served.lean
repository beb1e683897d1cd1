import BunnyMesh.Server.Causal

/-!
# Requests and their accounts

A run of a node that keeps an account of what each request has done to the store.  The account of a request follows the
accesses of its handler, and those of no other handler; a handler that follows a discipline goes on following it with
that account wherever the accesses answer as the discipline promises.
-/

namespace BunnyMesh

open Std Store
open Interface (Prog Discipline)
open Runs (Run guarded exec run_of_exec)

/-! ### Lists in step -/

section
variable {α β : Type*} {R : α → β → Prop} {l : List α} {l' : List β}

theorem forall₂_getElem? (h : List.Forall₂ R l l') {i : Nat} {a : α} (ha : l[i]? = some a) : ∃ b, l'[i]? = some b ∧ R a b := by
  induction h generalizing i with
  | nil => cases ha
  | cons hab _ ih =>
    cases i with
    | zero =>
      cases ha
      exact ⟨_, rfl, hab⟩
    | succ i => exact ih ha

theorem forall₂_set (h : List.Forall₂ R l l') {a : α} {b : β} (hab : R a b) (i : Nat) :
    List.Forall₂ R (l.set i a) (l'.set i b) := by
  induction h generalizing i with
  | nil => exact .nil
  | cons hcd hrest ih =>
    cases i with
    | zero => exact .cons hab hrest
    | succ i => exact .cons hcd (ih i)

end

/-! ### Requests -/

section
variable {γ : Type}

structure Request (γ : Type) where
  surface : Surface
  account : γ

/-- A node and the requests of its handlers, in the same order. -/
structure Served (γ : Type) where
  node : Node
  requests : List (Request γ)

/-- The requests after an event; `tally` is what an access adds to the account of its request. -/
def Served.book (init : γ) (tally : γ → γ) (rs : List (Request γ)) : NodeEvent → List (Request γ)
  | .start s => rs ++ [⟨s, init⟩]
  | .access i _ => rs.modify i fun r => { r with account := tally r.account }
  | .sync _ _ => rs
  | .restart _ _ => []

def Access.Fits : {β : Type} → Access β → Prop
  | _, .store o => o.Fits
  | _, _ => True

instance (β : Type) (o : Access β) : Decidable o.Fits := by
  induction o using Access.casesOn <;> dsimp only [Access.Fits] <;> infer_instance

/-- The events of a server without a mount: requests whose records fit, and synced records as the parser gives them. -/
def Node.Regular (n : Node) : NodeEvent → Prop
  | .start s => s.isHttp = true
  | .access i _ => ∀ t ∈ n.threads[i]?, t.rest.Next Access.Fits
  | .sync _ records => ∀ r ∈ records, r.WellFormed
  | .restart _ _ => True

instance (n : Node) (e : NodeEvent) : Decidable (n.Regular e) := by
  induction e using NodeEvent.casesOn <;> dsimp only [Node.Regular] <;> infer_instance

namespace Served

variable {x : Served γ} {D : Surface → Discipline Access γ} {Q : Surface → Answer → γ → Prop} {i : Nat}

/-- A handler uses its stamps once and follows the discipline of its request. -/
def Follows (D : Surface → Discipline Access γ) (Q : Surface → Answer → γ → Prop) (t : Thread) (r : Request γ) : Prop :=
  (∃ spare, t.rest.Keeps (once (fun _ => True) t.ns) (fun _ _ => True) spare) ∧
    t.rest.Keeps (D r.surface) (Q r.surface) r.account

def Keeps (D : Surface → Discipline Access γ) (Q : Surface → Answer → γ → Prop) (x : Served γ) : Prop :=
  List.Forall₂ (Follows D Q) x.node.threads x.requests

theorem Keeps.answer (h : x.Keeps D Q) {t : Thread} {a : Answer} (ht : x.node.threads[i]? = some t) (ha : t.rest = .ret a) :
    ∃ r, x.requests[i]? = some r ∧ Q r.surface a r.account := by
  obtain ⟨r, hr, _, hkeeps⟩ := forall₂_getElem? h ht
  rw [ha] at hkeeps
  exact ⟨r, hr, hkeeps⟩

theorem Keeps.set (h : x.Keeps D Q) {n : Node} (hn : n.threads = x.node.threads) {t : Thread} {r : Request γ}
    (ht : Follows D Q t r) (i : Nat) : Keeps D Q ⟨n.setThread i t, x.requests.set i r⟩ := by
  unfold Keeps Node.setThread
  rw [hn]
  exact forall₂_set h ht i

end Served

theorem once_sane {β : Type} {ns : Bytes} {o : Access β} {spare : List UInt64} {Q : β → List UInt64 → Prop}
    (hwp : (once (fun _ => True) ns).wp o spare Q) (hfits : o.Fits) : o.Proper := by
  cases o with
  | store o => exact ⟨hwp.1, hfits⟩
  | readLock | writeLock | unlock | read | scanKeys | draw | clock => trivial

end

/-! ### Steps -/

section
variable [AuthCrates] {γ : Type}

/-- A step of the node, and what it does to the accounts: `tally` compares the stores before and after an access. -/
def Served.step (site : Site) (init : γ) (tally : World → World → γ → γ) (x : Served γ) (e : NodeEvent) : Option (Served γ) :=
  (x.node.step site e).map fun n => ⟨n, Served.book init (tally x.node.world n.world) x.requests e⟩

def ServedStep (site : Site) (init : γ) (tally : World → World → γ → γ) (x : Served γ) (e : NodeEvent) (x' : Served γ) : Prop :=
  x.step site init tally e = some x'

variable {site : Site} {init : γ} {tally : World → World → γ → γ} {x x' : Served γ} {g : History}
  {D : Surface → Discipline Access γ} {Q : Surface → Answer → γ → Prop} {i : Nat} {ms : UInt64}

namespace Served

/-- An access of the handler `i` is one that its program asks for, and the account of its request takes note of it. -/
theorem Keeps.access (h : x.Keeps D Q) (hs : Sound (x.node.world, g)) (hreg : x.node.Regular (.access i ms))
    (hstep : ServedStep site init tally x (.access i ms) x') :
    ∃ (ns : Bytes) (drawn : List UInt64) (β : Type) (o : Access β) (k : β → Handler Answer) (b : β) (n₁ : Node) (g' : History)
      (r : Request γ), x.node.threads[i]? = some ⟨ns, drawn, .call o k⟩ ∧ x.requests[i]? = some r ∧ o.Proper ∧
      o.perform i ms x.node = some (some b, n₁) ∧ n₁.threads = x.node.threads ∧ Sound (n₁.world, g') ∧
      x' = ⟨n₁.setThread i ⟨ns, o.account b drawn, k b⟩,
        x.requests.set i ⟨r.surface, tally x.node.world n₁.world r.account⟩⟩ ∧
      (∃ spare, (k b).Keeps (once (fun _ => True) ns) (fun _ _ => True) spare) ∧
      (D r.surface).wp o r.account fun b a => (k b).Keeps (D r.surface) (Q r.surface) a := by
  obtain ⟨n', hn, hx'⟩ := Option.map_eq_some_iff.1 hstep
  have hproper : ∀ t ∈ x.node.threads[i]?, t.rest.Next Access.Proper := by
    intro t ht
    obtain ⟨r, _, ⟨spare, honce⟩, _⟩ := forall₂_getElem? h ht
    have hnext := hreg t ht
    cases hrest : t.rest with
    | ret a => trivial
    | call o k =>
      rw [hrest] at honce hnext
      exact once_sane honce hnext
  obtain ⟨ns, drawn, β, o, k, b, n₁, g', ht, hp, rfl, hthreads, hsound, _⟩ := Node.access_spec hs hproper hn
  obtain ⟨r, hr, ⟨spare, honce⟩, hkeeps⟩ := forall₂_getElem? h ht
  refine ⟨ns, drawn, β, o, k, b, n₁, g', r, ht, hr, hproper _ ht, hp, hthreads, hsound, ?_, ⟨_, once_next honce⟩, hkeeps⟩
  rw [← hx', book, List.modify_eq_set_getElem?, hr]
  rfl

/-- The accesses of the node answer as the discipline promises, with the account that takes note of them. -/
def Answers (D : Surface → Discipline Access γ) (tally : World → World → γ → γ) (x : Served γ) : Prop :=
  ∀ {β : Type} (o : Access β) (i : Nat) (ms : UInt64) (b : β) (n : Node) (r : Request γ) (P : β → γ → Prop),
    x.requests[i]? = some r → o.Proper → o.perform i ms x.node = some (some b, n) → (D r.surface).wp o r.account P →
      P b (tally x.node.world n.world r.account)

theorem Keeps.step {e : NodeEvent} (h : x.Keeps D Q) (hs : Sound (x.node.world, g)) (hreg : x.node.Regular e)
    (hstart : ∀ s : Surface, s.isHttp = true → (s.handler site).Keeps (D s) (Q s) init) (hanswers : Answers D tally x)
    (hstep : ServedStep site init tally x e x') : x'.Keeps D Q ∧ ∃ g', Sound (x'.node.world, g') := by
  cases e with
  | start s =>
    cases hstep
    refine ⟨List.rel_append h (.cons ⟨⟨[], stamped_handler site hreg []⟩, hstart s hreg⟩ .nil), g, hs⟩
  | access i ms =>
    obtain ⟨ns, drawn, β, o, k, b, n₁, g', r, ht, hr, hproper, hp, hthreads, hsound, rfl, honce, hkeeps⟩ := h.access hs hreg hstep
    exact ⟨h.set hthreads ⟨honce, hanswers o i ms b n₁ r _ hr hproper hp hkeeps⟩ i, g', hsound⟩
  | sync ns records =>
    obtain ⟨n', hn, rfl⟩ := Option.map_eq_some_iff.1 hstep
    simp only [Node.step] at hn
    split at hn
    case isFalse => cases hn
    case isTrue =>
      cases hn
      obtain ⟨g', rs, hsound, _, _⟩ := hs.sync ns hreg
      exact ⟨h, g', hsound⟩
  | restart durable now =>
    obtain ⟨w', g', hopen, hsound, _⟩ := hs.restart durable now
    rw [ServedStep, Served.step, Node.step, hopen] at hstep
    cases hstep
    exact ⟨.nil, g', hsound⟩

end Served

variable {β : Type} {o : Access β} {b : β} {n n₁ : Node} {w w' : World} {ns : Bytes}

def Access.isStore : {β : Type} → Access β → Bool
  | _, .store _ => true
  | _, _ => false

theorem Access.perform_world (ho : o.isStore = false) (hp : o.perform i ms n = some (some b, n₁)) : n₁.world = n.world := by
  cases o with
  | store o => cases ho
  | unlock | draw | clock =>
    obtain ⟨_, rfl⟩ := Prod.mk.inj (Option.some.inj hp)
    rfl
  | readLock | writeLock | read | scanKeys =>
    simp only [Access.perform] at hp
    split at hp
    · cases hp
      rfl
    · cases hp

theorem Access.perform_read {f : Store → β} (hp : (Access.read f).perform i ms n = some (some b, n₁)) :
    (n.writer = some i ∨ i ∈ n.readers) ∧ b = f n.world.store ∧ n₁ = n := by
  simp only [Access.perform] at hp
  split at hp
  case isTrue hheld =>
    cases hp
    exact ⟨hheld, rfl, rfl⟩
  case isFalse => cases hp

/-- An operation of the store, by the holder of the write lock, fails and changes nothing or logs its record. -/
theorem Access.perform_store {α : Type} {o : StoreOp α} {b : Except StorageError α} (hs : Sound (n.world, g))
    (ho : (Access.store o).Proper) (hp : (Access.store o).perform i ms n = some (some b, n₁)) : n.writer = some i ∧
      ((∃ e, b = .error e ∧ o.run n.world = .error (.err e) n.world ∧ n₁ = n) ∨
        ∃ a w', b = .ok a ∧ o.run n.world = .ok a w' ∧ n₁ = { n with world := w' } ∧ n.world.Logs w' o.written.toList) := by
  simp only [Access.perform] at hp
  split at hp
  case isFalse => cases hp
  case isTrue hwriter =>
    refine ⟨hwriter, ?_⟩
    rcases StoreOp.spec hs ho.1 ho.2 with ⟨e, herr⟩ | ⟨a, w', _, hok, _, hlogs⟩
    · rw [herr] at hp
      cases hp
      exact .inl ⟨e, rfl, herr, rfl⟩
    · rw [hok] at hp
      cases hp
      exact .inr ⟨a, w', rfl, hok, rfl, hlogs⟩

/-! ### Locks -/

def Node.Holds (n : Node) (i : Nat) : Prop := n.writer = some i ∨ i ∈ n.readers

theorem Access.perform_locks (hp : o.perform i ms n = some (some b, n₁)) :
    (n₁.writer = n.writer ∧ n₁.readers = n.readers) ∨ (n.writer = none ∧ n₁.writer = none ∧ n₁.readers = i :: n.readers) ∨
      (n.writer = none ∧ n.readers = [] ∧ n₁.writer = some i ∧ n₁.readers = []) ∨ n₁ = n.release i := by
  cases o with
  | readLock =>
    simp only [Access.perform] at hp
    split at hp
    case isTrue hfree =>
      cases hp
      exact .inr (.inl ⟨hfree, hfree, rfl⟩)
    case isFalse => cases hp
  | writeLock =>
    simp only [Access.perform] at hp
    split at hp
    case isTrue hfree =>
      cases hp
      exact .inr (.inr (.inl ⟨hfree.1, hfree.2, rfl, hfree.2⟩))
    case isFalse => cases hp
  | unlock =>
    obtain ⟨_, rfl⟩ := Prod.mk.inj (Option.some.inj hp)
    exact .inr (.inr (.inr rfl))
  | draw | clock =>
    obtain ⟨_, rfl⟩ := Prod.mk.inj (Option.some.inj hp)
    exact .inl ⟨rfl, rfl⟩
  | read | scanKeys =>
    simp only [Access.perform] at hp
    split at hp
    · cases hp
      exact .inl ⟨rfl, rfl⟩
    · cases hp
  | store o =>
    simp only [Access.perform] at hp
    split at hp
    · split at hp
      · cases hp
        exact .inl ⟨rfl, rfl⟩
      · cases hp
        exact .inl ⟨rfl, rfl⟩
      · cases hp
    · cases hp

def Node.Exclusive (n : Node) : Prop := n.writer ≠ none → n.readers = []

theorem Access.perform_exclusive (h : n.Exclusive) (hp : o.perform i ms n = some (some b, n₁)) : n₁.Exclusive := by
  intro hwriter
  rcases Access.perform_locks hp with ⟨hw, hr⟩ | ⟨_, hw, _⟩ | ⟨_, _, _, hr⟩ | rfl
  · rw [hr]
    exact h (hw ▸ hwriter)
  · exact absurd hw hwriter
  · exact hr
  · have hn : n.writer ≠ none := by
      intro hnone
      simp [Node.release, hnone] at hwriter
    simp [Node.release, h hn]

theorem Access.perform_holds (hp : o.perform i ms n = some (some b, n₁)) {j : Nat} (hj : n₁.Holds j) (hne : j ≠ i) : n.Holds j := by
  rcases Access.perform_locks hp with ⟨hw, hr⟩ | ⟨hw, hw', hr⟩ | ⟨_, _, hw, hr⟩ | rfl
  · rwa [Node.Holds, hw, hr] at hj
  · rw [Node.Holds, hw', hr] at hj
    rcases hj with hj | hj
    · cases hj
    · exact .inr ((List.mem_cons.1 hj).resolve_left hne)
  · rw [Node.Holds, hw, hr] at hj
    rcases hj with hj | hj
    · exact absurd (Option.some.inj hj).symm hne
    · cases hj
  · rcases hj with hj | hj
    · left
      simp only [Node.release] at hj
      split at hj
      · cases hj
      · exact hj
    · exact .inr (List.mem_of_mem_erase hj)

omit [AuthCrates] in
theorem Node.Exclusive.holder {j : Nat} (h : n.Exclusive) (hi : n.writer = some i) (hj : n.Holds j) : j = i := by
  rcases hj with hj | hj
  · rw [hi] at hj
    exact (Option.some.inj hj).symm
  · rw [h (by simp [hi])] at hj
    cases hj

theorem Access.perform_writer (ho : o.isStore = true) (hp : o.perform i ms n = some (some b, n₁)) : n.writer = some i := by
  cases o with
  | store o =>
    simp only [Access.perform] at hp
    split at hp
    case isTrue hwriter => exact hwriter
    case isFalse => cases hp
  | readLock | writeLock | unlock | read | scanKeys | draw | clock => cases ho

/-! ### What a request has logged -/

/-- The account `g` of the records logged in `ns`, after an access that takes the store from `w` to `w'`. -/
def recordsLogged (ns : Bytes) (w w' : World) (g : List Record) : List Record := g ++ (w'.records ns).drop (w.records ns).length

omit [AuthCrates] in
theorem recordsLogged_of_logs {xs : List (Bytes × Record)} (h : w.Logs w' xs) (g : List Record) :
    recordsLogged ns w w' g = g ++ (xs.filter (·.1 = ns)).map (·.2) := by
  rw [recordsLogged, h ns, List.drop_left]

omit [AuthCrates] in
theorem recordsLogged_self (w : World) (g : List Record) : recordsLogged ns w w g = g := by
  rw [recordsLogged_of_logs (.refl w)]
  simp

/-- The account is the list of the records logged in `ns`.  A look at the store finds one with `K`, and the records have
`P`. -/
def logging (ns : Bytes) (K : Store → Prop) (P : Record → Prop) : Discipline Access (List Record) where
  wp := fun {_} o g Q => match o with
    | .read f => ∀ s, K s → Q (f s) g
    | .store o => (∀ r, o.written = some (ns, r) → P r) ∧ (∀ e, Q (.error e) g) ∧
        ∀ a, Q (.ok a) (g ++ (o.written.toList.filter (·.1 = ns)).map (·.2))
    | _ => ∀ b, Q b g
  mono := by
    intro β o g Q Q' h hQ
    cases o with
    | read f => exact fun s hs => h _ _ (hQ s hs)
    | store o => exact ⟨hQ.1, fun e => h _ _ (hQ.2.1 e), fun a => h _ _ (hQ.2.2 a)⟩
    | readLock | writeLock | unlock | scanKeys | draw | clock => exact fun b => h _ _ (hQ b)

theorem logging_answers {K : Store → Prop} {P : Record → Prop} {a : List Record} {Q : β → List Record → Prop}
    (hs : Sound (n.world, g)) (hK : K n.world.store) (ho : o.Proper) (hp : o.perform i ms n = some (some b, n₁))
    (hwp : (logging ns K P).wp o a Q) : Q b (recordsLogged ns n.world n₁.world a) := by
  have hsame : o.isStore = false → Q b a → Q b (recordsLogged ns n.world n₁.world a) := by
    intro ho' hQ
    rw [Access.perform_world ho' hp, recordsLogged_self]
    exact hQ
  cases o with
  | read f =>
    refine hsame rfl ?_
    rw [(Access.perform_read hp).2.1]
    exact hwp _ hK
  | store o =>
    rcases (Access.perform_store hs ho hp).2 with ⟨e, rfl, _, rfl⟩ | ⟨a, w', rfl, _, rfl, hlogs⟩
    · rw [recordsLogged_self]
      exact hwp.2.1 e
    · rw [recordsLogged_of_logs hlogs]
      exact hwp.2.2 a
  | readLock | writeLock | unlock | scanKeys | draw | clock => exact hsame rfl (hwp b)

theorem mem_recordsLogged {a : List Record} {r : Record} (hs : Sound (n.world, g)) (ho : o.Proper)
    (hp : o.perform i ms n = some (some b, n₁)) (hr : r ∈ recordsLogged ns n.world n₁.world a) :
    r ∈ a ∨ o.writes = some (ns, r) := by
  cases ho' : o.isStore with
  | false =>
    rw [Access.perform_world ho' hp, recordsLogged_self] at hr
    exact .inl hr
  | true =>
    cases o with
    | store o =>
      rcases (Access.perform_store hs ho hp).2 with ⟨e, _, _, rfl⟩ | ⟨_, w', _, _, rfl, hlogs⟩
      · rw [recordsLogged_self] at hr
        exact .inl hr
      · rw [recordsLogged_of_logs hlogs, List.mem_append] at hr
        refine hr.imp_right fun hr => ?_
        obtain ⟨x, hx, rfl⟩ := List.mem_map.1 hr
        obtain ⟨hx, hns⟩ := List.mem_filter.1 hx
        rw [← of_decide_eq_true hns]
        exact Option.mem_toList.1 hx
    | readLock | writeLock | unlock | read | scanKeys | draw | clock => cases ho'

end

end BunnyMesh
