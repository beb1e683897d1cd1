import BunnyMesh.Server.Served

/-!
# One handler of a node

What a handler finds of the store and what it leaves of it, access by access.  As long as it holds the lock it finds the
store as it has left it; in between the others may have made anything of it that is sound.  The discipline `visiting` says
just this, so a program that keeps to it can be studied alone, and every handler of a node is held to what has been found
out about it (`Node.visited`).
-/

namespace BunnyMesh

open Store
open Interface (Prog Discipline)
open Runs (Run guarded)

/-! ### Visits -/

/-- What a handler holds of the lock of the store. -/
inductive Hold where
  | none
  | read
  | write
deriving DecidableEq

/-- A handler at work: what it holds, the store as it has left it, and the store before and after each of its accesses. -/
structure Visitor where
  hold : Hold
  world : World
  visits : List (World × World)

def Idle (visits : List (World × World)) : Prop := ∀ x ∈ visits, x.2 = x.1

theorem Idle.append {xs ys : List (World × World)} (hx : Idle xs) (hy : Idle ys) : Idle (xs ++ ys) := by
  intro x hmem
  rcases List.mem_append.1 hmem with hmem | hmem
  · exact hx x hmem
  · exact hy x hmem

def Linked : World → List (World × World) → World → Prop
  | w, [], w' => w' = w
  | w, x :: xs, w' => x.1 = w ∧ Linked x.2 xs w'

theorem Linked.append {w w' w'' : World} {xs ys : List (World × World)} (hx : Linked w xs w') (hy : Linked w' ys w'') :
    Linked w (xs ++ ys) w'' := by
  induction xs generalizing w with
  | nil =>
    obtain rfl : w' = w := hx
    exact hy
  | cons x xs ih => exact ⟨hx.1, ih hx.2⟩

theorem Linked.single (w w' : World) : Linked w [(w, w')] w' := ⟨rfl, rfl⟩

/-- The handler has let go of the lock and has changed nothing since it was `v`. -/
def Visitor.Calm (v v' : Visitor) : Prop := v'.hold = .none ∧ ∃ tr, v'.visits = v.visits ++ tr ∧ Idle tr

theorem Visitor.Calm.refl {v : Visitor} (h : v.hold = .none) : v.Calm v := ⟨h, [], (List.append_nil _).symm, nofun⟩

theorem Visitor.Calm.trans {v v' v'' : Visitor} (h : v.Calm v') (h' : v'.Calm v'') : v.Calm v'' := by
  obtain ⟨_, tr, htr, hquiet⟩ := h
  obtain ⟨hhold, tr', htr', hquiet'⟩ := h'
  exact ⟨hhold, tr ++ tr', by rw [htr', htr, List.append_assoc], hquiet.append hquiet'⟩

/-- The handler holds the write lock and has come from `v` to `v'` under it. -/
def Visitor.Holding (v v' : Visitor) : Prop := v'.hold = .write ∧ ∃ tr, v'.visits = v.visits ++ tr ∧ Linked v.world tr v'.world

theorem Visitor.Holding.refl {v : Visitor} (h : v.hold = .write) : v.Holding v := ⟨h, [], (List.append_nil _).symm, rfl⟩

theorem Visitor.Holding.trans {v v' v'' : Visitor} (h : v.Holding v') (h' : v'.Holding v'') : v.Holding v'' := by
  obtain ⟨_, tr, htr, hlinked⟩ := h
  obtain ⟨hhold, tr', htr', hlinked'⟩ := h'
  exact ⟨hhold, tr ++ tr', by rw [htr', htr, List.append_assoc], hlinked.append hlinked'⟩

section
variable [AuthCrates]

def Access.Allowed : {β : Type} → Access β → Hold → Prop
  | _, .readLock, h | _, .writeLock, h => h = .none
  | _, .read _, h | _, .scanKeys _ _, h => h ≠ .none
  | _, .store _, h => h = .write
  | _, .unlock, _ | _, .draw _, _ | _, .clock, _ => True

/-- The answer to an access by a handler that holds `h` and finds the store `w`, and what it then holds and leaves. -/
def Access.Answers : {β : Type} → Access β → Hold → World → β → Hold → World → Prop
  | _, .readLock, _, w, _, h', w' => h' = .read ∧ w' = w
  | _, .writeLock, _, w, _, h', w' => h' = .write ∧ w' = w
  | _, .unlock, _, w, _, h', w' => h' = .none ∧ w' = w
  | _, .read f, h, w, b, h', w' => b = f w.store ∧ h' = h ∧ w' = w
  | _, .scanKeys ns pre, h, w, b, h', w' => b = w.store.scanKeys ns pre ∧ h' = h ∧ w' = w
  | _, .store o, h, w, b, h', w' => h' = h ∧
      ((∃ a, b = .ok a ∧ o.run w = .ok a w') ∨ ∃ e, b = .error e ∧ o.run w = .error (.err e) w')
  | _, .draw _, h, w, _, h', w' | _, .clock, h, w, _, h', w' => h' = h ∧ w' = w

/-- What a handler finds: the store as it left it if it holds the lock, any sound store otherwise. -/
def Visitor.Finds (v : Visitor) (w : World) : Prop :=
  (v.hold = .none → ∃ g, Sound (w, g)) ∧ (v.hold ≠ .none → w = v.world)

def visiting : Discipline Access Visitor where
  wp := fun {_} o v Q => o.Allowed v.hold ∧ ∀ w b h w', v.Finds w → o.Answers v.hold w b h w' →
    Q b ⟨h, w', v.visits ++ [(w, w')]⟩
  mono := fun _ _ _ _ h hQ => ⟨hQ.1, fun w b h' w' hw hb => h _ _ (hQ.2 w b h' w' hw hb)⟩

/-! ### Rules -/

variable {α β : Type} {v : Visitor}

def NodeEvent.isAccessOf (i : Nat) : NodeEvent → Bool
  | .access j _ => j == i
  | _ => false

def NodeEvent.isRestart : NodeEvent → Bool
  | .restart _ _ => true
  | _ => false

def Node.visits (site : Site) (i : Nat) (n : Node) : List NodeEvent → List (World × World)
  | [] => []
  | e :: es => (n.step site e).elim [] fun n' =>
    (if e.isAccessOf i then [(n.world, n'.world)] else []) ++ n'.visits site i es

def Node.Held (n : Node) (i : Nat) : Hold → Prop
  | .none => ¬ n.Holds i
  | .read => n.writer ≠ some i ∧ i ∈ n.readers ∧ i ∉ n.readers.erase i
  | .write => n.writer = some i

/-- What holds of a node in every run: the store is sound, its handlers use their stamps once, and only they hold the
lock. -/
structure Node.Fit (n : Node) : Prop where
  sound : ∃ g, Sound (n.world, g)
  stamped : ∀ t ∈ n.threads, ∃ spare, t.rest.Keeps (once (fun _ => True) t.ns) (fun _ _ => True) spare
  exclusive : n.Exclusive
  holders : ∀ i, n.Holds i → i < n.threads.length

/-- The handler `i` is the visitor `v` and keeps to its program. -/
structure Node.Visited (Q : Answer → Visitor → Prop) (i : Nat) (v : Visitor) (n : Node) : Prop extends n.Fit where
  held : n.Held i v.hold
  left : v.hold ≠ .none → n.world = v.world
  thread : ∃ t, n.threads[i]? = some t ∧ t.rest.Keeps visiting Q v

variable {n n' n₁ : Node} {i j : Nat} {ms : UInt64} {o : Access β} {b : β} {h : Hold} {Q : Answer → Visitor → Prop}
  {site : Site} {e : NodeEvent} {es : List NodeEvent}

omit [AuthCrates] in
theorem Node.Held.congr (hheld : n.Held i h) (hwriter : n₁.writer = n.writer) (hreaders : n₁.readers = n.readers) :
    n₁.Held i h := by
  cases h with
  | none => rwa [Held, Holds, hwriter, hreaders]
  | read => rwa [Held, hwriter, hreaders]
  | write => rwa [Held, hwriter]

theorem Access.perform_answers (hx : n.Exclusive) (hallowed : o.Allowed h) (hheld : n.Held i h)
    (hp : o.perform i ms n = some (some b, n₁)) : ∃ h', o.Answers h n.world b h' n₁.world ∧ n₁.Held i h' := by
  cases o with
  | readLock =>
    obtain rfl : h = .none := hallowed
    simp only [Access.perform] at hp
    split at hp
    case isFalse => cases hp
    case isTrue hfree =>
      cases hp
      refine ⟨.read, ⟨rfl, rfl⟩, by simp [hfree], List.mem_cons_self, ?_⟩
      rw [List.erase_cons_head]
      exact fun hmem => hheld (.inr hmem)
  | writeLock =>
    obtain rfl : h = .none := hallowed
    simp only [Access.perform] at hp
    split at hp
    case isFalse => cases hp
    case isTrue hfree =>
      cases hp
      exact ⟨.write, ⟨rfl, rfl⟩, rfl⟩
  | unlock =>
    obtain ⟨_, rfl⟩ := Prod.mk.inj (Option.some.inj hp)
    refine ⟨.none, ⟨rfl, rfl⟩, ?_⟩
    rintro (hwriter | hreader)
    · simp only [Node.release] at hwriter
      split at hwriter
      · cases hwriter
      case isFalse hother => exact hother hwriter
    · cases h with
      | none => exact hheld (.inr (List.mem_of_mem_erase hreader))
      | read => exact hheld.2.2 hreader
      | write =>
        have hnone : n.readers = [] := hx (by rw [show n.writer = some i from hheld]; exact Option.some_ne_none i)
        simp [Node.release, hnone] at hreader
  | read f =>
    obtain ⟨_, rfl, rfl⟩ := Access.perform_read hp
    exact ⟨h, ⟨rfl, rfl, rfl⟩, hheld⟩
  | scanKeys ns pre =>
    simp only [Access.perform] at hp
    split at hp
    case isFalse => cases hp
    case isTrue =>
      cases hp
      exact ⟨h, ⟨rfl, rfl, rfl⟩, hheld⟩
  | store o =>
    simp only [Access.perform] at hp
    split at hp
    case isFalse => cases hp
    case isTrue hwriter =>
      cases hrun : o.run n.world with
      | ok a w' =>
        rw [hrun] at hp
        cases hp
        exact ⟨h, ⟨rfl, .inl ⟨a, rfl, hrun⟩⟩, hheld.congr rfl rfl⟩
      | error fault w' =>
        rw [hrun] at hp
        cases fault with
        | err e =>
          cases hp
          exact ⟨h, ⟨rfl, .inr ⟨e, rfl, hrun⟩⟩, hheld.congr rfl rfl⟩
        | panic detail => cases hp
  | draw stamp =>
    simp only [Access.perform, Option.some.injEq, Prod.mk.injEq] at hp
    obtain ⟨_, rfl⟩ := hp
    exact ⟨h, ⟨rfl, rfl⟩, hheld.congr rfl rfl⟩
  | clock =>
    obtain ⟨_, rfl⟩ := hp
    exact ⟨h, ⟨rfl, rfl⟩, hheld⟩

theorem Node.Held.perform (hheld : n.Held i h) (hne : i ≠ j)
    (hp : o.perform j ms n = some (some b, n₁)) : n₁.Held i h := by
  cases h with
  | none => exact fun hi => hheld (Access.perform_holds hp hi hne)
  | read =>
    obtain ⟨hwriter, hmem, honce⟩ := hheld
    rcases Access.perform_locks hp with ⟨hw, hr⟩ | ⟨_, hw, hr⟩ | ⟨_, hnone, _⟩ | rfl
    · exact Node.Held.congr (h := .read) ⟨hwriter, hmem, honce⟩ hw hr
    · refine ⟨by rw [hw]; nofun, by rw [hr]; exact List.mem_cons_of_mem _ hmem, ?_⟩
      rw [hr, List.erase_cons_tail (by simpa using Ne.symm hne), List.mem_cons, not_or]
      exact ⟨hne, honce⟩
    · rw [hnone] at hmem
      cases hmem
    · refine ⟨?_, (List.mem_erase_of_ne hne).2 hmem, ?_⟩
      · simp only [Node.release]
        split
        · nofun
        · exact hwriter
      · simp only [Node.release]
        rw [List.erase_comm]
        exact fun hmem' => honce (List.mem_of_mem_erase hmem')
  | write =>
    have hwriter : n.writer = some i := hheld
    rcases Access.perform_locks hp with ⟨hw, _⟩ | ⟨hw, _⟩ | ⟨hw, _⟩ | rfl
    · exact hw.trans hwriter
    · rw [hwriter] at hw
      cases hw
    · rw [hwriter] at hw
      cases hw
    · change (if n.writer = some j then none else n.writer) = some i
      rw [hwriter, if_neg (by simpa using hne)]

theorem Node.Held.world_eq (hx : n.Exclusive) (hheld : n.Held i h) (hhold : h ≠ .none) (hne : i ≠ j)
    (hp : o.perform j ms n = some (some b, n₁)) : n₁.world = n.world := by
  have hholds : n.Holds i := by
    cases h with
    | none => exact absurd rfl hhold
    | read => exact .inr hheld.2.1
    | write => exact .inl hheld
  cases hstore : o.isStore with
  | false => exact Access.perform_world hstore hp
  | true => exact absurd (hx.holder (Access.perform_writer hstore hp) hholds) hne

namespace Node.Fit

theorem boot {w : World} {g : History} (hs : Sound (w, g)) : (Node.boot w).Fit :=
  ⟨⟨g, hs⟩, nofun, nofun, nofun⟩

theorem proper (hfit : n.Fit) (hreg : n.Regular (.access j ms)) : ∀ t ∈ n.threads[j]?, t.rest.Next Access.Proper := by
  intro t ht
  obtain ⟨spare, honce⟩ := hfit.stamped t (List.mem_of_getElem? ht)
  have hnext := hreg t ht
  cases hrest : t.rest with
  | ret a => trivial
  | call o k =>
    rw [hrest] at honce hnext
    exact once_sane honce hnext

theorem access (hfit : n.Fit) (hreg : n.Regular (.access j ms)) (hstep : n.access j ms = some n') :
    n'.Fit ∧ ∃ (ns : Bytes) (drawn : List UInt64) (β : Type) (o : Access β) (k : β → Handler Answer) (b : β) (n₁ : Node),
      n.threads[j]? = some ⟨ns, drawn, .call o k⟩ ∧ o.perform j ms n = some (some b, n₁) ∧ n₁.threads = n.threads ∧
      n' = n₁.setThread j ⟨ns, o.account b drawn, k b⟩ := by
  obtain ⟨g, hs⟩ := hfit.sound
  obtain ⟨ns, drawn, β, o, k, b, n₁, g', ht, hp, rfl, hthreads, hsound, _⟩ := Node.access_spec hs (hfit.proper hreg) hstep
  obtain ⟨spare, honce⟩ := hfit.stamped _ (List.mem_of_getElem? ht)
  have hexclusive : n₁.Exclusive := Access.perform_exclusive hfit.exclusive hp
  refine ⟨⟨⟨g', hsound⟩, fun t hmem => ?_, hexclusive, fun i hi => ?_⟩,
    ns, drawn, β, o, k, b, n₁, ht, hp, hthreads, rfl⟩
  · rw [Node.setThread, hthreads] at hmem
    rcases List.mem_or_eq_of_mem_set hmem with hmem | rfl
    · exact hfit.stamped t hmem
    · exact ⟨_, once_next honce⟩
  · rw [Node.setThread, List.length_set, hthreads]
    by_cases hij : i = j
    · exact hij ▸ (List.getElem?_eq_some_iff.1 ht).1
    · exact hfit.holders i (Access.perform_holds hp hi hij)

theorem step (hfit : n.Fit) (hstep : guarded Node.Regular (NodeStep site) n e n') : n'.Fit := by
  obtain ⟨hreg, hn⟩ := hstep
  obtain ⟨g, hs⟩ := hfit.sound
  cases e with
  | start s =>
    cases hn
    refine ⟨hfit.sound, fun t hmem => ?_, hfit.exclusive, fun i hi => ?_⟩
    · rcases List.mem_append.1 hmem with hmem | hmem
      · exact hfit.stamped t hmem
      · rw [List.mem_singleton.1 hmem]
        exact ⟨[], stamped_handler site hreg []⟩
    · rw [List.length_append]
      exact Nat.lt_add_right _ (hfit.holders i hi)
  | access j ms => exact (hfit.access hreg hn).1
  | sync ns records =>
    simp only [NodeStep, Node.step] at hn
    split at hn
    case isFalse => cases hn
    case isTrue =>
      cases hn
      obtain ⟨g', rs, hsound, _, _⟩ := hs.sync ns hreg
      exact ⟨⟨g', hsound⟩, hfit.stamped, hfit.exclusive, hfit.holders⟩
  | restart durable now =>
    obtain ⟨w', g', hopen, hsound, _⟩ := hs.restart durable now
    rw [NodeStep, Node.step, hopen] at hn
    cases hn
    exact .boot hsound

end Node.Fit

namespace Node.Visited

variable {v : Visitor}

theorem step (hv : n.Visited Q i v) (he : e.isRestart = false) (hstep : guarded Node.Regular (NodeStep site) n e n') :
    ∃ v', n'.Visited Q i v' ∧ v'.visits = v.visits ++ if e.isAccessOf i then [(n.world, n'.world)] else [] := by
  have hfit := hv.toFit.step hstep
  obtain ⟨hreg, hn⟩ := hstep
  obtain ⟨t, hti, hkeeps⟩ := hv.thread
  cases e with
  | start s =>
    cases hn
    refine ⟨v, ⟨hfit, hv.held.congr rfl rfl, hv.left, t, ?_, hkeeps⟩, (List.append_nil _).symm⟩
    rw [List.getElem?_append_left (List.getElem?_eq_some_iff.1 hti).1, hti]
  | access j ms =>
    obtain ⟨_, ns, drawn, β, o, k, b, n₁, ht, hp, hthreads, rfl⟩ := hv.toFit.access hreg hn
    by_cases hij : i = j
    · subst hij
      rw [ht] at hti
      cases hti
      obtain ⟨hallowed, hrest⟩ := hkeeps
      obtain ⟨h', hanswers, hheld⟩ := Access.perform_answers hv.exclusive hallowed hv.held hp
      have hgoes := hrest _ _ _ _ ⟨fun _ => hv.sound, hv.left⟩ hanswers
      refine ⟨⟨h', n₁.world, v.visits ++ [(n.world, n₁.world)]⟩,
        ⟨hfit, hheld.congr rfl rfl, fun _ => rfl, ⟨ns, o.account b drawn, k b⟩, ?_, hgoes⟩, ?_⟩
      · rw [Node.setThread, hthreads, List.getElem?_set_self (List.getElem?_eq_some_iff.1 ht).1]
      · rw [NodeEvent.isAccessOf, beq_self_eq_true, if_pos rfl]
        rfl
    · refine ⟨v, ⟨hfit, (hv.held.perform hij hp).congr rfl rfl, fun hhold => ?_, t, ?_, hkeeps⟩, ?_⟩
      · exact (hv.held.world_eq hv.exclusive hhold hij hp).trans (hv.left hhold)
      · rw [Node.setThread, hthreads, List.getElem?_set_ne (Ne.symm hij)]
        exact hti
      · rw [NodeEvent.isAccessOf, beq_false_of_ne (Ne.symm hij), if_neg Bool.false_ne_true, List.append_nil]
  | sync ns records =>
    simp only [NodeStep, Node.step] at hn
    split at hn
    case isFalse => cases hn
    case isTrue hfree =>
      cases hn
      have hnone : v.hold = .none := by
        have hheld := hv.held
        cases hhold : v.hold with
        | none => rfl
        | read =>
          rw [hhold, Held, hfree.2] at hheld
          cases hheld.2.1
        | write =>
          rw [hhold, Held, hfree.1] at hheld
          cases hheld
      exact ⟨v, ⟨hfit, hv.held.congr rfl rfl, fun hhold => absurd hnone hhold, hv.thread⟩, (List.append_nil _).symm⟩
  | restart durable now => cases he

theorem run (hrun : Run (guarded Node.Regular (NodeStep site)) n es n') (hes : ∀ e ∈ es, e.isRestart = false)
    (hv : n.Visited Q i v) : ∃ v', n'.Visited Q i v' ∧ v'.visits = v.visits ++ n.visits site i es := by
  induction hrun generalizing v with
  | nil n => exact ⟨v, hv, (List.append_nil _).symm⟩
  | @cons n n₁ n' e es first rest ih =>
    obtain ⟨v1, hv1, hvisits₁⟩ := hv.step (hes e List.mem_cons_self) first
    obtain ⟨v', hv', hvisits⟩ := ih (fun e he => hes e (List.mem_cons_of_mem _ he)) hv1
    refine ⟨v', hv', ?_⟩
    rw [hvisits, hvisits₁, Node.visits, show n.step site e = some n₁ from first.2, Option.elim_some, List.append_assoc]

end Node.Visited

end

end BunnyMesh
