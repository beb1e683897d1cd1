import BunnyMesh.Server.Stamps
import BunnyMesh.Storage.Runs

/-!
# What a node logs

The logs of a node over one of its steps: a local write adds its record or nothing, a synced batch adds the records the
log does not have, a restart adds nothing.  The store behind a node stays sound all along.
-/

namespace BunnyMesh

open Std Store
open Interface (Prog)
open Runs (Run)

/-! ### The records of a log -/

variable {w w' w'' : World} {g g' : History} {ns : Bytes} {p : ConflictPolicy}

/-- The logs grow by the records `xs`, each in its namespace. -/
def World.Logs (w w' : World) (xs : List (Bytes × Record)) : Prop :=
  ∀ n, w'.records n = w.records n ++ (xs.filter (·.1 = n)).map (·.2)

theorem World.Logs.nil : w.Logs w' [] ↔ ∀ n, w'.records n = w.records n := by
  simp [World.Logs]

theorem World.Logs.refl (w : World) : w.Logs w [] := World.Logs.nil.2 fun _ => rfl

theorem World.Logs.trans {xs ys : List (Bytes × Record)} (h : w.Logs w' xs) (h' : w'.Logs w'' ys) :
    w.Logs w'' (xs ++ ys) := by
  intro n
  rw [h' n, h n, List.filter_append, List.map_append, List.append_assoc]

theorem World.Logs.mem_iff {xs : List (Bytes × Record)} (h : w.Logs w' xs) {n : Bytes} {r : Record} :
    r ∈ w'.records n ↔ r ∈ w.records n ∨ (n, r) ∈ xs := by
  rw [h n, List.mem_append]
  simp

theorem World.Logs.single {r : Record} (h : w.Logs w' [(ns, r)]) :
    w'.records ns = w.records ns ++ [r] ∧ ∀ n, n ≠ ns → w'.records n = w.records n := by
  refine ⟨?_, fun n hn => ?_⟩
  · rw [h ns]
    simp
  · rw [h n]
    simp [Ne.symm hn]

/-! ### Events -/

section
variable [Crates]

theorem Happens.logs_changed {c : Change} (h : Sound (w, g)) (he : Happens (w, g) (.changed ns c) (w', g')) :
    w.Logs w' [(ns, c.record)] := by
  have hat := h.running.toAttached
  cases he with
  | @changed _ _ _ _ p _ logged =>
    obtain ⟨hat', hpol, _⟩ := logged.spec hat
    have hp : w.store.policies[ns]? = some p := by
      obtain ⟨hp, _⟩ := logged
      exact hp
    intro n
    by_cases hn : n = ns
    · subst hn
      rw [hat.records_eq hp, hat'.records_eq (by rw [hpol, hp])]
      simp [History.log]
    · rw [hat.records_congr hat' hpol (Function.update_of_ne hn ..)]
      simp [Ne.symm hn]

theorem Happens.logs_created (h : Sound (w, g)) (he : Happens (w, g) (.created ns p) (w', g')) : w.Logs w' [] := by
  have hat := h.running.toAttached
  refine World.Logs.nil.2 fun n => ?_
  cases he with
  | created valid fresh running =>
    have hat' := running.toAttached
    by_cases hn : n = ns
    · subst hn
      rw [hat.records_none fresh, hat'.records_eq (p := p) (by simp [Store.setPolicy, Store.setLog, Store.bump])]
      simp [History.create]
    · cases hq : w.store.policies[n]? with
      | none =>
        rw [hat.records_none hq, hat'.records_none]
        simp [Store.setPolicy, Store.setLog, Store.bump, hq, Ne.symm hn]
      | some q =>
        rw [hat.records_eq hq, hat'.records_eq (p := q)]
        · simp [History.create, Function.update_of_ne hn]
        · simp [Store.setPolicy, Store.setLog, Store.bump, hq, Ne.symm hn]

theorem Happens.logs_reopened (h : Sound (w, g)) (he : Happens (w, g) .reopened (w', g')) : w.Logs w' [] := by
  cases he with
  | reopened running policies derived view =>
    exact World.Logs.nil.2 fun n => h.running.toAttached.records_congr running.toAttached policies rfl

theorem Run.logs_synced {rs : List Record} (h : Sound (w, g))
    (hrun : Run Happens (w, g) (rs.map fun r => .changed ns (.synced r)) (w', g')) :
    w.Logs w' (rs.map fun r => (ns, r)) := by
  induction rs generalizing w g with
  | nil =>
    cases hrun
    exact .refl _
  | cons r rs ih =>
    cases hrun with
    | @cons _ x _ _ _ first rest => exact (first.logs_changed h).trans (ih (first.sound h) rest)

theorem Outcome.result {α : Type} {x : M α} {enabled : Prop} {events : List Event}
    (h : Outcome w g enabled events (do let _ ← x)) :
    (∃ e, x w = .error (.err e) w) ∨ ∃ a w' g', x w = .ok a w' ∧ Run Happens (w, g) events (w', g') := by
  rcases h with ⟨_, e, herr⟩ | ⟨w', g', hok, hevents⟩
  · left
    cases hx : x w with
    | ok a w1 =>
      rw [Exec.bind_ok hx] at herr
      cases herr
    | error e' w1 =>
      rw [Exec.bind_error hx] at herr
      cases herr
      exact ⟨e, rfl⟩
  · right
    cases hx : x w with
    | ok a w1 =>
      rw [Exec.bind_ok hx] at hok
      cases hok
      exact ⟨a, w', g', rfl, hevents⟩
    | error e' w1 =>
      rw [Exec.bind_error hx] at hok
      cases hok

/-! ### Operations of the store -/

def StoreOp.Fits {β : Type} (o : StoreOp β) : Prop := ∀ x ∈ o.written, x.2.payload.length < 2 ^ 32

instance {β : Type} (o : StoreOp β) : Decidable o.Fits :=
  decidable_of_iff (∀ x ∈ o.written.toList, x.2.payload.length < 2 ^ 32) (by simp [StoreOp.Fits])

theorem Sound.metaSet (h : Sound (w, g)) {key : Bytes} (hkey : ∀ ns, schemaKey ns ≠ key ∧ indexKey ns ≠ key) (value : Bytes) :
    Sound ({ w with store := w.store.metaSet key value }, g) ∧ w.Logs { w with store := w.store.metaSet key value } [] := by
  have hview : ∀ ns, (w.store.metaSet key value).view ns = w.store.view ns := by
    intro ns
    obtain ⟨hschema, hindex⟩ := hkey ns
    simp only [Store.view, Store.metaSet, Store.schema, Store.indexDef, ExtTreeMap.getElem?_insert]
    rw [if_neg (by simpa using Ne.symm hschema), if_neg (by simpa using Ne.symm hindex)]
  have hrunning : Running { w with store := w.store.metaSet key value } g := h.running.congr rfl rfl rfl hview
  refine ⟨⟨hrunning, fun n => ?_, h.baseSized⟩, World.Logs.nil.2 fun n => ?_⟩
  · dsimp only
    exact h.sized n
  · exact h.running.toAttached.records_congr hrunning.toAttached rfl rfl

theorem StoreOp.spec {β : Type} {o : StoreOp β} (h : Sound (w, g)) (hsane : o.Sane) (hfits : o.Fits) :
    (∃ e, o.run w = .error (.err e) w) ∨
      ∃ a w' g', o.run w = .ok a w' ∧ Sound (w', g') ∧ w.Logs w' o.written.toList := by
  have hlogged : ∀ {α : Type} {x : M α} {enabled : Prop} {ns : Bytes} {c : Change},
      Outcome w g enabled [.changed ns c] (do let _ ← x) → (∃ e, x w = .error (.err e) w) ∨
        ∃ a w' g', x w = .ok a w' ∧ Sound (w', g') ∧ w.Logs w' [(ns, c.record)] := by
    intro α x enabled ns c hout
    refine hout.result.imp_right fun ⟨a, w', g', hrun, hevents⟩ => ?_
    cases hevents with
    | cons first rest =>
      cases rest
      exact ⟨a, w', g', hrun, first.sound h, first.logs_changed h⟩
  cases o with
  | metaSet key value =>
    obtain ⟨hsound, hlogs⟩ := h.metaSet hsane value
    exact .inr ⟨(), _, g, rfl, hsound, hlogs⟩
  | createNamespace ns policy =>
    rcases outcome_createNamespace h.running ns policy with ⟨_, e, herr⟩ | ⟨w', g', hok, hevents⟩
    · exact .inl ⟨e, herr⟩
    · cases hevents with
      | cons first rest =>
        cases rest
        exact .inr ⟨(), w', g', hok, first.sound h, first.logs_created h⟩
  | put ns key value hlc replica author expiresAt =>
    exact hlogged (Cmd.outcome (c := .put ns key value hlc replica author expiresAt) h (hfits _ rfl))
  | delete ns key hlc replica author =>
    exact hlogged (Cmd.outcome (c := .delete ns key hlc replica author) h (hfits _ rfl))
  | putBatch ns ops => exact hlogged (Cmd.outcome (c := .putBatch ns ops) h ⟨hsane, hfits _ rfl⟩)
  | setSchema ns value hlc replica author =>
    exact hlogged (Cmd.outcome (c := .setSchema ns value hlc replica author) h (hfits _ rfl))
  | setIndex ns value hlc replica author =>
    exact hlogged (Cmd.outcome (c := .setIndex ns value hlc replica author) h (hfits _ rfl))

theorem Sound.sync (h : Sound (w, g)) (ns : Bytes) {records : List Record} (hr : ∀ r ∈ records, r.WellFormed) :
    ∃ (g' : History) (rs : List Record), Sound (Exec.finalState (applySyncedBatch ns records w), g') ∧ (∀ r ∈ rs, r ∈ w.unseen ns records) ∧
      w.Logs (Exec.finalState (applySyncedBatch ns records w)) (rs.map fun r => (ns, r)) := by
  have hout : Outcome w g _ _ (do let _ ← applySyncedBatch ns records) := Cmd.outcome (c := .applySyncedBatch ns records) h hr
  rcases hout.result with ⟨e, herr⟩ | ⟨a, w', g', hok, hevents⟩
  · rw [herr]
    exact ⟨g, [], h, nofun, .refl w⟩
  · rw [hok]
    exact ⟨g', w.unseen ns records, hevents.invariant (fun _ _ _ hx he => he.sound hx) h, fun _ => id, Run.logs_synced h hevents⟩

theorem Sound.restart (h : Sound (w, g)) (durable : Bool) (now : UInt64) :
    ∃ w' g', openDurable durable now w = .ok () w' ∧ Sound (w', g') ∧ w.Logs w' [] := by
  rcases Cmd.outcome (c := .reopen durable now) h trivial with ⟨henabled, _⟩ | ⟨w', g', hok, hevents⟩
  · exact absurd trivial henabled
  · cases hevents with
    | cons first rest =>
      cases rest
      exact ⟨w', g', hok, first.sound h, first.logs_reopened h⟩

end

/-! ### Accesses -/

section
variable [AuthCrates] {β : Type} {o : Access β} {n n' : Node} {g : History} {i : Nat} {ms : UInt64} {r : Option β}

def Access.writes : {β : Type} → Access β → Option (Bytes × Record)
  | _, .store o => o.written
  | _, _ => none

/-- What the store counts on when it is asked to write. -/
def Access.Proper : {β : Type} → Access β → Prop
  | _, .store o => o.Sane ∧ o.Fits
  | _, _ => True

theorem Access.perform_draw {stamp : Bool} {b : UInt64} (hp : (Access.draw stamp).perform i ms n = some (some b, n')) :
    b = Hlc.now ms n.last ∧ n'.last = b := by
  simp only [Access.perform, Option.some.injEq, Prod.mk.injEq] at hp
  obtain ⟨hb, hn'⟩ := hp
  refine ⟨hb.symm, ?_⟩
  rw [← hn', ← hb]

theorem Access.perform_spec (h : Sound (n.world, g)) (ho : o.Proper) (hp : o.perform i ms n = some (r, n')) :
    ∃ b g', r = some b ∧ n'.threads = n.threads ∧ Sound (n'.world, g') ∧
      (n.world.Logs n'.world [] ∨ n.world.Logs n'.world o.writes.toList) := by
  have hsame : ∀ {b : β} {n1 : Node}, some (some b, n1) = some (r, n') → n1.world = n.world → n1.threads = n.threads →
      ∃ b g', r = some b ∧ n'.threads = n.threads ∧ Sound (n'.world, g') ∧
        (n.world.Logs n'.world [] ∨ n.world.Logs n'.world o.writes.toList) := by
    intro b n1 heq hworld hthreads
    cases heq
    refine ⟨b, g, rfl, hthreads, ?_, .inl ?_⟩
    · rw [hworld]
      exact h
    · rw [hworld]
      exact .refl _
  cases o with
  | readLock =>
    simp only [Access.perform] at hp
    split at hp
    · exact hsame hp rfl rfl
    · cases hp
  | writeLock =>
    simp only [Access.perform] at hp
    split at hp
    · exact hsame hp rfl rfl
    · cases hp
  | unlock => exact hsame hp rfl rfl
  | read f =>
    simp only [Access.perform] at hp
    split at hp
    · exact hsame hp rfl rfl
    · cases hp
  | scanKeys ns pre =>
    simp only [Access.perform] at hp
    split at hp
    · exact hsame hp rfl rfl
    · cases hp
  | draw stamp => exact hsame hp rfl rfl
  | clock => exact hsame hp rfl rfl
  | store o =>
    simp only [Access.perform] at hp
    split at hp
    · rcases StoreOp.spec h ho.1 ho.2 with ⟨e, herr⟩ | ⟨a, w', g', hok, hsound, hlogs⟩
      · rw [herr] at hp
        exact hsame hp rfl rfl
      · rw [hok] at hp
        cases hp
        exact ⟨_, g', rfl, rfl, hsound, .inr hlogs⟩
    · cases hp

omit [AuthCrates] in
theorem Node.setThread_cases {j : Nat} {t t' : Thread} (h : (n.setThread i t').threads[j]? = some t) :
    (j = i ∧ t = t') ∨ (j ≠ i ∧ n.threads[j]? = some t) := by
  rw [Node.setThread, List.getElem?_set] at h
  split at h
  case isTrue hij =>
    split at h
    case isTrue =>
      cases h
      exact .inl ⟨hij.symm, rfl⟩
    case isFalse => cases h
  case isFalse hij => exact .inr ⟨Ne.symm hij, h⟩

theorem Node.access_spec (h : Sound (n.world, g)) (ho : ∀ t ∈ n.threads[i]?, t.rest.Next Access.Proper)
    (hstep : n.access i ms = some n') : ∃ (ns : Bytes) (drawn : List UInt64) (β : Type) (o : Access β) (k : β → Handler Answer)
      (b : β) (n1 : Node) (g' : History), n.threads[i]? = some ⟨ns, drawn, .call o k⟩ ∧ o.perform i ms n = some (some b, n1) ∧
      n' = n1.setThread i ⟨ns, o.account b drawn, k b⟩ ∧ n1.threads = n.threads ∧ Sound (n1.world, g') ∧
      (n.world.Logs n1.world [] ∨ n.world.Logs n1.world o.writes.toList) := by
  unfold Node.access at hstep
  split at hstep
  case h_2 => cases hstep
  case h_1 ns drawn β o k hthread =>
    have hproper : o.Proper := ho _ hthread
    split at hstep
    case h_1 b n1 hperform =>
      obtain ⟨_, g', _, hthreads, hsound, hlogs⟩ := Access.perform_spec h hproper hperform
      cases hstep
      exact ⟨ns, drawn, β, o, k, b, n1, g', hthread, hperform, rfl, hthreads, hsound, hlogs⟩
    case h_2 n1 hperform =>
      obtain ⟨b, _, hnone, _⟩ := Access.perform_spec h hproper hperform
      cases hnone
    case h_3 => cases hstep

end

end BunnyMesh
