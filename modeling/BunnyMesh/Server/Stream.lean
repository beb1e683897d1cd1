import BunnyMesh.Server.Schemas

/-!
# The event stream

`sse_events` (`server/mod.rs`) drains the log of a namespace record by record and then waits for a notification on the
broadcast channel.  The writers send one after the lock is let go, and the sync loop sends one under it; `run_ql` sends
none.  So a stream that waits is caught up as long as no query has logged a record (`stream_misses_nothing`).
-/

namespace BunnyMesh

open Std Store
open Interface (Prog Discipline)
open Runs (Run guarded exec run_of_exec)

/-! ### What a batch reports -/

/-- The open results of a plan are at the positions of its writes, apart from each other and from those of its reads. -/
structure BatchPlan.Placed (plan : BatchPlan) : Prop where
  isOpen : ∀ x ∈ plan.pendingWrites, plan.results[x.1]? = some none
  nodup : (plan.pendingWrites.map (·.1)).Nodup
  bound : ∀ x ∈ plan.pendingGets, x.1 < plan.results.length
  apart : ∀ x ∈ plan.pendingGets, ∀ y ∈ plan.pendingWrites, x.1 ≠ y.1
  paired : plan.pendingWrites.length = plan.accepted.length

namespace BatchPlan

variable {plan : BatchPlan}

theorem Placed.lt (h : plan.Placed) : ∀ x ∈ plan.pendingWrites, x.1 < plan.results.length := by
  intro x hx
  exact (List.getElem?_eq_some_iff.1 (h.isOpen x hx)).1

theorem placed_empty : empty.Placed := ⟨nofun, List.nodup_nil, nofun, nofun, rfl⟩

theorem Placed.isOpen_append (h : plan.Placed) (r : Option BatchResult) :
    ∀ x ∈ plan.pendingWrites, (plan.results ++ [r])[x.1]? = some none := by
  intro x hx
  rw [List.getElem?_append_left (h.lt x hx)]
  exact h.isOpen x hx

theorem Placed.fail (h : plan.Placed) (error : Bytes) : (plan.fail error).Placed := by
  refine ⟨h.isOpen_append _, h.nodup, fun x hx => ?_, h.apart, h.paired⟩
  have hlt := h.bound x hx
  simp only [BatchPlan.fail, List.length_append, List.length_singleton]
  omega

theorem Placed.get (h : plan.Placed) (key : Bytes) : (plan.get key).Placed := by
  refine ⟨h.isOpen_append _, h.nodup, fun x hx => ?_, fun x hx y hy => ?_, h.paired⟩
  · simp only [BatchPlan.get, List.length_append, List.length_singleton]
    rcases List.mem_append.1 hx with hx | hx
    · have hlt := h.bound x hx
      omega
    · rw [List.mem_singleton.1 hx]
      exact Nat.lt_succ_self _
  · rcases List.mem_append.1 hx with hx | hx
    · exact h.apart x hx y hy
    · rw [List.mem_singleton.1 hx]
      exact Nat.ne_of_gt (h.lt y hy)

theorem Placed.accept (h : plan.Placed) (op : Op) : (plan.accept op).Placed := by
  refine ⟨fun x hx => ?_, ?_, fun x hx => ?_, fun x hx y hy => ?_, ?_⟩
  · rcases List.mem_append.1 hx with hx | hx
    · exact h.isOpen_append _ x hx
    · rw [List.mem_singleton.1 hx]
      simp [BatchPlan.accept]
  · simp only [BatchPlan.accept, List.map_append, List.map_cons, List.map_nil]
    refine List.nodup_append.2 ⟨h.nodup, List.nodup_singleton _, fun a ha b hb => ?_⟩
    obtain ⟨x, hx, rfl⟩ := List.mem_map.1 ha
    rw [List.mem_singleton.1 hb]
    exact Nat.ne_of_lt (h.lt x hx)
  · have hlt := h.bound x hx
    simp only [BatchPlan.accept, List.length_append, List.length_singleton]
    omega
  · rcases List.mem_append.1 hy with hy | hy
    · exact h.apart x hx y hy
    · rw [List.mem_singleton.1 hy]
      exact Nat.ne_of_lt (h.bound x hx)
  · simp [BatchPlan.accept, h.paired]

end BatchPlan

def BatchResult.isWritten : Option BatchResult → Bool
  | some (.written _) => true
  | _ => false

variable {i : Nat}

theorem resolve_isOpen {results : List (Option BatchResult)} {is : List Nat} (hi : i ∈ is)
    (hopen : results[i]? = some none) (r : BatchResult) : (resolve results is r)[i]? = some (some r) := by
  have hkeep : ∀ (is : List Nat) (rs : List (Option BatchResult)), rs[i]? = some (some r) →
      (resolve rs is r)[i]? = some (some r) := by
    intro is
    induction is with
    | nil => exact fun rs h => h
    | cons j is ih =>
      intro rs h
      refine ih _ ?_
      dsimp only
      split
      case isTrue hnone =>
        have hji : j ≠ i := by
          rintro rfl
          simp [h] at hnone
        rw [List.getElem?_set_ne hji]
        exact h
      case isFalse => exact h
  induction is generalizing results with
  | nil => cases hi
  | cons j is ih =>
    by_cases hji : j = i
    · subst hji
      refine hkeep is _ ?_
      dsimp only
      rw [if_pos (by simp [hopen])]
      exact List.getElem?_set_self (List.getElem?_eq_some_iff.1 hopen).1
    · refine ih ((List.mem_cons.1 hi).resolve_left (Ne.symm hji)) ?_
      dsimp only
      split
      · rw [List.getElem?_set_ne hji]
        exact hopen
      · exact hopen

theorem readBack_getElem? (s : Store) (ns : Bytes) (now : Nat) {gets : List (Nat × Bytes)} {results : List (Option BatchResult)}
    (hi : ∀ x ∈ gets, x.1 ≠ i) : (Handler.readBack s ns now gets results)[i]? = results[i]? := by
  unfold Handler.readBack
  generalize some maxBatchGetBytes = budget
  induction gets generalizing results budget with
  | nil => rfl
  | cons x gets ih =>
    have hx : ∀ r : Option BatchResult, (results.set x.1 r)[i]? = results[i]? :=
      fun r => List.getElem?_set_ne (hi x List.mem_cons_self)
    have hrest : ∀ y ∈ gets, y.1 ≠ i := fun y hy => hi y (List.mem_cons_of_mem x hy)
    rw [List.foldl_cons]
    cases budget with
    | none => exact (ih hrest _).trans (hx _)
    | some left =>
      dsimp only
      split
      · exact (ih hrest _).trans (hx _)
      · split
        · exact (ih hrest _).trans (hx _)
        · exact (ih hrest _).trans (hx _)

section
variable [AuthCrates] {validate : JValue → JValue → Except Bytes Unit} {cfg : NodeConfig} {ns m : Bytes} {V : Bytes → Prop}
  {g : List Record}

theorem placed_planOp (schema : Option JValue) (principal : PublicKey) {plan : BatchPlan} (h : plan.Placed) (op : BatchOp) :
    (Handler.planOp validate cfg schema principal plan op).Keeps (enforcing validate ns V)
      (fun plan g' => plan.Placed ∧ g' = g) g := by
  refine keeps_planOp (G := (· = g)) rfl (fun _ _ => ⟨h.fail _, rfl⟩) (fun _ _ => ⟨h.get _, rfl⟩) (fun _ => rfl)
    fun o _ g' hg hlc => ⟨h.accept _, hg⟩

def Handler.charge (cfg : NodeConfig) (ns : Bytes) : List Op × List (Option BatchResult) → Op × Nat × Nat →
    Handler (List Op × List (Option BatchResult)) := fun (applied, results) (op, i, bytes) => do
  match ← accountWrite ns bytes cfg.defaultQuota with
  | .ok () => pure (applied ++ [op], results)
  | .error e => pure (applied, results.set i (some (.failed e.display)))

theorem keeps_charge (r : List Op × List (Option BatchResult)) (x : Op × Nat × Nat) :
    (Handler.charge cfg m r x).Keeps (enforcing validate ns V) (fun r' g' => g' = g ∧
      (r' = (r.1 ++ [x.1], r.2) ∨ ∃ e, r' = (r.1, r.2.set x.2.1 (some e)))) g := by
  refine (silent_accountWrite silent_read (fun _ => silent_store rfl) _ _ g).bind fun charged g' hg => ?_
  subst hg
  cases charged with
  | ok u => exact ⟨rfl, .inl rfl⟩
  | error e => exact ⟨rfl, .inr ⟨_, rfl⟩⟩

theorem placed_chargeAll {writes : List (Op × Nat × Nat)} {applied : List Op} {results : List (Option BatchResult)}
    {is : List Nat} (hmem : ∀ x ∈ writes, x.2.1 ∈ is) (hnodup : (writes.map (·.2.1)).Nodup)
    (hopen : ∀ x ∈ writes, results[x.2.1]? = some none)
    (happlied : applied ≠ [] → ∃ i ∈ is, i ∉ writes.map (·.2.1) ∧ results[i]? = some none) :
    (writes.foldlM (Handler.charge cfg m) (applied, results)).Keeps (enforcing validate ns V)
      (fun r g' => g' = g ∧ (r.1 ≠ [] → ∃ i ∈ is, r.2[i]? = some none)) g := by
  induction writes generalizing applied results with
  | nil =>
    refine ⟨rfl, fun hne => ?_⟩
    obtain ⟨i, hi, _, hnone⟩ := happlied hne
    exact ⟨i, hi, hnone⟩
  | cons x writes ih =>
    rw [List.map_cons, List.nodup_cons] at hnodup
    refine (keeps_charge (applied, results) x).bind fun r g' hr => ?_
    obtain ⟨rfl, rfl | ⟨e, rfl⟩⟩ := hr
    · refine ih (fun y hy => hmem y (List.mem_cons_of_mem x hy)) hnodup.2 (fun y hy => hopen y (List.mem_cons_of_mem x hy))
        fun _ => ⟨x.2.1, hmem x List.mem_cons_self, hnodup.1, hopen x List.mem_cons_self⟩
    · have hother : ∀ i, i ≠ x.2.1 → (results.set x.2.1 (some e))[i]? = results[i]? :=
        fun i hi => List.getElem?_set_ne (Ne.symm hi)
      refine ih (fun y hy => hmem y (List.mem_cons_of_mem x hy)) hnodup.2 (fun y hy => ?_) fun hne => ?_
      · rw [hother]
        · exact hopen y (List.mem_cons_of_mem x hy)
        · intro heq
          exact hnodup.1 (heq ▸ List.mem_map_of_mem hy)
      · obtain ⟨i, hi, hnot, hnone⟩ := happlied hne
        rw [List.map_cons, List.mem_cons, not_or] at hnot
        exact ⟨i, hi, hnot.2, (hother i hnot.1).trans hnone⟩

theorem placed_applyPlan (principal : PublicKey) {plan : BatchPlan} (h : plan.Placed) :
    (Handler.applyPlan cfg m principal plan).Keeps (enforcing validate ns fun _ => True) (fun r g => g ≠ [] →
      ∃ x, r = .ok x ∧ ∃ i ∈ plan.pendingWrites.map (·.1), x.1[i]? = some none) [] := by
  refine enforcing_writing ((silent_provide silent_read (fun _ _ => silent_store rfl) principal []).bind fun refusal g hg => ?_)
  subst hg
  cases refusal with
  | some r => exact fun hne => absurd rfl hne
  | none =>
    have hsnd : (plan.accepted.zip plan.pendingWrites).map (·.2) = plan.pendingWrites := List.map_snd_zip h.paired.le
    have hfst : (plan.accepted.zip plan.pendingWrites).map (·.2.1) = plan.pendingWrites.map (·.1) := by
      rw [← hsnd, List.map_map, hsnd]
      rfl
    have hzip : ∀ x ∈ plan.accepted.zip plan.pendingWrites, x.2 ∈ plan.pendingWrites := fun x hx => (List.of_mem_zip hx).2
    have hcharged : (Handler.chargeAll cfg m (plan.accepted.zip plan.pendingWrites) plan.results).Keeps
        (enforcing validate ns fun _ => True) (fun r g => g = [] ∧ (r.1 ≠ [] → ∃ i ∈ plan.pendingWrites.map (·.1), r.2[i]? = some none)) [] :=
      placed_chargeAll (fun x hx => List.mem_map_of_mem (hzip x hx)) (hfst ▸ h.nodup) (fun x hx => h.isOpen x.2 (hzip x hx))
        fun hne => absurd rfl hne
    refine hcharged.bind fun r g hr => ?_
    obtain ⟨rfl, hopen⟩ := hr
    dsimp only
    split
    case isTrue => exact fun hne => absurd rfl hne
    case isFalse hne =>
      refine ⟨fun _ _ _ _ _ => trivial, fun e hne => absurd rfl hne, fun seq _ => ⟨_, rfl, ?_⟩⟩
      exact hopen fun he => hne (by rw [he]; rfl)

theorem placed_handleBatch (principal : PublicKey) (ops : List BatchOp) :
    (Handler.handleBatch validate cfg m principal ops).Keeps (enforcing validate ns fun _ => True)
      (fun r g => g ≠ [] → ∃ rs, r = .ok rs ∧ rs.any BatchResult.isWritten = true) [] := by
  unfold Handler.handleBatch
  split
  · exact fun hne => absurd rfl hne
  · split
    · exact fun hne => absurd rfl hne
    · split
      · exact fun hne => absurd rfl hne
      · refine (enforcing_look _ []).bind fun schema g hg => ?_
        obtain ⟨rfl, _⟩ := hg
        have hplan : (ops.foldlM (Handler.planOp validate cfg schema principal) BatchPlan.empty).Keeps
            (enforcing validate ns fun _ => True) (fun plan g => plan.Placed ∧ g = []) [] := by
          refine Prog.Keeps.foldlM ⟨BatchPlan.placed_empty, rfl⟩ fun plan g op _ hplan => ?_
          obtain ⟨hplan, rfl⟩ := hplan
          exact placed_planOp schema principal hplan op
        refine hplan.bind fun plan g hplan => ?_
        obtain ⟨hplan, rfl⟩ := hplan
        refine (placed_applyPlan principal hplan).bind fun outcome g hg => ?_
        cases outcome with
        | error r =>
          intro hne
          obtain ⟨x, hx, _⟩ := hg hne
          cases hx
        | ok x =>
          intro now
          refine (enforcing_look _ g).bind fun results g' hg' => ?_
          obtain ⟨rfl, s, _, rfl⟩ := hg'
          intro hne
          obtain ⟨_, hx, i, hi, hopen⟩ := hg hne
          cases hx
          have hapart : ∀ y ∈ plan.pendingGets, y.1 ≠ i := by
            obtain ⟨y, hy, rfl⟩ := List.mem_map.1 hi
            exact fun z hz => hplan.apart z hz y hy
          have hwritten := resolve_isOpen hi ((readBack_getElem? s m now.toNat hapart).trans hopen) (.written x.2)
          exact ⟨_, rfl, List.any_eq_true.2 ⟨_, List.mem_of_getElem? hwritten, rfl⟩⟩

/-! ### Notifications -/

/-- Does the handler call `notify_change` before it answers?  A batch does where its record was logged (`mutated`), and then
reports a write as applied. -/
def Surface.announces : Surface → Answer → Bool
  | put .., .reply r | delete .., .reply r | schemaSet .., .reply r | schemaClear .., .reply r | indexSet .., .reply r
  | indexClear .., .reply r => !r.isError
  | batch .., .results rs => rs.any BatchResult.isWritten
  | _, _ => false

/-- A request that is not a query announces what it has logged. -/
def Announced (s : Surface) (a : Answer) (g : List Record) : Prop := s.isQuery = false → g ≠ [] → s.announces a = true

theorem announced_handler (site : Site) {s : Surface} (hhttp : s.isHttp = true) :
    (s.handler site).Keeps (schemaDiscipline site.validate ns (fun _ => True) s) (Announced s) [] := by
  unfold schemaDiscipline
  cases hquery : s.isQuery with
  | true =>
    refine (keeps_logging (s.handler site) []).mono fun a g _ hfalse => ?_
    rw [hquery] at hfalse
    cases hfalse
  | false =>
    have hreply : ∀ {r : Reply} {g : List Record}, (r.isError = true → g = []) → g ≠ [] → (!r.isError) = true := by
      intro r g h hne
      cases hr : r.isError with
      | true => exact absurd (h hr) hne
      | false => rfl
    cases s with
    | put m key body ttl principal => exact (enforcing_handlePut site.cfg key body ttl principal).bind fun _ _ h _ => hreply h
    | delete m key principal => exact (enforcing_handleDelete site.cfg key principal).bind fun _ _ h _ => hreply h
    | batch m principal ops =>
      refine (placed_handleBatch principal ops).bind fun r g h => ?_
      cases r with
      | ok rs =>
        intro _ hne
        obtain ⟨_, hrs, hwritten⟩ := h hne
        cases hrs
        exact hwritten
      | error e =>
        intro _ hne
        obtain ⟨_, hrs, _⟩ := h hne
        cases hrs
    | query => cases hquery
    | createNamespace name policy => exact (enforcing_l1CreateNamespace name policy).bind fun _ _ h _ hne => absurd h hne
    | schemaSet m body => exact (enforcing_l1SchemaSet site.cfg site.supported body).bind fun _ _ h _ => hreply h
    | schemaClear m => exact (enforcing_setSchema site.cfg none).bind fun _ _ h _ => hreply h
    | indexSet m body => exact (enforcing_l1IndexSet site.cfg site.encode body).bind fun _ _ h _ => hreply h
    | indexClear m => exact (enforcing_setIndex site.cfg none).bind fun _ _ h _ => hreply h
    | create | flush | mkdir | unlink | rmdir | rename | truncate => cases hhttp

end

/-! ### The stream -/

structure ChangeEvent where
  seq : Nat
  hash : Bytes32
deriving DecidableEq

/-- A stream reads the log, waits in `recv`, or has ended. -/
inductive StreamPhase where
  | draining
  | waiting
  | ended
deriving DecidableEq

/-- A stream and its end of the broadcast channel: the notifications that are queued, and whether the channel has dropped
older ones. -/
structure EventStream where
  since : UInt64
  cursor : UInt64
  delivered : List ChangeEvent
  phase : StreamPhase
  queue : List Bytes
  lagged : Bool

def changeCapacity : Nat := 256

namespace EventStream

def subscribe (since : UInt64) : EventStream := ⟨since, since, [], .draining, [], false⟩

/-- A notification; a full channel drops the oldest one. -/
def send (s : EventStream) (ns : Bytes) : EventStream :=
  if s.queue.length < changeCapacity then { s with queue := s.queue ++ [ns] }
  else { s with queue := s.queue.drop 1 ++ [ns], lagged := true }

def deliver (s : EventStream) (seq : Nat) (hash : Bytes32) : EventStream :=
  { s with cursor := UInt64.ofNat seq, delivered := s.delivered ++ [⟨seq, hash⟩] }

/-- `recv`: whatever the namespace, the stream reads again; an error ends it. -/
def recv (s : EventStream) : Option EventStream :=
  if s.lagged then some { s with phase := .ended }
  else
    match s.queue with
    | [] => none
    | _ :: rest => some { s with queue := rest, phase := .draining }

section
variable [Crates]

/-- One read of the log: an event for the next record, or the stream goes to wait. -/
def drain (s : EventStream) (ns : Bytes) (w : World) : EventStream :=
  match logRecords ns (s.cursor + 1).toNat 1 w with
  | .ok ((seq, bytes) :: _) _ =>
    match parseChain bytes none with
    | .ok (_, prev) => s.deliver seq (recordHash prev bytes)
    | .error (.err _) => s.deliver seq (recordHash .zero bytes)
    | .error (.panic _) => { s with phase := .ended }
  | .ok [] _ | .error (.err _) _ => { s with phase := .waiting }
  | .error (.panic _) _ => { s with phase := .ended }

variable {w : World} {g : History} {s : EventStream}

theorem drain_spec (ns : Bytes) (h : Attached w g) (hs : s.cursor.toNat + 1 < 2 ^ 64) :
    ((w.records ns).length ≤ s.cursor.toNat ∧ s.drain ns w = { s with phase := .waiting }) ∨
      ∃ hash, s.cursor.toNat < (w.records ns).length ∧ s.drain ns w = s.deliver (s.cursor.toNat + 1) hash := by
  have hnext : (s.cursor + 1).toNat = s.cursor.toNat + 1 := by
    exact Nat.mod_eq_of_lt hs
  cases hp : w.store.policies[ns]? with
  | none =>
    left
    rw [h.records_none hp]
    refine ⟨Nat.zero_le _, ?_⟩
    simp [drain, logRecords, getLog, h.noLogs ns hp]
  | some p =>
    have hread := h.logRecords_spec hp s.cursor.toNat 1
    have hchained := (h.files.chained ns (by rw [hp]; simp)).drop s.cursor.toNat
    rw [h.records_eq hp]
    generalize chainHead .zero ((g.bytes ns).take s.cursor.toNat) = head at hchained
    generalize (g.bytes ns).drop s.cursor.toNat = bs at hread hchained
    generalize hrs : (g.records ns).drop s.cursor.toNat = rs at hchained
    cases hchained with
    | nil =>
      left
      refine ⟨List.drop_eq_nil_iff.1 hrs, ?_⟩
      rw [drain, hnext, hread]
      rfl
    | @cons _ b r bs rs parsed rest =>
      right
      refine ⟨recordHash head b, ?_, ?_⟩
      · by_contra hle
        rw [List.drop_eq_nil_iff.2 (Nat.not_lt.1 hle)] at hrs
        cases hrs
      · have hone : numberFrom (s.cursor.toNat + 1) (takeMax 1 (b :: bs)) = [(s.cursor.toNat + 1, b)] := rfl
        simp [drain, hnext, hread, hone, parseChain_none parsed]

end

end EventStream

/-! ### Runs -/

/-- A node with the records each request has logged in a namespace, the requests whose notification has been sent, and a
stream of the namespace. -/
structure Watched where
  served : Served (List Record)
  notified : List Nat
  stream : Option EventStream

/-- What happens: the node takes a step, the handler `i` sends its notification, a stream is opened, and it reads or
receives. -/
inductive WatchedEvent where
  | node (e : NodeEvent)
  | notify (i : Nat)
  | subscribe (since : UInt64)
  | drain
  | recv

namespace Watched

def world (x : Watched) : World := x.served.node.world

section
variable [AuthCrates]

/-- What a step of the node does to the stream: the sync loop sends a notification with the batch it has applied, and a
stream does not outlive its process. -/
def after (x : Watched) (y : Served (List Record)) : NodeEvent → Watched
  | .start _ | .access _ _ => { x with served := y }
  | .sync m records =>
    if (Exec.okState (applySyncedBatch m records x.world)).isSome then
      { x with served := y, stream := x.stream.map (·.send m) }
    else { x with served := y }
  | .restart _ _ => ⟨y, [], x.stream.map fun s => { s with phase := .ended }⟩

def step (site : Site) (ns : Bytes) (x : Watched) : WatchedEvent → Option Watched
  | .node e => (x.served.step site [] (recordsLogged ns) e).map fun y => x.after y e
  | .notify i =>
    match x.served.node.threads[i]?, x.served.requests[i]? with
    | some ⟨_, _, .ret a⟩, some r =>
      if r.surface.announces a = true ∧ i ∉ x.notified then
        some { x with notified := i :: x.notified, stream := x.stream.map (·.send (r.surface.ns site.cfg)) }
      else none
    | _, _ => none
  | .subscribe since => if x.stream.isNone then some { x with stream := some (.subscribe since) } else none
  | .drain =>
    match x.stream with
    | some s =>
      if s.phase = .draining ∧ x.served.node.writer = none then some { x with stream := some (s.drain ns x.world) } else none
    | none => none
  | .recv =>
    match x.stream with
    | some s => if s.phase = .waiting then s.recv.map fun s => { x with stream := some s } else none
    | none => none

end

def Between (x : Watched) (i : Nat) : Prop := ∃ t r, x.served.node.threads[i]? = some t ∧ x.served.requests[i]? = some r ∧
  r.account ≠ [] ∧ ∀ a, t.rest = .ret a → r.surface.announces a = true ∧ i ∉ x.notified

/-- The stream delivers the numbers behind `since` one by one; where it waits, nothing is queued and no handler owes a
notification, it has delivered the whole log. -/
def MissesNothing (ns : Bytes) (x : Watched) : Prop := ∀ s, x.stream = some s →
  s.delivered.map (·.seq) = List.range' (s.since.toNat + 1) s.delivered.length ∧
    (s.phase = .waiting → s.queue = [] → s.lagged = false → (∀ i, ¬ x.Between i) →
      (x.world.records ns).length ≤ s.since.toNat + s.delivered.length)

def Regular (x : Watched) : WatchedEvent → Prop
  | .node e => x.served.node.Regular e
  | .notify _ | .subscribe _ | .drain | .recv => True

/-- Where the stream keeps up: a query logs nothing in `ns`, and the number after the cursor is one. -/
def Audible (ns : Bytes) (x : Watched) : WatchedEvent → Prop
  | .node (.access i _) => ∀ r ∈ x.served.requests[i]?, r.surface.isQuery = true → ∀ t ∈ x.served.node.threads[i]?,
      t.rest.Next fun o => ∀ y ∈ o.writes, y.1 ≠ ns
  | .drain => ∀ s ∈ x.stream, s.cursor.toNat + 1 < 2 ^ 64
  | _ => True

end Watched

def WatchedStep [AuthCrates] (site : Site) (ns : Bytes) (x : Watched) (e : WatchedEvent) (x' : Watched) : Prop :=
  x.step site ns e = some x'

namespace Watched

section
variable [AuthCrates] {site : Site} {ns : Bytes} {x x' : Watched} {y : Served (List Record)} {i : Nat} {ms : UInt64}

/-- The stream has delivered the numbers behind `since`, and if it waits with a record still to come, it is woken. -/
def Woken (ns : Bytes) (x : Watched) (s : EventStream) : Prop :=
  s.delivered.map (·.seq) = List.range' (s.since.toNat + 1) s.delivered.length ∧
    s.cursor.toNat = s.since.toNat + s.delivered.length ∧
    (s.phase = .waiting → (x.world.records ns).length ≤ s.cursor.toNat ∨ s.queue ≠ [] ∨ s.lagged = true ∨ ∃ i, x.Between i)

structure Alert (site : Site) (ns : Bytes) (x : Watched) : Prop where
  sound : ∃ g, Sound (x.world, g)
  keeps : x.served.Keeps (schemaDiscipline site.validate ns fun _ => True) Announced
  quiet : ∀ r ∈ x.served.requests, r.surface.isQuery = true → r.account = []
  done : ∀ i ∈ x.notified, ∃ t a, x.served.node.threads[i]? = some t ∧ t.rest = .ret a
  woken : ∀ s, x.stream = some s → x.Woken ns s

theorem Alert.missesNothing (h : x.Alert site ns) : x.MissesNothing ns := by
  intro s hs
  obtain ⟨hseqs, hcursor, hwoken⟩ := h.woken s hs
  refine ⟨hseqs, fun hphase hqueue hlagged hbetween => ?_⟩
  rcases hwoken hphase with hle | hne | hlag | ⟨i, hi⟩
  · exact hle.trans hcursor.le
  · exact absurd hqueue hne
  · rw [hlagged] at hlag
    cases hlag
  · exact absurd hi (hbetween i)

theorem Alert.answers (h : x.Alert site ns) : x.served.Answers (schemaDiscipline site.validate ns fun _ => True) (recordsLogged ns) := by
  obtain ⟨g, hs⟩ := h.sound
  intro β o i ms b n r P _ ho hp hwp
  unfold schemaDiscipline at hwp
  split at hwp
  · exact logging_answers hs trivial ho hp hwp
  · exact logging_answers hs (fun _ _ => trivial) ho hp hwp

omit [AuthCrates] in
theorem Between.of_ne {y : Watched} {j : Nat} (h : x.Between j) (ht : y.served.node.threads[j]? = x.served.node.threads[j]?)
    (hr : y.served.requests[j]? = x.served.requests[j]?) (hn : y.notified = x.notified) : y.Between j := by
  obtain ⟨t, r, ht', hr', hne, hannounces⟩ := h
  exact ⟨t, r, ht.trans ht', hr.trans hr', hne, hn ▸ hannounces⟩

theorem Alert.not_mem_notified (h : x.Alert site ns) {m : Bytes} {drawn : List UInt64} {β : Type} {o : Access β}
    {k : β → Handler Answer} (ht : x.served.node.threads[i]? = some ⟨m, drawn, .call o k⟩) : i ∉ x.notified := by
  intro hi
  obtain ⟨t, a, ht', ha⟩ := h.done i hi
  rw [ht] at ht'
  cases ht'
  cases ha

omit [AuthCrates] in
/-- Who owes a notification after an access of the handler `i`: the handler, if it has logged something, and the others as
before. -/
theorem Between.access (st : Served (List Record)) (r' : Request (List Record)) {t : Thread} {r : Request (List Record)}
    (ht : st.node.threads = x.served.node.threads.set i t) (hr : st.requests = x.served.requests.set i r')
    (hri : x.served.requests[i]? = some r) (hlt : i < x.served.node.threads.length) (hgrown : r.account ≠ [] → r'.account ≠ [])
    (hannounces : r'.account ≠ [] → ∀ a, t.rest = .ret a → r'.surface.announces a = true ∧ i ∉ x.notified) :
    (r'.account ≠ [] → Between ⟨st, x.notified, x.stream⟩ i) ∧
      ∀ j, x.Between j → Between ⟨st, x.notified, x.stream⟩ j := by
  have hlt' : i < x.served.requests.length := (List.getElem?_eq_some_iff.1 hri).1
  have hself : r'.account ≠ [] → Between ⟨st, x.notified, x.stream⟩ i := fun hne =>
    ⟨t, r', (congrArg (·[i]?) ht).trans (List.getElem?_set_self hlt), (congrArg (·[i]?) hr).trans (List.getElem?_set_self hlt'), hne,
      hannounces hne⟩
  refine ⟨hself, fun j hj => ?_⟩
  by_cases hji : j = i
  · subst hji
    obtain ⟨_, r1, _, hr1, hne, _⟩ := hj
    rw [hri] at hr1
    cases hr1
    exact hself (hgrown hne)
  · obtain ⟨t1, r1, ht1, hr1, hne, hannounces⟩ := hj
    exact ⟨t1, r1, (congrArg (·[j]?) ht).trans ((List.getElem?_set_ne (Ne.symm hji)).trans ht1),
      (congrArg (·[j]?) hr).trans ((List.getElem?_set_ne (Ne.symm hji)).trans hr1), hne, hannounces⟩

theorem Alert.access (h : x.Alert site ns) (hreg : x.served.node.Regular (.access i ms))
    (haudible : x.Audible ns (.node (.access i ms)))
    (hstep : ServedStep site [] (recordsLogged ns) x.served (.access i ms) y) : Alert site ns ⟨y, x.notified, x.stream⟩ := by
  obtain ⟨g, hs⟩ := h.sound
  obtain ⟨hkeeps, hsound⟩ := h.keeps.step hs hreg (fun _ => announced_handler site) h.answers hstep
  obtain ⟨m, drawn, β, o, k, b, n1, g', r, ht, hr, ho, hp, hthreads, _, rfl, _, _⟩ := h.keeps.access hs hreg hstep
  have hnotified : i ∉ x.notified := h.not_mem_notified ht
  have hlt : i < x.served.node.threads.length := (List.getElem?_eq_some_iff.1 ht).1
  have hlt' : i < x.served.requests.length := (List.getElem?_eq_some_iff.1 hr).1
  generalize hacc : recordsLogged ns x.served.node.world n1.world r.account = account at hkeeps hstep ⊢
  have hset : (n1.setThread i ⟨m, o.account b drawn, k b⟩).threads = x.served.node.threads.set i ⟨m, o.account b drawn, k b⟩ := by
    rw [Node.setThread, hthreads]
  have hquiet : r.surface.isQuery = true → account = [] := by
    intro hq
    rw [← hacc, List.eq_nil_iff_forall_not_mem]
    intro rec hrec
    rcases mem_recordsLogged hs ho hp hrec with hrec | hw
    · rw [h.quiet r (List.mem_of_getElem? hr) hq] at hrec
      cases hrec
    · exact haudible r hr hq _ ht _ hw rfl
  have hgrown : r.account ≠ [] → account ≠ [] := by
    intro hne
    rw [← hacc, recordsLogged]
    exact fun he => hne (List.append_eq_nil_iff.1 he).1
  obtain ⟨hself, hbetween⟩ := Between.access ⟨n1.setThread i ⟨m, o.account b drawn, k b⟩, x.served.requests.set i ⟨r.surface, account⟩⟩
    ⟨r.surface, account⟩ hset rfl hr hlt hgrown fun hne a ha => by
      -- a handler that ends with records logged is no query, and its answer is announced
      obtain ⟨r', hr', hannounced⟩ := hkeeps.answer ((congrArg (·[i]?) hset).trans (List.getElem?_set_self hlt)) ha
      rw [List.getElem?_set_self hlt'] at hr'
      cases hr'
      refine ⟨hannounced ?_ hne, hnotified⟩
      by_contra hq
      exact hne (hquiet (by simpa using hq))
  refine ⟨hsound, hkeeps, fun r' hr' hq => ?_, fun j hj => ?_, fun s hstream => ?_⟩
  · rcases List.mem_or_eq_of_mem_set hr' with hr' | rfl
    · exact h.quiet r' hr' hq
    · exact hquiet hq
  · obtain ⟨t, a, ht', ha⟩ := h.done j hj
    have hji : j ≠ i := fun he => hnotified (he ▸ hj)
    exact ⟨t, a, (congrArg (·[j]?) hset).trans ((List.getElem?_set_ne (Ne.symm hji)).trans ht'), ha⟩
  · obtain ⟨hseqs, hcursor, hwoken⟩ := h.woken s hstream
    refine ⟨hseqs, hcursor, fun hphase => ?_⟩
    rcases hwoken hphase with hle | hqueue | hlagged | ⟨j, hj⟩
    · -- the log may have grown, and then the handler owes a notification
      by_cases hnew : account = []
      · left
        have hdrop : (n1.world.records ns).drop (x.world.records ns).length = [] := (List.append_eq_nil_iff.1 (hacc.trans hnew)).2
        exact (List.drop_eq_nil_iff.1 hdrop).trans hle
      · exact .inr (.inr (.inr ⟨i, hself hnew⟩))
    · exact .inr (.inl hqueue)
    · exact .inr (.inr (.inl hlagged))
    · exact .inr (.inr (.inr ⟨j, hbetween j hj⟩))

theorem Alert.start (h : x.Alert site ns) {s : Surface} (hreg : x.served.node.Regular (.start s))
    (hstep : ServedStep site [] (recordsLogged ns) x.served (.start s) y) : Alert site ns ⟨y, x.notified, x.stream⟩ := by
  obtain ⟨g, hs⟩ := h.sound
  obtain ⟨hkeeps, hsound⟩ := h.keeps.step hs hreg (fun _ => announced_handler site) h.answers hstep
  cases hstep
  refine ⟨hsound, hkeeps, fun r hr hq => ?_, fun j hj => ?_, fun s hstream => ?_⟩
  · rcases List.mem_append.1 hr with hr | hr
    · exact h.quiet r hr hq
    · rw [List.mem_singleton.1 hr]
  · obtain ⟨t, a, ht, ha⟩ := h.done j hj
    exact ⟨t, a, (List.getElem?_append_left (List.getElem?_eq_some_iff.1 ht).1).trans ht, ha⟩
  · obtain ⟨hseqs, hcursor, hwoken⟩ := h.woken s hstream
    refine ⟨hseqs, hcursor, fun hphase => (hwoken hphase).imp_right (Or.imp_right (Or.imp_right ?_))⟩
    rintro ⟨j, hj⟩
    obtain ⟨t, r, ht, hr, _⟩ := id hj
    have hlt := (List.getElem?_eq_some_iff.1 ht).1
    have hlt' := (List.getElem?_eq_some_iff.1 hr).1
    exact ⟨j, hj.of_ne (List.getElem?_append_left hlt) (List.getElem?_append_left hlt') rfl⟩

omit [AuthCrates] in
theorem queue_send_ne_nil (s : EventStream) (m : Bytes) : (s.send m).queue ≠ [] := by
  unfold EventStream.send
  split <;> simp

variable {s : EventStream}

omit [AuthCrates] in
theorem Woken.send {y : Watched} (h : x.Woken ns s) (m : Bytes) : y.Woken ns (s.send m) := by
  obtain ⟨hseqs, hcursor, _⟩ := h
  have hsame : (s.send m).delivered = s.delivered ∧ (s.send m).cursor = s.cursor ∧ (s.send m).since = s.since := by
    unfold EventStream.send
    split <;> exact ⟨rfl, rfl, rfl⟩
  obtain ⟨hd, hc, hsince⟩ := hsame
  refine ⟨?_, ?_, fun _ => .inr (.inl (queue_send_ne_nil s m))⟩
  · rw [hd, hsince]
    exact hseqs
  · rw [hd, hc, hsince]
    exact hcursor

theorem Alert.sync (h : x.Alert site ns) {m : Bytes} {records : List Record} (hreg : x.served.node.Regular (.sync m records))
    (hstep : ServedStep site [] (recordsLogged ns) x.served (.sync m records) y) :
    Alert site ns (x.after y (.sync m records)) := by
  obtain ⟨g, hs⟩ := h.sound
  obtain ⟨hkeeps, hsound⟩ := h.keeps.step hs hreg (fun _ => announced_handler site) h.answers hstep
  have hout : Outcome x.world g _ _ (do let _ ← applySyncedBatch m records) :=
    Cmd.outcome (c := .applySyncedBatch m records) hs hreg
  obtain ⟨n', hn, rfl⟩ := Option.map_eq_some_iff.1 hstep
  simp only [Node.step] at hn
  split at hn
  case isFalse => cases hn
  case isTrue =>
    cases hn
    rcases hout.result with ⟨e, herr⟩ | ⟨a, w', g', hok, _⟩
    · -- a refused batch adds nothing and is not announced
      rw [Watched.after, if_neg (by rw [herr]; exact Bool.false_ne_true)]
      refine ⟨hsound, hkeeps, h.quiet, h.done, fun s hstream => ?_⟩
      obtain ⟨hseqs, hcursor, hwoken⟩ := h.woken s hstream
      refine ⟨hseqs, hcursor, fun hphase => ?_⟩
      have hworld : Exec.finalState (applySyncedBatch m records x.served.node.world) = x.world := by
        rw [show applySyncedBatch m records x.served.node.world = _ from herr]
        rfl
      rcases hwoken hphase with hle | hqueue | hlagged | ⟨j, hj⟩
      · exact .inl (le_of_eq_of_le (congrArg (fun w : World => (w.records ns).length) hworld) hle)
      · exact .inr (.inl hqueue)
      · exact .inr (.inr (.inl hlagged))
      · exact .inr (.inr (.inr ⟨j, hj.of_ne rfl rfl rfl⟩))
    · rw [Watched.after, if_pos (by rw [hok]; rfl)]
      refine ⟨hsound, hkeeps, h.quiet, h.done, fun s hstream => ?_⟩
      obtain ⟨s0, hs0, rfl⟩ := Option.map_eq_some_iff.1 hstream
      exact (h.woken s0 hs0).send m

theorem Alert.restart (h : x.Alert site ns) {durable : Bool} {now : UInt64}
    (hstep : ServedStep site [] (recordsLogged ns) x.served (.restart durable now) y) :
    Alert site ns (x.after y (.restart durable now)) := by
  obtain ⟨g, hs⟩ := h.sound
  have hreg : x.served.node.Regular (.restart durable now) := trivial
  obtain ⟨hkeeps, hsound⟩ := h.keeps.step hs hreg (fun _ => announced_handler site) h.answers hstep
  obtain ⟨n', _, rfl⟩ := Option.map_eq_some_iff.1 hstep
  refine ⟨hsound, hkeeps, nofun, nofun, fun s hstream => ?_⟩
  obtain ⟨s0, hs0, rfl⟩ := Option.map_eq_some_iff.1 hstream
  obtain ⟨hseqs, hcursor, _⟩ := h.woken s0 hs0
  exact ⟨hseqs, hcursor, nofun⟩

theorem Alert.setStream (h : x.Alert site ns) (hs : x.Woken ns s) : Alert site ns { x with stream := some s } := by
  refine ⟨h.sound, h.keeps, h.quiet, h.done, fun s' hstream => ?_⟩
  cases hstream
  exact hs

theorem Woken.drain {g : History} (h : x.Woken ns s) (hs : Sound (x.world, g)) (hphase : s.phase = .draining)
    (hnext : s.cursor.toNat + 1 < 2 ^ 64) : x.Woken ns (s.drain ns x.world) := by
  obtain ⟨hseqs, hcursor, _⟩ := h
  rcases EventStream.drain_spec ns hs.running.toAttached hnext with ⟨hle, heq⟩ | ⟨hash, _, heq⟩
  · rw [heq]
    exact ⟨hseqs, hcursor, fun _ => .inl hle⟩
  · rw [heq]
    refine ⟨?_, ?_, fun hwaiting => ?_⟩
    · simp only [EventStream.deliver, List.map_append, hseqs, List.map_cons, List.map_nil, List.length_append,
        List.length_singleton, List.range'_concat, hcursor]
      congr 2
      omega
    · simp only [EventStream.deliver, List.length_append, List.length_singleton, UInt64.toNat_ofNat']
      omega
    · have hdraining : (s.deliver (s.cursor.toNat + 1) hash).phase = .draining := hphase
      rw [hdraining] at hwaiting
      cases hwaiting

omit [AuthCrates] in
theorem Woken.recv {s' : EventStream} (h : x.Woken ns s) (hrecv : s.recv = some s') : x.Woken ns s' := by
  obtain ⟨hseqs, hcursor, _⟩ := h
  unfold EventStream.recv at hrecv
  split at hrecv
  · cases hrecv
    exact ⟨hseqs, hcursor, nofun⟩
  · split at hrecv
    · cases hrecv
    · cases hrecv
      exact ⟨hseqs, hcursor, nofun⟩

theorem Alert.step {e : WatchedEvent} (h : x.Alert site ns)
    (hstep : guarded (fun x e => x.Regular e ∧ x.Audible ns e) (WatchedStep site ns) x e x') : x'.Alert site ns := by
  obtain ⟨⟨hreg, haudible⟩, hstep⟩ := hstep
  cases e with
  | node e =>
    obtain ⟨y, hy, rfl⟩ := Option.map_eq_some_iff.1 hstep
    cases e with
    | start s => exact h.start hreg hy
    | access i ms => exact h.access hreg haudible hy
    | sync m records => exact h.sync hreg hy
    | restart durable now => exact h.restart hy
  | notify i =>
    simp only [WatchedStep, Watched.step] at hstep
    split at hstep
    case h_1 m drawn a r ht hr =>
      split at hstep
      case isTrue hannounces =>
        cases hstep
        refine ⟨h.sound, h.keeps, h.quiet, fun j hj => ?_, fun s hstream => ?_⟩
        · rcases List.mem_cons.1 hj with rfl | hj
          · exact ⟨_, a, ht, rfl⟩
          · exact h.done j hj
        · obtain ⟨s0, hs0, rfl⟩ := Option.map_eq_some_iff.1 hstream
          exact (h.woken s0 hs0).send _
      case isFalse => cases hstep
    case h_2 => cases hstep
  | subscribe since =>
    simp only [WatchedStep, Watched.step] at hstep
    split at hstep
    · cases hstep
      exact h.setStream ⟨rfl, rfl, nofun⟩
    · cases hstep
  | drain =>
    obtain ⟨g, hs⟩ := h.sound
    simp only [WatchedStep, Watched.step] at hstep
    split at hstep
    case h_1 s hstream =>
      split at hstep
      case isTrue hphase =>
        cases hstep
        exact h.setStream ((h.woken s hstream).drain hs hphase.1 (haudible s hstream))
      case isFalse => cases hstep
    case h_2 => cases hstep
  | recv =>
    simp only [WatchedStep, Watched.step] at hstep
    split at hstep
    case h_1 s hstream =>
      split at hstep
      case isTrue =>
        obtain ⟨s', hrecv, rfl⟩ := Option.map_eq_some_iff.1 hstep
        exact h.setStream ((h.woken s hstream).recv hrecv)
      case isFalse => cases hstep
    case h_2 => cases hstep

end

end Watched

/-- In a run in which no query logs a record in the namespace, a stream delivers the numbers behind its `since` one by one,
and it never waits for good with a record still to come. -/
theorem stream_misses_nothing [AuthCrates] (site : Site) {ns : Bytes} {w₀ : World} {g₀ : History} {es : List WatchedEvent}
    {x : Watched} (hs : Sound (w₀, g₀))
    (hrun : Run (guarded (fun x e => x.Regular e ∧ x.Audible ns e) (WatchedStep site ns)) ⟨⟨.boot w₀, []⟩, [], none⟩ es x) :
    x.MissesNothing ns := by
  have hstart : Watched.Alert site ns ⟨⟨.boot w₀, []⟩, [], none⟩ := ⟨⟨g₀, hs⟩, .nil, nofun, nofun, nofun⟩
  have h : x.Alert site ns := hrun.invariant (fun _ _ _ h hstep => h.step hstep) hstart
  exact h.missesNothing

/-! ### Examples -/

section
variable [AuthCrates] {site : Site} {ns : Bytes}

instance Watched.decidableRegular (x : Watched) (e : WatchedEvent) : Decidable (x.Regular e) := by
  cases e <;> delta Watched.Regular <;> infer_instance

instance Watched.decidableAudible (ns : Bytes) (x : Watched) (e : WatchedEvent) : Decidable (x.Audible ns e) := by
  delta Watched.Audible
  split <;> infer_instance

/-- Run a process on an empty directory, as long as each event is allowed, and look at the end. -/
def Watched.runFresh {α : Type} (ok : Watched → WatchedEvent → Prop) [∀ x e, Decidable (ok x e)] (site : Site) (ns : Bytes)
    (es : List WatchedEvent) (look : Watched → α) : Option α :=
  Node.fresh.bind fun n₀ => (exec ok (Watched.step site ns) ⟨⟨n₀, []⟩, [], none⟩ es).map look

theorem Watched.runFresh_sound {α : Type} {ok : Watched → WatchedEvent → Prop} [∀ x e, Decidable (ok x e)]
    {es : List WatchedEvent} {look : Watched → α} {a : α} (h : Watched.runFresh ok site ns es look = some a) :
    ∃ w0 x, Opened w0 ∧ Run (guarded ok (WatchedStep site ns)) ⟨⟨.boot w0, []⟩, [], none⟩ es x ∧ look x = a := by
  obtain ⟨n0, hfresh, h⟩ := Option.bind_eq_some_iff.1 h
  obtain ⟨w0, hopen, rfl⟩ := Option.map_eq_some_iff.1 hfresh
  obtain ⟨x, hexec, hx⟩ := Option.map_eq_some_iff.1 h
  exact ⟨w0, x, ⟨_, _, _, _, Exec.okState_eq_some.1 hopen⟩, run_of_exec (fun _ _ _ => id) hexec, hx⟩

end

/-- A stream that is caught up, a put, its notification, and the stream up to the next wait. -/
def watchedPut : List WatchedEvent :=
  makeSpace.map .node ++ [.subscribe 0, .drain] ++ (serving putKey 1 5 9).map .node ++ [.notify 1, .recv, .drain, .drain]

def unheardQuery : List WatchedEvent :=
  makeSpace.map .node ++ [.subscribe 0, .drain] ++
    (serving (.query (str "n") (.mk (str "put") [.str (str "k"), .str (str "x")])) 1 5 4).map .node

def Watched.owes (x : Watched) (i : Nat) : Bool :=
  match x.served.node.threads[i]?, x.served.requests[i]? with
  | some ⟨_, _, .ret a⟩, some r => !r.account.isEmpty && r.surface.announces a && !x.notified.contains i
  | some ⟨_, _, .call _ _⟩, some r => !r.account.isEmpty
  | _, _ => false

theorem Watched.Between.owes {x : Watched} (h : x.Between i) : i < x.served.node.threads.length ∧ x.owes i = true := by
  obtain ⟨⟨m, drawn, rest⟩, r, ht, hr, hne, hannounces⟩ := h
  refine ⟨(List.getElem?_eq_some_iff.1 ht).1, ?_⟩
  unfold Watched.owes
  rw [ht, hr]
  cases rest with
  | ret a =>
    obtain ⟨hann, hnot⟩ := hannounces a rfl
    simp [hne, hann, hnot]
  | call o k => simp [hne]

/-- Where a stream stands: the numbers it has delivered, whether it waits in vain, with nothing queued and nothing owed, and
the length of the log. -/
def Watched.standing (ns : Bytes) (x : Watched) : List Nat × Bool × Nat :=
  ((x.stream.map fun s => s.delivered.map (·.seq)).getD [],
    x.stream.any (fun s => s.phase = .waiting ∧ s.queue = [] ∧ s.lagged = false ∧ s.since = 0) &&
      (List.range x.served.node.threads.length).all fun i => !x.owes i, (x.world.records ns).length)

theorem Watched.MissesNothing.standing {ns : Bytes} {x : Watched} (h : x.MissesNothing ns) {seqs : List Nat} {len : Nat}
    (hx : x.standing ns = (seqs, true, len)) : len ≤ seqs.length := by
  obtain ⟨hseqs, hx⟩ := Prod.mk.inj hx
  obtain ⟨hwaits, hlen⟩ := Prod.mk.inj hx
  rw [Bool.and_eq_true] at hwaits
  obtain ⟨hstream, howes⟩ := hwaits
  cases hs : x.stream with
  | none =>
    rw [hs] at hstream
    cases hstream
  | some s =>
    rw [hs] at hstream hseqs
    obtain ⟨hphase, hqueue, hlagged, hsince⟩ := of_decide_eq_true hstream
    have hbetween : ∀ i, ¬ x.Between i := by
      intro i hi
      obtain ⟨hlt, howe⟩ := hi.owes
      have hnot := List.all_eq_true.1 howes i (List.mem_range.2 hlt)
      rw [howe] at hnot
      cases hnot
    have hle := (h s hs).2 hphase hqueue hlagged hbetween
    rw [hlen, hsince] at hle
    rw [← hseqs]
    simpa using hle

set_option maxRecDepth 100000 in
theorem stream_misses_nothing_put : letI := AuthCrates.trivial
    ∃ w₀ g₀ x, Sound (w₀, g₀) ∧ Run (guarded (fun x e => x.Regular e ∧ x.Audible (str "n") e) (WatchedStep plainSite (str "n")))
      ⟨⟨.boot w₀, []⟩, [], none⟩ watchedPut x ∧ x.standing (str "n") = ([1], true, 1) ∧ x.MissesNothing (str "n") := by
  have h : letI := AuthCrates.trivial
      Watched.runFresh (fun x e => x.Regular e ∧ x.Audible (str "n") e) plainSite (str "n") watchedPut (Watched.standing (str "n")) =
        some ([1], true, 1) := by
    decide +kernel
  let _ := AuthCrates.trivial
  obtain ⟨w₀, x, hw₀, hrun, hx⟩ := Watched.runFresh_sound h
  exact ⟨w₀, .empty, x, hw₀.sound.1, hrun, hx, stream_misses_nothing plainSite hw₀.sound.1 hrun⟩

set_option maxRecDepth 100000 in
/-- After the `put` of a query a stream waits, with nothing queued and nothing owed, and a record has not been delivered. -/
theorem stream_misses_query : letI := AuthCrates.trivial
    ∃ w₀ x, Opened w₀ ∧ Run (guarded Watched.Regular (WatchedStep plainSite (str "n"))) ⟨⟨.boot w₀, []⟩, [], none⟩ unheardQuery x ∧
      x.standing (str "n") = ([], true, 1) ∧ ¬ x.MissesNothing (str "n") := by
  have h : letI := AuthCrates.trivial
      Watched.runFresh Watched.Regular plainSite (str "n") unheardQuery (Watched.standing (str "n")) = some ([], true, 1) := by
    decide +kernel
  let _ := AuthCrates.trivial
  obtain ⟨w₀, x, hw₀, hrun, hx⟩ := Watched.runFresh_sound h
  exact ⟨w₀, x, hw₀, hrun, hx, fun hmisses => absurd (hmisses.standing hx) (by decide)⟩

end BunnyMesh
