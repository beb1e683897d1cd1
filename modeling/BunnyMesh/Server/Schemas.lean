import BunnyMesh.Server.Served

/-!
# Schemas of namespaces

A put and the puts of a batch are checked against the schema of their namespace before they are logged; the `put` of a
query is not (`exec` in `query/mod.rs` has no schema at hand).  While the schema stays as it is, the values that requests
log are accepted as long as no query logs one that is not.
-/

namespace BunnyMesh

open Std Store
open Interface (Prog Discipline)
open Runs (Run guarded exec run_of_exec)

/-! ### What is asked of records -/

section
variable {V : Bytes → Prop}

def Record.Puts (V : Bytes → Prop) (r : Record) : Prop := ∀ op ∈ r.dataOps, isPutTag op.tag → V op.value

theorem puts_delRecord (key : Bytes) (hlc : UInt64) (replica author : Bytes32) : (delRecord key hlc replica author).Puts V := by
  intro op hop ht
  have htag : isOpTag (delRecord key hlc replica author).tag := rfl
  rw [Record.dataOps, if_pos htag, List.mem_singleton] at hop
  subst hop
  exact absurd ht (show ¬ isPutTag tagDel by decide)

theorem puts_metaRecord {tag : UInt8} (hop : isOpTag tag = false) (hbatch : tag ≠ tagBatch) (value : Option Bytes) (hlc : UInt64)
    (replica author : Bytes32) : (metaRecord tag value hlc replica author).Puts V := by
  intro op hmem
  have htag : (metaRecord tag value hlc replica author).tag = tag := rfl
  rw [Record.dataOps, htag, if_neg (by simp [hop]), if_neg hbatch] at hmem
  cases hmem

theorem puts_putRecord {value : Bytes} (h : V value) (key : Bytes) (hlc : UInt64) (replica author : Bytes32)
    (expiresAt : UInt64) : (putRecord key value hlc replica author expiresAt).Puts V := by
  intro op hop _
  have htag : isOpTag (putRecord key value hlc replica author expiresAt).tag := by
    rcases putRecord_tag key value hlc replica author expiresAt with ⟨ht, _⟩ | ⟨ht, _⟩ <;> rw [ht] <;> decide
  rw [Record.dataOps, if_pos htag, List.mem_singleton] at hop
  subst hop
  exact h

theorem puts_batchRecord {ops : List Op} (h : ∀ op ∈ ops, isPutTag op.tag → V op.value) : (batchRecord ops).Puts V := by
  intro op hop
  rw [Record.dataOps, batchRecord_tag, if_neg (by decide), if_pos rfl, batchRecord_ops] at hop
  exact h op hop

end

/-! ### Handlers that check -/

def Reply.isError : Reply → Bool
  | .error _ _ | .aborted => true
  | _ => false

def Answer.isError : Answer → Bool
  | .reply r => r.isError
  | _ => false

section
variable [AuthCrates] {validate : JValue → JValue → Except Bytes Unit} {ns m : Bytes} {V : Bytes → Prop} {α : Type}
  {g : List Record}

/-- Whatever passes the check of the schema in `ns` has `V`, and so must the values that are put there. -/
def enforcing (validate : JValue → JValue → Except Bytes Unit) (ns : Bytes) (V : Bytes → Prop) : Discipline Access (List Record) :=
  logging ns (fun s => ∀ body, checkSchema validate s ns body = none → V body) (Record.Puts V)

theorem silent_read (f : Store → α) : (Prog.op (.read f)).Silent (enforcing validate ns V) := fun _ _ _ => rfl

theorem silent_store {o : StoreOp α} (ho : o.written = none) : (Handler.store o).Silent (enforcing validate ns V) := by
  intro g
  refine ⟨fun r hr => ?_, fun e => rfl, fun a => ?_⟩
  · rw [ho] at hr
    cases hr
  · rw [ho]
    exact List.append_nil g

theorem enforcing_look (f : Store → α) (g : List Record) : (Handler.look f).Keeps (enforcing validate ns V)
    (fun a g' => g' = g ∧ ∃ s, (∀ body, checkSchema validate s ns body = none → V body) ∧ a = f s) g :=
  fun _ s hs _ => ⟨rfl, s, hs, rfl⟩

theorem enforcing_writing {p : Handler α} {Q : α → List Record → Prop} (h : p.Keeps (enforcing validate ns V) Q g) :
    (Handler.writing p).Keeps (enforcing validate ns V) Q g :=
  fun _ => h.bind fun _ _ hQ _ => hQ

theorem enforcing_replyTo {o : StoreOp α} {reply : α → Reply} (hreply : ∀ a, (reply a).isError = false)
    (ho : ∀ r, o.written = some (ns, r) → r.Puts V) : Prog.Keeps (enforcing validate ns V) (fun r g => r.isError → g = [])
      (do pure (Handler.replyTo reply (← Handler.store o)) : Handler Reply) [] := by
  refine ⟨ho, fun e _ => rfl, fun a herr => ?_⟩
  rw [Handler.replyTo, hreply] at herr
  cases herr

variable (cfg : NodeConfig)

theorem enforcing_handlePut (key body : Bytes) (ttl : Option Bytes) (principal : PublicKey) :
    (Handler.handlePut validate cfg m key body ttl principal).Keeps (enforcing validate ns V) (fun r g => r.isError → g = [])
      [] := by
  refine enforcing_writing ((silent_provide silent_read (fun _ _ => silent_store rfl) principal []).bind fun refusal g hg => ?_)
  subst hg
  cases refusal with
  | some r => exact fun _ => rfl
  | none =>
    intro s hs
    dsimp only
    cases hcheck : checkSchema validate s m body with
    | some r => exact fun _ => rfl
    | none =>
      refine (silent_accountWrite silent_read (fun _ => silent_store rfl) _ _ []).bind fun charged g hg => ?_
      subst hg
      cases charged with
      | error e => exact fun _ => rfl
      | ok u =>
        intro hlc now
        refine enforcing_replyTo (fun _ => rfl) fun r hr => ?_
        cases hr
        exact puts_putRecord (hs body hcheck) _ _ _ _ _

theorem enforcing_handleDelete (key : Bytes) (principal : PublicKey) :
    (Handler.handleDelete cfg m key principal).Keeps (enforcing validate ns V) (fun r g => r.isError → g = []) [] := by
  refine enforcing_writing (Prog.Keeps.op_bind fun s _ => ?_)
  dsimp only
  split
  · exact fun _ => rfl
  · intro hlc
    refine enforcing_replyTo (fun _ => rfl) fun r hr => ?_
    cases hr
    exact puts_delRecord key hlc _ _

theorem enforcing_define {change : UInt64 → StoreOp Nat} (hchange : ∀ hlc r, (change hlc).written = some (ns, r) → r.Puts V) :
    (Handler.define m change).Keeps (enforcing validate ns V) (fun r g => r.isError → g = []) [] := by
  refine enforcing_writing (Prog.Keeps.op_bind fun s _ => ?_)
  dsimp only
  split
  · exact fun _ => rfl
  · exact fun hlc => enforcing_replyTo (fun _ => rfl) (hchange hlc)

theorem enforcing_l1CreateNamespace (name policy : Bytes) :
    (Handler.l1CreateNamespace name policy).Keeps (enforcing validate ns V) (fun _ g => g = []) [] := by
  unfold Handler.l1CreateNamespace
  split
  · rfl
  · split
    · rfl
    · refine enforcing_writing ((silent_store rfl []).bind fun r g hg => ?_)
      subst hg
      split <;> rfl

theorem enforcing_setSchema (value : Option Bytes) : (Handler.define m fun hlc => .setSchema m value hlc cfg.root cfg.root).Keeps
    (enforcing validate ns V) (fun r g => r.isError → g = []) [] := by
  refine enforcing_define fun hlc r hr => ?_
  cases hr
  exact @puts_metaRecord V tagSchema rfl (by decide) value hlc _ _

theorem enforcing_setIndex (value : Option Bytes) : (Handler.define m fun hlc => .setIndex m value hlc cfg.root cfg.root).Keeps
    (enforcing validate ns V) (fun r g => r.isError → g = []) [] := by
  refine enforcing_define fun hlc r hr => ?_
  cases hr
  exact @puts_metaRecord V tagIndex rfl (by decide) value hlc _ _

theorem enforcing_l1SchemaSet (supported : JValue → Except Bytes Unit) (body : Bytes) :
    (Handler.l1SchemaSet cfg supported m body).Keeps (enforcing validate ns V) (fun r g => r.isError → g = []) [] := by
  unfold Handler.l1SchemaSet
  split
  · exact fun _ => rfl
  · split
    · exact fun _ => rfl
    · exact enforcing_setSchema cfg (some body)

theorem enforcing_l1IndexSet (encode : List Bytes → Bytes) (body : Bytes) :
    (Handler.l1IndexSet cfg encode m body).Keeps (enforcing validate ns V) (fun r g => r.isError → g = []) [] := by
  unfold Handler.l1IndexSet
  split
  · exact fun _ => rfl
  · exact enforcing_setIndex cfg _

/-! ### Batches -/

/-- The values that the batch is going to put in `ns` have `V`. -/
def BatchPlan.Puts (V : Bytes → Prop) (plan : BatchPlan) : Prop := ∀ op ∈ plan.accepted, isPutTag op.tag → V op.value

variable {plan : BatchPlan} {s : Surface}

omit [AuthCrates] in
theorem BatchPlan.Puts.accept (h : plan.Puts V) {op : Op} (hop : isPutTag op.tag → V op.value) :
    (plan.accept op).Puts V := by
  intro op' hop'
  rcases List.mem_append.1 hop' with hop' | hop'
  · exact h op' hop'
  · rw [List.mem_singleton.1 hop']
    exact hop

theorem enforced_of_check {s : Store} (h : ∀ body, checkSchema validate s ns body = none → V body) :
    Enforced validate V ((s.schema ns).map fun bytes => (Crates.fromStrValue (ByteCodec.fromUtf8Lossy bytes)).getD .null) := by
  intro value hvalue
  apply h
  unfold checkSchema
  cases hschema : s.schema ns with
  | none => rfl
  | some bytes =>
    rw [hschema, Option.map_some, Option.bind_some] at hvalue
    cases hparse : Crates.fromStrValue (ByteCodec.fromUtf8Lossy value) with
    | none =>
      rw [hparse] at hvalue
      cases hvalue
    | some v =>
      rw [hparse] at hvalue
      dsimp only at hvalue ⊢
      cases hvalid : validate ((Crates.fromStrValue (ByteCodec.fromUtf8Lossy bytes)).getD .null) v with
      | ok _ => rfl
      | error msg =>
        rw [hvalid] at hvalue
        cases hvalue

theorem enforcing_planOp {schema : Option JValue} {P : Prop} (hschema : P → Enforced validate V schema) (principal : PublicKey)
    (h : P → plan.Puts V) (op : BatchOp) :
    (Handler.planOp validate cfg schema principal plan op).Keeps (enforcing validate ns V)
      (fun plan g => (P → plan.Puts V) ∧ g = []) [] := by
  refine keeps_planOp (G := (· = [])) rfl (fun _ _ => ⟨h, rfl⟩) (fun _ _ => ⟨h, rfl⟩) (fun _ => rfl) fun o ho g hg hlc => ?_
  obtain ⟨_, _, hvalue⟩ := ho hlc
  exact ⟨fun hP => (h hP).accept (hvalue V (hschema hP)), hg⟩

theorem enforcing_plan {schema : Option JValue} {P : Prop} (hschema : P → Enforced validate V schema) (principal : PublicKey)
    (ops : List BatchOp) : (ops.foldlM (Handler.planOp validate cfg schema principal) BatchPlan.empty).Keeps
      (enforcing validate ns V) (fun plan g => (P → plan.Puts V) ∧ g = []) [] := by
  refine Prog.Keeps.foldlM ⟨fun _ => nofun, rfl⟩ fun plan g op _ hplan => ?_
  obtain ⟨hplan, rfl⟩ := hplan
  exact enforcing_planOp cfg hschema principal hplan op

theorem enforcing_applyPlan (principal : PublicKey) (h : m = ns → plan.Puts V) :
    (Handler.applyPlan cfg m principal plan).Keeps (enforcing validate ns V) (fun r g => ∀ e, r = .error e → g = []) [] := by
  refine enforcing_writing ((silent_provide silent_read (fun _ _ => silent_store rfl) principal []).bind fun refusal g hg => ?_)
  subst hg
  cases refusal with
  | some r => exact fun _ _ => rfl
  | none =>
    refine (silent_chargeAll (silent_accountWrite silent_read (fun _ => silent_store rfl) · _) _ _ []).bind fun r g hr => ?_
    obtain ⟨rfl, hleft⟩ := hr
    dsimp only
    split
    · exact fun _ _ => rfl
    · refine ⟨fun r hr => ?_, fun e _ _ => rfl, fun a => nofun⟩
      cases hr
      refine puts_batchRecord fun op hop => ?_
      obtain ⟨x, hx, rfl⟩ := hleft op hop
      exact h rfl x.1 (List.of_mem_zip hx).1

theorem enforcing_handleBatch (principal : PublicKey) (ops : List BatchOp) :
    (Handler.handleBatch validate cfg m principal ops).Keeps (enforcing validate ns V) (fun r g => ∀ e, r = .error e → g = [])
      [] := by
  unfold Handler.handleBatch
  split
  · exact fun _ _ => rfl
  · split
    · exact fun _ _ => rfl
    · split
      · exact fun _ _ => rfl
      · refine (enforcing_look _ []).bind fun schema g hg => ?_
        obtain ⟨rfl, s, hs, rfl⟩ := hg
        have hschema : m = ns → Enforced validate V ((s.schema m).map fun bytes =>
            (Crates.fromStrValue (ByteCodec.fromUtf8Lossy bytes)).getD .null) := by
          rintro rfl
          exact enforced_of_check hs
        refine (enforcing_plan cfg hschema principal ops).bind fun plan g hplan => ?_
        obtain ⟨hplan, rfl⟩ := hplan
        refine (enforcing_applyPlan cfg principal hplan).bind fun outcome g hg => ?_
        cases outcome with
        | error r => exact fun _ _ => hg r rfl
        | ok x =>
          intro now
          exact (enforcing_look _ g).bind fun _ _ _ => nofun

/-! ### Requests -/

def Surface.isQuery : Surface → Bool
  | query .. => true
  | _ => false

/-- A request other than a query logs what passes the schema of its namespace; one that fails logs nothing. -/
theorem enforcing_handler (site : Site) (hhttp : s.isHttp = true) (hquery : s.isQuery = false) :
    (s.handler site).Keeps (enforcing site.validate ns V) (fun a g => a.isError → g = []) [] := by
  cases s with
  | put m key body ttl principal => exact (enforcing_handlePut site.cfg key body ttl principal).bind fun _ _ h => h
  | delete m key principal => exact (enforcing_handleDelete site.cfg key principal).bind fun _ _ h => h
  | batch m principal ops =>
    refine (enforcing_handleBatch site.cfg principal ops).bind fun r g h => ?_
    cases r with
    | ok rs => exact nofun
    | error e => exact fun _ => h e rfl
  | query => cases hquery
  | createNamespace name policy => exact (enforcing_l1CreateNamespace name policy).bind fun _ _ h _ => h
  | schemaSet m body => exact (enforcing_l1SchemaSet site.cfg site.supported body).bind fun _ _ h => h
  | schemaClear m => exact (enforcing_setSchema site.cfg none).bind fun _ _ h => h
  | indexSet m body => exact (enforcing_l1IndexSet site.cfg site.encode body).bind fun _ _ h => h
  | indexClear m => exact (enforcing_setIndex site.cfg none).bind fun _ _ h => h
  | create | flush | mkdir | unlink | rmdir | rename | truncate => cases hhttp

omit [AuthCrates] in
theorem keeps_logging (p : Handler α) (g : List Record) :
    p.Keeps (logging ns (fun _ => True) fun _ => True) (fun _ _ => True) g := by
  induction p generalizing g with
  | ret a => trivial
  | call o k ih =>
    cases o with
    | read f => exact fun s _ => ih _ g
    | store o => exact ⟨fun _ _ => trivial, fun e => ih _ g, fun a => ih _ _⟩
    | readLock | writeLock | unlock | scanKeys | draw | clock => exact fun b => ih b g

/-! ### Runs under a schema -/

def Accepted (validate : JValue → JValue → Except Bytes Unit) (schemaBytes value : Bytes) : Prop :=
  ∃ v, Crates.fromStrValue (ByteCodec.fromUtf8Lossy value) = some v ∧
    validate ((Crates.fromStrValue (ByteCodec.fromUtf8Lossy schemaBytes)).getD .null) v = .ok ()

theorem accepted_of_check {s : Store} {schemaBytes : Bytes} (hs : s.schema ns = some schemaBytes) (body : Bytes)
    (h : checkSchema validate s ns body = none) : Accepted validate schemaBytes body := by
  unfold checkSchema at h
  rw [hs] at h
  cases hparse : Crates.fromStrValue (ByteCodec.fromUtf8Lossy body) with
  | none =>
    rw [hparse] at h
    cases h
  | some v =>
    rw [hparse] at h
    dsimp only at h
    split at h
    case h_1 hvalid => exact ⟨v, hparse, hvalid⟩
    case h_2 => cases h

/-- The record of the access, if it is one in `ns`, puts values with `V` only. -/
def Access.Puts (ns : Bytes) (V : Bytes → Prop) : {β : Type} → Access β → Prop
  | _, .store o => ∀ x ∈ o.written, x.1 = ns → x.2.Puts V
  | _, _ => True

/-- The event is not the access of a query that logs a value without `V` in `ns`. -/
def Served.QueriesPut {γ : Type} (ns : Bytes) (V : Bytes → Prop) (x : Served γ) : NodeEvent → Prop
  | .access i _ => ∀ r ∈ x.requests[i]?, r.surface.isQuery = true → ∀ t ∈ x.node.threads[i]?, t.rest.Next (Access.Puts ns V)
  | _ => True

def Served.UnderSchema {γ : Type} (ns schemaBytes : Bytes) (x : Served γ) (e : NodeEvent) : Prop :=
  x.node.world.store.schema ns = some schemaBytes ∧ x.node.Regular e

def schemaDiscipline (validate : JValue → JValue → Except Bytes Unit) (ns : Bytes) (V : Bytes → Prop) (s : Surface) :
    Discipline Access (List Record) :=
  if s.isQuery then logging ns (fun _ => True) fun _ => True else enforcing validate ns V

/-- A request that is not a query and fails has logged nothing. -/
def LogsUnlessFailed (s : Surface) (a : Answer) (g : List Record) : Prop := s.isQuery = false → a.isError → g = []

theorem schemaDiscipline_handler (site : Site) (hhttp : s.isHttp = true) :
    (s.handler site).Keeps (schemaDiscipline site.validate ns V s) (LogsUnlessFailed s) [] := by
  unfold schemaDiscipline
  cases hquery : s.isQuery with
  | true =>
    refine (keeps_logging (s.handler site) []).mono fun a g _ hfalse => ?_
    rw [hquery] at hfalse
    cases hfalse
  | false => exact (enforcing_handler site hhttp hquery).mono fun a g h _ => h

variable {site : Site} {schemaBytes : Bytes} {x x' : Served (List Record)} {e : NodeEvent} {g₀ : History}

theorem schemaDiscipline_answers (hs : Sound (x.node.world, g₀)) (hschema : x.node.world.store.schema ns = some schemaBytes) :
    x.Answers (schemaDiscipline site.validate ns (Accepted site.validate schemaBytes)) (recordsLogged ns) := by
  intro β o i ms b n r P _ ho hp hwp
  unfold schemaDiscipline at hwp
  split at hwp
  · exact logging_answers hs trivial ho hp hwp
  · exact logging_answers hs (accepted_of_check hschema) ho hp hwp

/-- What the requests have logged is accepted, and the handlers go on checking. -/
structure Served.Checked (site : Site) (ns schemaBytes : Bytes) (x : Served (List Record)) : Prop where
  sound : ∃ g, Sound (x.node.world, g)
  keeps : x.Keeps (schemaDiscipline site.validate ns (Accepted site.validate schemaBytes)) LogsUnlessFailed
  accepted : ∀ r ∈ x.requests, ∀ rec ∈ r.account, rec.Puts (Accepted site.validate schemaBytes)

theorem Access.writes_puts {β : Type} {o : Access β} {a : List Record} {P : β → List Record → Prop} {r : Record}
    (hw : o.writes = some (ns, r)) (hquery : s.isQuery = true → o.Puts ns V)
    (hwp : (schemaDiscipline validate ns V s).wp o a P) : r.Puts V := by
  cases o with
  | store o =>
    unfold schemaDiscipline at hwp
    split at hwp
    case isTrue h => exact hquery h _ hw rfl
    case isFalse => exact hwp.1 r hw
  | readLock | writeLock | unlock | read | scanKeys | draw | clock => cases hw

theorem Served.Checked.step (h : x.Checked site ns schemaBytes) (hstep : guarded
      (fun x e => x.UnderSchema ns schemaBytes e ∧ x.QueriesPut ns (Accepted site.validate schemaBytes) e)
      (ServedStep site [] (recordsLogged ns)) x e x') : x'.Checked site ns schemaBytes := by
  obtain ⟨⟨⟨hschema, hreg⟩, hquery⟩, hstep⟩ := hstep
  obtain ⟨g, hs⟩ := h.sound
  obtain ⟨hkeeps, hsound⟩ := h.keeps.step hs hreg (fun _ => schemaDiscipline_handler site) (schemaDiscipline_answers hs hschema) hstep
  refine ⟨hsound, hkeeps, ?_⟩
  cases e with
  | start s =>
    cases hstep
    intro r hr rec hrec
    rcases List.mem_append.1 hr with hr | hr
    · exact h.accepted r hr rec hrec
    · rw [List.mem_singleton.1 hr] at hrec
      cases hrec
  | access i ms =>
    obtain ⟨m, drawn, β, o, k, b, n1, g', r, ht, hr, hproper, hp, _, _, rfl, _, hwp⟩ := h.keeps.access hs hreg hstep
    intro r' hr' rec hrec
    rcases List.mem_or_eq_of_mem_set hr' with hr' | rfl
    · exact h.accepted r' hr' rec hrec
    · rcases mem_recordsLogged hs hproper hp hrec with hrec | hw
      · exact h.accepted r (List.mem_of_getElem? hr) rec hrec
      · exact Access.writes_puts hw (fun hq => hquery r hr hq _ ht) hwp
  | sync m records =>
    obtain ⟨n', _, rfl⟩ := Option.map_eq_some_iff.1 hstep
    exact h.accepted
  | restart durable now =>
    obtain ⟨n', _, rfl⟩ := Option.map_eq_some_iff.1 hstep
    exact nofun

end

/-! ### Examples -/

instance {V : Bytes → Prop} [DecidablePred V] (r : Record) : Decidable (r.Puts V) :=
  inferInstanceAs (Decidable (∀ op ∈ r.dataOps, isPutTag op.tag → V op.value))

instance {V : Bytes → Prop} [DecidablePred V] (ns : Bytes) (β : Type) (o : Access β) : Decidable (o.Puts ns V) := by
  induction o using Access.casesOn <;> dsimp only [Access.Puts] <;> infer_instance

instance {γ : Type} {V : Bytes → Prop} [DecidablePred V] (ns : Bytes) (x : Served γ) (e : NodeEvent) :
    Decidable (x.QueriesPut ns V e) := by
  induction e using NodeEvent.casesOn <;> dsimp only [Served.QueriesPut] <;> infer_instance

instance {γ : Type} (ns schemaBytes : Bytes) (x : Served γ) (e : NodeEvent) : Decidable (x.UnderSchema ns schemaBytes e) :=
  inferInstanceAs (Decidable (_ ∧ _))

theorem isOk_iff {ε : Type} (r : Except ε Unit) : r.isOk = true ↔ r = .ok () := by
  cases r <;> simp [Except.isOk, Except.toBool]

instance [AuthCrates] (validate : JValue → JValue → Except Bytes Unit) (schemaBytes : Bytes) :
    DecidablePred (Accepted validate schemaBytes) := fun value =>
  decidable_of_iff (∃ v ∈ Crates.fromStrValue (ByteCodec.fromUtf8Lossy value),
    (validate ((Crates.fromStrValue (ByteCodec.fromUtf8Lossy schemaBytes)).getD .null) v).isOk = true)
    (by simp only [Accepted, isOk_iff, Option.mem_def])

end BunnyMesh
