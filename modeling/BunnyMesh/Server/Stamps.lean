import BunnyMesh.Query.Scope
import BunnyMesh.Server.Node

/-!
# Time stamps of records

How the handlers of a node use the time stamps they draw.  Under the discipline `once` a record carries stamps that its
handler has drawn and not used before; this is what the requests to the server do.  The mount moves a directory with one
stamp for all the keys, so there the discipline `fresh` only asks that no two records of a handler share tag and stamp,
and a listing of a directory may count on one key at most.
-/

namespace BunnyMesh

open Std Store
open Interface (Prog Discipline)

/-- The time stamps in a record: its own and those of its sub-operations. -/
def Record.hlcs (r : Record) : List UInt64 := r.hlc :: r.ops.map (·.hlc)

/-- What the store counts on: sub-operations of a batch are writes, and definitions are not set behind its back. -/
def StoreOp.Sane : {β : Type} → StoreOp β → Prop
  | _, .putBatch _ ops => ∀ op ∈ ops, op.SubOk
  | _, .metaSet key _ => ∀ ns, schemaKey ns ≠ key ∧ indexKey ns ≠ key
  | _, _ => True

def Single (ks : List Bytes) : Prop := ks.length ≤ 1

/-- The account is the list of the stamps drawn and not used; a listing has `L`. -/
def once (L : List Bytes → Prop) (ns : Bytes) : Discipline Access (List UInt64) where
  wp := fun {_} o g Q => match o with
    | .draw true => ∀ h, Q h (g ++ [h])
    | .unlock => Q () []
    | .scanKeys _ _ => ∀ ks, L ks → Q ks g
    | .store o => o.Sane ∧ (∀ x, o.written = some x → x.1 = ns ∧ ∀ h ∈ x.2.hlcs, h ∈ g) ∧
        ∀ b, Q b (if o.written.isSome then [] else g)
    | _ => ∀ b, Q b g
  mono := by
    intro β o g Q Q' h hQ
    cases o with
    | draw stamp => cases stamp <;> exact fun b => h _ _ (hQ b)
    | unlock => exact h _ _ hQ
    | scanKeys => exact fun ks hks => h _ _ (hQ ks hks)
    | store o => exact ⟨hQ.1, hQ.2.1, fun b => h _ _ (hQ.2.2 b)⟩
    | readLock | writeLock | read | clock => exact fun b => h _ _ (hQ b)

/-- The account is the list of the stamps drawn, and the tags they have been used with. -/
def fresh (ns : Bytes) : Discipline Access (List UInt64 × List (UInt8 × UInt64)) where
  wp := fun {_} o g Q => match o with
    | .draw true => ∀ h, (∀ tag, (tag, h) ∉ g.2) → Q h (g.1 ++ [h], g.2)
    | .unlock => Q () ([], [])
    | .scanKeys _ _ => ∀ ks, Single ks → Q ks g
    | .store o => o.Sane ∧ (∀ x, o.written = some x → x.1 = ns ∧ x.2.hlc ∈ g.1 ∧ (x.2.tag, x.2.hlc) ∉ g.2) ∧
        ∀ b, Q b (g.1, (o.written.map fun x => (x.2.tag, x.2.hlc)).toList ++ g.2)
    | _ => ∀ b, Q b g
  mono := by
    intro β o g Q Q' h hQ
    cases o with
    | draw stamp =>
      cases stamp with
      | true => exact fun b hb => h _ _ (hQ b hb)
      | false => exact fun b => h _ _ (hQ b)
    | unlock => exact h _ _ hQ
    | scanKeys => exact fun ks hks => h _ _ (hQ ks hks)
    | store o => exact ⟨hQ.1, hQ.2.1, fun b => h _ _ (hQ.2.2 b)⟩
    | readLock | writeLock | read | clock => exact fun b => h _ _ (hQ b)

/-- The stamps of the first account are held in the second one and unused there. -/
def Unused (g : List UInt64) (g' : List UInt64 × List (UInt8 × UInt64)) : Prop :=
  ∀ h ∈ g, h ∈ g'.1 ∧ ∀ tag, (tag, h) ∉ g'.2

theorem fresh_of_once {ns : Bytes} {ρ : Type} {Q : ρ → List UInt64 → Prop} {p : Handler ρ} {g : List UInt64}
    {g' : List UInt64 × List (UInt8 × UInt64)} (h : p.Keeps (once Single ns) Q g) (hg : Unused g g') :
    p.Keeps (fresh ns) (fun r g' => ∃ g, Unused g g' ∧ Q r g) g' := by
  refine h.simulate hg fun {β} o g g' P hR hwp => ?_
  cases o with
  | draw stamp =>
    cases stamp with
    | true =>
      intro h hh
      refine ⟨g ++ [h], fun x hx => ?_, hwp h⟩
      rcases List.mem_append.1 hx with hx | hx
      · exact ⟨List.mem_append_left _ (hR x hx).1, (hR x hx).2⟩
      · rw [List.mem_singleton.1 hx]
        exact ⟨List.mem_append_right _ (List.mem_singleton_self h), hh⟩
    | false => exact fun b => ⟨g, hR, hwp b⟩
  | unlock => exact ⟨[], nofun, hwp⟩
  | scanKeys => exact fun ks hks => ⟨g, hR, hwp ks hks⟩
  | store o =>
    obtain ⟨hsane, hwritten, hrest⟩ := hwp
    refine ⟨hsane, fun x hx => ?_, fun b => ⟨_, ?_, hrest b⟩⟩
    · obtain ⟨hns, hheld⟩ := hwritten x hx
      obtain ⟨hmem, hunused⟩ := hR _ (hheld x.2.hlc List.mem_cons_self)
      exact ⟨hns, hmem, hunused _⟩
    · cases ho : o.written with
      | none => exact hR
      | some x => exact nofun
  | readLock | writeLock | read | clock => exact fun b => ⟨g, hR, hwp b⟩

/-! ### Handlers that use every stamp once -/

section
variable {L : List Bytes → Prop} {ns : Bytes} {α β : Type} {g : List UInt64}

def Stamped (L : List Bytes → Prop) (ns : Bytes) (p : Handler α) : Prop := ∀ g, p.Keeps (once L ns) (fun _ _ => True) g

def Quiet (L : List Bytes → Prop) (ns : Bytes) (p : Handler α) : Prop := ∀ g, p.Keeps (once L ns) (fun _ g' => g' = g) g

variable {p : Handler α}

theorem Quiet.stamped (h : Quiet L ns p) : Stamped L ns p := fun g => (h g).mono fun _ _ _ => trivial

theorem quiet_read (f : Store → α) : Quiet L ns (Prog.op (.read f)) := fun _ _ => rfl

theorem quiet_nowMs : Quiet L ns Handler.nowMs := fun _ _ => rfl

theorem quiet_store {o : StoreOp α} (hsane : o.Sane) (hw : o.written = none) : Quiet L ns (Handler.store o) := by
  intro g
  refine ⟨hsane, fun x hx => ?_, fun b => ?_⟩
  · rw [hw] at hx
    cases hx
  · rw [hw]
    rfl

theorem Stamped.pure {a : α} : Stamped L ns (pure a) := fun _ => trivial

theorem Stamped.bind {f : α → Handler β} (hp : Stamped L ns p) (hf : ∀ a, Stamped L ns (f a)) :
    Stamped L ns (p >>= f) :=
  fun g => (hp g).bind fun a g' _ => hf a g'

theorem Stamped.ite {c : Prop} [Decidable c] {q : Handler α} (hp : Stamped L ns p) (hq : Stamped L ns q) :
    Stamped L ns (if c then p else q) := by
  split
  · exact hp
  · exact hq

theorem Stamped.map {f : α → β} (hp : Stamped L ns p) : Stamped L ns (do Pure.pure (f (← p)) : Handler β) :=
  hp.bind fun _ => .pure

theorem keeps_writing (h : p.Keeps (once L ns) (fun _ _ => True) g) :
    (Handler.writing p).Keeps (once L ns) (fun _ _ => True) g :=
  fun _ => h.bind fun _ _ _ => trivial

theorem Stamped.writing (h : Stamped L ns p) : Stamped L ns (Handler.writing p) := fun g => keeps_writing (h g)

theorem Stamped.reading (h : Stamped L ns p) : Stamped L ns (Handler.reading p) :=
  fun g _ => (h g).bind fun _ _ _ => trivial

theorem stamped_look (f : Store → α) : Stamped L ns (Handler.look f) := Stamped.reading (quiet_read f).stamped

theorem keeps_store {o : StoreOp α} {f : Except StorageError α → Handler β} (hsane : o.Sane)
    (hw : ∀ x, o.written = some x → x.1 = ns ∧ ∀ h ∈ x.2.hlcs, h ∈ g) (hf : ∀ r, Stamped L ns (f r)) :
    Prog.Keeps (once L ns) (fun _ _ => True) (Handler.store o >>= f) g :=
  ⟨hsane, hw, fun b => hf b _⟩

theorem stamped_write {o : UInt64 → StoreOp α} {f : UInt64 → Except StorageError α → Handler β} (hsane : ∀ h, (o h).Sane)
    (hw : ∀ h x, (o h).written = some x → x.1 = ns ∧ x.2.hlcs = [h]) (hf : ∀ h r, Stamped L ns (f h r)) :
    Stamped L ns (do
      let h ← Handler.stamp
      f h (← Handler.store (o h))) := by
  intro g h
  refine keeps_store (hsane h) (fun x hx => ?_) (hf h)
  obtain ⟨hns, hhlcs⟩ := hw h x hx
  refine ⟨hns, fun h' hh' => ?_⟩
  rw [hhlcs, List.mem_singleton] at hh'
  rw [hh']
  exact List.mem_append_right _ (List.mem_singleton_self h)

end

section
variable {L : List Bytes → Prop} {ns : Bytes}

theorem quotaKey_ne (ns n : Bytes) : schemaKey n ≠ quotaKey ns ∧ indexKey n ≠ quotaKey ns :=
  ⟨append_ne_append (by decide) (by decide) (by decide) n ns, append_ne_append (by decide) (by decide) (by decide) n ns⟩

variable {γ : Type} {D : Discipline Access γ} {g : List UInt64}

theorem silent_provide (hread : ∀ {β : Type} (f : Store → β), (Prog.op (.read f)).Silent D)
    (hcreate : ∀ name p, (Handler.store (.createNamespace name p)).Silent D) (principal : PublicKey) :
    (Handler.provide ns principal).Silent D := by
  refine Prog.Silent.ite (Prog.Silent.bind (hread _) fun pol => Prog.Silent.ite ?_ Prog.Silent.pure) ?_
  · refine Prog.Silent.bind (hcreate _ _) fun r => ?_
    cases r with
    | ok => exact Prog.Silent.pure
    | error => exact Prog.Silent.pure
  · exact Prog.Silent.bind (hread _) fun pol => Prog.Silent.ite Prog.Silent.pure Prog.Silent.pure

theorem quiet_provide (principal : PublicKey) : Quiet L ns (Handler.provide ns principal) :=
  silent_provide quiet_read (fun _ _ => quiet_store trivial rfl) principal

theorem silent_accountWrite (hread : ∀ {β : Type} (f : Store → β), (Prog.op (.read f)).Silent D)
    (hset : ∀ v, (Handler.store (.metaSet (quotaKey ns) v)).Silent D) (delta limit : Nat) :
    (Handler.accountWrite ns delta limit).Silent D := by
  refine Prog.Silent.bind (hread _) fun used => Prog.Silent.ite Prog.Silent.pure ?_
  exact Prog.Silent.bind (hset _) fun _ => Prog.Silent.pure

/-- Where a charge leaves the account alone, so do all of them, and the writes that are left are some of the given ones. -/
theorem silent_chargeAll {cfg : NodeConfig}
    (haccount : ∀ n, (Handler.accountWrite ns n cfg.defaultQuota).Silent D) (writes : List (Op × Nat × Nat))
    (results : List (Option BatchResult)) (g : γ) :
    (Handler.chargeAll cfg ns writes results).Keeps D (fun r g' => g' = g ∧ ∀ op ∈ r.1, ∃ x ∈ writes, x.1 = op) g := by
  refine Prog.Keeps.foldlM ⟨rfl, nofun⟩ fun r g' x hx hr => ?_
  obtain ⟨rfl, hops⟩ := hr
  refine (haccount _ g').bind fun charged g'' hg => ?_
  subst hg
  cases charged with
  | error e => exact ⟨rfl, hops⟩
  | ok u =>
    refine ⟨rfl, fun op hop => ?_⟩
    rcases List.mem_append.1 hop with hop | hop
    · exact hops op hop
    · exact ⟨x, hx, (List.mem_singleton.1 hop).symm⟩

theorem quiet_accountWrite (delta limit : Nat) : Quiet L ns (Handler.accountWrite ns delta limit) := by
  have hset : ∀ v, Quiet L ns (Handler.store (.metaSet (quotaKey ns) v)) := fun v => quiet_store (quotaKey_ne ns) rfl
  exact silent_accountWrite quiet_read hset delta limit

theorem stamped_define {change : UInt64 → StoreOp Nat} (hsane : ∀ h, (change h).Sane)
    (hw : ∀ h x, (change h).written = some x → x.1 = ns ∧ x.2.hlcs = [h]) : Stamped L ns (Handler.define ns change) := by
  refine Stamped.writing (Stamped.bind (quiet_read _).stamped fun pol => Stamped.ite Stamped.pure ?_)
  exact stamped_write hsane hw fun _ _ => Stamped.pure

theorem stamped_l1CreateNamespace (name policy : Bytes) : Stamped L ns (Handler.l1CreateNamespace name policy) := by
  refine Stamped.ite Stamped.pure (Stamped.ite Stamped.pure (Stamped.writing ?_))
  have hcreate : ∀ p, Quiet L ns (Handler.store (.createNamespace name p)) := fun p => quiet_store trivial rfl
  refine Stamped.bind (hcreate _).stamped fun r => ?_
  split <;> exact Stamped.pure

variable [AuthCrates] (validate : JValue → JValue → Except Bytes Unit) (cfg : NodeConfig)

theorem stamped_handlePut (key body : Bytes) (ttl : Option Bytes) (principal : PublicKey) :
    Stamped L ns (Handler.handlePut validate cfg ns key body ttl principal) := by
  refine Stamped.writing (Stamped.bind (quiet_provide principal).stamped fun refusal => ?_)
  cases refusal with
  | some r => exact Stamped.pure
  | none =>
    refine Stamped.bind (quiet_read _).stamped fun violation => ?_
    cases violation with
    | some r => exact Stamped.pure
    | none =>
      refine Stamped.bind (quiet_accountWrite _ _).stamped fun charged => ?_
      cases charged with
      | error e => exact Stamped.pure
      | ok u =>
        -- the clock is read between the stamp and the write
        intro g h now
        refine keeps_store trivial (fun x hx => ?_) fun r => Stamped.pure
        cases hx
        exact ⟨rfl, fun h' hh' => List.mem_append_right g hh'⟩

theorem stamped_handleDelete (key : Bytes) (principal : PublicKey) : Stamped L ns (Handler.handleDelete cfg ns key principal) := by
  refine Stamped.writing (Stamped.bind (quiet_read _).stamped fun pol => Stamped.ite Stamped.pure ?_)
  refine stamped_write (fun _ => trivial) (fun h x hx => ?_) fun _ _ => Stamped.pure
  cases hx
  exact ⟨rfl, rfl⟩

theorem stamped_l1SchemaSet (supported : JValue → Except Bytes Unit) (body : Bytes) :
    Stamped L ns (Handler.l1SchemaSet cfg supported ns body) := by
  unfold Handler.l1SchemaSet
  split
  · exact Stamped.pure
  · split
    · exact Stamped.pure
    · exact stamped_define (fun _ => trivial) fun h x hx => by cases hx; exact ⟨rfl, rfl⟩

theorem stamped_l1SchemaClear : Stamped L ns (Handler.l1SchemaClear cfg ns) :=
  stamped_define (fun _ => trivial) fun h x hx => by cases hx; exact ⟨rfl, rfl⟩

theorem stamped_l1IndexSet (encode : List Bytes → Bytes) (body : Bytes) :
    Stamped L ns (Handler.l1IndexSet cfg encode ns body) := by
  unfold Handler.l1IndexSet
  split
  · exact Stamped.pure
  · exact stamped_define (fun _ => trivial) fun h x hx => by cases hx; exact ⟨rfl, rfl⟩

theorem stamped_l1IndexClear : Stamped L ns (Handler.l1IndexClear cfg ns) :=
  stamped_define (fun _ => trivial) fun h x hx => by cases hx; exact ⟨rfl, rfl⟩


/-! ### Batches -/

def BatchPlan.Stamped (plan : BatchPlan) (g : List UInt64) : Prop := ∀ op ∈ plan.accepted, op.hlc ∈ g ∧ op.SubOk

variable {plan : BatchPlan}

omit [AuthCrates] in
theorem BatchPlan.Stamped.accept (h : plan.Stamped g) {op : Op} (hop : op.SubOk) :
    (plan.accept op).Stamped (g ++ [op.hlc]) := by
  intro op' hop'
  rcases List.mem_append.1 hop' with hop' | hop'
  · exact ⟨List.mem_append_left _ (h op' hop').1, (h op' hop').2⟩
  · rw [List.mem_singleton.1 hop']
    exact ⟨List.mem_append_right _ (List.mem_singleton_self _), hop⟩

theorem stamped_planOp (schema : Option JValue) (principal : PublicKey) (h : plan.Stamped g) (op : BatchOp) :
    (Handler.planOp validate cfg schema principal plan op).Keeps (once L ns) BatchPlan.Stamped g := by
  refine keeps_planOp (G := plan.Stamped) h (fun _ _ => h) (fun _ _ => h) (fun _ => h) fun o ho g hg hlc => ?_
  obtain ⟨hhlc, hwrites, _⟩ := ho hlc
  have haccept := BatchPlan.Stamped.accept hg hwrites.subOk
  rwa [hhlc] at haccept

omit [AuthCrates] in
theorem hlcs_batchRecord {ops : List Op} (h : ∀ op ∈ ops, op.hlc ∈ g) (hne : ops ≠ []) :
    ∀ hlc ∈ (batchRecord ops).hlcs, hlc ∈ g := by
  intro hlc hhlc
  cases ops with
  | nil => exact absurd rfl hne
  | cons op ops =>
    rcases List.mem_cons.1 hhlc with rfl | hhlc
    · exact h op List.mem_cons_self
    · obtain ⟨op', hop', rfl⟩ := List.mem_map.1 hhlc
      exact h op' hop'

omit [AuthCrates] in
theorem keeps_applyPlan (principal : PublicKey) (h : plan.Stamped g) :
    (Handler.applyPlan cfg ns principal plan).Keeps (once L ns) (fun _ _ => True) g := by
  refine keeps_writing ((quiet_provide principal g).bind fun refusal g' hg => ?_)
  subst hg
  cases refusal with
  | some r => trivial
  | none =>
    refine (silent_chargeAll (quiet_accountWrite · _) _ _ g').bind fun r g'' hr => ?_
    obtain ⟨rfl, hleft⟩ := hr
    have hops : ∀ op ∈ r.1, op.hlc ∈ g'' ∧ op.SubOk := fun op hop => by
      obtain ⟨x, hx, rfl⟩ := hleft op hop
      exact h x.1 (List.of_mem_zip hx).1
    dsimp only
    split
    · trivial
    · rename_i hne
      refine keeps_store (fun op hop => (hops op hop).2) (fun x hx => ?_) fun outcome => ?_
      · cases hx
        exact ⟨rfl, hlcs_batchRecord (fun op hop => (hops op hop).1) fun e => hne (by rw [e]; rfl)⟩
      · cases outcome with
        | ok seq => exact Stamped.pure
        | error e => exact Stamped.pure

theorem stamped_handleBatch (principal : PublicKey) (ops : List BatchOp) :
    Stamped L ns (Handler.handleBatch validate cfg ns principal ops) := by
  refine Stamped.ite Stamped.pure (Stamped.ite Stamped.pure (Stamped.ite Stamped.pure ?_))
  refine Stamped.bind (stamped_look _) fun schema g => ?_
  have hempty : BatchPlan.empty.Stamped g := nofun
  have hplan : (ops.foldlM (Handler.planOp validate cfg schema principal) BatchPlan.empty).Keeps (once L ns)
      BatchPlan.Stamped g :=
    Prog.Keeps.foldlM hempty fun plan g op _ hplan => stamped_planOp validate cfg schema principal hplan op
  refine hplan.bind fun plan g hplan => (keeps_applyPlan cfg principal hplan).bind fun outcome g _ => ?_
  cases outcome with
  | error r => trivial
  | ok x => exact Stamped.bind quiet_nowMs.stamped (fun _ => Stamped.bind (stamped_look _) fun _ => Stamped.pure) g

end

/-! ### The mount -/

section
variable {ns : Bytes}

open Fs Handler

variable {α : Type} {p : Handler α}

theorem stamped_lookNow (f : Store → UInt64 → α) : Stamped Single ns (lookNow f) :=
  Stamped.reading (Stamped.bind quiet_nowMs.stamped fun _ => (quiet_read _).stamped)

theorem stamped_authorizedSelf : Stamped Single ns (authorizedSelf ns) := stamped_look _

theorem stamped_fileExists (path : Bytes) : Stamped Single ns (fileExists ns path) := (stamped_lookNow _).map

theorem stamped_readValue (path : Bytes) : Stamped Single ns (readValue ns path) := (stamped_lookNow _).map

theorem stamped_commitTtl (path data : Bytes) (ttlHint : Option UInt64) : Stamped Single ns (commitTtl ns path data ttlHint) := by
  refine Stamped.bind stamped_authorizedSelf fun authorized => Stamped.ite Stamped.pure ?_
  have hexpiry : Stamped Single ns (expiryFor ns path ttlHint) := by
    cases ttlHint with
    | none => exact stamped_lookNow _
    | some h => exact Stamped.bind quiet_nowMs.stamped fun _ => Stamped.ite Stamped.pure Stamped.pure
  refine Stamped.bind hexpiry fun expiresAt => Stamped.writing (stamped_write (fun _ => trivial) ?_ fun _ _ => Stamped.pure)
  intro h x hx
  cases hx
  exact ⟨rfl, rfl⟩

theorem stamped_deletePath (path : Bytes) : Stamped Single ns (deletePath ns path) := by
  refine Stamped.bind stamped_authorizedSelf fun authorized => Stamped.ite Stamped.pure (Stamped.ite Stamped.pure ?_)
  refine Stamped.writing (stamped_write (fun _ => trivial) ?_ fun _ _ => Stamped.pure)
  intro h x hx
  cases hx
  exact ⟨rfl, rfl⟩

theorem keeps_deleteKeys {g : List UInt64} {hlc : UInt64} (hh : hlc ∈ g) {keys : List Bytes} (hkeys : Single keys) :
    (deleteKeys ns hlc keys).Keeps (once Single ns) (fun _ _ => True) g := by
  cases keys with
  | nil => trivial
  | cons k rest =>
    have hrest : rest = [] := List.length_eq_zero_iff.1 (Nat.le_zero.1 (Nat.le_of_succ_le_succ hkeys))
    subst hrest
    refine keeps_store trivial (fun x hx => ?_) fun r => ?_
    · cases hx
      exact ⟨rfl, fun h hh' => by rw [List.mem_singleton.1 hh']; exact hh⟩
    · cases r with
      | ok seq => exact Stamped.pure
      | error e => exact Stamped.pure

theorem stamped_deleteAllUnder (path : Bytes) : Stamped Single ns (deleteAllUnder ns path) := by
  refine Stamped.bind stamped_authorizedSelf fun authorized => Stamped.ite Stamped.pure fun g => ?_
  have hkeys : (reading (Prog.op (.scanKeys ns (dirPrefix path)))).Keeps (once Single ns) (fun ks _ => Single ks) g :=
    fun _ ks hks => hks
  refine hkeys.bind fun keys g hkeys => keeps_writing fun hlc => ?_
  exact keeps_deleteKeys (List.mem_append_right g (List.mem_singleton_self hlc)) hkeys

theorem stamped_fsMkdir (parent name : Bytes) : Stamped Single ns (fsMkdir ns parent name) := by
  refine Stamped.bind stamped_authorizedSelf fun authorized => Stamped.ite Stamped.pure ?_
  refine Stamped.bind (Stamped.writing fun g h => ⟨trivial, fun x hx => ?_, fun b => trivial⟩) fun _ => Stamped.pure
  cases hx
  exact ⟨rfl, fun h' hh' => List.mem_append_right g hh'⟩

theorem stamped_fsRmdir (parent name : Bytes) : Stamped Single ns (fsRmdir ns parent name) := by
  refine Stamped.bind (stamped_deleteAllUnder _) fun r => ?_
  cases r with
  | ok u => exact stamped_deletePath _
  | error e => exact Stamped.pure

theorem stamped_renameFile (source target : Bytes) : Stamped Single ns (renameFile ns source target) := by
  refine Stamped.bind (stamped_readValue source) fun data => ?_
  cases data with
  | none => exact Stamped.pure
  | some d =>
    refine Stamped.bind (stamped_lookNow _) fun ttl => Stamped.bind (stamped_commitTtl target d (some ttl)) fun r => ?_
    cases r with
    | ok u => exact stamped_deletePath source
    | error e => exact Stamped.pure

theorem stamped_fsTruncate (path : Bytes) (size : Nat) : Stamped Single ns (fsTruncate ns path size) := by
  refine Stamped.ite Stamped.pure (Stamped.bind (stamped_look _) fun dir => Stamped.ite Stamped.pure ?_)
  refine Stamped.bind (stamped_fileExists path) fun file => Stamped.ite Stamped.pure ?_
  exact Stamped.bind (stamped_readValue path) fun data => stamped_commitTtl path _ none

def Fresh {α : Type} (ns : Bytes) (p : Handler α) : Prop := ∀ g, p.Keeps (fresh ns) (fun _ _ => True) g

theorem Stamped.fresh (h : Stamped Single ns p) : Fresh ns p := by
  intro g
  have hnone : Unused [] g := nofun
  exact (fresh_of_once (h []) hnone).mono fun _ _ _ => trivial

theorem Fresh.pure {a : α} : Fresh ns (pure a) := fun _ => trivial

theorem Fresh.bind {β : Type} {f : α → Handler β} (hp : Fresh ns p) (hf : ∀ a, Fresh ns (f a)) : Fresh ns (p >>= f) :=
  fun g => (hp g).bind fun a g' _ => hf a g'

theorem Fresh.ite {c : Prop} [Decidable c] {q : Handler α} (hp : Fresh ns p) (hq : Fresh ns q) :
    Fresh ns (if c then p else q) := by
  split
  · exact hp
  · exact hq

theorem keeps_moveKeys {g : List UInt64 × List (UInt8 × UInt64)} {hlc : UInt64} (hh : hlc ∈ g.1)
    (hunused : ∀ tag, (tag, hlc) ∉ g.2) (oldPref newPref : Bytes) {keys : List Bytes} (hkeys : Single keys) :
    (moveKeys ns oldPref newPref hlc keys).Keeps (fresh ns) (fun _ _ => True) g := by
  cases keys with
  | nil => trivial
  | cons k rest =>
    have hrest : rest = [] := List.length_eq_zero_iff.1 (Nat.le_zero.1 (Nat.le_of_succ_le_succ hkeys))
    subst hrest
    intro e
    cases e with
    | none => exact Fresh.pure g
    | some e =>
      cases e with
      | register vs => exact Fresh.pure g
      | lww v =>
        refine ⟨trivial, fun x hx => ?_, fun r => ?_⟩
        · cases hx
          exact ⟨rfl, hh, hunused _⟩
        · cases r with
          | error e => trivial
          | ok seq =>
            refine ⟨trivial, fun x hx => ?_, fun r => ?_⟩
            · cases hx
              refine ⟨rfl, hh, fun hmem => ?_⟩
              rcases List.mem_cons.1 hmem with heq | hmem
              · have htag : tagDel = if v.expiresAt = 0 then tagPut else tagPutTtl := congrArg Prod.fst heq
                split at htag <;> exact absurd htag (by decide)
              · exact hunused _ hmem
            · cases r with
              | error e => trivial
              | ok seq => trivial

theorem fresh_renameDir (source target : Bytes) : Fresh ns (renameDir ns source target) := by
  intro g
  have hkeys : (reading (Prog.op (.scanKeys ns (dirPrefix source)))).Keeps (fresh ns)
      (fun ks _ => Single ks) g := fun _ ks hks => hks
  refine hkeys.bind fun keys g hkeys _ hlc hhlc => ?_
  have hmove : (moveKeys ns (dirPrefix source) (dirPrefix target) hlc keys).Keeps (fresh ns) (fun _ _ => True)
      (g.1 ++ [hlc], g.2) :=
    keeps_moveKeys (g := (g.1 ++ [hlc], g.2)) (List.mem_append_right g.1 (List.mem_singleton_self hlc)) hhlc _ _ hkeys
  exact hmove.bind fun _ _ _ => trivial

theorem fresh_fsRename (flagged : Bool) (parent name newParent newName : Bytes) :
    Fresh ns (fsRename ns flagged parent name newParent newName) := by
  refine Fresh.ite Fresh.pure (Fresh.ite Fresh.pure (Fresh.bind stamped_authorizedSelf.fresh fun authorized => ?_))
  refine Fresh.ite Fresh.pure (Fresh.bind (stamped_fileExists _).fresh fun file => ?_)
  refine Fresh.ite (stamped_renameFile _ _).fresh (Fresh.bind (stamped_look _).fresh fun dir => ?_)
  exact Fresh.ite (fresh_renameDir _ _) Fresh.pure

end

/-! ### Queries -/

section
variable {L : List Bytes → Prop} {ns : Bytes}

theorem serves_once : Serves (once L ns) ns where
  lock {o} g Q ho hQ := by
    rcases ho with rfl | rfl | rfl
    · exact fun b => hQ b g
    · exact fun b => hQ b g
    · exact hQ () []
  read f g Q hQ := fun b => hQ b g
  draw stamp g Q hQ := by
    cases stamp with
    | true => exact fun b => hQ b _
    | false => exact fun b => hQ b g
  write {o} g Q ho hQ := by
    intro hlc
    have hwritten : (o hlc).Sane ∧ ∀ x, (o hlc).written = some x → x.1 = ns ∧ x.2.hlcs = [hlc] := by
      cases ho <;> exact ⟨trivial, fun x hx => by cases hx; exact ⟨rfl, rfl⟩⟩
    refine ⟨hwritten.1, fun x hx => ?_, fun b => hQ b _⟩
    obtain ⟨hns, hhlcs⟩ := hwritten.2 x hx
    refine ⟨hns, fun h hh => ?_⟩
    rw [hhlcs] at hh
    exact List.mem_append_right g hh

variable [AuthCrates]

theorem stamped_runQl {encode : List Bytes → Bytes} (cfg : NodeConfig) (call : Query.Call) :
    Stamped L ns (Handler.runQl encode cfg ns call) :=
  serves_once.runQl cfg call

/-! ### Requests and callbacks -/

theorem stamped_handler (site : Site) {s : Surface} (h : s.isHttp = true) :
    Stamped L (s.ns site.cfg) (s.handler site) := by
  cases s with
  | put ns key body ttl principal => exact Stamped.map (stamped_handlePut _ _ _ _ _ _)
  | delete ns key principal => exact Stamped.map (stamped_handleDelete _ _ _)
  | batch ns principal ops =>
    refine Stamped.bind (stamped_handleBatch _ _ _ _) fun r => ?_
    cases r with
    | ok rs => exact Stamped.pure
    | error e => exact Stamped.pure
  | query ns call =>
    refine Stamped.bind (stamped_runQl _ _) fun r => ?_
    cases r with
    | ok v => exact Stamped.pure
    | error e => exact Stamped.pure
  | createNamespace name policy => exact Stamped.map (stamped_l1CreateNamespace _ _)
  | schemaSet ns body => exact Stamped.map (stamped_l1SchemaSet _ _ _)
  | schemaClear ns => exact Stamped.map (stamped_l1SchemaClear _)
  | indexSet ns body => exact Stamped.map (stamped_l1IndexSet _ _ _)
  | indexClear ns => exact Stamped.map (stamped_l1IndexClear _)
  | create | flush | mkdir | unlink | rmdir | rename | truncate => cases h

theorem fresh_handler (site : Site) (s : Surface) : Fresh (s.ns site.cfg) (s.handler site) := by
  cases s with
  | put | delete | batch | query | createNamespace | schemaSet | schemaClear | indexSet | indexClear =>
    exact (stamped_handler site rfl).fresh
  | create parent name => exact (Stamped.map (stamped_commitTtl _ _ _)).fresh
  | flush path data => exact (Stamped.map (stamped_commitTtl _ _ _)).fresh
  | mkdir parent name => exact (Stamped.map (stamped_fsMkdir _ _)).fresh
  | unlink parent name => exact (Stamped.map (stamped_deletePath _)).fresh
  | rmdir parent name => exact (Stamped.map (stamped_fsRmdir _ _)).fresh
  | rename flagged parent name newParent newName => exact Fresh.bind (fresh_fsRename _ _ _ _ _) fun _ => Fresh.pure
  | truncate path size => exact (Stamped.map (stamped_fsTruncate _ _)).fresh

end

end BunnyMesh
