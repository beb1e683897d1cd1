import BunnyMesh.Query.Exec

/-!
# Queries under a discipline

The program of a query is built from looks at the store, time stamps, and three kinds of writes with a time stamp that was
drawn just before (`QueryWrite`).  A remote caller cannot leave the namespace of the request.  So whatever discipline lets a
program do these things is followed by every query.
-/

namespace BunnyMesh

open Store Query
open Interface (Prog Discipline)

/-! ### Walks over a query -/

/-- What a query in the scope `ns` asks of the store, given a time stamp. -/
inductive QueryWrite (ns : Bytes) : (UInt64 → StoreOp Nat) → Prop
  | put (key value : Bytes) (id : PublicKey) : QueryWrite ns fun hlc => .put ns key value hlc id id 0
  | delete (key : Bytes) (id : PublicKey) : QueryWrite ns fun hlc => .delete ns key hlc id id
  | setIndex (value : Option Bytes) (id : PublicKey) : QueryWrite ns fun hlc => .setIndex ns value hlc id id

/-- The error of `store_mut` where the store is only at hand for reading. -/
def readOnlyError : QueryError := .type (str "store is read-only in this context, but the statement mutates")

/-- A property of programs that goes along with the steps of a remote query, in scopes with `S`; where `writes` is false,
of one without mutators. -/
structure Walk (S : Bytes → Prop) (writes : Bool) (R : {α : Type} → Exec α → Prop) : Prop where
  pure : ∀ {α : Type} {a : α}, R (Pure.pure a : Exec α)
  throw_bind : ∀ {α β : Type} {e : QueryError} {f : α → Exec β}, e ≠ readOnlyError → R (MonadExcept.throw e >>= f)
  bind : ∀ {α β : Type} {x : Exec α} {f : α → Exec β}, R x → (∀ a, R (f a)) → R (x >>= f)
  readStore : ∀ {α : Type} (f : Store → α), R (readStore f)
  draw : ∀ stamp, R (access (.draw stamp))
  scope : ∀ {β : Type} {f : Bytes → Exec β}, (∀ ns, S ns → R (f ns)) → R (scope >>= f)
  write : writes = true → ∀ {β : Type} {ctx : QueryCtx} {ns : Bytes} {o : UInt64 → StoreOp Nat} {f : Nat → Exec β}, S ns →
    QueryWrite ns o → (∀ a, R (f a)) → R (do
      let hlc ← access (.draw true)
      f (← change ctx (o hlc)))

/-! ### The texts of the other errors -/

theorem str_append (a b : String) : str (a ++ b) = str a ++ str b := by simp [str]

theorem type_ne_readOnlyError {msg : Bytes} (h : msg.head? ≠ some 115) : QueryError.type msg ≠ readOnlyError := by
  intro he
  rw [QueryError.type.inj he] at h
  exact h (by decide +kernel)

theorem expected_ne_readOnlyError {start : Bytes} (h : start.head? = some 101) (rest : Bytes) :
    QueryError.type (start ++ rest) ≠ readOnlyError := by
  refine type_ne_readOnlyError ?_
  rw [List.head?_append, h]
  simp

theorem argcError_ne_readOnlyError (name : Bytes) (n got : Nat) : argcError name n got ≠ readOnlyError := by
  intro he
  have hparen : (40 : UInt8) ∈ str "() takes " := by decide +kernel
  have hmem : (40 : UInt8) ∈ name ++ str s!"() takes {n} argument(s), got {got}" := by
    simp only [str_append, List.mem_append]
    exact .inr (.inl (.inl (.inl hparen)))
  rw [QueryError.type.inj he] at hmem
  exact absurd hmem (by decide +kernel)

namespace Walk

variable {S : Bytes → Prop} {writes : Bool} {R : {α : Type} → Exec α → Prop} (h : Walk S writes R)
include h

theorem throw {α : Type} {e : QueryError} (he : e ≠ readOnlyError) : R (MonadExcept.throw e : Exec α) :=
  h.throw_bind (f := Pure.pure) he

variable [AuthCrates]

theorem expectStr (name : Bytes) (v : Value) : R (expectStr name v) := by
  have hhead : (str "expected string from ").head? = some 101 := by decide +kernel
  cases v with
  | str s => exact h.pure
  | null | bool | num | list =>
    refine h.throw ?_
    exact expected_ne_readOnlyError hhead _

theorem expectNum (name : Bytes) (v : Value) : R (expectNum name v) := by
  have hhead : (str "expected Num from ").head? = some 101 := by decide +kernel
  cases v with
  | num n => exact h.pure
  | null | bool | str | list =>
    refine h.throw ?_
    exact expected_ne_readOnlyError hhead _

theorem parseNum (s : Bytes) : R (parseNum s) := by
  unfold Query.parseNum
  split
  · exact h.pure
  · exact h.throw (expected_ne_readOnlyError (by decide +kernel) _)

variable {encode : List Bytes → Bytes} {ctx : QueryCtx} (hremote : ctx.remote = true)
include hremote

theorem execFn {name : Bytes} (hname : (Fn.ofName name).isMutator = true → writes = true) {strArg : Nat → Exec Bytes}
    {numArg : Nat → Exec UInt64} {strArgs : Exec (List Bytes)} (hstr : ∀ i, R (strArg i)) (hnum : ∀ i, R (numArg i))
    (hstrs : writes = true → R strArgs) (argc : Nat) : R (execFn encode ctx name strArg numArg strArgs argc) := by
  have htakes : ∀ n, R (if argc = n then Pure.pure ⟨⟩ else MonadExcept.throw (argcError name n argc) : Exec PUnit) :=
    fun n => iteInduction (fun _ => h.pure) fun _ => h.throw (argcError_ne_readOnlyError name n argc)
  unfold Query.execFn
  cases hfn : Fn.ofName name with
  | now => exact h.bind (htakes 0) fun _ => h.bind (h.draw false) fun _ => h.pure
  | hlc => exact h.bind (htakes 0) fun _ => h.bind (h.draw false) fun _ => h.pure
  | before => exact h.bind (htakes 2) fun _ => h.bind (hnum 0) fun _ => h.bind (hnum 1) fun _ => h.pure
  | clockSkew =>
    refine h.bind (htakes 1) fun _ => h.bind (hstr 0) fun host => h.bind (h.readStore _) fun diff => ?_
    cases diff with
    | none => exact h.pure
    | some d => exact h.pure
  | use | createNs =>
    refine h.bind (htakes 1) fun _ => ?_
    rw [if_pos hremote]
    exact h.throw_bind (type_ne_readOnlyError (by decide +kernel))
  | get =>
    refine h.bind (htakes 1) fun _ => h.scope fun ns hns => h.bind (hstr 0) fun key => h.bind (h.readStore _) fun e => ?_
    cases e with
    | none => exact h.pure
    | some e => exact h.pure
  | put =>
    have hwrites := hname (by rw [hfn]; rfl)
    refine h.bind (htakes 2) fun _ => h.scope fun ns hns => h.bind (hstr 0) fun key => h.bind (hstr 1) fun val => ?_
    exact h.write hwrites hns (.put key val _) fun _ => h.pure
  | del =>
    have hwrites := hname (by rw [hfn]; rfl)
    refine h.bind (htakes 1) fun _ => h.scope fun ns hns => h.bind (hstr 0) fun key => ?_
    exact h.write hwrites hns (.delete key _) fun _ => h.pure
  | scan =>
    refine h.bind (htakes 1) fun _ => h.scope fun ns hns => h.bind (hstr 0) fun pre => ?_
    exact h.bind (h.readStore _) fun _ => h.pure
  | getAll =>
    refine h.bind (htakes 1) fun _ => h.scope fun ns hns => h.bind (hstr 0) fun key => h.bind (h.readStore _) fun e => ?_
    split <;> exact h.pure
  | indexCreate =>
    have hwrites := hname (by rw [hfn]; rfl)
    refine iteInduction (fun _ => h.throw_bind (type_ne_readOnlyError (by decide +kernel))) fun _ => h.scope fun ns hns => ?_
    exact h.bind (hstrs hwrites) fun fields => h.write hwrites hns (.setIndex _ _) fun _ => h.pure
  | indexFields => exact h.scope fun _ _ => h.bind (h.readStore _) fun _ => h.pure
  | indexDrop =>
    have hwrites := hname (by rw [hfn]; rfl)
    exact h.scope fun ns hns => h.write hwrites hns (.setIndex none _) fun _ => h.pure
  | byIndex =>
    refine iteInduction (fun _ => h.throw_bind (type_ne_readOnlyError (by decide +kernel))) fun _ => h.scope fun ns hns => ?_
    refine h.bind (hstr 0) fun field => h.bind (hstr 1) fun want => ?_
    exact h.bind (h.readStore _) fun _ => h.pure
  | other => exact h.throw nofun

set_option linter.unusedSectionVars false in
mutual

theorem exec : ∀ c : Call, (c.containsMutator = true → writes = true) → R (exec encode ctx c)
  | .mk _ args, hc => by
    simp only [Call.containsMutator, Bool.or_eq_true, or_imp] at hc
    exact h.execFn hremote hc.1 (strArgAt args hc.2) (numArgAt args hc.2) (strArgs args) args.length

theorem strArg : ∀ a : Arg, (a.containsMutator = true → writes = true) → R (strArg encode ctx a)
  | .str _, _ => h.pure
  | .call c, ha => h.bind (exec c (by simpa only [Arg.containsMutator] using ha)) fun v => h.expectStr c.name v

theorem numArg : ∀ a : Arg, (a.containsMutator = true → writes = true) → R (numArg encode ctx a)
  | .str s, _ => h.parseNum s
  | .call c, ha => h.bind (exec c (by simpa only [Arg.containsMutator] using ha)) fun v => h.expectNum c.name v

theorem strArgs : ∀ args, writes = true → R (strArgs encode ctx args)
  | [], _ => h.pure
  | a :: args, hw => h.bind (strArg a fun _ => hw) fun _ => h.bind (strArgs args hw) fun _ => h.pure

theorem strArgAt : ∀ args, (anyMutator args = true → writes = true) → ∀ i, R (strArgAt encode ctx args i)
  | [], _, _ => h.pure
  | a :: args, hargs, i => by
    simp only [anyMutator, Bool.or_eq_true, or_imp] at hargs
    cases i with
    | zero => exact strArg a hargs.1
    | succ i => exact strArgAt args hargs.2 i

theorem numArgAt : ∀ args, (anyMutator args = true → writes = true) → ∀ i, R (numArgAt encode ctx args i)
  | [], _, _ => h.pure
  | a :: args, hargs, i => by
    simp only [anyMutator, Bool.or_eq_true, or_imp] at hargs
    cases i with
    | zero => exact numArg a hargs.1
    | succ i => exact numArgAt args hargs.2 i

end

end Walk

/-! ### Queries that stay in their scope -/

section
variable {γ : Type} {D : Discipline Access γ} {ns : Bytes} {α β : Type}

/-- The program of a query in the scope `ns`: it stays there and follows the discipline. -/
def InScope (D : Discipline Access γ) (ns : Bytes) (x : Exec α) : Prop :=
  ∀ g, (x.run.run (some ns)).Keeps D (fun r _ => r.2 = some ns) g

/-- The discipline lets a query in the scope `ns` do what it does. -/
structure Serves (D : Discipline Access γ) (ns : Bytes) : Prop where
  lock : ∀ {o : Access Unit} (g : γ) {Q : Unit → γ → Prop}, o = .readLock ∨ o = .writeLock ∨ o = .unlock →
    (∀ b g', Q b g') → D.wp o g Q
  read : ∀ {β : Type} (f : Store → β) (g : γ) {Q : β → γ → Prop}, (∀ b g', Q b g') → D.wp (.read f) g Q
  draw : ∀ (stamp : Bool) (g : γ) {Q : UInt64 → γ → Prop}, (∀ b g', Q b g') → D.wp (.draw stamp) g Q
  write : ∀ {o : UInt64 → StoreOp Nat} (g : γ) {Q : Except StorageError Nat → γ → Prop}, QueryWrite ns o →
    (∀ b g', Q b g') → D.wp (.draw true) g fun hlc g' => D.wp (.store (o hlc)) g' Q

theorem InScope.pure {a : α} : InScope D ns (Pure.pure a) := fun _ => rfl

theorem InScope.throw_bind {e : QueryError} {f : α → Exec β} : InScope D ns (MonadExcept.throw e >>= f) := fun _ => rfl

theorem InScope.bind {x : Exec α} {f : α → Exec β} (hx : InScope D ns x) (hf : ∀ a, InScope D ns (f a)) :
    InScope D ns (x >>= f) := by
  intro g
  refine (hx g).bind fun r g' hr => ?_
  obtain ⟨outcome, sc⟩ := r
  cases hr
  cases outcome with
  | ok a => exact hf a g'
  | error e => rfl

theorem Serves.readStore (hD : Serves D ns) (f : Store → α) : InScope D ns (readStore f) := fun g => hD.read f g fun _ _ => rfl

theorem Serves.access_draw (hD : Serves D ns) (stamp : Bool) : InScope D ns (access (.draw stamp)) :=
  fun g => hD.draw stamp g fun _ _ => rfl

theorem Serves.access_write (hD : Serves D ns) {ctx : QueryCtx} {o : UInt64 → StoreOp Nat} {f : Nat → Exec β}
    (ho : QueryWrite ns o) (hf : ∀ a, InScope D ns (f a)) : InScope D ns (do
      let hlc ← access (.draw true)
      f (← change ctx (o hlc))) := by
  unfold change
  cases hwrite : ctx.write with
  | false => exact InScope.bind (hD.access_draw true) fun _ => InScope.throw_bind
  | true =>
    intro g
    refine hD.write g ho fun r g' => ?_
    cases r with
    | ok a => exact hf a g'
    | error e => rfl

theorem Serves.walk (hD : Serves D ns) : Walk (· = ns) true (InScope D ns) where
  pure := InScope.pure
  throw_bind _ := InScope.throw_bind
  bind := InScope.bind
  readStore := hD.readStore
  draw := hD.access_draw
  scope hf := hf ns rfl
  write _ _ _ _ _ _ hns ho hf := by
    subst hns
    exact hD.access_write ho hf

end

section
variable [AuthCrates] {γ : Type} {D : Discipline Access γ} {ns : Bytes} {encode : List Bytes → Bytes}

theorem Serves.runQl (hD : Serves D ns) (cfg : NodeConfig) (call : Call) (g : γ) :
    (Handler.runQl encode cfg ns call).Keeps D (fun _ _ => True) g := by
  have hrun : ∀ g, (do
      let r ← (exec encode ⟨call.containsMutator, cfg.root, true⟩ call).run.run (some ns)
      Pure.pure r.1 : Handler (Except QueryError Value)).Keeps D (fun _ _ => True) g :=
    fun g => (hD.walk.exec rfl call (fun _ => rfl) g).bind fun _ _ _ => trivial
  have hunlock : ∀ (r : Except QueryError Value) g, (do
      Prog.op .unlock
      Pure.pure r : Handler (Except QueryError Value)).Keeps D (fun _ _ => True) g :=
    fun r g => hD.lock g (.inr (.inr rfl)) fun _ _ => trivial
  unfold Handler.runQl
  split
  · exact hD.lock g (.inr (.inl rfl)) fun _ g' => (hrun g').bind fun r g'' _ => hunlock r g''
  · exact hD.lock g (.inl rfl) fun _ g' => (hrun g').bind fun r g'' _ => hunlock r g''

end

end BunnyMesh
