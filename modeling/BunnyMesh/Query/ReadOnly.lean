import BunnyMesh.Query.Parse
import BunnyMesh.Query.Scope

/-!
# Read-only queries

The lock of a query is chosen by a walk over the calls of the parsed text (`classify`), and its evaluation dispatches on
the names of these calls again.  A query that is classified as read-only makes no call on the store but looks
(`looks_walk`), and it is the same program whether the store is at hand for writing or not (`exec_eq_of_readOnly`).  A
remote caller is refused `use` and `create_ns` before their arguments are evaluated, so these two, which the walk does not
count as mutators, do not matter.
-/

namespace BunnyMesh

open Store Query
open Interface (Prog Discipline)

/-- `eval` in the scope `sc`: its result and the scope afterwards. -/
def evalOn [QueryCrates] (clocks : ClockOracle) (encode : List Bytes → Bytes) (ctx : QueryCtx) (src : Bytes)
    (sc : Option Bytes) : EStateM String Caller (Except QueryError Value × Option Bytes) :=
  ((eval encode ctx src).run.run sc).interpret (Access.answer clocks)

/-! ### Programs that only look -/

def Access.IsLook : {β : Type} → Access β → Prop
  | _, .read _ | _, .draw _ => True
  | _, _ => False

/-- The program changes nothing; there is no account to keep. -/
def looking : Discipline Access Unit where
  wp := fun {_} o _ Q => o.IsLook ∧ ∀ b, Q b ()
  mono := fun _ _ _ _ h hQ => ⟨hQ.1, fun b => h b () (hQ.2 b)⟩

/-- Whatever the scope is, the program of a query only looks, stays in the scope and does not ask for a store to write
to. -/
def Looks {α : Type} (x : Exec α) : Prop :=
  ∀ sc, (x.run.run sc).Keeps looking (fun r _ => r.2 = sc ∧ r.1 ≠ .error readOnlyError) ()

section
variable {α β : Type}

theorem Looks.pure {a : α} : Looks (Pure.pure a) := fun _ => ⟨rfl, nofun⟩

theorem Looks.throw_bind {e : QueryError} {f : α → Exec β} (h : e ≠ readOnlyError) : Looks (MonadExcept.throw e >>= f) :=
  fun _ => ⟨rfl, fun he => h (Except.error.inj he)⟩

theorem Looks.bind {x : Exec α} {f : α → Exec β} (hx : Looks x) (hf : ∀ a, Looks (f a)) : Looks (x >>= f) := by
  intro sc
  refine (hx sc).bind fun r _ hr => ?_
  obtain ⟨outcome, sc'⟩ := r
  obtain ⟨rfl, hr⟩ := hr
  cases outcome with
  | ok a => exact hf a sc'
  | error e => exact ⟨rfl, fun he => hr (congrArg Except.error (Except.error.inj he))⟩

theorem looks_readStore (f : Store → α) : Looks (readStore f) := fun _ => ⟨trivial, fun _ => ⟨rfl, nofun⟩⟩

theorem looks_draw (stamp : Bool) : Looks (access (.draw stamp)) := fun _ => ⟨trivial, fun _ => ⟨rfl, nofun⟩⟩

theorem looks_scope : Looks scope := by
  intro sc
  cases sc with
  | none => exact ⟨rfl, nofun⟩
  | some ns => exact ⟨rfl, nofun⟩

theorem looks_walk : Walk (fun _ => True) false Looks where
  pure := Looks.pure
  throw_bind := Looks.throw_bind
  bind := Looks.bind
  readStore := looks_readStore
  draw := looks_draw
  scope hf := Looks.bind looks_scope fun ns => hf ns trivial
  write := nofun

end

/-! ### With the store at hand for reading -/

section
variable [AuthCrates] {encode : List Bytes → Bytes} {ctx ctx' : QueryCtx} (hremote : ctx.remote = true)
  (hremote' : ctx'.remote = true)
include hremote hremote'

theorem execFn_eq {name : Bytes} (hname : (Fn.ofName name).isMutator = false) (strArg : Nat → Exec Bytes) (numArg : Nat → Exec UInt64)
    (strArgs strArgs' : Exec (List Bytes)) (argc : Nat) :
    execFn encode ctx name strArg numArg strArgs argc = execFn encode ctx' name strArg numArg strArgs' argc := by
  unfold execFn
  cases hfn : Fn.ofName name with
  | put | del | indexCreate | indexDrop => simp [hfn, Fn.isMutator] at hname
  | use => simp [hremote, hremote']
  | createNs =>
    simp only [hremote, hremote', if_true]
    rfl
  | now | hlc | before | clockSkew | get | scan | getAll | indexFields | byIndex | other => rfl

set_option linter.unusedSectionVars false in
mutual

theorem exec_eq : ∀ c : Call, c.containsMutator = false → exec encode ctx c = exec encode ctx' c
  | .mk _ args, h => by
    rw [Call.containsMutator, Bool.or_eq_false_iff] at h
    rw [exec, exec, funext (strArgAt_eq args h.2), funext (numArgAt_eq args h.2)]
    exact execFn_eq hremote hremote' h.1 _ _ _ _ _

theorem strArg_eq : ∀ a : Arg, a.containsMutator = false → strArg encode ctx a = strArg encode ctx' a
  | .str _, _ => rfl
  | .call c, h => by
    rw [strArg, strArg, exec_eq c h]

theorem numArg_eq : ∀ a : Arg, a.containsMutator = false → numArg encode ctx a = numArg encode ctx' a
  | .str _, _ => rfl
  | .call c, h => by
    rw [numArg, numArg, exec_eq c h]

theorem strArgAt_eq : ∀ args, anyMutator args = false → ∀ i, strArgAt encode ctx args i = strArgAt encode ctx' args i
  | [], _, _ => rfl
  | a :: args, h, i => by
    rw [anyMutator, Bool.or_eq_false_iff] at h
    cases i with
    | zero => exact strArg_eq a h.1
    | succ i => exact strArgAt_eq args h.2 i

theorem numArgAt_eq : ∀ args, anyMutator args = false → ∀ i, numArgAt encode ctx args i = numArgAt encode ctx' args i
  | [], _, _ => rfl
  | a :: args, h, i => by
    rw [anyMutator, Bool.or_eq_false_iff] at h
    cases i with
    | zero => exact numArg_eq a h.1
    | succ i => exact numArgAt_eq args h.2 i

end

end

/-! ### The verdict -/

theorem Looks.interpret [Crates] {α : Type} {x : Exec α} (h : Looks x) (clocks : ClockOracle) (sc : Option Bytes)
    (c : Caller) : ∃ r n, (x.run.run sc).interpret (Access.answer clocks) c = .ok (r, sc) ⟨c.world, n⟩ ∧
      r ≠ .error readOnlyError := by
  have hcall : ∀ {β : Type} (o : Access β) (g : Unit) (s : Caller) (P : β → Unit → Prop), s.world = c.world →
      looking.wp o g P → ∃ b s' g', Access.answer clocks o s = .ok b s' ∧ s'.world = c.world ∧ P b g' := by
    intro β o g s P hs ho
    obtain ⟨hlook, hP⟩ := ho
    cases o with
    | read f => exact ⟨_, _, _, rfl, hs, hP _⟩
    | draw stamp => exact ⟨_, _, _, rfl, hs, hP _⟩
    | readLock | writeLock | unlock | scanKeys | store | clock => exact hlook.elim
  have hrun := (h sc).interpret (I := fun _ (s : Caller) => s.world = c.world) rfl hcall
  obtain ⟨⟨r, sc'⟩, ⟨w, n⟩, -, hrun, hw, hsc, hr⟩ := hrun
  cases hw
  cases hsc
  exact ⟨r, n, hrun, hr⟩

theorem classify_eq_readOnly [QueryCrates] {src : Bytes} (h : classify src = .ok .readOnly) :
    ∃ call, Query.parse src = .ok call ∧ call.containsMutator = false := by
  unfold classify at h
  cases hparse : Query.parse src with
  | error e => simp [hparse, bind, Except.bind] at h
  | ok call =>
    cases hmut : call.containsMutator with
    | false => exact ⟨call, rfl, hmut⟩
    | true => simp [hparse, hmut, bind, Except.bind, Pure.pure, Except.pure] at h

/-- A text that is classified as read-only does not change the store or the scope where the store is at hand for writing,
and it has the same result where the store is at hand for reading, which is never the error of `store_mut`. -/
theorem read_only_query [QueryCrates] {src : Bytes} (h : classify src = .ok .readOnly) (clocks : ClockOracle)
    (encode : List Bytes → Bytes) (hostId : PublicKey) (sc : Option Bytes) (c : Caller) :
    ∃ r n, evalOn clocks encode ⟨true, hostId, true⟩ src sc c = .ok (r, sc) ⟨c.world, n⟩ ∧
      evalOn clocks encode ⟨false, hostId, true⟩ src sc c = .ok (r, sc) ⟨c.world, n⟩ ∧ r ≠ .error readOnlyError := by
  obtain ⟨call, hparse, hmut⟩ := classify_eq_readOnly h
  have heval : ∀ ctx, eval encode ctx src = exec encode ctx call := by
    intro ctx
    rw [eval, hparse]
  have hlooks : Looks (exec encode ⟨true, hostId, true⟩ call) := looks_walk.exec rfl call (by simp [hmut])
  have hsame : exec encode ⟨false, hostId, true⟩ call = exec encode ⟨true, hostId, true⟩ call := exec_eq rfl rfl call hmut
  unfold evalOn
  rw [heval, heval, hsame]
  obtain ⟨r, n, hrun, hr⟩ := hlooks.interpret clocks sc c
  exact ⟨r, n, hrun, hrun, hr⟩

set_option maxRecDepth 100000 in
/-- A nested query without a scope, on an empty store. -/
theorem read_only_query_nested : letI := QueryCrates.trivial
    classify (str "before(get(\"a\"), hlc())") = .ok .readOnly ∧
      ∃ r n, evalOn ⟨fun _ => 7, fun _ => 7⟩ (fun _ => []) ⟨true, .zero, true⟩ (str "before(get(\"a\"), hlc())") none
          ⟨⟨Store.init false, Disk.empty, []⟩, 0⟩ = .ok (r, none) ⟨⟨Store.init false, Disk.empty, []⟩, n⟩ ∧
        evalOn ⟨fun _ => 7, fun _ => 7⟩ (fun _ => []) ⟨false, .zero, true⟩ (str "before(get(\"a\"), hlc())") none
          ⟨⟨Store.init false, Disk.empty, []⟩, 0⟩ = .ok (r, none) ⟨⟨Store.init false, Disk.empty, []⟩, n⟩ ∧
        r ≠ .error readOnlyError := by
  have h : letI := QueryCrates.trivial; classify (str "before(get(\"a\"), hlc())") = .ok .readOnly := by decide +kernel
  let _ := QueryCrates.trivial
  exact ⟨h, read_only_query h _ _ _ _ _⟩

end BunnyMesh
