import BunnyMesh.Query.ReadOnly
import BunnyMesh.Storage.Frame
import BunnyMesh.Storage.Runs

/-!
# What queries come to

Every function evaluates its arguments before it knows that it succeeds.  Up to the first write an evaluation only looks,
so whether it comes to a write can be read off the parsed text, the store and the scope (`Call.writes`).  A write returns
`true`, which is no string and no number, so a write in an argument is the end of the query (`Call.writesInside`).  Here
are these predicates, how an evaluation can end (`Call.Ends`), and the rules by which it does.
-/

namespace BunnyMesh

open Store Query
open Interface (Prog)

/-! ### What a query comes to -/

/-- The program of a query ends, with `P` of its result, the scope and the world. -/
def Gives [Crates] (clocks : ClockOracle) {α : Type} (x : Exec α) (sc : Option Bytes) (c : Caller)
    (P : Except QueryError α → Option Bytes → World → Prop) : Prop :=
  ∃ r sc' w n, (x.run.run sc).interpret (Access.answer clocks) c = .ok (r, sc') ⟨w, n⟩ ∧ P r sc' w

section
variable [Crates] {clocks : ClockOracle} {α β : Type} {sc : Option Bytes} {c : Caller}
  {P : Except QueryError β → Option Bytes → World → Prop}

theorem Gives.pure {b : β} (h : P (.ok b) sc c.world) : Gives clocks (Pure.pure b) sc c P :=
  ⟨.ok b, sc, c.world, c.ticks, rfl, h⟩

theorem Gives.throw {e : QueryError} (h : P (.error e) sc c.world) : Gives clocks (throw e) sc c P :=
  ⟨.error e, sc, c.world, c.ticks, rfl, h⟩

theorem Gives.bind {x : Exec α} {f : α → Exec β} {Q : Except QueryError α → Option Bytes → World → Prop}
    (hx : Gives clocks x sc c Q) (hok : ∀ a sc' w n, Q (.ok a) sc' w → Gives clocks (f a) sc' ⟨w, n⟩ P)
    (herror : ∀ e sc' w, Q (.error e) sc' w → P (.error e) sc' w) : Gives clocks (x >>= f) sc c P := by
  obtain ⟨r, sc', w, n, hrun, hQ⟩ := hx
  have hbind : ∀ next : Except QueryError α × Option Bytes → Handler (Except QueryError β × Option Bytes),
      ((x.run.run sc) >>= next).interpret (Access.answer clocks) c =
        (next (r, sc')).interpret (Access.answer clocks) ⟨w, n⟩ := by
    intro next
    rw [Prog.interpret_bind, Exec.bind_apply, hrun]
  cases r with
  | ok a =>
    obtain ⟨r', sc'', w', n', hrun', hP⟩ := hok a sc' w n hQ
    exact ⟨r', sc'', w', n', (hbind _).trans hrun', hP⟩
  | error e => exact ⟨.error e, sc', w, n, hbind _, herror e sc' w hQ⟩

theorem Gives.throw_bind {e : QueryError} {f : α → Exec β} (h : P (.error e) sc c.world) :
    Gives clocks (MonadExcept.throw e >>= f) sc c P :=
  ⟨.error e, sc, c.world, c.ticks, rfl, h⟩

theorem Gives.access_bind {o : Access α} {k : α → Exec β} {b : α} {c' : Caller} (ho : Access.answer clocks o c = .ok b c')
    (h : Gives clocks (k b) sc c' P) : Gives clocks (access o >>= k) sc c P := by
  obtain ⟨r, sc', w, n, hrun, hP⟩ := h
  refine ⟨r, sc', w, n, ?_, hP⟩
  change (Access.answer clocks o >>= fun b => ((k b).run.run sc).interpret (Access.answer clocks)) c = _
  rw [Exec.bind_apply, ho]
  exact hrun

theorem Gives.scope_bind {k : Bytes → Exec β} (hnone : sc = none → ∀ e, P (.error e) sc c.world)
    (hsome : ∀ ns, sc = some ns → Gives clocks (k ns) sc c P) : Gives clocks (scope >>= k) sc c P := by
  cases sc with
  | none => exact ⟨_, _, _, _, rfl, hnone rfl _⟩
  | some ns => exact hsome ns rfl

theorem Gives.change_bind {ctx : QueryCtx} {o : StoreOp α} {k : α → Exec β}
    (hread : ctx.write = false → ∀ e, P (.error e) sc c.world)
    (hrun : (∃ a w, o.run c.world = .ok a w ∧ (ctx.write = true → ∀ n, Gives clocks (k a) sc ⟨w, n⟩ P)) ∨
      ∃ e w, o.run c.world = .error (.err e) w ∧ (ctx.write = true → P (.error (.eval e)) sc w)) :
    Gives clocks (change ctx o >>= k) sc c P := by
  cases hwrite : ctx.write with
  | false =>
    refine Gives.bind (Q := fun r sc' w => (∃ e, r = .error e) ∧ sc' = sc ∧ w = c.world) ?_ ?_ ?_
    · rw [change, hwrite]
      exact ⟨_, _, _, _, rfl, ⟨_, rfl⟩, rfl, rfl⟩
    · rintro a sc' w n ⟨⟨_, ⟨⟩⟩, -⟩
    · rintro e sc' w ⟨-, rfl, rfl⟩
      exact hread hwrite e
  | true =>
    obtain ⟨a, w, hrun, hok⟩ | ⟨e, w, hrun, herr⟩ := hrun
    · have hanswer : Access.answer clocks (.store o) c = .ok (.ok a) ⟨w, c.ticks⟩ := by simp only [Access.answer, hrun]
      refine Gives.bind (Q := fun r sc' w' => r = .ok a ∧ sc' = sc ∧ w' = w) ?_ ?_ ?_
      · rw [change, hwrite]
        exact Gives.access_bind hanswer (Gives.pure ⟨rfl, rfl, rfl⟩)
      · rintro a' sc' w' n ⟨⟨⟩, rfl, rfl⟩
        exact hok hwrite n
      · rintro e sc' w' ⟨⟨⟩, -⟩
    · have hanswer : Access.answer clocks (.store o) c = .ok (.error e) ⟨w, c.ticks⟩ := by simp only [Access.answer, hrun]
      refine Gives.bind (Q := fun r sc' w' => r = .error (.eval e) ∧ sc' = sc ∧ w' = w) ?_ ?_ ?_
      · rw [change, hwrite]
        exact Gives.access_bind hanswer (Gives.throw ⟨rfl, rfl, rfl⟩)
      · rintro a sc' w' n ⟨⟨⟩, -⟩
      · rintro e' sc' w' ⟨⟨⟩, rfl, rfl⟩
        exact herr hwrite

end

/-! ### Writes -/

/-- The logs, the index, the tombstones, the secondary index and the metadata are the same. -/
structure Store.SameContents (s s' : Store) : Prop where
  logs : s'.logs = s.logs
  index : s'.index = s.index
  tombs : s'.tombs = s.tombs
  secIndex : s'.secIndex = s.secIndex
  metaMap : s'.metaMap = s.metaMap

theorem Store.SameContents.of_eq {s s' : Store} (h : s' = s) : s.SameContents s' := by
  subst h
  exact ⟨rfl, rfl, rfl, rfl, rfl⟩

section
variable [Crates] {w w' : World} {g : History} {ns : Bytes}

/-- A write that the store takes is in its log, and one that it refuses has changed nothing. -/
def StoreOp.Clean {α : Type} (o : StoreOp α) (w : World) (takes : Prop) : Prop :=
  (takes → ∃ a w', o.run w = .ok a w' ∧ w'.store.logs ≠ w.store.logs) ∧
    (¬ takes → ∃ e w', o.run w = .error (.err e) w' ∧ w'.store = w.store)

theorem logged_takes (h : Attached w g) {p : ConflictPolicy} (hp : w.store.policies[ns]? = some p) (r : Record)
    {act : Nat → Mem Unit} (hlogs : ∀ logs seq, Exec.Always (HasLogs logs) (act seq))
    (hact : ∀ seq log', ∃ s, act seq (w.store.setLog ns log') = .ok () s) :
    ∃ a w', logged ns r act w = .ok a w' ∧ w'.store.logs ≠ w.store.logs := by
  obtain ⟨nd, log, -, hlog, -⟩ := h.logs ns p hp
  obtain ⟨seq, s, disk, points, hrun, -⟩ := logged_apply (Q := fun _ _ => True) r hlog fun seq log' => by
    obtain ⟨s, hs⟩ := hact seq log'
    exact ⟨s, hs, trivial⟩
  refine ⟨seq, _, hrun, fun heq => ?_⟩
  have hgrown : World.headSeq ⟨s, disk, points⟩ ns = w.headSeq ns + 1 := headSeq_logged hlogs _ w rfl seq _ hrun
  rw [headSeq_of_logs heq ns] at hgrown
  omega

theorem applyLocalOp_takes (h : Attached w g) {p : ConflictPolicy} (hp : w.store.policies[ns]? = some p) {op : Op}
    (ht : isOpTag op.tag) (seq : Nat) (log : Log) : ∃ s, applyLocalOp ns op seq (w.store.setLog ns log) = .ok () s := by
  obtain ⟨s, hs, -⟩ := applyLocalOp_spec (s := w.store.setLog ns log) hp (h.shaped ns p hp) ht seq
  exact ⟨s, hs⟩

theorem clean_put (h : Attached w g) (key value : Bytes) (hlc : UInt64) (replica author : Bytes32) (expiresAt : UInt64) :
    (StoreOp.put ns key value hlc replica author expiresAt).Clean w (w.store.policies[ns]? ≠ none) := by
  constructor
  · intro hp
    obtain ⟨p, hp⟩ := Option.ne_none_iff_exists'.1 hp
    have ht : isOpTag (putRecord key value hlc replica author expiresAt).toOp.tag := by
      rcases putRecord_tag key value hlc replica author expiresAt with ⟨h, _⟩ | ⟨h, _⟩ <;>
        rw [show (putRecord key value hlc replica author expiresAt).toOp.tag = _ from h] <;> rfl
    exact logged_takes h hp _ (fun _ seq => entryBlind_hasLogs.applyLocalOp _ seq) (applyLocalOp_takes h hp ht)
  · intro hp
    have hlog := h.noLogs ns (not_not.1 hp)
    refine ⟨.notFound ns, w, ?_, rfl⟩
    simp only [StoreOp.run, put, logged, getLog, Exec.bind_apply, Exec.get_apply, hlog]
    rfl

theorem clean_delete (h : Attached w g) (key : Bytes) (hlc : UInt64) (replica author : Bytes32) :
    (StoreOp.delete ns key hlc replica author).Clean w (w.store.policies[ns]? ≠ none) := by
  constructor
  · intro hp
    obtain ⟨p, hsome⟩ := Option.ne_none_iff_exists'.1 hp
    have hlogged := logged_takes h hsome (delRecord key hlc replica author)
      (fun _ seq => entryBlind_hasLogs.applyLocalOp (delRecord key hlc replica author).toOp seq)
      (applyLocalOp_takes h hsome rfl)
    simpa only [StoreOp.run, delete, Exec.bind_ok (requirePolicy_apply hsome)] using hlogged
  · intro hp
    exact ⟨.badName ns, w, Exec.bind_error (requirePolicy_none (not_not.1 hp)), rfl⟩

theorem clean_setIndex (h : Attached w g) (value : Option Bytes) (hlc : UInt64) (replica author : Bytes32) :
    (StoreOp.setIndex ns value hlc replica author).Clean w (w.store.policies[ns]? ≠ none) := by
  constructor
  · intro hp
    obtain ⟨p, hsome⟩ := Option.ne_none_iff_exists'.1 hp
    let act : Nat → Mem Unit := fun _ => do
      setMeta (indexKey ns) value
      modify fun s => s.rebuildSecIndexNs ns
      bumpRevision
    have hact : ∀ logs seq, Exec.Always (HasLogs logs) (act seq) := by
      intro logs seq
      refine Exec.Always.bind (Exec.Always.modify fun _ h => h) fun _ => ?_
      refine Exec.Always.bind (Exec.Always.modify fun _ h => ?_) fun _ => Exec.Always.modify fun _ h => h
      exact (congrArg Store.logs (core_rebuildSecIndexNs ..)).trans h
    have hlogged := logged_takes h hsome (metaRecord tagIndex value hlc replica author) hact fun _ _ => ⟨_, rfl⟩
    simpa only [StoreOp.run, setIndex, Exec.bind_ok (requirePolicy_apply hsome)] using hlogged
  · intro hp
    exact ⟨.badName ns, w, Exec.bind_error (requirePolicy_none (not_not.1 hp)), rfl⟩

theorem clean_createNamespace (h : Running w g) (p : ConflictPolicy) :
    (StoreOp.createNamespace ns p).Clean w (validNs ns ∧ w.store.policies[ns]? = none) := by
  constructor
  · rintro ⟨hv, hp⟩
    obtain ⟨log, disk, points, hrun, -⟩ := createNamespace_spec h hv hp p
    refine ⟨(), _, hrun, fun heq => ?_⟩
    have hnone := h.noLogs ns hp
    rw [← heq] at hnone
    simp [Store.setLog, Store.bump] at hnone
  · intro hno
    obtain ⟨-, e, hrun⟩ | ⟨w', g', -, hhappens⟩ := outcome_createNamespace h ns p
    · exact ⟨e, w, hrun, rfl⟩
    · cases hhappens with
      | cons first _ =>
        cases first with
        | created hv hp _ => exact absurd ⟨hv, hp⟩ hno

end

/-! ### What can be read off -/

namespace Query

/-- What the evaluation of a query depends on. -/
structure Site where
  store : Store
  scope : Option Bytes
  write : Bool
  remote : Bool

abbrev QueryCtx.site (ctx : QueryCtx) (sc : Option Bytes) (w : World) : Site := ⟨w.store, sc, ctx.write, ctx.remote⟩

mutual

def Arg.text (q : Site) : Arg → Option Bytes
  | .str s => some s
  | .call c => c.text q

/-- Of all functions, only `get` returns a string. -/
def Call.text (q : Site) : Call → Option Bytes
  | .mk name args =>
    if Fn.ofName name = .get ∧ args.length = 1 then
      q.scope.bind fun ns => (headText q args).bind fun key => (q.store.get ns key).map latestText
    else none

def headText (q : Site) : List Arg → Option Bytes
  | [] => none
  | a :: _ => a.text q

end

def Call.isNumber (q : Site) : Call → Bool
  | .mk name args =>
    match Fn.ofName name with
    | .now | .hlc => args.length == 0
    | .clockSkew => args.length == 1 && ((headText q args).bind fun host => q.store.peerClocks[host]?).isSome
    | _ => false

def Arg.isNumber (q : Site) : Arg → Bool
  | .str s => (parseU64 s).isSome
  | .call c => c.isNumber q

def Fn.readies (q : Site) (argc : Nat) : Fn → Bool
  | .before => argc == 2
  | .clockSkew => argc == 1
  | .use | .createNs => argc == 1 && !q.remote
  | .get | .del | .scan | .getAll => argc == 1 && q.scope.isSome
  | .put => argc == 2 && q.scope.isSome
  | .indexCreate => argc != 0 && q.scope.isSome
  | .byIndex => !(argc < 2 || argc > 3) && q.scope.isSome
  | .indexDrop => q.scope.isSome
  | .now | .hlc | .indexFields | .other => false

def Fn.count (argc : Nat) : Fn → Nat
  | .byIndex => 2
  | .indexDrop => 0
  | _ => argc

/-- Does the function get from the argument what it asks for? -/
def Fn.finds (q : Site) (fn : Fn) (a : Arg) : Bool := if fn = .before then a.isNumber q else (a.text q).isSome

def Fn.takes (q : Site) (arg : Option Bytes) : Fn → Bool
  | .put | .del | .indexCreate | .indexDrop => (q.scope.bind fun ns => q.store.policies[ns]?).isSome
  | .createNs => arg.any fun ns => validNs ns && (q.store.policies[ns]?).isNone
  | _ => false

def ownWrite (q : Site) (fn : Fn) (args : List Arg) : Bool :=
  q.write && fn.readies q args.length && (args.take (fn.count args.length)).all (fn.finds q) && fn.takes q (headText q args)

mutual

/-- Does the evaluation of the argument come to a write that the store takes? -/
def Arg.writes (q : Site) : Arg → Bool
  | .str _ => false
  | .call c => c.writes q

def Call.writes (q : Site) : Call → Bool
  | .mk name args =>
    (Fn.ofName name).readies q args.length &&
      argsWrite q (Fn.ofName name) ((Fn.ofName name).count args.length) args || ownWrite q (Fn.ofName name) args

/-- The first `n` arguments, one by one as long as the function gets what it asks for. -/
def argsWrite (q : Site) (fn : Fn) : Nat → List Arg → Bool
  | 0, _ => false
  | _ + 1, [] => false
  | n + 1, a :: args => a.writes q || fn.finds q a && argsWrite q fn n args

end

/-- Does the evaluation come to a write in an argument that the store takes? -/
def Call.writesInside (q : Site) : Call → Bool
  | .mk name args =>
    (Fn.ofName name).readies q args.length && argsWrite q (Fn.ofName name) ((Fn.ofName name).count args.length) args

end Query

/-! ### How an evaluation ends -/

/-- How the evaluation of an argument ends: with what is asked for, or with an error, before or behind a write. -/
inductive ArgEnds {α : Type} (found : α → Prop) (writes : Bool) (sc : Option Bytes) (w : World) :
    Except QueryError α → Option Bytes → World → Prop where
  | found {a : α} (ha : found a) (hwrites : writes = false) : ArgEnds found writes sc w (.ok a) sc w
  | failed {e : QueryError} {sc' : Option Bytes} {w' : World} (hnone : ∀ a, ¬ found a)
      (hend : writes = false ∧ w'.store = w.store ∨ writes = true ∧ w'.store.logs ≠ w.store.logs) :
      ArgEnds found writes sc w (.error e) sc' w'

/-- The call comes to no string and to no number. -/
def Query.Call.Plain (q : Site) (c : Call) : Prop := c.text q = none ∧ c.isNumber q = false

inductive Query.Call.Ends (q : Site) (w : World) (c : Call) : Except QueryError Value → Option Bytes → World → Prop where
  | text {s : Bytes} (htext : c.text q = some s) (hnumber : c.isNumber q = false) (hwrites : c.writes q = false) :
      c.Ends q w (.ok (.str s)) q.scope w
  | number {k : UInt64} (htext : c.text q = none) (hnumber : c.isNumber q = true) (hwrites : c.writes q = false) :
      c.Ends q w (.ok (.num k)) q.scope w
  | other {v : Value} {sc' : Option Bytes} (hv : ∀ s k, v ≠ .str s ∧ v ≠ .num k) (hplain : c.Plain q)
      (hwrites : c.writes q = false) : c.Ends q w (.ok v) sc' w
  | failed {e : QueryError} {sc' : Option Bytes} {w' : World} (hplain : c.Plain q) (hwrites : c.writes q = false)
      (hstore : w'.store = w.store) : c.Ends q w (.error e) sc' w'
  | wrote {sc' : Option Bytes} {w' : World} (hplain : c.Plain q) (hwrites : c.writes q = true)
      (hinside : c.writesInside q = false) (hlogs : w'.store.logs ≠ w.store.logs) : c.Ends q w (.ok (.bool true)) sc' w'
  | inside {e : QueryError} {sc' : Option Bytes} {w' : World} (hplain : c.Plain q) (hwrites : c.writes q = true)
      (hinside : c.writesInside q = true) (hlogs : w'.store.logs ≠ w.store.logs) : c.Ends q w (.error e) sc' w'

/-- A call to evaluate, with what it is evaluated in. -/
structure Evaluation where
  clocks : ClockOracle
  ctx : QueryCtx
  scope : Option Bytes
  world : World
  name : Bytes
  args : List Arg

namespace Evaluation

section
variable (E : Evaluation)

def site : Site := E.ctx.site E.scope E.world

@[simp] theorem site_store : E.site.store = E.world.store := rfl

@[simp] theorem site_scope : E.site.scope = E.scope := rfl

@[simp] theorem site_remote : E.site.remote = E.ctx.remote := rfl

def fn : Fn := Fn.ofName E.name

def call : Call := .mk E.name E.args

def Ready : Prop := E.fn.readies E.site E.args.length = true

/-- The argument is what the function asks for, and nothing is written. -/
def Gets (a : Arg) : Prop := E.fn.finds E.site a = true ∧ a.writes E.site = false

def GetsAll : Prop := ∀ a ∈ E.args.take (E.fn.count E.args.length), E.Gets a

/-- The function makes no write of its own, whatever its arguments are. -/
def Reads : Prop := ∀ arg, E.fn.takes E.site arg = false

def Ends [Crates] (x : Exec Value) : Prop := ∀ n, Gives E.clocks x E.scope ⟨E.world, n⟩ (E.call.Ends E.site E.world)

def StrArg [AuthCrates] (encode : List Bytes → Bytes) (a : Arg) : Prop :=
  ∀ n, Gives E.clocks (strArg encode E.ctx a) E.scope ⟨E.world, n⟩
    (ArgEnds (fun s => a.text E.site = some s) (a.writes E.site) E.scope E.world)

def NumArg [AuthCrates] (encode : List Bytes → Bytes) (a : Arg) : Prop :=
  ∀ n, Gives E.clocks (numArg encode E.ctx a) E.scope ⟨E.world, n⟩
    (ArgEnds (fun _ => a.isNumber E.site = true) (a.writes E.site) E.scope E.world)

end

variable {E : Evaluation} {front back : List Arg} {a : Arg}

/-! ### What is written -/

theorem argsWrite_stop (hfront : ∀ b ∈ front, E.Gets b) (ha : E.fn.finds E.site a = false) {n : Nat}
    (hn : front.length < n) : argsWrite E.site E.fn n (front ++ a :: back) = a.writes E.site := by
  induction front generalizing n with
  | nil =>
    obtain ⟨m, rfl⟩ : ∃ m, n = m + 1 := ⟨n - 1, by simp at hn; omega⟩
    rw [List.nil_append, argsWrite, ha, Bool.false_and, Bool.or_false]
  | cons b front ih =>
    obtain ⟨hb, hfront⟩ := List.forall_mem_cons.1 hfront
    obtain ⟨m, rfl⟩ : ∃ m, n = m + 1 := ⟨n - 1, by simp at hn; omega⟩
    rw [List.cons_append, argsWrite, hb.1, hb.2, Bool.true_and, Bool.false_or, ih hfront (by simpa using hn)]

theorem argsWrite_all {args : List Arg} {n : Nat} (h : ∀ b ∈ args.take n, E.Gets b) :
    argsWrite E.site E.fn n args = false := by
  induction args generalizing n with
  | nil => cases n <;> rfl
  | cons b args ih =>
    cases n with
    | zero => rfl
    | succ n =>
      obtain ⟨hb, hrest⟩ := List.forall_mem_cons.1 h
      rw [argsWrite, hb.1, hb.2, Bool.true_and, Bool.false_or, ih hrest]

theorem plain (h : E.fn ≠ .get ∧ E.fn ≠ .now ∧ E.fn ≠ .hlc ∧ E.fn ≠ .clockSkew) : E.call.Plain E.site := by
  unfold fn at h
  constructor
  · rw [call, Call.text, if_neg (fun hget => h.1 hget.1)]
  · rw [call, Call.isNumber]
    cases hfn : Fn.ofName E.name <;> simp_all

variable {sc' : Option Bytes}

theorem unready (hready : ¬ E.Ready) (hplain : E.call.Plain E.site) {e : QueryError} :
    E.call.Ends E.site E.world (.error e) sc' E.world := by
  refine .failed hplain ?_ rfl
  have hno : (Fn.ofName E.name).readies E.site E.args.length = false := Bool.eq_false_iff.2 hready
  rw [call, Call.writes, ownWrite, hno]
  simp

theorem ends_arg (hargs : E.args = front ++ a :: back) (hready : E.Ready) (hcount : front.length < E.fn.count E.args.length)
    (hfront : ∀ b ∈ front, E.Gets b) (ha : E.fn.finds E.site a = false) (hplain : E.call.Plain E.site) {e : QueryError}
    {w : World} (hend : a.writes E.site = false ∧ w.store = E.world.store ∨
      a.writes E.site = true ∧ w.store.logs ≠ E.world.store.logs) : E.call.Ends E.site E.world (.error e) sc' w := by
  have hwrite : argsWrite E.site E.fn (E.fn.count E.args.length) E.args = a.writes E.site := by
    conv => lhs; rw [hargs]
    exact argsWrite_stop hfront ha (hargs ▸ hcount)
  have hown : ownWrite E.site E.fn E.args = false := by
    have hmem : a ∈ E.args.take (E.fn.count E.args.length) := by
      rw [List.mem_take_iff_getElem]
      refine ⟨front.length, ?_, ?_⟩
      · rw [Nat.lt_min]
        exact ⟨hcount, by rw [hargs]; simp⟩
      · simp [hargs]
    rw [ownWrite, Bool.and_eq_false_iff, Bool.and_eq_false_iff]
    refine .inl (.inr ?_)
    rw [List.all_eq_false]
    exact ⟨a, hmem, by simp [ha]⟩
  have hinside : E.call.writesInside E.site = a.writes E.site := by
    rw [← hwrite]
    exact (congrArg (· && _) hready).trans (Bool.true_and _)
  have hwrites : E.call.writes E.site = a.writes E.site := by
    refine (congrArg₂ (· || ·) hinside hown).trans (Bool.or_false _)
  rcases hend with ⟨hno, hstore⟩ | ⟨hyes, hlogs⟩
  · exact .failed hplain (hwrites.trans hno) hstore
  · exact .inside hplain (hwrites.trans hyes) (hinside.trans hyes) hlogs

theorem writes_of_gets (hready : E.Ready) (h : E.GetsAll) : E.call.writesInside E.site = false ∧
    E.call.writes E.site = (E.ctx.write && E.fn.takes E.site (headText E.site E.args)) := by
  have hinside : E.call.writesInside E.site = false :=
    (congrArg (_ && ·) (argsWrite_all h)).trans (Bool.and_false _)
  have hall : (E.args.take (E.fn.count E.args.length)).all (E.fn.finds E.site) = true :=
    List.all_eq_true.2 fun b hb => (h b hb).1
  refine ⟨hinside, (congrArg (· || ownWrite E.site E.fn E.args) hinside).trans ?_⟩
  rw [Bool.false_or, ownWrite, hready, hall, Bool.and_true, Bool.and_true]
  rfl

theorem looked (hready : E.Ready) (hgets : E.GetsAll) (hreads : E.Reads) (hplain : E.call.Plain E.site) {v : Value}
    (hv : ∀ s k, v ≠ .str s ∧ v ≠ .num k) : E.call.Ends E.site E.world (.ok v) sc' E.world := by
  refine .other hv hplain ?_
  rw [(writes_of_gets hready hgets).2, hreads, Bool.and_false]

/-! ### Steps -/

section
variable [Crates]

theorem Ends.check {p : Prop} [Decidable p] {e : QueryError} {k : PUnit → Exec Value}
    (hno : ¬ p → ¬ E.Ready ∧ E.call.Plain E.site) (hyes : p → E.Ends (k ⟨⟩)) :
    E.Ends ((if p then Pure.pure ⟨⟩ else MonadExcept.throw e : Exec PUnit) >>= k) := by
  intro n
  by_cases hp : p
  · rw [if_pos hp]
    exact hyes hp n
  · rw [if_neg hp]
    exact Gives.throw_bind (unready (hno hp).1 (hno hp).2)

theorem Ends.scope_bind {k : Bytes → Exec Value} (hno : E.scope = none → ¬ E.Ready ∧ E.call.Plain E.site)
    (hyes : ∀ ns, E.scope = some ns → E.Ends (k ns)) : E.Ends (Query.scope >>= k) :=
  fun n => Gives.scope_bind (fun hnone _ => unready (hno hnone).1 (hno hnone).2) fun ns hns => hyes ns hns n

variable {α : Type}

theorem Ends.read_bind {f : Store → α} {k : α → Exec Value} (h : E.Ends (k (f E.world.store))) :
    E.Ends (readStore f >>= k) :=
  fun n => Gives.access_bind rfl (h n)

theorem Ends.draw_bind {b : Bool} {k : UInt64 → Exec Value} (h : ∀ hlc, E.Ends (k hlc)) :
    E.Ends (access (.draw b) >>= k) :=
  fun _ => Gives.access_bind rfl (h _ _)

theorem Ends.arg_bind {x : Exec α} {f : α → Exec Value} {found : α → Prop} (front : List Arg)
    (hargs : E.args = front ++ a :: back) (hready : E.Ready) (hcount : front.length < E.fn.count E.args.length)
    (hfront : ∀ b ∈ front, E.Gets b)
    (hx : ∀ n, Gives E.clocks x E.scope ⟨E.world, n⟩ (ArgEnds found (a.writes E.site) E.scope E.world))
    (hfinds : E.fn.finds E.site a = true ↔ ∃ v, found v)
    (hplain : E.fn.finds E.site a = false → E.call.Plain E.site) (hk : ∀ v, found v → E.Gets a → E.Ends (f v)) :
    E.Ends (x >>= f) := by
  intro n
  refine (hx n).bind ?_ ?_
  · intro v sc' w' n' hv
    cases hv with
    | found hv hwrites => exact hk v hv ⟨hfinds.2 ⟨v, hv⟩, hwrites⟩ n'
  · intro e sc' w' he
    cases he with
    | failed hnone hend =>
      have hno : E.fn.finds E.site a = false := Bool.eq_false_iff.2 fun hyes => (hfinds.1 hyes).elim hnone
      exact ends_arg hargs hready hcount hfront hno (hplain hno) hend

theorem Ends.change {o : StoreOp α} {takes : Prop} (hclean : o.Clean E.world takes) (hready : E.Ready)
    (hgets : E.GetsAll) (htakes : E.fn.takes E.site (headText E.site E.args) = true ↔ takes)
    (hplain : E.call.Plain E.site) : E.Ends (change E.ctx o >>= fun _ => Pure.pure (.bool true)) := by
  intro n
  obtain ⟨hinside, hwrites⟩ := writes_of_gets hready hgets
  refine Gives.change_bind ?_ ?_
  · intro hwrite e
    refine .failed hplain ?_ rfl
    rw [hwrites, hwrite, Bool.false_and]
  · by_cases ht : takes
    · obtain ⟨a, w', hrun, hlogs⟩ := hclean.1 ht
      refine .inl ⟨a, w', hrun, fun hwrite n' => Gives.pure (.wrote hplain ?_ hinside hlogs)⟩
      rw [hwrites, hwrite, htakes.2 ht]
      rfl
    · obtain ⟨e, w', hrun, hstore⟩ := hclean.2 ht
      refine .inr ⟨e, w', hrun, fun _ => .failed hplain ?_ hstore⟩
      rw [hwrites, Bool.and_eq_false_iff]
      exact .inr (Bool.eq_false_iff.2 fun hyes => ht (htakes.1 hyes))

end

/-! ### String arguments -/

section
variable [AuthCrates] {encode : List Bytes → Bytes}

omit [AuthCrates] in
theorem finds_text (hfn : E.fn ≠ .before) : E.fn.finds E.site a = true ↔ ∃ s, a.text E.site = some s := by
  rw [Fn.finds, if_neg hfn, Option.isSome_iff_exists]

theorem Ends.strArg_bind {f : Bytes → Exec Value} (hargs : E.args = [a]) (hready : E.Ready) (hcount : E.fn.count 1 = 1)
    (hbefore : E.fn ≠ .before) (ha : ∀ a ∈ E.args, E.StrArg encode a)
    (hplain : a.text E.site = none → E.call.Plain E.site)
    (hk : ∀ s, a.text E.site = some s → E.GetsAll → E.Ends (f s)) :
    E.Ends (strArgAt encode E.ctx E.args 0 >>= f) := by
  rw [hargs, strArgAt]
  refine Ends.arg_bind [] hargs hready ?_ (by simp) (ha a (by simp [hargs])) (finds_text hbefore) ?_ ?_
  · simp [hargs, hcount]
  · intro hno
    refine hplain (Option.eq_none_iff_forall_ne_some.2 fun s hs => ?_)
    rw [(finds_text hbefore).2 ⟨s, hs⟩] at hno
    cases hno
  · intro s hs hgets
    refine hk s hs ?_
    rw [GetsAll, hargs]
    simpa [hcount] using hgets

theorem Ends.strArgs_bind {b : Arg} {rest : List Arg} {f : Bytes → Bytes → Exec Value} (hargs : E.args = a :: b :: rest)
    (hready : E.Ready) (hcount : E.fn.count E.args.length = 2) (hbefore : E.fn ≠ .before)
    (ha : ∀ a ∈ E.args, E.StrArg encode a) (hplain : E.call.Plain E.site) (hk : ∀ s t, E.GetsAll → E.Ends (f s t)) :
    E.Ends (do
      let s ← strArgAt encode E.ctx E.args 0
      let t ← strArgAt encode E.ctx E.args 1
      f s t) := by
  rw [hargs, strArgAt, strArgAt, strArgAt]
  refine Ends.arg_bind [] hargs hready (by rw [hcount]; simp) (by simp) (ha a (by simp [hargs])) (finds_text hbefore)
    (fun _ => hplain) fun s _ hfirst => ?_
  refine Ends.arg_bind [a] hargs hready (by rw [hcount]; simp) (by simpa using hfirst) (ha b (by simp [hargs]))
    (finds_text hbefore) (fun _ => hplain) fun t _ hsecond => ?_
  refine hk s t ?_
  rw [GetsAll, hcount, hargs]
  simpa using ⟨hfirst, hsecond⟩

/-- How the evaluation of all arguments ends. -/
inductive ArgsEnd (E : Evaluation) (args : List Arg) : Except QueryError (List Bytes) → Option Bytes → World → Prop where
  | all {l : List Bytes} (h : ∀ a ∈ args, E.Gets a) : ArgsEnd E args (.ok l) E.scope E.world
  | stop (front : List Arg) {back : List Arg} {a : Arg} {e : QueryError} {sc' : Option Bytes} {w : World}
      (hargs : args = front ++ a :: back) (hfront : ∀ b ∈ front, E.Gets b) (ha : E.fn.finds E.site a = false)
      (hend : a.writes E.site = false ∧ w.store = E.world.store ∨ a.writes E.site = true ∧ w.store.logs ≠ E.world.store.logs) :
      ArgsEnd E args (.error e) sc' w

theorem strArgs_end (hbefore : E.fn ≠ .before) (args : List Arg) (h : ∀ a ∈ args, E.StrArg encode a) (n : Nat) :
    Gives E.clocks (strArgs encode E.ctx args) E.scope ⟨E.world, n⟩ (E.ArgsEnd args) := by
  induction args generalizing n with
  | nil =>
    exact Gives.pure (.all (by simp))
  | cons a args ih =>
    obtain ⟨ha, hargs⟩ := List.forall_mem_cons.1 h
    refine (ha n).bind ?_ ?_
    · intro s sc' w' n' hs
      cases hs with
      | found hs hwrites =>
        have hgets : E.Gets a := ⟨(finds_text hbefore).2 ⟨s, hs⟩, hwrites⟩
        refine (ih hargs n').bind ?_ ?_
        · intro l sc' w' n'' hl
          cases hl with
          | all hl => exact Gives.pure (.all (List.forall_mem_cons.2 ⟨hgets, hl⟩))
        · intro e sc' w' he
          cases he with
          | stop front hsplit hfront hstop hend =>
            exact .stop (a :: front) (congrArg (a :: ·) hsplit) (List.forall_mem_cons.2 ⟨hgets, hfront⟩) hstop hend
    · intro e sc' w' he
      cases he with
      | failed hnone hend =>
        exact .stop [] rfl (by simp) (Bool.eq_false_iff.2 fun hyes => ((finds_text hbefore).1 hyes).elim hnone) hend

end

end Evaluation

end BunnyMesh
