import BunnyMesh.Query.Outcomes

/-!
# Queries that fail

What a write in an argument has written stays when the query then fails.  Nothing else makes a failing query change the
store: a failing query leaves the store alone exactly if its evaluation does not come to a write in an argument that the
store takes (`failing_query_unchanged_iff`).  The proof goes over the functions, and from them to calls in calls.
-/

namespace BunnyMesh

open Store Query
open Runs (Run guarded)

namespace Evaluation

variable [AuthCrates] {encode : List Bytes → Bytes} {E : Evaluation} {g : History}

/-! ### The functions -/

def FnEnds (encode : List Bytes → Bytes) (E : Evaluation) : Prop :=
  E.Ends (execFn encode E.ctx E.name (strArgAt encode E.ctx E.args) (numArgAt encode E.ctx E.args)
    (strArgs encode E.ctx E.args) E.args.length)

omit [AuthCrates] in
theorem takes_isSome {q : Site} {ns : Bytes} (hns : q.scope = some ns) :
    (q.scope.bind fun ns => q.store.policies[ns]?).isSome = true ↔ q.store.policies[ns]? ≠ none := by
  rw [hns, Option.bind_some, Option.isSome_iff_ne_none]

theorem ends_now (hfn : E.fn = .now ∨ E.fn = .hlc) : E.FnEnds encode := by
  have htext : E.call.text E.site = none := by
    rw [call, Call.text, if_neg]
    rintro ⟨hget, -⟩
    rcases hfn with hfn | hfn <;> exact absurd (hfn.symm.trans hget) (by decide)
  have hready : ¬ E.Ready := by rcases hfn with hfn | hfn <;> simp [Ready, hfn, Fn.readies]
  have hnumber : E.call.isNumber E.site = (E.args.length == 0) := by
    unfold fn at hfn
    rw [call, Call.isNumber]
    rcases hfn with hfn | hfn <;> rw [hfn]
  have hno : ¬ E.args.length = 0 → ¬ E.Ready ∧ E.call.Plain E.site :=
    fun hargc => ⟨hready, htext, by rw [hnumber, beq_false_of_ne hargc]⟩
  have hyes : ∀ k, E.args.length = 0 → E.call.Ends E.site E.world (.ok (.num k)) E.scope E.world := by
    intro k hargc
    refine .number htext (by rw [hnumber, hargc]; rfl) ?_
    have hunready : (Fn.ofName E.name).readies E.site E.args.length = false := Bool.eq_false_iff.2 hready
    rw [call, Call.writes, ownWrite, hunready]
    simp
  unfold FnEnds execFn
  rcases hfn with hfn | hfn
  all_goals
    rw [show Fn.ofName E.name = _ from hfn]
    exact Ends.check hno fun hargc => Ends.draw_bind fun _ _ => Gives.pure (hyes _ hargc)

theorem ends_before (hfn : E.fn = .before) (hnum : ∀ a ∈ E.args, E.NumArg encode a) : E.FnEnds encode := by
  have hplain : E.call.Plain E.site := plain (by rw [hfn]; decide)
  unfold FnEnds execFn
  rw [show Fn.ofName E.name = _ from hfn]
  refine Ends.check (fun hargc => ⟨by simp [Ready, hfn, Fn.readies, hargc], hplain⟩) fun hargc => ?_
  obtain ⟨a, b, hargs⟩ := List.length_eq_two.1 hargc
  have hready : E.Ready := by simp [Ready, hfn, Fn.readies, hargc]
  have hcount : E.fn.count E.args.length = 2 := by rw [hfn, hargc]; rfl
  have hfinds : ∀ a : Arg, E.fn.finds E.site a = true ↔ ∃ _ : UInt64, a.isNumber E.site = true := by
    intro a
    rw [hfn, Fn.finds, if_pos rfl]
    exact ⟨fun h => ⟨0, h⟩, fun h => h.choose_spec⟩
  rw [hargs, numArgAt, numArgAt, numArgAt]
  refine Ends.arg_bind [] hargs hready (by rw [hcount]; simp) (by simp) (hnum a (by simp [hargs])) (hfinds a)
    (fun _ => hplain) fun x _ ha => ?_
  refine Ends.arg_bind [a] hargs hready (by rw [hcount]; simp) (by simpa using ha) (hnum b (by simp [hargs])) (hfinds b)
    (fun _ => hplain) fun y _ hb n => ?_
  refine Gives.pure (looked hready ?_ (fun _ => by rw [hfn]; rfl) hplain (by simp))
  rw [GetsAll, hcount, hargs]
  simpa using ⟨ha, hb⟩

theorem ends_clockSkew (hfn : E.fn = .clockSkew) (hstr : ∀ a ∈ E.args, E.StrArg encode a) : E.FnEnds encode := by
  have hname : Fn.ofName E.name = .clockSkew := hfn
  have htext : E.call.text E.site = none := by simp [call, Call.text, hname]
  have hreads : E.Reads := fun _ => by rw [hfn]; rfl
  unfold FnEnds execFn
  rw [hname]
  refine Ends.check (fun hargc => ⟨by simp [Ready, hfn, Fn.readies, hargc], htext, ?_⟩) fun hargc => ?_
  · simp [call, Call.isNumber, hname, hargc]
  obtain ⟨a, hargs⟩ := List.length_eq_one_iff.1 hargc
  have hready : E.Ready := by simp [Ready, hfn, Fn.readies, hargc]
  refine Ends.strArg_bind hargs hready (by rw [hfn]; rfl) (by simp [hfn]) hstr ?_ fun host hhost hgets => ?_
  · intro hnone
    exact ⟨htext, by simp [call, Call.isNumber, hname, hargs, headText, hnone]⟩
  refine Ends.read_bind fun n => ?_
  have hnumber : E.call.isNumber E.site = (E.world.store.peerClocks[host]?).isSome := by
    simp [call, Call.isNumber, hname, hargs, headText, hhost]
  cases hdiff : E.world.store.peerClocks[host]? with
  | some diff =>
    refine Gives.pure (.number htext (by rw [hnumber, hdiff]; rfl) ?_)
    rw [(writes_of_gets hready hgets).2, hreads, Bool.and_false]
  | none => exact Gives.pure (looked hready hgets hreads ⟨htext, by rw [hnumber, hdiff]; rfl⟩ (by simp))

theorem Ends.local_bind {e : QueryError} {k : Bytes → Exec Value} (hfn : E.fn = .use ∨ E.fn = .createNs)
    (hstr : ∀ a ∈ E.args, E.StrArg encode a)
    (hk : ∀ ns, headText E.site E.args = some ns → E.Ready → E.GetsAll → E.call.Plain E.site → E.Ends (k ns)) :
    E.Ends (do
      (if E.args.length = 1 then Pure.pure ⟨⟩ else MonadExcept.throw (argcError E.name 1 E.args.length) : Exec PUnit)
      if E.ctx.remote then MonadExcept.throw e
      let ns ← strArgAt encode E.ctx E.args 0
      k ns) := by
  have hplain : E.call.Plain E.site := plain (by rcases hfn with hfn | hfn <;> rw [hfn] <;> decide)
  have hiff : E.Ready ↔ E.args.length = 1 ∧ E.ctx.remote = false := by
    rcases hfn with hfn | hfn <;> simp [Ready, hfn, Fn.readies]
  refine Ends.check (fun hargc => ⟨fun h => hargc (hiff.1 h).1, hplain⟩) fun hargc n => ?_
  obtain ⟨a, hargs⟩ := List.length_eq_one_iff.1 hargc
  cases hremote : E.ctx.remote with
  | true => exact Gives.throw_bind (unready (by simp [hiff, hremote]) hplain)
  | false =>
    have hready : E.Ready := hiff.2 ⟨hargc, hremote⟩
    refine Ends.strArg_bind hargs hready ?_ ?_ hstr (fun _ => hplain) (fun ns hns hgets => ?_) n
    · rcases hfn with hfn | hfn <;> rw [hfn] <;> rfl
    · rcases hfn with hfn | hfn <;> simp [hfn]
    · exact hk ns (by rw [hargs, headText, hns]) hready hgets hplain

theorem ends_use (hfn : E.fn = .use) (hstr : ∀ a ∈ E.args, E.StrArg encode a) : E.FnEnds encode := by
  unfold FnEnds execFn
  rw [show Fn.ofName E.name = _ from hfn]
  refine Ends.local_bind (.inl hfn) hstr fun ns _ hready hgets hplain => Ends.read_bind fun n => ?_
  have hreads : E.Reads := fun _ => by rw [hfn]; rfl
  cases E.world.store.policy ns with
  | none =>
    refine Gives.throw_bind (.failed hplain ?_ rfl)
    rw [(writes_of_gets hready hgets).2, hreads, Bool.and_false]
  | some p => exact ⟨_, _, _, _, rfl, looked hready hgets hreads hplain (by simp)⟩

theorem ends_createNs (h : Running E.world g) (hfn : E.fn = .createNs) (hstr : ∀ a ∈ E.args, E.StrArg encode a) :
    E.FnEnds encode := by
  unfold FnEnds execFn
  rw [show Fn.ofName E.name = _ from hfn]
  refine Ends.local_bind (.inr hfn) hstr fun ns hns hready hgets hplain => ?_
  refine Ends.change (clean_createNamespace h .lww) hready hgets ?_ hplain
  rw [hfn, hns, Fn.takes]
  simp

theorem Ends.key_bind {k : Bytes → Bytes → Exec Value}
    (hfn : E.fn = .get ∨ E.fn = .del ∨ E.fn = .scan ∨ E.fn = .getAll) (hstr : ∀ a ∈ E.args, E.StrArg encode a)
    (hplain : E.args.length ≠ 1 ∨ E.scope = none ∨ headText E.site E.args = none → E.call.Plain E.site)
    (hk : ∀ ns key, E.scope = some ns → headText E.site E.args = some key → E.args.length = 1 → E.Ready → E.GetsAll →
      E.Ends (k ns key)) :
    E.Ends (do
      (if E.args.length = 1 then Pure.pure ⟨⟩ else MonadExcept.throw (argcError E.name 1 E.args.length) : Exec PUnit)
      let ns ← Query.scope
      let key ← strArgAt encode E.ctx E.args 0
      k ns key) := by
  have hiff : E.Ready ↔ E.args.length = 1 ∧ E.scope.isSome = true := by
    rcases hfn with hfn | hfn | hfn | hfn <;> simp [Ready, hfn, Fn.readies]
  refine Ends.check (fun hargc => ⟨fun h => hargc (hiff.1 h).1, hplain (.inl hargc)⟩) fun hargc => ?_
  refine Ends.scope_bind (fun hnone => ⟨by simp [hiff, hnone], hplain (.inr (.inl hnone))⟩) fun ns hns => ?_
  obtain ⟨a, hargs⟩ := List.length_eq_one_iff.1 hargc
  have hready : E.Ready := hiff.2 ⟨hargc, by rw [hns]; rfl⟩
  refine Ends.strArg_bind hargs hready ?_ ?_ hstr (fun hnone => ?_) fun key hkey hgets => ?_
  · rcases hfn with hfn | hfn | hfn | hfn <;> rw [hfn] <;> rfl
  · rcases hfn with hfn | hfn | hfn | hfn <;> simp [hfn]
  · exact hplain (.inr (.inr (by rw [hargs, headText, hnone])))
  · exact hk ns key hns (by rw [hargs, headText, hkey]) hargc hready hgets

theorem ends_get (hfn : E.fn = .get) (hstr : ∀ a ∈ E.args, E.StrArg encode a) : E.FnEnds encode := by
  have hname : Fn.ofName E.name = .get := hfn
  have hnumber : E.call.isNumber E.site = false := by simp [call, Call.isNumber, hname]
  have hreads : E.Reads := fun _ => by rw [hfn]; rfl
  unfold FnEnds execFn
  rw [hname]
  refine Ends.key_bind (.inl hfn) hstr (fun h => ⟨?_, hnumber⟩) fun ns key hns hkey hargc hready hgets => ?_
  · rcases h with h | h | h <;> simp [call, Call.text, h]
  · have htext : E.call.text E.site = (E.world.store.get ns key).map latestText := by
      simp [call, Call.text, hname, hargc, hkey, hns]
    refine Ends.read_bind fun n => ?_
    cases he : E.world.store.get ns key with
    | none => exact Gives.pure (looked hready hgets hreads ⟨by rw [htext, he]; rfl, hnumber⟩ (by simp))
    | some e =>
      refine Gives.pure (.text (by rw [htext, he]; rfl) hnumber ?_)
      rw [(writes_of_gets hready hgets).2, hreads, Bool.and_false]

theorem ends_scan (hfn : E.fn = .scan ∨ E.fn = .getAll) (hstr : ∀ a ∈ E.args, E.StrArg encode a) : E.FnEnds encode := by
  have hplain : E.call.Plain E.site := plain (by rcases hfn with hfn | hfn <;> rw [hfn] <;> decide)
  have hreads : E.Reads := by
    intro arg
    rcases hfn with hfn | hfn <;> rw [hfn] <;> rfl
  unfold FnEnds execFn
  rcases hfn with hfn | hfn
  · rw [show Fn.ofName E.name = _ from hfn]
    refine Ends.key_bind (.inr (.inr (.inl hfn))) hstr (fun _ => hplain) fun ns key _ _ _ hready hgets => ?_
    exact Ends.read_bind fun n => Gives.pure (looked hready hgets hreads hplain (by simp))
  · rw [show Fn.ofName E.name = _ from hfn]
    refine Ends.key_bind (.inr (.inr (.inr hfn))) hstr (fun _ => hplain) fun ns key _ _ _ hready hgets => ?_
    refine Ends.read_bind fun n => ?_
    rcases E.world.store.get ns key with _ | _ | _
    all_goals exact Gives.pure (looked hready hgets hreads hplain (by simp))

theorem ends_put (h : Attached E.world g) (hfn : E.fn = .put) (hstr : ∀ a ∈ E.args, E.StrArg encode a) :
    E.FnEnds encode := by
  have hplain : E.call.Plain E.site := plain (by rw [hfn]; decide)
  have hiff : E.Ready ↔ E.args.length = 2 ∧ E.scope.isSome = true := by simp [Ready, hfn, Fn.readies]
  unfold FnEnds execFn
  rw [show Fn.ofName E.name = _ from hfn]
  refine Ends.check (fun hargc => ⟨fun h => hargc (hiff.1 h).1, hplain⟩) fun hargc => ?_
  refine Ends.scope_bind (fun hnone => ⟨by simp [hiff, hnone], hplain⟩) fun ns hns => ?_
  obtain ⟨a, b, hargs⟩ := List.length_eq_two.1 hargc
  have hready : E.Ready := hiff.2 ⟨hargc, by rw [hns]; rfl⟩
  refine Ends.strArgs_bind hargs hready (by rw [hfn, hargc]; rfl) (by simp [hfn]) hstr hplain fun key val hgets => ?_
  refine Ends.draw_bind fun hlc => Ends.change (clean_put h ..) hready hgets ?_ hplain
  rw [hfn]
  exact takes_isSome hns

theorem ends_del (h : Attached E.world g) (hfn : E.fn = .del) (hstr : ∀ a ∈ E.args, E.StrArg encode a) :
    E.FnEnds encode := by
  have hplain : E.call.Plain E.site := plain (by rw [hfn]; decide)
  unfold FnEnds execFn
  rw [show Fn.ofName E.name = _ from hfn]
  refine Ends.key_bind (.inr (.inl hfn)) hstr (fun _ => hplain) fun ns key hns _ _ hready hgets => ?_
  refine Ends.draw_bind fun hlc => Ends.change (clean_delete h ..) hready hgets ?_ hplain
  rw [hfn]
  exact takes_isSome hns

theorem ends_indexCreate (h : Attached E.world g) (hfn : E.fn = .indexCreate) (hstr : ∀ a ∈ E.args, E.StrArg encode a) :
    E.FnEnds encode := by
  have hplain : E.call.Plain E.site := plain (by rw [hfn]; decide)
  have hcount : E.fn.count E.args.length = E.args.length := by rw [hfn]; rfl
  have hiff : E.Ready ↔ E.args.length ≠ 0 ∧ E.scope.isSome = true := by simp [Ready, hfn, Fn.readies]
  unfold FnEnds execFn
  rw [show Fn.ofName E.name = _ from hfn]
  by_cases hargc : E.args.length = 0
  · rw [if_pos hargc]
    exact fun n => Gives.throw_bind (unready (by simp [hiff, hargc]) hplain)
  rw [if_neg hargc]
  refine Ends.scope_bind (fun hnone => ⟨by simp [hiff, hnone], hplain⟩) fun ns hns n => ?_
  have hready : E.Ready := hiff.2 ⟨hargc, by rw [hns]; rfl⟩
  refine (strArgs_end (by simp [hfn]) E.args hstr n).bind ?_ ?_
  · intro fields sc' w' n' hend
    cases hend with
    | all hgets =>
      refine Ends.draw_bind (fun hlc => Ends.change (clean_setIndex h ..) hready ?_ ?_ hplain) n'
      · rwa [GetsAll, hcount, List.take_length]
      · rw [hfn]
        exact takes_isSome hns
  · intro e sc' w' hend
    cases hend with
    | stop front hargs hfront ha hend =>
      refine ends_arg hargs hready ?_ hfront ha hplain hend
      rw [hcount, hargs]
      simp

theorem ends_indexFields (hfn : E.fn = .indexFields) : E.FnEnds encode := by
  have hplain : E.call.Plain E.site := plain (by rw [hfn]; decide)
  have hready : (Fn.ofName E.name).readies E.site E.args.length = false := by
    rw [show Fn.ofName E.name = _ from hfn]
    rfl
  unfold FnEnds execFn
  rw [show Fn.ofName E.name = _ from hfn]
  refine Ends.scope_bind (fun _ => ⟨Bool.eq_false_iff.1 hready, hplain⟩) fun ns hns => Ends.read_bind fun n => ?_
  refine Gives.pure (.other (by simp) hplain ?_)
  rw [call, Call.writes, ownWrite, hready]
  simp

theorem ends_indexDrop (h : Attached E.world g) (hfn : E.fn = .indexDrop) : E.FnEnds encode := by
  have hplain : E.call.Plain E.site := plain (by rw [hfn]; decide)
  have hiff : E.Ready ↔ E.scope.isSome = true := by simp [Ready, hfn, Fn.readies]
  unfold FnEnds execFn
  rw [show Fn.ofName E.name = _ from hfn]
  refine Ends.scope_bind (fun hnone => ⟨by simp [hiff, hnone], hplain⟩) fun ns hns => Ends.draw_bind fun hlc => ?_
  refine Ends.change (clean_setIndex h ..) (hiff.2 (by rw [hns]; rfl)) ?_ ?_ hplain
  · simp [GetsAll, hfn, Fn.count]
  · rw [hfn]
    exact takes_isSome hns

theorem ends_byIndex (hfn : E.fn = .byIndex) (hstr : ∀ a ∈ E.args, E.StrArg encode a) : E.FnEnds encode := by
  have hplain : E.call.Plain E.site := plain (by rw [hfn]; decide)
  unfold FnEnds execFn
  rw [show Fn.ofName E.name = _ from hfn]
  by_cases hargc : (decide (E.args.length < 2) || decide (E.args.length > 3)) = true
  · rw [if_pos hargc]
    exact fun n => Gives.throw_bind (unready (by rw [Ready, hfn, Fn.readies, hargc]; simp) hplain)
  rw [if_neg hargc]
  refine Ends.scope_bind (fun hnone => ⟨by simp [Ready, hfn, Fn.readies, hnone], hplain⟩) fun ns hns => ?_
  obtain ⟨a, b, rest, hargs⟩ : ∃ a b rest, E.args = a :: b :: rest := by
    rcases hargs : E.args with _ | ⟨a, _ | ⟨b, rest⟩⟩
    · exact absurd (by rw [hargs]; rfl) hargc
    · exact absurd (by rw [hargs]; rfl) hargc
    · exact ⟨a, b, rest, rfl⟩
  have hready : E.Ready := by
    rw [Bool.not_eq_true] at hargc
    rw [Ready, hfn, Fn.readies, hargc, site_scope, hns]
    rfl
  refine Ends.strArgs_bind hargs hready (by rw [hfn]; rfl) (by simp [hfn]) hstr hplain fun field want hgets => ?_
  exact Ends.read_bind fun n => Gives.pure (looked hready hgets (fun _ => by rw [hfn]; rfl) hplain (by simp))

theorem fn_ends (h : Running E.world g) (hstr : ∀ a ∈ E.args, E.StrArg encode a) (hnum : ∀ a ∈ E.args, E.NumArg encode a) :
    E.FnEnds encode := by
  cases hfn : E.fn with
  | now => exact ends_now (.inl hfn)
  | hlc => exact ends_now (.inr hfn)
  | before => exact ends_before hfn hnum
  | clockSkew => exact ends_clockSkew hfn hstr
  | use => exact ends_use hfn hstr
  | createNs => exact ends_createNs h hfn hstr
  | get => exact ends_get hfn hstr
  | put => exact ends_put h.toAttached hfn hstr
  | del => exact ends_del h.toAttached hfn hstr
  | scan => exact ends_scan (.inl hfn) hstr
  | getAll => exact ends_scan (.inr hfn) hstr
  | indexCreate => exact ends_indexCreate h.toAttached hfn hstr
  | indexFields => exact ends_indexFields hfn
  | indexDrop => exact ends_indexDrop h.toAttached hfn
  | byIndex => exact ends_byIndex hfn hstr
  | other =>
    unfold FnEnds execFn
    rw [show Fn.ofName E.name = _ from hfn]
    exact fun n => Gives.throw (unready (by simp [Ready, hfn, Fn.readies]) (plain (by rw [hfn]; decide)))

end Evaluation

/-! ### Calls in calls -/

section
variable [AuthCrates] {clocks : ClockOracle} {encode : List Bytes → Bytes} {ctx : QueryCtx} {w : World} {g : History}
  {sc : Option Bytes} {c : Call} {x : Exec Value} {n : Nat}

theorem Query.Call.Ends.str (q : Site) (h : Gives clocks x q.scope ⟨w, n⟩ (c.Ends q w)) :
    Gives clocks (x >>= expectStr c.name) q.scope ⟨w, n⟩ (ArgEnds (fun s => c.text q = some s) (c.writes q) q.scope w) := by
  refine h.bind ?_ ?_
  · intro v sc' w' n' hv
    cases hv with
    | text htext hnumber hwrites => exact Gives.pure (.found htext hwrites)
    | number htext hnumber hwrites => exact Gives.throw (.failed (by simp [htext]) (.inl ⟨hwrites, rfl⟩))
    | other hv hplain hwrites =>
      cases v with
      | str s => exact absurd rfl (hv s 0).1
      | _ => exact Gives.throw (.failed (by simp [hplain.1]) (.inl ⟨hwrites, rfl⟩))
    | wrote hplain hwrites hinside hlogs => exact Gives.throw (.failed (by simp [hplain.1]) (.inr ⟨hwrites, hlogs⟩))
  · intro e sc' w' he
    cases he with
    | failed hplain hwrites hstore => exact .failed (by simp [hplain.1]) (.inl ⟨hwrites, hstore⟩)
    | inside hplain hwrites hinside hlogs => exact .failed (by simp [hplain.1]) (.inr ⟨hwrites, hlogs⟩)

theorem Query.Call.Ends.num (q : Site) (h : Gives clocks x q.scope ⟨w, n⟩ (c.Ends q w)) :
    Gives clocks (x >>= expectNum c.name) q.scope ⟨w, n⟩
      (ArgEnds (fun _ => c.isNumber q = true) (c.writes q) q.scope w) := by
  refine h.bind ?_ ?_
  · intro v sc' w' n' hv
    cases hv with
    | text htext hnumber hwrites => exact Gives.throw (.failed (by simp [hnumber]) (.inl ⟨hwrites, rfl⟩))
    | number htext hnumber hwrites => exact Gives.pure (.found hnumber hwrites)
    | other hv hplain hwrites =>
      cases v with
      | num k => exact absurd rfl (hv [] k).2
      | _ => exact Gives.throw (.failed (by simp [hplain.2]) (.inl ⟨hwrites, rfl⟩))
    | wrote hplain hwrites hinside hlogs => exact Gives.throw (.failed (by simp [hplain.2]) (.inr ⟨hwrites, hlogs⟩))
  · intro e sc' w' he
    cases he with
    | failed hplain hwrites hstore => exact .failed (by simp [hplain.2]) (.inl ⟨hwrites, hstore⟩)
    | inside hplain hwrites hinside hlogs => exact .failed (by simp [hplain.2]) (.inr ⟨hwrites, hlogs⟩)

mutual

theorem exec_ends (h : Running w g) :
    ∀ (c : Call) (n : Nat), Gives clocks (exec encode ctx c) sc ⟨w, n⟩ (c.Ends (ctx.site sc w) w)
  | .mk name args, n => by
    exact Evaluation.fn_ends (E := ⟨clocks, ctx, sc, w, name, args⟩) h (fun a ha => (args_end h name args args a ha).1)
      (fun a ha => (args_end h name args args a ha).2) n

theorem arg_ends (h : Running w g) (name : Bytes) (args : List Arg) : ∀ a : Arg,
    Evaluation.StrArg ⟨clocks, ctx, sc, w, name, args⟩ encode a ∧ Evaluation.NumArg ⟨clocks, ctx, sc, w, name, args⟩ encode a
  | .str s => by
    constructor
    · intro n
      exact Gives.pure (.found rfl rfl)
    · intro n
      rw [numArg, parseNum]
      cases hs : parseU64 s with
      | some k => exact Gives.pure (.found (by rw [Arg.isNumber, hs]; rfl) rfl)
      | none => exact Gives.throw (.failed (by simp [Arg.isNumber, hs]) (.inl ⟨rfl, rfl⟩))
  | .call c => by
    constructor
    · intro n
      exact Call.Ends.str (ctx.site sc w) (exec_ends h c n)
    · intro n
      exact Call.Ends.num (ctx.site sc w) (exec_ends h c n)

theorem args_end (h : Running w g) (name : Bytes) (all : List Arg) : ∀ args : List Arg, ∀ a ∈ args,
    Evaluation.StrArg ⟨clocks, ctx, sc, w, name, all⟩ encode a ∧ Evaluation.NumArg ⟨clocks, ctx, sc, w, name, all⟩ encode a
  | [] => by simp
  | a :: args => List.forall_mem_cons.2 ⟨arg_ends h name all a, args_end h name all args⟩

end

end

/-! ### Failing queries -/

section
variable [QueryCrates] {clocks : ClockOracle} {encode : List Bytes → Bytes} {ctx : QueryCtx} {src : Bytes}
  {sc : Option Bytes} {c : Caller} {g : History}

def FailsClean (clocks : ClockOracle) (encode : List Bytes → Bytes) (ctx : QueryCtx) (src : Bytes) (sc : Option Bytes)
    (c : Caller) : Prop :=
  ∀ e sc' c', evalOn clocks encode ctx src sc c = .ok (.error e, sc') c' → c.world.store.SameContents c'.world.store

/-- Does the evaluation of the text come to a write in an argument that the store takes? -/
def Query.writesInArgs (q : Site) (src : Bytes) : Bool :=
  match parse src with
  | .ok call => call.writesInside q
  | .error _ => false

/-- A failing query leaves the store alone if and only if its evaluation does not come to a write in an argument. -/
theorem failing_query_unchanged_iff (h : Running c.world g) :
    FailsClean clocks encode ctx src sc c ↔ writesInArgs (ctx.site sc c.world) src = false := by
  unfold FailsClean evalOn eval writesInArgs
  cases Query.parse src with
  | error e =>
    refine ⟨fun _ => rfl, fun _ e' sc' c' hrun => ?_⟩
    cases hrun
    exact .of_eq rfl
  | ok call =>
    dsimp only
    have hexec : Gives clocks (exec encode ctx call) sc c (call.Ends (ctx.site sc c.world) c.world) :=
      exec_ends h call c.ticks
    obtain ⟨r, sc₁, w, n, hrun, hends⟩ := hexec
    constructor
    · intro hclean
      rw [Bool.eq_false_iff]
      intro hinside
      have hwrites : call.writes (ctx.site sc c.world) = true := by
        cases call with
        | mk name args => exact Bool.or_eq_true_iff.2 (.inl hinside)
      cases hends with
      | text _ _ hno | number _ _ hno | other _ _ hno | failed _ hno =>
        rw [hwrites] at hno
        cases hno
      | wrote _ _ hno =>
        rw [hinside] at hno
        cases hno
      | inside _ _ _ hlogs => exact hlogs (hclean _ _ _ hrun).logs
    · intro hno e sc' c' hrun'
      cases hrun.symm.trans hrun'
      cases hends with
      | failed _ _ hstore => exact .of_eq hstore
      | inside _ _ hinside =>
        rw [hinside] at hno
        cases hno

end

/-! ### A failing query that writes -/

def getOfPut : Bytes := str "get(put(\"k\", \"v\"))"

def FailsAndWrites [QueryCrates] (w : World) : Bool :=
  match evalOn ⟨fun _ => 7, fun _ => 7⟩ (fun _ => []) ⟨true, .zero, true⟩ getOfPut (some [97]) ⟨w, 0⟩ with
  | .ok (.error _, _) c' => (w.store.get [97] (str "k")).isNone && (c'.world.store.get [97] (str "k")).isSome
  | _ => false

theorem FailsAndWrites.not_clean [QueryCrates] {w : World} (h : FailsAndWrites w = true) :
    ¬ FailsClean ⟨fun _ => 7, fun _ => 7⟩ (fun _ => []) ⟨true, .zero, true⟩ getOfPut (some [97]) ⟨w, 0⟩ := by
  intro hclean
  unfold FailsAndWrites at h
  split at h
  · rename_i e sc' c' hrun
    have hsame : c'.world.store.get [97] (str "k") = w.store.get [97] (str "k") := by
      unfold Store.get
      rw [(hclean e sc' c' hrun).index, (hclean e sc' c' hrun).tombs]
    rw [hsame, Bool.and_eq_true, Option.isNone_iff_eq_none] at h
    rw [h.1] at h
    exact absurd h.2 nofun
  · cases h

set_option maxRecDepth 100000 in
/-- `get(put("k", "v"))` fails and has written. -/
theorem get_of_put_writes : letI := QueryCrates.trivial
    ∃ w₀ w, Opened w₀ ∧ Run (guarded (fun w c => c.Valid w.store) Step) w₀ [.createNamespace [97] .lww] w ∧
      ¬ FailsClean ⟨fun _ => 7, fun _ => 7⟩ (fun _ => []) ⟨true, .zero, true⟩ getOfPut (some [97]) ⟨w, 0⟩ := by
  have h : letI := QueryCrates.trivial
      ((freshRun (fun w c => c.Valid w.store) [.createNamespace [97] .lww]).any FailsAndWrites) = true := by
    decide +kernel
  let _ := QueryCrates.trivial
  obtain ⟨w, hw, hfails⟩ := (Option.any_eq_true ..).1 h
  obtain ⟨w₀, h₀, hrun⟩ := freshRun_sound hw
  exact ⟨w₀, w, h₀, hrun, FailsAndWrites.not_clean hfails⟩

def putNow : Bytes := str "put(\"k\", now())"

set_option maxRecDepth 100000 in
/-- `put("k", now())` fails, and it has not written. -/
theorem failing_query_unchanged_iff_now : letI := QueryCrates.trivial
    ∃ w g, Running w g ∧
      FailsClean ⟨fun _ => 7, fun _ => 7⟩ (fun _ => []) ⟨true, .zero, true⟩ putNow (some [97]) ⟨w, 0⟩ := by
  have h : letI := QueryCrates.trivial
      ((freshRun (fun w c => c.Valid w.store) [.createNamespace [97] .lww]).any fun w =>
        !writesInArgs (QueryCtx.site ⟨true, .zero, true⟩ (some [97]) w) putNow) = true := by
    decide +kernel
  let _ := QueryCrates.trivial
  obtain ⟨w, hw, hno⟩ := (Option.any_eq_true ..).1 h
  obtain ⟨w₀, h₀, hrun⟩ := freshRun_sound hw
  obtain ⟨g, hs⟩ := h₀.run_sound (fun _ _ hc => hc) hrun
  exact ⟨w, g, hs.running, (failing_query_unchanged_iff hs.running).2 (by simpa using hno)⟩

end BunnyMesh
