import BunnyMesh.Server.Clock
import BunnyMesh.Server.Writes

/-!
# Causal order of local writes

A record that a request logs should carry a time stamp above every time stamp in its log.  The clock of a process knows
the stamps it gave out itself: it is not told those of synced records, it starts at zero with the process, and a batch
draws its stamps before it takes the lock.  Where the schedule avoids these three, the order holds.
-/

namespace BunnyMesh

open Std Store
open Interface (Prog)
open Runs (Run guarded)

/-! ### The order -/

def World.Below (w : World) (ns : Bytes) (h : UInt64) : Prop := ∀ r ∈ w.records ns, ∀ h' ∈ r.hlcs, h' < h

theorem World.Below.logs {w w' : World} {ns : Bytes} {h : UInt64} {xs : List (Bytes × Record)} (hb : w.Below ns h)
    (hlogs : w.Logs w' xs) (hxs : ∀ x ∈ xs, x.1 = ns → ∀ h' ∈ x.2.hlcs, h' < h) : w'.Below ns h := by
  intro r hr h' hh'
  rcases hlogs.mem_iff.1 hr with hr | hr
  · exact hb r hr h' hh'
  · exact hxs _ hr rfl h' hh'

/-- Whatever a step adds to a log is above what the log had. -/
def Node.Causal (n n' : Node) : Prop :=
  ∀ ns, ∃ new, n'.world.records ns = n.world.records ns ++ new ∧ ∀ r ∈ new, ∀ h ∈ r.hlcs, n.world.Below ns h

section
variable [AuthCrates]

/-- When an access of the handler `i`, which writes to `ns`, is in order: a stamp is drawn where the clock has passed
the log, and a record does not overtake a handler that holds a stamp. -/
def Access.InOrder (n : Node) (i : Nat) (ms : UInt64) (ns : Bytes) : {β : Type} → Access β → Prop
  | _, .draw true => n.last ≠ Hlc.top ∧ ∀ r ∈ n.world.records ns, ∀ h ∈ r.hlcs, h < Hlc.base ms ∨ h ≤ n.last
  | _, .store o => o.Fits ∧ ∀ x ∈ o.written, ∀ t ∈ n.threads.eraseIdx i, t.ns = x.1 →
      ∀ h ∈ t.drawn, ∀ h' ∈ x.2.hlcs, h' < h
  | _, _ => True

/-- When an event is in order.  Synced records come from the parser, and their stamps are below those that handlers hold. -/
def Node.InOrder (n : Node) : NodeEvent → Prop
  | .start s => s.isHttp = true
  | .access i ms => ∀ t ∈ n.threads[i]?, t.rest.Next (Access.InOrder n i ms t.ns)
  | .sync ns records => (∀ r ∈ records, r.WellFormed) ∧ ∀ r ∈ n.world.unseen ns records, ∀ h' ∈ r.hlcs,
      ∀ t ∈ n.threads, t.ns = ns → ∀ h ∈ t.drawn, h' < h
  | .restart _ _ => True

-- time stamps are finitely many, so the quantifiers over them are decided along the lists and not over the type
instance (n : Node) (i : Nat) (ms : UInt64) (ns : Bytes) : (β : Type) → (o : Access β) → Decidable (o.InOrder n i ms ns)
  | _, .draw true => decidable_of_iff (n.last ≠ Hlc.top ∧ (n.world.records ns).all fun r => r.hlcs.all fun h =>
      decide (h < Hlc.base ms) || decide (h ≤ n.last)) (by simp [Access.InOrder])
  | _, .store o => decidable_of_iff (o.Fits ∧ ∀ x ∈ o.written, ∀ t ∈ n.threads.eraseIdx i, t.ns = x.1 →
      t.drawn.all fun h => x.2.hlcs.all fun h' => decide (h' < h)) (by simp [Access.InOrder])
  | _, .draw false | _, .readLock | _, .writeLock | _, .unlock | _, .read _ | _, .scanKeys _ _ | _, .clock =>
    inferInstanceAs (Decidable True)

instance (n : Node) : (e : NodeEvent) → Decidable (n.InOrder e)
  | .start s => inferInstanceAs (Decidable (s.isHttp = true))
  | .access i ms => inferInstanceAs (Decidable (∀ t ∈ n.threads[i]?, t.rest.Next (Access.InOrder n i ms t.ns)))
  | .sync ns records => decidable_of_iff ((∀ r ∈ records, r.WellFormed) ∧ ∀ r ∈ n.world.unseen ns records,
      r.hlcs.all fun h' => n.threads.all fun t => decide (t.ns ≠ ns) || t.drawn.all fun h => decide (h' < h))
      (by simp [Node.InOrder, or_iff_not_imp_left])
  | .restart _ _ => inferInstanceAs (Decidable True)

/-! ### The stamps a handler holds -/

def Access.unspent : {β : Type} → Access β → β → List UInt64 → List UInt64
  | _, .draw true, h, spare => spare ++ [h]
  | _, .unlock, _, _ => []
  | _, .store o, _, spare => if o.written.isSome then [] else spare
  | _, _, _, spare => spare

/-- A handler that follows the discipline with unused stamps that are above its log. -/
structure Ahead (w : World) (t : Thread) (spare : List UInt64) : Prop where
  keeps : t.rest.Keeps (once (fun _ => True) t.ns) (fun _ _ => True) spare
  held : ∀ h ∈ spare, h ∈ t.drawn
  above : ∀ h ∈ spare, w.Below t.ns h

variable {β : Type} {o : Access β} {k : β → Handler Answer} {b : β} {n n₁ n' : Node} {i : Nat} {ms : UInt64} {ns : Bytes}
  {drawn spare : List UInt64} {g : History} {w w' : World} {t : Thread} {xs : List (Bytes × Record)}

section
omit [AuthCrates]

theorem once_next {Q : β → List UInt64 → Prop} (hwp : (once (fun _ => True) ns).wp o spare Q) : Q b (o.unspent b spare) := by
  cases o with
  | draw stamp =>
    cases stamp with
    | true => exact hwp b
    | false => exact hwp b
  | unlock => exact hwp
  | scanKeys => exact hwp b trivial
  | store o => exact hwp.2.2 b
  | readLock | writeLock | read | clock => exact hwp b

theorem once_proper {Q : β → List UInt64 → Prop} (hwp : (once (fun _ => True) ns).wp o spare Q)
    (hord : o.InOrder n i ms ns) : o.Proper := by
  cases o with
  | store o => exact ⟨hwp.1, hord.1⟩
  | readLock | writeLock | unlock | read | scanKeys | draw | clock => trivial

theorem once_writes {Q : β → List UInt64 → Prop} (hwp : (once (fun _ => True) ns).wp o spare Q) :
    ∀ x ∈ o.writes, x.1 = ns ∧ ∀ h ∈ x.2.hlcs, h ∈ spare := by
  cases o with
  | store o => exact hwp.2.1
  | readLock | writeLock | unlock | read | scanKeys | draw | clock => exact nofun

theorem Access.unspent_subset (hheld : ∀ h ∈ spare, h ∈ drawn) : ∀ h ∈ o.unspent b spare, h ∈ o.account b drawn := by
  intro h hh
  cases o with
  | draw stamp =>
    cases stamp with
    | true =>
      rcases List.mem_append.1 hh with hh | hh
      · exact List.mem_append_left _ (hheld h hh)
      · exact List.mem_append_right _ hh
    | false => exact hheld h hh
  | unlock => cases hh
  | store o =>
    simp only [Access.unspent] at hh
    split at hh
    · cases hh
    · exact hheld h hh
  | readLock | writeLock | read | scanKeys | clock => exact hheld h hh

end

theorem Access.mem_unspent (hp : o.perform i ms n = some (some b, n₁)) (hord : o.InOrder n i ms ns)
    (habove : ∀ h ∈ spare, n.world.Below ns h) {h : UInt64} (hh : h ∈ o.unspent b spare) :
    o.writes = none ∧ n.world.Below ns h := by
  cases o with
  | draw stamp =>
    cases stamp with
    | true =>
      refine ⟨rfl, ?_⟩
      rcases List.mem_append.1 hh with hh | hh
      · exact habove h hh
      · rw [List.mem_singleton.1 hh, (Access.perform_draw hp).1]
        exact fun r hr h' hh' => Hlc.lt_now ms hord.1 (hord.2 r hr h' hh')
    | false => exact ⟨rfl, habove h hh⟩
  | unlock => cases hh
  | store o =>
    simp only [Access.unspent] at hh
    split at hh
    case isTrue => cases hh
    case isFalse hnone => exact ⟨Option.not_isSome_iff_eq_none.1 hnone, habove h hh⟩
  | readLock | writeLock | read | scanKeys | clock => exact ⟨rfl, habove h hh⟩

theorem Ahead.access (h : Ahead n.world ⟨ns, drawn, .call o k⟩ spare) (hord : o.InOrder n i ms ns)
    (hp : o.perform i ms n = some (some b, n₁))
    (hlogs : n.world.Logs n₁.world [] ∨ n.world.Logs n₁.world o.writes.toList) :
    Ahead n₁.world ⟨ns, o.account b drawn, k b⟩ (o.unspent b spare) := by
  refine ⟨once_next h.keeps, Access.unspent_subset h.held, fun x hx => ?_⟩
  obtain ⟨hnone, hbelow⟩ := Access.mem_unspent hp hord h.above hx
  rw [hnone, Option.toList_none, or_self] at hlogs
  exact hbelow.logs hlogs nofun

omit [AuthCrates] in
theorem Ahead.logs (h : Ahead w t spare) (hlogs : w.Logs w' xs)
    (hxs : ∀ x ∈ xs, t.ns = x.1 → ∀ h ∈ t.drawn, ∀ h' ∈ x.2.hlcs, h' < h) : Ahead w' t spare :=
  ⟨h.keeps, h.held, fun s hs => (h.above s hs).logs hlogs fun x hx hns => hxs x hx hns.symm s (h.held s hs)⟩

/-! ### Runs -/

/-- The store is sound and every handler is ahead of its log. -/
structure Node.Ordered (n : Node) : Prop where
  sound : ∃ g, Sound (n.world, g)
  threads : ∀ (i : Nat) t, n.threads[i]? = some t → ∃ spare, Ahead n.world t spare

theorem Node.Ordered.boot (h : Sound (w, g)) : (Node.boot w).Ordered := ⟨⟨g, h⟩, nofun⟩

omit [AuthCrates] in
theorem Access.InOrder.overtakes (hord : o.InOrder n i ms ns) : ∀ x ∈ o.writes, ∀ t ∈ n.threads.eraseIdx i, t.ns = x.1 →
    ∀ h ∈ t.drawn, ∀ h' ∈ x.2.hlcs, h' < h := by
  cases o with
  | store o => exact hord.2
  | readLock | writeLock | unlock | read | scanKeys | draw | clock => exact nofun

theorem Node.Ordered.access (h : n.Ordered) (hord : n.InOrder (.access i ms)) (hstep : n.access i ms = some n') :
    n'.Ordered ∧ n.Causal n' := by
  obtain ⟨g, hsound⟩ := h.sound
  have hproper : ∀ t ∈ n.threads[i]?, t.rest.Next Access.Proper := by
    intro t ht
    obtain ⟨spare, hahead⟩ := h.threads i t ht
    have hkeeps := hahead.keeps
    have hnext := hord t ht
    cases hrest : t.rest with
    | ret a => trivial
    | call o k =>
      rw [hrest] at hkeeps hnext
      exact once_proper hkeeps hnext
  obtain ⟨ns, drawn, β, o, k, b, n₁, g', ht, hp, rfl, hthreads, hsound', hlogs⟩ := Node.access_spec hsound hproper hstep
  obtain ⟨spare, hahead⟩ := h.threads i _ ht
  have hnext : o.InOrder n i ms ns := hord _ ht
  refine ⟨⟨⟨g', hsound'⟩, fun j t hj => ?_⟩, fun m => ?_⟩
  · rcases Node.setThread_cases hj with ⟨rfl, rfl⟩ | ⟨hji, hj⟩
    · have hahead' : Ahead n₁.world _ _ := hahead.access hnext hp hlogs
      exact ⟨_, hahead'⟩
    · rw [hthreads] at hj
      obtain ⟨spare', hahead'⟩ := h.threads j t hj
      have herase : t ∈ n.threads.eraseIdx i := List.mem_eraseIdx_iff_getElem?.2 ⟨j, hji, hj⟩
      rcases hlogs with hlogs | hlogs
      · exact ⟨spare', hahead'.logs hlogs nofun⟩
      · exact ⟨spare', hahead'.logs hlogs fun x hx => hnext.overtakes x (Option.mem_toList.1 hx) t herase⟩
  · rcases hlogs with hlogs | hlogs
    · exact ⟨[], hlogs m, nofun⟩
    · refine ⟨_, hlogs m, fun r hr s hs => ?_⟩
      obtain ⟨x, hx, rfl⟩ := List.mem_map.1 hr
      obtain ⟨hx, hm⟩ := List.mem_filter.1 hx
      obtain ⟨hns, hspare⟩ := once_writes hahead.keeps x (Option.mem_toList.1 hx)
      rw [← of_decide_eq_true hm, hns]
      exact hahead.above s (hspare s hs)

theorem Node.Ordered.step {site : Site} {e : NodeEvent} (h : n.Ordered)
    (hstep : guarded Node.InOrder (NodeStep site) n e n') : n'.Ordered := by
  obtain ⟨hord, hstep⟩ := hstep
  obtain ⟨g, hsound⟩ := h.sound
  cases e with
  | start s =>
    cases hstep
    refine ⟨⟨g, hsound⟩, fun i t hi => ?_⟩
    rw [List.getElem?_append] at hi
    split at hi
    case isTrue => exact h.threads i t hi
    case isFalse =>
      obtain rfl := List.mem_singleton.1 (List.mem_of_getElem? hi)
      exact ⟨[], stamped_handler site hord [], nofun, nofun⟩
  | access i ms => exact (h.access hord hstep).1
  | sync ns records =>
    simp only [NodeStep, Node.step] at hstep
    split at hstep
    case isFalse => cases hstep
    case isTrue =>
      cases hstep
      obtain ⟨g', rs, hsound', hrs, hlogs⟩ := hsound.sync ns hord.1
      refine ⟨⟨g', hsound'⟩, fun i t hi => ?_⟩
      obtain ⟨spare, hahead⟩ := h.threads i t hi
      refine ⟨spare, hahead.logs hlogs fun x hx hns s hs s' hs' => ?_⟩
      obtain ⟨r, hr, rfl⟩ := List.mem_map.1 hx
      exact hord.2 r (hrs r hr) s' hs' t (List.mem_of_getElem? hi) hns s hs
  | restart durable now =>
    obtain ⟨w', g', hopen, hsound', _⟩ := hsound.restart durable now
    rw [NodeStep, Node.step, hopen] at hstep
    cases hstep
    exact .boot hsound'

/-- In a run of requests in which every event is in order, every record that a request logs carries time stamps above
all those in its log. -/
theorem local_writes_causal (site : Site) {w₀ : World} {es : List NodeEvent} (hw₀ : Opened w₀)
    (hrun : Run (guarded Node.InOrder (NodeStep site)) (Node.boot w₀) es n)
    (hstep : guarded Node.InOrder (NodeStep site) n (.access i ms) n') : n.Causal n' := by
  have hordered : n.Ordered := hrun.invariant (fun _ _ _ h hs => h.step hs) (.boot hw₀.sound.1)
  exact (hordered.access hstep.1 hstep.2).2

end

/-! ### Examples -/

def makeSpace : List NodeEvent := serving (.createNamespace (str "n") (str "lww")) 0 5 3

/-- A put to the key `k` of `n`: the time stamp is the sixth access, the record the eighth. -/
def putKey : Surface := .put (str "n") (str "k") [1] none .zero

def twoPuts : List NodeEvent := makeSpace ++ serving putKey 1 5 9 ++ serving putKey 2 4 7

set_option maxRecDepth 100000 in
theorem local_writes_causal_put : letI := AuthCrates.trivial
    ∃ w₀ n n', Opened w₀ ∧ Run (guarded Node.InOrder (NodeStep plainSite)) (Node.boot w₀) twoPuts n ∧
      guarded Node.InOrder (NodeStep plainSite) n (.access 2 4) n' ∧ n.Causal n' ∧
      (n'.world.records (str "n")).map Record.hlcs = [[327680], [327681]] := by
  have h : letI := AuthCrates.trivial
      Node.runThen Node.InOrder plainSite twoPuts (.access 2 4) (fun _ n' => (n'.world.records (str "n")).map Record.hlcs) =
        some [[327680], [327681]] := by decide +kernel
  let _ := AuthCrates.trivial
  obtain ⟨w₀, n, n', hw₀, hrun, hstep, hlogs⟩ := Node.runThen_sound h
  exact ⟨w₀, n, n', hw₀, hrun, hstep, local_writes_causal plainSite hw₀ hrun hstep, hlogs⟩

/-- A synced record from a peer whose clock is ahead, and a put up to its record. -/
def aheadOfClock : List NodeEvent :=
  makeSpace ++ [.sync (str "n") [putRecord (str "k") [2] 400000 .zero .zero 0]] ++ serving putKey 1 5 7

/-- A put, a restart, and a put up to its record with the clock back. -/
def clockBack : List NodeEvent := makeSpace ++ serving putKey 1 5 9 ++ .restart false 0 :: serving putKey 0 4 7

/-- A batch that draws its time stamp, a put, and the batch up to its record. -/
def overtaken : List NodeEvent :=
  makeSpace ++ serving (.batch (str "n") .zero [⟨str "del", some (str "k"), none, none⟩]) 1 5 4 ++ serving putKey 2 5 9 ++
    List.replicate 4 (.access 1 5)

def aboveLog (n n' : Node) (ns : Bytes) : Bool :=
  ((n'.world.records ns).drop (n.world.records ns).length).all fun r => r.hlcs.all fun h =>
    (n.world.records ns).all fun r' => r'.hlcs.all fun h' => h' < h

theorem Node.Causal.aboveLog {n n' : Node} (h : n.Causal n') (ns : Bytes) : aboveLog n n' ns = true := by
  obtain ⟨new, heq, hnew⟩ := h ns
  simp only [BunnyMesh.aboveLog, heq, List.drop_left, List.all_eq_true, decide_eq_true_eq]
  exact hnew

/-- After the events, an access of the handler `i` logs a record that is not above its log. -/
def BreaksOrder [AuthCrates] (es : List NodeEvent) (i : Nat) : Prop :=
  ∃ w₀ n n', Opened w₀ ∧ Run (NodeStep plainSite) (Node.boot w₀) es n ∧ NodeStep plainSite n (.access i 4) n' ∧ ¬ n.Causal n'

theorem breaksOrder_of_run [AuthCrates] {es : List NodeEvent} {i : Nat}
    (h : Node.runThen (fun _ _ => True) plainSite es (.access i 4) (fun n n' => aboveLog n n' (str "n")) = some false) :
    BreaksOrder es i := by
  obtain ⟨w0, n, n', hw0, hrun, hstep, habove⟩ := Node.runThen_sound h
  refine ⟨w0, n, n', hw0, hrun.mono fun _ _ _ hs => hs.2, hstep.2, fun hcausal => ?_⟩
  rw [hcausal.aboveLog] at habove
  cases habove

set_option maxRecDepth 100000 in
/-- After a synced record of the future, after a restart with the clock back, and behind a put that overtakes it, a
request logs a record that is not above its log. -/
theorem local_writes_not_causal : letI := AuthCrates.trivial
    BreaksOrder aheadOfClock 1 ∧ BreaksOrder clockBack 0 ∧ BreaksOrder overtaken 1 := by
  refine ⟨?_, ?_, ?_⟩
  · exact @breaksOrder_of_run AuthCrates.trivial _ _ (by decide +kernel)
  · exact @breaksOrder_of_run AuthCrates.trivial _ _ (by decide +kernel)
  · exact @breaksOrder_of_run AuthCrates.trivial _ _ (by decide +kernel)

end BunnyMesh
