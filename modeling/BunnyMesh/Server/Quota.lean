import BunnyMesh.Server.Schemas
import BunnyMesh.Storage.Meta

/-!
# Quotas of namespaces

The bytes that clients write to a namespace are charged to its ledger `quota:<ns>` before they are logged (`account_write` in
`ns.rs`).  The ledger is metadata: it reaches the disk with the next checkpoint only, whereas the records are there at once;
and `exec` of a query charges nothing.  So the ledger bounds what the requests have logged as long as queries log no values
and the process restarts from a snapshot that has the current ledger.
-/

namespace BunnyMesh

open Std Store
open Interface (Prog Discipline)
open Runs (Run guarded exec run_of_exec)

/-! ### Sums -/

section
variable {α : Type*} {f g : α → Nat} {l : List α}

theorem sum_map_set {i : Nat} {a b : α} (h : l[i]? = some b) : ((l.set i a).map f).sum + f b = (l.map f).sum + f a := by
  induction l generalizing i with
  | nil => cases h
  | cons c l ih =>
    cases i with
    | zero =>
      cases h
      simp only [List.set_cons_zero, List.map_cons, List.sum_cons]
      omega
    | succ i =>
      have hi := ih h
      simp only [List.set_cons_succ, List.map_cons, List.sum_cons]
      omega

theorem sum_filter_le {p : α → Bool} (h : ∀ a ∈ l, p a = true → f a ≤ g a) : ((l.filter p).map f).sum ≤ (l.map g).sum := by
  induction l with
  | nil => exact Nat.le_refl 0
  | cons a l ih =>
    have hl := ih fun b hb => h b (List.mem_cons_of_mem a hb)
    cases hp : p a with
    | true =>
      have ha := h a List.mem_cons_self hp
      simp only [List.filter_cons_of_pos hp, List.map_cons, List.sum_cons]
      omega
    | false =>
      simp only [List.filter_cons_of_neg (Bool.not_eq_true _ ▸ hp), List.map_cons, List.sum_cons]
      omega

end

/-! ### Values and charges -/

def Record.valueBytes (r : Record) : Nat := if r.tag = tagBatch then (r.ops.map (·.value.length)).sum else r.value.length

def valueBytes (rs : List Record) : Nat := (rs.map Record.valueBytes).sum

theorem valueBytes_append (rs rs' : List Record) : valueBytes (rs ++ rs') = valueBytes rs + valueBytes rs' := by
  simp [valueBytes]

theorem valueBytes_putRecord (key value : Bytes) (hlc : UInt64) (replica author : Bytes32) (expiresAt : UInt64) :
    (putRecord key value hlc replica author expiresAt).valueBytes = value.length := by
  rw [Record.valueBytes, if_neg]
  · rfl
  · rcases putRecord_tag key value hlc replica author expiresAt with ⟨ht, _⟩ | ⟨ht, _⟩ <;> rw [ht] <;> decide

theorem valueBytes_batchRecord (ops : List Op) : (batchRecord ops).valueBytes = (ops.map (·.value.length)).sum := by
  rw [Record.valueBytes, if_pos (batchRecord_tag ops), batchRecord_ops]

/-- The account of a request: what it has charged, what it has logged, and the ledger at its last access. -/
structure Meter where
  charged : Nat
  logged : List Record
  ledger : Nat

/-- The account after an access that takes the store from `w` to `w'`. -/
def meter (ns : Bytes) (w w' : World) (a : Meter) : Meter :=
  ⟨a.charged + (bytesWritten w'.store ns - bytesWritten w.store ns), recordsLogged ns w w' a.logged, bytesWritten w'.store ns⟩

theorem meter_self (ns : Bytes) (w : World) (a : Meter) : meter ns w w a = { a with ledger := bytesWritten w.store ns } := by
  simp [meter, recordsLogged_self]

namespace StoreOp

def ledger (ns : Bytes) : {β : Type} → StoreOp β → Nat → Nat
  | _, metaSet key value, l =>
    if key = quotaKey ns then if value.length = 8 then ByteCodec.fromLe value else 0 else l
  | _, _, l => l

def mayFail : {β : Type} → StoreOp β → Bool
  | _, metaSet _ _ => false
  | _, _ => true

end StoreOp

def Meter.after (ns : Bytes) (a : Meter) {β : Type} (o : StoreOp β) : Meter :=
  ⟨a.charged + (o.ledger ns a.ledger - a.ledger), a.logged ++ (o.written.toList.filter (·.1 = ns)).map (·.2), o.ledger ns a.ledger⟩

/-- The ledger only grows, up to the limit; one who pays has charged the values before they are logged.  A look at the store
finds the ledger as it was at the last access. -/
def metering (ns : Bytes) (limit : Nat) (pays : Bool) : Discipline Access Meter where
  wp := fun {_} o a Q => match o with
    | .read f => ∀ s, bytesWritten s ns = a.ledger → Q (f s) a
    | .store o => a.ledger ≤ o.ledger ns a.ledger ∧ (o.ledger ns a.ledger = a.ledger ∨ o.ledger ns a.ledger ≤ limit) ∧
        (pays = true → ∀ r, o.written = some (ns, r) → valueBytes a.logged + r.valueBytes ≤ a.charged) ∧
        (o.mayFail = true → ∀ e, Q (.error e) a) ∧ ∀ b, Q (.ok b) (a.after ns o)
    | _ => ∀ b l, Q b { a with ledger := l }
  mono := by
    intro β o a Q Q' h hQ
    cases o with
    | read f => exact fun s hs => h _ _ (hQ s hs)
    | store o =>
      obtain ⟨hmono, hlimit, hpays, herror, hok⟩ := hQ
      exact ⟨hmono, hlimit, hpays, fun ho e => h _ _ (herror ho e), fun b => h _ _ (hok b)⟩
    | readLock | writeLock | unlock | scanKeys | draw | clock => exact fun b l => h _ _ (hQ b l)

/-! ### Handlers that charge -/

def quotaRefused : Reply := .error 409 (str "quota_exceeded")

def Surface.pays : Surface → Bool
  | put .. | batch .. => true
  | _ => false

/-- A put that is refused for its quota has neither charged nor logged, and of a batch the charges are what it has logged,
unless the store failed. -/
def ChargedFor (s : Surface) (answer : Answer) (a : Meter) : Prop :=
  s.pays = true → (answer = .reply quotaRefused → a.charged = 0 ∧ a.logged = []) ∧
    ∀ rs, answer = .results rs → a.logged = [] ∨ a.charged = valueBytes a.logged

section
variable {ns m : Bytes} {limit : Nat} {pays : Bool} {α : Type} {a : Meter}

theorem Meter.after_of_same {β : Type} {o : StoreOp β} (hl : o.ledger ns a.ledger = a.ledger) (hw : o.written = none) :
    a.after ns o = a := by
  simp [Meter.after, hl, hw]

theorem metering_silent_read (f : Store → α) : (Prog.op (.read f)).Silent (metering ns limit pays) := fun _ _ _ => rfl

theorem metering_silent_create (name : Bytes) (p : ConflictPolicy) :
    (Handler.store (.createNamespace name p)).Silent (metering ns limit pays) :=
  fun _ => ⟨Nat.le_refl _, .inl rfl, nofun, fun _ _ => rfl, fun _ => Meter.after_of_same rfl rfl⟩

theorem metering_store {o : StoreOp α} {Q : Except StorageError α → Meter → Prop} (hl : o.ledger ns a.ledger = a.ledger)
    (hpays : pays = true → ∀ r, o.written = some (ns, r) → valueBytes a.logged + r.valueBytes ≤ a.charged)
    (herror : ∀ e, Q (.error e) a) (hok : ∀ b, Q (.ok b) (a.after ns o)) :
    (Handler.store o).Keeps (metering ns limit pays) Q a :=
  ⟨hl.ge, .inl hl, hpays, fun _ => herror, hok⟩

theorem metering_writing {p : Handler α} {Q : α → Nat → List Record → Prop}
    (h : ∀ l, p.Keeps (metering ns limit pays) (fun r a => Q r a.charged a.logged) { a with ledger := l }) :
    (Handler.writing p).Keeps (metering ns limit pays) (fun r a => Q r a.charged a.logged) a :=
  fun _ l => (h l).bind fun _ _ hQ _ _ => hQ

theorem metering_look (f : Store → α) :
    (Handler.look f).Keeps (metering ns limit pays) (fun _ a' => a'.charged = a.charged ∧ a'.logged = a.logged) a :=
  fun _ _ _ _ _ _ => ⟨rfl, rfl⟩

def Meter.charge (ns m : Bytes) (delta : Nat) (a : Meter) : Meter :=
  if m = ns then ⟨a.charged + delta, a.logged, a.ledger + delta⟩ else a

theorem quotaKey_inj {m ns : Bytes} : quotaKey m = quotaKey ns ↔ m = ns := List.append_right_inj _

theorem metering_accountWrite (hlimit : limit < 2 ^ 64) (delta : Nat) : (Handler.accountWrite m delta limit).Keeps
    (metering ns limit pays) (fun r a' => (r = .ok () ∧ a' = a.charge ns m delta) ∨ ((∃ e, r = .error e) ∧ a' = a)) a := by
  refine Prog.Keeps.op_bind fun s hs => ?_
  dsimp only
  split
  case isTrue => exact .inr ⟨⟨_, rfl⟩, rfl⟩
  case isFalse hfits =>
    have hledger : StoreOp.ledger ns (.metaSet (quotaKey m) (le 8 (bytesWritten s m + delta))) a.ledger =
        if m = ns then a.ledger + delta else a.ledger := by
      simp only [StoreOp.ledger, quotaKey_inj]
      split
      case isTrue hm =>
        subst hm
        rw [if_pos (ByteCodec.length_le ..), ByteCodec.fromLe_le_of_lt (by omega), hs]
      case isFalse => rfl
    have hafter : a.after ns (.metaSet (quotaKey m) (le 8 (bytesWritten s m + delta))) = a.charge ns m delta := by
      simp only [Meter.after, Meter.charge, hledger]
      split
      · simp [StoreOp.written]
      · simp [StoreOp.written]
    refine ⟨?_, ?_, nofun, nofun, fun b => .inl ⟨rfl, hafter⟩⟩
    · rw [hledger]
      split
      · exact Nat.le_add_right _ _
      · exact Nat.le_refl _
    · rw [hledger]
      split
      case isTrue hm =>
        subst hm
        rw [hs] at hfits
        exact .inr (Nat.le_of_not_gt hfits)
      case isFalse => exact .inl rfl

variable [AuthCrates] {validate : JValue → JValue → Except Bytes Unit} {cfg : NodeConfig}

/-- A put charges its value before it is logged; refused for its quota, it has neither charged nor logged. -/
theorem metering_handlePut (hlimit : cfg.defaultQuota < 2 ^ 64) (key body : Bytes) (ttl : Option Bytes) (principal : PublicKey) :
    (Handler.handlePut validate cfg m key body ttl principal).Keeps (metering ns cfg.defaultQuota true)
      (fun r a => r = quotaRefused → a.charged = 0 ∧ a.logged = []) ⟨0, [], 0⟩ := by
  refine metering_writing (Q := fun r charged logged => r = quotaRefused → charged = 0 ∧ logged = []) fun l => ?_
  refine (silent_provide metering_silent_read metering_silent_create principal _).bind fun refusal a ha => ?_
  subst ha
  cases refusal with
  | some r => exact fun _ => ⟨rfl, rfl⟩
  | none =>
    refine (metering_silent_read _ _).bind fun violation a ha => ?_
    subst ha
    cases violation with
    | some r => exact fun _ => ⟨rfl, rfl⟩
    | none =>
      refine (metering_accountWrite hlimit body.length).bind fun charged a ha => ?_
      rcases ha with ⟨rfl, rfl⟩ | ⟨⟨e, rfl⟩, rfl⟩
      · intro hlc l1 now l2
        refine (metering_store rfl (fun _ r hr => ?_) (fun e => ?_) fun seq => ?_).bind fun r a h => h
        · cases hr
          rw [valueBytes_putRecord]
          simp [Meter.charge, valueBytes]
        · exact nofun
        · exact nofun
      · exact fun _ => ⟨rfl, rfl⟩

/-! ### Batches -/

/-- The charges of the accepted writes are the lengths of their values. -/
def BatchPlan.Priced (plan : BatchPlan) : Prop := plan.pendingWrites.map (·.2) = plan.accepted.map (·.value.length)

variable {plan : BatchPlan}

omit [AuthCrates] in
theorem BatchPlan.Priced.accept (h : plan.Priced) (op : Op) : (plan.accept op).Priced := by
  unfold BatchPlan.Priced BatchPlan.accept
  rw [List.map_append, List.map_append, h]
  rfl

omit [AuthCrates] in
theorem BatchPlan.Priced.zip (h : plan.Priced) :
    ∀ x ∈ plan.accepted.zip plan.pendingWrites, x.2.2 = x.1.value.length := by
  intro x hx
  obtain ⟨i, hi, rfl⟩ := List.mem_iff_getElem.1 hx
  have hat := congrArg (·[i]?) h
  rw [List.length_zip] at hi
  simpa [List.getElem?_eq_getElem (show i < plan.pendingWrites.length by omega),
    List.getElem?_eq_getElem (show i < plan.accepted.length by omega)] using hat

theorem metering_planOp (schema : Option JValue) (principal : PublicKey) (h : plan.Priced) (op : BatchOp) :
    (Handler.planOp validate cfg schema principal plan op).Keeps (metering ns limit pays)
      (fun plan a' => plan.Priced ∧ a'.charged = a.charged ∧ a'.logged = a.logged) a := by
  refine keeps_planOp (G := fun a' => a'.charged = a.charged ∧ a'.logged = a.logged) ⟨rfl, rfl⟩ (fun _ _ => ⟨h, rfl, rfl⟩)
    (fun _ _ => ⟨h, rfl, rfl⟩) (fun _ _ => ⟨rfl, rfl⟩) fun o _ a' ha hlc l => ⟨h.accept _, ha⟩

theorem metering_plan (schema : Option JValue) (principal : PublicKey) (ops : List BatchOp) :
    (ops.foldlM (Handler.planOp validate cfg schema principal) BatchPlan.empty).Keeps (metering ns limit pays)
      (fun plan a' => plan.Priced ∧ a'.charged = a.charged ∧ a'.logged = a.logged) a := by
  refine Prog.Keeps.foldlM ⟨rfl, rfl, rfl⟩ fun plan a' op _ hplan => ?_
  obtain ⟨hpriced, hcharged, hlogged⟩ := hplan
  exact (metering_planOp schema principal hpriced op).mono fun plan a'' h => ⟨h.1, h.2.1.trans hcharged, h.2.2.trans hlogged⟩

omit [AuthCrates] in
theorem metering_chargeAll (hlimit : cfg.defaultQuota < 2 ^ 64) {writes : List (Op × Nat × Nat)}
    {results : List (Option BatchResult)} (hwrites : ∀ x ∈ writes, x.2.2 = x.1.value.length) (ha : a.charged = 0) :
    (Handler.chargeAll cfg m writes results).Keeps (metering ns cfg.defaultQuota pays) (fun r a' => a'.logged = a.logged ∧
      a'.charged = if m = ns then (r.1.map (·.value.length)).sum else 0) a := by
  refine Prog.Keeps.foldlM ⟨rfl, ?_⟩ fun r a' x hx hr => ?_
  · rw [ha]
    split <;> rfl
  · obtain ⟨hlogged, hcharged⟩ := hr
    refine (metering_accountWrite hlimit x.2.2).bind fun charged a'' h => ?_
    rcases h with ⟨rfl, rfl⟩ | ⟨⟨e, rfl⟩, rfl⟩
    · refine ⟨?_, ?_⟩
      · rw [← hlogged, Meter.charge]
        split <;> rfl
      · rw [Meter.charge]
        split
        case isTrue hm =>
          rw [if_pos hm] at hcharged
          simp [hcharged, hwrites x hx]
        case isFalse hm =>
          rw [if_neg hm] at hcharged
          exact hcharged
    · exact ⟨hlogged, hcharged⟩

/-- A refused batch has neither charged nor logged; of another one the charges are what it has logged, unless the store
failed. -/
def BatchCharged {β : Type} (r : Except Reply β) (charged : Nat) (logged : List Record) : Prop :=
  match r with
  | .error _ => charged = 0 ∧ logged = []
  | .ok _ => logged = [] ∨ charged = valueBytes logged

omit [AuthCrates] in
theorem metering_applyPlan (hlimit : cfg.defaultQuota < 2 ^ 64) (principal : PublicKey) (h : plan.Priced)
    (hcharged : a.charged = 0) (hlogged : a.logged = []) :
    (Handler.applyPlan cfg m principal plan).Keeps (metering ns cfg.defaultQuota true)
      (fun r a => BatchCharged r a.charged a.logged) a := by
  refine metering_writing (Q := BatchCharged) fun l => ?_
  refine (silent_provide metering_silent_read metering_silent_create principal _).bind fun refusal a' ha => ?_
  subst ha
  cases refusal with
  | some r => exact ⟨hcharged, hlogged⟩
  | none =>
    have hnone : ({ a with ledger := l } : Meter).charged = 0 := hcharged
    refine (metering_chargeAll hlimit h.zip hnone).bind fun r a' hr => ?_
    obtain ⟨hlogged', hcharged'⟩ := hr
    replace hlogged' : a'.logged = [] := hlogged'.trans hlogged
    dsimp only
    split
    · exact .inl hlogged'
    · refine (metering_store rfl (fun _ r' hr' => ?_) (fun e => ?_) fun seq => ?_).bind fun r a h => h
      · cases hr'
        rw [hcharged', hlogged', if_pos rfl, valueBytes_batchRecord]
        simp [valueBytes]
      · exact .inl hlogged'
      · by_cases hm : m = ns
        · right
          simp [Meter.after, StoreOp.ledger, StoreOp.written, hlogged', hcharged', hm, valueBytes, valueBytes_batchRecord]
        · left
          simp [Meter.after, StoreOp.written, hlogged', hm]

theorem metering_handleBatch (hlimit : cfg.defaultQuota < 2 ^ 64) (principal : PublicKey) (ops : List BatchOp) :
    (Handler.handleBatch validate cfg m principal ops).Keeps (metering ns cfg.defaultQuota true)
      (fun r a => BatchCharged r a.charged a.logged) ⟨0, [], 0⟩ := by
  unfold Handler.handleBatch
  split
  · exact ⟨rfl, rfl⟩
  · split
    · exact ⟨rfl, rfl⟩
    · split
      · exact ⟨rfl, rfl⟩
      · refine (metering_look _).bind fun schema a ha => (metering_plan schema principal ops).bind fun plan a' hplan => ?_
        obtain ⟨hpriced, hcharged, hlogged⟩ := hplan
        refine (metering_applyPlan hlimit principal hpriced (hcharged.trans ha.1) (hlogged.trans ha.2)).bind fun outcome a'' h => ?_
        cases outcome with
        | error r => exact h
        | ok x =>
          intro now l
          refine (metering_look _).bind fun results a3 h3 => ?_
          obtain ⟨hc, hl⟩ := h3
          change a3.logged = [] ∨ a3.charged = valueBytes a3.logged
          rw [hc, hl]
          exact h

/-! ### Requests -/

omit [AuthCrates] in
theorem metering_free {o : StoreOp α} (hl : ∀ l, o.ledger ns l = l) :
    (Handler.store o).Keeps (metering ns limit false) (fun _ _ => True) a :=
  metering_store (hl _) nofun (fun _ => trivial) fun _ => trivial

omit [AuthCrates] in
theorem metering_define {change : UInt64 → StoreOp Nat} (hchange : ∀ hlc l, (change hlc).ledger ns l = l) :
    (Handler.define m change).Keeps (metering ns limit false) (fun _ _ => True) a := by
  refine metering_writing (Q := fun _ _ _ => True) fun l => Prog.Keeps.op_bind fun s _ => ?_
  dsimp only
  split
  · trivial
  · exact fun hlc _ => (metering_free (hchange hlc)).bind fun _ _ _ => trivial

theorem metering_handleDelete (key : Bytes) (principal : PublicKey) :
    (Handler.handleDelete cfg m key principal).Keeps (metering ns limit false) (fun _ _ => True) a := by
  refine metering_writing (Q := fun _ _ _ => True) fun l => Prog.Keeps.op_bind fun s _ => ?_
  dsimp only
  split
  · trivial
  · exact fun hlc _ => (metering_free fun _ => rfl).bind fun _ _ _ => trivial

omit [AuthCrates] in
theorem metering_l1CreateNamespace (name policy : Bytes) :
    (Handler.l1CreateNamespace name policy).Keeps (metering ns limit false) (fun _ _ => True) a := by
  unfold Handler.l1CreateNamespace
  split
  · trivial
  · split
    · trivial
    · refine metering_writing (Q := fun _ _ _ => True) fun l => (metering_silent_create _ _ _).bind fun r a' _ => ?_
      split <;> trivial

omit [AuthCrates] in
theorem serves_metering : Serves (metering ns limit false) m where
  lock {o} a Q ho hQ := by
    rcases ho with rfl | rfl | rfl <;> exact fun b l => hQ b _
  read f a Q hQ := fun s _ => hQ _ a
  draw stamp a Q hQ := fun b l => hQ b _
  write {o} a Q ho hQ := by
    intro hlc l
    have hl : (o hlc).ledger ns l = l := by cases ho <;> rfl
    exact ⟨hl.ge, .inl hl, nofun, fun _ e => hQ _ _, fun b => hQ _ _⟩

theorem metering_handler (site : Site) (hlimit : site.cfg.defaultQuota < 2 ^ 64) {s : Surface} (h : s.isHttp = true) :
    (s.handler site).Keeps (metering ns site.cfg.defaultQuota s.pays) (ChargedFor s) ⟨0, [], 0⟩ := by
  have hfree : ∀ {p : Handler Answer}, s.pays = false → p.Keeps (metering ns site.cfg.defaultQuota false) (fun _ _ => True) ⟨0, [], 0⟩ →
      p.Keeps (metering ns site.cfg.defaultQuota s.pays) (ChargedFor s) ⟨0, [], 0⟩ := by
    intro p hpays hp
    rw [hpays]
    refine hp.mono fun answer a _ hs => ?_
    rw [hpays] at hs
    cases hs
  cases s with
  | put m key body ttl principal =>
    refine (metering_handlePut hlimit key body ttl principal).bind fun r a hr => ?_
    refine fun _ => ⟨fun hans => ?_, nofun⟩
    cases hans
    exact hr rfl
  | batch m principal ops =>
    refine (metering_handleBatch hlimit principal ops).bind fun r a hr => ?_
    cases r with
    | ok rs => exact fun _ => ⟨nofun, fun _ _ => hr⟩
    | error e => exact fun _ => ⟨fun _ => hr, nofun⟩
  | delete m key principal => exact hfree rfl ((metering_handleDelete key principal).bind fun _ _ _ => trivial)
  | query m call =>
    refine hfree rfl ((serves_metering.runQl site.cfg call _).bind fun r _ _ => ?_)
    cases r <;> trivial
  | createNamespace name policy => exact hfree rfl ((metering_l1CreateNamespace name policy).bind fun _ _ _ => trivial)
  | schemaSet m body =>
    refine hfree rfl (Prog.Keeps.bind (P := fun _ _ => True) ?_ fun _ _ _ => trivial)
    unfold Handler.l1SchemaSet
    split
    · trivial
    · split
      · trivial
      · exact metering_define fun _ _ => rfl
  | schemaClear m => exact hfree rfl ((metering_define fun _ _ => rfl).bind fun _ _ _ => trivial)
  | indexSet m body =>
    refine hfree rfl (Prog.Keeps.bind (P := fun _ _ => True) ?_ fun _ _ _ => trivial)
    unfold Handler.l1IndexSet
    split
    · trivial
    · exact metering_define fun _ _ => rfl
  | indexClear m => exact hfree rfl ((metering_define fun _ _ => rfl).bind fun _ _ _ => trivial)
  | create | flush | mkdir | unlink | rmdir | rename | truncate => cases h

end

/-! ### The ledger of a store -/

section
variable {ns : Bytes} {w w' : World}

theorem reserved_quotaKey (ns : Bytes) : Reserved (quotaKey ns) :=
  ⟨fun n => (quotaKey_ne ns n).1, fun n => (quotaKey_ne ns n).2, by
    have h := append_ne_append (a := createdKey) (b := str "quota:") (by decide) (by decide) (by decide) [] ns
    rwa [List.append_nil] at h⟩

theorem bytesWritten_of_metaAt (h : w'.MetaAt (quotaKey ns) w.store.metaMap[quotaKey ns]?) :
    bytesWritten w'.store ns = bytesWritten w.store ns := by
  have h' : w'.store.metaGet (quotaKey ns) = w.store.metaGet (quotaKey ns) := h
  rw [bytesWritten, bytesWritten, h']

theorem finalState_discard {α : Type} (x : M α) (w : World) :
    Exec.finalState ((do let _ ← x : M Unit) w) = Exec.finalState (x w) := by
  cases hx : x w with
  | ok a w' => rw [Exec.bind_ok hx]; rfl
  | error e w' => rw [Exec.bind_error hx]; rfl

variable [AuthCrates]

theorem Cmd.ledger {c : Cmd} (hc : c.isReopen = false) (ns : Bytes) (w : World) :
    bytesWritten (Exec.finalState (c.run w)).store ns = bytesWritten w.store ns :=
  bytesWritten_of_metaAt (always_metaAt_run (reserved_quotaKey ns) hc w rfl)

theorem StoreOp.ledger_run {β : Type} {o : StoreOp β} {b : β} (hrun : o.run w = .ok b w') :
    bytesWritten w'.store ns = o.ledger ns (bytesWritten w.store ns) := by
  have hcmd : ∀ {α : Type} {x : M α} {a : α}, x w = .ok a w' → ∀ {c : Cmd}, c.isReopen = false → c.run = (do let _ ← x) →
      bytesWritten w'.store ns = bytesWritten w.store ns := by
    intro α x a hx c hc hcrun
    have h := Cmd.ledger hc ns w
    rw [hcrun, Exec.bind_ok hx] at h
    exact h
  cases o with
  | metaSet key value =>
    cases hrun
    simp only [StoreOp.ledger, bytesWritten, Store.metaGet, Store.metaSet, OrdMap.getElem?_insert]
    by_cases hkey : key = quotaKey ns
    · rw [if_pos hkey, if_pos hkey]
    · rw [if_neg hkey, if_neg hkey]
  | createNamespace n p =>
    have h := Cmd.ledger (c := .createNamespace n p) rfl ns w
    rw [show Cmd.run (.createNamespace n p) w = .ok b w' from hrun] at h
    exact h
  | put n key value hlc replica author expiresAt =>
    exact hcmd hrun (c := .put n key value hlc replica author expiresAt) rfl rfl
  | delete n key hlc replica author => exact hcmd hrun (c := .delete n key hlc replica author) rfl rfl
  | putBatch n ops => exact hcmd hrun (c := .putBatch n ops) rfl rfl
  | setSchema n value hlc replica author => exact hcmd hrun (c := .setSchema n value hlc replica author) rfl rfl
  | setIndex n value hlc replica author => exact hcmd hrun (c := .setIndex n value hlc replica author) rfl rfl

/-! ### Runs -/

/-- A node with the accounts of its requests, and the requests of the processes before. -/
structure Metered where
  served : Served Meter
  past : List (Request Meter)

/-- What happens to a node and its snapshot: a checkpoint is taken now and then, under the write lock. -/
inductive MeteredEvent where
  | node (e : NodeEvent)
  | checkpoint

namespace Metered

def ended (rs : List (Request Meter)) : NodeEvent → List (Request Meter)
  | .restart _ _ => rs
  | .start _ | .access _ _ | .sync _ _ => []

def step (site : Site) (ns : Bytes) (x : Metered) : MeteredEvent → Option Metered
  | .node e => (x.served.step site ⟨0, [], 0⟩ (meter ns) e).map fun y => ⟨y, x.past ++ ended x.served.requests e⟩
  | .checkpoint =>
    if x.served.node.writer = none ∧ x.served.node.readers = [] then
      some { x with served.node.world := Exec.finalState (BunnyMesh.checkpoint x.served.node.world) }
    else none

def world (x : Metered) : World := x.served.node.world

def requests (x : Metered) : List (Request Meter) := x.past ++ x.served.requests

end Metered

def MeteredStep (site : Site) (ns : Bytes) (x : Metered) (e : MeteredEvent) (x' : Metered) : Prop := x.step site ns e = some x'

def Surface.stores : Surface → Bool
  | put .. | batch .. | query .. => true
  | _ => false

namespace Metered

def stored (x : Metered) : Nat :=
  ((x.requests.filter fun r => r.surface.stores).map fun r => valueBytes r.account.logged).sum

/-- The ledger bounds what has been stored and keeps to the limit; a put that was refused for its quota has left ledger and
log alone, and a batch has charged what it has logged, unless the store failed. -/
def LedgerBounds (ns : Bytes) (limit : Nat) (x : Metered) : Prop :=
  x.stored ≤ bytesWritten x.world.store ns ∧ bytesWritten x.world.store ns ≤ limit ∧
    ∀ (i : Nat) (t : Thread) (a : Answer) (r : Request Meter), x.served.node.threads[i]? = some t → t.rest = .ret a →
      x.served.requests[i]? = some r → ChargedFor r.surface a r.account

def Regular (x : Metered) : MeteredEvent → Prop
  | .node e => x.served.node.Regular e
  | .checkpoint => x.world.store.snapOf.Fits

/-- Where the ledger keeps up: a query logs no value in `ns`, and a restart finds the current ledger in the snapshot. -/
def LedgerCurrent (ns : Bytes) (x : Metered) : MeteredEvent → Prop
  | .node (.access i _) => ∀ r ∈ x.served.requests[i]?, r.surface.isQuery = true → ∀ t ∈ x.served.node.threads[i]?,
      t.rest.Next fun o => ∀ y ∈ o.writes, y.1 = ns → y.2.valueBytes = 0
  | .node (.restart _ _) => x.world.disk.savedMeta (quotaKey ns) = x.world.store.metaGet (quotaKey ns)
  | _ => True

variable {site : Site} {x x' : Metered}

/-- The handlers charge, the charges are in the ledger, and they cover what has been logged. -/
structure Balanced (site : Site) (ns : Bytes) (x : Metered) : Prop where
  sound : ∃ g, Sound (x.world, g)
  keeps : x.served.Keeps (fun s => metering ns site.cfg.defaultQuota s.pays) ChargedFor
  exclusive : x.served.node.Exclusive
  held : ∀ i, x.served.node.Holds i → ∃ r, x.served.requests[i]? = some r ∧ r.account.ledger = bytesWritten x.world.store ns
  total : (x.requests.map (·.account.charged)).sum ≤ bytesWritten x.world.store ns
  paid : ∀ r ∈ x.requests, r.surface.stores = true → valueBytes r.account.logged ≤ r.account.charged
  limit : bytesWritten x.world.store ns ≤ site.cfg.defaultQuota

theorem Balanced.ledgerBounds (h : x.Balanced site ns) : x.LedgerBounds ns site.cfg.defaultQuota := by
  refine ⟨(sum_filter_le h.paid).trans h.total, h.limit, fun i t a r ht ha hr => ?_⟩
  obtain ⟨r', hr', hanswer⟩ := h.keeps.answer ht ha
  rw [hr] at hr'
  cases hr'
  exact hanswer

theorem Balanced.ledger_eq (h : x.Balanced site ns) {i : Nat} {r : Request Meter} (hi : x.served.node.Holds i)
    (hr : x.served.requests[i]? = some r) : r.account.ledger = bytesWritten x.world.store ns := by
  obtain ⟨r', hr', hledger⟩ := h.held i hi
  rw [hr] at hr'
  cases hr'
  exact hledger

end Metered

/-! ### Accesses -/

section
variable {limit : Nat} {pays : Bool} {β : Type} {o : Access β} {b : β} {n n₁ : Node} {g : History} {i : Nat} {ms : UInt64} {a : Meter}

theorem meter_store {α : Type} {o : StoreOp α} {r : α} {w1 : World} (hrun : o.run w = .ok r w1) (hlogs : w.Logs w1 o.written.toList)
    (hledger : a.ledger = bytesWritten w.store ns) : meter ns w w1 a = a.after ns o := by
  rw [meter, Meter.after, recordsLogged_of_logs hlogs, StoreOp.ledger_run hrun, hledger]

theorem StoreOp.mayFail_of_run {α : Type} {o : StoreOp α} {f : Fault} {w1 : World} (hrun : o.run w = .error f w1) :
    o.mayFail = true := by
  cases o with
  | metaSet key value => cases hrun
  | createNamespace | put | delete | putBatch | setSchema | setIndex => rfl

theorem metering_answers {P : β → Meter → Prop} (hs : Sound (n.world, g)) (ho : o.Proper)
    (hp : o.perform i ms n = some (some b, n₁)) (hledger : n.Holds i → a.ledger = bytesWritten n.world.store ns)
    (hwp : (metering ns limit pays).wp o a P) : P b (meter ns n.world n₁.world a) := by
  cases o with
  | read f =>
    obtain ⟨hheld, rfl, rfl⟩ := Access.perform_read hp
    rw [meter_self, ← hledger hheld]
    exact hwp _ (hledger hheld).symm
  | store o =>
    obtain ⟨hwriter, houtcome⟩ := Access.perform_store hs ho hp
    have hcurrent := hledger (.inl hwriter)
    obtain ⟨_, _, _, herror, hok⟩ := hwp
    rcases houtcome with ⟨e, rfl, hrun, rfl⟩ | ⟨r, w1, rfl, hrun, rfl, hlogs⟩
    · rw [meter_self, ← hcurrent]
      exact herror (StoreOp.mayFail_of_run hrun) e
    · rw [meter_store hrun hlogs hcurrent]
      exact hok r
  | readLock | writeLock | unlock | scanKeys | draw | clock =>
    rw [Access.perform_world rfl hp, meter_self]
    exact hwp b _

theorem metering_ledger {P : β → Meter → Prop} (hs : Sound (n.world, g)) (ho : o.Proper)
    (hp : o.perform i ms n = some (some b, n₁)) (hledger : n.Holds i → a.ledger = bytesWritten n.world.store ns)
    (hwp : (metering ns limit pays).wp o a P) : bytesWritten n.world.store ns ≤ bytesWritten n₁.world.store ns ∧
      (bytesWritten n.world.store ns ≤ limit → bytesWritten n₁.world.store ns ≤ limit) := by
  cases hstore : o.isStore with
  | false =>
    rw [Access.perform_world hstore hp]
    exact ⟨Nat.le_refl _, id⟩
  | true =>
    cases o with
    | store o =>
      obtain ⟨hwriter, houtcome⟩ := Access.perform_store hs ho hp
      obtain ⟨hgrows, hlimit, _⟩ := hwp
      rw [hledger (.inl hwriter)] at hgrows hlimit
      rcases houtcome with ⟨e, _, _, rfl⟩ | ⟨r, w1, _, hrun, rfl, _⟩
      · exact ⟨Nat.le_refl _, id⟩
      · have hafter : bytesWritten w1.store ns = o.ledger ns (bytesWritten n.world.store ns) := StoreOp.ledger_run hrun
        refine ⟨hgrows.trans hafter.ge, fun h => ?_⟩
        rw [hafter]
        rcases hlimit with hsame | hle
        · rw [hsame]
          exact h
        · exact hle
    | readLock | writeLock | unlock | read | scanKeys | draw | clock => cases hstore

theorem metering_paid {P : β → Meter → Prop} (hs : Sound (n.world, g)) (ho : o.Proper)
    (hp : o.perform i ms n = some (some b, n₁)) (hwp : (metering ns limit pays).wp o a P)
    (hfree : pays = false → ∀ y ∈ o.writes, y.1 = ns → y.2.valueBytes = 0) (ha : valueBytes a.logged ≤ a.charged) :
    valueBytes (meter ns n.world n₁.world a).logged ≤ (meter ns n.world n₁.world a).charged := by
  have hgrows : a.charged ≤ (meter ns n.world n₁.world a).charged := Nat.le_add_right _ _
  refine Nat.le_trans ?_ hgrows
  cases hstore : o.isStore with
  | false =>
    rw [Access.perform_world hstore hp, meter_self]
    exact ha
  | true =>
    cases o with
    | store o =>
      obtain ⟨_, _, hpays, _⟩ := hwp
      rcases (Access.perform_store hs ho hp).2 with ⟨e, _, _, rfl⟩ | ⟨r, w1, _, hrun, rfl, hlogs⟩
      · rw [meter_self]
        exact ha
      · have hlogged : (meter ns n.world w1 a).logged = a.logged ++ (o.written.toList.filter (·.1 = ns)).map (·.2) :=
          recordsLogged_of_logs hlogs a.logged
        rw [hlogged, valueBytes_append]
        cases hw : o.written with
        | none => exact ha
        | some y =>
          by_cases hy : y.1 = ns
          · have hnew : valueBytes (((some y).toList.filter (·.1 = ns)).map (·.2)) = y.2.valueBytes := by
              simp [hy, valueBytes]
            rw [hnew]
            cases hfree' : pays with
            | true => exact hpays hfree' y.2 (by rw [hw, ← hy])
            | false =>
              rw [hfree hfree' y hw hy]
              exact ha
          · have hnew : ((some y).toList.filter (·.1 = ns)).map (·.2) = [] := by simp [hy]
            rw [hnew]
            exact ha
    | readLock | writeLock | unlock | read | scanKeys | draw | clock => cases hstore

end

/-! ### Steps -/

omit [AuthCrates] in
theorem Surface.isQuery_of_stores {s : Surface} (hs : s.stores = true) (hp : s.pays = false) : s.isQuery = true := by
  cases s with
  | query => rfl
  | put | batch => cases hp
  | delete | createNamespace | schemaSet | schemaClear | indexSet | indexClear | create | flush | mkdir | unlink | rmdir | rename
  | truncate => cases hs

namespace Metered

variable {site : Site} {x x' : Metered} {y : Served Meter} {i : Nat} {ms : UInt64}

theorem Balanced.answers (h : x.Balanced site ns) :
    x.served.Answers (fun s => metering ns site.cfg.defaultQuota s.pays) (meter ns) := by
  obtain ⟨g, hs⟩ := h.sound
  intro β o i ms b n r P hr ho hp hwp
  exact metering_answers hs ho hp (fun hi => h.ledger_eq hi hr) hwp

theorem Balanced.access (h : x.Balanced site ns) (hlimit : site.cfg.defaultQuota < 2 ^ 64)
    (hreg : x.served.node.Regular (.access i ms)) (hcurrent : x.LedgerCurrent ns (.node (.access i ms)))
    (hstep : ServedStep site ⟨0, [], 0⟩ (meter ns) x.served (.access i ms) y) : Balanced site ns ⟨y, x.past⟩ := by
  obtain ⟨g, hs⟩ := h.sound
  obtain ⟨hkeeps, hsound⟩ := h.keeps.step hs hreg (fun _ => metering_handler site hlimit) h.answers hstep
  obtain ⟨m, drawn, β, o, k, b, n₁, g', r, ht, hr, ho, hp, _, _, rfl, _, hwp⟩ := h.keeps.access hs hreg hstep
  have hledger : x.served.node.Holds i → r.account.ledger = bytesWritten x.world.store ns := fun hi => h.ledger_eq hi hr
  obtain ⟨hgrows, hbounded⟩ := metering_ledger hs ho hp hledger hwp
  have hmem : r ∈ x.requests := List.mem_append_right _ (List.mem_of_getElem? hr)
  have hexclusive : n₁.Exclusive := Access.perform_exclusive h.exclusive hp
  refine ⟨hsound, hkeeps, hexclusive, fun j hj => ?_, ?_, fun r' hr' hstores => ?_, hbounded h.limit⟩
  · by_cases hji : j = i
    · subst hji
      refine ⟨_, List.getElem?_set_self (List.getElem?_eq_some_iff.1 hr).1, rfl⟩
    · -- another holder: no one has touched the store
      have hholds : x.served.node.Holds j := Access.perform_holds hp hj hji
      obtain ⟨r', hr', hledger'⟩ := h.held j hholds
      refine ⟨r', (List.getElem?_set_ne (Ne.symm hji)).trans hr', hledger'.trans ?_⟩
      have hquiet : o.isStore = false := by
        by_contra hstore
        exact hji (h.exclusive.holder (Access.perform_writer (by simpa using hstore) hp) hholds)
      exact congrArg (fun w : World => bytesWritten w.store ns) (Access.perform_world hquiet hp).symm
  · have hsum := sum_map_set (f := fun r : Request Meter => r.account.charged)
      (a := ⟨r.surface, meter ns x.served.node.world n₁.world r.account⟩) hr
    have htotal := h.total
    simp only [requests, List.map_append, List.sum_append] at htotal ⊢
    simp only [meter] at hsum ⊢
    change _ ≤ bytesWritten n₁.world.store ns
    change _ ≤ bytesWritten x.served.node.world.store ns at htotal
    omega
  · rcases List.mem_append.1 hr' with hr' | hr'
    · exact h.paid r' (List.mem_append_left _ hr') hstores
    · rcases List.mem_or_eq_of_mem_set hr' with hr' | rfl
      · exact h.paid r' (List.mem_append_right _ hr') hstores
      · exact metering_paid hs ho hp hwp (fun hpays => hcurrent r hr (Surface.isQuery_of_stores hstores hpays) _ ht)
          (h.paid r hmem hstores)

theorem Balanced.start (h : x.Balanced site ns) (hlimit : site.cfg.defaultQuota < 2 ^ 64) {s : Surface}
    (hreg : x.served.node.Regular (.start s)) (hstep : ServedStep site ⟨0, [], 0⟩ (meter ns) x.served (.start s) y) :
    Balanced site ns ⟨y, x.past⟩ := by
  obtain ⟨g, hs⟩ := h.sound
  obtain ⟨hkeeps, hsound⟩ := h.keeps.step hs hreg (fun _ => metering_handler site hlimit) h.answers hstep
  cases hstep
  refine ⟨hsound, hkeeps, h.exclusive, fun i hi => ?_, ?_, fun r hr hstores => ?_, h.limit⟩
  · obtain ⟨r, hr, hledger⟩ := h.held i hi
    exact ⟨r, List.getElem?_append_left (List.getElem?_eq_some_iff.1 hr).1 ▸ hr, hledger⟩
  · have htotal := h.total
    simp only [requests, Served.book, List.map_append, List.sum_append, List.map_cons, List.map_nil, List.sum_cons,
      List.sum_nil, Nat.add_zero] at htotal ⊢
    exact htotal
  · rcases List.mem_append.1 hr with hr | hr
    · exact h.paid r (List.mem_append_left _ hr) hstores
    · rcases List.mem_append.1 hr with hr | hr
      · exact h.paid r (List.mem_append_right _ hr) hstores
      · rw [List.mem_singleton.1 hr]
        exact Nat.le_refl 0

theorem Balanced.unheld (h : x.Balanced site ns) (hfree : x.served.node.writer = none ∧ x.served.node.readers = []) {w : World}
    {g : History} (hs : Sound (w, g)) (hledger : bytesWritten w.store ns = bytesWritten x.world.store ns) :
    Balanced site ns ⟨⟨{ x.served.node with world := w }, x.served.requests⟩, x.past⟩ := by
  refine ⟨⟨g, hs⟩, h.keeps, h.exclusive, fun i hi => ?_, h.total.trans hledger.ge, h.paid, hledger.trans_le h.limit⟩
  rcases hi with hi | hi
  · rw [show x.served.node.writer = some i from hi] at hfree
    cases hfree.1
  · rw [show x.served.node.readers = [] from hfree.2] at hi
    cases hi

theorem Balanced.restart (h : x.Balanced site ns) {w : World} {g : History} (hs : Sound (w, g))
    (hledger : bytesWritten w.store ns = bytesWritten x.world.store ns) :
    Balanced site ns ⟨⟨.boot w, []⟩, x.past ++ x.served.requests⟩ := by
  refine ⟨⟨g, hs⟩, .nil, fun hw => absurd rfl hw, fun i hi => ?_, ?_, fun r hr => ?_, hledger.trans_le h.limit⟩
  · rcases hi with hi | hi <;> cases hi
  · rw [requests, List.append_nil]
    exact h.total.trans hledger.ge
  · exact h.paid r (by simpa only [requests, List.append_nil] using hr)

theorem Balanced.step {e : MeteredEvent} (h : x.Balanced site ns) (hlimit : site.cfg.defaultQuota < 2 ^ 64)
    (hstep : guarded (fun x e => x.Regular e ∧ x.LedgerCurrent ns e) (MeteredStep site ns) x e x') : x'.Balanced site ns := by
  obtain ⟨⟨hreg, hcurrent⟩, hstep⟩ := hstep
  obtain ⟨g, hs⟩ := h.sound
  cases e with
  | checkpoint =>
    simp only [MeteredStep, Metered.step] at hstep
    split at hstep
    case isFalse => cases hstep
    case isTrue hfree =>
      cases hstep
      have hledger := Cmd.ledger (c := .checkpoint) rfl ns x.world
      rcases Cmd.outcome (c := .checkpoint) hs hreg with ⟨henabled, _⟩ | ⟨w', g', hok, hevents⟩
      · exact absurd trivial henabled
      · have hcheck : BunnyMesh.checkpoint x.served.node.world = .ok () w' := hok
        rw [hok] at hledger
        rw [hcheck]
        exact h.unheld hfree (hevents.invariant (fun _ _ _ hx he => he.sound hx) hs) hledger
  | node e =>
    obtain ⟨y, hy, rfl⟩ := Option.map_eq_some_iff.1 hstep
    cases e with
    | start s =>
      rw [ended, List.append_nil]
      exact h.start hlimit hreg hy
    | access i ms =>
      rw [ended, List.append_nil]
      exact h.access hlimit hreg hcurrent hy
    | sync m records =>
      rw [ended, List.append_nil]
      obtain ⟨n', hn, rfl⟩ := Option.map_eq_some_iff.1 hy
      simp only [Node.step] at hn
      split at hn
      case isFalse => cases hn
      case isTrue hfree =>
        cases hn
        obtain ⟨g', _, hsound, _, _⟩ := hs.sync m hreg
        have hledger := Cmd.ledger (c := .applySyncedBatch m records) rfl ns x.world
        rw [Cmd.run, finalState_discard] at hledger
        exact h.unheld hfree hsound hledger
    | restart durable now =>
      obtain ⟨w', g', hopen, hsound, _⟩ := hs.restart durable now
      rw [Served.step, Node.step, show openDurable durable now x.served.node.world = .ok () w' from hopen] at hy
      cases hy
      refine h.restart hsound (bytesWritten_of_metaAt ?_)
      rw [← show x.world.disk.savedMeta (quotaKey ns) = x.world.store.metaMap[quotaKey ns]? from hcurrent]
      exact metaAt_of_open (reserved_quotaKey ns) hopen

end Metered

/-- In a run in which no query logs values in a namespace and every restart finds its current ledger in the snapshot, the
ledger bounds what the requests have stored there. -/
theorem quota_ledger_bounds (site : Site) (hlimit : site.cfg.defaultQuota < 2 ^ 64) {w₀ : World} {g₀ : History}
    {es : List MeteredEvent} {x : Metered} (hs : Sound (w₀, g₀)) (hledger : bytesWritten w₀.store ns ≤ site.cfg.defaultQuota)
    (hrun : Run (guarded (fun x e => x.Regular e ∧ x.LedgerCurrent ns e) (MeteredStep site ns)) ⟨⟨.boot w₀, []⟩, []⟩ es x) :
    x.LedgerBounds ns site.cfg.defaultQuota := by
  have hstart : Metered.Balanced site ns ⟨⟨.boot w₀, []⟩, []⟩ := by
    refine ⟨⟨g₀, hs⟩, .nil, fun hw => absurd rfl hw, fun i hi => ?_, Nat.zero_le _, nofun, hledger⟩
    rcases hi with hi | hi <;> cases hi
  have h : x.Balanced site ns := hrun.invariant (fun _ _ _ h hstep => h.step hlimit hstep) hstart
  exact h.ledgerBounds

end

/-! ### Examples -/

section
variable [AuthCrates] {ns : Bytes} {site : Site}

instance (x : Metered) (e : MeteredEvent) : Decidable (x.Regular e) := by
  cases e <;> delta Metered.Regular <;> infer_instance

instance (ns : Bytes) (x : Metered) (e : MeteredEvent) : Decidable (x.LedgerCurrent ns e) := by
  delta Metered.LedgerCurrent
  split <;> infer_instance

theorem Opened.bytesWritten_eq {w : World} (h : Opened w) (ns : Bytes) : bytesWritten w.store ns = 0 := by
  obtain ⟨s, points, durable, now, hopen⟩ := h
  have hmeta : w.MetaAt (quotaKey ns) none := metaAt_of_open (reserved_quotaKey ns) hopen
  have hget : w.store.metaGet (quotaKey ns) = none := hmeta
  rw [bytesWritten, hget]

/-- Run a process on an empty directory, as long as each event is allowed; what is stored and the ledger. -/
def Metered.runFresh (ok : Metered → MeteredEvent → Prop) [∀ x e, Decidable (ok x e)] (site : Site) (ns : Bytes)
    (es : List MeteredEvent) : Option (Nat × Nat) :=
  Node.fresh.bind fun n₀ => (exec ok (Metered.step site ns) ⟨⟨n₀, []⟩, []⟩ es).map fun x =>
    (x.stored, bytesWritten x.world.store ns)

theorem Metered.runFresh_sound {ok : Metered → MeteredEvent → Prop} [∀ x e, Decidable (ok x e)] {es : List MeteredEvent}
    {stored ledger : Nat} (h : Metered.runFresh ok site ns es = some (stored, ledger)) :
    ∃ w0 x, Opened w0 ∧ Run (guarded ok (MeteredStep site ns)) ⟨⟨.boot w0, []⟩, []⟩ es x ∧
      x.stored = stored ∧ bytesWritten x.world.store ns = ledger := by
  obtain ⟨n0, hfresh, h⟩ := Option.bind_eq_some_iff.1 h
  obtain ⟨w0, hopen, rfl⟩ := Option.map_eq_some_iff.1 hfresh
  obtain ⟨x, hexec, hx⟩ := Option.map_eq_some_iff.1 h
  obtain ⟨hstored, hledger⟩ := Prod.mk.inj hx
  exact ⟨w0, x, ⟨_, _, _, _, Exec.okState_eq_some.1 hopen⟩, run_of_exec (fun _ _ _ => id) hexec, hstored, hledger⟩

end

def chargedRun : List MeteredEvent :=
  (makeSpace ++ serving putKey 1 5 9).map .node ++ [.checkpoint] ++
    (.restart false 0 :: serving (.put (str "n") (str "k") (List.replicate 100 0) none .zero) 0 5 5 ++
      serving (.batch (str "n") .zero [⟨str "put", some (str "k"), some (str "AAAA"), none⟩]) 1 5 14).map .node

set_option maxRecDepth 100000 in
theorem quota_ledger_bounds_batch : letI := AuthCrates.trivial
    ∃ (w₀ : World) (g₀ : History) (x : Metered), Sound (w₀, g₀) ∧ bytesWritten w₀.store (str "n") ≤ plainSite.cfg.defaultQuota ∧
      Run (guarded (fun x e => x.Regular e ∧ x.LedgerCurrent (str "n") e) (MeteredStep plainSite (str "n")))
        ⟨⟨.boot w₀, []⟩, []⟩ chargedRun x ∧ x.stored = 4 ∧ x.LedgerBounds (str "n") plainSite.cfg.defaultQuota := by
  have h : letI := AuthCrates.trivial
      Metered.runFresh (fun x e => x.Regular e ∧ x.LedgerCurrent (str "n") e) plainSite (str "n") chargedRun = some (4, 4) := by
    decide +kernel
  let _ := AuthCrates.trivial
  obtain ⟨w₀, x, hw₀, hrun, hstored, _⟩ := Metered.runFresh_sound h
  have hledger : bytesWritten w₀.store (str "n") ≤ plainSite.cfg.defaultQuota := by
    rw [hw₀.bytesWritten_eq]
    exact Nat.zero_le _
  exact ⟨w₀, .empty, x, hw₀.sound.1, hledger, hrun, hstored,
    quota_ledger_bounds plainSite (by decide) hw₀.sound.1 hledger hrun⟩

def freePut : List MeteredEvent :=
  (makeSpace ++ serving (.query (str "n") (.mk (str "put") [.str (str "k"), .str (str "x")])) 1 5 4).map .node

def forgottenCharge : List MeteredEvent := (makeSpace ++ serving putKey 1 5 9 ++ [NodeEvent.restart false 0]).map .node

/-- After the events more has been stored in `n` than its ledger says. -/
def OutrunsLedger [AuthCrates] (es : List MeteredEvent) : Prop :=
  ∃ w₀ x, Opened w₀ ∧ Run (guarded Metered.Regular (MeteredStep plainSite (str "n"))) ⟨⟨.boot w₀, []⟩, []⟩ es x ∧
    bytesWritten x.world.store (str "n") < x.stored ∧ ¬ x.LedgerBounds (str "n") plainSite.cfg.defaultQuota

theorem outrunsLedger_of_run [AuthCrates] {es : List MeteredEvent}
    (h : Metered.runFresh Metered.Regular plainSite (str "n") es = some (1, 0)) : OutrunsLedger es := by
  obtain ⟨w0, x, hw0, hrun, hstored, hledger⟩ := Metered.runFresh_sound h
  have houtrun : bytesWritten x.world.store (str "n") < x.stored := by omega
  exact ⟨w0, x, hw0, hrun, houtrun, fun hbounds => absurd hbounds.1 (Nat.not_le.2 houtrun)⟩

set_option maxRecDepth 100000 in
/-- After the `put` of a query, and after a restart that loses a charge, more is stored than the ledger says. -/
theorem quota_ledger_outrun : letI := AuthCrates.trivial
    OutrunsLedger freePut ∧ OutrunsLedger forgottenCharge := by
  refine ⟨?_, ?_⟩
  · exact @outrunsLedger_of_run AuthCrates.trivial _ (by decide +kernel)
  · exact @outrunsLedger_of_run AuthCrates.trivial _ (by decide +kernel)

end BunnyMesh
