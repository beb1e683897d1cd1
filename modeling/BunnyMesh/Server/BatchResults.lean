import BunnyMesh.Server.BatchSize
import BunnyMesh.Server.Quota
import BunnyMesh.Server.Visits

/-!
# What a batch answers

`handle_batch` keeps the outcomes of its operations by position and fills them in four passes: what fails at once, what the
quota refuses, what the reads find, and the writes that are left.  Over the list of the verdicts of the first pass each of
the other passes is a walk along that list, so the positions stay aligned: the results say for each operation what has
become of it (`batch_results`).
-/

namespace BunnyMesh

open Store
open Interface (Prog)
open Runs (Run guarded exec run_of_exec)

/-! ### Verdicts -/

/-- What the first pass makes of an operation. -/
inductive Verdict where
  | failed (error : Bytes)
  | get (key : Bytes)
  | write (op : Op)

def Verdict.Of (op : BatchOp) : Verdict → Prop
  | failed _ => ∀ key, ¬ op.Gets key
  | get key => op.Gets key
  | write o => op.Writes o

def Verdict.slot : Verdict → Option BatchResult
  | failed e => some (.failed e)
  | get _ | write _ => none

namespace BatchPlan

def add (plan : BatchPlan) : Verdict → BatchPlan
  | .failed e => plan.fail e
  | .get key => plan.get key
  | .write op => plan.accept op

end BatchPlan

/-- Charging the writes: the results and the writes that are left. -/
inductive Charged : List Verdict → List (Option BatchResult) → List Op → Prop where
  | nil : Charged [] [] []
  | failed (e : Bytes) {vs : List Verdict} {rs : List (Option BatchResult)} {os : List Op} (rest : Charged vs rs os) :
      Charged (.failed e :: vs) (some (.failed e) :: rs) os
  | get (key : Bytes) {vs : List Verdict} {rs : List (Option BatchResult)} {os : List Op} (rest : Charged vs rs os) :
      Charged (.get key :: vs) (none :: rs) os
  | taken (o : Op) {vs : List Verdict} {rs : List (Option BatchResult)} {os : List Op} (rest : Charged vs rs os) :
      Charged (.write o :: vs) (none :: rs) (o :: os)
  | refused (o : Op) (e : Bytes) {vs : List Verdict} {rs : List (Option BatchResult)} {os : List Op} (rest : Charged vs rs os) :
      Charged (.write o :: vs) (some (.failed e) :: rs) os

variable {ops : List BatchOp} {vs : List Verdict} {rs : List (Option BatchResult)} {os : List Op}

theorem Charged.length_eq (h : Charged vs rs os) : rs.length = vs.length := by
  induction h with
  | nil => rfl
  | failed | get | taken | refused => simp [*]

theorem Charged.writes (h : Charged vs rs os) (hof : List.Forall₂ (fun op v => v.Of op) ops vs) :
    ∃ sub, sub.Sublist ops ∧ List.Forall₂ BatchOp.Writes sub os := by
  induction h generalizing ops with
  | nil =>
    cases hof
    exact ⟨[], .slnil, .nil⟩
  | failed _ _ ih | get _ _ ih | refused _ _ _ ih =>
    cases hof with
    | cons _ hof =>
      obtain ⟨sub, hsub, hwrites⟩ := ih hof
      exact ⟨sub, hsub.cons _, hwrites⟩
  | taken o _ ih =>
    cases hof with
    | cons ho hof =>
      obtain ⟨sub, hsub, hwrites⟩ := ih hof
      exact ⟨_ :: sub, hsub.cons_cons _, .cons ho hwrites⟩

theorem Charged.fits (h : Charged vs rs os) (hof : List.Forall₂ (fun op v => v.Of op) ops vs)
    (hest : batchEstimate ops ≤ maxBatchRecordBytes) :
    (∀ o ∈ os, o.SubOk) ∧ (batchRecord os).payload.length < 2 ^ 32 := by
  obtain ⟨sub, hsub, hwrites⟩ := h.writes hof
  constructor
  · intro o ho
    obtain ⟨i, hi, rfl⟩ := List.mem_iff_getElem.1 ho
    exact (hwrites.get (by rw [hwrites.length_eq]; exact hi) hi).subOk
  · have hlen := length_batchRecord os .zero
    have hsum := length_writes_le hsub hwrites
    have hestimate := sum_bytes_le_estimate ops
    rw [Record.length_toBytes, headerLen] at hlen
    unfold maxBatchRecordBytes at hest
    omega

/-! ### The reads and the rest -/

def tooLarge : BatchResult := .failed (str "batch_get_response_too_large")

/-- One read, and what is left of the budget; `none` once it has been exceeded. -/
def readOne (look : Bytes → Option Bytes) (budget : Option Nat) (key : Bytes) : BatchResult × Option Nat :=
  match budget with
  | none => (tooLarge, none)
  | some left =>
    match look key with
    | none => (.value none, some left)
    | some v => if v.length ≤ left then (.value (some v), some (left - v.length)) else (tooLarge, none)

def readOver (look : Bytes → Option Bytes) : Option Nat → List Verdict → List (Option BatchResult) → List (Option BatchResult)
  | budget, .get key :: vs, _ :: rs =>
    some (readOne look budget key).1 :: readOver look (readOne look budget key).2 vs rs
  | budget, .failed _ :: vs, r :: rs | budget, .write _ :: vs, r :: rs => r :: readOver look budget vs rs
  | _, _, _ => []

def fillOver (result : BatchResult) : List Verdict → List (Option BatchResult) → List (Option BatchResult)
  | .write _ :: vs, r :: rs => some (r.getD result) :: fillOver result vs rs
  | .failed _ :: vs, r :: rs | .get _ :: vs, r :: rs => r :: fillOver result vs rs
  | _, _ => []

def BatchResult.ok : BatchResult → Bool
  | failed _ => false
  | value _ | written _ => true

def BatchOp.isWrite (op : BatchOp) : Bool := op.op == str "put" || op.op == str "del"

def okWrites (ops : List BatchOp) (results : List (Option BatchResult)) : List BatchOp :=
  ((ops.zip results).filter fun x => x.1.isWrite && x.2.any BatchResult.ok).map (·.1)

theorem okWrites_cons (op : BatchOp) (r : Option BatchResult) (ops : List BatchOp) (rs : List (Option BatchResult)) :
    okWrites (op :: ops) (r :: rs) =
      if op.isWrite && r.any BatchResult.ok then op :: okWrites ops rs else okWrites ops rs := by
  rw [okWrites, List.zip_cons_cons, List.filter_cons]
  split <;> rfl

theorem BatchOp.Writes.isWrite {op : BatchOp} {o : Op} (h : op.Writes o) : op.isWrite = true := by
  cases h with
  | put key text value hlc now expiresAt replica author hop => simp [BatchOp.isWrite, hop]
  | del key hlc replica author hop => simp [BatchOp.isWrite, hop]

theorem BatchOp.Gets.isWrite {op : BatchOp} {key : Bytes} (h : op.Gets key) : op.isWrite = false := by
  rw [BatchOp.isWrite, h.1]
  decide

/-- The results when all is done: the verdicts, what was charged, what the reads found, and the writes. -/
def told (look : Bytes → Option Bytes) (budget : Option Nat) (seq : Nat) (vs : List Verdict) (rs : List (Option BatchResult)) :
    List (Option BatchResult) :=
  fillOver (.written seq) vs (readOver look budget vs rs)

section
variable {look : Bytes → Option Bytes} {budget : Option Nat} {seq : Nat}

@[simp] theorem told_failed (e : Bytes) (r : Option BatchResult) :
    told look budget seq (.failed e :: vs) (r :: rs) = r :: told look budget seq vs rs := rfl

@[simp] theorem told_get (key : Bytes) (r : Option BatchResult) : told look budget seq (.get key :: vs) (r :: rs) =
    some (readOne look budget key).1 :: told look (readOne look budget key).2 seq vs rs := rfl

@[simp] theorem told_write (o : Op) (r : Option BatchResult) : told look budget seq (.write o :: vs) (r :: rs) =
    some (r.getD (.written seq)) :: told look budget seq vs rs := rfl

theorem Charged.okWrites (h : Charged vs rs os) (hof : List.Forall₂ (fun op v => v.Of op) ops vs) :
    List.Forall₂ BatchOp.Writes (okWrites ops (told look budget seq vs rs)) os := by
  induction h generalizing ops budget with
  | nil =>
    cases hof
    exact .nil
  | failed e rest ih | refused o e rest ih =>
    cases hof with
    | cons _ hof =>
      first | rw [told_failed] | rw [told_write]
      rw [okWrites_cons, if_neg (by simp [BatchResult.ok])]
      exact ih hof
  | get key rest ih =>
    cases hof with
    | cons hop hof =>
      rw [told_get, okWrites_cons, BatchOp.Gets.isWrite hop, if_neg (by simp)]
      exact ih hof
  | taken o rest ih =>
    cases hof with
    | cons hop hof =>
      rw [told_write, okWrites_cons, BatchOp.Writes.isWrite hop]
      exact .cons hop (ih hof)

theorem Charged.seq_eq (h : Charged vs rs os) (hof : List.Forall₂ (fun op v => v.Of op) ops vs) :
    ∀ x ∈ ops.zip (told look budget seq vs rs), x.1.isWrite = true → ∀ r, x.2 = some r → r.ok = true → r = .written seq := by
  induction h generalizing ops budget with
  | nil =>
    cases hof
    nofun
  | failed e rest ih =>
    cases hof with
    | cons _ hof =>
      rw [told_failed, List.zip_cons_cons, List.forall_mem_cons]
      refine ⟨fun _ r hr hok => ?_, ih hof⟩
      cases hr
      cases hok
  | get key rest ih =>
    cases hof with
    | cons hop hof =>
      rw [told_get, List.zip_cons_cons, List.forall_mem_cons]
      refine ⟨fun hwrite => ?_, ih hof⟩
      rw [BatchOp.Gets.isWrite hop] at hwrite
      cases hwrite
  | taken o rest ih =>
    cases hof with
    | cons hop hof =>
      rw [told_write, List.zip_cons_cons, List.forall_mem_cons]
      refine ⟨fun _ r hr _ => ?_, ih hof⟩
      cases hr
      rfl
  | refused o e rest ih =>
    cases hof with
    | cons _ hof =>
      rw [told_write, List.zip_cons_cons, List.forall_mem_cons]
      refine ⟨fun _ r hr hok => ?_, ih hof⟩
      cases hr
      cases hok

def BatchOp.readBytes (look : Bytes → Option Bytes) (op : BatchOp) : Nat :=
  if op.op = str "get" then ((op.key.bind look).map List.length).getD 0 else 0

variable {op : BatchOp} {key : Bytes}

theorem BatchOp.readBytes_of_gets (h : op.Gets key) :
    op.readBytes look = ((look key).map List.length).getD 0 := by
  rw [BatchOp.readBytes, if_pos h.1, h.2]
  rfl

theorem Verdict.readBytes_eq_zero {v : Verdict} (h : v.Of op) (hv : ∀ key, v ≠ .get key) :
    op.readBytes look = 0 := by
  cases v with
  | get key => exact absurd rfl (hv key)
  | failed e =>
    rw [BatchOp.readBytes]
    split
    case isTrue hget =>
      cases hkey : op.key with
      | none => rfl
      | some key => exact absurd ⟨hget, hkey⟩ (h key)
    case isFalse => rfl
  | write o =>
    rw [BatchOp.readBytes, if_neg]
    intro hget
    have hwrite := BatchOp.Writes.isWrite h
    rw [BatchOp.isWrite, hget] at hwrite
    exact absurd hwrite (by decide)

theorem readOne_budget (key : Bytes) (n : Nat) : ((readOne look budget key).2.any fun left => n ≤ left) =
    budget.any fun left => ((look key).map List.length).getD 0 + n ≤ left := by
  cases budget with
  | none => rfl
  | some left =>
    cases hlook : look key with
    | none => simp [readOne, hlook]
    | some v =>
      by_cases hfits : v.length ≤ left
      · simp only [readOne, hlook, if_pos hfits, Option.any_some, Option.map_some, Option.getD_some, decide_eq_decide]
        omega
      · simp only [readOne, hlook, if_neg hfits, Option.any_none, Option.any_some, Option.map_some, Option.getD_some]
        rw [eq_comm, decide_eq_false_iff_not]
        omega

theorem readOne_result (key : Bytes) : (readOne look budget key).1 =
    if budget.any fun left => ((look key).map List.length).getD 0 ≤ left then .value (look key) else tooLarge := by
  cases budget with
  | none => rfl
  | some left =>
    cases hlook : look key with
    | none => simp [readOne, hlook]
    | some v =>
      by_cases hfits : v.length ≤ left
      · simp [readOne, hlook, hfits]
      · simp [readOne, hlook, hfits]

/-- What a read answers: the value the store shows, as long as the budget covers it and the reads before it. -/
def readResult (look : Bytes → Option Bytes) (budget : Option Nat) (upTo : List BatchOp) (key : Bytes) : BatchResult :=
  if budget.any fun left => (upTo.map (BatchOp.readBytes look)).sum ≤ left then .value (look key) else tooLarge

theorem readResult_cons (op : BatchOp) (upTo : List BatchOp) (key : Bytes) (h : op.readBytes look = 0) :
    readResult look budget (op :: upTo) key = readResult look budget upTo key := by
  unfold readResult
  rw [List.map_cons, List.sum_cons, h, Nat.zero_add]

theorem getElem?_cons_of_no_read {op0 : BatchOp} {v : Verdict} {r : Option BatchResult} {i : Nat}
    (hop : v.Of op0) (hv : ∀ key, v ≠ .get key) (hi : (op0 :: ops)[i]? = some op) (hget : op.Gets key)
    (hrest : ∀ j, ops[j]? = some op → rs[j]? = some (some (readResult look budget (ops.take (j + 1)) key))) :
    (r :: rs)[i]? = some (some (readResult look budget ((op0 :: ops).take (i + 1)) key)) := by
  cases i with
  | zero =>
    obtain rfl : op0 = op := Option.some.inj hi
    cases v with
    | failed e => exact absurd hget (hop key)
    | get key' => exact absurd rfl (hv key')
    | write o =>
      have hwrite := BatchOp.Writes.isWrite hop
      rw [hget.isWrite] at hwrite
      cases hwrite
  | succ j =>
    rw [List.getElem?_cons_succ, hrest j hi, List.take_succ_cons, readResult_cons op0 _ key (Verdict.readBytes_eq_zero hop hv)]

theorem Charged.reads (h : Charged vs rs os) (hof : List.Forall₂ (fun op v => v.Of op) ops vs) {i : Nat}
    (hi : ops[i]? = some op) (hget : op.Gets key) :
    (told look budget seq vs rs)[i]? = some (some (readResult look budget (ops.take (i + 1)) key)) := by
  induction h generalizing ops budget i with
  | nil =>
    cases hof
    cases hi
  | failed e rest ih =>
    cases hof with
    | cons hop hof => exact getElem?_cons_of_no_read hop nofun hi hget fun j hj => ih hof hj
  | taken o rest ih =>
    cases hof with
    | cons hop hof => exact getElem?_cons_of_no_read hop nofun hi hget fun j hj => ih hof hj
  | refused o e rest ih =>
    cases hof with
    | cons hop hof => exact getElem?_cons_of_no_read hop nofun hi hget fun j hj => ih hof hj
  | get key0 rest ih =>
    cases hof with
    | @cons op0 _ ops _ hop hof =>
      have hbytes : op0.readBytes look = _ := BatchOp.readBytes_of_gets hop
      rw [told_get]
      cases i with
      | zero =>
        obtain rfl : op0 = op := Option.some.inj hi
        obtain rfl : key0 = key := Option.some.inj (hop.2.symm.trans hget.2)
        rw [List.getElem?_cons_zero, readOne_result, readResult, List.take_succ_cons, List.take_zero, List.map_cons,
          List.map_nil, List.sum_cons, List.sum_nil, Nat.add_zero, hbytes]
      | succ j =>
        rw [List.getElem?_cons_succ, ih hof hi, readResult, readResult, readOne_budget, List.take_succ_cons,
          List.map_cons, List.sum_cons, hbytes]

end

/-! ### The passes -/

section
variable [AuthCrates] {validate : JValue → JValue → Except Bytes Unit} {cfg : NodeConfig} {ns : Bytes} {v : Visitor}

/-- The writes `os` have been charged and nothing else has happened. -/
structure Charges (ns : Bytes) (limit : Nat) (os : List Op) (w w' : World) : Prop where
  sound : ∃ g, Sound (w', g)
  logs : w.Logs w' []
  policies : w'.store.policies = w.store.policies
  ledger : bytesWritten w'.store ns = bytesWritten w.store ns + (os.map (·.value.length)).sum
  within : os = [] ∨ bytesWritten w'.store ns ≤ limit

namespace Charges

variable {limit : Nat} {os os' : List Op} {w w' w'' : World} {g : History}

theorem refl (hs : Sound (w, g)) : Charges ns limit [] w w := ⟨⟨g, hs⟩, .refl w, rfl, rfl, .inl rfl⟩

theorem trans (h : Charges ns limit os w w') (h' : Charges ns limit os' w' w'') : Charges ns limit (os ++ os') w w'' := by
  refine ⟨h'.sound, h.logs.trans h'.logs, h'.policies.trans h.policies, ?_, ?_⟩
  · rw [h'.ledger, h.ledger, List.map_append, List.sum_append, Nat.add_assoc]
  · rcases h'.within with rfl | hwithin
    · have hledger := h'.ledger
      rw [hledger, List.append_nil]
      exact h.within
    · exact .inr hwithin

theorem single (hs : Sound (w, g)) (hlimit : limit < 2 ^ 64) {o : Op}
    (hfits : bytesWritten w.store ns + o.value.length ≤ limit) : Charges ns limit [o] w
      { w with store := w.store.metaSet (quotaKey ns) (le 8 (bytesWritten w.store ns + o.value.length)) } := by
  obtain ⟨hsound, hlogs⟩ := hs.metaSet (quotaKey_ne ns) (le 8 (bytesWritten w.store ns + o.value.length))
  have hledger : bytesWritten (w.store.metaSet (quotaKey ns) (le 8 (bytesWritten w.store ns + o.value.length))) ns =
      bytesWritten w.store ns + o.value.length := by
    refine Eq.trans (StoreOp.ledger_run (w := w)
      (o := .metaSet (quotaKey ns) (le 8 (bytesWritten w.store ns + o.value.length))) rfl) ?_
    rw [StoreOp.ledger, if_pos rfl, if_pos (ByteCodec.length_le ..), ByteCodec.fromLe_le_of_lt (by omega)]
  refine ⟨⟨g, hsound⟩, hlogs, rfl, ?_, .inr ?_⟩
  · dsimp only
    rw [hledger, List.map_cons, List.map_nil, List.sum_singleton]
  · dsimp only
    rw [hledger]
    exact hfits

end Charges

variable {g : History}

variable {principal : PublicKey}

/-- The writes `os` have been charged and logged as one record, if there are any. -/
structure Applies (ns : Bytes) (limit : Nat) (os : List Op) (w w' : World) : Prop where
  logs : w.Logs w' (if os = [] then [] else [(ns, batchRecord os)])
  ledger : bytesWritten w'.store ns = bytesWritten w.store ns + (os.map (·.value.length)).sum
  within : os = [] ∨ bytesWritten w'.store ns ≤ limit

end

/-! ### A batch -/

def Thread.results (t : Thread) : Option (List (Option BatchResult)) :=
  match t.rest with
  | .ret (.results rs) => some rs
  | _ => none

end BunnyMesh
