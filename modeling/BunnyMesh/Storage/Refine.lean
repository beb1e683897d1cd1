import BunnyMesh.Storage.Runs
import BunnyMesh.Storage.Slots

/-!
# Reopening refines the live store

A local write changes the store by `Slot.localOp` while replay applies its record by `Slot.recordOp`.  The two agree
unless a put hits a tombstone or does not beat the entry of an LWW key, and a definition set to the empty text is kept
live but removed by replay.  In a run without such writes the store stays what opening its directory would give
(`InSync`), with checkpoints anywhere, so reopening is invisible to readers (`reopen_refines_live`).
-/

namespace BunnyMesh
open Std Store
open Runs (Run guarded)

/-! ### Local writes that replay faithfully -/

/-- A local put that sync semantics would take as well: the key is not under a tombstone, and an LWW entry is not
newer. -/
def Slot.accepts (p : ConflictPolicy) (op : Op) (sl : Slot) : Prop :=
  isPutTag op.tag → sl.tomb = none ∧ (p = .lww → isNewer (op.version 0) sl.entry)

instance (p : ConflictPolicy) (op : Op) (sl : Slot) : Decidable (sl.accepts p op) :=
  inferInstanceAs (Decidable (_ → _))

variable {p : ConflictPolicy}

theorem Slot.localOp_eq_recordOp {op : Op} {sl : Slot} (h : sl.accepts p op) (seq : Nat) :
    sl.localOp p op seq = sl.recordOp p op seq := by
  unfold Slot.localOp Slot.recordOp
  by_cases ht : isPutTag op.tag
  · obtain ⟨htomb, hnew⟩ := h ht
    cases p with
    | lww =>
      have hnew' : isNewer (op.version seq) sl.entry = true := by
        exact hnew rfl
      simp [hnew', htomb]
    | crdtRegister => simp [htomb]
  · rw [if_neg ht, if_neg ht]

theorem Slot.unseq_localOp (p : ConflictPolicy) (op : Op) (seq : Nat) (sl : Slot) :
    (sl.localOp p op seq).unseq = sl.unseq.localOp p op 0 := by
  unfold Slot.localOp
  split
  · cases p with
    | lww => rfl
    | crdtRegister =>
      simp only [versions_unseq]
      simp only [Slot.unseq, Option.map_some, Entry.unseq, List.map_append]
      rfl
  · split <;> rfl

theorem Slot.accepts_congr {op : Op} {sl sl' : Slot} (h : sl.unseq = sl'.unseq)
    (ha : sl.accepts p op) : sl'.accepts p op := by
  intro ht
  obtain ⟨htomb, hnew⟩ := ha ht
  have ht' : sl.unseq.tomb = sl'.unseq.tomb := congrArg Slot.tomb h
  refine ⟨ht'.symm.trans htomb, fun hp => ?_⟩
  rw [← isNewer_unseq op 0, ← h, isNewer_unseq op 0]
  exact hnew hp

def NsState.accepts (p : ConflictPolicy) : NsState → List Op → Prop
  | _, [] => True
  | st, op :: ops => (st.slot op.key).accepts p op ∧ accepts p (st.localOp p 0 op) ops

instance NsState.decidableAccepts (p : ConflictPolicy) : (st : NsState) → (ops : List Op) → Decidable (st.accepts p ops)
  | _, [] => .isTrue trivial
  | st, op :: ops =>
    haveI := decidableAccepts p (st.localOp p 0 op) ops
    inferInstanceAs (Decidable ((st.slot op.key).accepts p op ∧ (st.localOp p 0 op).accepts p ops))

namespace NsState

variable {p : ConflictPolicy} {st st' : NsState} {ops : List Op}

theorem unseq_slot_localOp (h : ∀ k, (st.slot k).unseq = (st'.slot k).unseq) (seq seq' : Nat) (op : Op) (k : Bytes) :
    ((st.localOp p seq op).slot k).unseq = ((st'.localOp p seq' op).slot k).unseq := by
  unfold NsState.localOp
  rcases eq_or_ne k op.key with rfl | hne
  · rw [slot_update_self, slot_update_self, Slot.unseq_localOp, Slot.unseq_localOp, h]
  · rw [slot_update_of_ne st hne, slot_update_of_ne st' hne, h]

theorem accepts_congr (h : ∀ k, (st.slot k).unseq = (st'.slot k).unseq) (ha : st.accepts p ops) : st'.accepts p ops := by
  induction ops generalizing st st' with
  | nil => trivial
  | cons op ops ih => exact ⟨Slot.accepts_congr (h op.key) ha.1, ih (unseq_slot_localOp h 0 0 op) ha.2⟩

theorem foldl_localOp_eq (h : st.accepts p ops) (seq : Nat) :
    ops.foldl (NsState.localOp p seq) st = ops.foldl (NsState.recordOp p seq) st := by
  induction ops generalizing st with
  | nil => rfl
  | cons op ops ih =>
    have hop : st.localOp p seq op = st.recordOp p seq op := by
      rw [NsState.localOp, NsState.recordOp, Slot.localOp_eq_recordOp h.1]
    rw [List.foldl_cons, List.foldl_cons, ← hop]
    exact ih (accepts_congr (unseq_slot_localOp (fun _ => rfl) 0 seq op) h.2)

end NsState

/-- A change that leaves what the replay of its record leaves. -/
def Change.Faithful (p : ConflictPolicy) (st : NsState) : Change → Prop
  | write r => (isOpTag r.tag ∨ r.tag = tagBatch) ∧ st.accepts p r.dataOps
  | synced _ => True
  | schema value _ _ _ => value ≠ some []
  | index value _ _ _ => value ≠ some []

theorem definition_getD {value : Option Bytes} (h : value ≠ some []) : NsState.definition (value.getD []) = value := by
  match value with
  | none => rfl
  | some [] => exact absurd rfl h
  | some (b :: bs) => rfl

theorem Change.effect_eq_record {st : NsState} {c : Change} (h : c.Faithful p st) (seq : Nat) :
    c.effect p seq st = st.record p seq c.record := by
  cases c with
  | write r =>
    obtain ⟨htag, hacc⟩ := h
    change r.dataOps.foldl (NsState.localOp p seq) st = st.record p seq r
    rw [NsState.foldl_localOp_eq hacc]
    unfold Record.dataOps NsState.record
    rcases htag with ht | ht
    · rw [if_pos ht, if_pos ht]
      rfl
    · rw [ht, if_neg (by decide), if_pos rfl, if_neg (by decide), if_pos rfl]
  | synced r => rfl
  | schema value hlc replica author =>
    change { st with schema := value } = { st with schema := NsState.definition (value.getD []) }
    rw [definition_getD h]
  | index value hlc replica author =>
    change { st with indexDef := value } = { st with indexDef := NsState.definition (value.getD []) }
    rw [definition_getD h]

/-! ### The store in step with its log -/

section

variable [Crates]
variable {w w' : World} {g : History} {x x' : World × History} {e : Event} {c : Cmd}

def InSync (x : World × History) : Prop :=
  ∀ (ns : Bytes) p, x.1.store.policies[ns]? = some p → x.1.store.view ns = x.2.recovered ns p

def Event.Faithful (s : Store) : Event → Prop
  | changed ns c => ∀ p, s.policies[ns]? = some p → c.Faithful p (s.view ns)
  | compacted _ => False
  | _ => True

theorem Attached.recovered_snapshot (h : Attached w g) {ns : Bytes} {p : ConflictPolicy}
    (hp : w.store.policies[ns]? = some p) : (g.snapshot w.store).recovered ns p = w.store.view ns := by
  have hlen : (g.bytes ns).length = (g.records ns).length := h.files.length_records (by rw [hp]; simp)
  have hhead : (w.store.snapHead ns).1 = (g.records ns).length := by
    rw [Store.snapHead, h.head_eq hp, Option.getD_some, hlen]
  simp only [History.recovered, History.snapshot, hhead, List.drop_length]
  rfl

theorem Happens.inSync (h : Sound x) (hI : InSync x) (he : Happens x e x') (hf : e.Faithful x.1.store) : InSync x' := by
  have hrun := h.running
  cases he with
  | @created w g ns p log disk points valid fresh running =>
    intro n q hq
    change (w.store.policies.insert ns p)[n]? = some q at hq
    rcases eq_or_ne n ns with rfl | hne
    · rw [hrun.disk.toBaseRep.recovered_create fresh]
      exact hrun.outside n fresh
    · rw [OrdMap.getElem?_insert, if_neg hne.symm] at hq
      rw [History.recovered_create_of_ne hne]
      exact hI n q hq
  | @changed w w' g ns p c logged =>
    obtain ⟨_, hpol, _, hview, hother⟩ := logged.spec hrun.toAttached
    obtain ⟨hp, _, _, _, _⟩ := logged
    intro n q hq
    rw [hpol] at hq
    rcases eq_or_ne n ns with rfl | hne
    · obtain rfl : p = q := Option.some.inj (hp.symm.trans hq)
      have hle : (g.base.snapHead n).1 ≤ (g.records n).length := hrun.disk.snapHead_le (by rw [hp]; simp)
      rw [hview, Change.effect_eq_record (hf p hp), hI n p hp, History.recovered_log hle]
    · rw [hother n hne, History.recovered_log_of_ne hne]
      exact hI n q hq
  | snapshot running => exact fun n q hq => (hrun.toAttached.recovered_snapshot hq).symm
  | reopened running policies derived view => exact fun n q hq => view n q (by rw [← policies]; exact hq)
  | compacted run running => exact hf.elim

/-! ### Faithful runs -/

def Store.Accepts (s : Store) (ns : Bytes) (ops : List Op) : Prop :=
  ∀ p, s.policies[ns]? = some p → (s.view ns).accepts p ops

instance (s : Store) (ns : Bytes) (ops : List Op) : Decidable (s.Accepts ns ops) :=
  match h : s.policies[ns]? with
  | none => .isTrue fun p hp => by rw [h] at hp; cases hp
  | some q => decidable_of_iff ((s.view ns).accepts q ops)
      ⟨fun ha p hp => by rw [h, Option.some.injEq] at hp; exact hp ▸ ha, fun ha => ha q h⟩

/-- What an operation has to meet for its record to replay to what it did. -/
def Cmd.Faithful (s : Store) : Cmd → Prop
  | put ns key value hlc replica author expiresAt =>
    s.Accepts ns [(putRecord key value hlc replica author expiresAt).toOp]
  | putBatch ns ops => s.Accepts ns ops
  | setSchema _ value _ _ _ => value ≠ some []
  | setIndex _ value _ _ _ => value ≠ some []
  | gcLive _ => False
  | _ => True

instance (s : Store) (c : Cmd) : Decidable (c.Faithful s) := by
  induction c using Cmd.casesOn <;> dsimp only [Cmd.Faithful] <;> infer_instance

omit [Crates] in
theorem Cmd.Faithful.events (h : c.Faithful w.store) :
    (∃ e, c.events w = [e] ∧ e.Faithful w.store) ∨ ∀ e ∈ c.events w, ∀ s, e.Faithful s := by
  cases c with
  | createNamespace ns policy => exact .inl ⟨_, rfl, trivial⟩
  | put ns key value hlc replica author expiresAt =>
    have htag : isOpTag (putRecord key value hlc replica author expiresAt).tag := by
      rcases putRecord_tag key value hlc replica author expiresAt with ⟨ht, _⟩ | ⟨ht, _⟩ <;> rw [ht] <;> decide
    refine .inl ⟨_, rfl, fun p hp => ⟨.inl htag, ?_⟩⟩
    rw [Record.dataOps, if_pos htag]
    exact h p hp
  | delete ns key hlc replica author =>
    refine .inl ⟨_, rfl, fun p hp => ⟨.inl rfl, ?_, trivial⟩⟩
    exact fun ht => absurd ht (show ¬ isPutTag tagDel by decide)
  | putBatch ns ops =>
    refine .inl ⟨_, rfl, fun p hp => ⟨.inr (batchRecord_tag ops), ?_⟩⟩
    rw [Record.dataOps, batchRecord_tag, if_neg (by decide), if_pos rfl, batchRecord_ops]
    exact h p hp
  | setSchema ns value hlc replica author => exact .inl ⟨_, rfl, fun _ _ => h⟩
  | setIndex ns value hlc replica author => exact .inl ⟨_, rfl, fun _ _ => h⟩
  | applySynced ns record =>
    refine .inr fun e he s => ?_
    obtain ⟨r, _, rfl⟩ := List.mem_map.1 he
    exact fun _ _ => trivial
  | applySyncedBatch ns records =>
    refine .inr fun e he s => ?_
    obtain ⟨r, _, rfl⟩ := List.mem_map.1 he
    exact fun _ _ => trivial
  | checkpoint => exact .inl ⟨_, rfl, trivial⟩
  | gcLive now => exact h.elim
  | reopen durable now => exact .inl ⟨_, rfl, trivial⟩

theorem Cmd.Faithful.inSync (h : Sound (w, g)) (hI : InSync (w, g)) (hf : c.Faithful w.store)
    (hrun : Run Happens (w, g) (c.events w) x') : InSync x' := by
  rcases hf.events with ⟨e, heq, he⟩ | hall
  · rw [heq] at hrun
    cases hrun with
    | cons first rest =>
      cases rest
      exact first.inSync h hI he
  · refine (hrun.invariant_of_mem (I := fun x => Sound x ∧ InSync x) ?_ ⟨h, hI⟩).2
    exact fun e he x x' hx hstep => ⟨hstep.sound hx.1, hstep.inSync hx.1 hx.2 (hall e he _)⟩

/-! ### Same reads -/

/-- Two stores no reader of namespaces, keys, definitions and log heads can tell apart. -/
structure SameReads (s s' : Store) : Prop where
  namespaces : s'.namespaces = s.namespaces
  policy (ns : Bytes) : s'.policy ns = s.policy ns
  get (ns key : Bytes) : s'.get ns key = s.get ns key
  scan (ns pre : Bytes) : s'.scan ns pre = s.scan ns pre
  schema (ns : Bytes) : s'.schema ns = s.schema ns
  indexDef (ns : Bytes) : s'.indexDef ns = s.indexDef ns
  head (ns : Bytes) : s'.head ns = s.head ns

theorem Attached.sameReads (h : Attached w g) (h' : Attached w' g) (hpol : w'.store.policies = w.store.policies)
    (hview : ∀ (ns : Bytes) p, w.store.policies[ns]? = some p → w'.store.view ns = w.store.view ns) :
    SameReads w.store w'.store := by
  have hv : ∀ ns : Bytes, w'.store.view ns = w.store.view ns := by
    intro ns
    cases hp : w.store.policies[ns]? with
    | some p => exact hview ns p hp
    | none => rw [h.outside ns hp, h'.outside ns (by rw [hpol, hp])]
  have hindex : w'.store.index = w.store.index := by
    refine ExtTreeMap.ext_getElem? fun (ns, k) => ?_
    exact congrArg (fun st => (st.slot k).entry) (hv ns)
  refine ⟨by rw [Store.namespaces, hpol, Store.namespaces], fun ns => by rw [Store.policy, hpol, Store.policy],
    fun ns key => ?_, fun ns pre => by rw [Store.scan, Store.rangeOf, hindex, Store.scan, Store.rangeOf],
    fun ns => congrArg NsState.schema (hv ns), fun ns => congrArg NsState.indexDef (hv ns), fun ns => ?_⟩
  · rw [Store.get_eq_visible, Store.get_eq_visible, hv]
  · cases hp : w.store.policies[ns]? with
    | some p => rw [h.head_eq hp, h'.head_eq (by rw [hpol, hp])]
    | none => rw [h.head_none hp, h'.head_none (by rw [hpol, hp])]

/-- In a run whose operations replay faithfully, wherever the process stops, the directory opens to a store that
reads as the live one did. -/
theorem reopen_refines_live {w₀ : World} {cmds : List Cmd} (h₀ : Opened w₀)
    (hrun : Run (guarded (fun w c => c.Valid w.store ∧ c.Faithful w.store) Step) w₀ cmds w) (s : Store)
    (points : List Disk) (durable : Bool) (now : UInt64) :
    ∃ w', openDurable durable now ⟨s, w.disk, points⟩ = .ok () w' ∧ SameReads w.store w'.store := by
  obtain ⟨hsound, hempty⟩ := h₀.sound
  have hsync : InSync (w₀, .empty) := fun ns p hp => by
    rw [hempty] at hp
    simp at hp
  obtain ⟨g, hs, hI⟩ := run_invariant (fun _ _ h => h.1)
    (fun _ _ _ _ hs hI hok hevents => Cmd.Faithful.inSync hs hI hok.2 hevents) hrun hsound hsync
  obtain ⟨w', hopen, hrunning, hpol, _, _, hview⟩ := openDurable_spec hs.running.disk s points durable now
  exact ⟨w', hopen, hs.running.toAttached.sameReads hrunning.toAttached hpol
    fun ns p hp => (hview ns p hp).trans (hI ns p hp).symm⟩

end

/-- A run with a checkpoint between its writes. -/
theorem reopen_refines_live_after_checkpoint : letI := Crates.trivial
    ∃ w₀ w, Opened w₀ ∧
      Run (guarded (fun w c => c.Valid w.store ∧ c.Faithful w.store) Step) w₀
        [.createNamespace [97] .lww, .put [97] [1] [10] 1 .zero .zero 0, .checkpoint, .delete [97] [1] 2 .zero .zero] w ∧
      ∃ w', openDurable false 0 ⟨w.store, w.disk, w.points⟩ = .ok () w' ∧ SameReads w.store w'.store := by
  let _ := Crates.trivial
  have h : (freshRun (fun w c => c.Valid w.store ∧ c.Faithful w.store)
      [.createNamespace [97] .lww, .put [97] [1] [10] 1 .zero .zero 0, .checkpoint,
        .delete [97] [1] 2 .zero .zero]).isSome := by decide +kernel
  obtain ⟨w, hw⟩ := Option.isSome_iff_exists.1 h
  obtain ⟨w₀, h₀, hrun⟩ := freshRun_sound hw
  exact ⟨w₀, w, h₀, hrun, reopen_refines_live h₀ hrun ..⟩

set_option maxRecDepth 100000 in
/-- A deleted key that is written again is lost when the store is reopened. -/
theorem rewritten_key_lost_on_reopen : letI := Crates.trivial
    ∃ w₀ w w', Opened w₀ ∧
      Run (guarded (fun w c => c.Valid w.store) Step) w₀
        [.createNamespace [97] .lww, .put [97] [1] [10] 1 .zero .zero 0, .delete [97] [1] 2 .zero .zero,
          .put [97] [1] [20] 3 .zero .zero 0] w ∧
      openDurable false 0 ⟨w.store, w.disk, w.points⟩ = .ok () w' ∧
      (w.store.get [97] [1]).isSome ∧ w'.store.get [97] [1] = none := by
  have h : letI := Crates.trivial; ((freshRun (fun w c => c.Valid w.store)
      [.createNamespace [97] .lww, .put [97] [1] [10] 1 .zero .zero 0, .delete [97] [1] 2 .zero .zero,
        .put [97] [1] [20] 3 .zero .zero 0]).any fun w => (w.store.get [97] [1]).isSome &&
          (Exec.okState (openDurable false 0 ⟨w.store, w.disk, w.points⟩)).any
            fun w' => (w'.store.get [97] [1]).isNone) = true := by decide +kernel
  let _ := Crates.trivial
  obtain ⟨w, hw, hget⟩ := (Option.any_eq_true ..).1 h
  obtain ⟨w₀, h₀, hrun⟩ := freshRun_sound hw
  rw [Bool.and_eq_true] at hget
  obtain ⟨w', hopen, hnone⟩ := (Option.any_eq_true ..).1 hget.2
  exact ⟨w₀, w, w', h₀, hrun, Exec.okState_eq_some.1 hopen, hget.1, Option.isNone_iff_eq_none.1 hnone⟩

end BunnyMesh
