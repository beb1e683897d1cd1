import BunnyMesh.Storage.Converge
import BunnyMesh.Storage.Refine

/-!
# Reads and scans

`get` looks at the tombstones before the index, `scan` at the index alone.  They agree as long as no key is in both
(`NsState.Exclusive`), and a local write keeps it so.  A synced or replayed put leaves the tombstone of its key where it
is: it is the one way to a key that is scanned and not found.
-/

namespace BunnyMesh

open Std Store
open Runs (Run guarded)

/-! ### Entries and tombstones -/

def Slot.Exclusive (sl : Slot) : Prop := ¬ (sl.entry.isSome ∧ sl.tomb.isSome)

def NsState.Exclusive (st : NsState) : Prop := ∀ k, (st.slot k).Exclusive

/-- Every scan shows exactly the keys that `get` finds, with the same entries. -/
def Store.ScanAgrees (s : Store) : Prop :=
  ∀ ns pre k, (∀ e, (k, e) ∈ s.scan ns pre ↔ pre <+: k ∧ s.get ns k = some e) ∧
    (k ∈ s.scanKeys ns pre ↔ pre <+: k ∧ s.get ns k ≠ none)

theorem Slot.visible_eq_entry_iff (sl : Slot) : sl.visible = sl.entry ↔ sl.Exclusive := by
  obtain ⟨e, t⟩ := sl
  unfold Slot.Exclusive Slot.visible
  cases t with
  | none => simp
  | some hlc =>
    cases e with
    | none => simp
    | some e => simp

theorem Store.scanAgrees_iff (s : Store) : s.ScanAgrees ↔ ∀ ns, (s.view ns).Exclusive := by
  have hget : ∀ ns k, s.get ns k = s.index[(ns, k)]? ↔ ((s.view ns).slot k).Exclusive := by
    intro ns k
    rw [Store.get_eq_visible]
    exact Slot.visible_eq_entry_iff _
  constructor
  · intro h ns k
    rw [← hget]
    refine Option.ext fun e => ?_
    have hscan := (h ns [] k).1 e
    rw [Store.mem_scan] at hscan
    simpa using hscan.symm
  · intro h ns pre k
    have heq := (hget ns k).2 (h ns k)
    have hscan : ∀ e, (k, e) ∈ s.scan ns pre ↔ pre <+: k ∧ s.get ns k = some e := by
      intro e
      rw [Store.mem_scan, heq, and_comm]
    refine ⟨hscan, ?_⟩
    rw [Store.mem_scanKeys, Option.ne_none_iff_exists']
    simp [hscan, exists_and_left]

theorem NsState.exclusive_empty : NsState.empty.Exclusive := by
  intro k
  simp [NsState.empty, Slot.Exclusive]

theorem Slot.exclusive_localOp {sl : Slot} (h : sl.Exclusive) (p : ConflictPolicy) (op : Op) (seq : Nat) :
    (sl.localOp p op seq).Exclusive := by
  unfold Slot.localOp
  split
  · cases p <;> simp [Slot.Exclusive]
  · split
    · simp [Slot.Exclusive]
    · exact h

theorem NsState.Exclusive.foldl_localOp {st : NsState} (h : st.Exclusive) (p : ConflictPolicy) (seq : Nat)
    (ops : List Op) : (ops.foldl (NsState.localOp p seq) st).Exclusive :=
  Each.foldl_localOp h fun op _ _ hsl => Slot.exclusive_localOp hsl p op seq

variable {p : ConflictPolicy}

theorem NsState.Exclusive.compactedTo {s : Store} {ns : Bytes} (h : (s.view ns).Exclusive)
    (hs : (s.view ns).Shaped p) (now : UInt64) : ((s.view ns).compactedTo p (compacted s ns now)).Exclusive := by
  unfold NsState.compactedTo
  split
  · exact h
  · intro k hboth
    have hcleared : ∀ k, (s.view ns).cleared.slot k = ⟨none, none⟩ := fun _ => rfl
    have hslot := unseq_slot_compacted hs now hcleared k
    obtain ⟨e', he'⟩ := Option.isSome_iff_exists.1 hboth.1
    obtain ⟨e, -, he, -, -⟩ := Slot.entry_of_compact hslot he'
    have htomb := Slot.tomb_of_compact hslot
    rw [he, Option.isSome_some, if_pos rfl] at htomb
    rw [htomb] at hboth
    exact absurd hboth.2 (by simp)

/-! ### Replayed puts -/

/-- The last operation on the key is a put, although the key was under a tombstone before or an earlier operation
deletes it. -/
def Revives (tombed : Bytes → Bool) (ops : List Op) (k : Bytes) : Bool :=
  ((ops.filter fun op => op.key = k).getLast?.any fun op => isPutTag op.tag) &&
    (tombed k || (ops.filter fun op => op.key = k).any fun op => op.tag == tagDel)

theorem entry_foldl_isSome {ops : List Op} (hops : ∀ op ∈ ops, isOpTag op.tag) (sl : Slot) :
    (ops.foldl (fun sl op => sl.recordOp p op 0) sl).entry.isSome =
      (ops.getLast?.map fun op => isPutTag op.tag).getD sl.entry.isSome := by
  cases ops using List.reverseRecOn with
  | nil => rfl
  | append_singleton ops op =>
    rw [List.foldl_append, List.foldl_cons, List.foldl_nil, List.getLast?_concat, Option.map_some, Option.getD_some]
    generalize ops.foldl (fun sl op => sl.recordOp p op 0) sl = sl'
    unfold Slot.recordOp
    rcases isOpTag_cases (hops op (by simp)) with hput | hdel
    · rw [if_pos hput, hput]
      cases p with
      | lww =>
        dsimp only
        split
        · rfl
        · rename_i hold
          cases he : sl'.entry with
          | none => rw [he] at hold; exact absurd rfl hold
          | some e => rfl
      | crdtRegister => rfl
    · rw [hdel, if_neg (by decide), if_pos rfl]
      rfl

theorem exclusive_foldl_iff {ops : List Op} (hops : ∀ op ∈ ops, isOpTag op.tag) {sl : Slot}
    (h : sl.Exclusive) : (ops.foldl (fun sl op => sl.recordOp p op 0) sl).Exclusive ↔
      ¬ ((ops.getLast?.any fun op => isPutTag op.tag) = true ∧
        (sl.tomb.isSome || ops.any fun op => op.tag == tagDel) = true) := by
  rw [Slot.Exclusive, entry_foldl_isSome hops, tomb_foldl]
  cases hlast : ops.getLast? with
  | none =>
    rw [List.getLast?_eq_none_iff] at hlast
    subst hlast
    simpa [Slot.Exclusive] using h
  | some op => simp

theorem Slot.exclusive_unseq (sl : Slot) : sl.unseq.Exclusive ↔ sl.Exclusive := by
  rw [Slot.Exclusive, Slot.Exclusive, Slot.unseq, Option.isSome_map]

/-- No operation is the last one on its key and a put that revives it. -/
def NoRevival (tombed : Bytes → Bool) (ops : List Op) : Prop := ∀ op ∈ ops, Revives tombed ops op.key = false

instance (tombed : Bytes → Bool) (ops : List Op) : Decidable (NoRevival tombed ops) :=
  inferInstanceAs (Decidable (∀ op ∈ ops, _))

theorem noRevival_iff (tombed : Bytes → Bool) (ops : List Op) :
    NoRevival tombed ops ↔ ∀ k, Revives tombed ops k = false := by
  constructor
  · intro h k
    cases hlast : (ops.filter fun op => op.key = k).getLast? with
    | none => rw [Revives, hlast, Option.any_none, Bool.false_and]
    | some op =>
      obtain ⟨hop, hkey⟩ := List.mem_filter.1 (List.mem_of_getLast? hlast)
      rw [← of_decide_eq_true hkey]
      exact h op hop
  · exact fun h op _ => h op.key

def NsState.tombed (st : NsState) (k : Bytes) : Bool := (st.slot k).tomb.isSome

theorem NsState.exclusive_replay_iff {st : NsState} {rs : List Record} (h : st.Exclusive)
    (hwf : ∀ r ∈ rs, r.WellFormed) (seq : Nat) :
    (st.replay p seq rs).Exclusive ↔ NoRevival st.tombed (rs.flatMap Record.dataOps) := by
  rw [noRevival_iff]
  refine forall_congr' fun k => ?_
  have hops := opsOn_tag (fun r hr => (hwf r hr).dataOps_tag) k
  rw [← Slot.exclusive_unseq, NsState.unseq_slot_replay, exclusive_foldl_iff hops ((Slot.exclusive_unseq _).2 (h k)),
    Revives, Bool.and_eq_false_iff, not_and_or, Bool.not_eq_true, Bool.not_eq_true]
  rfl

/-! ### Runs -/

section

variable [Crates]
variable {w w' : World} {g g' : History} {x x' : World × History} {e : Event} {c : Cmd}

/-- Neither the store nor its snapshot has a key twice. -/
structure Exclusive (x : World × History) : Prop where
  live : ∀ ns, (x.1.store.view ns).Exclusive
  base : ∀ ns, (x.2.base.view ns).Exclusive

def Event.Local : Event → Prop
  | changed _ (.synced _) => False
  | reopened => False
  | _ => True

theorem Happens.exclusive (h : Sound x) (hx : Exclusive x) (he : Happens x e x') (hlocal : e.Local) : Exclusive x' := by
  cases he with
  | created valid fresh running => exact ⟨hx.live, hx.base⟩
  | @changed w w' g ns p c logged =>
    obtain ⟨-, -, -, hview, hrest⟩ := logged.spec h.running.toAttached
    refine ⟨fun n => ?_, hx.base⟩
    rcases eq_or_ne n ns with rfl | hne
    · rw [hview]
      cases c with
      | write r => exact (hx.live n).foldl_localOp p _ r.dataOps
      | synced r => exact hlocal.elim
      | schema | index => exact hx.live n
    · rw [hrest n hne]
      exact hx.live n
  | snapshot running => exact ⟨hx.live, hx.live⟩
  | reopened running policies derived view => exact hlocal.elim
  | @compacted w w1 g g1 now disk points run running =>
    obtain ⟨_, _, _, _, _, hview, hrest⟩ := compactRun_spec run w.store.nodup_names
      fun n hn => (w.store.mem_names n).1 hn
    have hlive : ∀ n, (w1.store.view n).Exclusive := by
      intro n
      cases hp : w.store.policies[n]? with
      | none =>
        rw [hrest n fun hn => (w.store.mem_names n).1 hn hp]
        exact hx.live n
      | some q =>
        rw [hview n q ((w.store.mem_names n).2 (by rw [hp]; simp)) hp]
        exact (hx.live n).compactedTo (h.running.shaped n q hp) now
    exact ⟨hlive, hlive⟩

/-- What the snapshot on disk has, and where it ends in each log. -/
def World.base (w : World) : Store × BMap Bytes (Nat × Bytes32) :=
  (loadSnapFile false w.disk.snap).toOption.getD (Store.init false, ∅)

def World.behind (w : World) (ns : Bytes) : List Record := (w.records ns).drop (w.base.2[ns]?.getD (0, .zero)).1

def World.recovered (w : World) (ns : Bytes) (p : ConflictPolicy) : NsState :=
  (w.base.1.view ns).replay p ((w.base.2[ns]?.getD (0, .zero)).1 + 1) (w.behind ns)

theorem Running.base_eq (h : Running w g) {ns : Bytes} {p : ConflictPolicy} (hp : w.store.policies[ns]? = some p) :
    w.base.1.view ns = g.base.view ns ∧ w.behind ns = (g.records ns).drop (g.base.snapHead ns).1 ∧
      w.recovered ns p = g.recovered ns p := by
  obtain ⟨info, hload, hinfo, -⟩ := h.disk.loadSnapFile false
  have hbase : w.base = ({ g.base with logs := ∅, durable := false, secIndex := ∅ }, info) := by
    rw [World.base, hload]
    rfl
  have hview : w.base.1.view ns = g.base.view ns := by
    rw [hbase]
    rfl
  have hbehind : w.behind ns = (g.records ns).drop (g.base.snapHead ns).1 := by
    rw [World.behind, hbase, hinfo, h.toAttached.records_eq hp]
  refine ⟨hview, hbehind, ?_⟩
  rw [World.recovered, hview, hbehind, hbase, hinfo, History.recovered]

/-- No put that the operation syncs or replays is the last one on a key under a tombstone. -/
def Cmd.RevivesNone (w : World) : Cmd → Prop
  | applySynced ns record => w.store.policies[ns]? ≠ none →
    NoRevival (w.store.view ns).tombed ((w.unseen ns [record]).flatMap Record.dataOps)
  | applySyncedBatch ns records => w.store.policies[ns]? ≠ none →
    NoRevival (w.store.view ns).tombed ((w.unseen ns records).flatMap Record.dataOps)
  | reopen _ _ => ∀ x ∈ w.store.namespaces,
    NoRevival (w.base.1.view x.1).tombed ((w.behind x.1).flatMap Record.dataOps)
  | createNamespace _ _ | put _ _ _ _ _ _ _ | delete _ _ _ _ _ | putBatch _ _ | setSchema _ _ _ _ _
  | setIndex _ _ _ _ _ | checkpoint | gcLive _ => True

instance (w : World) (c : Cmd) : Decidable (c.RevivesNone w) := by
  induction c using Cmd.casesOn <;> dsimp only [Cmd.RevivesNone] <;> infer_instance

theorem exclusive_synced_iff {ns : Bytes} {rs : List Record} (h : Sound (w, g)) (hx : Exclusive (w, g))
    (hwf : ∀ r ∈ rs, r.WellFormed) (hp : w.store.policies[ns]? ≠ none)
    (hrun : Run Happens (w, g) (rs.map fun r => .changed ns (.synced r)) (w', g')) :
    ((∀ n, (w'.store.view n).Exclusive) ↔ NoRevival (w.store.view ns).tombed (rs.flatMap Record.dataOps)) ∧
      ∀ n, (g'.base.view n).Exclusive := by
  obtain ⟨p, hp⟩ := Option.ne_none_iff_exists'.1 hp
  obtain ⟨hview, hother, hbase⟩ := view_of_synced h.running.toAttached hp hrun
  refine ⟨?_, fun n => by rw [hbase]; exact hx.base n⟩
  rw [← NsState.exclusive_replay_iff (p := p) (hx.live ns) hwf ((g.records ns).length + 1), ← hview]
  constructor
  · exact fun hall => hall ns
  · intro hns n
    rcases eq_or_ne n ns with rfl | hne
    · exact hns
    · rw [hother n hne]
      exact hx.live n

theorem exclusive_reopened_iff (h : Sound (w, g)) (hx : Exclusive (w, g)) (he : Happens (w, g) .reopened (w', g')) :
    ((∀ n, (w'.store.view n).Exclusive) ↔ ∀ x ∈ w.store.namespaces,
      NoRevival (w.base.1.view x.1).tombed ((w.behind x.1).flatMap Record.dataOps)) ∧
      ∀ n, (g'.base.view n).Exclusive := by
  cases he with
  | reopened running policies derived view =>
    refine ⟨?_, hx.base⟩
    have hns : ∀ (n : Bytes) p, w.store.policies[n]? = some p → ((w'.store.view n).Exclusive ↔
        NoRevival (w.base.1.view n).tombed ((w.behind n).flatMap Record.dataOps)) := by
      intro n p hp
      obtain ⟨hbase, hbehind, -⟩ := h.running.base_eq hp
      have hwf : ∀ r ∈ (g.records n).drop (g.base.snapHead n).1, r.WellFormed := fun r hr =>
        (h.running.files.chained n (by rw [hp]; simp)).wellFormed r (List.mem_of_mem_drop hr)
      rw [view n p hp, History.recovered, NsState.exclusive_replay_iff (hx.base n) hwf, hbase, hbehind]
    constructor
    · intro hall x hmem
      exact (hns x.1 x.2 (ExtTreeMap.mem_toList_iff_getElem?_eq_some.1 hmem)).1 (hall x.1)
    · intro hall n
      cases hp : w.store.policies[n]? with
      | none =>
        rw [running.outside n (by rw [policies, hp])]
        exact NsState.exclusive_empty
      | some p => exact (hns n p hp).2 (hall (n, p) (ExtTreeMap.mem_toList_iff_getElem?_eq_some.2 hp))

theorem Cmd.exclusive_iff (h : Sound (w, g)) (hx : Exclusive (w, g)) (hc : c.Valid w.store)
    (hrun : Run Happens (w, g) (c.events w) (w', g')) :
    ((∀ n, (w'.store.view n).Exclusive) ↔ c.RevivesNone w) ∧ ∀ n, (g'.base.view n).Exclusive := by
  have hlocal : ∀ {e : Event}, Run Happens (w, g) [e] (w', g') → e.Local →
      ((∀ n, (w'.store.view n).Exclusive) ↔ True) ∧ ∀ n, (g'.base.view n).Exclusive := by
    intro e hrun he
    cases hrun with
    | cons first rest =>
      cases rest
      have hx' := first.exclusive h hx he
      exact ⟨iff_true_intro hx'.live, hx'.base⟩
  -- synced records of a namespace that does not exist are no events, or there would be a log
  have hsynced : ∀ {ns : Bytes} {rs : List Record}, (∀ r ∈ rs, r.WellFormed) →
      Run Happens (w, g) (rs.map fun r => .changed ns (.synced r)) (w', g') →
      ((∀ n, (w'.store.view n).Exclusive) ↔ (w.store.policies[ns]? ≠ none →
        NoRevival (w.store.view ns).tombed (rs.flatMap Record.dataOps))) ∧ ∀ n, (g'.base.view n).Exclusive := by
    intro ns rs hwf hrun
    by_cases hp : w.store.policies[ns]? = none
    · cases rs with
      | nil =>
        cases hrun
        exact ⟨iff_of_true hx.live fun hne => absurd hp hne, hx.base⟩
      | cons r rs =>
        cases hrun with
        | cons first rest =>
          cases first with
          | changed logged =>
            obtain ⟨hp', -, -, -, -⟩ := logged
            rw [hp] at hp'
            cases hp'
    · rw [imp_iff_right hp]
      exact exclusive_synced_iff h hx hwf hp hrun
  have hunseen : ∀ {ns : Bytes} {rs : List Record}, (∀ r ∈ rs, r.WellFormed) → ∀ r ∈ w.unseen ns rs, r.WellFormed := by
    intro ns rs hwf r hr
    unfold World.unseen at hr
    split at hr
    · exact hwf r (Shipping.mem_of_mem_unseen hr)
    · cases hr
  cases c with
  | createNamespace | put | delete | putBatch | setSchema | setIndex | checkpoint | gcLive => exact hlocal hrun trivial
  | applySynced ns record =>
    exact hsynced (hunseen fun r hr => by rw [List.mem_singleton.1 hr]; exact hc) hrun
  | applySyncedBatch ns records => exact hsynced (hunseen hc) hrun
  | reopen durable now =>
    cases hrun with
    | cons first rest =>
      cases rest
      exact exclusive_reopened_iff h hx first

omit [Crates] in
theorem Cmd.revivesNone_of_disabled (h : ¬ c.Enabled w.store) : c.RevivesNone w := by
  cases c with
  | applySynced ns record => exact fun hp => absurd hp h
  | applySyncedBatch ns records => exact fun hp => absurd hp h
  | reopen durable now => exact absurd trivial h
  | createNamespace | put | delete | putBatch | setSchema | setIndex | checkpoint | gcLive => trivial

/-- In every run of operations that revive no key, `scan` and `scan_keys` show exactly what `get` finds, and one more
operation leaves it so exactly if it revives none either. -/
theorem scan_agrees_with_get {w₀ : World} {cmds : List Cmd} (h₀ : Opened w₀)
    (hrun : Run (guarded (fun w c => c.Valid w.store ∧ c.RevivesNone w) Step) w₀ cmds w) :
    w.store.ScanAgrees ∧ ∀ c w', c.Valid w.store → Step w c w' → (w'.store.ScanAgrees ↔ c.RevivesNone w) := by
  obtain ⟨hsound, -⟩ := h₀.sound
  have hx₀ : Exclusive (w₀, .empty) := by
    refine ⟨fun n => ?_, fun n => ?_⟩
    · dsimp only
      rw [h₀.view_empty]
      exact NsState.exclusive_empty
    · dsimp only
      exact NsState.exclusive_empty
  obtain ⟨g, hs, hx⟩ := run_invariant (fun _ _ h => h.1) (fun w g c x' hs hx hok hevents => by
    obtain ⟨hlive, hbase⟩ := Cmd.exclusive_iff hs hx hok.1 hevents
    exact ⟨hlive.2 hok.2, hbase⟩) hrun hsound hx₀
  refine ⟨w.store.scanAgrees_iff.2 hx.live, fun c w' hc hstep => ?_⟩
  rw [Store.scanAgrees_iff]
  have houtcome := Cmd.outcome hs hc
  rcases houtcome with ⟨hdisabled, e, herr⟩ | ⟨w₁, g₁, hok, hevents⟩
  · -- an operation that is refused changes nothing
    obtain rfl : w' = w := by
      cases hstep with
      | ok run => rw [herr] at run; cases run
      | failed run => rw [herr] at run; cases run; rfl
    exact iff_of_true hx.live (Cmd.revivesNone_of_disabled hdisabled)
  · obtain rfl : w' = w₁ := by
      cases hstep with
      | ok run => rw [hok] at run; cases run; rfl
      | failed run => rw [hok] at run; cases run
    exact (Cmd.exclusive_iff hs hx hc hevents).1

end

set_option maxRecDepth 100000 in
/-- A deletion that arrives after its key was written, a checkpoint and a reopen. -/
theorem scan_agrees_with_get_synced : letI := Crates.trivial
    ∃ w₀ w, Opened w₀ ∧ Run (guarded (fun w c => c.Valid w.store ∧ c.RevivesNone w) Step) w₀
      [.createNamespace [97] .lww, .put [97] [1] [10] 1 .zero .zero 0, .checkpoint,
        .applySynced [97] (delRecord [1] 2 .zero .zero), .reopen false 0] w ∧ w.store.ScanAgrees := by
  have h : letI := Crates.trivial
      (freshRun (fun w c => c.Valid w.store ∧ c.RevivesNone w)
        [.createNamespace [97] .lww, .put [97] [1] [10] 1 .zero .zero 0, .checkpoint,
          .applySynced [97] (delRecord [1] 2 .zero .zero), .reopen false 0]).isSome = true := by decide +kernel
  let _ := Crates.trivial
  obtain ⟨w, hw⟩ := Option.isSome_iff_exists.1 h
  obtain ⟨w₀, h₀, hrun⟩ := freshRun_sound hw
  exact ⟨w₀, w, h₀, hrun, (scan_agrees_with_get h₀ hrun).1⟩

set_option maxRecDepth 100000 in
/-- A synced put of a deleted key, and a local one after which the store is reopened: the key is scanned and not found. -/
theorem deleted_key_scanned : letI := Crates.trivial
    (∃ w₀ w, Opened w₀ ∧ Run (guarded (fun w c => c.Valid w.store) Step) w₀
      [.createNamespace [97] .lww, .delete [97] [1] 2 .zero .zero,
        .applySynced [97] (putRecord [1] [10] 1 .zero .zero 0)] w ∧
      w.store.get [97] [1] = none ∧ w.store.scanKeys [97] [] = [[1]]) ∧
    ∃ w₀ w, Opened w₀ ∧ Run (guarded (fun w c => c.Valid w.store) Step) w₀
      [.createNamespace [97] .lww, .delete [97] [1] 1 .zero .zero, .put [97] [1] [10] 2 .zero .zero 0,
        .reopen false 0] w ∧
      w.store.get [97] [1] = none ∧ w.store.scanKeys [97] [] = [[1]] := by
  have h : letI := Crates.trivial
      ((freshRun (fun w c => c.Valid w.store) [.createNamespace [97] .lww, .delete [97] [1] 2 .zero .zero,
        .applySynced [97] (putRecord [1] [10] 1 .zero .zero 0)]).any fun w =>
          (w.store.get [97] [1]).isNone && decide (w.store.scanKeys [97] [] = [[1]])) = true ∧
      ((freshRun (fun w c => c.Valid w.store) [.createNamespace [97] .lww, .delete [97] [1] 1 .zero .zero,
        .put [97] [1] [10] 2 .zero .zero 0, .reopen false 0]).any fun w =>
          (w.store.get [97] [1]).isNone && decide (w.store.scanKeys [97] [] = [[1]])) = true := by decide +kernel
  let _ := Crates.trivial
  have hshow : ∀ {cmds : List Cmd}, ((freshRun (fun w c => c.Valid w.store) cmds).any fun w =>
      (w.store.get [97] [1]).isNone && decide (w.store.scanKeys [97] [] = [[1]])) = true →
      ∃ w₀ w, Opened w₀ ∧ Run (guarded (fun w c => c.Valid w.store) Step) w₀ cmds w ∧
        w.store.get [97] [1] = none ∧ w.store.scanKeys [97] [] = [[1]] := by
    intro cmds hcmds
    obtain ⟨w, hw, hreads⟩ := (Option.any_eq_true ..).1 hcmds
    obtain ⟨w₀, h₀, hrun⟩ := freshRun_sound hw
    rw [Bool.and_eq_true, decide_eq_true_eq, Option.isNone_iff_eq_none] at hreads
    exact ⟨w₀, w, h₀, hrun, hreads⟩
  exact ⟨hshow h.1, hshow h.2⟩

end BunnyMesh
