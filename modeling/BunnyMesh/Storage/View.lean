import BunnyMesh.Lib.OrdMap
import BunnyMesh.Storage.Apply

/-!
# The state of one namespace

What the in-memory functions do, seen from one namespace: a slot for every key (its entry and its tombstone) and the
two definitions.  `NsState.record` is the effect of one replayed record and `NsState.replay` of a log suffix; the
functions of the store act as these on their namespace and leave every other one alone (`applyRecord_spec`,
`applyLocalOp_spec`).
-/

namespace BunnyMesh

open Std Store
open OrdMap (setOrErase getElem?_setOrErase setOrErase_self)

/-! ### Slots -/

/-- What the store holds for one key. -/
structure Slot where
  entry : Option Entry
  tomb : Option UInt64

namespace Slot

def visible (sl : Slot) : Option Entry := if sl.tomb.isSome then none else sl.entry

def versions (sl : Slot) : List Version :=
  match sl.entry with
  | some (.register vs) => vs
  | _ => []

def Shaped (p : ConflictPolicy) (sl : Slot) : Prop :=
  match p, sl.entry with
  | .lww, some (.register _) => False
  | .crdtRegister, some (.lww _) => False
  | _, _ => True

def recordOp (p : ConflictPolicy) (op : Op) (seq : Nat) (sl : Slot) : Slot :=
  if isPutTag op.tag then
    match p with
    | .lww => if isNewer (op.version seq) sl.entry then { sl with entry := some (.lww (op.version seq)) } else sl
    | .crdtRegister => { sl with entry := some (.register (sl.versions ++ [op.version seq])) }
  else if op.tag = tagDel then ⟨none, some op.hlc⟩
  else sl

def localOp (p : ConflictPolicy) (op : Op) (seq : Nat) (sl : Slot) : Slot :=
  if isPutTag op.tag then
    match p with
    | .lww => ⟨some (.lww (op.version seq)), none⟩
    | .crdtRegister => ⟨some (.register (sl.versions ++ [op.version seq])), none⟩
  else if op.tag = tagDel then ⟨none, some op.hlc⟩
  else sl

theorem shaped_recordOp {p : ConflictPolicy} {sl : Slot} (h : sl.Shaped p) (op : Op) (seq : Nat) :
    (sl.recordOp p op seq).Shaped p := by
  unfold recordOp
  split
  · cases p <;> dsimp only
    · split
      · trivial
      · exact h
    · trivial
  · split
    · cases p <;> trivial
    · exact h

theorem shaped_localOp {p : ConflictPolicy} {sl : Slot} (h : sl.Shaped p) (op : Op) (seq : Nat) :
    (sl.localOp p op seq).Shaped p := by
  unfold localOp
  split
  · cases p <;> trivial
  · split
    · cases p <;> trivial
    · exact h

end Slot

/-! ### Namespaces -/

/-- What the store holds for one namespace. -/
@[ext] structure NsState where
  slot : Bytes → Slot
  schema : Option Bytes
  indexDef : Option Bytes

namespace NsState

def empty : NsState := ⟨fun _ => ⟨none, none⟩, none, none⟩

def Shaped (p : ConflictPolicy) (st : NsState) : Prop := ∀ k, (st.slot k).Shaped p

def update (st : NsState) (key : Bytes) (sl : Slot) : NsState := { st with slot := Function.update st.slot key sl }

@[simp] theorem slot_update_self (st : NsState) (key : Bytes) (sl : Slot) : (st.update key sl).slot key = sl :=
  Function.update_self ..

@[simp] theorem slot_update_of_ne (st : NsState) {key k : Bytes} (h : k ≠ key) (sl : Slot) :
    (st.update key sl).slot k = st.slot k :=
  Function.update_of_ne h ..

def recordOp (p : ConflictPolicy) (seq : Nat) (st : NsState) (op : Op) : NsState :=
  st.update op.key ((st.slot op.key).recordOp p op seq)

def localOp (p : ConflictPolicy) (seq : Nat) (st : NsState) (op : Op) : NsState :=
  st.update op.key ((st.slot op.key).localOp p op seq)

/-- The definition a metadata record leaves. -/
def definition (value : Bytes) : Option Bytes := if value.isEmpty then none else some value

def record (p : ConflictPolicy) (seq : Nat) (st : NsState) (r : Record) : NsState :=
  if isOpTag r.tag then st.recordOp p seq r.toOp
  else if r.tag = tagBatch then r.ops.foldl (recordOp p seq) st
  else if r.tag = tagSchema then { st with schema := definition r.value }
  else if r.tag = tagIndex then { st with indexDef := definition r.value }
  else st

/-- Records numbered from `seq` on. -/
def replay (p : ConflictPolicy) : Nat → NsState → List Record → NsState
  | _, st, [] => st
  | seq, st, r :: rs => replay p (seq + 1) (st.record p seq r) rs

theorem replay_append (p : ConflictPolicy) (seq : Nat) (st : NsState) (rs rs' : List Record) :
    replay p seq st (rs ++ rs') = replay p (seq + rs.length) (replay p seq st rs) rs' := by
  induction rs generalizing seq st with
  | nil => rfl
  | cons r rs ih =>
    rw [List.cons_append, replay, replay, ih, List.length_cons]
    congr 1
    omega

theorem shaped_empty (p : ConflictPolicy) : empty.Shaped p := fun _ => by cases p <;> trivial

/-- Every slot of the namespace has the property. -/
def Each (P : Bytes → Slot → Prop) (st : NsState) : Prop := ∀ k, P k (st.slot k)

variable {P : Bytes → Slot → Prop} {p : ConflictPolicy} {seq : Nat} {st : NsState}

theorem Each.update (h : st.Each P) {key : Bytes} {sl : Slot} (hsl : P key sl) : (st.update key sl).Each P := by
  intro k
  rcases eq_or_ne k key with rfl | hne
  · rwa [slot_update_self]
  · rw [slot_update_of_ne st hne]
    exact h k

theorem Each.foldl_localOp (h : st.Each P) {ops : List Op}
    (hops : ∀ op ∈ ops, ∀ sl, P op.key sl → P op.key (sl.localOp p op seq)) :
    (ops.foldl (NsState.localOp p seq) st).Each P :=
  List.foldlRecOn ops _ h fun _ hst op hop => hst.update (hops op hop _ (hst op.key))

theorem Each.foldl_recordOp (h : st.Each P) {ops : List Op}
    (hops : ∀ op ∈ ops, ∀ sl, P op.key sl → P op.key (sl.recordOp p op seq)) :
    (ops.foldl (NsState.recordOp p seq) st).Each P :=
  List.foldlRecOn ops _ h fun _ hst op hop => hst.update (hops op hop _ (hst op.key))

theorem Each.record (h : st.Each P) {r : Record}
    (hops : ∀ op ∈ r.dataOps, ∀ sl, P op.key sl → P op.key (sl.recordOp p op seq)) : (st.record p seq r).Each P := by
  unfold Record.dataOps at hops
  unfold NsState.record
  split_ifs at hops ⊢
  · exact h.foldl_recordOp hops
  · exact h.foldl_recordOp hops
  all_goals exact h

theorem Each.replay (h : st.Each P) {rs : List Record} (hops : ∀ n, seq ≤ n → n < seq + rs.length →
    ∀ r ∈ rs, ∀ op ∈ r.dataOps, ∀ sl, P op.key sl → P op.key (sl.recordOp p op n)) : (st.replay p seq rs).Each P := by
  induction rs generalizing seq st with
  | nil => exact h
  | cons r rs ih =>
    rw [List.length_cons] at hops
    have hfirst := h.record (hops seq (Nat.le_refl _) (by omega) r List.mem_cons_self)
    exact ih hfirst fun n hle hlt r hr => hops n (by omega) (by omega) r (List.mem_cons_of_mem _ hr)

theorem Shaped.recordOp (h : st.Shaped p) (seq : Nat) (op : Op) : (st.recordOp p seq op).Shaped p :=
  Each.update h (Slot.shaped_recordOp (h op.key) op seq)

theorem Shaped.localOp (h : st.Shaped p) (seq : Nat) (op : Op) : (st.localOp p seq op).Shaped p :=
  Each.update h (Slot.shaped_localOp (h op.key) op seq)

theorem Shaped.foldl_localOp (h : st.Shaped p) (seq : Nat) (ops : List Op) :
    (ops.foldl (NsState.localOp p seq) st).Shaped p :=
  Each.foldl_localOp h fun op _ _ hsl => Slot.shaped_localOp hsl op seq

theorem Shaped.record (h : st.Shaped p) (seq : Nat) (r : Record) : (st.record p seq r).Shaped p :=
  Each.record h fun op _ _ hsl => Slot.shaped_recordOp hsl op seq

theorem Shaped.replay (h : st.Shaped p) (seq : Nat) (rs : List Record) : (st.replay p seq rs).Shaped p :=
  Each.replay h fun n _ _ _ _ op _ _ hsl => Slot.shaped_recordOp hsl op n

end NsState

/-! ### The view of a store -/

def Store.view (s : Store) (ns : Bytes) : NsState :=
  ⟨fun k => ⟨s.index[(ns, k)]?, s.tombs[(ns, k)]?⟩, s.schema ns, s.indexDef ns⟩

theorem Store.get_eq_visible (s : Store) (ns key : Bytes) : s.get ns key = ((s.view ns).slot key).visible := by
  rw [Store.get, ExtTreeMap.contains_eq_isSome_getElem?]
  rfl

/-- Everything but the derived index. -/
def Store.core (s : Store) : Store := { s with secIndex := ∅ }

section

variable [Crates]

theorem Store.core_removeFromSecIndex (s : Store) (ns key : Bytes) : (s.removeFromSecIndex ns key).core = s.core := rfl

theorem Store.core_refreshSecIndexFor (s : Store) (ns key : Bytes) : (s.refreshSecIndexFor ns key).core = s.core := by
  unfold Store.refreshSecIndexFor
  dsimp only
  split
  · rfl
  · split <;> rfl

theorem Store.core_foldl_refresh (s : Store) (ns : Bytes) (keys : List Bytes) :
    (keys.foldl (fun s k => s.refreshSecIndexFor ns k) s).core = s.core := by
  induction keys generalizing s with
  | nil => rfl
  | cons k keys ih => rw [List.foldl_cons, ih, core_refreshSecIndexFor]

theorem Store.core_rebuildSecIndexNs (s : Store) (ns : Bytes) : (s.rebuildSecIndexNs ns).core = s.core := by
  unfold Store.rebuildSecIndexNs
  dsimp only
  split
  · rfl
  · rw [core_foldl_refresh]
    rfl

theorem Store.core_rebuildSecondaryIndexes (s : Store) : s.rebuildSecondaryIndexes.core = s.core := by
  have hfold : ∀ (nss : List Bytes) (s' : Store), s'.core = s.core → (nss.foldl (fun s ns =>
      if (s.indexFields ns).isEmpty then s else s.rebuildSecIndexNs ns) s').core = s.core := by
    intro nss
    induction nss with
    | nil => exact fun _ h => h
    | cons ns nss ih =>
      intro s' h
      refine ih _ ?_
      dsimp only
      split
      · exact h
      · rw [core_rebuildSecIndexNs, h]
  exact hfold _ _ rfl

theorem Store.rebuildSecondaryIndexes_idem (s : Store) :
    s.rebuildSecondaryIndexes.rebuildSecondaryIndexes = s.rebuildSecondaryIndexes := by
  change s.rebuildSecondaryIndexes.core.rebuildSecondaryIndexes = s.core.rebuildSecondaryIndexes
  rw [core_rebuildSecondaryIndexes]

end

/-! ### Changes inside one namespace -/

/-- From `s` to `s'` nothing but the data of `ns`, the revision and the derived index changed. -/
structure OnlyNs (ns : Bytes) (s s' : Store) : Prop where
  logs : s'.logs = s.logs
  policies : s'.policies = s.policies
  peerClocks : s'.peerClocks = s.peerClocks
  durable : s'.durable = s.durable
  index : ∀ n k : Bytes, n ≠ ns → s'.index[(n, k)]? = s.index[(n, k)]?
  tombs : ∀ n k : Bytes, n ≠ ns → s'.tombs[(n, k)]? = s.tombs[(n, k)]?
  metaMap : ∀ k : Bytes, k ≠ schemaKey ns → k ≠ indexKey ns → s'.metaMap[k]? = s.metaMap[k]?

namespace OnlyNs

variable {ns : Bytes} {s s' s'' : Store}

theorem refl (ns : Bytes) (s : Store) : OnlyNs ns s s :=
  ⟨rfl, rfl, rfl, rfl, fun _ _ _ => rfl, fun _ _ _ => rfl, fun _ _ _ => rfl⟩

theorem trans (h : OnlyNs ns s s') (h' : OnlyNs ns s' s'') : OnlyNs ns s s'' where
  logs := h'.logs.trans h.logs
  policies := h'.policies.trans h.policies
  peerClocks := h'.peerClocks.trans h.peerClocks
  durable := h'.durable.trans h.durable
  index n k hn := (h'.index n k hn).trans (h.index n k hn)
  tombs n k hn := (h'.tombs n k hn).trans (h.tombs n k hn)
  metaMap k hs hi := (h'.metaMap k hs hi).trans (h.metaMap k hs hi)

theorem of_core (h : OnlyNs ns s s') (hc : s''.core = s'.core) : OnlyNs ns s s'' := by
  obtain ⟨logs, policies, peerClocks, durable, index, tombs, metaMap⟩ := h
  cases s''
  cases s'
  obtain ⟨rfl, rfl, rfl, rfl, rfl, rfl, rfl, rfl, _⟩ := hc
  exact ⟨logs, policies, peerClocks, durable, index, tombs, metaMap⟩

end OnlyNs

variable {s' : Store}

theorem Store.view_of_core {s : Store} (h : s'.core = s.core) (ns : Bytes) : s'.view ns = s.view ns := by
  change s'.core.view ns = s.core.view ns
  rw [h]

theorem Store.revision_of_core {s : Store} (h : s'.core = s.core) : s'.revision = s.revision := by
  change s'.core.revision = s.core.revision
  rw [h]

theorem schemaKey_injective : Function.Injective schemaKey := fun _ _ h => List.append_cancel_left h

theorem indexKey_injective : Function.Injective indexKey := fun _ _ h => List.append_cancel_left h

theorem append_ne_append {a b : Bytes} (ha : a ≠ []) (hb : b ≠ []) (h : a.head? ≠ b.head?) (x y : Bytes) :
    a ++ x ≠ b ++ y := by
  intro e
  have ha' : (a ++ x).head? = a.head? := List.head?_append_of_ne_nil a ha
  have hb' : (b ++ y).head? = b.head? := List.head?_append_of_ne_nil b hb
  exact h (by rw [← ha', e, hb'])

theorem schemaKey_ne_indexKey (ns ns' : Bytes) : schemaKey ns ≠ indexKey ns' :=
  append_ne_append (by decide) (by decide) (by decide) ns ns'

theorem OnlyNs.view {ns n : Bytes} {s : Store} (h : OnlyNs ns s s') (hn : n ≠ ns) : s'.view n = s.view n := by
  have hs : schemaKey n ≠ schemaKey ns := fun e => hn (schemaKey_injective e)
  have hi : indexKey n ≠ indexKey ns := fun e => hn (indexKey_injective e)
  simp [Store.view, Store.schema, Store.indexDef, h.index n _ hn, h.tombs n _ hn,
    h.metaMap _ hs (schemaKey_ne_indexKey n ns), h.metaMap _ (schemaKey_ne_indexKey ns n).symm hi]

/-- From `s` to `s'` exactly the namespace `ns` changed, to `st`. -/
structure Becomes (ns : Bytes) (s s' : Store) (st : NsState) : Prop extends OnlyNs ns s s' where
  view_eq : s'.view ns = st

namespace Becomes

variable {ns : Bytes} {s s' s'' : Store} {st st' : NsState}

theorem refl (ns : Bytes) (s : Store) : Becomes ns s s (s.view ns) := ⟨OnlyNs.refl ns s, rfl⟩

theorem of_core (h : Becomes ns s s' st) (hc : s''.core = s'.core) : Becomes ns s s'' st :=
  ⟨h.toOnlyNs.of_core hc, (Store.view_of_core hc ns).trans h.view_eq⟩

theorem bump (h : Becomes ns s s' st) : Becomes ns s s'.bump st :=
  ⟨⟨h.logs, h.policies, h.peerClocks, h.durable, h.index, h.tombs, h.metaMap⟩, h.view_eq⟩

theorem trans (h : Becomes ns s s' st) (h' : Becomes ns s' s'' st') : Becomes ns s s'' st' :=
  ⟨h.toOnlyNs.trans h'.toOnlyNs, h'.view_eq⟩

end Becomes

def Store.setSlot (s : Store) (ns key : Bytes) (sl : Slot) : Store :=
  { s with index := setOrErase s.index (ns, key) sl.entry, tombs := setOrErase s.tombs (ns, key) sl.tomb }

theorem Store.setSlot_self (s : Store) (ns key : Bytes) : s.setSlot ns key ((s.view ns).slot key) = s := by
  simp [Store.setSlot, Store.view, setOrErase_self]

theorem Store.setSlot_entry (s : Store) (ns key : Bytes) (e : Option Entry) :
    s.setSlot ns key { (s.view ns).slot key with entry := e } = { s with index := setOrErase s.index (ns, key) e } := by
  simp [Store.setSlot, Store.view, setOrErase_self]

theorem Store.becomes_setSlot (s : Store) (ns key : Bytes) (sl : Slot) :
    Becomes ns s (s.setSlot ns key sl) ((s.view ns).update key sl) := by
  refine ⟨⟨rfl, rfl, rfl, rfl, fun n k hn => ?_, fun n k hn => ?_, fun _ _ _ => rfl⟩, NsState.ext ?_ rfl rfl⟩
  · simp [Store.setSlot, getElem?_setOrErase, hn.symm]
  · simp [Store.setSlot, getElem?_setOrErase, hn.symm]
  · funext k
    simp only [Store.view, Store.setSlot, getElem?_setOrErase, NsState.update, Prod.mk.injEq, true_and]
    rcases eq_or_ne k key with rfl | hne
    · simp
    · simp [hne, hne.symm]

theorem Store.becomes_schema (s : Store) (ns : Bytes) (value : Option Bytes) :
    Becomes ns s { s with metaMap := setOrErase s.metaMap (schemaKey ns) value }
      { s.view ns with schema := value } := by
  refine ⟨⟨rfl, rfl, rfl, rfl, fun _ _ _ => rfl, fun _ _ _ => rfl, fun k hk _ => ?_⟩, NsState.ext rfl ?_ ?_⟩
  · rw [getElem?_setOrErase, if_neg hk.symm]
  · exact (getElem?_setOrErase ..).trans (if_pos rfl)
  · exact (getElem?_setOrErase ..).trans (if_neg (schemaKey_ne_indexKey ns ns))

theorem Store.becomes_indexDef (s : Store) (ns : Bytes) (value : Option Bytes) :
    Becomes ns s { s with metaMap := setOrErase s.metaMap (indexKey ns) value }
      { s.view ns with indexDef := value } := by
  refine ⟨⟨rfl, rfl, rfl, rfl, fun _ _ _ => rfl, fun _ _ _ => rfl, fun k _ hk => ?_⟩, NsState.ext rfl ?_ ?_⟩
  · rw [getElem?_setOrErase, if_neg hk.symm]
  · exact (getElem?_setOrErase ..).trans (if_neg (schemaKey_ne_indexKey ns ns).symm)
  · exact (getElem?_setOrErase ..).trans (if_pos rfl)

/-! ### What the functions of the store do -/

theorem isOpTag_cases {tag : UInt8} (h : isOpTag tag) : isPutTag tag ∨ tag = tagDel := by
  simpa [isOpTag, isPutTag] using h

theorem getPolicy_apply {s : Store} {ns : Bytes} {p : ConflictPolicy} (hp : s.policies[ns]? = some p) :
    getPolicy ns s = .ok p s := by
  simp [getPolicy, hp]

theorem pushVersion_apply {s : Store} {ns key : Bytes} (h : ((s.view ns).slot key).Shaped .crdtRegister)
    (v : Version) : pushVersion ns (ns, key) v s =
      .ok () { s with
        index := s.index.insert (ns, key) (.register (((s.view ns).slot key).versions ++ [v])) } := by
  have hslot : ((s.view ns).slot key).entry = s.index[(ns, key)]? := rfl
  simp only [Slot.Shaped, hslot] at h
  simp only [pushVersion, Exec.bind_apply, Exec.get_apply, Slot.versions, hslot]
  cases he : s.index[(ns, key)]? with
  | none => rfl
  | some e =>
    cases e with
    | lww v => simp [he] at h
    | register vs => rfl

theorem setOrClear_apply (key value : Bytes) (s : Store) : setOrClear key value s =
    .ok () { s with metaMap := setOrErase s.metaMap key (NsState.definition value) } := by
  unfold setOrClear NsState.definition
  cases hv : value.isEmpty <;> rfl

section

variable [Crates]

variable {p : ConflictPolicy} {op : Op}

variable {ns : Bytes} {s : Store}

theorem applyRecordOp_put (hp : s.policies[ns]? = some p)
    (hs : ((s.view ns).slot op.key).Shaped p) (ht : isPutTag op.tag) (seq : Nat) : applyRecordOp ns op seq s =
      .ok () ((s.setSlot ns op.key (((s.view ns).slot op.key).recordOp p op seq)).refreshSecIndexFor ns op.key) := by
  simp only [applyRecordOp, Exec.bind_apply, getPolicy_apply hp, ht, if_true, Slot.recordOp]
  cases p with
  | lww =>
    have hslot : ((s.view ns).slot op.key).entry = s.index[(ns, op.key)]? := rfl
    simp only [Exec.bind_apply, Exec.get_apply, hslot]
    by_cases hn : isNewer (op.version seq) s.index[(ns, op.key)]? = true
    · simp only [hn, if_true, setSlot_entry]
      rfl
    · simp only [hn, Bool.false_eq_true, if_false, setSlot_self]
      rfl
  | crdtRegister =>
    simp only [Exec.bind_apply, pushVersion_apply hs, setSlot_entry]
    rfl

theorem applyRecordOp_del (hp : s.policies[ns]? = some p)
    (ht : op.tag = tagDel) (seq : Nat) : applyRecordOp ns op seq s =
      .ok () ((s.setSlot ns op.key (((s.view ns).slot op.key).recordOp p op seq)).removeFromSecIndex ns op.key) := by
  simp only [applyRecordOp, Exec.bind_apply, getPolicy_apply hp, Slot.recordOp, ht, if_true]
  rfl

theorem applyLocalOp_put (hp : s.policies[ns]? = some p)
    (hs : ((s.view ns).slot op.key).Shaped p) (ht : isPutTag op.tag) (seq : Nat) : applyLocalOp ns op seq s =
      .ok () ((s.setSlot ns op.key (((s.view ns).slot op.key).localOp p op seq)).refreshSecIndexFor ns op.key).bump := by
  simp only [applyLocalOp, Exec.bind_apply, getPolicy_apply hp, ht, if_true, Exec.modify_apply]
  cases p with
  | lww =>
    simp only [Slot.localOp, ht, if_true]
    rfl
  | crdtRegister =>
    have hs' : ((Store.view { s with tombs := s.tombs.erase (ns, op.key) } ns).slot op.key).Shaped .crdtRegister := hs
    simp only [Exec.bind_apply, pushVersion_apply hs', Slot.localOp, ht, if_true]
    rfl

theorem applyLocalOp_del (hp : s.policies[ns]? = some p)
    (ht : op.tag = tagDel) (seq : Nat) : applyLocalOp ns op seq s = .ok () ((s.setSlot ns op.key
      (((s.view ns).slot op.key).localOp p op seq)).removeFromSecIndex ns op.key).bump := by
  simp only [applyLocalOp, Exec.bind_apply, getPolicy_apply hp, Slot.localOp, ht, if_true]
  rfl

theorem applyRecordOp_spec (hp : s.policies[ns]? = some p)
    (hs : (s.view ns).Shaped p) (ht : isOpTag op.tag) (seq : Nat) :
    ∃ s', applyRecordOp ns op seq s = .ok () s' ∧ Becomes ns s s' ((s.view ns).recordOp p seq op) ∧
      s'.revision = s.revision := by
  rcases isOpTag_cases ht with ht | ht
  · exact ⟨_, applyRecordOp_put hp (hs op.key) ht seq, (s.becomes_setSlot ..).of_core (core_refreshSecIndexFor ..),
      (Store.revision_of_core (core_refreshSecIndexFor _ ns op.key)).trans rfl⟩
  · exact ⟨_, applyRecordOp_del hp ht seq, (s.becomes_setSlot ..).of_core (core_removeFromSecIndex ..), rfl⟩

theorem applyLocalOp_spec (hp : s.policies[ns]? = some p)
    (hs : (s.view ns).Shaped p) (ht : isOpTag op.tag) (seq : Nat) :
    ∃ s', applyLocalOp ns op seq s = .ok () s' ∧ Becomes ns s s' ((s.view ns).localOp p seq op) := by
  rcases isOpTag_cases ht with ht | ht
  · exact ⟨_, applyLocalOp_put hp (hs op.key) ht seq,
      ((s.becomes_setSlot ..).of_core (core_refreshSecIndexFor ..)).bump⟩
  · exact ⟨_, applyLocalOp_del hp ht seq, ((s.becomes_setSlot ..).of_core (core_removeFromSecIndex ..)).bump⟩

theorem forM_applyRecordOp_spec {ops : List Op}
    (hp : s.policies[ns]? = some p) (hs : (s.view ns).Shaped p) (ht : ∀ op ∈ ops, isOpTag op.tag) (seq : Nat) :
    ∃ s', (ops.forM fun op => applyRecordOp ns op seq) s = .ok () s' ∧
      Becomes ns s s' (ops.foldl (NsState.recordOp p seq) (s.view ns)) ∧ s'.revision = s.revision := by
  have step : ∀ op ∈ ops, ∀ (s1 : Store) (st : NsState),
      (Becomes ns s s1 st ∧ st.Shaped p ∧ s1.revision = s.revision) → ∃ s2, applyRecordOp ns op seq s1 = .ok () s2 ∧
        Becomes ns s s2 (st.recordOp p seq op) ∧ (st.recordOp p seq op).Shaped p ∧ s2.revision = s.revision := by
    rintro op hop s1 st ⟨hb, hst, hr⟩
    obtain ⟨s2, h2, hb2, hr2⟩ := applyRecordOp_spec (by rw [hb.policies, hp]) (by rwa [hb.view_eq]) (ht op hop) seq
    rw [hb.view_eq] at hb2
    exact ⟨s2, h2, hb.trans hb2, hst.recordOp seq op, hr2.trans hr⟩
  obtain ⟨s', h, hb, _, hr⟩ := Exec.forM_simulates step ⟨Becomes.refl ns s, hs, rfl⟩
  exact ⟨s', h, hb, hr⟩

theorem forM_applyLocalOp_spec {ops : List Op}
    (hp : s.policies[ns]? = some p) (hs : (s.view ns).Shaped p) (ht : ∀ op ∈ ops, isOpTag op.tag) (seq : Nat) :
    ∃ s', (ops.forM fun op => applyLocalOp ns op seq) s = .ok () s' ∧
      Becomes ns s s' (ops.foldl (NsState.localOp p seq) (s.view ns)) := by
  have step : ∀ op ∈ ops, ∀ (s1 : Store) (st : NsState), (Becomes ns s s1 st ∧ st.Shaped p) →
      ∃ s2, applyLocalOp ns op seq s1 = .ok () s2 ∧
        Becomes ns s s2 (st.localOp p seq op) ∧ (st.localOp p seq op).Shaped p := by
    rintro op hop s1 st ⟨hb, hst⟩
    obtain ⟨s2, h2, hb2⟩ := applyLocalOp_spec (by rw [hb.policies, hp]) (by rwa [hb.view_eq]) (ht op hop) seq
    rw [hb.view_eq] at hb2
    exact ⟨s2, h2, hb.trans hb2, hst.localOp seq op⟩
  obtain ⟨s', h, hb, _⟩ := Exec.forM_simulates step ⟨Becomes.refl ns s, hs⟩
  exact ⟨s', h, hb⟩

theorem applyRecord_spec {r : Record} (hp : s.policies[ns]? = some p)
    (hs : (s.view ns).Shaped p) (hr : r.WellFormed) (seq : Nat) :
    ∃ s', applyRecord ns r seq s = .ok () s' ∧ Becomes ns s s' ((s.view ns).record p seq r) ∧
      s'.revision = s.revision := by
  unfold applyRecord NsState.record
  split_ifs with h1 h2 h3 h4
  · exact applyRecordOp_spec hp hs h1 seq
  · exact forM_applyRecordOp_spec hp hs (fun op hop => (hr.subs op hop).tag) seq
  · exact ⟨_, setOrClear_apply .., s.becomes_schema ns (NsState.definition r.value), rfl⟩
  · refine ⟨_, Exec.bind_ok (setOrClear_apply ..), ?_, ?_⟩
    · exact (s.becomes_indexDef ns (NsState.definition r.value)).of_core (core_rebuildSecIndexNs ..)
    · exact (Store.revision_of_core (core_rebuildSecIndexNs _ ns)).trans rfl
  · have htag := hr.tag
    simp only [isRecordTag, isOpTag, Bool.or_eq_true, beq_iff_eq] at htag h1
    tauto

end

end BunnyMesh
