import BunnyMesh.Storage.Sized
import BunnyMesh.Storage.Slots

/-!
# What compaction keeps

Replaying the records that compaction writes for a namespace compacts every key of it (`unseq_slot_compacted`): the
versions that have not expired stay, and so does the tombstone of a key without an entry.
-/

namespace BunnyMesh

open Std Store

def Entry.compact (now : UInt64) : Entry → Option Entry
  | .lww v => if v.expired now then none else some (.lww v)
  | .register vs =>
    if (vs.filter fun v => !v.expired now).isEmpty then none else some (.register (vs.filter fun v => !v.expired now))

/-- What is left of a key; the tombstone of a key that has an entry is dropped. -/
def Slot.compact (now : UInt64) (sl : Slot) : Slot :=
  match sl.entry with
  | some e => ⟨e.compact now, none⟩
  | none => ⟨none, sl.tomb⟩

theorem flatMap_of_not_mem {β γ : Type} {k : Bytes} {l : List (Bytes × β)} (h : ∀ e, (k, e) ∉ l)
    (F : Bytes × β → List γ) : (l.flatMap fun x => if x.1 = k then F x else []) = [] := by
  rw [List.flatMap_eq_nil_iff]
  rintro ⟨k', e⟩ hx
  rw [if_neg]
  rintro rfl
  exact h e hx

theorem flatMap_of_mem {β γ : Type} {k : Bytes} {e : β} {l : List (Bytes × β)} (hl : (l.map (·.1)).Nodup)
    (h : (k, e) ∈ l) (F : Bytes × β → List γ) : (l.flatMap fun x => if x.1 = k then F x else []) = F (k, e) := by
  induction l with
  | nil => cases h
  | cons x l ih =>
    rw [List.map_cons, List.nodup_cons] at hl
    rw [List.flatMap_cons]
    rcases List.mem_cons.1 h with rfl | h
    · rw [if_pos rfl, flatMap_of_not_mem, List.append_nil]
      exact fun e' he' => hl.1 (List.mem_map.2 ⟨_, he', rfl⟩)
    · have hne : x.1 ≠ k := fun e' => hl.1 (List.mem_map.2 ⟨_, h, e'.symm⟩)
      rw [if_neg hne, List.nil_append, ih hl.2 h]

theorem dataOps_toRecord (k : Bytes) (v : Version) : (v.toRecord k).dataOps = [(v.toRecord k).toOp] := by
  rw [Record.dataOps, if_pos]
  rcases putRecord_tag k v.value v.hlc v.replica v.author v.expiresAt with ⟨h, _⟩ | ⟨h, _⟩
  · rw [Version.toRecord, h]; decide
  · rw [Version.toRecord, h]; decide

def keptOps (now : UInt64) (x : Bytes × Entry) : List Op := (x.2.kept now).map fun v => (v.toRecord x.1).toOp

theorem opsOn_putRecords (s : Store) (ns : Bytes) (now : UInt64) (k : Bytes) : opsOn k (putRecords s ns now) =
    match s.index[(ns, k)]? with
    | some e => keptOps now (k, e)
    | none => [] := by
  have hflat : opsOn k (putRecords s ns now) = (s.rangeOf ns).flatMap fun x =>
      if x.1 = k then keptOps now x else [] := by
    rw [opsOn, putRecords, Store.scan_nil, List.flatMap_assoc, List.filter_flatMap]
    refine List.flatMap_congr fun x _ => ?_
    have hops : ((x.2.kept now).map (Version.toRecord x.1)).flatMap Record.dataOps = keptOps now x := by
      rw [List.flatMap_map]
      simp only [dataOps_toRecord]
      exact List.map_eq_flatMap.symm
    rw [hops]
    by_cases hx : x.1 = k
    · rw [if_pos hx, List.filter_eq_self]
      intro op hop
      obtain ⟨v, _, rfl⟩ := List.mem_map.1 hop
      exact decide_eq_true hx
    · rw [if_neg hx, List.filter_eq_nil_iff]
      intro op hop
      obtain ⟨v, _, rfl⟩ := List.mem_map.1 hop
      exact fun h => hx (of_decide_eq_true h)
  rw [hflat]
  cases he : s.index[(ns, k)]? with
  | none =>
    refine flatMap_of_not_mem (fun e hmem => ?_) (keptOps now)
    rw [Store.mem_rangeOf, he] at hmem
    cases hmem
  | some e =>
    exact flatMap_of_mem (s.nodup_rangeOf ns) ((s.mem_rangeOf ns k e).2 he) (keptOps now)

variable {ns : Bytes} {s : Store} {p : ConflictPolicy}

theorem mem_delRecords {r : Record} : r ∈ delRecords s ns ↔ ∃ k hlc,
    s.tombs[(ns, k)]? = some hlc ∧ s.index[(ns, k)]? = none ∧ r = delRecord k hlc .zero .zero := by
  simp only [delRecords, List.mem_filterMap, Prod.exists]
  constructor
  · rintro ⟨n, k, hlc, hmem, hr⟩
    split_ifs at hr with hc
    obtain ⟨rfl, hidx⟩ := hc
    rw [ExtTreeMap.contains_eq_isSome_getElem?, Option.isSome_eq_false_iff, Option.isNone_iff_eq_none] at hidx
    exact ⟨k, hlc, ExtTreeMap.mem_toList_iff_getElem?_eq_some.1 hmem, hidx, (Option.some.inj hr).symm⟩
  · rintro ⟨k, hlc, ht, hidx, rfl⟩
    refine ⟨ns, k, hlc, ExtTreeMap.mem_toList_iff_getElem?_eq_some.2 ht, if_pos ⟨rfl, ?_⟩⟩
    rw [ExtTreeMap.contains_eq_isSome_getElem?, hidx]
    rfl

theorem delRecords_eq (s : Store) (ns : Bytes) : delRecords s ns = (nsList s.tombs ns).flatMap fun x =>
    if s.index.contains (ns, x.1) then [] else [delRecord x.1 x.2 .zero .zero] := by
  unfold delRecords nsList
  induction s.tombs.toList with
  | nil => rfl
  | cons x l ih =>
    obtain ⟨⟨n, k⟩, hlc⟩ := x
    rw [List.filterMap_cons, List.filter_cons, ih]
    by_cases hn : n = ns
    · subst hn
      cases hc : s.index.contains (n, k) <;>
        simp only [hc, and_self, and_false, Bool.true_eq_false, if_true, if_false, BEq.rfl, List.map_cons,
          List.flatMap_cons, Bool.false_eq_true, List.singleton_append, List.nil_append]
    · simp [hn]

theorem opsOn_delRecords (s : Store) (ns k : Bytes) : opsOn k (delRecords s ns) =
    match s.index[(ns, k)]?, s.tombs[(ns, k)]? with
    | none, some hlc => [(delRecord k hlc .zero .zero).toOp]
    | _, _ => [] := by
  let F : Bytes × UInt64 → List Op := fun x =>
    if s.index.contains (ns, x.1) then [] else [(delRecord x.1 x.2 .zero .zero).toOp]
  have hflat : opsOn k (delRecords s ns) = (nsList s.tombs ns).flatMap fun x => if x.1 = k then F x else [] := by
    rw [opsOn, delRecords_eq, List.flatMap_assoc, List.filter_flatMap]
    refine List.flatMap_congr fun x _ => ?_
    by_cases hc : s.index.contains (ns, x.1)
    · simp only [F, hc, if_true, List.flatMap_nil, List.filter_nil, ite_self]
    · have hops : List.flatMap Record.dataOps [delRecord x.1 x.2 .zero .zero] =
        [(delRecord x.1 x.2 .zero .zero).toOp] := rfl
      have hkey : (delRecord x.1 x.2 .zero .zero).toOp.key = x.1 := rfl
      rw [if_neg hc, hops, List.filter_singleton, hkey]
      by_cases hx : x.1 = k
      · rw [if_pos hx, show F x = _ from if_neg hc, decide_eq_true hx]
        rfl
      · rw [if_neg hx, decide_eq_false hx]
        rfl
  rw [hflat]
  cases ht : s.tombs[(ns, k)]? with
  | none =>
    have hnil := flatMap_of_not_mem (k := k) (l := nsList s.tombs ns) (fun hlc hmem => by
      rw [mem_nsList, ht] at hmem
      cases hmem) F
    rw [hnil]
    cases s.index[(ns, k)]? <;> rfl
  | some hlc =>
    rw [flatMap_of_mem (nodup_nsList s.tombs ns) ((mem_nsList ..).2 ht) F]
    simp only [F, ExtTreeMap.contains_eq_isSome_getElem?]
    cases s.index[(ns, k)]? <;> rfl

theorem toRecord_put (k : Bytes) (v : Version) : isPutTag (v.toRecord k).tag := by
  rcases putRecord_tag k v.value v.hlc v.replica v.author v.expiresAt with ⟨h, _⟩ | ⟨h, _⟩
  · rw [Version.toRecord, h]; decide
  · rw [Version.toRecord, h]; decide

theorem version_toRecord (k : Bytes) (v : Version) : (v.toRecord k).toOp.version 0 = v.unseq := rfl

def Slot.ofVersions (vs : List Version) : Slot := ⟨if vs.isEmpty then none else some (.register vs), none⟩

theorem foldl_puts_register (k : Bytes) (vs old : List Version) :
    (vs.map fun v => (v.toRecord k).toOp).foldl (fun (sl : Slot) op => sl.recordOp .crdtRegister op 0)
      (Slot.ofVersions old) = Slot.ofVersions (old ++ vs.map Version.unseq) := by
  induction vs generalizing old with
  | nil => simp
  | cons v vs ih =>
    have hstep : (Slot.ofVersions old).recordOp .crdtRegister (v.toRecord k).toOp 0 =
        Slot.ofVersions (old ++ [v.unseq]) := by
      unfold Slot.recordOp Slot.ofVersions
      rw [if_pos (toRecord_put k v), version_toRecord]
      cases old <;> simp [Slot.versions]
    rw [List.map_cons, List.foldl_cons, hstep, ih, List.append_assoc, List.map_cons, List.singleton_append]

theorem unseq_slot_compacted (h : (s.view ns).Shaped p) (now : UInt64)
    {st : NsState} (hst : ∀ k, st.slot k = ⟨none, none⟩) (k : Bytes) :
    ((st.replay p 1 (compacted s ns now)).slot k).unseq = (((s.view ns).slot k).compact now).unseq := by
  have hsh := h k
  have hentry : ((s.view ns).slot k).entry = s.index[(ns, k)]? := rfl
  have htomb : ((s.view ns).slot k).tomb = s.tombs[(ns, k)]? := rfl
  rw [NsState.unseq_slot_replay, hst, compacted, opsOn_append, opsOn_putRecords, opsOn_delRecords, List.foldl_append]
  unfold Slot.compact
  unfold Slot.Shaped at hsh
  rw [hentry] at hsh ⊢
  rw [htomb]
  cases he : s.index[(ns, k)]? with
  | none =>
    cases s.tombs[(ns, k)]? with
    | none => rfl
    | some hlc => rfl
  | some e =>
    rw [he] at hsh
    cases e with
    | lww v =>
      cases p with
      | lww =>
        cases hx : v.expired now with
        | true => simp [keptOps, Entry.kept, Entry.compact, hx, Slot.unseq]
        | false =>
          simp only [keptOps, Entry.kept, Entry.compact, hx, Bool.false_eq_true, if_false, List.map_cons, List.map_nil,
            List.foldl_cons, List.foldl_nil, Slot.recordOp, toRecord_put, if_true, version_toRecord]
          rfl
      | crdtRegister => exact hsh.elim
    | register vs =>
      cases p with
      | lww => exact hsh.elim
      | crdtRegister =>
        have hfold := foldl_puts_register k (vs.filter fun v => !v.expired now) []
        simp only [keptOps, Entry.kept, Entry.compact]
        rw [List.nil_append] at hfold
        rw [show Slot.unseq ⟨none, none⟩ = Slot.ofVersions [] from rfl]
        rw [hfold, Slot.ofVersions, List.isEmpty_map]
        split <;> rfl

theorem Slot.entry_of_compact {sl sl' : Slot} {now : UInt64} (h : sl'.unseq = (sl.compact now).unseq) {e' : Entry}
    (he : sl'.entry = some e') :
    ∃ e e0, sl.entry = some e ∧ e.compact now = some e0 ∧ e'.unseq = e0.unseq := by
  have hentry : some e'.unseq = (sl.compact now).entry.map Entry.unseq := by
    rw [← Option.map_some, ← he]
    exact congrArg Slot.entry h
  unfold Slot.compact at hentry
  cases hsl : sl.entry with
  | none => rw [hsl] at hentry; cases hentry
  | some e =>
    rw [hsl] at hentry
    obtain ⟨e0, hc, he0⟩ := Option.map_eq_some_iff.1 hentry.symm
    exact ⟨e, e0, rfl, hc, he0.symm⟩

theorem Slot.tomb_of_compact {sl sl' : Slot} {now : UInt64} (h : sl'.unseq = (sl.compact now).unseq) :
    sl'.tomb = if sl.entry.isSome then none else sl.tomb := by
  have htomb : sl'.unseq.tomb = (sl.compact now).unseq.tomb := congrArg Slot.tomb h
  change sl'.tomb = (sl.compact now).tomb at htomb
  rw [htomb, Slot.compact]
  cases sl.entry <;> rfl

theorem compacted_congr {s' : Store} (h : s.view ns = s'.view ns) (now : UInt64) :
    compacted s ns now = compacted s' ns now := by
  have hindex : ∀ k : Bytes, s.index[(ns, k)]? = s'.index[(ns, k)]? :=
    fun k => congrArg (fun st => (st.slot k).entry) h
  have htombs : ∀ k : Bytes, s.tombs[(ns, k)]? = s'.tombs[(ns, k)]? :=
    fun k => congrArg (fun st => (st.slot k).tomb) h
  rw [compacted, compacted, putRecords, putRecords, scan_nil, scan_nil, rangeOf_eq, rangeOf_eq, nsList_congr hindex,
    delRecords_eq, delRecords_eq, nsList_congr htombs]
  simp only [ExtTreeMap.contains_eq_isSome_getElem?, hindex]

/-! ### The namespace as a whole -/

def NsState.cleared (st : NsState) : NsState := ⟨fun _ => ⟨none, none⟩, st.schema, st.indexDef⟩

theorem becomes_dropNs (s : Store) (ns : Bytes) : Becomes ns s (s.dropNs ns) (s.view ns).cleared := by
  have hfilter : ∀ {V : Type} (m : BMap EntryKey V) (n k : Bytes),
      (m.filter fun ek _ => ek.1 ≠ ns)[(n, k)]? = if n = ns then none else m[(n, k)]? := by
    intro V m n k
    rw [ExtTreeMap.getElem?_filter']
    by_cases hn : n = ns
    · cases m[(n, k)]? <;> simp [hn]
    · cases m[(n, k)]? <;> simp [hn]
  refine ⟨⟨rfl, rfl, rfl, rfl, fun n k hn => ?_, fun n k hn => ?_, fun _ _ _ => rfl⟩, ?_⟩
  · exact (hfilter s.index n k).trans (if_neg hn)
  · exact (hfilter s.tombs n k).trans (if_neg hn)
  · refine NsState.ext ?_ rfl rfl
    funext k
    simp [Store.view, Store.dropNs, NsState.cleared]

def NsState.compactedTo (p : ConflictPolicy) (out : List Record) (st : NsState) : NsState :=
  if out = [] then st else st.cleared.replay p 1 out

theorem NsState.Each.compactedTo {P : Bytes → Slot → Prop} (hP : SlotKept P) {st : NsState}
    (h : st.Each P) {out : List Record} (hout : ∀ r ∈ out, r.WellFormed) : (st.compactedTo p out).Each P := by
  unfold NsState.compactedTo
  split
  · exact h
  · exact hP.replay (show st.cleared.Each P from hP.empty) hout 1

theorem NsState.replay_defs {rs : List Record} (h : ∀ r ∈ rs, isOpTag r.tag) (seq : Nat)
    (st : NsState) : (st.replay p seq rs).schema = st.schema ∧ (st.replay p seq rs).indexDef = st.indexDef := by
  induction rs generalizing st seq with
  | nil => exact ⟨rfl, rfl⟩
  | cons r rs ih =>
    obtain ⟨hr, hrs⟩ := List.forall_mem_cons.1 h
    obtain ⟨h1, h2⟩ := ih hrs (seq + 1) (st.record p seq r)
    rw [NsState.replay, h1, h2, NsState.record, if_pos hr]
    exact ⟨rfl, rfl⟩

theorem compacted_tag (s : Store) (ns : Bytes) (now : UInt64) : ∀ r ∈ compacted s ns now, isOpTag r.tag := by
  intro r hr
  rcases List.mem_append.1 hr with hr | hr
  · simp only [putRecords, List.mem_flatMap, List.mem_map] at hr
    obtain ⟨x, _, v, _, rfl⟩ := hr
    have := toRecord_put x.1 v
    simp only [isPutTag, isOpTag, Bool.or_eq_true] at this ⊢
    exact .inl this
  · obtain ⟨k, hlc, _, _, rfl⟩ := mem_delRecords.1 hr
    rfl

theorem NsState.compactedTo_defs (p : ConflictPolicy) (s : Store) (ns : Bytes) (now : UInt64) (st : NsState) :
    (st.compactedTo p (compacted s ns now)).schema = st.schema ∧
      (st.compactedTo p (compacted s ns now)).indexDef = st.indexDef := by
  unfold NsState.compactedTo
  split
  · exact ⟨rfl, rfl⟩
  · exact NsState.replay_defs (compacted_tag s ns now) 1 st.cleared

end BunnyMesh
