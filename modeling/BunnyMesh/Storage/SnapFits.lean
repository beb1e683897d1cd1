import Mathlib.Data.List.Perm.Subperm
import BunnyMesh.Storage.Kept
import BunnyMesh.Storage.Live

/-!
# Snapshots that fit

Lengths and counts have fixed widths in the snapshot.  A namespace that fits before compaction fits after it
(`Store.NsFits.rewritten`): its keys are among the old ones, and the new record numbers are bounded by the counts.  A
store that fits (`Store.Fits`) is what opening reads from the snapshot it wrote.
-/

namespace BunnyMesh

open Std Store
open ByteCodec (isUtf8 le)

/-! ### Versions and their numbers -/

def Slot.all (sl : Slot) : List Version :=
  match sl.entry with
  | some e => e.versions
  | none => []

variable {p : ConflictPolicy} {seq n : Nat} {st : NsState} {s : Store} {e : Entry}

theorem Slot.mem_all_recordOp {op : Op} {sl : Slot} {v : Version}
    (h : v ∈ (sl.recordOp p op seq).all) : v ∈ sl.all ∨ v = op.version seq := by
  unfold Slot.recordOp at h
  split at h
  · cases p with
    | lww =>
      dsimp only at h
      split at h
      · exact .inr (List.mem_singleton.1 h)
      · exact .inl h
    | crdtRegister =>
      rcases List.mem_append.1 h with h | h
      · left
        unfold Slot.versions at h
        split at h
        · rename_i vs hvs
          rw [Slot.all, hvs]
          exact h
        · cases h
      · exact .inr (List.mem_singleton.1 h)
  · split at h
    · cases h
    · exact .inl h

def NsState.Below (n : Nat) (st : NsState) : Prop := ∀ k, ∀ v ∈ (st.slot k).all, v.seq < n

theorem NsState.Below.replay {rs : List Record} (h : st.Below n) (hn : seq + rs.length ≤ n) :
    (st.replay p seq rs).Below n := by
  refine Each.replay (P := fun _ sl => ∀ v ∈ sl.all, v.seq < n) h fun m _ hm _ _ op _ sl hsl v hv => ?_
  rcases Slot.mem_all_recordOp hv with hv | rfl
  · exact hsl v hv
  · exact hm.trans_le hn

/-! ### Counts -/

theorem length_nsList_le {V V' : Type} {m : BMap EntryKey V} {m' : BMap EntryKey V'} {ns : Bytes}
    (h : ∀ k : Bytes, m'[(ns, k)]? ≠ none → m[(ns, k)]? ≠ none) : (nsList m' ns).length ≤ (nsList m ns).length := by
  have hsub : (nsList m' ns).map (·.1) ⊆ (nsList m ns).map (·.1) := by
    intro k hk
    obtain ⟨x, hx, rfl⟩ := List.mem_map.1 hk
    rw [mem_nsList m' ns x.1 x.2] at hx
    obtain ⟨v, hv⟩ := Option.ne_none_iff_exists'.1 (h x.1 (by rw [hx]; simp))
    exact List.mem_map.2 ⟨(x.1, v), (mem_nsList ..).2 hv, rfl⟩
  have hle := (List.subperm_of_subset (nodup_nsList m' ns) hsub).length_le
  simpa using hle

theorem length_flatMap_le {α β : Type} {l : List α} {f : α → List β} (h : ∀ a ∈ l, (f a).length ≤ n) :
    (l.flatMap f).length ≤ l.length * n := by
  induction l with
  | nil => simp
  | cons a l ih =>
    obtain ⟨ha, hl⟩ := List.forall_mem_cons.1 h
    rw [List.flatMap_cons, List.length_append, List.length_cons, Nat.succ_mul]
    have := ih hl
    omega

/-! ### Snapshots that fit -/

/-- The part of a snapshot that belongs to one namespace fits. -/
structure Store.NsFits (s : Store) (ns : Bytes) : Prop where
  name : isUtf8 ns
  nameLen : ns.length < 2 ^ 32
  headSeq : (s.snapHead ns).1 < 2 ^ 64
  entriesLen : (nsList s.index ns).length < 2 ^ 32
  entries : ∀ (k : Bytes) e, s.index[(ns, k)]? = some e → k.length < 2 ^ 32 ∧ e.Fits
  tombsLen : (nsList s.tombs ns).length < 2 ^ 32
  tombs : ∀ (k : Bytes) hlc, s.tombs[(ns, k)]? = some hlc → k.length < 2 ^ 32

theorem Store.snapOf_fits : s.snapOf.Fits ↔ s.revision < 2 ^ 64 ∧ s.metaMap.toList.length < 2 ^ 32 ∧
    (∀ x ∈ s.metaMap.toList, isUtf8 x.1 ∧ x.1.length < 2 ^ 32 ∧ x.2.length < 2 ^ 32) ∧
    s.peerClocks.toList.length < 2 ^ 32 ∧ (∀ x ∈ s.peerClocks.toList, isUtf8 x.1 ∧ x.1.length < 2 ^ 32) ∧
    s.policies.toList.length < 2 ^ 32 ∧ ∀ ns : Bytes, s.policies[ns]? ≠ none → s.NsFits ns := by
  have hns : (∀ n ∈ s.snapOf.nss, n.Fits) ↔ ∀ ns : Bytes, s.policies[ns]? ≠ none → s.NsFits ns := by
    constructor
    · intro h ns hns
      obtain ⟨p, hp⟩ := Option.ne_none_iff_exists'.1 hns
      obtain ⟨h1, h2, h3, h4, h5, h6, h7⟩ := h _ (List.mem_map.2 ⟨(ns, p), ExtTreeMap.mem_toList_iff_getElem?_eq_some.2 hp, rfl⟩)
      exact ⟨h1, h2, h3, h4, fun k e he => h5 (k, e) ((mem_nsList ..).2 he), h6,
        fun k hlc ht => h7 (k, hlc) ((mem_nsList ..).2 ht)⟩
    · intro h n hn
      obtain ⟨x, hx, rfl⟩ := List.mem_map.1 hn
      have hp := ExtTreeMap.mem_toList_iff_getElem?_eq_some.1 hx
      obtain ⟨h1, h2, h3, h4, h5, h6, h7⟩ := h x.1 (by rw [hp]; simp)
      exact ⟨h1, h2, h3, h4, fun y hy => h5 y.1 y.2 ((mem_nsList s.index x.1 y.1 y.2).1 hy), h6,
        fun y hy => h7 y.1 y.2 ((mem_nsList s.tombs x.1 y.1 y.2).1 hy)⟩
  constructor
  · rintro ⟨h1, h2, h3, h4, h5, h6, h7⟩
    refine ⟨h1, h2, h3, h4, h5, ?_, hns.1 h7⟩
    simpa [Store.snapOf] using h6
  · rintro ⟨h1, h2, h3, h4, h5, h6, h7⟩
    refine ⟨h1, h2, h3, h4, h5, ?_, hns.2 h7⟩
    simpa [Store.snapOf] using h6

theorem Entry.Fits.length_versions (h : e.Fits) : e.versions.length < 2 ^ 32 := by
  cases e with
  | lww v => exact (by decide : 1 < 2 ^ 32)
  | register vs => exact h.1

theorem Entry.Fits.compact {e' : Entry} {now : UInt64} (h : e.Fits) (hc : e.compact now = some e') : e'.Fits := by
  cases e with
  | lww v =>
    simp only [Entry.compact] at hc
    split_ifs at hc
    cases hc
    exact h
  | register vs =>
    simp only [Entry.compact] at hc
    split_ifs at hc
    cases hc
    exact ⟨(List.length_filter_le ..).trans_lt h.1, fun v hv => h.2 v (List.mem_of_mem_filter hv)⟩

theorem Entry.Fits.of_unseq {e' : Entry} (h : e.Fits) (he : e'.unseq = e.unseq) (hseq : ∀ v ∈ e'.versions, v.seq < 2 ^ 64) :
    e'.Fits := by
  cases e with
  | lww v =>
    cases e' with
    | lww v' =>
      have hv : v'.unseq.value = v.unseq.value := congrArg Version.value (Entry.lww.inj he)
      change v'.value = v.value at hv
      exact ⟨by rw [hv]; exact h.1, hseq v' (List.mem_singleton.2 rfl)⟩
    | register vs' => cases he
  | register vs =>
    cases e' with
    | lww v' => cases he
    | register vs' =>
      have hvs : vs'.map Version.unseq = vs.map Version.unseq := Entry.register.inj he
      have hlen : vs'.length = vs.length := by simpa using congrArg List.length hvs
      refine ⟨by rw [hlen]; exact h.1, fun v' hv' => ⟨?_, hseq v' hv'⟩⟩
      have hmem : v'.unseq ∈ vs.map Version.unseq := hvs ▸ List.mem_map.2 ⟨v', hv', rfl⟩
      obtain ⟨v, hv, he'⟩ := List.mem_map.1 hmem
      have hval : v.unseq.value = v'.unseq.value := congrArg Version.value he'
      exact hval ▸ (h.2 v hv).1

theorem length_kept_le (e : Entry) (now : UInt64) : (e.kept now).length ≤ e.versions.length := by
  cases e with
  | lww v =>
    simp only [Entry.kept, Entry.versions]
    split_ifs <;> simp
  | register vs => exact List.length_filter_le ..

theorem Store.NsFits.length_compacted {ns : Bytes} (h : s.NsFits ns) (now : UInt64) :
    (compacted s ns now).length + 1 < 2 ^ 64 := by
  have hput : (putRecords s ns now).length ≤ (nsList s.index ns).length * (2 ^ 32 - 1) := by
    rw [putRecords, scan_nil, rangeOf_eq]
    refine length_flatMap_le fun x hx => ?_
    rw [List.length_map]
    have hfits := (h.entries x.1 x.2 ((mem_nsList s.index ns x.1 x.2).1 hx)).2.length_versions
    have := length_kept_le x.2 now
    omega
  have hdel : (delRecords s ns).length ≤ (nsList s.tombs ns).length * 1 := by
    rw [delRecords_eq]
    refine length_flatMap_le fun x _ => ?_
    split <;> simp
  have h1 := h.entriesLen
  have h2 := h.tombsLen
  have hle : (nsList s.index ns).length * (2 ^ 32 - 1) ≤ (2 ^ 32 - 1) * (2 ^ 32 - 1) :=
    Nat.mul_le_mul_right _ (by omega)
  rw [compacted, List.length_append]
  omega

section

variable [Crates]
variable {w w' : World} {g g' : History} {ns : Bytes} {p : ConflictPolicy} {now : UInt64}

theorem Store.NsFits.rewritten (h : Attached w g) (h' : Attached w' g') (hp : w.store.policies[ns]? = some p)
    (hp' : w'.store.policies[ns]? = some p)
    (hview : w'.store.view ns = (w.store.view ns).cleared.replay p 1 (compacted w.store ns now))
    (hbytes : (g'.bytes ns).length = (compacted w.store ns now).length) (hf : w.store.NsFits ns) :
    w'.store.NsFits ns := by
  have hlen := hf.length_compacted now
  have hslot : ∀ k, ((w'.store.view ns).slot k).unseq = (((w.store.view ns).slot k).compact now).unseq := by
    intro k
    rw [hview]
    exact unseq_slot_compacted (h.shaped ns p hp) now (fun _ => rfl) k
  have hbelow : (w'.store.view ns).Below (2 ^ 64) := by
    rw [hview]
    exact NsState.Below.replay (fun k v hv => by cases hv) (by omega)
  have htomb : ∀ (k : Bytes) hlc, w'.store.tombs[(ns, k)]? = some hlc → w.store.tombs[(ns, k)]? = some hlc := by
    intro k hlc hk
    have ht := Slot.tomb_of_compact (hslot k)
    split at ht
    · rw [show ((w'.store.view ns).slot k).tomb = _ from hk] at ht
      cases ht
    · exact ht.symm.trans hk
  refine ⟨hf.name, hf.nameLen, ?_, ?_, fun k e' he' => ?_, ?_, fun k hlc hk => hf.tombs k hlc (htomb k hlc hk)⟩
  · rw [Store.snapHead, h'.head_eq hp', Option.getD_some]
    omega
  · refine (length_nsList_le fun k hk => ?_).trans_lt hf.entriesLen
    obtain ⟨e', he'⟩ := Option.ne_none_iff_exists'.1 hk
    obtain ⟨e, _, he, _⟩ := Slot.entry_of_compact (hslot k) he'
    rw [show w.store.index[(ns, k)]? = some e from he]
    simp
  · obtain ⟨e, e0, he, hc, hun⟩ := Slot.entry_of_compact (hslot k) he'
    obtain ⟨hk, hfit⟩ := hf.entries k e he
    refine ⟨hk, (hfit.compact hc).of_unseq hun fun v hv => hbelow k v ?_⟩
    rw [Slot.all, show ((w'.store.view ns).slot k).entry = some e' from he']
    exact hv
  · refine (length_nsList_le fun k hk => ?_).trans_lt hf.tombsLen
    obtain ⟨hlc, hk⟩ := Option.ne_none_iff_exists'.1 hk
    rw [htomb k hlc hk]
    simp

end

/-! ### Reading back what a checkpoint wrote -/

/-- Every byte string and every count of the store is below `2 ^ 32`.  The rest holds of the types of the source: names
are UTF-8 and the numbers of records and revisions are 64-bit. -/
structure Store.Fits (s : Store) : Prop where
  revision : s.revision < 2 ^ 64
  metasLen : s.metaMap.toList.length < 2 ^ 32
  metas : ∀ x ∈ s.metaMap.toList, isUtf8 x.1 ∧ x.1.length < 2 ^ 32 ∧ x.2.length < 2 ^ 32
  peerClocksLen : s.peerClocks.toList.length < 2 ^ 32
  peerClocks : ∀ x ∈ s.peerClocks.toList, isUtf8 x.1 ∧ x.1.length < 2 ^ 32
  policiesLen : s.policies.toList.length < 2 ^ 32
  namespaces : ∀ ns : Bytes, s.policies[ns]? ≠ none → s.NsFits ns

theorem Store.fits_iff : s.Fits ↔ s.snapOf.Fits := by
  rw [snapOf_fits]
  exact ⟨fun ⟨a, b, c, d, e, f, g⟩ => ⟨a, b, c, d, e, f, g⟩, fun ⟨a, b, c, d, e, f, g⟩ => ⟨a, b, c, d, e, f, g⟩⟩

theorem syncLogs_apply (w : World) : ∃ disk points,
    (w.store.logs.toList.forM fun x => segEffects x.1 [.sync x.2.curSeg]) w = .ok () ⟨w.store, disk, points⟩ := by
  obtain ⟨w', hrun, hs⟩ := Exec.forM_simulates (I := fun w' (_ : Unit) => w'.store = w.store) (g := fun _ _ => ())
    (f := fun x : Bytes × Log => segEffects x.1 [.sync x.2.curSeg]) (l := w.store.logs.toList) (s := w) (t := ())
    (fun x _ w1 _ hs => by
      obtain ⟨points, heff⟩ := segEffects_spec x.1 [.sync x.2.curSeg] w1
      exact ⟨_, heff, hs⟩) rfl
  exact ⟨w'.disk, w'.points, by rw [hrun, ← hs]⟩

/-- What `load_snap` makes of the bytes of a checkpoint, for any store with a policy for every namespace it has
entries of: nothing is left over and every map comes back. -/
theorem checkpoint_loadSnap {w : World} (ho : w.store.Owned) (hf : w.store.Fits) (durable : Bool) :
    ∃ w' bytes, checkpoint w = .ok () w' ∧ w'.disk.snap = some bytes ∧
      readBody false (bytes.drop 8) = .ok (w.store.snapOf, []) ∧
      ∃ s info, loadSnapFile durable w'.disk.snap = .ok (s, info) ∧ s.revision = w.store.revision ∧
        s.metaMap = w.store.metaMap ∧ s.peerClocks = w.store.peerClocks ∧ s.policies = w.store.policies ∧
        s.index = w.store.index ∧ s.tombs = w.store.tombs ∧
        ∀ ns : Bytes, info[ns]? = if w.store.policies[ns]? = none then none
          else some ((w.store.head ns).getD (0, .zero)) := by
  have hsnap := Store.fits_iff.1 hf
  obtain ⟨disk, points, hsync⟩ := syncLogs_apply w
  obtain ⟨points', hcheck⟩ := checkpoint_of_sync hsync
  have hbody : (encodeSnap w.store.snapOf).drop 8 = writeBody w.store.snapOf := by
    rw [encodeSnap, ← show snapMagic.length = 8 by decide, List.drop_left]
  have hload : loadSnapFile durable (some (encodeSnap w.store.snapOf)) =
      .ok ({ w.store with logs := ∅, durable := durable, secIndex := ∅ }, w.store.snapOf.info) := by
    rw [← Store.loadSnap_snapOf ho]
    exact bind_eq_ok.2 ⟨_, decodeSnap_encodeSnap hsnap, rfl⟩
  refine ⟨_, _, hcheck, rfl, ?_, _, _, hload, rfl, rfl, rfl, rfl, rfl, rfl, w.store.info_snapOf⟩
  rw [hbody, (reads_body hsnap).run_nil]

def smallStore : Store :=
  { Store.init true with
    policies := (∅ : BMap Bytes ConflictPolicy).insert (str "a") .lww |>.insert (str "b") .crdtRegister
    index := (∅ : BMap EntryKey Entry).insert (str "a", str "k") (.lww ⟨1, .zero, .zero, str "x", 1, 0⟩) |>.insert
      (str "b", str "k") (.register [⟨2, .zero, .zero, str "y", 1, 9⟩, ⟨3, .zero, .zero, str "z", 2, 0⟩])
    tombs := (∅ : BMap EntryKey UInt64).insert (str "a", str "gone") 4
    metaMap := (∅ : BMap Bytes Bytes).insert (str "created_ms") (le 8 5)
    peerClocks := (∅ : BMap Bytes Int64).insert (str "bob") (-7)
    revision := 5 }

theorem Store.owned_of_toList (hi : ∀ x ∈ s.index.toList, s.policies[x.1.1]? ≠ none)
    (ht : ∀ x ∈ s.tombs.toList, s.policies[x.1.1]? ≠ none) : s.Owned where
  index ns k h := by
    obtain ⟨e, he⟩ := Option.ne_none_iff_exists'.1 h
    exact hi ((ns, k), e) (ExtTreeMap.mem_toList_iff_getElem?_eq_some.2 he)
  tombs ns k h := by
    obtain ⟨hlc, hh⟩ := Option.ne_none_iff_exists'.1 h
    exact ht ((ns, k), hlc) (ExtTreeMap.mem_toList_iff_getElem?_eq_some.2 hh)

set_option maxRecDepth 100000 in
theorem checkpoint_loadSnap_smallStore :
    ∃ w' s info, checkpoint ⟨smallStore, Disk.empty, []⟩ = .ok () w' ∧ loadSnapFile true w'.disk.snap = .ok (s, info) ∧
      s.index = smallStore.index ∧ s.tombs = smallStore.tombs := by
  have ho : smallStore.Owned := Store.owned_of_toList (by decide +kernel) (by decide +kernel)
  have hf : smallStore.Fits := Store.fits_iff.2 (by decide +kernel)
  obtain ⟨w', bytes, hc, _, _, s, info, hl, _, _, _, _, hi, ht, _⟩ :=
    checkpoint_loadSnap (w := ⟨smallStore, Disk.empty, []⟩) ho hf true
  exact ⟨w', s, info, hc, hl, hi, ht⟩

end BunnyMesh
