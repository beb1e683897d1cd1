import BunnyMesh.Storage.Converge
import BunnyMesh.Storage.Refine

/-!
# Schemas and index definitions under replication

A data record is merged by its stamp, a SCHEMA or INDEX record overwrites what is there.  A store that got a namespace
through `apply_synced` alone shows its log replayed, whatever else it does (`Replayed`), so its definitions are those of
the last SCHEMA and the last INDEX record to arrive: two stores with the same records agree, in every order of arrival,
exactly if there is no choice (`definitions_converge_iff`).
-/

namespace BunnyMesh

open Std Store
open Runs (Run guarded)

/-! ### The last definition -/

/-- The definition that the last record of a kind leaves. -/
def definitionOf (tag : UInt8) (rs : List Record) : Option Bytes :=
  (rs.filter (·.tag == tag)).getLast?.bind fun r => NsState.definition r.value

/-- All records of a kind carry the same definition. -/
def OneDefinition (tag : UInt8) (rs : List Record) : Prop :=
  ∀ r ∈ rs, ∀ r' ∈ rs, r.tag = tag → r'.tag = tag → r.value = r'.value

theorem NsState.definition_injective : Function.Injective NsState.definition := by
  intro v v' h
  unfold NsState.definition at h
  cases v with
  | nil =>
    cases v' with
    | nil => rfl
    | cons b v' => simp at h
  | cons a v =>
    cases v' with
    | nil => simp at h
    | cons b v' => simpa using h

theorem definitionOf_append (tag : UInt8) (rs : List Record) (r : Record) :
    definitionOf tag (rs ++ [r]) = if r.tag = tag then NsState.definition r.value else definitionOf tag rs := by
  unfold definitionOf
  by_cases h : r.tag = tag
  · simp [h]
  · simp [h]

variable {rs : List Record} {tag : UInt8}

theorem definitionOf_of_mem (h : OneDefinition tag rs) {r : Record} (hr : r ∈ rs)
    (htag : r.tag = tag) : definitionOf tag rs = NsState.definition r.value := by
  have hmem : r ∈ rs.filter (·.tag == tag) := List.mem_filter.2 ⟨hr, by simpa using htag⟩
  obtain ⟨last, hlast⟩ := Option.ne_none_iff_exists'.1 fun hnone =>
    List.ne_nil_of_mem hmem (List.getLast?_eq_none_iff.1 hnone)
  obtain ⟨hlmem, hltag⟩ := List.mem_filter.1 (List.mem_of_getLast? hlast)
  rw [definitionOf, hlast, Option.bind_some, h last hlmem r hr (by simpa using hltag) htag]

theorem definitionOf_of_none (h : ∀ r ∈ rs, r.tag ≠ tag) : definitionOf tag rs = none := by
  have hnil : rs.filter (·.tag == tag) = [] := List.filter_eq_nil_iff.2 fun r hr => by simpa using h r hr
  rw [definitionOf, hnil]
  rfl

theorem definitionOf_congr {rs' : List Record} (h : OneDefinition tag rs) (hmem : ∀ r, r ∈ rs' ↔ r ∈ rs) :
    definitionOf tag rs' = definitionOf tag rs := by
  have h' : OneDefinition tag rs' := fun r hr r' hr' => h r ((hmem r).1 hr) r' ((hmem r').1 hr')
  by_cases hex : ∃ r ∈ rs, r.tag = tag
  · obtain ⟨r, hr, htag⟩ := hex
    rw [definitionOf_of_mem h hr htag, definitionOf_of_mem h' ((hmem r).2 hr) htag]
  · have hnone : ∀ r ∈ rs, r.tag ≠ tag := fun r hr htag => hex ⟨r, hr, htag⟩
    rw [definitionOf_of_none hnone, definitionOf_of_none fun r hr => hnone r ((hmem r).1 hr)]

theorem exists_perm_definitionOf_ne (h : ¬ OneDefinition tag rs) :
    ∃ rs', rs'.Perm rs ∧ definitionOf tag rs' ≠ definitionOf tag rs := by
  unfold OneDefinition at h
  push Not at h
  obtain ⟨r, hr, r', hr', htag, htag', hne⟩ := h
  -- the record that the log does not end with is moved to its end
  have hlast : ∀ a ∈ rs, a.tag = tag → ∃ rs', rs'.Perm rs ∧ definitionOf tag rs' = NsState.definition a.value := by
    intro a ha htag
    obtain ⟨front, back, rfl⟩ := List.append_of_mem ha
    refine ⟨front ++ back ++ [a], ?_, ?_⟩
    · exact (List.perm_append_singleton a _).trans List.perm_middle.symm
    · rw [definitionOf_append, if_pos htag]
  by_cases heq : NsState.definition r.value = definitionOf tag rs
  · obtain ⟨rs', hperm, hdef⟩ := hlast r' hr' htag'
    refine ⟨rs', hperm, fun h => hne (NsState.definition_injective ?_)⟩
    rw [heq, ← h, hdef]
  · obtain ⟨rs', hperm, hdef⟩ := hlast r hr htag
    exact ⟨rs', hperm, hdef ▸ heq⟩

theorem NsState.definitions_foldl_recordOp (p : ConflictPolicy) (seq : Nat) (ops : List Op) (st : NsState) :
    (ops.foldl (recordOp p seq) st).schema = st.schema ∧ (ops.foldl (recordOp p seq) st).indexDef = st.indexDef := by
  induction ops generalizing st with
  | nil => exact ⟨rfl, rfl⟩
  | cons op ops ih => exact ih (st.recordOp p seq op)

theorem NsState.schema_record (p : ConflictPolicy) (seq : Nat) (st : NsState) (r : Record) :
    (st.record p seq r).schema = if r.tag = tagSchema then definition r.value else st.schema := by
  by_cases h : r.tag = tagSchema
  · rw [if_pos h, record, if_neg (by rw [h]; decide), if_neg (by rw [h]; decide), if_pos h]
  · rw [if_neg h, record, if_neg h]
    split_ifs
    · rfl
    · exact (definitions_foldl_recordOp p seq r.ops st).1
    · rfl
    · rfl

theorem NsState.indexDef_record (p : ConflictPolicy) (seq : Nat) (st : NsState) (r : Record) :
    (st.record p seq r).indexDef = if r.tag = tagIndex then definition r.value else st.indexDef := by
  by_cases h : r.tag = tagIndex
  · rw [if_pos h, record, if_neg (by rw [h]; decide), if_neg (by rw [h]; decide), if_neg (by rw [h]; decide), if_pos h]
  · rw [if_neg h, record, if_neg h]
    split_ifs
    · rfl
    · exact (definitions_foldl_recordOp p seq r.ops st).2
    · rfl
    · rfl

theorem NsState.definitions_replay (p : ConflictPolicy) (rs : List Record) :
    (NsState.empty.replay p 1 rs).schema = definitionOf tagSchema rs ∧
      (NsState.empty.replay p 1 rs).indexDef = definitionOf tagIndex rs := by
  induction rs using List.reverseRecOn with
  | nil => exact ⟨rfl, rfl⟩
  | append_singleton rs r ih =>
    rw [replay_append, definitionOf_append, definitionOf_append, ← ih.1, ← ih.2]
    exact ⟨schema_record .., indexDef_record ..⟩

/-! ### A namespace that is only synced -/

section

variable [Crates]
variable {w w' w₀ : World} {g g' : History} {ns : Bytes} {p : ConflictPolicy} {rs : List Record} {x x' : World × History}

/-- The namespace is written through `apply_synced` alone, and not compacted. -/
def Cmd.SyncsOnly (ns : Bytes) : Cmd → Prop
  | put n _ _ _ _ _ _ | delete n _ _ _ _ | putBatch n _ | setSchema n _ _ _ _ | setIndex n _ _ _ _ => n ≠ ns
  | gcLive _ => False
  | createNamespace _ _ | applySynced _ _ | applySyncedBatch _ _ | checkpoint | reopen _ _ => True

/-- The store hosts `ns`, and got all its records through `apply_synced`, in any run of other operations, checkpoints and
restarts. -/
def SyncedOnly (ns : Bytes) (w : World) : Prop :=
  ∃ w₀ cmds, Opened w₀ ∧ Run (guarded (fun w c => c.Valid w.store ∧ c.SyncsOnly ns) Step) w₀ cmds w ∧
    w.store.policies[ns]? ≠ none

/-- The store shows its log replayed, the snapshot a part of it, and no record is there twice. -/
structure Replayed (ns : Bytes) (x : World × History) : Prop where
  view : ∀ p, x.1.store.policies[ns]? = some p → x.1.store.view ns = NsState.empty.replay p 1 (x.2.records ns)
  base : ∀ p, x.1.store.policies[ns]? = some p →
    x.2.base.view ns = NsState.empty.replay p 1 ((x.2.records ns).take (x.2.base.snapHead ns).1)
  ids : ((x.2.records ns).map versionKey).Nodup

theorem Replayed.recovered (h : Replayed ns (w, g)) (hs : Sound (w, g)) (hp : w.store.policies[ns]? = some p) :
    g.recovered ns p = NsState.empty.replay p 1 (g.records ns) := by
  have hle : (g.base.snapHead ns).1 ≤ (g.records ns).length := hs.running.disk.snapHead_le (by rw [hp]; simp)
  have happend := NsState.replay_append p 1 .empty ((g.records ns).take (g.base.snapHead ns).1)
    ((g.records ns).drop (g.base.snapHead ns).1)
  rw [List.take_append_drop, List.length_take, Nat.min_eq_left hle, Nat.add_comm] at happend
  rw [happend, History.recovered, h.base p hp]

theorem Replayed.synced {r : Record} (h : Replayed ns (w, g)) (hs : Sound (w, g))
    (hnew : versionKey r ∉ (g.records ns).map versionKey) (hl : Logged ns p (.synced r) w g w') :
    Replayed ns (w', g.log ns r) := by
  obtain ⟨-, hpol, -, hview, -⟩ := hl.spec hs.running.toAttached
  obtain ⟨hp, -, -, -, -⟩ := hl
  have hle : (g.base.snapHead ns).1 ≤ (g.records ns).length := hs.running.disk.snapHead_le (by rw [hp]; simp)
  have hlog : (g.log ns r).records ns = g.records ns ++ [r] := Function.update_self ..
  refine ⟨fun q hq => ?_, fun q hq => ?_, ?_⟩
  · dsimp only at hq ⊢
    obtain rfl : p = q := Option.some.inj (hp.symm.trans (hpol ▸ hq))
    rw [hview, h.view p hp, hlog, NsState.replay_append, Nat.add_comm]
    rfl
  · dsimp only at hq ⊢
    rw [hpol] at hq
    change g.base.view ns = NsState.empty.replay q 1 (((g.log ns r).records ns).take (g.base.snapHead ns).1)
    rw [hlog, List.take_append_of_le_length hle]
    exact h.base q hq
  · dsimp only
    rw [hlog, List.map_append, List.nodup_append]
    refine ⟨h.ids, List.nodup_singleton _, ?_⟩
    intro k hk k' hk' heq
    rw [List.map_singleton, List.mem_singleton] at hk'
    exact hnew (hk' ▸ heq ▸ hk)

def Event.Elsewhere (ns : Bytes) : Event → Prop
  | changed n _ => n ≠ ns
  | compacted _ => False
  | _ => True

theorem Happens.replayed {e : Event} (h : Replayed ns x) (hs : Sound x) (he : Happens x e x') (helse : e.Elsewhere ns) :
    Replayed ns x' := by
  have hrun := hs.running
  cases he with
  | @created w g n p log disk points valid fresh running =>
    rcases eq_or_ne n ns with rfl | hne
    · have hrecords : (g.create n).records n = [] := Function.update_self ..
      obtain ⟨-, hbase, -⟩ := hrun.disk.toBaseRep.unknown fresh
      refine ⟨fun q _ => ?_, fun q _ => ?_, ?_⟩
      · dsimp only
        rw [hrecords]
        exact hrun.outside n fresh
      · dsimp only
        rw [hrecords, List.take_nil]
        exact hbase
      · dsimp only
        rw [hrecords]
        exact List.nodup_nil
    · have hrecords : (g.create n).records ns = g.records ns := Function.update_of_ne hne.symm ..
      have hpol : (w.store.policies.insert n p)[ns]? = w.store.policies[ns]? := by
        rw [OrdMap.getElem?_insert, if_neg hne]
      refine ⟨fun q hq => ?_, fun q hq => ?_, ?_⟩
      · dsimp only
        rw [hrecords]
        exact h.view q (hpol.symm.trans hq)
      · dsimp only
        rw [hrecords]
        exact h.base q (hpol.symm.trans hq)
      · dsimp only
        rw [hrecords]
        exact h.ids
  | @changed w w' g n p c logged =>
    have hne : n ≠ ns := helse
    obtain ⟨-, hpol, -, -, hrest⟩ := logged.spec hrun.toAttached
    have hrecords : (g.log n c.record).records ns = g.records ns := Function.update_of_ne hne.symm ..
    refine ⟨fun q hq => ?_, fun q hq => ?_, ?_⟩
    · dsimp only at hq ⊢
      rw [hrecords, hrest ns hne.symm]
      exact h.view q (hpol ▸ hq)
    · dsimp only at hq ⊢
      rw [hrecords]
      exact h.base q (hpol ▸ hq)
    · dsimp only
      rw [hrecords]
      exact h.ids
  | @snapshot w g disk points running =>
    refine ⟨h.view, fun q hq => ?_, h.ids⟩
    dsimp only [History.snapshot] at hq ⊢
    have hlen : (g.bytes ns).length = (g.records ns).length := hrun.files.length_records (by rw [hq]; simp)
    have hhead : (w.store.snapHead ns).1 = (g.records ns).length := by
      rw [Store.snapHead, hrun.head_eq hq, Option.getD_some, hlen]
    rw [hhead, List.take_length]
    exact h.view q hq
  | @reopened w w' g running policies derived view =>
    refine ⟨fun q hq => ?_, fun q hq => ?_, h.ids⟩
    · dsimp only at hq ⊢
      rw [policies] at hq
      rw [view ns q hq]
      exact h.recovered hs hq
    · dsimp only at hq ⊢
      exact h.base q (policies ▸ hq)
  | compacted run running => exact helse.elim

theorem Replayed.events {es : List Event} (h : Replayed ns x) (hs : Sound x) (hrun : Run Happens x es x')
    (helse : ∀ e ∈ es, e.Elsewhere ns) : Replayed ns x' := by
  induction hrun with
  | nil => exact h
  | cons first rest ih =>
    obtain ⟨he, hrest⟩ := List.forall_mem_cons.1 helse
    exact ih (first.replayed h hs he) (first.sound hs) hrest

theorem Replayed.syncedAll (h : Replayed ns x) (hs : Sound x) (hnew : ∀ r ∈ rs, versionKey r ∉ (x.2.records ns).map versionKey)
    (hids : (rs.map versionKey).Nodup) (hrun : Run Happens x (rs.map fun r => .changed ns (.synced r)) x') : Replayed ns x' := by
  induction rs generalizing x with
  | nil =>
    cases hrun
    exact h
  | cons r rs ih =>
    obtain ⟨hr, hrest⟩ := List.forall_mem_cons.1 hnew
    rw [List.map_cons, List.nodup_cons] at hids
    cases hrun with
    | cons first rest =>
      have hs' := first.sound hs
      cases first with
      | @changed w w' g _ p _ logged =>
        refine ih (h.synced hs hr logged) hs' (fun r' hr' => ?_) hids.2 rest
        have hlog : (g.log ns r).records ns = g.records ns ++ [r] := Function.update_self ..
        rw [hlog, List.map_append, List.mem_append, not_or]
        refine ⟨hrest r' hr', fun heq => hids.1 ?_⟩
        rw [List.map_singleton, List.mem_singleton] at heq
        exact heq ▸ List.mem_map_of_mem hr'

theorem Replayed.batch (h : Replayed ns (w, g)) (hs : Sound (w, g)) {n : Bytes} {records : List Record}
    (hrun : Run Happens (w, g) ((w.unseen n records).map fun r => .changed n (.synced r)) x') : Replayed ns x' := by
  rcases eq_or_ne n ns with rfl | hne
  · cases hp : w.store.policies[n]? with
    | none =>
      -- nothing is synced to a namespace that is not hosted
      cases hunseen : w.unseen n records with
      | nil =>
        rw [hunseen] at hrun
        exact h.events hs hrun (by simp)
      | cons r rs =>
        rw [hunseen] at hrun
        cases hrun with
        | cons first rest =>
          cases first with
          | changed logged =>
            obtain ⟨hp', -, -, -, -⟩ := logged
            rw [hp] at hp'
            cases hp'
    | some p =>
      rw [World.unseen_eq hs.running hp] at hrun
      exact h.syncedAll hs (fun r hr => Shipping.key_not_mem_of_mem_unseen hr) Shipping.nodup_unseen hrun
  · refine h.events hs hrun fun e he => ?_
    obtain ⟨r, -, rfl⟩ := List.mem_map.1 he
    exact hne

theorem SyncedOnly.replayed (h : SyncedOnly ns w) : ∃ g, Sound (w, g) ∧ Replayed ns (w, g) := by
  obtain ⟨w₀, cmds, h0, hrun, -⟩ := h
  refine run_invariant (I := Replayed ns) (fun _ _ hok => hok.1) ?_ hrun h0.sound.1 ?_
  · intro w g c x' hs hI hok hevents
    obtain ⟨-, hsyncs⟩ := hok
    cases c with
    | applySynced n r => exact hI.batch hs hevents
    | applySyncedBatch n records => exact hI.batch hs hevents
    | gcLive now => exact hsyncs.elim
    | put | delete | putBatch | setSchema | setIndex =>
      exact hI.events hs hevents (List.forall_mem_singleton.2 hsyncs)
    | createNamespace | checkpoint | reopen => exact hI.events hs hevents (List.forall_mem_singleton.2 trivial)
  · have hnone : ∀ p, w₀.store.policies[ns]? ≠ some p := by
      intro p hp
      rw [h0.sound.2] at hp
      simp at hp
    exact ⟨fun p hp => absurd hp (hnone p), fun p hp => absurd hp (hnone p), List.nodup_nil⟩

theorem SyncedOnly.definitions (h : SyncedOnly ns w) : (∀ r ∈ w.records ns, r.WellFormed) ∧
    ((w.records ns).map versionKey).Nodup ∧ w.store.schema ns = definitionOf tagSchema (w.records ns) ∧
    w.store.indexDef ns = definitionOf tagIndex (w.records ns) := by
  obtain ⟨g, hs, hI⟩ := h.replayed
  obtain ⟨-, -, -, -, hhosted⟩ := h
  obtain ⟨p, hp⟩ := Option.ne_none_iff_exists'.1 hhosted
  have hview := hI.view p hp
  obtain ⟨hschema, hindex⟩ := NsState.definitions_replay p (g.records ns)
  rw [hs.running.toAttached.records_eq hp]
  refine ⟨(hs.running.files.chained ns hhosted).wellFormed, hI.ids, ?_, ?_⟩
  · rw [← hschema, ← hview]
    rfl
  · rw [← hindex, ← hview]
    rfl

theorem exists_syncedOnly (hv : validNs ns) (hwf : ∀ r ∈ rs, r.WellFormed) (hids : (rs.map versionKey).Nodup) :
    ∃ w, SyncedOnly ns w ∧ w.records ns = rs := by
  obtain ⟨w₀, hopen, -⟩ := openDurable_spec diskRep_empty (Store.init false) [] false 0
  have h0 : Opened w₀ := ⟨_, _, _, _, hopen⟩
  obtain ⟨hsound, hempty⟩ := h0.sound
  have hcreate : ∃ w1, createNamespace ns .lww w₀ = .ok () w1 := by
    rcases outcome_createNamespace hsound.running ns .lww with ⟨hno, -⟩ | ⟨w1, -, hok, -⟩
    · exact absurd ⟨hv, by rw [hempty]; simp⟩ hno
    · exact ⟨w1, hok⟩
  obtain ⟨w1, hcreate⟩ := hcreate
  obtain ⟨g, hat, hp, hrecords, -⟩ := created_empty h0 hcreate
  obtain ⟨w, hrun, -, hat', hpol⟩ := applySyncedBatch_spec hat hp hwf
  have hnew : newRecords ((g.records ns).map versionKey) rs = rs := by
    rw [hrecords]
    exact Shipping.unseen_of_fresh (by simp) hids
  have hp' : w.store.policies[ns]? = some .lww := by rw [hpol, hp]
  rw [hnew] at hat'
  refine ⟨w, ⟨w₀, [.createNamespace ns .lww, .applySyncedBatch ns rs], h0, ?_, by rw [hp']; simp⟩, ?_⟩
  · have hcmd : (Cmd.applySyncedBatch ns rs).run w1 = .ok () w := Exec.bind_ok (f := fun _ => pure ()) hrun
    exact .cons ⟨⟨trivial, trivial⟩, .ok hcreate⟩ (.cons ⟨⟨hwf, trivial⟩, .ok hcmd⟩ (.nil _))
  · rw [hat'.records_eq hp', (g.records_logAll ns rs).1, hrecords, List.nil_append]

/-- All stores that have the records of a store, in any order of arrival, have its schema and its index definition,
exactly if its SCHEMA records carry one definition and its INDEX records do. -/
theorem definitions_converge_iff (h : SyncedOnly ns w) :
    (∀ w', SyncedOnly ns w' → (∀ r, r ∈ w'.records ns ↔ r ∈ w.records ns) →
        w'.store.schema ns = w.store.schema ns ∧ w'.store.indexDef ns = w.store.indexDef ns) ↔
      OneDefinition tagSchema (w.records ns) ∧ OneDefinition tagIndex (w.records ns) := by
  obtain ⟨hwf, hids, hschema, hindex⟩ := h.definitions
  constructor
  · intro hall
    have hv : validNs ns := by
      obtain ⟨g, hs, -⟩ := h.replayed
      obtain ⟨-, -, -, -, hhosted⟩ := h
      exact hs.running.files.valid ns hhosted
    -- another order of the records is another store
    have horder : ∀ rs', rs'.Perm (w.records ns) → definitionOf tagSchema rs' = definitionOf tagSchema (w.records ns) ∧
        definitionOf tagIndex rs' = definitionOf tagIndex (w.records ns) := by
      intro rs' hperm
      obtain ⟨w', h', rfl⟩ := exists_syncedOnly hv (fun r hr => hwf r (hperm.mem_iff.1 hr)) ((hperm.map _).nodup_iff.2 hids)
      obtain ⟨-, -, hschema', hindex'⟩ := h'.definitions
      obtain ⟨hs, hi⟩ := hall w' h' fun r => hperm.mem_iff
      exact ⟨by rw [← hschema', hs, hschema], by rw [← hindex', hi, hindex]⟩
    constructor
    · by_contra hno
      obtain ⟨rs', hperm, hne⟩ := exists_perm_definitionOf_ne hno
      exact hne (horder rs' hperm).1
    · by_contra hno
      obtain ⟨rs', hperm, hne⟩ := exists_perm_definitionOf_ne hno
      exact hne (horder rs' hperm).2
  · rintro ⟨honeS, honeI⟩ w' h' hmem
    obtain ⟨-, -, hschema', hindex'⟩ := h'.definitions
    rw [hschema', hindex', hschema, hindex]
    exact ⟨definitionOf_congr honeS hmem, definitionOf_congr honeI hmem⟩

end

/-! ### Two orders of arrival -/

instance (ns : Bytes) (c : Cmd) : Decidable (c.SyncsOnly ns) := by
  induction c using Cmd.casesOn <;> dsimp only [Cmd.SyncsOnly] <;> infer_instance

def arrived (rs : List Record) : Option World :=
  letI := Crates.trivial
  (freshRun (fun w c => c.Valid w.store ∧ c.SyncsOnly [97]) (.createNamespace [97] .lww :: rs.map (.applySynced [97]))).filter
    fun w => w.store.policies[([97] : Bytes)]?.isSome

theorem syncedOnly_of_arrived {w : World} (h : arrived rs = some w) : letI := Crates.trivial
    SyncedOnly [97] w := by
  let _ := Crates.trivial
  obtain ⟨hrun, hhosted⟩ := Option.filter_eq_some_iff.1 h
  obtain ⟨w₀, h0, hrun⟩ := freshRun_sound hrun
  exact ⟨w₀, _, h0, hrun, Option.isSome_iff_ne_none.1 hhosted⟩

theorem exists_of_arrived {schema : Option Bytes} (h : letI := Crates.trivial
    ((arrived rs).any fun w => decide (w.records [97] = rs ∧ w.store.schema [97] = schema)) = true) : letI := Crates.trivial
    ∃ w, SyncedOnly [97] w ∧ w.records [97] = rs ∧ w.store.schema [97] = schema := by
  let _ := Crates.trivial
  obtain ⟨w, hw, h⟩ := (Option.any_eq_true ..).1 h
  exact ⟨w, syncedOnly_of_arrived hw, of_decide_eq_true h⟩

set_option maxRecDepth 100000 in
/-- Two writers set the same schema. -/
theorem definitions_converge_iff_one : letI := Crates.trivial
    ∃ w, SyncedOnly [97] w ∧ w.store.schema [97] = some [1] ∧
      ∀ w', SyncedOnly [97] w' → (∀ r, r ∈ w'.records [97] ↔ r ∈ w.records [97]) →
        w'.store.schema [97] = w.store.schema [97] ∧ w'.store.indexDef [97] = w.store.indexDef [97] := by
  obtain ⟨w, hsynced, hrecords, hschema⟩ := @exists_of_arrived
    [metaRecord tagSchema (some [1]) 1 .zero .zero, metaRecord tagSchema (some [1]) 2 .zero .zero] (some [1])
    (by decide +kernel)
  let _ := Crates.trivial
  refine ⟨w, hsynced, hschema, (definitions_converge_iff hsynced).2 ?_⟩
  have hone : ∀ tag, OneDefinition tag (w.records [97]) := by
    intro tag r hr r' hr' _ _
    rw [hrecords, List.mem_pair] at hr hr'
    rcases hr with rfl | rfl <;> rcases hr' with rfl | rfl <;> rfl
  exact ⟨hone tagSchema, hone tagIndex⟩

set_option maxRecDepth 100000 in
/-- One writer sets the schema, another one clears it: the store that gets the records in the other order keeps it. -/
theorem definitions_stay_apart : letI := Crates.trivial
    ∃ w w', SyncedOnly [97] w ∧ SyncedOnly [97] w' ∧ w'.records [97] = (w.records [97]).reverse ∧
      w.store.schema [97] = none ∧ w'.store.schema [97] = some [1] := by
  obtain ⟨w, hsynced, hrecords, hschema⟩ := @exists_of_arrived
    [metaRecord tagSchema (some [1]) 1 .zero .zero, metaRecord tagSchema none 2 .zero .zero] none (by decide +kernel)
  obtain ⟨w', hsynced', hrecords', hschema'⟩ := @exists_of_arrived
    [metaRecord tagSchema none 2 .zero .zero, metaRecord tagSchema (some [1]) 1 .zero .zero] (some [1]) (by decide +kernel)
  exact ⟨w, w', hsynced, hsynced', by rw [hrecords, hrecords']; rfl, hschema, hschema'⟩

end BunnyMesh
