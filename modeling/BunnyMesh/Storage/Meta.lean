import BunnyMesh.Storage.Frame
import BunnyMesh.Storage.Runs

/-!
# Metadata that only `metaSet` writes

The store writes the schema and the index definition of a namespace and the time of its creation into the metadata map.
Every other key is left alone by every operation, whether it succeeds or fails, and a store that opens a directory
finds it as the snapshot has it (`metaAt_of_open`).
-/

namespace BunnyMesh

open Std Store Exec

/-- A key the store itself does not write. -/
structure Reserved (k : Bytes) : Prop where
  schema : ∀ ns, schemaKey ns ≠ k
  index : ∀ ns, indexKey ns ≠ k
  created : createdKey ≠ k

/-- The keys under `sys/` are such: their second letter is neither that of `schema/`, nor of `index/`, nor of
`created_ms`. -/
theorem reserved_of_second {k : Bytes} (h : k[1]? = some 121) : Reserved k := by
  have hne : ∀ {a b : Bytes} {c : UInt8}, a[1]? = some c → c ≠ 121 → a ++ b ≠ k := by
    intro a b c ha hc e
    have hlt : 1 < a.length := by
      by_contra hlen
      rw [List.getElem?_eq_none (by omega)] at ha
      cases ha
    rw [← e, List.getElem?_append_left hlt, ha] at h
    exact hc (Option.some.inj h)
  refine ⟨fun ns => ?_, fun ns => ?_, ?_⟩
  · exact hne (c := 99) (by decide +kernel) (by decide)
  · exact hne (c := 110) (by decide +kernel) (by decide)
  · rw [← List.append_nil createdKey]
    exact hne (c := 114) (by decide +kernel) (by decide)

def Store.MetaAt (k : Bytes) (v : Option Bytes) (s : Store) : Prop := s.metaMap[k]? = v

abbrev World.MetaAt (k : Bytes) (v : Option Bytes) : World → Prop := InStore (Store.MetaAt k v)

variable {k : Bytes} {v : Option Bytes} {ns : Bytes}

theorem logBlind_metaAt : LogBlind (Store.MetaAt k v) :=
  ⟨fun _ _ _ h => h, fun _ _ _ h => h, fun _ h => h⟩

theorem Store.metaAt_of_core {s s' : Store} (hcore : s'.core = s.core) (h : s.MetaAt k v) : s'.MetaAt k v := by
  change s'.core.metaMap[k]? = v
  rw [hcore]
  exact h

theorem entryBlind_metaAt {ek : EntryKey} : EntryBlind ek (Store.MetaAt k v) :=
  ⟨fun _ _ _ _ _ h => h, fun _ _ => Store.metaAt_of_core, fun _ h => h⟩

def Disk.savedMeta (d : Disk) (k : Bytes) : Option Bytes :=
  match loadSnapFile false d.snap with
  | .ok (s, _) => s.metaMap[k]?
  | .error _ => none

/-! ### In memory -/

section

theorem Store.MetaAt.setMeta {s : Store} (h : s.MetaAt k v) {key : Bytes} (hk : key ≠ k) (m : BMap Bytes Bytes)
    (hm : ∀ a, a ≠ key → m[a]? = s.metaMap[a]?) : Store.MetaAt k v { s with metaMap := m } :=
  (hm k (Ne.symm hk)).trans h

theorem always_metaAt_setOrClear {key : Bytes} (hne : key ≠ k) (value : Bytes) :
    Always (Store.MetaAt k v) (setOrClear key value) := by
  refine Always.modify fun s h => h.setMeta hne _ fun a ha => ?_
  split
  · rw [OrdMap.getElem?_erase, if_neg (Ne.symm ha)]
  · rw [OrdMap.getElem?_insert, if_neg (Ne.symm ha)]

theorem always_metaAt_setMeta {key : Bytes} (hne : key ≠ k) (value : Option Bytes) :
    Always (Store.MetaAt k v) (setMeta key value) := by
  refine Always.modify fun s h => h.setMeta hne _ fun a ha => ?_
  rw [OrdMap.getElem?_setOrErase, if_neg (Ne.symm ha)]

variable [Crates] (hk : Reserved k)
include hk

theorem always_metaAt_applyRecord (r : Record) (seq : Nat) : Always (Store.MetaAt k v) (applyRecord ns r seq) := by
  refine always_applyRecord (fun _ => entryBlind_metaAt) (fun key hkey value => always_metaAt_setOrClear ?_ value) r seq
  rcases hkey with rfl | rfl
  · exact hk.schema ns
  · exact hk.index ns

end

/-! ### On the directory -/

section
variable [Crates] (hk : Reserved k)
include hk

theorem always_metaAt_applyNew (r : Record) : Always (World.MetaAt k v) (applyNew ns r) :=
  always_logged logBlind_metaAt fun seq => Always.bind (always_metaAt_applyRecord hk r seq) fun _ => Always.modify fun _ h => h

theorem always_metaAt_applySyncedLoop (records : List Record) (seen : List (UInt8 × UInt64 × Bytes32)) (applied : Nat) :
    Always (World.MetaAt k v) (applySyncedLoop ns records seen applied) := by
  induction records generalizing seen applied with
  | nil => exact Always.pure
  | cons r records ih =>
    exact Always.ite (ih _ _) (Always.bind (always_metaAt_applyNew hk r) fun _ => ih _ _)

theorem always_metaAt_reapply (recs : List (Nat × Bytes)) : Always (World.MetaAt k v) (reapply ns recs) := by
  induction recs with
  | nil => exact Always.pure
  | cons x recs ih =>
    unfold reapply
    split
    · exact Always.bind (always_mem (always_metaAt_applyRecord hk _ _)) fun _ => ih
    · exact ih
    · exact Always.throw

theorem always_metaAt_replayRecords (recs : List (Nat × Bytes)) (head : Bytes32) :
    Always (World.MetaAt k v) (replayRecords ns recs head) := by
  induction recs generalizing head with
  | nil => exact Always.pure
  | cons x recs ih =>
    exact Always.bind (always_liftRes _) fun _ =>
      Always.bind (always_mem (always_metaAt_applyRecord hk _ _)) fun _ => ih _

theorem always_metaAt_gcNs (now : UInt64) : Always (World.MetaAt k v) (gcNs now ns) := by
  have hbytes : Always (World.MetaAt k v) (segBytes ns) := by
    refine Always.get_bind fun w => ?_
    split <;> exact Always.pure
  have hall : Always (World.MetaAt k v) (allRecords ns) := by
    intro w hw
    have h : World.MetaAt k v (finalState (logRecords ns 1 0 w)) := always_logRecords 1 0 w hw
    unfold allRecords
    split
    all_goals
      rename_i heq
      rw [heq] at h
      exact h
  have hrewrite : ∀ out, Always (World.MetaAt k v) (rewriteNs ns out) := by
    intro out
    refine Always.bind (Always.bind (Always.bind (always_effect _) fun _ => always_getDir) fun _ =>
      always_segEffects _) fun _ => Always.get_bind fun w => ?_
    refine Always.bind (always_openLog _) fun _ => Always.bind (Always.modify fun _ h => h) fun _ => ?_
    refine Always.bind (always_mem (Always.modify fun _ h => h)) fun _ => ?_
    exact Always.bind hall fun recs => always_metaAt_reapply hk recs
  refine Always.bind hbytes fun before => Always.get_bind fun w => ?_
  have hrest : Always (World.MetaAt k v) (do
      let after ← segBytes ns
      pure (before - after)) := Always.bind hbytes fun _ => Always.pure
  exact Always.ite (Always.bind (hrewrite _) fun _ => hrest) hrest

theorem always_metaAt_gcLive (now : UInt64) : Always (World.MetaAt k v) (gcLive now) := by
  have hloop : ∀ nss reclaimed, Always (World.MetaAt k v) (gcLoop now nss reclaimed) := by
    intro nss
    induction nss with
    | nil => exact fun _ => Always.pure
    | cons ns nss ih => exact fun _ => Always.bind (always_metaAt_gcNs hk now) fun _ => ih _
  refine Always.get_bind fun w => Always.bind (Always.ite Always.pure Always.throw) fun _ => Always.get_bind fun w => ?_
  exact Always.bind (hloop _ _) fun _ => Always.bind always_checkpoint fun _ => Always.pure

theorem always_metaAt_run {c : Cmd} (hc : c.isReopen = false) : Always (World.MetaAt k v) c.run := by
  cases c with
  | createNamespace ns p => exact always_createNamespace logBlind_metaAt p
  | put ns key value hlc replica author expiresAt =>
    exact Always.bind (always_logged logBlind_metaAt fun seq => entryBlind_metaAt.applyLocalOp _ seq) fun _ => Always.pure
  | delete ns key hlc replica author =>
    refine Always.bind (Always.bind always_requirePolicy fun _ => ?_) fun _ => Always.pure
    exact always_logged logBlind_metaAt fun seq => entryBlind_metaAt.applyLocalOp _ seq
  | putBatch ns ops =>
    refine Always.bind (Always.ite Always.throw (Always.bind always_requirePolicy fun _ => ?_)) fun _ => Always.pure
    exact always_logged logBlind_metaAt fun seq => Always.forM fun op => entryBlind_metaAt.applyLocalOp _ seq
  | setSchema ns value hlc replica author =>
    refine Always.bind (Always.bind always_requirePolicy fun _ => always_logged logBlind_metaAt fun seq => ?_)
      fun _ => Always.pure
    exact Always.bind (always_metaAt_setMeta (hk.schema ns) value) fun _ => Always.modify fun _ h => h
  | setIndex ns value hlc replica author =>
    refine Always.bind (Always.bind always_requirePolicy fun _ => always_logged logBlind_metaAt fun seq => ?_)
      fun _ => Always.pure
    refine Always.bind (always_metaAt_setMeta (hk.index ns) value) fun _ => Always.bind ?_ fun _ =>
      Always.modify fun _ h => h
    exact Always.modify fun _ h => Store.metaAt_of_core (core_rebuildSecIndexNs ..) h
  | applySynced ns r =>
    refine Always.bind (Always.bind always_requirePolicy fun _ => Always.bind always_logVersions fun seen =>
      Always.ite Always.pure (Always.bind (always_metaAt_applyNew hk r) fun _ => Always.pure)) fun _ => Always.pure
  | applySyncedBatch ns records =>
    refine Always.bind (Always.bind always_requirePolicy fun _ => Always.bind always_logVersions fun seen =>
      always_metaAt_applySyncedLoop hk records seen 0) fun _ => Always.pure
  | checkpoint => exact always_checkpoint
  | gcLive now => exact Always.bind (always_metaAt_gcLive hk now) fun _ => Always.pure
  | reopen durable now => cases hc

/-! ### Opening a directory -/

theorem always_metaAt_openNs (info : BMap Bytes (Nat × Bytes32)) (durable : Bool) :
    Always (World.MetaAt k v) (openNs info durable ns) := by
  refine Always.bind (always_recoverLog durable) fun log => Always.get_bind fun w => ?_
  refine Always.bind always_readPolicySidecar fun side => Always.bind (always_liftRes _) fun policy => Always.ite Always.throw ?_
  refine Always.bind (Always.modify fun _ h => h) fun _ => Always.bind always_getDir fun nd => ?_
  refine Always.bind (always_liftRes _) fun recs => Always.bind (always_metaAt_replayRecords hk recs _) fun head => ?_
  exact Always.ite Always.throw (Always.modify fun _ h => h)

omit [Crates] hk in
theorem savedMeta_of_loadSnapFile {d : Disk} {durable : Bool} {s : Store} {info : BMap Bytes (Nat × Bytes32)}
    (h : loadSnapFile durable d.snap = .ok (s, info)) : s.MetaAt k (d.savedMeta k) := by
  unfold Store.MetaAt Disk.savedMeta
  cases hsnap : d.snap with
  | none =>
    rw [hsnap] at h
    cases h
    rfl
  | some bytes =>
    rw [hsnap] at h
    simp only [loadSnapFile] at h ⊢
    cases hdec : decodeSnap bytes with
    | error e =>
      rw [hdec] at h
      cases h
    | ok snap =>
      rw [hdec] at h
      cases h
      rfl

theorem metaAt_of_open {s : Store} {d : Disk} {points : List Disk} {durable : Bool} {now : UInt64} {w : World}
    (h : openDurable durable now ⟨s, d, points⟩ = .ok () w) : w.MetaAt k (d.savedMeta k) := by
  have hopen : Triple (fun w => w = ⟨s, d, points⟩) (openDurable durable now) fun _ => World.MetaAt k (d.savedMeta k) := by
    refine Triple.get_bind fun w hw => Triple.bind (Q := fun x _ => loadSnapFile durable d.snap = .ok x) ?_ fun x => ?_
    · intro w' hw' a w'' hrun
      rw [hw] at hrun
      cases hload : loadSnapFile durable d.snap with
      | error e => rw [hload] at hrun; cases hrun
      | ok y => rw [hload] at hrun; cases hrun; rfl
    · refine Triple.bind (Q := fun _ => World.MetaAt k (d.savedMeta k)) ?_ fun _ => ?_
      · exact Triple.modify fun w hload => savedMeta_of_loadSnapFile hload
      · refine (Always.get_bind fun w => Always.bind (Always.forM fun ns => ?_) fun _ => ?_).keeps
        · exact Always.ite Always.pure Always.throw
        · refine Always.bind (Always.forM fun ns => always_metaAt_openNs hk _ _) fun _ => ?_
          refine Always.bind (Always.modify fun w hw => ?_) fun _ => Always.modify fun w hw => ?_
          · unfold Store.stampCreated World.MetaAt
            split
            · refine Store.MetaAt.setMeta hw hk.created _ fun a ha => ?_
              rw [OrdMap.getElem?_insert, if_neg (Ne.symm ha)]
            · exact hw
          · exact Store.metaAt_of_core (core_rebuildSecondaryIndexes _) hw
  exact hopen _ rfl () w h

end

end BunnyMesh
