import BunnyMesh.Lib.Triple
import BunnyMesh.Storage.Change
import BunnyMesh.Storage.Compact

/-!
# Frames

What an operation leaves alone.  A property of the store that does not look at the log handles, the policies and the
revision survives everything an operation does on the directory, whether it succeeds or fails; what is left to show is
what the operation does in memory.  A put and a delete leave every key but their own alone (`always_sameBut_put`,
`always_sameBut_delete`).  A synced batch moves the head of its namespace by the
records that are applied (`headSeq_applySyncedBatch`).
-/

namespace BunnyMesh

open Std Store Exec

/-- The property does not look at the log handles, the policies and the revision. -/
structure LogBlind (I : Store → Prop) : Prop where
  setLog : ∀ s ns log, I s → I (s.setLog ns log)
  setPolicy : ∀ s ns p, I s → I (s.setPolicy ns p)
  bump : ∀ s, I s → I s.bump

/-- The property of the store of a process. -/
abbrev InStore (I : Store → Prop) (w : World) : Prop := I w.store

variable {I : Store → Prop} {ns : Bytes}

theorem LogBlind.bumpRevision (hI : LogBlind I) : Always I bumpRevision := Always.modify hI.bump

/-! ### On the directory -/

theorem always_mem {α : Type} {x : Mem α} (h : Always I x) :
    Always (InStore I) (mem x) := by
  intro w hw
  have hs := h w.store hw
  unfold mem
  cases hx : x w.store with
  | ok a s => rw [hx] at hs; exact hs
  | error e s => rw [hx] at hs; exact hs

section
variable {J : World → Prop}

theorem always_liftRes {α : Type} (x : Res α) : Always J (liftRes x) := by
  cases x with
  | ok a => exact Always.pure
  | error e => exact Always.throw

theorem always_getDir : Always J (getDir ns) := by
  refine Always.get_bind fun w => ?_
  split
  · exact Always.pure
  · exact Always.throw

theorem always_getLog : Always J (getLog ns) := by
  refine Always.get_bind fun w => ?_
  split
  · exact Always.pure
  · exact Always.throw

theorem always_requirePolicy : Always J (requirePolicy ns) :=
  Always.get_bind fun _ => Always.ite Always.throw Always.pure

theorem always_readPolicySidecar : Always J (readPolicySidecar ns) := by
  refine Always.get_bind fun w => ?_
  split
  · exact Always.pure
  · exact Always.bind (always_liftRes _) fun _ => Always.pure
  · exact Always.throw

theorem always_logRecords (fromSeq max : Nat) : Always J (logRecords ns fromSeq max) :=
  Always.bind always_getLog fun _ => Always.bind always_getDir fun _ => always_liftRes _

theorem always_logVersions : Always J (logVersions ns) := by
  refine Always.get_bind fun w => ?_
  split
  · exact Always.pure
  · exact Always.bind (always_logRecords 1 0) fun _ => always_liftRes _

end

theorem always_effect (f : Disk → Disk) : Always (InStore I) (effect f) := Always.modify fun _ h => h

theorem always_segEffects (effects : List SegEffect) : Always (InStore I) (segEffects ns effects) :=
  Always.forM fun _ => always_effect _

section
variable [Crates]

theorem always_recoverLog (durable : Bool) : Always (InStore I) (recoverLog ns durable) :=
  Always.bind always_getDir fun _ => Always.bind (always_liftRes _) fun _ =>
    Always.bind (always_segEffects _) fun _ => Always.pure

theorem always_openLog (durable : Bool) : Always (InStore I) (openLog ns durable) :=
  Always.bind (always_effect _) fun _ => always_recoverLog durable

theorem always_logged (hI : LogBlind I) {r : Record} {act : Nat → Mem Unit} (h : ∀ seq, Always I (act seq)) :
    Always (InStore I) (logged ns r act) := by
  refine Always.bind always_getLog fun log => Always.bind ?_ fun seq =>
    Always.bind (always_mem (h seq)) fun _ => Always.pure
  exact Always.bind (always_segEffects _) fun _ => Always.bind (always_liftRes _) fun _ =>
    Always.bind (Always.modify fun _ h => hI.setLog _ _ _ h) fun _ => Always.pure

omit [Crates] in
theorem always_checkpoint : Always (InStore I) checkpoint := by
  refine Always.get_bind fun w => Always.bind (Always.forM fun _ => always_segEffects _) fun _ => ?_
  refine Always.get_bind fun w => Always.bind (always_effect _) fun _ =>
    Always.bind (always_effect _) fun _ => always_effect _

theorem always_createNamespace (hI : LogBlind I) (p : ConflictPolicy) : Always (InStore I) (createNamespace ns p) := by
  refine Always.ite Always.throw (Always.get_bind fun w => Always.ite Always.throw (Always.get_bind fun w => ?_))
  refine Always.bind (always_openLog _) fun log => Always.get_bind fun w => Always.ite Always.throw ?_
  refine Always.bind (always_effect _) fun _ => Always.bind (always_effect _) fun _ => ?_
  refine Always.bind (Always.modify fun _ h => hI.setPolicy _ _ _ h) fun _ => ?_
  exact Always.bind (Always.modify fun _ h => hI.setLog _ _ _ h) fun _ => always_mem hI.bumpRevision

end

/-! ### In memory -/

/-- The property looks neither at the entry and the tombstone of `ek` nor at the derived index and the revision. -/
structure EntryBlind (ek : EntryKey) (I : Store → Prop) : Prop where
  maps : ∀ s index tombs, (∀ x, x ≠ ek → index[x]? = s.index[x]?) → (∀ x, x ≠ ek → tombs[x]? = s.tombs[x]?) → I s →
    I { s with index := index, tombs := tombs }
  core : ∀ s s' : Store, s'.core = s.core → I s → I s'
  bump : ∀ s, I s → I s.bump

variable {ek : EntryKey} {op : Op}

theorem always_getPolicy : Always I (getPolicy ns) := by
  refine Always.get_bind fun s => ?_
  split
  · exact Always.pure
  · exact Always.throw

namespace EntryBlind

theorem setEntry (hI : EntryBlind ek I) (e : Entry) : Always I (setEntry ek e) :=
  Always.modify fun s => hI.maps s _ _ (fun x hx => by simp [hx.symm]) fun _ _ => rfl

theorem pushVersion (hI : EntryBlind ek I) (v : Version) : Always I (pushVersion ns ek v) := by
  refine Always.get_bind fun s => ?_
  split
  · exact hI.setEntry _
  · exact Always.throw
  · exact hI.setEntry _

variable [Crates]

theorem refresh (hI : EntryBlind ek I) (key : Bytes) :
    Always I (modify fun s => s.refreshSecIndexFor ns key : Mem PUnit) :=
  Always.modify fun s => hI.core s _ (core_refreshSecIndexFor ..)

theorem applyDel (hI : EntryBlind (ns, op.key) I) : Always I (applyDel ns op) := by
  refine Always.bind (Always.modify fun s => hI.maps s _ _ (fun x hx => ?_) fun x hx => ?_) fun _ => Always.modify fun s => ?_
  · simp [hx.symm]
  · simp [hx.symm]
  · exact hI.core s _ (core_removeFromSecIndex ..)

theorem applyLocalOp (op : Op) (hI : EntryBlind (ns, op.key) I) (seq : Nat) : Always I (applyLocalOp ns op seq) := by
  have hbump : Always I bumpRevision := Always.modify hI.bump
  have hrest : Always I (do
      modify fun s => s.refreshSecIndexFor ns op.key
      bumpRevision : Mem PUnit) := Always.bind (hI.refresh op.key) fun _ => hbump
  refine Always.bind always_getPolicy fun policy => Always.ite ?_ (Always.ite ?_ ?_)
  · refine Always.bind (Always.modify fun s => hI.maps s _ _ (fun _ _ => rfl) fun x hx => by simp [hx.symm]) fun _ => ?_
    cases policy with
    | lww => exact Always.bind (hI.setEntry _) fun _ => hrest
    | crdtRegister => exact Always.bind (hI.pushVersion _) fun _ => hrest
  · exact Always.bind hI.applyDel fun _ => hbump
  · exact Always.bind Always.throw fun _ => hbump

theorem applyRecordOp (hI : EntryBlind (ns, op.key) I) (seq : Nat) : Always I (applyRecordOp ns op seq) := by
  refine Always.bind always_getPolicy fun policy => Always.ite ?_ (Always.ite hI.applyDel Always.throw)
  cases policy with
  | lww =>
    refine Always.get_bind fun s => Always.ite ?_ (hI.refresh op.key)
    exact Always.bind (hI.setEntry _) fun _ => hI.refresh op.key
  | crdtRegister => exact Always.bind (hI.pushVersion _) fun _ => hI.refresh op.key

end EntryBlind

theorem always_applyRecord [Crates] (hI : ∀ key, EntryBlind (ns, key) I)
    (hmeta : ∀ key, key = schemaKey ns ∨ key = indexKey ns → ∀ value, Always I (setOrClear key value)) (r : Record)
    (seq : Nat) : Always I (applyRecord ns r seq) := by
  refine Always.ite ((hI _).applyRecordOp seq) (Always.ite ?_ (Always.ite ?_ (Always.ite ?_ Always.throw)))
  · exact Always.forM fun op => (hI op.key).applyRecordOp seq
  · exact hmeta _ (.inl rfl) _
  · exact Always.bind (hmeta _ (.inr rfl) _) fun _ => Always.modify fun s => (hI []).core s _ (core_rebuildSecIndexNs ..)

/-! ### Writing one key -/

def SameBut (ek : EntryKey) (s₀ s : Store) : Prop := ∀ n k, (n, k) ≠ ek → (s.view n).slot k = (s₀.view n).slot k

variable {s₀ : Store}

theorem SameBut.refl (ek : EntryKey) (s₀ : Store) : SameBut ek s₀ s₀ := fun _ _ _ => rfl

theorem logBlind_sameBut : LogBlind (SameBut ek s₀) := ⟨fun _ _ _ h => h, fun _ _ _ h => h, fun _ h => h⟩

theorem entryBlind_sameBut : EntryBlind ek (SameBut ek s₀) where
  maps s index tombs hindex htombs h n k hne := by
    rw [← h n k hne]
    simp [Store.view, hindex _ hne, htombs _ hne]
  core s s' hcore h n k hne := by
    rw [Store.view_of_core hcore]
    exact h n k hne
  bump _ h := h

section
variable [Crates]

theorem always_sameBut_put (ns key value : Bytes) (hlc : UInt64) (replica author : Bytes32) (expiresAt : UInt64) :
    Always (InStore (SameBut (ns, key) s₀)) (put ns key value hlc replica author expiresAt) :=
  always_logged logBlind_sameBut fun seq =>
    EntryBlind.applyLocalOp (putRecord key value hlc replica author expiresAt).toOp entryBlind_sameBut seq

theorem always_sameBut_delete (ns key : Bytes) (hlc : UInt64) (replica author : Bytes32) :
    Always (InStore (SameBut (ns, key) s₀)) (delete ns key hlc replica author) :=
  Always.bind always_requirePolicy fun _ => always_logged logBlind_sameBut fun seq =>
    EntryBlind.applyLocalOp (delRecord key hlc replica author).toOp entryBlind_sameBut seq

end

/-! ### What is written -/

section
variable [Crates]

theorem append_toBytes (log : Log) (r : Record) (prev : Bytes32) :
    ∃ effects log', log.append (r.toBytes prev) = (effects, .ok log') := by
  have hslice : slice (r.toBytes prev) 9 41 = .ok prev.val := by
    have h := (r.toBytes_at prev).right.right.right.left
    exact slice_of_at h prev.len
  simp only [Log.append, Log.writeRecord, hslice, ok_bind, tryInto32_val, pure_eq_ok]
  exact ⟨_, _, rfl⟩

theorem logged_apply {w : World} {ns : Bytes} {log : Log} {act : Nat → Mem Unit} {Q : Nat → Store → Prop} (r : Record)
    (hlog : w.store.logs[ns]? = some log)
    (hact : ∀ seq log', ∃ s, act seq (w.store.setLog ns log') = .ok () s ∧ Q seq s) :
    ∃ seq s disk points, logged ns r act w = .ok seq ⟨s, disk, points⟩ ∧ Q seq s := by
  obtain ⟨effects, log', happend⟩ := append_toBytes log r log.head
  obtain ⟨points, heff⟩ := segEffects_spec ns effects w
  obtain ⟨s, hs, hQ⟩ := hact log'.seq log'
  refine ⟨log'.seq, s, w.disk.modifyDir ns (applyAll · effects), points, ?_, hQ⟩
  simp only [logged, getLog, Exec.bind_apply, Exec.get_apply, hlog, Exec.pure_apply, appendLog, happend, heff, liftRes_ok,
    BunnyMesh.setLog, Exec.modify_apply, mem, hs]

theorem slot_logged {w : World} {ns : Bytes} {log : Log} {p : ConflictPolicy} (r : Record) (op : Op)
    (hlog : w.store.logs[ns]? = some log) (hpol : w.store.policies[ns]? = some p) (hshaped : (w.store.view ns).Shaped p)
    (ht : isOpTag op.tag) : ∃ seq, ((finalState (logged ns r (applyLocalOp ns op) w)).store.view ns).slot op.key =
      ((w.store.view ns).slot op.key).localOp p op seq := by
  have hact : ∀ seq log', ∃ s, applyLocalOp ns op seq (w.store.setLog ns log') = .ok () s ∧
      (s.view ns).slot op.key = ((w.store.view ns).slot op.key).localOp p op seq := by
    intro seq log'
    obtain ⟨s, hs, hb⟩ := applyLocalOp_spec (s := w.store.setLog ns log') hpol hshaped ht seq
    refine ⟨s, hs, ?_⟩
    rw [hb.view_eq]
    exact Function.update_self ..
  obtain ⟨seq, s, disk, points, hrun, hslot⟩ := logged_apply r hlog hact
  exact ⟨seq, by rw [hrun]; exact hslot⟩

section
variable {w : World} {ns : Bytes} {log : Log} (key : Bytes) (hlc : UInt64) (replica author : Bytes32)
  (hlog : w.store.logs[ns]? = some log) (hpol : w.store.policies[ns]? = some .lww)
  (hshaped : (w.store.view ns).Shaped .lww)
include hlog hpol hshaped

theorem slot_put (value : Bytes) (expiresAt : UInt64) : ∃ v, v.value = value ∧
    ((finalState (put ns key value hlc replica author expiresAt w)).store.view ns).slot key = ⟨some (.lww v), none⟩ := by
  have htag : isPutTag (putRecord key value hlc replica author expiresAt).tag := by
    rcases putRecord_tag key value hlc replica author expiresAt with ⟨h, _⟩ | ⟨h, _⟩ <;> rw [h] <;> rfl
  have hop : isOpTag (putRecord key value hlc replica author expiresAt).toOp.tag := by
    rcases putRecord_tag key value hlc replica author expiresAt with ⟨h, _⟩ | ⟨h, _⟩ <;>
      rw [show (putRecord key value hlc replica author expiresAt).toOp.tag = _ from h] <;> rfl
  obtain ⟨seq, hslot⟩ := slot_logged (putRecord key value hlc replica author expiresAt) _ hlog hpol hshaped hop
  refine ⟨(putRecord key value hlc replica author expiresAt).toOp.version seq, rfl, hslot.trans ?_⟩
  exact if_pos htag

theorem slot_delete : ((finalState (delete ns key hlc replica author w)).store.view ns).slot key = ⟨none, some hlc⟩ := by
  have hreq : requirePolicy ns w = .ok () w := by
    simp only [requirePolicy, Exec.bind_apply, Exec.get_apply, hpol]
    rfl
  obtain ⟨seq, hslot⟩ := slot_logged (delRecord key hlc replica author) (delRecord key hlc replica author).toOp
    hlog hpol hshaped rfl
  rw [delete, bind_ok hreq]
  exact hslot

end

end

/-! ### The head of a log -/

def World.headSeq (w : World) (ns : Bytes) : Nat := ((w.store.head ns).map (·.1)).getD 0

def HasLogs (logs : BMap Bytes Log) (s : Store) : Prop := s.logs = logs

section
variable {logs : BMap Bytes Log}

theorem entryBlind_hasLogs : EntryBlind ek (HasLogs logs) where
  maps _ _ _ _ _ h := h
  core _ _ hcore h := (congrArg Store.logs hcore).trans h
  bump _ h := h

end

section
variable [Crates] {ns : Bytes}

theorem seq_append {log log' : Log} {bytes : Bytes} {effects : List SegEffect} (h : log.append bytes = (effects, .ok log')) :
    log'.seq = log.seq + 1 := by
  have hroll : (log.roll bytes.length).1.seq = log.seq := by
    unfold Log.roll
    split <;> rfl
  have hres : ((log.roll bytes.length).1.writeRecord bytes).2 = .ok log' := congrArg Prod.snd h
  simp only [Log.writeRecord, bind_eq_ok, pure_eq_ok, Except.ok.injEq] at hres
  obtain ⟨_, _, _, _, rfl⟩ := hres
  exact congrArg (· + 1) hroll

omit [Crates] in
theorem headSeq_of_logs {w w' : World} (h : w'.store.logs = w.store.logs) (ns : Bytes) : w'.headSeq ns = w.headSeq ns := by
  rw [World.headSeq, World.headSeq, Store.head, Store.head, h]

theorem headSeq_appendLog (log : Log) (bytes : Bytes) :
    Triple (fun w => w.store.logs[ns]? = some log) (appendLog ns log bytes) fun _ w => w.headSeq ns = log.seq + 1 := by
  intro w hlog seq w' hrun
  cases happend : log.append bytes with
  | mk effects res =>
    obtain ⟨points, heff⟩ := segEffects_spec ns effects w
    simp only [appendLog, happend, Exec.bind_apply, heff] at hrun
    cases res with
    | error e => cases hrun
    | ok log' =>
      cases hrun
      have hget : (w.store.setLog ns log').logs[ns]? = some log' := by simp [Store.setLog]
      rw [World.headSeq, Store.head]
      rw [hget]
      exact seq_append happend

theorem headSeq_logged {r : Record} {act : Nat → Mem Unit} (hact : ∀ logs seq, Always (HasLogs logs) (act seq)) (n : Nat) :
    Triple (fun w : World => w.headSeq ns = n) (logged ns r act) fun _ w => w.headSeq ns = n + 1 := by
  refine Triple.bind (Q := fun log w => log.seq = n ∧ w.store.logs[ns]? = some log) ?_ fun log => ?_
  · refine Triple.get_bind fun w hw => ?_
    cases hlog : w.store.logs[ns]? with
    | none => exact Triple.throw
    | some log =>
      refine Triple.pure fun s hs => ⟨?_, hs ▸ hlog⟩
      rw [← hw, World.headSeq, Store.head, hlog]
      rfl
  · refine Triple.bind (Q := fun _ w => w.headSeq ns = n + 1) (fun w hw => ?_) fun seq => ?_
    · have happend := headSeq_appendLog log (r.toBytes log.head) w hw.2
      rwa [hw.1] at happend
    · refine Triple.bind (Q := fun _ w => w.headSeq ns = n + 1) (fun w hw a w' hrun => ?_) fun _ => Triple.pure fun _ h => h
      have hlogs := always_mem (hact w.store.logs seq) w rfl
      rw [hrun] at hlogs
      exact (headSeq_of_logs hlogs ns).trans hw

theorem headSeq_applyNew (r : Record) (n : Nat) :
    Triple (fun w : World => w.headSeq ns = n) (applyNew ns r) fun _ w => w.headSeq ns = n + 1 := by
  refine headSeq_logged (fun logs seq => ?_) n
  refine Always.bind (always_applyRecord (fun _ => entryBlind_hasLogs) (fun _ _ _ => ?_) r seq) fun _ => ?_ <;>
    exact Always.modify fun _ h => h

theorem headSeq_applySyncedLoop (rs : List Record) (seen : List (UInt8 × UInt64 × Bytes32)) (applied n : Nat) :
    Triple (fun w : World => w.headSeq ns = n) (applySyncedLoop ns rs seen applied)
      fun total w => applied ≤ total ∧ w.headSeq ns = n + (total - applied) := by
  induction rs generalizing seen applied n with
  | nil => exact Triple.pure fun w hw => ⟨le_rfl, by rw [hw]; omega⟩
  | cons r rs ih =>
    refine Triple.ite (fun _ => ih _ _ _) fun _ => Triple.bind (headSeq_applyNew r n) fun _ => ?_
    refine (ih _ (applied + 1) (n + 1)).conseq (fun _ h => h) fun total w h => ?_
    omega

theorem headSeq_applySyncedBatch {rs : List Record} {w w' : World} {applied : Nat}
    (h : applySyncedBatch ns rs w = .ok applied w') : w'.headSeq ns = w.headSeq ns + applied := by
  have hsame : ∀ {α : Type} {x : M α}, (∀ I, Always (InStore I) x) →
      Keeps (fun v : World => v.headSeq ns = w.headSeq ns) x := by
    intro α x hx v hv a v' hrun
    have hstore := hx (fun s => s = v.store) v rfl
    rw [hrun] at hstore
    exact (headSeq_of_logs (congrArg Store.logs hstore) ns).trans hv
  have hbatch : Triple (fun v : World => v.headSeq ns = w.headSeq ns) (applySyncedBatch ns rs)
      fun total v => 0 ≤ total ∧ v.headSeq ns = w.headSeq ns + (total - 0) :=
    Triple.bind (hsame fun _ => always_requirePolicy) fun _ => Triple.bind (hsame fun _ => always_logVersions) fun seen =>
      headSeq_applySyncedLoop rs seen 0 _
  exact (hbatch w rfl applied w' h).2

end

end BunnyMesh
