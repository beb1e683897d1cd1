import BunnyMesh.Auth.Rotate
import BunnyMesh.Server.Writes

/-!
# What rotations leave

Wherever `rotate_root` is stopped, its directory is that of a node: with the old key pair and the old chain, with the old
key pair and the new chain, or with the new ones (`rotateRoot_spec`).  From this follows which keys are accepted after any
history of rotations (`drop_severs_iff`), and when a rotation can be run again (`rotation_rerunnable_iff`).
-/

namespace BunnyMesh

open Std Store ByteCodec
open Exec (Passes Always Total)

/-! ### Directories of a node -/

def DataDir.savedChain (d : DataDir) : List PublicKey :=
  ((d.store.savedMeta rootChainKey).map RootKeyring.parseChain).getD []

def DataDir.savedAdmin (d : DataDir) : Option Bytes := d.store.savedMeta adminCapKey

theorem dirEffect_apply (f : DataDir → DataDir) (r : Rotation) :
    dirEffect f r = .ok () ⟨f r.dir, r.points ++ [f r.dir], r.snapshots⟩ := rfl

section
variable [RotateCrates]

/-- The persisted admin capability is none that is signed anew, or one that can be read. -/
def adminReadable (v : Option Bytes) : Bool :=
  (v.bind fun header => headerBody (fromUtf8Lossy header)).all fun body => (readAdminCap body).isOk

/-- A directory of a node with the key pair of `seed`. -/
structure DataDir.Good (d : DataDir) (seed : Bytes32) : Prop where
  loads : loadMetaBin d.metaBin = .ok seed
  stands : ∃ base, d.store.Stands base ∧ ∀ n, (base.view n).Sized

def RotateCall.Fits (c : RotateCall) (d : DataDir) : Prop :=
  ∀ s ∈ (Exec.finalState (c.run d)).snapshots, s.snapOf.Fits

def RotateCall.chain (c : RotateCall) (seed : Bytes32) (d : DataDir) : List PublicKey :=
  retire c.dropPredecessor (AuthCrates.verifyingKey seed) d.savedChain

omit [RotateCrates] in
theorem reserved_rootChainKey : Reserved rootChainKey := reserved_of_second (by decide +kernel)

omit [RotateCrates] in
theorem reserved_adminCapKey : Reserved adminCapKey := reserved_of_second (by decide +kernel)

theorem Disk.Stands.savedMeta {base : Store} {d : Disk} (h : d.Stands base) (k : Bytes) :
    d.savedMeta k = base.metaMap[k]? := by
  obtain ⟨pol, g, hd, rfl⟩ := h
  obtain ⟨info, hload, _⟩ := hd.loadSnapFile false
  rw [Disk.savedMeta, hload]

/-! ### Passing directories -/

omit [RotateCrates] in
@[simp] theorem DataDir.withStore_self (d : DataDir) : d.withStore d.store = d := rfl

/-- Between `r` and `r'` only directories in `G` are passed, and `r'` ends in one. -/
structure Rotation.Leads (G : DataDir → Prop) (r r' : Rotation) : Prop where
  dir : G r'.dir
  points : ∃ points, r'.points = r.points ++ points ∧ ∀ p ∈ points, G p

variable {G : DataDir → Prop} {r : Rotation}

section
omit [RotateCrates]

theorem Rotation.Leads.refl (h : G r.dir) : r.Leads G r := ⟨h, [], by simp, nofun⟩

theorem Rotation.Leads.trans {r' r'' : Rotation} (h : r.Leads G r') (h' : r'.Leads G r'') :
    r.Leads G r'' := by
  obtain ⟨points, hpoints, hall⟩ := h.points
  obtain ⟨points', hpoints', hall'⟩ := h'.points
  refine ⟨h'.dir, points ++ points', by rw [hpoints', hpoints, List.append_assoc], fun p hp => ?_⟩
  exact (List.mem_append.1 hp).elim (hall p) (hall' p)

theorem Rotation.Leads.mono {G' : DataDir → Prop} {r' : Rotation} (h : r.Leads G r') (hG : ∀ p, G p → G' p) :
    r.Leads G' r' := by
  obtain ⟨points, hpoints, hall⟩ := h.points
  exact ⟨hG _ h.dir, points, hpoints, fun p hp => hG p (hall p hp)⟩

end

/-! ### The store of a data directory -/

/-- The store `s` is at work on the data directory. -/
structure DataDir.Serves (d : DataDir) (s : Store) : Prop where
  sound : ∃ g, Sound (⟨s, d.store, []⟩, g)
  metaAt : ∀ k, Reserved k → s.metaGet k = d.store.savedMeta k

variable {s : Store}

omit [RotateCrates] in
theorem DataDir.savedChain_eq {p : DataDir} (h : p.store.savedMeta = s.metaGet) :
    p.savedChain = s.rootChain := by
  rw [savedChain, h]
  rfl

variable {d : DataDir}

theorem DataDir.Serves.rootChain (h : d.Serves s) : s.rootChain = d.savedChain := by
  rw [Store.rootChain, h.metaAt _ reserved_rootChainKey, savedChain]

omit [RotateCrates] in
theorem metaGet_metaSet (s : Store) (key value k : Bytes) :
    (s.metaSet key value).metaGet k = if key = k then some value else s.metaGet k := by
  simp [Store.metaGet, Store.metaSet, OrdMap.getElem?_insert]

omit [RotateCrates] in
theorem rootChain_metaSet_admin (s : Store) (value : Bytes) : (s.metaSet adminCapKey value).rootChain = s.rootChain := by
  rw [Store.rootChain, metaGet_metaSet, if_neg (by decide +kernel), Store.rootChain]

variable {seed : Bytes32}

theorem openStore_spec (h : r.dir.Good seed) (durable : Bool) (now : UInt64)
    (wrap : Fault → RotateError) : ∃ s r', openStore durable now wrap r = .ok s r' ∧ r.Leads (· = r.dir) r' ∧
      r'.snapshots = r.snapshots ∧ r.dir.Serves s := by
  obtain ⟨base, hstands, hsized⟩ := h.stands
  obtain ⟨w, g, hopen, hdisk, hpoints, hsound, _⟩ := hstands.opens hsized (Store.init durable) [] durable now
  refine ⟨w.store, r.through w, ?_, ⟨?_, _, rfl, fun p hp => ?_⟩, rfl, ⟨g, ?_⟩, fun k hk => metaAt_of_open hk hopen⟩
  · rw [openStore, runStore, hopen]
  · rw [Rotation.through, hdisk, DataDir.withStore_self]
  · obtain ⟨d, hd, rfl⟩ := List.mem_map.1 hp
    rw [(hpoints d hd).resolve_left (by simp), DataDir.withStore_self]
  · exact ⟨hsound.running.congr hdisk.symm rfl rfl fun _ => rfl, hsound.sized, hsound.baseSized⟩

omit [RotateCrates] in
theorem always_snapshots_runStore (t : Store) (x : M Unit) (s : Store) (wrap : Fault → RotateError) :
    Always (fun r => t ∈ r.snapshots) (runStore x s wrap) := by
  intro r hr
  unfold runStore
  cases x ⟨s, r.dir.store, []⟩ with
  | ok a w => exact hr
  | error e w => exact hr

omit [RotateCrates] in
theorem fits_of_checkpointStore {α : Type} {wrap : Fault → RotateError} {f : Store → RotateM α}
    (hf : ∀ a, Always (fun r => s ∈ r.snapshots) (f a))
    (hfits : ∀ t ∈ (Exec.finalState ((checkpointStore s wrap >>= f) r)).snapshots, t.snapOf.Fits) : s.snapOf.Fits := by
  have hrest : Always (fun r => s ∈ r.snapshots) (runStore BunnyMesh.checkpoint s wrap >>= f) :=
    Always.bind (always_snapshots_runStore s _ _ _) hf
  exact hfits s (hrest { r with snapshots := r.snapshots ++ [s] } (by simp))

/-- A checkpoint of a changed metadata map passes directories with the old snapshot, and ends in one with the new one. -/
theorem checkpointStore_spec (h : r.dir.Good seed) (hs : r.dir.Serves s)
    {key : Bytes} (hkey : Reserved key) (value : Bytes) (hfits : (s.metaSet key value).snapOf.Fits)
    (wrap : Fault → RotateError) : ∃ s' r', checkpointStore (s.metaSet key value) wrap r = .ok s' r' ∧
      r.Leads (fun p => p.Good seed ∧ (p.store.savedMeta = r.dir.store.savedMeta ∨
        p.store.savedMeta = (s.metaSet key value).metaGet)) r' ∧
      r'.dir.store.savedMeta = (s.metaSet key value).metaGet ∧ r'.dir.metaTmp = r.dir.metaTmp ∧
      r'.snapshots = r.snapshots ++ [s.metaSet key value] := by
  obtain ⟨g, hsound⟩ := hs.sound
  obtain ⟨hset, _⟩ := hsound.metaSet (fun ns => ⟨hkey.schema ns, hkey.index ns⟩) value
  have hold : r.dir.store.Stands g.base := ⟨_, g, hsound.running.disk, rfl⟩
  have hgood : ∀ {d : Disk} {base : Store}, d.Stands base → (∀ n, (base.view n).Sized) → (r.dir.withStore d).Good seed :=
    fun hd hsized => ⟨h.loads, _, hd, hsized⟩
  obtain ⟨disk, points, hcheck, hrunning⟩ := hset.running.toAttached.checkpoint_spec hfits
  have hnew : disk.Stands (s.metaSet key value) := ⟨_, _, hrunning.disk, rfl⟩
  have hsaved : disk.savedMeta = (s.metaSet key value).metaGet := funext hnew.savedMeta
  obtain ⟨passed, hpassed, hstands⟩ := passes_checkpoint hset.running hfits
  rw [hcheck, Exec.finalState_ok, List.nil_append] at hpassed
  refine ⟨s.metaSet key value, ⟨r.dir.withStore disk, r.points ++ points.map r.dir.withStore,
    r.snapshots ++ [s.metaSet key value]⟩, ?_, ⟨⟨hgood hnew hset.sized, .inr hsaved⟩, _, rfl, fun p hp => ?_⟩,
    hsaved, rfl, rfl⟩
  · simp [checkpointStore, runStore, hcheck, Rotation.through]
  · obtain ⟨d, hd, rfl⟩ := List.mem_map.1 hp
    rcases hstands d (hpassed ▸ hd) with hbase | hbase
    · refine ⟨hgood hbase hset.baseSized, .inl (funext fun k => ?_)⟩
      exact (hbase.savedMeta k).trans (hold.savedMeta k).symm
    · exact ⟨hgood hbase hset.sized, .inr (funext hbase.savedMeta)⟩

/-! ### `meta.bin` -/

omit [RotateCrates] in
theorem loadMetaBin_metaBytes [AuthCrates] (seed : Bytes32) : loadMetaBin (some (metaBytes seed)) = .ok seed := by
  have hmagic : metaMagic.length = 8 := by decide +kernel
  have hlen : (metaBytes seed).length = 8 + 32 + 32 := by
    rw [metaBytes, List.length_append, List.length_append, hmagic, (AuthCrates.verifyingKey seed).len, seed.len]
  have htake : (metaBytes seed).take 8 = metaMagic := by
    rw [metaBytes, List.append_assoc, ← hmagic, List.take_left]
  have hdrop : (metaBytes seed).drop (8 + 32) = seed.val := by
    have hfront : (metaMagic ++ (AuthCrates.verifyingKey seed).val).length = 8 + 32 := by
      rw [List.length_append, hmagic, (AuthCrates.verifyingKey seed).len]
    rw [metaBytes, ← hfront, List.drop_left]
  rw [loadMetaBin, dif_pos ⟨hlen, htake⟩]
  congr 1
  cases seed
  simp [hdrop]

omit [RotateCrates] in
theorem writeTmp_spec (d : DataDir) (written rest : Bytes) (points : List DataDir) (snapshots : List Store) :
    ∃ passed, writeTmp written rest ⟨d.withTmp (some written), points, snapshots⟩ =
        .ok () ⟨d.withTmp (some (written ++ rest)), points ++ passed, snapshots⟩ ∧
      ∀ p ∈ passed, ∃ tmp, p = d.withTmp (some tmp) := by
  induction rest generalizing written points with
  | nil => exact ⟨[], by rw [List.append_nil, List.append_nil]; rfl, nofun⟩
  | cons b rest ih =>
    obtain ⟨passed, hrun, hall⟩ := ih (written ++ [b]) (points ++ [d.withTmp (some (written ++ [b]))])
    refine ⟨d.withTmp (some (written ++ [b])) :: passed, ?_, fun p hp => ?_⟩
    · rw [List.append_assoc, List.append_assoc] at hrun
      exact hrun
    · rcases List.mem_cons.1 hp with rfl | hp
      · exact ⟨_, rfl⟩
      · exact hall p hp

/-- Where there is no temporary file, `meta.bin` is replaced; on the way it is the old one, with a temporary file beside. -/
theorem writeMetaBin_spec (htmp : r.dir.metaTmp = none) (seed : Bytes32) :
    ∃ r', writeMetaBin seed r = .ok () r' ∧ r'.dir = { r.dir with metaBin := some (metaBytes seed) } ∧
      r'.snapshots = r.snapshots ∧ r.Leads (fun p => (∃ tmp, p = r.dir.withTmp (some tmp)) ∨ p = r'.dir) r' := by
  obtain ⟨passed, hrun, hall⟩ :=
    writeTmp_spec r.dir [] (metaBytes seed) (r.points ++ [r.dir.withTmp (some [])]) r.snapshots
  have hfree : r.dir.metaTmp.isSome = false := by rw [htmp]; rfl
  have hlast : (⟨some (metaBytes seed), none, r.dir.store⟩ : DataDir) = { r.dir with metaBin := some (metaBytes seed) } := by
    rw [← htmp]
  refine ⟨⟨⟨some (metaBytes seed), none, r.dir.store⟩, r.points ++ [r.dir.withTmp (some [])] ++ passed ++
    [⟨some (metaBytes seed), none, r.dir.store⟩], r.snapshots⟩, ?_, hlast, rfl, .inr rfl,
    r.dir.withTmp (some []) :: passed ++ [⟨some (metaBytes seed), none, r.dir.store⟩], by simp, fun p hp => ?_⟩
  · simp only [writeMetaBin, Exec.bind_apply, Exec.get_apply, hfree, Bool.false_eq_true, if_false,
      dirEffect_apply, hrun, List.nil_append]
    rfl
  · rcases List.mem_append.1 hp with hp | hp
    · rcases List.mem_cons.1 hp with rfl | hp
      · exact .inl ⟨[], rfl⟩
      · exact .inl (hall p hp)
    · exact .inr (List.mem_singleton.1 hp)

/-! ### Signing the admin capability anew -/

/-- Signing the admin capability anew ends well where it can be read, and keeps the key pair and the chain. -/
theorem reissueAdminCap_spec (h : r.dir.Good seed) (newSeed : Bytes32) (now : UInt64)
    (hfits : ∀ s ∈ (Exec.finalState (reissueAdminCap newSeed now r)).snapshots, s.snapOf.Fits) :
    r.Leads (fun p => p.Good seed ∧ p.savedChain = r.dir.savedChain) (Exec.finalState (reissueAdminCap newSeed now r)) ∧
      ((∃ a r', reissueAdminCap newSeed now r = .ok a r') ↔ adminReadable r.dir.savedAdmin = true) := by
  obtain ⟨s, r1, hopen, hleads, hsnaps, hs⟩ := openStore_spec h false now .reopenStore
  have hdir : r1.dir = r.dir := hleads.dir
  have hopened : r.Leads (fun p => p.Good seed ∧ p.savedChain = r.dir.savedChain) r1 :=
    hleads.mono fun p hp => by rw [hp]; exact ⟨h, rfl⟩
  have hadmin : s.metaGet adminCapKey = r.dir.savedAdmin := hs.metaAt _ reserved_adminCapKey
  unfold reissueAdminCap at hfits ⊢
  rw [Exec.bind_ok hopen, hadmin] at hfits ⊢
  cases hv : r.dir.savedAdmin with
  | none => exact ⟨hopened, by simp [adminReadable]⟩
  | some v =>
    rw [hv] at hfits
    cases hbody : headerBody (fromUtf8Lossy v) with
    | none =>
      simp only [hbody] at hfits ⊢
      exact ⟨hopened, by simp [adminReadable, hbody]⟩
    | some body =>
      simp only [hbody] at hfits ⊢
      cases hcap : readAdminCap body with
      | error e =>
        refine ⟨hopened, ?_⟩
        simp [adminReadable, hbody, hcap, liftRotate, Except.isOk, Except.toBool]
      | ok old =>
        rw [hcap] at hfits
        have hfits' := fits_of_checkpointStore (fun _ => Always.pure) hfits
        obtain ⟨s', r2, hcheck, hpassed, hsaved, _⟩ := checkpointStore_spec (hdir ▸ h) (hdir ▸ hs) reserved_adminCapKey
          (reissued old newSeed).toHeader hfits' .checkpointAdmin
        have hrun : (checkpointStore (s.metaSet adminCapKey (reissued old newSeed).toHeader) .checkpointAdmin >>= fun _ =>
            (pure (some (reissued old newSeed).toHeader, none) : RotateM (Option Bytes × Option Bytes))) r1 =
              .ok (some (reissued old newSeed).toHeader, none) r2 := Exec.bind_ok hcheck
        rw [liftRotate, Exec.bind_ok (Exec.pure_apply old r1), hrun, Exec.finalState_ok]
        refine ⟨hopened.trans (hpassed.mono fun p hp => ⟨hp.1, ?_⟩), by
          simp [adminReadable, hbody, hcap, Except.isOk, Except.toBool]⟩
        rcases hp.2 with hsame | hset
        · rw [DataDir.savedChain, hsame, hdir, DataDir.savedChain]
        · rw [DataDir.savedChain_eq hset, rootChain_metaSet_admin, hs.rootChain]

/-! ### A whole rotation -/

/-- Behind the checkpoint of the chain: the rotation ends well where there is no temporary file and the admin capability can
be read if it is to be signed; the chain stays. -/
theorem installRoot_spec (h : r.dir.Good seed) (c : RotateCall) (oldRoot : PublicKey)
    (hfits : ∀ s ∈ (Exec.finalState (installRoot c oldRoot r)).snapshots, s.snapOf.Fits) :
    r.Leads (fun p => (p.Good seed ∨ p.Good c.newSeed) ∧ p.savedChain = r.dir.savedChain)
        (Exec.finalState (installRoot c oldRoot r)) ∧
      ((∃ out r', installRoot c oldRoot r = .ok out r') ↔
        r.dir.metaTmp = none ∧ (c.reissueAdmin = true → adminReadable r.dir.savedAdmin = true)) ∧
      ∀ out r', installRoot c oldRoot r = .ok out r' → r'.dir.Good c.newSeed ∧ r'.dir.savedChain = r.dir.savedChain ∧
        out.newRoot = AuthCrates.verifyingKey c.newSeed := by
  cases htmp : r.dir.metaTmp with
  | some tmp =>
    have hrun : installRoot c oldRoot r = .error .createMeta r := by
      have hwrite : writeMetaBin c.newSeed r = .error .createMeta r := by
        simp [writeMetaBin, htmp]
      exact Exec.bind_error hwrite
    rw [hrun]
    exact ⟨.refl ⟨.inl h, rfl⟩, by simp, nofun⟩
  | none =>
    obtain ⟨r1, hwrite, hdir, hsnaps, hleads⟩ := writeMetaBin_spec htmp c.newSeed
    have hgood : r1.dir.Good c.newSeed := by
      refine ⟨?_, by rw [hdir]; exact h.stands⟩
      rw [hdir]
      exact loadMetaBin_metaBytes c.newSeed
    have hchain : r1.dir.savedChain = r.dir.savedChain := by rw [hdir]; rfl
    have hadmin : r1.dir.savedAdmin = r.dir.savedAdmin := by rw [hdir]; rfl
    have hwritten : r.Leads (fun p => (p.Good seed ∨ p.Good c.newSeed) ∧ p.savedChain = r.dir.savedChain) r1 := by
      refine hleads.mono fun p hp => ?_
      rcases hp with ⟨tmp, rfl⟩ | rfl
      · exact ⟨.inl ⟨h.loads, h.stands⟩, rfl⟩
      · exact ⟨.inr hgood, hchain⟩
    unfold installRoot at hfits ⊢
    rw [Exec.bind_ok hwrite] at hfits ⊢
    by_cases hre : c.reissueAdmin = true
    · rw [if_pos hre] at hfits ⊢
      rw [Exec.finalState_bind_pure] at hfits ⊢
      obtain ⟨hpassed, hok⟩ := reissueAdminCap_spec hgood c.newSeed c.reopened hfits
      rw [hadmin] at hok
      refine ⟨hwritten.trans (hpassed.mono fun p hp => ⟨.inr hp.1, hp.2.trans hchain⟩), ?_, fun out r' hrun => ?_⟩
      · simp only [Exec.bind_pure_eq_ok, true_and, hre, true_implies]
        rw [← hok]
        exact ⟨fun ⟨_, r', a, ha, _⟩ => ⟨a, r', ha⟩, fun ⟨a, r', ha⟩ => ⟨_, r', a, ha, rfl⟩⟩
      · obtain ⟨a, ha, rfl⟩ := Exec.bind_pure_eq_ok.1 hrun
        have hlast := hpassed.dir
        rw [ha, Exec.finalState_ok] at hlast
        exact ⟨hlast.1, hlast.2.trans hchain, rfl⟩
    · rw [if_neg hre, Exec.bind_ok (Exec.pure_apply _ r1)]
      refine ⟨hwritten, ⟨fun _ => ⟨rfl, fun h => absurd h hre⟩, fun _ => ⟨_, _, rfl⟩⟩, fun out r' hrun => ?_⟩
      cases hrun
      exact ⟨hgood, hchain, rfl⟩

section
omit [RotateCrates]

theorem always_snapshots_dirEffect (t : Store) (f : DataDir → DataDir) :
    Always (fun r => t ∈ r.snapshots) (dirEffect f) := Always.modify fun _ h => h

theorem always_snapshots_writeTmp (t : Store) (written rest : Bytes) :
    Always (fun r => t ∈ r.snapshots) (writeTmp written rest) := by
  induction rest generalizing written with
  | nil => exact Always.pure
  | cons b rest ih => exact Always.bind (always_snapshots_dirEffect t _) fun _ => ih _

theorem always_snapshots_writeMetaBin [AuthCrates] (t : Store) (seed : Bytes32) :
    Always (fun r => t ∈ r.snapshots) (writeMetaBin seed) := by
  refine Always.get_bind fun r => Always.ite (Always.bind Always.throw fun _ => ?_) ?_
  all_goals
    refine Always.bind (always_snapshots_dirEffect t _) fun _ => Always.bind (always_snapshots_writeTmp t _ _) fun _ => ?_
    exact always_snapshots_dirEffect t _

end

theorem always_snapshots_installRoot (t : Store) (c : RotateCall) (oldRoot : PublicKey) :
    Always (fun r => t ∈ r.snapshots) (installRoot c oldRoot) := by
  have hreissue : Always (fun r => t ∈ r.snapshots) (reissueAdminCap c.newSeed c.reopened) := by
    refine Always.bind (always_snapshots_runStore t _ _ _) fun s => ?_
    cases s.metaGet adminCapKey with
    | none => exact Always.pure
    | some v =>
      dsimp only
      cases headerBody (fromUtf8Lossy v) with
      | none => exact Always.pure
      | some body =>
        refine Always.bind ?_ fun old => Always.bind (Always.bind ?_ fun _ => ?_) fun _ => Always.pure
        · cases readAdminCap body with
          | ok a => exact Always.pure
          | error e => exact Always.throw
        · exact Always.modify fun r h => List.mem_append_left _ h
        · exact always_snapshots_runStore t _ _ _
  refine Always.bind (always_snapshots_writeMetaBin t _) fun _ => Always.ite ?_ ?_
  · exact Always.bind hreissue fun _ => Always.pure
  · exact Always.bind Always.pure fun _ => Always.pure

/-- What a call can leave of the directory `d`: before the checkpoint all is as it was; behind it the chain is the new one,
with the old key pair or the new one. -/
def RotateCall.Between (c : RotateCall) (seed : Bytes32) (d p : DataDir) : Prop :=
  p.Good seed ∧ p.savedChain = d.savedChain ∨ (p.Good seed ∨ p.Good c.newSeed) ∧ p.savedChain = c.chain seed d

theorem RotateCall.Between.good {c : RotateCall} {p : DataDir} (h : c.Between seed d p) :
    ∃ seed', p.Good seed' := by
  rcases h with ⟨hgood, _⟩ | ⟨hgood | hgood, _⟩
  · exact ⟨_, hgood⟩
  · exact ⟨_, hgood⟩
  · exact ⟨_, hgood⟩

theorem rotateRoot_spec (h : d.Good seed) {c : RotateCall} (hfits : c.Fits d) :
    (∀ p ∈ c.leaves d, c.Between seed d p) ∧ c.Between seed d (Exec.finalState (c.run d)).dir ∧
      ((∃ out r', c.run d = .ok out r') ↔
        d.metaTmp = none ∧ (c.reissueAdmin = true → adminReadable d.savedAdmin = true)) ∧
      ∀ out r', c.run d = .ok out r' → r'.dir.Good c.newSeed ∧ r'.dir.savedChain = c.chain seed d ∧
        out.newRoot = AuthCrates.verifyingKey c.newSeed := by
  obtain ⟨s, r1, hopen, hleads, _, hs⟩ := openStore_spec (r := ⟨d, [], []⟩) h false c.opened .openStore
  have hdir : r1.dir = d := hleads.dir
  let chain : RootKeyring :=
    ⟨AuthCrates.verifyingKey c.newSeed, retire c.dropPredecessor (AuthCrates.verifyingKey seed) s.rootChain⟩
  have hchain : (s.metaSet rootChainKey chain.toChainBytes).rootChain = c.chain seed d := by
    rw [Store.rootChain, metaGet_metaSet, if_pos rfl, Option.map_some, Option.getD_some, RootKeyring.parseChain_toChainBytes,
      RotateCall.chain, ← hs.rootChain]
  have hadmin : (s.metaSet rootChainKey chain.toChainBytes).metaGet adminCapKey = d.savedAdmin := by
    rw [metaGet_metaSet, if_neg (by decide +kernel)]
    exact hs.metaAt _ reserved_adminCapKey
  have hrun : c.run d = (checkpointStore (s.metaSet rootChainKey chain.toChainBytes) .checkpoint >>= fun _ =>
      installRoot c (AuthCrates.verifyingKey seed)) r1 := by
    have hload : liftRotate (loadMetaBin d.metaBin) = (pure seed : RotateM Bytes32) := by rw [h.loads]; rfl
    unfold RotateCall.run rotateRoot
    rw [Exec.bind_ok (Exec.get_apply _), hload, Exec.bind_ok (Exec.pure_apply seed _), Exec.bind_ok hopen]
  have hfits' : (s.metaSet rootChainKey chain.toChainBytes).snapOf.Fits := by
    unfold RotateCall.Fits at hfits
    rw [hrun] at hfits
    exact fits_of_checkpointStore (fun _ => always_snapshots_installRoot _ _ _) hfits
  obtain ⟨s', r2, hcheck, hpassed, hsaved, htmp, _⟩ :=
    checkpointStore_spec (hdir ▸ h) (hdir ▸ hs) reserved_rootChainKey chain.toChainBytes hfits' .checkpoint
  rw [Exec.bind_ok hcheck] at hrun
  have hchain2 : r2.dir.savedChain = c.chain seed d := (DataDir.savedChain_eq hsaved).trans hchain
  have hadmin2 : r2.dir.savedAdmin = d.savedAdmin := by
    rw [DataDir.savedAdmin, hsaved, hadmin]
  obtain ⟨hinstalled, hok, hdone⟩ := installRoot_spec hpassed.dir.1 c (AuthCrates.verifyingKey seed) (by
    unfold RotateCall.Fits at hfits
    rwa [hrun] at hfits)
  rw [htmp, hdir, hadmin2] at hok
  rw [hchain2] at hinstalled hdone
  have hall : (⟨d, [], []⟩ : Rotation).Leads (c.Between seed d) (Exec.finalState (c.run d)) := by
    rw [hrun]
    refine (hleads.mono fun p hp => ?_).trans ((hpassed.mono fun p hp => ?_).trans (hinstalled.mono fun p hp => .inr hp))
    · rw [hp]
      exact .inl ⟨h, rfl⟩
    · rcases hp with ⟨hgood, hsame | hset⟩
      · refine .inl ⟨hgood, ?_⟩
        rw [DataDir.savedChain, hsame, hdir, DataDir.savedChain]
      · exact .inr ⟨.inl hgood, (DataDir.savedChain_eq hset).trans hchain⟩
  refine ⟨fun p hp => ?_, hall.dir, by rw [hrun]; exact hok, by rw [hrun]; exact hdone⟩
  obtain ⟨points, hpoints, hbetween⟩ := hall.points
  rw [RotateCall.leaves, hpoints, List.nil_append, List.mem_cons] at hp
  rcases hp with rfl | hp
  · exact .inl ⟨h, rfl⟩
  · exact hbetween p hp

/-! ### Keyrings -/

theorem DataDir.Good.keyring (h : d.Good seed) (durable : Bool) (now : UInt64) :
    d.keyring durable now = some ⟨AuthCrates.verifyingKey seed, d.savedChain⟩ := by
  obtain ⟨s, r1, hopen, _, _, hs⟩ := openStore_spec (r := ⟨d, [], []⟩) h durable now .openStore
  have hload : liftRotate (loadMetaBin d.metaBin) = (pure seed : RotateM Bytes32) := by rw [h.loads]; rfl
  unfold DataDir.keyring readKeyring
  rw [Exec.bind_ok (Exec.get_apply _), hload, Exec.bind_ok (Exec.pure_apply seed _), Exec.bind_ok hopen, hs.rootChain]
  rfl

omit [RotateCrates] in
theorem Capability.verify_mono [AuthCrates] {kr kr' : RootKeyring}
    (h : ∀ k, kr.acceptsIssuer k = true → kr'.acceptsIssuer k = true) {cap : Capability} {principal : PublicKey}
    {revocations : RevocationSet} {nowMs : Nat} (hv : cap.verify kr principal revocations nowMs = .ok ()) :
    cap.verify kr' principal revocations nowMs = .ok () := by
  have hsig : cap.checkSig kr' = cap.checkSig kr := by
    by_cases hk : kr.acceptsIssuer cap.issuer = true
    · rw [Capability.checkSig, Capability.checkSig, RootKeyring.keyForIssuer_eq, RootKeyring.keyForIssuer_eq, if_pos hk,
        if_pos (h _ hk)]
    · have hnone : cap.checkSig kr = .error .badIssuer := by
        rw [Capability.checkSig, RootKeyring.keyForIssuer_eq, if_neg hk]
      rw [Capability.verify, hnone] at hv
      cases hv
  rw [Capability.verify, hsig]
  exact hv

/-! ### Histories of rotations -/

/-- What a history of calls comes to: the directory, and the keys that have been active in it.  A call returns, or it is
stopped at any point. -/
inductive KeyHistory : DataDir → List PublicKey → Prop
  | start {d : DataDir} {seed : Bytes32} (good : d.Good seed) (fresh : d.savedChain = []) :
    KeyHistory d [AuthCrates.verifyingKey seed]
  | call {d p : DataDir} {past : List PublicKey} {c : RotateCall} {seed : Bytes32} (before : KeyHistory d past)
    (fits : c.Fits d) (left : p ∈ c.leaves d ∨ p = (Exec.finalState (c.run d)).dir)
    (loads : loadMetaBin p.metaBin = .ok seed) :
    KeyHistory p (past ++ [AuthCrates.verifyingKey seed])

omit [RotateCrates] in
theorem mem_retire {dropPredecessor : Bool} {oldRoot k : PublicKey} {retired : List PublicKey}
    (h : k ∈ retire dropPredecessor oldRoot retired) : k ∈ retired ∨ k = oldRoot := by
  unfold retire at h
  split at h
  · simpa using h
  · exact .inl h

theorem KeyHistory.good {past : List PublicKey} (h : KeyHistory d past) :
    ∃ seed, d.Good seed ∧ AuthCrates.verifyingKey seed ∈ past ∧ ∀ k ∈ d.savedChain, k ∈ past := by
  induction h with
  | start good fresh => exact ⟨_, good, by simp, by simp [fresh]⟩
  | @call d p past c seed' _ fits left loads ih =>
    obtain ⟨seed, hgood, hactive, hchain⟩ := ih
    obtain ⟨hleaves, hfinal, _⟩ := rotateRoot_spec hgood fits
    have hbetween : c.Between seed d p := left.elim (hleaves p) fun hp => hp ▸ hfinal
    obtain ⟨_, hp⟩ := hbetween.good
    refine ⟨seed', ⟨loads, hp.stands⟩, by simp, fun k hk => List.mem_append_left _ ?_⟩
    rcases hbetween with ⟨_, hsame⟩ | ⟨_, hnew⟩
    · exact hchain k (hsame ▸ hk)
    · rw [hnew] at hk
      rcases mem_retire hk with hk | rfl
      · exact hchain k hk
      · exact hactive

def freshDir (seed : Bytes32) : DataDir := ⟨some (metaBytes seed), none, Disk.empty⟩

theorem good_freshDir (seed : Bytes32) : (freshDir seed).Good seed :=
  ⟨loadMetaBin_metaBytes seed, _, ⟨∅, .empty, diskRep_empty, rfl⟩, fun n => by
    exact NsState.sized_empty⟩

theorem keyHistory_freshDir (seed : Bytes32) : KeyHistory (freshDir seed) [AuthCrates.verifyingKey seed] :=
  .start (good_freshDir seed) rfl

/-- A drop severs the keys of the past if and only if the chain is empty when it starts: it does not add the old key to the
chain, but it clears nothing. -/
theorem drop_severs_iff {d : DataDir} {past : List PublicKey} (h : KeyHistory d past) {c : RotateCall} (hfits : c.Fits d)
    (hdrop : c.dropPredecessor = true) {out : RotateOutcome} {r : Rotation} (hrun : c.run d = .ok out r)
    (durable : Bool) (now : UInt64) :
    (∃ kr, r.dir.keyring durable now = some kr ∧ kr.acceptsIssuer out.newRoot = true ∧
        ∀ k ∈ past, kr.acceptsIssuer k = false) ↔
      d.savedChain = [] ∧ AuthCrates.verifyingKey c.newSeed ∉ past := by
  obtain ⟨seed, hgood, _, hchain⟩ := h.good
  obtain ⟨_, _, _, hdone⟩ := rotateRoot_spec hgood hfits
  obtain ⟨hnew, hsaved, hroot⟩ := hdone out r hrun
  have hkept : c.chain seed d = d.savedChain := by
    rw [RotateCall.chain, retire, hdrop]
    rfl
  rw [hnew.keyring, hsaved, hkept, hroot]
  have haccepts : ∀ k, RootKeyring.acceptsIssuer ⟨AuthCrates.verifyingKey c.newSeed, d.savedChain⟩ k = false ↔
      k ≠ AuthCrates.verifyingKey c.newSeed ∧ k ∉ d.savedChain := by
    intro k
    rw [← Bool.not_eq_true, RootKeyring.acceptsIssuer_iff]
    exact not_or
  constructor
  · rintro ⟨_, ⟨⟩, _, hsevered⟩
    refine ⟨List.eq_nil_iff_forall_not_mem.2 fun k hk => ?_, fun hmem => ?_⟩
    · exact ((haccepts k).1 (hsevered k (hchain k hk))).2 hk
    · exact ((haccepts _).1 (hsevered _ hmem)).1 rfl
  · rintro ⟨hempty, hfresh⟩
    refine ⟨_, rfl, (RootKeyring.acceptsIssuer_iff _ _).2 (.inl rfl), fun k hk => (haccepts k).2 ⟨?_, ?_⟩⟩
    · rintro rfl
      exact hfresh hk
    · simp [hempty]

/-- A rotation to the key of `n`, without the admin capability. -/
def rotateTo (dropPredecessor : Bool) (n : UInt8) : RotateCall := ⟨dropPredecessor, false, .fill n, 0, 0⟩

def RotateCall.final (c : RotateCall) (d : DataDir) : DataDir := (Exec.finalState (c.run d)).dir

end

set_option maxRecDepth 100000 in
theorem drop_severs_first : let _ := RotateCrates.trivial
    ∃ (c : RotateCall) (out : RotateOutcome) (r : Rotation), KeyHistory (freshDir (.fill 1)) [.fill 1] ∧
      c.run (freshDir (.fill 1)) = .ok out r ∧
      ∃ kr, r.dir.keyring false 0 = some kr ∧ kr.acceptsIssuer out.newRoot = true ∧ kr.acceptsIssuer (.fill 1) = false := by
  have hrun : letI := RotateCrates.trivial
      (Exec.okResult ((rotateTo true 2).run (freshDir (.fill 1)))).isSome = true := by decide +kernel
  have hfits : letI := RotateCrates.trivial
      ∀ s ∈ (Exec.finalState ((rotateTo true 2).run (freshDir (.fill 1)))).snapshots, s.snapOf.Fits := by decide +kernel
  let _ := RotateCrates.trivial
  obtain ⟨⟨out, r⟩, hr⟩ := Option.isSome_iff_exists.1 hrun
  have hr' := Exec.okResult_eq_some.1 hr
  have hpast := keyHistory_freshDir (.fill 1)
  obtain ⟨kr, hkr, hnew, hold⟩ := (drop_severs_iff hpast hfits rfl hr' false 0).2 ⟨rfl, by decide⟩
  exact ⟨_, out, r, hpast, hr', kr, hkr, hnew, hold _ List.mem_cons_self⟩

set_option maxRecDepth 100000 in
/-- After a graceful rotation the first key is in the chain, and a drop leaves it there. -/
theorem drop_after_graceful_keeps_key : let _ := RotateCrates.trivial
    ∃ (d : DataDir) (past : List PublicKey) (c : RotateCall) (out : RotateOutcome) (r : Rotation) (kr : RootKeyring),
      KeyHistory d past ∧ c.Fits d ∧ c.dropPredecessor = true ∧ c.run d = .ok out r ∧ out.newRoot ∉ past ∧
      r.dir.keyring false 0 = some kr ∧ ∃ k ∈ past, kr.acceptsIssuer k = true := by
  have hfits : letI := RotateCrates.trivial
      ∀ s ∈ (Exec.finalState ((rotateTo false 2).run (freshDir (.fill 1)))).snapshots, s.snapOf.Fits := by decide +kernel
  have hloads : letI := RotateCrates.trivial
      loadMetaBin ((rotateTo false 2).final (freshDir (.fill 1))).metaBin = .ok (.fill 2) := by decide +kernel
  have hfits' : letI := RotateCrates.trivial
      ∀ s ∈ (Exec.finalState ((rotateTo true 3).run ((rotateTo false 2).final (freshDir (.fill 1))))).snapshots,
        s.snapOf.Fits := by decide +kernel
  have hrun : letI := RotateCrates.trivial
      ((Exec.okResult ((rotateTo true 3).run ((rotateTo false 2).final (freshDir (.fill 1))))).map fun x =>
        (x.1.newRoot, (x.2.dir.keyring false 0).map fun kr => kr.acceptsIssuer (.fill 1))) =
          some (.fill 3, some true) := by decide +kernel
  let _ := RotateCrates.trivial
  have hpast := KeyHistory.call (keyHistory_freshDir (.fill 1)) hfits (.inr rfl) hloads
  obtain ⟨⟨out, r⟩, hr, hout⟩ := Option.map_eq_some_iff.1 hrun
  simp only [Prod.mk.injEq, Option.map_eq_some_iff] at hout
  obtain ⟨hroot, kr, hkr, hold⟩ := hout
  refine ⟨_, _, rotateTo true 3, out, r, kr, hpast, hfits', rfl, Exec.okResult_eq_some.1 hr, ?_, hkr, .fill 1,
    List.mem_cons_self, hold⟩
  rw [hroot]
  decide

section
variable [RotateCrates]

/-! ### Stopping and starting again -/

def DataDir.KeepsCaps (d p : DataDir) : Prop :=
  ∀ durable now kr, d.keyring durable now = some kr → ∃ kr', p.keyring durable now = some kr' ∧
    ∀ (cap : Capability) principal revocations nowMs, cap.verify kr principal revocations nowMs = .ok () →
      cap.verify kr' principal revocations nowMs = .ok ()

omit [RotateCrates] in
theorem mem_retire_graceful {oldRoot k : PublicKey} {retired : List PublicKey} (h : k = oldRoot ∨ k ∈ retired) :
    k ∈ retire false oldRoot retired := by
  unfold retire
  by_cases hmem : retired.contains oldRoot = true
  · rw [hmem]
    rcases h with rfl | h
    · exact List.contains_iff_mem.1 hmem
    · exact h
  · rw [Bool.not_eq_true] at hmem
    rw [hmem]
    rcases h with rfl | h
    · simp
    · exact List.mem_append_left _ h

theorem RotateCall.Between.keepsCaps {c : RotateCall} {seed : Bytes32} {d p : DataDir} (hd : d.Good seed)
    (hgraceful : c.dropPredecessor = false) (h : c.Between seed d p) : d.KeepsCaps p := by
  intro durable now kr hkr
  rw [hd.keyring, Option.some.injEq] at hkr
  subst hkr
  have hchain : ∀ k, k = AuthCrates.verifyingKey seed ∨ k ∈ d.savedChain → k ∈ c.chain seed d := by
    intro k hk
    rw [RotateCall.chain, hgraceful]
    exact mem_retire_graceful hk
  rcases h with ⟨hgood, hsame⟩ | ⟨hgood | hgood, hnew⟩
  · refine ⟨_, hgood.keyring durable now, fun cap principal revocations nowMs hv => ?_⟩
    rw [hsame]
    exact hv
  · refine ⟨_, hgood.keyring durable now, fun cap principal revocations nowMs => Capability.verify_mono fun k hk => ?_⟩
    rw [RootKeyring.acceptsIssuer_iff] at hk ⊢
    rw [hnew]
    exact .inr (hchain k hk)
  · refine ⟨_, hgood.keyring durable now, fun cap principal revocations nowMs => Capability.verify_mono fun k hk => ?_⟩
    rw [RootKeyring.acceptsIssuer_iff] at hk ⊢
    rw [hnew]
    exact .inr (hchain k hk)

/-- Wherever a graceful rotation is stopped, the node has a key pair and every capability still verifies; the next call
ends well if and only if no temporary file was left and, if it is to sign the admin capability, that can be read. -/
theorem rotation_rerunnable_iff {d : DataDir} {seed : Bytes32} (hd : d.Good seed) {c : RotateCall} (hfits : c.Fits d)
    (hgraceful : c.dropPredecessor = false) {p : DataDir} (hp : p ∈ c.leaves d) {c' : RotateCall} (hfits' : c'.Fits p) :
    ((∃ seed', loadMetaBin p.metaBin = .ok seed') ∧ d.KeepsCaps p ∧ ∃ out r, c'.run p = .ok out r) ↔
      p.metaTmp = none ∧ (c'.reissueAdmin = true → adminReadable p.savedAdmin = true) := by
  have hbetween := (rotateRoot_spec hd hfits).1 p hp
  obtain ⟨seed', hgood⟩ := hbetween.good
  obtain ⟨_, _, hok, _⟩ := rotateRoot_spec hgood hfits'
  rw [← hok]
  constructor
  · rintro ⟨_, _, hrun⟩
    exact hrun
  · intro hrun
    exact ⟨⟨seed', hgood.loads⟩, hbetween.keepsCaps hd hgraceful, hrun⟩

end

set_option maxRecDepth 100000 in
theorem rotation_rerunnable_at_start : let _ := RotateCrates.trivial
    (freshDir (.fill 1)).Good (.fill 1) ∧ (freshDir (.fill 1)).KeepsCaps (freshDir (.fill 1)) ∧
      ∃ out r, (rotateTo false 2).run (freshDir (.fill 1)) = .ok out r := by
  have hfits : letI := RotateCrates.trivial
      ∀ s ∈ (Exec.finalState ((rotateTo false 2).run (freshDir (.fill 1)))).snapshots, s.snapOf.Fits := by decide +kernel
  let _ := RotateCrates.trivial
  have hgood := good_freshDir (.fill 1)
  obtain ⟨_, hkeeps, hrun⟩ := (rotation_rerunnable_iff hgood hfits rfl List.mem_cons_self hfits).2 ⟨rfl, nofun⟩
  exact ⟨hgood, hkeeps, hrun⟩

set_option maxRecDepth 100000 in
/-- Stopped between the creation of the temporary file and its renaming, the next call fails. -/
theorem rotation_stopped_in_meta_fails : let _ := RotateCrates.trivial
    ∃ (d : DataDir) (seed : Bytes32) (c : RotateCall) (p : DataDir) (c' : RotateCall), d.Good seed ∧ c.Fits d ∧
      c.dropPredecessor = false ∧ p ∈ c.leaves d ∧ c'.Fits p ∧ ¬ ∃ out r, c'.run p = .ok out r := by
  have hfits : letI := RotateCrates.trivial
      ∀ s ∈ (Exec.finalState ((rotateTo false 2).run (freshDir (.fill 1)))).snapshots, s.snapOf.Fits := by decide +kernel
  have hfind : letI := RotateCrates.trivial
      (((rotateTo false 2).leaves (freshDir (.fill 1))).find? fun p => decide (p.metaTmp = some [])).map (fun p =>
        (decide (∀ s ∈ (Exec.finalState ((rotateTo false 3).run p)).snapshots, s.snapOf.Fits),
          (Exec.okResult ((rotateTo false 3).run p)).isSome)) = some (true, false) := by decide +kernel
  let _ := RotateCrates.trivial
  obtain ⟨p, hp, hrun⟩ := Option.map_eq_some_iff.1 hfind
  simp only [Prod.mk.injEq, decide_eq_true_eq] at hrun
  refine ⟨_, _, rotateTo false 2, p, rotateTo false 3, good_freshDir (.fill 1), hfits, rfl, List.mem_of_find?_eq_some hp,
    hrun.1, ?_⟩
  rintro ⟨out, r, hok⟩
  rw [hok] at hrun
  cases hrun.2

end BunnyMesh
