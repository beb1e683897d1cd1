import BunnyMesh.Storage.Frame
import BunnyMesh.Storage.Runs

/-!
# Creating a namespace, and stopping in the middle

`createNamespace` makes the directory of the namespace, its first segment, an empty policy file and the policy in it.
A directory without a policy is a namespace without one to `openDurable`, which refuses the whole store
(`creation_atomic_iff`).
-/

namespace BunnyMesh

open Std Store Exec
open Runs (Run guarded)

section

variable [Crates]

/-! ### Replaying keeps the policies -/

variable {pol : BMap Bytes ConflictPolicy}

omit [Crates] in
theorem entryBlind_policies {ek : EntryKey} : EntryBlind ek (fun s => s.policies = pol) where
  maps _ _ _ _ _ h := h
  core _ _ hcore h := (congrArg Store.policies hcore).trans h
  bump _ h := h

/-! ### A namespace without a policy -/

/-- The directory of `ns` exists, its policy file is missing or empty, and the store does not know it. -/
structure Unfinished (ns : Bytes) (w : World) : Prop where
  unknown : w.store.policies[ns]? = none
  dir : ∃ nd, w.disk.dirs[nsDir ns]? = some nd ∧ (nd.policy = none ∨ nd.policy = some [])

variable {ns n : Bytes}

theorem keeps_unfinished_recoverLog (durable : Bool) : Keeps (Unfinished ns) (recoverLog n durable) := by
  refine Keeps.bind always_getDir.keeps fun nd => Keeps.bind (always_liftRes _).keeps fun x => ?_
  refine Keeps.bind (Keeps.forM fun e _ => ?_) fun _ => Keeps.pure
  refine Triple.modify fun w h => ⟨h.unknown, ?_⟩
  obtain ⟨nd, hnd, hpolicy⟩ := h.dir
  rw [Disk.dirs_modifyDir]
  split
  · exact ⟨e.apply nd, by rw [hnd, Option.map_some], by rwa [SegEffect.policy_apply]⟩
  · exact ⟨nd, hnd, hpolicy⟩

theorem keeps_unfinished_replayRecords (recs : List (Nat × Bytes)) (head : Bytes32) :
    Keeps (Unfinished ns) (replayRecords n recs head) := by
  induction recs generalizing head with
  | nil => exact Keeps.pure
  | cons x recs ih =>
    refine Keeps.bind (always_liftRes _).keeps fun y => Keeps.bind ?_ fun _ => ih _
    intro w h a w' hrun
    cases hm : applyRecord n y.1 x.1 w.store with
    | error e s => simp [mem, hm] at hrun
    | ok u s =>
      have hpol := (always_applyRecord (fun _ => entryBlind_policies) (fun _ _ _ => Always.modify fun _ h => h) y.1 x.1).keeps
        w.store rfl u s hm
      simp only [mem, hm, EStateM.Result.ok.injEq] at hrun
      obtain ⟨_, rfl⟩ := hrun
      exact ⟨by rw [hpol]; exact h.unknown, h.dir⟩

theorem keeps_unfinished_openNs (info : BMap Bytes (Nat × Bytes32)) (durable : Bool) (hn : n ≠ ns) :
    Keeps (Unfinished ns) (openNs info durable n) := by
  refine Keeps.bind (keeps_unfinished_recoverLog durable) fun log => Keeps.get_bind fun w _ =>
    Keeps.bind always_readPolicySidecar.keeps fun side => Keeps.bind (always_liftRes _).keeps fun policy => ?_
  refine Triple.ite (fun _ => Triple.throw) fun _ => ?_
  refine Keeps.bind (Triple.modify fun w h => ⟨?_, h.dir⟩) fun _ => Keeps.bind always_getDir.keeps fun nd =>
    Keeps.bind (always_liftRes _).keeps fun recs => Keeps.bind (keeps_unfinished_replayRecords recs _) fun head => ?_
  · simp only [Store.setPolicy, OrdMap.getElem?_insert, if_neg hn]
    exact h.unknown
  · exact Triple.ite (fun _ => Triple.throw) fun _ => Triple.modify fun w h => ⟨h.unknown, h.dir⟩

theorem openNs_unfinished (info : BMap Bytes (Nat × Bytes32)) (durable : Bool) :
    Triple (Unfinished ns) (openNs info durable ns) fun _ _ => False := by
  refine Triple.bind (keeps_unfinished_recoverLog durable) fun log => Triple.get_bind fun w h => ?_
  obtain ⟨nd, hnd, hpolicy⟩ := h.dir
  have hside : Triple (· = w) (readPolicySidecar ns) fun side _ => side = none := by
    rintro _ rfl side w' hrun
    rcases hpolicy with hpolicy | hpolicy
    · simp [readPolicySidecar, hnd, hpolicy] at hrun
      exact hrun.1.symm
    · simp [readPolicySidecar, hnd, hpolicy] at hrun
  refine Triple.bind hside fun side w1 hnone => ?_
  rw [hnone, h.unknown]
  exact Triple.bind (Q := fun _ _ => False) (Triple.throw (P := fun _ => True)) (fun _ _ h => h.elim) w1 trivial

theorem openDurable_unfinished {d d' : Disk} {g : History} {nd : NsDir} (hd : DiskRep d pol g) (hv : validNs ns)
    (hp : pol[ns]? = none) (hadds : d.Adds ns nd d') (hpolicy : nd.policy = none ∨ nd.policy = some []) (s : Store)
    (points : List Disk) (durable : Bool) (now : UInt64) (w : World) :
    openDurable durable now ⟨s, d', points⟩ ≠ .ok () w := by
  obtain ⟨_, hload, _⟩ := hd.loadSnapFile durable
  have hdir : d'.dirs[nsDir ns]? = some nd := by rw [hadds.dirs, if_pos rfl]
  have hmem : ns ∈ d'.nsNames := by
    rw [Disk.mem_nsNames]
    exact ⟨nsDir ns, by rw [hdir]; simp, by rw [fromUtf8Lossy_nsDir, parseNsDir_nsDir hv]⟩
  have hunknown : g.base.policies[ns]? = none := by
    cases hb : g.base.policies[ns]? with
    | none => rfl
    | some p => rw [hd.policies ns p hb] at hp; cases hp
  have hnever : Triple (fun w => w.disk = d') (openDurable durable now) fun _ _ => False := by
    refine Triple.get_bind fun w₀ h0 => ?_
    refine Triple.bind (Q := fun x w => x.1.policies[ns]? = none ∧ w.disk = d') ?_ fun ⟨store, info⟩ => ?_
    · rintro _ rfl x w' hrun
      rw [h0, hadds.snap, hload] at hrun
      cases hrun
      exact ⟨hunknown, h0⟩
    refine Triple.bind (Q := fun _ w => w.disk = d' ∧ Unfinished ns w) (Triple.modify fun w1 h1 => ?_) fun _ =>
      Triple.get_bind fun w1 h1 => ?_
    · exact ⟨h1.2, h1.1, nd, by rw [h1.2]; exact hdir, hpolicy⟩
    refine Triple.bind (Q := fun _ => Unfinished ns) ?_ fun _ => Triple.bind (Q := fun _ _ => False) ?_ fun _ _ h => h.elim
    · refine (Keeps.forM (I := Unfinished ns) fun n _ => ?_).conseq (fun w hw => hw ▸ h1.2) fun _ _ h => h
      exact Triple.ite (fun _ => Keeps.pure) fun _ => Triple.throw
    · rw [h1.1]
      exact Triple.forM_false hmem (fun n _ hne => keeps_unfinished_openNs info durable hne)
        (openNs_unfinished info durable)
  exact fun hopen => hnever _ rfl _ _ hopen

/-! ### Stopping at any point -/

variable {w w' w₀ : World} {g : History} {p : ConflictPolicy}

/-- The directory `d` opens, the other namespaces are as they are when the directory of `w` is opened, and the new one is
absent, or there with its policy and an empty log. -/
def CreatedAtomically (w : World) (ns : Bytes) (p : ConflictPolicy) (d : Disk) : Prop :=
  ∀ (s : Store) (points : List Disk) (durable : Bool) (now : UInt64), ∃ w₁ w₂,
    openDurable durable now ⟨s, w.disk, points⟩ = .ok () w₁ ∧ openDurable durable now ⟨s, d, points⟩ = .ok () w₂ ∧
    (∀ n, n ≠ ns → w₂.store.policies[n]? = w₁.store.policies[n]? ∧ w₂.store.view n = w₁.store.view n ∧
      w₂.store.head n = w₁.store.head n) ∧
    (w₂.store.policies[ns]? = none ∨
      w₂.store.policies[ns]? = some p ∧ w₂.store.view ns = NsState.empty ∧ w₂.store.head ns = some (0, .zero))

theorem Running.createdAtomically_before (h : Running w g) (hp : w.store.policies[ns]? = none) (p : ConflictPolicy) :
    CreatedAtomically w ns p w.disk := by
  intro s points durable now
  obtain ⟨w1, hopen, _, hpol, _⟩ := openDurable_spec h.disk s points durable now
  exact ⟨w1, w1, hopen, hopen, fun _ _ => ⟨rfl, rfl, rfl⟩, .inl (by rw [hpol, hp])⟩

theorem Running.createdAtomically_after (h : Running w g) (hp : w.store.policies[ns]? = none)
    (h' : Running w' (g.create ns)) (hpol' : w'.store.policies = w.store.policies.insert ns p) :
    CreatedAtomically w ns p w'.disk := by
  intro s points durable now
  obtain ⟨w1, hopen1, hrun1, hpol1, _, _, hview1⟩ := openDurable_spec h.disk s points durable now
  obtain ⟨w2, hopen2, hrun2, hpol2, _, _, hview2⟩ := openDurable_spec h'.disk s points durable now
  have hget : ∀ n : Bytes, w2.store.policies[n]? = if ns = n then some p else w.store.policies[n]? := by
    intro n
    rw [hpol2, hpol', OrdMap.getElem?_insert]
  have hself : w2.store.policies[ns]? = some p := by rw [hget, if_pos rfl]
  refine ⟨w1, w2, hopen1, hopen2, fun n hn => ?_, .inr ⟨hself, ?_, ?_⟩⟩
  · have hsame : w2.store.policies[n]? = w1.store.policies[n]? := by rw [hget, if_neg hn.symm, hpol1]
    refine ⟨hsame, ?_, ?_⟩
    · cases hq : w1.store.policies[n]? with
      | none => rw [hrun1.outside n hq, hrun2.outside n (hsame.trans hq)]
      | some q =>
        rw [hview1 n q (hpol1 ▸ hq), hview2 n q (by rw [← hpol2, hsame, hq]), History.recovered_create_of_ne hn]
    · cases hq : w1.store.policies[n]? with
      | none => rw [hrun1.head_none hq, hrun2.head_none (hsame.trans hq)]
      | some q =>
        rw [hrun1.head_eq hq, hrun2.head_eq (hsame.trans hq)]
        simp [History.create, Function.update_of_ne hn]
  · rw [hview2 ns p (by rw [← hpol2, hself]), h.disk.toBaseRep.recovered_create hp]
  · rw [hrun2.head_eq hself]
    simp only [History.create, Function.update_self]
    rfl

theorem createNamespace_enabled (h : Running w g) (hcreate : createNamespace ns p w = .ok () w') :
    validNs ns ∧ w.store.policies[ns]? = none := by
  rcases outcome_createNamespace h ns p with ⟨_, e, herr⟩ | ⟨w1, g1, _, hevents⟩
  · rw [herr] at hcreate
    cases hcreate
  · cases hevents with
    | cons first rest =>
      cases first with
      | created valid fresh => exact ⟨valid, fresh⟩

/-- Wherever the process stops inside the creation of a namespace, the directory is one of these: after `k` of the four
file-system steps.  It opens to a store with the old namespaces, and with the new one or without it, exactly where none
or all of the steps are done. -/
theorem creation_atomic_iff {cmds : List Cmd} (h₀ : Opened w₀)
    (hrun : Run (guarded (fun w c => c.Valid w.store) Step) w₀ cmds w) (hcreate : createNamespace ns p w = .ok () w')
    {k : Nat} {d : Disk} (hd : (w.disk :: w'.points.drop w.points.length)[k]? = some d) :
    CreatedAtomically w ns p d ↔ k = 0 ∨ k = 4 := by
  obtain ⟨g, hs⟩ := h₀.run_sound (fun _ _ h => h) hrun
  have h := hs.running
  obtain ⟨hv, hp⟩ := createNamespace_enabled h hcreate
  obtain ⟨d₁, d₂, d₃, d₄, hrun', hadds⟩ := createNamespace_apply hv hp (h.disk.noDir hv hp) p
  rw [hcreate, EStateM.Result.ok.injEq] at hrun'
  obtain ⟨_, rfl⟩ := hrun'
  rw [creationDirs] at hadds
  obtain ⟨h₁, h₂, h₃, h₄, _⟩ := by simpa only [List.forall₂_cons] using hadds
  have hfails : ∀ {nd : NsDir} {d : Disk}, w.disk.Adds ns nd d → nd.policy = none ∨ nd.policy = some [] →
      ¬ CreatedAtomically w ns p d := by
    intro nd d hadds hpolicy hatomic
    obtain ⟨_, w₂, _, hopen, _⟩ := hatomic w.store [] false 0
    exact openDurable_unfinished h.disk hv hp hadds hpolicy w.store [] false 0 w₂ hopen
  rw [List.drop_left] at hd
  rcases k with _ | _ | _ | _ | _ | k
  · cases hd
    exact iff_of_true (h.createdAtomically_before hp p) (.inl rfl)
  · cases hd
    exact iff_of_false (hfails h₁ (.inl rfl)) (by omega)
  · cases hd
    exact iff_of_false (hfails h₂ (.inl rfl)) (by omega)
  · cases hd
    exact iff_of_false (hfails h₃ (.inr rfl)) (by omega)
  · cases hd
    have hrep := logRep_empty w.store.durable
    exact iff_of_true (h.createdAtomically_after hp (h.create hv hp p h₄ rfl ⟨hrep.clean, hrep.chunks⟩ []) rfl) (.inr rfl)
  · cases hd

end

def oneNamespace : List Cmd := [.createNamespace [97] .lww, .put [97] [1] [10] 1 .zero .zero 0]

set_option maxRecDepth 100000 in
theorem oneNamespace_create : letI := Crates.trivial
    ∃ w₀ w w' d1 d2 d3 g, Opened w₀ ∧ Run (guarded (fun w c => c.Valid w.store) Step) w₀ oneNamespace w ∧
      createNamespace [98] .lww w = .ok () w' ∧ w.disk :: w'.points.drop w.points.length = [w.disk, d1, d2, d3, w'.disk] ∧
      Running w g ∧ w.store.policies[([98] : Bytes)]? = none ∧ w.disk.Adds [98] NsDir.empty d1 := by
  have hrun : letI := Crates.trivial
      ((freshRun (fun w c => c.Valid w.store) oneNamespace).map fun w => w.store.policies[([98] : Bytes)]?) =
        some none := by decide +kernel
  let _ := Crates.trivial
  obtain ⟨w, hw, hfree⟩ := Option.map_eq_some_iff.1 hrun
  obtain ⟨w₀, h0, hrun⟩ := freshRun_sound hw
  obtain ⟨g, hs⟩ := h0.run_sound (fun _ _ h => h) hrun
  have hv : validNs [98] := by decide
  obtain ⟨d1, d2, d3, d4, hcreate, hadds⟩ := createNamespace_apply hv hfree (hs.running.disk.noDir hv hfree) .lww
  refine ⟨w₀, w, _, d1, d2, d3, g, h0, hrun, hcreate, by rw [List.drop_left], hs.running, hfree, ?_⟩
  exact (List.forall₂_cons.1 hadds).1

/-- Once its policy is written the second namespace is there. -/
theorem creation_atomic_iff_second : letI := Crates.trivial
    ∃ w₀ w w', Opened w₀ ∧ Run (guarded (fun w c => c.Valid w.store) Step) w₀ oneNamespace w ∧
      createNamespace [98] .lww w = .ok () w' ∧ CreatedAtomically w [98] .lww w'.disk := by
  let _ := Crates.trivial
  obtain ⟨w₀, w, w', d₁, d₂, d₃, g, h₀, hrun, hcreate, hpoints, _⟩ := oneNamespace_create
  refine ⟨w₀, w, w', h₀, hrun, hcreate, ?_⟩
  exact (creation_atomic_iff (k := 4) h₀ hrun hcreate (by rw [hpoints]; rfl)).2 (.inr rfl)

/-- The process stops when the directory of the second namespace is there: the store does not open any more. -/
theorem creation_stopped_store_lost : letI := Crates.trivial
    ∃ w₀ w w' d, Opened w₀ ∧ Run (guarded (fun w c => c.Valid w.store) Step) w₀ oneNamespace w ∧
      createNamespace [98] .lww w = .ok () w' ∧ (w.disk :: w'.points.drop w.points.length)[1]? = some d ∧
      (∀ w₂, openDurable false 0 ⟨w.store, d, []⟩ ≠ .ok () w₂) ∧ ¬ CreatedAtomically w [98] .lww d := by
  let _ := Crates.trivial
  obtain ⟨w₀, w, w', d₁, d₂, d₃, g, h₀, hrun, hcreate, hpoints, hs, hfree, hadds⟩ := oneNamespace_create
  have hfails := openDurable_unfinished hs.disk (by decide) hfree hadds (.inl rfl) w.store [] false 0
  refine ⟨w₀, w, w', d₁, h₀, hrun, hcreate, by rw [hpoints]; rfl, hfails, fun hatomic => ?_⟩
  obtain ⟨_, w₂, _, hopen, _⟩ := hatomic w.store [] false 0
  exact hfails w₂ hopen

end BunnyMesh
