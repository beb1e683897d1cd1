import BunnyMesh.Net.Dials
import BunnyMesh.Net.Pinned
import BunnyMesh.Storage.SnapFits

/-!
# Where a handler panics

The handlers of the event loop rely on facts that earlier events establish: a name in the books of dials is that of a
known peer, a peer we pull from is bound to a peer id.  These hold in every state the loop can reach, so what is left is
`peer_id_of`, which expects of any 64 hex digits that they are the key of a point on the curve (`handler_panics_iff`).
-/

namespace BunnyMesh

open Std
open Exec (Triple Keeps Total)
open Runs (Run)

/-! ### Reading a log -/

/-- A value or an error that is returned. -/
def Returns {α : Type} (x : Res α) : Prop := ∀ detail, x ≠ .error (.panic detail)

variable {α : Type}

theorem Returns.ok (a : α) : Returns (.ok a) := fun _ h => by cases h

theorem Returns.err (e : StorageError) : Returns (.error (.err e) : Res α) := fun _ h => by cases h

theorem Returns.bind {β : Type} {x : Res α} {f : α → Res β} (hx : Returns x) (hf : ∀ a, x = .ok a → Returns (f a)) :
    Returns (x >>= f) := by
  cases h : x with
  | ok a => exact hf a h
  | error e =>
    intro detail he
    cases he
    exact hx detail h

theorem returns_mapM {β : Type} {f : α → Res β} {l : List α} (h : ∀ a ∈ l, Returns (f a)) : Returns (l.mapM f) := by
  induction l with
  | nil => exact Returns.ok _
  | cons a l ih =>
    obtain ⟨ha, hl⟩ := List.forall_mem_cons.1 h
    rw [List.mapM_cons]
    exact ha.bind fun _ _ => (ih hl).bind fun _ _ => Returns.ok _

theorem returns_segmentAt (off : Nat) (lens : List (Nat × Nat)) (acc : Nat) : Returns (segmentAt off lens acc) := by
  induction lens generalizing acc with
  | nil => exact Returns.err _
  | cons x lens ih =>
    obtain ⟨segNo, len⟩ := x
    rw [segmentAt]
    split
    · exact Returns.ok _
    · exact ih _

theorem returns_readExact (data : Bytes) (pos n : Nat) : Returns (readExact data pos n) := by
  unfold readExact
  split
  · exact Returns.ok _
  · exact Returns.err _

theorem Log.returns_readAt (log : Log) (nd : NsDir) (off : Nat) : Returns (log.readAt nd off) := by
  refine (returns_segmentAt off log.segLens 0).bind fun x _ => ?_
  obtain ⟨segNo, segStart⟩ := x
  dsimp only
  split
  · exact Returns.err _
  · rename_i f _
    refine (returns_readExact _ _ _).bind fun hdr hhdr => ?_
    have hlen : 5 ≤ hdr.length := by
      unfold readExact at hhdr
      split at hhdr
      · cases hhdr
        rw [ByteCodec.length_range (by omega) (by omega), headerLen]
        omega
      · cases hhdr
    rw [slice_eq_ok.2 ⟨⟨by omega, hlen⟩, rfl⟩, ok_bind]
    exact (returns_readExact _ _ _).bind fun _ _ => Returns.ok _

theorem Log.returns_readRecords (log : Log) (nd : NsDir) (fromSeq max : Nat) :
    Returns (log.readRecords nd fromSeq max) := by
  unfold Log.readRecords
  split
  · exact Returns.ok _
  · refine returns_mapM fun idx hidx => ?_
    have hlt : idx < log.offsets.length := by
      rw [List.mem_range'_1] at hidx
      split at hidx <;> omega
    rw [Log.readNth, List.getElem?_eq_getElem hlt]
    exact (log.returns_readAt nd _).bind fun _ _ => Returns.ok _

theorem logRecords_returns (ns : Bytes) (fromSeq max : Nat) (w : World) (detail : String) (w' : World) :
    logRecords ns fromSeq max w ≠ .error (.panic detail) w' := by
  simp only [logRecords, getLog, getDir, Exec.bind_apply, Exec.get_apply]
  cases hlog : w.store.logs[ns]? with
  | none => simp [Exec.throw_apply]
  | some log =>
    simp only [Exec.pure_apply]
    cases hdir : w.disk.dirs[nsDir ns]? with
    | none => simp [Exec.throw_apply, notFoundIo]
    | some nd =>
      simp only [Exec.pure_apply]
      cases hread : log.readRecords nd fromSeq max with
      | ok x => simp [liftRes]
      | error e =>
        cases e with
        | err e => simp [liftRes]
        | panic d => exact absurd hread (log.returns_readRecords nd fromSeq max d)

theorem checkpoint_returns (w : World) (detail : String) (w' : World) : checkpoint w ≠ .error (.panic detail) w' := by
  obtain ⟨disk, points, hsync⟩ := syncLogs_apply w
  obtain ⟨points', hcheck⟩ := checkpoint_of_sync hsync
  rw [hcheck]
  simp

theorem onStore_cases (x : M α) (r : Runner) : (∃ res w, onStore x r = .ok res { r with world := w }) ∨
      ∃ detail w, x r.world = .error (.panic detail) w ∧ onStore x r = .error detail { r with world := w } := by
  unfold onStore
  cases x r.world with
  | ok a w => exact .inl ⟨_, w, rfl⟩
  | error e w =>
    cases e with
    | err e => exact .inl ⟨_, w, rfl⟩
    | panic detail => exact .inr ⟨detail, w, rfl, rfl⟩

theorem total_onStore {P : Runner → Prop} {x : M α} (hx : ∀ w detail w', x w ≠ .error (.panic detail) w')
    (h : ∀ r w', P r → P { r with world := w' }) : Total P (onStore x) fun _ => P := by
  intro r hr
  obtain ⟨res, w, hrun⟩ | ⟨detail, w, hpanic, -⟩ := onStore_cases x r
  · exact ⟨res, _, hrun, h r w hr⟩
  · exact absurd hpanic (hx r.world detail w)

/-! ### Keys that are no curve points -/

section

variable [Libp2p]

def Runner.BadHello (r : Runner) (env : Env) (pid : PeerId) (hostId : Bytes) : Prop :=
  ∃ name c pk, r.nameForPid env.order pid = some name ∧ r.peer[name]? = some c ∧ c.pin = none ∧
    parseKey hostId = some pk ∧ Libp2p.peerIdOf pk = none

/-- A configured pin that is such a key, behind none that is the key of the peer id. -/
def BadPin (pid : PeerId) (cfg : List Peer) : Prop :=
  ∃ front p back pk, cfg = front ++ p :: back ∧
    (∀ q ∈ front, ∀ k, parseKey q.pin = some k → Libp2p.peerIdOf k ≠ some pid) ∧
    parseKey p.pin = some pk ∧ Libp2p.peerIdOf pk = none

theorem badPin_cons {pid : PeerId} {p : Peer} {ps : List Peer} : BadPin pid (p :: ps) ↔
    (∃ pk, parseKey p.pin = some pk ∧ Libp2p.peerIdOf pk = none) ∨
      (∀ k, parseKey p.pin = some k → Libp2p.peerIdOf k ≠ some pid) ∧ BadPin pid ps := by
  constructor
  · rintro ⟨front, q, back, pk, heq, hfront, hpk, hpid⟩
    cases front with
    | nil =>
      obtain ⟨rfl, rfl⟩ := List.cons.inj heq
      exact .inl ⟨pk, hpk, hpid⟩
    | cons q' front =>
      obtain ⟨rfl, rfl⟩ := List.cons.inj heq
      obtain ⟨hp, hfront⟩ := List.forall_mem_cons.1 hfront
      exact .inr ⟨hp, front, q, back, pk, rfl, hfront, hpk, hpid⟩
  · rintro (⟨pk, hpk, hpid⟩ | ⟨hp, front, q, back, pk, rfl, hfront, hpk, hpid⟩)
    · exact ⟨[], p, ps, pk, rfl, by simp, hpk, hpid⟩
    · exact ⟨p :: front, q, back, pk, rfl, List.forall_mem_cons.2 ⟨hp, hfront⟩, hpk, hpid⟩

theorem not_badPin_nil (pid : PeerId) : ¬ BadPin pid [] := by
  rintro ⟨front, p, back, pk, heq, -⟩
  simp at heq

omit [Libp2p] in
theorem parseKey_nil : parseKey [] = none := by decide

theorem pinnedName_spec (pid : PeerId) (ps : List Peer) (r : Runner) :
    (BadPin pid ps → pinnedName pid ps r = .error "valid ed25519 pk" r) ∧
      (¬ BadPin pid ps → ∃ name, pinnedName pid ps r = .ok name r) := by
  induction ps with
  | nil => exact ⟨fun h => absurd h (not_badPin_nil pid), fun _ => ⟨none, rfl⟩⟩
  | cons p ps ih =>
    rw [badPin_cons, pinnedName]
    cases hkey : parseKey p.pin with
    | none =>
      -- such a peer is passed over, with or without a pin
      simpa using ih
    | some pk =>
      have hne : p.pin.isEmpty = false := by
        cases hp : p.pin with
        | nil =>
          rw [hp, parseKey_nil] at hkey
          cases hkey
        | cons => rfl
      cases hpid : Libp2p.peerIdOf pk with
      | none => simp [hne, hpid]
      | some pinned =>
        by_cases heq : pinned = pid
        · simp [hne, hpid, heq]
        · simpa [hne, hpid, heq] using ih

/-! ### The handlers -/

def Runner.BadKey (r : Runner) (env : Env) : NetEvent → Prop
  | .response pid (.hello resp) => r.BadHello env pid resp.hostId
  | .request pid _ => BadPin pid r.cfg
  | _ => False

/-- `on_records` up to the call of `verify_batch`: the peer's name, the namespace, the sequence number to reach and the
decoded chunk. -/
def pulledBatch (env : Env) (pid : PeerId) (recs : Records) :
    Net (Option (Bytes × Bytes × Nat × List (Nat × Bytes))) := do
  match (← get).nameForPid env.order pid with
  | none => pure none
  | some name =>
    match ((← get).peer[name]?).map PeerCtx.phase with
    | some (.pulling ns target) =>
      if recs.ns ≠ ns then do
        phaseSet name .idle
        pure none
      else if (← get).allowed name ns = some false then do
        phaseSet name .done
        pure none
      else
        match decodeRecs recs.records with
        | .error _ => do
          phaseSet name .idle
          pure none
        | .ok batch => pure (some (name, ns, target, batch))
    | _ => pure none

section

variable [Crates]

def verifyPulled : Option (Bytes × Bytes × Nat × List (Nat × Bytes)) → Net (Option (Bytes × Bytes × Nat × List Record))
  | none => pure none
  | some (name, ns, target, batch) =>
    match verifyBatch batch with
    | .error (.panic detail) => throw detail
    | .error (.err _) => do
      phaseSet name .done
      pure none
    | .ok parsed => pure (some (name, ns, target, parsed))

def afterApply (name ns : Bytes) (target : Nat) (parsed : List Record) : Except StorageError Nat → Net Unit
  | .error _ => phaseSet name .idle
  | .ok applied => do
    modify fun r => { r with roundApplied := r.roundApplied + applied }
    checkpointAfter parsed.length
    let localSeq := (((← get).world.store.head ns).map (·.1)).getD 0
    if applied = 0 then phaseSet name .done
    else do
      let c ← getCtx name
      modifyPeer name fun c => { c with roundChunks := c.roundChunks + 1 }
      if c.roundChunks + 1 ≥ maxChunksPerTick then phaseSet name .done
      else nextPull name ns target localSeq

omit [Libp2p] in
theorem checkRecords_eq (env : Env) (pid : PeerId) (recs : Records) :
    checkRecords env pid recs = pulledBatch env pid recs >>= verifyPulled := by
  funext r
  simp only [checkRecords, pulledBatch, Exec.bind_apply, Exec.get_apply]
  cases r.nameForPid env.order pid with
  | none => rfl
  | some name =>
    simp only [Exec.bind_apply, Exec.get_apply]
    cases (r.peer[name]?).map PeerCtx.phase with
    | none => rfl
    | some phase =>
      cases phase with
      | pulling ns target =>
        dsimp only
        by_cases hns : recs.ns ≠ ns
        · rw [if_pos hns, if_pos hns]
          rfl
        · rw [if_neg hns, if_neg hns]
          simp only [Exec.bind_apply, Exec.get_apply]
          by_cases hallowed : r.allowed name ns = some false
          · rw [if_pos hallowed, if_pos hallowed]
            rfl
          · rw [if_neg hallowed, if_neg hallowed]
            cases decodeRecs recs.records <;> rfl
      | idle | waitingDial | awaitingHello | done | bad => rfl

omit [Libp2p] in
theorem applyPulled_eq (name ns : Bytes) (target : Nat) (parsed : List Record) :
    applyPulled name ns target parsed = onStore (applySyncedBatch ns parsed) >>= afterApply name ns target parsed := by
  funext r
  cases onStore (applySyncedBatch ns parsed) r with
  | ok res s => cases res <;> rfl
  | error e s => rfl

namespace DialMoves

variable {I : Runner → Prop} (hI : DialMoves I)
include hI

section
omit [Crates]

theorem total_pulledBatch (env : Env) (pid : PeerId) (recs : Records) :
    Total I (pulledBatch env pid recs) fun res r => I r ∧ ∀ x ∈ res, r.IsBound x.1 := by
  let Q : Option (Bytes × Bytes × Nat × List (Nat × Bytes)) → Runner → Prop := fun res r =>
    I r ∧ ∀ x ∈ res, r.IsBound x.1
  have refuse : ∀ name {phase : Phase}, phase ≠ .waitingDial → Total I (do phaseSet name phase; pure none) Q :=
    fun name phase h => Total.bind (hI.total_phaseSet name h) fun _ => Total.pure fun _ hr => ⟨hr, by simp⟩
  refine Total.get_bind fun r hr => ?_
  refine Total.conseq (P := fun s => s = r) (Q := Q) ?_ (fun _ h => h) fun _ _ h => h
  cases hname : r.nameForPid env.order pid with
  | none => exact Total.pure fun s hs => ⟨hs ▸ hr, by simp⟩
  | some name =>
    refine Total.get_bind fun s hs => ?_
    subst hs
    split
    · refine Total.ite (fun _ => (refuse name (by simp)).conseq (fun t ht => ht ▸ hr) fun _ _ h => h) fun _ => ?_
      refine Total.get_bind fun t ht => ?_
      subst ht
      refine Total.ite (fun _ => (refuse name (by simp)).conseq (fun u hu => hu ▸ hr) fun _ _ h => h) fun _ => ?_
      split
      · exact (refuse name (by simp)).conseq (fun u hu => hu ▸ hr) fun _ _ h => h
      · refine Total.pure fun u hu => ?_
        subst hu
        refine ⟨hr, fun x hx => ?_⟩
        cases hx
        exact Runner.isBound_of_nameForPid hname
    · exact Total.pure fun t ht => ⟨ht ▸ hr, by simp⟩

theorem total_nextPull (name ns : Bytes) (target localSeq : Nat) :
    Total (fun r => I r ∧ r.IsBound name) (nextPull name ns target localSeq) fun _ => I := by
  refine Total.ite (fun _ => hI.total_sendPull name ns target) fun _ => Total.get_bind fun r hr => ?_
  split
  · refine Total.bind (Total.modify fun s hs => ?_) fun _ => hI.total_sendPull name _ _
    subst hs
    exact ⟨hI.books s _ rfl rfl rfl hr.1, hr.2⟩
  · refine Total.bind (Total.modify fun s hs => ?_) fun _ => hI.total_phaseSet name (by simp)
    subst hs
    exact hI.books s _ rfl rfl rfl hr.1

theorem total_afterApply (name ns : Bytes) (target : Nat) (parsed : List Record) (res : Except StorageError Nat) :
    Total (fun r => I r ∧ r.IsBound name) (afterApply name ns target parsed res) fun _ => I := by
  let P : Runner → Prop := fun r => I r ∧ r.IsBound name
  have hset : ∀ {phase : Phase}, phase ≠ .waitingDial → Total P (phaseSet name phase) fun _ => I :=
    fun h => (hI.total_phaseSet name h).conseq (fun _ hr => hr.1) fun _ _ h => h
  cases res with
  | error e => exact hset (by simp)
  | ok applied =>
    refine Total.bind (Q := fun _ => P) (Total.modify fun r hr => ⟨hI.books r _ rfl rfl rfl hr.1, hr.2⟩) fun _ => ?_
    refine Total.bind (Q := fun _ => P) (Total.get_bind fun r hr => ?_) fun _ => Total.get_bind fun r hr => ?_
    · refine Total.ite (fun _ => ?_) fun _ => Total.pure fun s hs => hs ▸ hr
      refine Total.bind (Q := fun _ => P) ?_ fun _ => Total.pure fun _ h => h
      refine (total_onStore checkpoint_returns fun s w' hs => ?_).conseq (fun s hs => hs ▸ hr) fun _ _ h => h
      exact ⟨hI.books s _ rfl rfl rfl hs.1, hs.2⟩
    · refine Total.ite (fun _ => (hset (by simp)).conseq (fun s hs => hs ▸ hr) fun _ _ h => h) fun _ => ?_
      refine Total.bind (total_getCtx fun s hs => ?_) fun c => ?_
      · obtain ⟨c, hc, -⟩ := hr.2
        rw [hs, hc]
        simp
      refine Total.bind (Q := fun _ => P) (Total.modify fun s hs => ?_) fun _ => ?_
      · obtain ⟨rfl, -⟩ := hs
        exact ⟨hI.context s name _ (fun _ => rfl) (fun _ => .inl rfl) (fun _ => .inl rfl) hr.1,
          hr.2.modifyPeer name fun _ => .inl rfl⟩
      · exact Total.ite (fun _ => hset (by simp)) fun _ => hI.total_nextPull name ns target _

end

theorem keeps_onRecords (env : Env) (pid : PeerId) (recs : Records) : Keeps I (onRecords env pid recs) := by
  unfold onRecords
  rw [checkRecords_eq]
  refine Triple.bind (Triple.bind (hI.total_pulledBatch env pid recs).triple
    (R := fun res r => I r ∧ ∀ x ∈ res, r.IsBound x.1) fun res => ?_) fun res => ?_
  · cases res with
    | none => exact Triple.pure fun r hr => ⟨hr.1, by simp⟩
    | some x =>
      obtain ⟨name, ns, target, batch⟩ := x
      unfold verifyPulled
      dsimp only
      split
      · exact Triple.throw
      · refine Triple.bind (Q := fun _ => I) ?_ fun _ => Triple.pure fun _ hr => ⟨hr, by simp⟩
        exact ((hI.total_phaseSet name (by simp)).conseq (fun _ hr => hr.1) fun _ _ h => h).triple
      · refine Triple.pure fun r hr => ⟨hr.1, fun x hx => ?_⟩
        cases hx
        exact hr.2 _ rfl
  · cases res with
    | none => exact Triple.pure fun _ hr => hr.1
    | some x =>
      obtain ⟨name, ns, target, parsed⟩ := x
      refine Triple.bind (Q := fun _ r => I r ∧ r.IsBound name) (triple_onStore fun r hr => ?_)
        fun res => (hI.total_afterApply name ns target parsed res).triple
      exact ⟨hI.books r _ rfl rfl rfl hr.1, hr.2 _ rfl⟩

section
omit [Crates]

theorem total_onHello (env : Env) (pid : PeerId) (resp : HelloResponse) :
    Total (fun r => I r ∧ ¬ r.BadHello env pid resp.hostId) (onHello env pid resp) fun _ => I := by
  refine Total.get_bind fun r hr => ?_
  cases hname : r.nameForPid env.order pid with
  | none => exact Total.pure fun s hs => hs ▸ hr.1
  | some name =>
    cases hpk : parseKey resp.hostId with
    | none => exact (hI.total_phaseSet name (by simp)).conseq (fun s hs => hs ▸ hr.1) fun _ _ h => h
    | some peerPk =>
      refine Total.bind ((hI.total_checkPin env name pid peerPk).conseq (fun s hs => ?_) fun _ _ h => h) fun ok => ?_
      · subst hs
        refine ⟨⟨hr.1, Runner.isBound_of_nameForPid hname⟩, fun c hc hpin hnone => hr.2 ?_⟩
        exact ⟨name, c, peerPk, hname, hc, hpin, hpk, hnone⟩
      · refine Total.ite (fun _ => ?_) fun _ => Total.pure fun _ h => h.1
        refine Total.bind (Total.get_bind fun s hs => Total.modify fun t ht => ?_) fun _ => hI.total_queuePulls name _
        subst ht
        exact ⟨hI.books t _ rfl rfl rfl hs.1, hs.2⟩

theorem total_servePull (ns : Bytes) (fromSeq : Nat) : Total I (servePull ns fromSeq) fun _ => I :=
  Total.bind (total_onStore (fun w d w' => logRecords_returns ns fromSeq maxRecords w d w') fun r _ hr =>
    hI.books r _ rfl rfl rfl hr) fun _ => hI.total_emit _

theorem total_onRequest (env : Env) (pid : PeerId) (req : SyncRequest) :
    Total (fun r => I r ∧ ¬ BadPin pid r.cfg) (onRequest env pid req) fun _ => I := by
  have haccess : Total (fun r => I r ∧ ¬ BadPin pid r.cfg) (inboundAccess env pid) fun _ => I := by
    refine Total.get_bind fun r hr => Total.bind (Q := fun _ => I) (fun s hs => ?_) fun name => ?_
    · subst hs
      obtain ⟨name, hrun⟩ := (pinnedName_spec pid s.cfg s).2 hr.2
      exact ⟨name, s, hrun, hr.1⟩
    · cases name with
      | some name => exact Total.pure fun _ h => h
      | none =>
        refine Total.get_bind fun s hs => ?_
        split
        · exact Total.get_bind fun t ht => Total.pure fun u hu => hu ▸ ht ▸ hs
        · exact Total.pure fun t ht => ht ▸ hs
  have hhello : Total I (serveHello env) fun _ => I := Total.get_bind fun r hr =>
    (hI.total_emit _).conseq (fun s hs => hs ▸ hr) fun _ _ h => h
  refine Total.bind haccess fun access => ?_
  split
  · exact hI.total_emit _
  · exact hhello
  · exact hI.total_emit _
  · exact hhello
  · exact hI.total_servePull _ _

end

end DialMoves

variable {env : Env} {r : Runner}

omit [Crates] in
theorem onHello_of_badHello {pid : PeerId} {resp : HelloResponse}
    (h : r.BadHello env pid resp.hostId) : onHello env pid resp r = .error "valid ed25519 pk" r := by
  obtain ⟨name, c, pk, hname, hc, hpin, hpk, hpid⟩ := h
  simp [onHello, checkPin, getCtx, hname, hpk, hc, hpin, hpid]

omit [Crates] in
theorem onRequest_of_badPin {pid : PeerId} {req : SyncRequest} (h : BadPin pid r.cfg) :
    onRequest env pid req r = .error "valid ed25519 pk" r := by
  simp [onRequest, inboundAccess, (pinnedName_spec pid r.cfg r).1 h]

/-! ### Runs -/

/-- The handlers, `on_records` up to the call of `verify_batch`. -/
def handleToVerify (env : Env) : NetEvent → Net Unit
  | .response pid (.records recs) => do let _ ← pulledBatch env pid recs
  | e => handle env e

theorem DialMoves.keeps_handle {I : Runner → Prop} (hI : DialMoves I) (env : Env) {e : NetEvent}
    (hedit : ∀ (r : Runner) cfg, e = .configEdit cfg → I r → I { r with cfg := cfg }) : Keeps I (handle env e) := by
  cases e with
  | kickAll => exact (hI.total_kickAll env).triple
  | established pid dialed =>
    cases dialed with
    | none => exact Keeps.pure
    | some addr => exact (hI.total_onEstablished env pid addr).triple
  | closed pid => exact (hI.total_onClosed env pid).triple
  | dialError pid =>
    cases pid with
    | none => exact Triple.modify fun r hr => hI.failed r hr
    | some pid => exact (hI.total_idleIfBound env pid).triple
  | request pid req =>
    intro r hr a r' hrun
    have hgood : ¬ BadPin pid r.cfg := fun hbad => by
      rw [handle, onRequest_of_badPin hbad] at hrun
      cases hrun
    exact (hI.total_onRequest env pid req).triple r ⟨hr, hgood⟩ a r' hrun
  | response pid resp =>
    cases resp with
    | hello resp =>
      intro r hr a r' hrun
      have hgood : ¬ r.BadHello env pid resp.hostId := fun hbad => by
        rw [handle, onHello_of_badHello hbad] at hrun
        cases hrun
      exact (hI.total_onHello env pid resp).triple r ⟨hr, hgood⟩ a r' hrun
    | records recs => exact hI.keeps_onRecords env pid recs
    | denied => exact (hI.total_idleIfBound env pid).triple
  | outboundFailure pid => exact (hI.total_idleIfBound env pid).triple
  | configEdit cfg => exact Triple.modify fun r hr => hedit r cfg rfl hr
  | storeEdit world => exact Triple.modify fun r hr => hI.books r _ rfl rfl rfl hr

def Runner.DialsKnown (r : Runner) : Prop :=
  ∀ addr name : Bytes, r.pendingDials[addr]? = some name → r.peer[name]? ≠ none

omit [Libp2p] [Crates] in
theorem Runner.DialsKnown.modifyPeer (h : r.DialsKnown) (name : Bytes) (f : PeerCtx → PeerCtx) :
    (r.modifyPeer name f).DialsKnown := by
  intro addr n hd
  rw [(r.books_modifyPeer name f).2] at hd
  rw [Runner.peer_modifyPeer]
  split
  · simpa using h addr n hd
  · exact h addr n hd

omit [Crates] in
theorem dialMoves_dialsKnown : DialMoves Runner.DialsKnown where
  known r addr name h hd := h addr name hd
  books r r' hpeer hdials _ h addr name hd := by
    rw [hpeer]
    exact h addr name (hdials ▸ hd)
  pin _ _ _ h := h
  context r name f _ _ _ h := h.modifyPeer name f
  waits r name c _ _ h := h.modifyPeer name _
  address r name addr _ h := h.modifyPeer name _
  added r name addr pin _ _ h a n hd := by
    rw [OrdMap.getElem?_insert]
    split
    · simp
    · exact h a n hd
  forgets r name c _ _ h a n hd := by
    rw [OrdMap.getElem?_erase] at hd
    split at hd
    · cases hd
    · exact h a n hd
  notes r name c hc h a n hd := by
    rw [OrdMap.getElem?_insert] at hd
    split at hd
    · cases hd
      rw [hc]
      simp
    · exact h a n hd
  failed r h a n hd := by
    simp [dialsFailed] at hd
  answered r order addr name pid c _ hc h a n hd := by
    rw [OrdMap.getElem?_erase] at hd
    split at hd
    · cases hd
    · rw [OrdMap.getElem?_insert]
      split
      · simp
      · exact h a n hd

theorem total_handleToVerify (env : Env) (e : NetEvent) :
    Total (fun r => r.DialsKnown ∧ ¬ r.BadKey env e) (handleToVerify env e) fun _ _ => True := by
  have hI := dialMoves_dialsKnown
  have weaken : ∀ {x : Net Unit}, Total Runner.DialsKnown x (fun _ => Runner.DialsKnown) →
      Total (fun r => r.DialsKnown ∧ ¬ r.BadKey env e) x fun _ _ => True :=
    fun h => h.conseq (fun _ hr => hr.1) fun _ _ _ => trivial
  have quiet : ∀ {f : Runner → Runner}, Total (fun r => r.DialsKnown ∧ ¬ r.BadKey env e) (modify f : Net Unit)
      fun _ _ => True := Total.modify fun _ _ => trivial
  cases e with
  | kickAll => exact weaken (hI.total_kickAll env)
  | established pid dialed =>
    cases dialed with
    | none => exact Total.pure fun _ _ => trivial
    | some addr => exact weaken (hI.total_onEstablished env pid addr)
  | closed pid => exact weaken (hI.total_onClosed env pid)
  | dialError pid =>
    cases pid with
    | none => exact quiet
    | some pid => exact weaken (hI.total_idleIfBound env pid)
  | request pid req => exact (hI.total_onRequest env pid req).conseq (fun _ hr => hr) fun _ _ _ => trivial
  | response pid resp =>
    cases resp with
    | hello resp => exact (hI.total_onHello env pid resp).conseq (fun _ hr => hr) fun _ _ _ => trivial
    | records recs =>
      refine Total.bind ((hI.total_pulledBatch env pid recs).conseq (fun _ hr => hr.1) fun _ _ h => h) fun _ => ?_
      exact Total.pure fun _ _ => trivial
    | denied => exact weaken (hI.total_idleIfBound env pid)
  | outboundFailure pid => exact weaken (hI.total_idleIfBound env pid)
  | configEdit cfg => exact quiet
  | storeEdit world => exact quiet

theorem handleToVerify_of_badKey {e : NetEvent} (h : r.BadKey env e) :
    handleToVerify env e r = .error "valid ed25519 pk" r := by
  cases e with
  | request pid req => exact onRequest_of_badPin h
  | response pid resp =>
    cases resp with
    | hello resp => exact onHello_of_badHello h
    | records | denied => cases h
  | kickAll | established | closed | dialError | outboundFailure | configEdit | storeEdit => cases h

theorem Runner.dialsKnown_of_run {world : World} {host : Bytes32} {cfg : List Peer} {events : List (Env × NetEvent)}
    (hrun : Run NetStep (.start world host cfg) events r) : r.DialsKnown := by
  refine hrun.invariant (I := Runner.DialsKnown) ?_ fun addr name hd => ?_
  · rintro s ⟨env, e⟩ s' hs ⟨_, hstep⟩
    exact dialMoves_dialsKnown.keeps_handle env (fun _ _ _ h => h) { s with out := [] } hs () s' hstep
  · simp [Runner.start] at hd

/-- In every state the event loop can reach, whatever the peers send, the users edit and the swarm reports, a handler
panics exactly on a key that is no curve point: the one an unpinned peer claims in its Hello, or the pin of a configured
peer that a request is compared with.  Past `verify_batch`, `on_records` panics only where the store does. -/
theorem handler_panics_iff {world : World} {host : Bytes32} {cfg : List Peer} {events : List (Env × NetEvent)}
    {r : Runner} (hrun : Run NetStep (.start world host cfg) events r) (env : Env) :
    (∀ e, (∃ msg r', handleToVerify env e { r with out := [] } = .error msg r') ↔ r.BadKey env e) ∧
      ∀ pid recs name ns target batch r', pulledBatch env pid recs r = .ok (some (name, ns, target, batch)) r' →
        ∀ parsed msg s, applyPulled name ns target parsed r' = .error msg s →
          ∃ w, applySyncedBatch ns parsed r'.world = .error (.panic msg) w := by
  have hknown := Runner.dialsKnown_of_run hrun
  constructor
  · intro e
    constructor
    · rintro ⟨msg, r', hpanic⟩
      by_contra hgood
      obtain ⟨_, _, hok, -⟩ := total_handleToVerify env e { r with out := [] } ⟨hknown, hgood⟩
      rw [hpanic] at hok
      cases hok
    · intro hbad
      exact ⟨_, _, handleToVerify_of_badKey hbad⟩
  · intro pid recs name ns target batch r' hpulled parsed msg s happly
    obtain ⟨hknown', hbound⟩ := (dialMoves_dialsKnown.total_pulledBatch env pid recs).triple r hknown _ r' hpulled
    rw [applyPulled_eq] at happly
    obtain ⟨res, w, hstore⟩ | ⟨detail, w, hpanic, hstore⟩ := onStore_cases (applySyncedBatch ns parsed) r'
    · -- the store answers, and the rest finds its peer
      rw [Exec.bind_ok hstore] at happly
      obtain ⟨_, _, hok, -⟩ := dialMoves_dialsKnown.total_afterApply name ns target parsed res { r' with world := w }
        ⟨hknown', hbound _ rfl⟩
      rw [hok] at happly
      cases happly
    · rw [Exec.bind_error hstore] at happly
      cases happly
      exact ⟨w, hpanic⟩

end

end

/-- Peer ids for closed examples: one key is no curve point. -/
@[reducible] def Libp2p.offCurve : Libp2p := ⟨fun pk => if pk = .fill 7 then none else some ⟨pk.val⟩, some⟩

/-- A node with no namespaces that knows one peer. -/
def onePeerNode (pin : Bytes) : Runner := .start ⟨Store.init false, Disk.empty, []⟩ .zero [⟨[98], [120], pin, none⟩]

/-- The node dials its peer, which answers with the key `pk`. -/
def dialEvents (pk : Bytes32) : List (Env × NetEvent) :=
  [(quietEnv [], .kickAll), (quietEnv [[98]], .established ⟨pk.val⟩ (some [120]))]

def helloFrom (sender pk : Bytes32) : NetEvent := .response ⟨sender.val⟩ (.hello ⟨showKey pk, 0, []⟩)

set_option maxRecDepth 100000 in
theorem handler_panics_iff_hello : letI := Crates.trivial; letI := Libp2p.offCurve
    ∃ r, Run NetStep (onePeerNode []) (dialEvents (.fill 9)) r ∧
      ((∃ msg r', handleToVerify (quietEnv [[98]]) (helloFrom (.fill 9) (.fill 9)) { r with out := [] } =
        .error msg r') ↔ r.BadKey (quietEnv [[98]]) (helloFrom (.fill 9) (.fill 9))) := by
  have h : letI := Crates.trivial; letI := Libp2p.offCurve
      (netRun (fun _ _ => True) (onePeerNode []) (dialEvents (.fill 9))).isSome = true := by decide +kernel
  let _ := Crates.trivial
  let _ := Libp2p.offCurve
  obtain ⟨r, hr⟩ := Option.isSome_iff_exists.1 h
  have hrun := (netRun_sound hr).mono fun _ _ _ h => h.2
  exact ⟨r, hrun, (handler_panics_iff hrun (quietEnv [[98]])).1 _⟩

set_option maxRecDepth 100000 in
/-- The peer claims 64 hex digits that are no key, and the loop panics; with such a pin in the configuration a request
of anybody does it. -/
theorem peer_stops_sync_loop : letI := Crates.trivial; letI := Libp2p.offCurve
    (∃ r r', Run NetStep (onePeerNode []) (dialEvents (.fill 9)) r ∧
      handle (quietEnv [[98]]) (helloFrom (.fill 9) (.fill 7)) { r with out := [] } = .error "valid ed25519 pk" r') ∧
    ∃ r', handle (quietEnv []) (.request ⟨[]⟩ .hello) (onePeerNode (showKey (.fill 7))) =
      .error "valid ed25519 pk" r' := by
  have h : letI := Crates.trivial; letI := Libp2p.offCurve
      ∃ r ∈ netRun (fun _ _ => True) (onePeerNode []) (dialEvents (.fill 9)), Exec.failure (handle
        (quietEnv [[98]]) (helloFrom (.fill 9) (.fill 7)) { r with out := [] }) = some "valid ed25519 pk" := by
    decide +kernel
  have hreq : letI := Crates.trivial; letI := Libp2p.offCurve
      Exec.failure (handle (quietEnv []) (.request ⟨[]⟩ .hello) (onePeerNode (showKey (.fill 7)))) =
        some "valid ed25519 pk" := by decide +kernel
  let _ := Crates.trivial
  let _ := Libp2p.offCurve
  obtain ⟨r, hr, hpanic⟩ := h
  obtain ⟨r', hpanic⟩ := Exec.failure_eq_some.1 hpanic
  exact ⟨⟨r, r', (netRun_sound hr).mono fun _ _ _ h => h.2, hpanic⟩, Exec.failure_eq_some.1 hreq⟩

end BunnyMesh
