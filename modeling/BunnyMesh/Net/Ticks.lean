import BunnyMesh.Net.Standalone
import BunnyMesh.Storage.Frame

/-!
# Ticks

Between two calls of `kick_all` a peer can make us apply only so many chunks.  A chunk is applied only for a peer we pull
from, and counts on the peer's `round_chunks`; below the cap the handler may go on pulling by itself, and from the cap on
only a Hello starts a pull.  So each peer has a budget, the chunks up to the cap or the one it is being asked for
(`PeerCtx.budget`), that every applied chunk takes one from and every Hello adds at most one to.
-/

namespace BunnyMesh

open Std
open Exec (Triple Keeps)
open Runs (Run guarded)

/-! ### What leaves the count of chunks alone -/

/-- The chunks are the same, and no pull was started. -/
def PeerCtx.Eases (c c' : PeerCtx) : Prop :=
  c'.roundChunks = c.roundChunks ∧ (c'.phase = c.phase ∨ c'.phase.isPulling = false)

theorem PeerCtx.Eases.refl (c : PeerCtx) : c.Eases c := ⟨rfl, .inl rfl⟩

theorem PeerCtx.Eases.trans {c c' c'' : PeerCtx} (h : c.Eases c') (h' : c'.Eases c'') : c.Eases c'' := by
  refine ⟨h'.1.trans h.1, ?_⟩
  rcases h'.2 with heq | hno
  · rw [heq]
    exact h.2
  · exact .inr hno

/-- No peer came or went, and each has come to a context that is related to its former one. -/
def Runner.Related (R : Bytes → PeerCtx → PeerCtx → Prop) (r r' : Runner) : Prop :=
  ∀ n : Bytes, Option.Rel (R n) r.peer[n]? r'.peer[n]?

/-- A relation of contexts that does not see a peer ease. -/
def Easy (R : Bytes → PeerCtx → PeerCtx → Prop) : Prop := ∀ n c c' c'', R n c c' → c'.Eases c'' → R n c c''

section
variable {R : Bytes → PeerCtx → PeerCtx → Prop} {r r' : Runner}

theorem Runner.related_of_peer (hR : ∀ n c, R n c c) (h : r'.peer = r.peer) : r.Related R r' := by
  intro n
  rw [h]
  cases r.peer[n]? with
  | none => exact .none
  | some c => exact .some (hR n c)

theorem Runner.Related.congr {r'' : Runner} (h : r.Related R r') (hpeer : r''.peer = r'.peer) : r.Related R r'' := by
  intro n
  rw [hpeer]
  exact h n

theorem Runner.Related.modifyPeer (h : r.Related R r') (name : Bytes) {f : PeerCtx → PeerCtx}
    (hf : ∀ c c', R name c c' → R name c (f c')) : r.Related R (r'.modifyPeer name f) := by
  intro n
  have hn := h n
  rw [Runner.peer_modifyPeer]
  generalize r.peer[n]? = before at hn ⊢
  generalize r'.peer[n]? = after at hn ⊢
  by_cases he : name = n
  · subst he
    rw [if_pos rfl]
    cases hn with
    | none => exact .none
    | some hc => exact .some (hf _ _ hc)
  · rw [if_neg he]
    exact hn

theorem easing_related (hR : Easy R) : Easing (r.Related R) where
  books _ _ _ _ hpeer _ h := h.congr hpeer
  context _ name _ hf hphase h := h.modifyPeer name fun _ c' hc => hR _ _ _ _ hc ⟨(hf c').2.2, hphase c'⟩
  dialsFailed s hs n := by
    have hn := hs n
    rw [dialsFailed, ExtTreeMap.getElem?_map]
    generalize r.peer[n]? = before at hn ⊢
    generalize s.peer[n]? = after at hn ⊢
    cases hn with
    | none => exact .none
    | some hc =>
      refine .some (hR _ _ _ _ hc ?_)
      dsimp only
      split
      · exact ⟨rfl, .inr rfl⟩
      · exact .refl _
  message _ _ _ h := h.congr rfl

theorem Runner.Related.bind (hR : Easy R) {s : Runner} (h : r.Related R s) (name : Bytes) {f : PeerCtx → PeerCtx}
    (hf : ∀ c, (f c).phase = c.phase ∧ (f c).roundChunks = c.roundChunks) : r.Related R (s.modifyPeer name f) :=
  h.modifyPeer name fun _ c' hc => hR _ _ _ _ hc ⟨(hf c').2, .inl (hf c').1⟩

theorem pullsFor_related {name : Bytes} (hname : ∀ c c' phase, R name c c' → R name c { c' with phase := phase }) :
    PullsFor name (r.Related R) (r.Related R) where
  books _ _ h := h.congr rfl
  asks _ _ _ h := h.congr rfl
  phase _ _ h := h.modifyPeer name fun _ _ hc => hname _ _ _ hc

end

/-! ### A Hello -/

/-- What a Hello does to the context of a peer: it counts no chunk, and starts a pull at most for the peer `name`. -/
def HeardFrom (name : Option Bytes) (n : Bytes) (c c' : PeerCtx) : Prop :=
  c'.roundChunks = c.roundChunks ∧ (name ≠ some n → c.Eases c')

theorem easy_heardFrom (name : Option Bytes) : Easy (HeardFrom name) :=
  fun _ _ _ _ h he => ⟨he.1.trans h.1, fun hne => (h.2 hne).trans he⟩

theorem related_onHello [Libp2p] {env : Env} {pid : PeerId} {resp : HelloResponse} {r r' : Runner}
    (h : onHello env pid resp r = .ok () r') : r.Related (HeardFrom (r.nameForPid env.order pid)) r' := by
  have hrefl : r.Related (HeardFrom (r.nameForPid env.order pid)) r :=
    Runner.related_of_peer (fun _ c => ⟨rfl, fun _ => .refl c⟩) rfl
  suffices hello : Triple (· = r) (onHello env pid resp)
      fun _ s => r.Related (HeardFrom (r.nameForPid env.order pid)) s from hello r rfl () r' h
  refine Triple.get_bind fun s hs => ?_
  subst hs
  have hR := easy_heardFrom (s.nameForPid env.order pid)
  cases hname : s.nameForPid env.order pid with
  | none =>
    rw [hname] at hrefl
    exact Triple.pure fun t ht => ht ▸ hrefl
  | some name =>
    rw [hname] at hR hrefl
    refine Triple.conseq (P := s.Related (HeardFrom (some name))) ?_ (fun t ht => ht ▸ hrefl) fun _ _ h => h
    have heasing := easing_related (r := s) hR
    cases parseKey resp.hostId with
    | none => exact heasing.keeps_phaseSet name rfl
    | some peerPk =>
      refine Keeps.bind (heasing.keeps_checkPin env name pid peerPk fun _ ht => ht.bind hR name fun _ => ⟨rfl, rfl⟩)
        fun ok => Triple.ite (fun _ => ?_) fun _ => Keeps.pure
      refine Keeps.bind (Keeps.get_bind fun _ _ => Triple.modify fun _ ht => ht.congr rfl) fun _ => ?_
      exact (pullsFor_related fun _ _ _ hc => ⟨hc.1, fun hne => absurd rfl hne⟩).triple_queuePulls _

/-! ### A chunk -/

/-- The handler of the chunk calls `apply_synced_batch` for the peer `name`, and at least one record is applied. -/
def Runner.AppliesChunk [Crates] (r : Runner) (env : Env) (pid : PeerId) (recs : Records) (name : Bytes) : Prop :=
  ∃ ns target parsed applied w, r.Accepts env pid recs name ns target parsed ∧
    applySyncedBatch ns parsed r.world = .ok applied w ∧ 0 < applied

def Runner.HasCounted (r : Runner) (name : Bytes) (n : Nat) : Prop := ∃ c, r.peer[name]? = some c ∧ n ≤ c.roundChunks

/-- What an applied chunk does to the context of a peer: it counts for the peer `name`, whatever its phase then is. -/
def Counts (name n : Bytes) (c c' : PeerCtx) : Prop :=
  (n = name → c'.roundChunks = c.roundChunks + 1) ∧ (n ≠ name → c.Eases c')

theorem easy_counts (name : Bytes) : Easy (Counts name) :=
  fun _ _ _ _ h he => ⟨fun heq => he.1.trans (h.1 heq), fun hne => (h.2 hne).trans he⟩

theorem easy_eases : Easy fun _ => PeerCtx.Eases := fun _ _ _ _ h he => h.trans he

section
variable {env : Env} {pid : PeerId} {recs : Records} {r r' : Runner} {name ns : Bytes} {target : Nat}
  {parsed : List Record}

theorem keeps_checkpointAfter (records : Nat) :
    Keeps (fun s => s.peer = r.peer ∧ s.out = r.out ∧ s.world.headSeq ns = r.world.headSeq ns)
      (checkpointAfter records) := by
  refine Keeps.get_bind fun _ _ => Triple.ite (fun _ => ?_) fun _ => Keeps.pure
  refine Keeps.bind (triple_onStore fun s hs => ⟨hs.1, hs.2.1, ?_⟩) fun _ => Keeps.pure
  have hstore := always_checkpoint (I := fun st => st = s.world.store) s.world rfl
  exact (headSeq_of_logs (congrArg Store.logs hstore) ns).trans hs.2.2

/-- A chunk of which something was applied is counted, and at the cap it is the last one the handler asks for. -/
theorem triple_afterApply_counts {applied : Nat} (hpos : 0 < applied) :
    Triple (· = r) (afterApply name ns target parsed (.ok applied)) fun _ s =>
      r.Related (Counts name) s ∧ s.world.headSeq ns = r.world.headSeq ns ∧
        ∀ c, r.peer[name]? = some c → maxChunksPerTick ≤ c.roundChunks + 1 →
          s.out = r.out ∧ ∀ c', s.peer[name]? = some c' → c'.phase.isPulling = false := by
  refine Triple.bind (Q := fun _ s => s.peer = r.peer ∧ s.out = r.out ∧ s.world.headSeq ns = r.world.headSeq ns)
    (Triple.modify fun s hs => by subst hs; exact ⟨rfl, rfl, rfl⟩) fun _ => ?_
  refine Triple.bind (keeps_checkpointAfter parsed.length) fun _ => Triple.get_bind fun s hs => ?_
  obtain ⟨hpeer, hout, hhead⟩ := hs
  rw [if_neg (Nat.ne_of_gt hpos)]
  refine Triple.bind (triple_getCtx (· = s) name) fun c => ?_
  let counted := s.modifyPeer name fun c => { c with roundChunks := c.roundChunks + 1 }
  have hcounted : r.Related (Counts name) counted := by
    intro n
    rw [Runner.peer_modifyPeer, hpeer]
    by_cases hn : name = n
    · rw [if_pos hn]
      cases r.peer[n]? with
      | none => exact .none
      | some c => exact .some ⟨fun _ => rfl, fun hne => absurd hn.symm hne⟩
    · rw [if_neg hn]
      cases r.peer[n]? with
      | none => exact .none
      | some c => exact .some ⟨fun heq => absurd heq.symm hn, fun _ => .refl c⟩
  have hworld : counted.world = s.world ∧ counted.out = s.out := s.world_modifyPeer name _
  refine Triple.bind (Q := fun _ t => t = counted ∧ s.peer[name]? = some c) (Triple.modify fun t ht => ?_) fun _ => ?_
  · obtain ⟨rfl, hc⟩ := ht
    exact ⟨rfl, hc⟩
  refine Triple.ite (fun _ => Triple.modify fun t ht => ?_) fun hbelow => ?_
  · -- the cap is reached
    obtain ⟨rfl, -⟩ := ht
    have hset := counted.world_modifyPeer name fun c => { c with phase := .done }
    refine ⟨hcounted.modifyPeer name fun _ _ h => easy_counts name _ _ _ _ h ⟨rfl, .inr rfl⟩, ?_, fun _ _ _ => ⟨?_, ?_⟩⟩
    · rw [hset.1, hworld.1, hhead]
    · rw [hset.2, hworld.2, hout]
    · intro c' hc'
      rw [Runner.peer_modifyPeer, if_pos rfl] at hc'
      obtain ⟨_, -, rfl⟩ := Option.map_eq_some_iff.1 hc'
      rfl
  · intro t ht a t' hrun
    obtain ⟨rfl, hc⟩ := ht
    have hpulls : PullsFor name (r.Related (Counts name)) (r.Related (Counts name)) :=
      pullsFor_related fun _ _ _ h => ⟨h.1, fun hne => absurd rfl hne⟩
    have hrelated := hpulls.triple_nextPull ns target _ counted hcounted a t' hrun
    have hat := (always_at_nextPull name ns target _).keeps counted ⟨rfl, rfl⟩ a t' hrun
    refine ⟨hrelated, ?_, fun c0 hc0 hcap => ?_⟩
    · rw [hat.1, hworld.1, hhead]
    · rw [hpeer, hc0] at hc
      cases hc
      exact absurd hcap hbelow

theorem triple_afterApply_eases {res : Except StorageError Nat} (hres : ∀ applied, res = .ok applied → applied = 0) :
    Triple (· = r) (afterApply name ns target parsed res)
      fun _ s => r.Related (fun _ => PeerCtx.Eases) s ∧ s.out = r.out := by
  have hset : ∀ phase : Phase, phase.isPulling = false →
      Triple (fun s => s.peer = r.peer ∧ s.out = r.out) (phaseSet name phase)
        fun _ s => r.Related (fun _ => PeerCtx.Eases) s ∧ s.out = r.out := by
    intro phase hphase
    refine Triple.modify fun s hs => ⟨?_, (s.world_modifyPeer name _).2.trans hs.2⟩
    refine (Runner.related_of_peer (fun _ => .refl) hs.1).modifyPeer name fun _ _ h => ?_
    exact h.trans ⟨rfl, .inr hphase⟩
  cases res with
  | error e => exact (hset _ rfl).conseq (fun s hs => by subst hs; exact ⟨rfl, rfl⟩) fun _ _ h => h
  | ok applied =>
    refine Triple.bind (Q := fun _ s => s.peer = r.peer ∧ s.out = r.out ∧ s.world.headSeq ns = r.world.headSeq ns)
      (Triple.modify fun s hs => by subst hs; exact ⟨rfl, rfl, rfl⟩) fun _ => ?_
    refine Triple.bind (keeps_checkpointAfter parsed.length) fun _ => Triple.get_bind fun s hs => ?_
    rw [if_pos (hres applied rfl)]
    exact (hset _ rfl).conseq (fun t ht => by subst ht; exact ⟨hs.1, hs.2.1⟩) fun _ _ h => h

variable [Crates]

/-- A chunk of which nothing is applied starts nothing; one of which something is applied is counted, has moved the
head of its namespace, and is not followed by a pull where the cap is reached. -/
theorem onRecords_outcome (h : onRecords env pid recs r = .ok () r') :
    (r.Related (fun _ => PeerCtx.Eases) r' ∧ r'.out = r.out ∧ ∀ name, ¬ r.AppliesChunk env pid recs name) ∨
      ∃ name, r.AppliesChunk env pid recs name ∧ r.Related (Counts name) r' ∧
        r.world.headSeq recs.ns < r'.world.headSeq recs.ns ∧
        ∀ c, r.peer[name]? = some c → maxChunksPerTick ≤ c.roundChunks + 1 →
          r'.out = r.out ∧ ∀ c', r'.peer[name]? = some c' → c'.phase.isPulling = false := by
  rw [onRecords] at h
  cases hcheck : checkRecords env pid recs r with
  | error e s =>
    rw [Exec.bind_error hcheck] at h
    cases h
  | ok res s =>
    rw [Exec.bind_ok hcheck] at h
    obtain ⟨rfl, hs⟩ | ⟨name, ns, target, parsed, rfl, rfl, haccepts⟩ := checkRecords_cases hcheck
    · cases h
      have hnone : ∀ name, ¬ r.AppliesChunk env pid recs name := by
        rintro name ⟨ns, target, parsed, applied, w, haccepts, -⟩
        rw [checkRecords_of_accepts haccepts] at hcheck
        cases hcheck
      have hrefl : r.Related (fun _ => PeerCtx.Eases) r := Runner.related_of_peer (fun _ => .refl) rfl
      obtain rfl | ⟨name, phase, hphase, rfl⟩ := hs
      · exact .inl ⟨hrefl, rfl, hnone⟩
      · refine .inl ⟨hrefl.modifyPeer name fun _ _ h => h.trans ⟨rfl, .inr ?_⟩, (r.world_modifyPeer name _).2, hnone⟩
        rcases hphase with rfl | rfl <;> rfl
    · change applyPulled name ns target parsed s = .ok () r' at h
      rw [applyPulled_eq] at h
      -- the chunk that is applied is the one that was accepted
      have hunique : ∀ name', s.AppliesChunk env pid recs name' →
          ∃ applied w, applySyncedBatch ns parsed s.world = .ok applied w ∧ 0 < applied := by
        rintro name' ⟨ns', target', parsed', applied, w, haccepts', happly, hpos⟩
        have heq := (checkRecords_of_accepts haccepts).symm.trans (checkRecords_of_accepts haccepts')
        cases heq
        exact ⟨applied, w, happly, hpos⟩
      cases happly : applySyncedBatch ns parsed s.world with
      | ok applied w =>
        have hstore : onStore (applySyncedBatch ns parsed) s = .ok (.ok applied) { s with world := w } := by
          rw [onStore, happly]
        rw [Exec.bind_ok hstore] at h
        by_cases hpos : 0 < applied
        · obtain ⟨hrelated, hhead, hcap⟩ := triple_afterApply_counts hpos { s with world := w } rfl () r' h
          refine .inr ⟨name, ⟨ns, target, parsed, applied, w, haccepts, happly, hpos⟩, hrelated, ?_, hcap⟩
          rw [haccepts.records, hhead]
          rw [headSeq_applySyncedBatch happly]
          omega
        · have hzero : ∀ n, (Except.ok applied : Except StorageError Nat) = .ok n → n = 0 := by
            rintro n ⟨⟩
            omega
          obtain ⟨hrelated, hout⟩ := triple_afterApply_eases hzero { s with world := w } rfl () r' h
          refine .inl ⟨hrelated, hout, fun name' happlies => ?_⟩
          obtain ⟨n, w', hn, hpos'⟩ := hunique name' happlies
          rw [happly] at hn
          cases hn
          exact hpos hpos'
      | error e w =>
        cases e with
        | panic detail =>
          have hstore : onStore (applySyncedBatch ns parsed) s = .error detail { s with world := w } := by
            rw [onStore, happly]
          rw [Exec.bind_error hstore] at h
          cases h
        | err e =>
          have hstore : onStore (applySyncedBatch ns parsed) s = .ok (.error e) { s with world := w } := by
            rw [onStore, happly]
          rw [Exec.bind_ok hstore] at h
          obtain ⟨hrelated, hout⟩ := triple_afterApply_eases (by simp) { s with world := w } rfl () r' h
          refine .inl ⟨hrelated, hout, fun name' happlies => ?_⟩
          obtain ⟨n, w', hn, -⟩ := hunique name' happlies
          rw [happly] at hn
          cases hn

end

/-! ### One event -/

def NetEvent.isQuiet : NetEvent → Bool
  | .kickAll | .response _ (.hello _) | .response _ (.records _) => false
  | _ => true

def Runner.NoPulls (r : Runner) : Prop := ∀ p ns fromSeq, .request p (.pull ns fromSeq) ∉ r.out

theorem Runner.NoPulls.emit {r : Runner} (h : r.NoPulls) {o : Out} (ho : ∀ p ns fromSeq, o ≠ .request p (.pull ns fromSeq)) :
    { r with out := r.out ++ [o] }.NoPulls := by
  intro p ns fromSeq hmem
  rcases List.mem_append.1 hmem with hold | hnew
  · exact h p ns fromSeq hold
  · exact ho p ns fromSeq (List.mem_singleton.1 hnew).symm

theorem routine_noPulls : RoundRoutine Runner.NoPulls where
  books r r' _ hout _ _ h := by
    unfold Runner.NoPulls
    rwa [hout]
  context r name f _ _ h := by
    unfold Runner.NoPulls
    rwa [(r.world_modifyPeer name f).2]
  added _ _ _ _ h := h
  dialsFailed _ h := h
  message r o ho h := h.emit fun p ns fromSeq heq => by
    subst heq
    cases ho

section
variable [Crates] [Libp2p]

variable {e : NetEvent} {R : Bytes → PeerCtx → PeerCtx → Prop} {env : Env} {pid : PeerId} {recs : Records}

theorem Easing.keeps_quiet {I : Runner → Prop} (hI : Easing I)
    (hbind : ∀ (r : Runner) name pid, I r → I (r.modifyPeer name fun c => { c with pid := some pid }))
    (hserve : ∀ ns fromSeq, Keeps I (servePull ns fromSeq)) (hedit : ∀ (r : Runner) world, I r → I { r with world := world })
    (env : Env) (h : e.isQuiet = true) : Keeps I (handle env e) := by
  refine hI.triple_handle (fun _ h => h) env ?_ (fun pid addr _ => ?_) (fun pid req _ => ?_) ?_ ?_ ?_
  · rintro rfl
    cases h
  · exact hI.keeps_onEstablished env pid addr fun r name => hbind r name pid
  · exact hI.keeps_onRequest env pid fun ns fromSeq _ => hserve ns fromSeq
  · rintro pid resp rfl
    cases h
  · rintro pid recs rfl
    cases h
  · exact fun world _ r => hedit r world

theorem keeps_related_handle (hR : Easy R) {r : Runner} (env : Env)
    (h : e.isQuiet = true) : Keeps (r.Related R) (handle env e) := by
  refine (easing_related hR).keeps_quiet (fun _ name _ hs => hs.bind hR name fun _ => ⟨rfl, rfl⟩) (fun ns fromSeq => ?_)
    (fun _ _ hs => hs.congr rfl) env h
  exact Keeps.bind (triple_onStore fun _ hs => hs.congr rfl) fun _ => Triple.modify fun _ hs => hs.congr rfl

theorem keeps_noPulls_handle (env : Env) (h : e.isQuiet = true) : Keeps Runner.NoPulls (handle env e) := by
  refine routine_noPulls.easing.keeps_quiet (fun r name pid hr => ?_) (fun ns fromSeq => ?_) (fun _ _ hr => hr) env h
  · unfold Runner.NoPulls
    rwa [(r.world_modifyPeer name _).2]
  · exact Keeps.bind (triple_onStore fun _ hr => hr) fun _ => Triple.modify fun _ hr => hr.emit (by simp)

def Runner.HearsHello (r : Runner) (x : Env × NetEvent) (name : Bytes) : Prop :=
  ∃ pid resp, x.2 = .response pid (.hello resp) ∧ r.nameForPid x.1.order pid = some name

def Runner.TakesChunk (r : Runner) (x : Env × NetEvent) (name : Bytes) : Prop :=
  ∃ pid recs, x.2 = .response pid (.records recs) ∧ r.AppliesChunk x.1 pid recs name

/-- What an event other than `kick_all` can do to the peers. -/
inductive Runner.Move (r : Runner) (x : Env × NetEvent) (r' : Runner) : Prop where
  | quiet (eases : r.Related (fun _ => PeerCtx.Eases) r') (noHello : ∀ pid resp, x.2 ≠ .response pid (.hello resp))
      (noChunk : ∀ name, ¬ r.TakesChunk x name) (noPulls : r'.NoPulls)
  | hello {pid : PeerId} {resp : HelloResponse} (event : x.2 = .response pid (.hello resp))
      (heard : r.Related (HeardFrom (r.nameForPid x.1.order pid)) r')
  | chunk {pid : PeerId} {recs : Records} {name : Bytes} (event : x.2 = .response pid (.records recs))
      (applies : r.AppliesChunk x.1 pid recs name) (counts : r.Related (Counts name) r')
      (head : r.world.headSeq recs.ns < r'.world.headSeq recs.ns)
      (cap : ∀ c, r.peer[name]? = some c → maxChunksPerTick ≤ c.roundChunks + 1 →
        r'.NoPulls ∧ ∀ c', r'.peer[name]? = some c' → c'.phase.isPulling = false)

omit [Libp2p] in
theorem Runner.appliesChunk_clear {r : Runner} {name : Bytes} :
    { r with out := [] }.AppliesChunk env pid recs name ↔ r.AppliesChunk env pid recs name := by
  constructor
  · rintro ⟨ns, target, parsed, applied, w, haccepts, happly⟩
    exact ⟨ns, target, parsed, applied, w,
      ⟨haccepts.bound, haccepts.pulling, haccepts.records, haccepts.allowed, haccepts.verified⟩, happly⟩
  · rintro ⟨ns, target, parsed, applied, w, haccepts, happly⟩
    exact ⟨ns, target, parsed, applied, w,
      ⟨haccepts.bound, haccepts.pulling, haccepts.records, haccepts.allowed, haccepts.verified⟩, happly⟩

theorem NetStep.move {r r' : Runner} {x : Env × NetEvent} (h : NetStep r x r') (hkick : x.2 ≠ .kickAll) : r.Move x r' := by
  obtain ⟨env, e⟩ := x
  have hrun := h.2
  have hclear : { r with out := [] }.NoPulls := fun _ _ _ hmem => List.not_mem_nil hmem
  by_cases hquiet : e.isQuiet = true
  · have hrefl : r.Related (fun _ => PeerCtx.Eases) { r with out := [] } := Runner.related_of_peer (fun _ => .refl) rfl
    refine .quiet (keeps_related_handle easy_eases env hquiet _ hrefl () r' hrun) ?_ ?_
      (keeps_noPulls_handle env hquiet _ hclear () r' hrun)
    · rintro pid resp rfl
      cases hquiet
    · rintro name ⟨pid, recs, rfl, -⟩
      cases hquiet
  · cases e with
    | kickAll => exact absurd rfl hkick
    | response pid resp =>
      cases resp with
      | hello resp =>
        have heard := related_onHello (r := { r with out := [] }) hrun
        exact .hello rfl heard
      | records recs =>
        obtain ⟨heases, hout, hnone⟩ | ⟨name, happlies, hcounts, hhead, hcap⟩ := onRecords_outcome hrun
        · refine .quiet heases (fun _ _ heq => by cases heq) ?_ ?_
          · rintro name ⟨pid', recs', heq, happlies⟩
            cases heq
            exact hnone name (Runner.appliesChunk_clear.2 happlies)
          · unfold Runner.NoPulls
            rwa [hout]
        · refine .chunk rfl (Runner.appliesChunk_clear.1 happlies) hcounts hhead fun c hc hmax => ?_
          obtain ⟨hout, hphase⟩ := hcap c hc hmax
          refine ⟨?_, hphase⟩
          unfold Runner.NoPulls
          rwa [hout]
      | denied => exact absurd rfl hquiet
    | _ => exact absurd rfl hquiet

/-! ### An interval -/

/-- The chunks the peer can still make us apply before it says Hello again. -/
def PeerCtx.budget (c : PeerCtx) : Nat := max (maxChunksPerTick - c.roundChunks) (if c.phase.isPulling then 1 else 0)

def Runner.budget (r : Runner) (name : Bytes) : Nat := (r.peer[name]?).elim 0 PeerCtx.budget

/-- An interval without `kick_all`, with the chunks applied and the Hellos handled in it under one name. -/
structure Tally where
  runner : Runner
  chunks : Nat
  hellos : Nat

structure Tally.Step (name : Bytes) (t : Tally) (x : Env × NetEvent) (t' : Tally) : Prop where
  between : x.2 ≠ .kickAll
  step : NetStep t.runner x t'.runner
  chunks : t.runner.TakesChunk x name ∧ t'.chunks = t.chunks + 1 ∨ ¬ t.runner.TakesChunk x name ∧ t'.chunks = t.chunks
  hellos : t.runner.HearsHello x name ∧ t'.hellos = t.hellos + 1 ∨ ¬ t.runner.HearsHello x name ∧ t'.hellos = t.hellos

section
omit [Crates] [Libp2p]

theorem PeerCtx.budget_le (c : PeerCtx) : c.budget ≤ maxChunksPerTick := by
  have hmax : 1 ≤ maxChunksPerTick := by decide
  unfold PeerCtx.budget
  split <;> omega

theorem PeerCtx.Eases.budget_le {c c' : PeerCtx} (h : c.Eases c') : c'.budget ≤ c.budget := by
  obtain ⟨hchunks, hphase⟩ := h
  unfold PeerCtx.budget
  rw [hchunks]
  rcases hphase with heq | hno
  · rw [heq]
  · rw [hno]
    simp

theorem Runner.Related.budget_le {r r' : Runner} (h : r.Related R r') (name : Bytes)
    (more : Nat) (hR : ∀ c c', R name c c' → c'.budget ≤ c.budget + more) :
    r'.budget name ≤ r.budget name + more := by
  have hname := h name
  unfold Runner.budget
  cases hc : r.peer[name]? with
  | none =>
    rw [hc] at hname
    generalize hafter : r'.peer[name]? = after at hname
    cases hname
    exact Nat.zero_le _
  | some c =>
    rw [hc] at hname
    generalize hafter : r'.peer[name]? = after at hname
    cases hname with
    | some hrel => exact hR _ _ hrel

theorem HeardFrom.budget_le {o : Option Bytes} {name : Bytes} {c c' : PeerCtx} (h : HeardFrom o name c c') :
    c'.budget ≤ c.budget + 1 := by
  unfold PeerCtx.budget
  rw [h.1]
  split <;> omega

end

variable {r r' : Runner} {x : Env × NetEvent} {name : Bytes}

omit [Libp2p] in
theorem Runner.AppliesChunk.name_eq {name' : Bytes}
    (h : r.AppliesChunk env pid recs name) (h' : r.AppliesChunk env pid recs name') : name' = name := by
  obtain ⟨_, _, _, _, _, haccepts, -⟩ := h
  obtain ⟨_, _, _, _, _, haccepts', -⟩ := h'
  exact Option.some_inj.1 (haccepts'.bound.symm.trans haccepts.bound)

omit [Libp2p] in
theorem Runner.AppliesChunk.pulling (h : r.AppliesChunk env pid recs name) :
    ∃ c, r.peer[name]? = some c ∧ c.phase.isPulling = true := by
  obtain ⟨ns, target, _, _, _, haccepts, -⟩ := h
  obtain ⟨c, hc, hphase⟩ := Option.map_eq_some_iff.1 haccepts.pulling
  exact ⟨c, hc, by rw [hphase]; rfl⟩

theorem Tally.Step.budget {t t' : Tally} (h : Tally.Step name t x t') :
    t'.chunks + t'.runner.budget name + t.hellos ≤ t.chunks + t.runner.budget name + t'.hellos := by
  have hhellos : t.hellos ≤ t'.hellos := by
    rcases h.hellos with ⟨_, heq⟩ | ⟨_, heq⟩ <;> omega
  -- a chunk that is not applied under this name
  have hother : ¬ t.runner.TakesChunk x name → t'.chunks = t.chunks := fun hno =>
    (h.chunks.resolve_left fun hyes => hno hyes.1).2
  cases h.step.move h.between with
  | quiet eases _ noChunk _ =>
    have hbudget := eases.budget_le name 0 fun _ _ hc => hc.budget_le
    have hchunks := hother (noChunk name)
    omega
  | @hello pid resp event heard =>
    have hchunks : t'.chunks = t.chunks := by
      refine hother ?_
      rintro ⟨_, _, hrecords, -⟩
      rw [event] at hrecords
      cases hrecords
    rcases h.hellos with ⟨_, hcount⟩ | ⟨hno, hcount⟩
    · have hbudget := heard.budget_le name 1 fun _ _ hc => hc.budget_le
      omega
    · have hne : t.runner.nameForPid x.1.order pid ≠ some name := fun heq => hno ⟨pid, resp, event, heq⟩
      have hbudget := heard.budget_le name 0 fun _ _ hc => (hc.2 hne).budget_le
      omega
  | @chunk pid recs name' event applies counts _ cap =>
    by_cases hname : name = name'
    · subst hname
      have htakes : t.runner.TakesChunk x name := ⟨pid, recs, event, applies⟩
      have hchunks : t'.chunks = t.chunks + 1 := (h.chunks.resolve_right fun hno => hno.1 htakes).2
      obtain ⟨c, hc, hpulling⟩ := applies.pulling
      have hname := counts name
      rw [hc] at hname
      generalize hafter : t'.runner.peer[name]? = after at hname
      cases hname with
      | @some _ c' hcounts =>
        have hspent : c'.budget + 1 ≤ c.budget := by
          have hround := hcounts.1 rfl
          unfold PeerCtx.budget
          rw [hround, hpulling, if_pos rfl]
          by_cases hcap : maxChunksPerTick ≤ c.roundChunks + 1
          · rw [(cap c hc hcap).2 c' hafter]
            simp only [Bool.false_eq_true, if_false]
            omega
          · split <;> omega
        have hbudget : t'.runner.budget name + 1 ≤ t.runner.budget name := by
          rw [Runner.budget, Runner.budget, hc, hafter]
          exact hspent
        omega
    · have hchunks : t'.chunks = t.chunks := by
        refine hother ?_
        rintro ⟨_, _, hrecords, happlies⟩
        rw [event] at hrecords
        cases hrecords
        exact hname (applies.name_eq happlies)
      have hbudget := counts.budget_le name 0 fun _ _ hc => (hc.2 hname).budget_le
      omega

omit [Crates] [Libp2p] in
theorem Runner.HasCounted.of_related {n : Nat} (h : r.HasCounted name n)
    (hrelated : r.Related R r') (more : Nat) (hR : ∀ c c', R name c c' → c.roundChunks + more ≤ c'.roundChunks) :
    r'.HasCounted name (n + more) := by
  obtain ⟨c, hc, hn⟩ := h
  have hname := hrelated name
  rw [hc] at hname
  generalize hafter : r'.peer[name]? = after at hname
  cases hname with
  | some hrel => exact ⟨_, hafter, (Nat.add_le_add_right hn more).trans (hR _ _ hrel)⟩

theorem NetStep.hasCounted {n : Nat} (h : NetStep r x r') (hkick : x.2 ≠ .kickAll) (hn : r.HasCounted name n) :
    r'.HasCounted name n := by
  cases h.move hkick with
  | quiet eases _ _ _ => exact hn.of_related eases 0 fun _ _ hc => hc.1.ge
  | hello _ heard => exact hn.of_related heard 0 fun _ _ hc => hc.1.ge
  | @chunk _ _ name' _ _ counts _ _ =>
    refine hn.of_related counts 0 fun c c' hc => ?_
    by_cases hname : name = name'
    · have := hc.1 hname
      omega
    · exact (hc.2 hname).1.ge

theorem Tally.Step.hasCounted {t t' : Tally} (h : Tally.Step name t x t')
    (ht : t.chunks = 0 ∨ t.runner.HasCounted name t.chunks) : t'.chunks = 0 ∨ t'.runner.HasCounted name t'.chunks := by
  rcases h.chunks with ⟨htakes, hchunks⟩ | ⟨-, hchunks⟩
  · obtain ⟨pid, recs, hevent, happlies⟩ := htakes
    have hbefore : t.runner.HasCounted name t.chunks := by
      refine ht.elim (fun hzero => ?_) id
      obtain ⟨c, hc, -⟩ := happlies.pulling
      exact ⟨c, hc, hzero ▸ Nat.zero_le _⟩
    rw [hchunks]
    cases h.step.move h.between with
    | quiet _ _ noChunk _ => exact absurd ⟨pid, recs, hevent, happlies⟩ (noChunk name)
    | hello event _ =>
      rw [hevent] at event
      cases event
    | chunk event applies counts _ _ =>
      rw [hevent] at event
      cases event
      refine .inr (hbefore.of_related counts 1 fun c c' hc => ?_)
      exact (hc.1 (applies.name_eq happlies)).ge
  · rw [hchunks]
    exact ht.imp_right (h.step.hasCounted h.between)

theorem NetStep.pull_of_capped (h : NetStep r x r') (hkick : x.2 ≠ .kickAll) (hcap : r.HasCounted name maxChunksPerTick)
    {p : PeerId} {ns : Bytes} {fromSeq : Nat} (hpull : .request p (.pull ns fromSeq) ∈ r'.out) :
    (∃ pid resp, x.2 = .response pid (.hello resp)) ∨ ∃ other, other ≠ name ∧ r.TakesChunk x other := by
  cases h.move hkick with
  | quiet _ _ _ noPulls => exact absurd hpull (noPulls p ns fromSeq)
  | hello event _ => exact .inl ⟨_, _, event⟩
  | @chunk pid recs name' event applies _ _ cap =>
    refine .inr ⟨name', ?_, pid, recs, event, applies⟩
    rintro rfl
    obtain ⟨c, hc, hmax⟩ := hcap
    exact (cap c hc (by omega)).1 p ns fromSeq hpull

theorem NetStep.head_of_pull (h : NetStep r x r')
    (hevent : x.2 = .response pid (.records recs)) {p : PeerId} {ns : Bytes} {fromSeq : Nat}
    (hpull : .request p (.pull ns fromSeq) ∈ r'.out) : r.world.headSeq recs.ns < r'.world.headSeq recs.ns := by
  have hkick : x.2 ≠ .kickAll := by
    rw [hevent]
    exact fun heq => by cases heq
  cases h.move hkick with
  | quiet _ _ _ noPulls => exact absurd hpull (noPulls p ns fromSeq)
  | hello event _ =>
    rw [hevent] at event
    cases event
  | chunk event _ _ head _ =>
    rw [hevent] at event
    cases event
    exact head

/-- In an interval without `kick_all` that begins anywhere, a peer has at most `maxChunksPerTick` chunks applied and one
more for every Hello handled under its name; `on_records` asks for another chunk of a namespace only where the last one
has moved its head; and once the cap is reached, by the chunks of this interval or with earlier ones of the tick, every
pull up to the next `kick_all` replies to a Hello or follows a chunk of another peer. -/
theorem tick_bounded {events : List (Env × NetEvent)} {t : Tally} (hrun : Run (Tally.Step name) ⟨r, 0, 0⟩ events t) :
    t.chunks ≤ maxChunksPerTick + t.hellos ∧
    (∀ x r' pid recs, NetStep t.runner x r' → x.2 = .response pid (.records recs) →
      ∀ p fromSeq, .request p (.pull recs.ns fromSeq) ∈ r'.out →
        t.runner.world.headSeq recs.ns < r'.world.headSeq recs.ns) ∧
    (maxChunksPerTick ≤ t.chunks ∨ t.runner.HasCounted name maxChunksPerTick →
      ∀ later s x s', Run (guarded (fun _ x => x.2 ≠ .kickAll) NetStep) t.runner later s → x.2 ≠ .kickAll →
        NetStep s x s' → ∀ p ns fromSeq, .request p (.pull ns fromSeq) ∈ s'.out →
          (∃ pid resp, x.2 = .response pid (.hello resp)) ∨ ∃ other, other ≠ name ∧ s.TakesChunk x other) := by
  refine ⟨?_, fun x r' pid recs hstep hevent p fromSeq hpull => hstep.head_of_pull hevent hpull, ?_⟩
  · have hbudget : t.chunks + t.runner.budget name ≤ maxChunksPerTick + t.hellos := by
      refine hrun.invariant (I := fun t => t.chunks + t.runner.budget name ≤ maxChunksPerTick + t.hellos) ?_ ?_
      · intro t x t' ht hstep
        have := hstep.budget
        omega
      · change 0 + r.budget name ≤ maxChunksPerTick + 0
        unfold Runner.budget
        cases r.peer[name]? with
        | none => exact Nat.zero_le _
        | some c => simpa using c.budget_le
    omega
  · intro hcap later s x s' hlater hkick hstep p ns fromSeq hpull
    have hcounted : t.chunks = 0 ∨ t.runner.HasCounted name t.chunks :=
      hrun.invariant (I := fun t => t.chunks = 0 ∨ t.runner.HasCounted name t.chunks)
        (fun _ _ _ ht hstep => hstep.hasCounted ht) (.inl rfl)
    have hcapped : t.runner.HasCounted name maxChunksPerTick := by
      refine hcap.elim (fun hmax => ?_) id
      obtain ⟨c, hc, hn⟩ := hcounted.resolve_left (by
        have : 0 < maxChunksPerTick := by decide
        omega)
      exact ⟨c, hc, hmax.trans hn⟩
    have hstill : s.HasCounted name maxChunksPerTick :=
      hlater.invariant (I := fun s => s.HasCounted name maxChunksPerTick)
        (fun _ _ _ hs hstep => hstep.2.hasCounted hstep.1 hs) hcapped
    exact hstep.pull_of_capped hkick hstill hpull

end

set_option synthInstance.maxSize 10000

set_option maxRecDepth 100000 in
/-- The peer is dialled, says Hello and sends the record it is asked for. -/
theorem tick_bounded_one_chunk : letI := Crates.trivial; letI := Libp2p.trivial
    ∃ (r₀ r : Runner) (t : Tally), pinnedNode (.fill 7) = some r₀ ∧ NetStep r₀ (quietEnv [], .kickAll) r ∧
      Run (Tally.Step [98]) ⟨r, 0, 0⟩ ((helloEvents ⟨(Bytes32.fill 7).val⟩ (.fill 7)).drop 1 ++ [chunkEvent]) t ∧
      t.chunks = 1 ∧ t.hellos = 1 ∧ t.chunks ≤ maxChunksPerTick + t.hellos := by
  have h : letI := Crates.trivial; letI := Libp2p.trivial
      ∃ r₀ ∈ pinnedNode (.fill 7), ∃ r ∈ netRun (fun _ _ => True) r₀ [(quietEnv [], .kickAll)],
      ∃ r₁ ∈ netRun (fun _ _ => True) r [(quietEnv [[98]], .established ⟨(Bytes32.fill 7).val⟩ (some [120]))],
        r₁.nameForPid [[98]] ⟨(Bytes32.fill 7).val⟩ = some [98] ∧
        ∃ r₂ ∈ netRun (fun _ _ => True) r₁ [(quietEnv [[98]],
          .response ⟨(Bytes32.fill 7).val⟩ (.hello ⟨showKey (.fill 7), 0, [⟨[97], 1, []⟩]⟩))],
        (∃ x ∈ Exec.okResult (checkRecords (quietEnv [[98]]) ⟨(Bytes32.fill 7).val⟩ offeredRecords r₂),
          x.1 = some ([98], [97], 1, [putRecord [1] [10] 1 .zero .zero 0])) ∧
        (∃ x ∈ Exec.okResult (applySyncedBatch [97] [putRecord [1] [10] 1 .zero .zero 0] r₂.world), x.1 = 1) ∧
        ∃ r₃ ∈ netRun (fun _ _ => True) r₂ [chunkEvent], True := by
    decide +kernel
  let _ := Crates.trivial
  let _ := Libp2p.trivial
  obtain ⟨r₀, hnode, r, hr, r₁, hr₁, hname, r₂, hr₂, ⟨⟨res, s⟩, hcheck, rfl⟩, ⟨⟨applied, w⟩, happly, rfl⟩, r₃, hr₃, -⟩ := h
  have htakes : r₂.TakesChunk chunkEvent [98] := by
    obtain ⟨hnone, -⟩ | ⟨_, _, _, _, heq, -, haccepts⟩ := checkRecords_cases (Exec.okResult_eq_some.1 hcheck)
    · cases hnone
    · cases heq
      exact ⟨_, _, rfl, _, _, _, 1, w, haccepts, Exec.okResult_eq_some.1 happly, Nat.one_pos⟩
  have hdialed : Tally.Step [98] ⟨r, 0, 0⟩
      (quietEnv [[98]], .established ⟨(Bytes32.fill 7).val⟩ (some [120])) ⟨r₁, 0, 0⟩ := by
    refine ⟨by simp, netStep_of_netRun hr₁, .inr ⟨?_, rfl⟩, .inr ⟨?_, rfl⟩⟩
    · rintro ⟨_, _, heq, -⟩
      cases heq
    · rintro ⟨_, _, heq, -⟩
      cases heq
  have hhello : Tally.Step [98] ⟨r₁, 0, 0⟩ (quietEnv [[98]],
      .response ⟨(Bytes32.fill 7).val⟩ (.hello ⟨showKey (.fill 7), 0, [⟨[97], 1, []⟩]⟩)) ⟨r₂, 0, 1⟩ := by
    refine ⟨by simp, netStep_of_netRun hr₂, .inr ⟨?_, rfl⟩, .inl ⟨⟨_, _, rfl, hname⟩, rfl⟩⟩
    rintro ⟨_, _, heq, -⟩
    cases heq
  have hchunk : Tally.Step [98] ⟨r₂, 0, 1⟩ chunkEvent ⟨r₃, 1, 1⟩ := by
    refine ⟨by simp [chunkEvent], netStep_of_netRun hr₃, .inl ⟨htakes, rfl⟩, .inr ⟨?_, rfl⟩⟩
    rintro ⟨_, _, heq, -⟩
    cases heq
  have hrun := Run.cons hdialed (.cons hhello (.single hchunk))
  exact ⟨r₀, r, _, hnode, netStep_of_netRun hr, hrun, rfl, rfl, (tick_bounded hrun).1⟩

end BunnyMesh
