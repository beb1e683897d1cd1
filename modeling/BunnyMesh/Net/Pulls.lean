import BunnyMesh.Net.Routine
import BunnyMesh.Storage.Runs

/-!
# Pulls and their answers

What a handler does to the log of one namespace, and what it tells a peer about it.  A pull asks from the end of the log
on, the answer to it is a piece of the log from there, and only an answer that is applied extends the log.
-/

namespace BunnyMesh

open Std
open Exec (Triple Keeps)

section

variable [Crates]

/-! ### What a chunk carries -/

def Records.Carries (recs : Records) (rs : List Record) : Prop :=
  ∃ batch, decodeRecs recs.records = .ok batch ∧ verifyBatch batch = .ok rs

theorem verifyFrom_cons {prevHash : Option Bytes32} {seq : Nat} {bytes : Bytes} {rest : List (Nat × Bytes)} {r : Record}
    {prev : Bytes32} (h : parseChain bytes prevHash = .ok (r, prev)) :
    verifyFrom prevHash ((seq, bytes) :: rest) = (verifyFrom (some (recordHash prev bytes)) rest).map (r :: ·) := by
  rw [verifyFrom, h]
  dsimp only
  rw [if_pos (parseChain_wellFormed h).1.tag]
  cases verifyFrom (some (recordHash prev bytes)) rest <;> rfl

variable {bs : List Bytes} {rs : List Record}

theorem verifyFrom_of_chained {head : Bytes32} (h : Chained head bs rs) (seq : Nat) :
    verifyFrom (some head) (numberFrom seq bs) = .ok rs := by
  induction h generalizing seq with
  | nil => rfl
  | cons parsed _ ih =>
    rw [numberFrom, verifyFrom_cons parsed, ih]
    rfl

theorem verifyBatch_of_chained {head : Bytes32} (h : Chained head bs rs) (seq : Nat) :
    verifyBatch (numberFrom seq bs) = .ok rs := by
  cases h with
  | nil => rfl
  | cons parsed rest =>
    rw [verifyBatch, numberFrom, verifyFrom_cons (parseChain_none parsed), verifyFrom_of_chained rest]
    rfl

theorem verifyFrom_wellFormed {prevHash : Option Bytes32} {batch : List (Nat × Bytes)}
    (h : verifyFrom prevHash batch = .ok rs) : ∀ r ∈ rs, r.WellFormed := by
  induction batch generalizing prevHash rs with
  | nil =>
    cases h
    simp
  | cons x batch ih =>
    obtain ⟨seq, bytes⟩ := x
    cases hparse : parseChain bytes prevHash with
    | error e =>
      rw [verifyFrom, hparse] at h
      cases e <;> cases h
    | ok y =>
      obtain ⟨r, prev⟩ := y
      rw [verifyFrom_cons hparse] at h
      cases hrest : verifyFrom (some (recordHash prev bytes)) batch with
      | error e => rw [hrest] at h; cases h
      | ok rs' =>
        rw [hrest] at h
        cases h
        exact List.forall_mem_cons.2 ⟨(parseChain_wellFormed hparse).1, ih hrest⟩

theorem Records.Carries.wellFormed {recs : Records} (h : recs.Carries rs) : ∀ r ∈ rs, r.WellFormed := by
  obtain ⟨_, _, hverify⟩ := h
  exact verifyFrom_wellFormed hverify

theorem Records.Carries.unique {recs : Records} {rs' : List Record} (h : recs.Carries rs) (h' : recs.Carries rs') :
    rs = rs' := by
  obtain ⟨batch, hdecode, hverify⟩ := h
  obtain ⟨batch', hdecode', hverify'⟩ := h'
  rw [hdecode] at hdecode'
  cases hdecode'
  rw [hverify] at hverify'
  cases hverify'
  rfl

theorem Records.carries_nil (ns : Bytes) : Records.Carries ⟨ns, []⟩ [] := ⟨[], rfl, rfl⟩

/-! ### Honest messages -/

/-- A pull of `ns` asks from no further than behind the `n` records of the log. -/
def SyncRequest.Asks (ns : Bytes) (n : Nat) : SyncRequest → Prop
  | .pull m fromSeq => m = ns → 1 ≤ fromSeq ∧ fromSeq ≤ n + 1
  | .hello => True

/-- A chunk of `ns` is a piece of the log `l` from `start` on. -/
def SyncResponse.Answers (ns : Bytes) (l : List Record) (start : Nat) : SyncResponse → Prop
  | .records recs => recs.ns = ns → ∃ rs, recs.Carries rs ∧ rs <+: l.drop start
  | .hello _ | .denied => True

/-- What a node with the log `l` may hand to the swarm while it answers a pull from `start` on. -/
def Out.Honest (ns : Bytes) (l : List Record) (start : Nat) : Out → Prop
  | .request _ req => req.Asks ns l.length
  | .respond resp => resp.Answers ns l start
  | .dial _ | .dialPeer _ _ => True

/-- A node that hosts `ns`, with its history, has so far sent honest messages. -/
structure Steady (ns : Bytes) (start : Nat) (g : History) (r : Runner) : Prop where
  attached : Attached r.world g
  hosted : r.world.store.policies[ns]? ≠ none
  honest : ∀ o ∈ r.out, o.Honest ns (g.records ns) start

variable {ns : Bytes} {start : Nat} {g : History}

variable {r : Runner}

theorem Steady.congr {r' : Runner} (h : Steady ns start g r) (hw : r'.world = r.world) (ho : r'.out = r.out) :
    Steady ns start g r' :=
  ⟨hw ▸ h.attached, hw ▸ h.hosted, ho ▸ h.honest⟩

theorem Steady.modifyPeer (h : Steady ns start g r) (name : Bytes) (f : PeerCtx → PeerCtx) :
    Steady ns start g (r.modifyPeer name f) :=
  h.congr (r.world_modifyPeer name f).1 (r.world_modifyPeer name f).2

variable {o : Out}

theorem Steady.emit (h : Steady ns start g r) (ho : o.Honest ns (g.records ns) start) :
    Steady ns start g { r with out := r.out ++ [o] } :=
  ⟨h.attached, h.hosted, fun o' ho' => by
    rcases List.mem_append.1 ho' with hmem | hmem
    · exact h.honest o' hmem
    · rw [List.mem_singleton.1 hmem]
      exact ho⟩

theorem Out.honest_of_isRoutine (h : o.isRoutine) (l : List Record) : o.Honest ns l start := by
  cases o with
  | request pid req =>
    cases req with
    | hello => trivial
    | pull m fromSeq => cases h
  | respond resp =>
    cases resp with
    | records recs => cases h
    | hello | denied => trivial
  | dial | dialPeer => trivial

theorem routine_steady : Routine (Steady ns start g) where
  books _ _ hw ho _ h := h.congr hw ho
  context _ name f _ _ h := h.modifyPeer name f
  added _ _ _ _ h := h.congr rfl rfl
  dialsFailed _ h := h.congr rfl rfl
  message _ _ ho h := h.emit (Out.honest_of_isRoutine ho _)

/-! ### Asking -/

theorem Attached.head_length {w : World} (h : Attached w g) (hns : w.store.policies[ns]? ≠ none) :
    ∃ hash, w.store.head ns = some ((g.records ns).length, hash) := by
  obtain ⟨p, hp⟩ := Option.ne_none_iff_exists'.1 hns
  exact ⟨_, by rw [h.head_eq hp, h.files.length_records hns]⟩

theorem pullsFor_steady (name : Bytes) : PullsFor name (Steady ns start g) (Steady ns start g) where
  books _ _ h := h.congr rfl rfl
  asks r _ m h := by
    refine h.emit fun hn => ?_
    obtain ⟨hash, hhead⟩ := h.attached.head_length h.hosted
    rw [hn, hhead, Option.map_some, Option.getD_some]
    omega
  phase _ _ h := h.modifyPeer name _

theorem keeps_steady_noteClock (env : Env) (name : Bytes) (hlc : UInt64) :
    Keeps (Steady ns start g) (noteClock env name hlc) := by
  refine Keeps.get_bind fun r _ => Triple.modify fun s hs => ?_
  exact ⟨hs.attached.congr rfl rfl rfl fun _ => rfl, hs.hosted, hs.honest⟩

theorem keeps_steady_onHello [Libp2p] (env : Env) (pid : PeerId) (resp : HelloResponse) :
    Keeps (Steady ns start g) (onHello env pid resp) :=
  routine_steady.easing.keeps_onHello env pid resp (fun _ name _ _ _ _ h => h.modifyPeer name _) fun name =>
    Keeps.bind (keeps_steady_noteClock env name resp.hlc) fun _ => (pullsFor_steady name).triple_queuePulls _

/-! ### Answering -/

omit [Crates] in
theorem take_numberFrom (bs : List Bytes) (seq k : Nat) : (numberFrom seq bs).take k = numberFrom seq (bs.take k) := by
  induction bs generalizing seq k with
  | nil => rw [numberFrom, List.take_nil, List.take_nil, numberFrom]
  | cons b bs ih =>
    cases k with
    | zero => rfl
    | succ k => rw [numberFrom, List.take_succ_cons, ih, List.take_succ_cons, numberFrom]

omit [Crates] in
theorem logRecords_world (n : Bytes) (fromSeq max : Nat) (w : World) :
    Exec.finalState (logRecords n fromSeq max w) = w := by
  refine Exec.finalState_bind ?_ fun log => Exec.finalState_bind ?_ fun nd => ?_
  · simp only [getLog, Exec.bind_apply, Exec.get_apply]
    cases w.store.logs[n]? <;> rfl
  · simp only [getDir, Exec.bind_apply, Exec.get_apply]
    cases w.disk.dirs[nsDir n]? <;> rfl
  · cases log.readRecords nd fromSeq max <;> rfl

theorem Chained.carries_chunk {l : List Record} (h : Chained .zero bs l) (ns : Bytes) (start max : Nat) :
    ∃ rs, Records.Carries ⟨ns, (chunk (numberFrom (start + 1) (takeMax max (bs.drop start))) [] 0).getD []⟩ rs ∧
      rs <+: l.drop start := by
  cases hchunk : chunk (numberFrom (start + 1) (takeMax max (bs.drop start))) [] 0 with
  | none => exact ⟨[], Records.carries_nil ns, List.nil_prefix⟩
  | some out =>
    -- the chunk is a first part of a first part of what the log has from `start` on
    obtain ⟨k, rfl⟩ := chunk_eq_some hchunk
    obtain ⟨j, hj⟩ : ∃ j, takeMax max (bs.drop start) = (bs.drop start).take j := by
      unfold takeMax
      split
      · exact ⟨(bs.drop start).length, List.take_length.symm⟩
      · exact ⟨max, rfl⟩
    have hchained := ((h.drop start).take j).take k
    refine ⟨((l.drop start).take j).take k, ⟨_, ?_, verifyBatch_of_chained hchained (start + 1)⟩, ?_⟩
    · rw [Option.getD_some, List.nil_append, decodeRecs_encoded, hj, take_numberFrom]
    · exact (List.take_prefix _ _).trans (List.take_prefix _ _)

theorem keeps_steady_servePull {n : Bytes} {fromSeq : Nat} (h : n = ns → fromSeq = start + 1) :
    Keeps (Steady ns start g) (servePull n fromSeq) := by
  intro r hr a r' hrun
  suffices hkeeps : Triple (· = r) (servePull n fromSeq) fun _ => Steady ns start g from hkeeps r rfl a r' hrun
  by_cases hn : n = ns
  · obtain rfl := hn
    obtain rfl := h rfl
    obtain ⟨p, hp⟩ := Option.ne_none_iff_exists'.1 hr.hosted
    have hread := hr.attached.logRecords_spec hp start maxRecords
    refine Triple.bind (Q := fun res s => s = r ∧
      res = .ok (numberFrom (start + 1) (takeMax maxRecords ((g.bytes n).drop start)))) (fun s hs res s' hstore => ?_)
      fun res => ?_
    · subst hs
      simp only [onStore, hread] at hstore
      cases hstore
      exact ⟨rfl, rfl⟩
    · refine Triple.modify fun s hs => ?_
      obtain ⟨rfl, rfl⟩ := hs
      exact hr.emit fun _ => (hr.attached.files.chained n hr.hosted).carries_chunk n start maxRecords
  · refine Triple.bind (Q := fun _ => Steady ns start g) ?_ fun res => Triple.modify fun s hs => ?_
    · refine triple_onStore fun s hs => ?_
      rw [logRecords_world, hs]
      exact hr
    · exact hs.emit fun hns => absurd hns hn

/-! ### Applying an answer -/

/-- The log of `ns` after a chunk of `n` with the records `rs` has been applied. -/
def absorbed (ns n : Bytes) (rs l : List Record) : List Record :=
  if n = ns then l ++ newRecords (l.map versionKey) rs else l

theorem triple_steady_checkRecords (env : Env) (pid : PeerId) (recs : Records) :
    Triple (Steady ns start g) (checkRecords env pid recs) fun res r => Steady ns start g r ∧
      ∀ name n target parsed, res = some (name, n, target, parsed) → recs.ns = n ∧ recs.Carries parsed := by
  intro r hr res r' hrun
  refine ⟨routine_steady.easing.keeps_checkRecords env pid recs r hr res r' hrun, ?_⟩
  rintro name n target parsed rfl
  obtain ⟨hnone, -⟩ | ⟨_, _, _, _, heq, -, haccepts⟩ := checkRecords_cases hrun
  · cases hnone
  · cases heq
    exact ⟨haccepts.records, haccepts.verified⟩

theorem keeps_steady_checkpoint : Keeps (Steady ns start g) (onStore checkpoint) := by
  refine triple_onStore fun s hs => ?_
  obtain ⟨disk, points, hrun, _, hat⟩ := hs.attached.checkpoint_apply
  rw [hrun, Exec.finalState_ok]
  exact ⟨hat, hs.hosted, hs.honest⟩

theorem Out.Honest.append {l : List Record} (h : o.Honest ns l start) (hstart : start ≤ l.length)
    (rs : List Record) : o.Honest ns (l ++ rs) start := by
  cases o with
  | request pid req =>
    cases req with
    | hello => trivial
    | pull m fromSeq =>
      intro hm
      obtain ⟨h1, h2⟩ := h hm
      rw [List.length_append]
      omega
  | respond resp =>
    cases resp with
    | records recs =>
      intro hns
      obtain ⟨rs', hcarries, hpre⟩ := h hns
      refine ⟨rs', hcarries, hpre.trans ?_⟩
      rw [List.drop_append_of_le_length hstart]
      exact List.prefix_append _ _
    | hello | denied => trivial
  | dial | dialPeer => trivial

theorem Steady.applySyncedBatch (h : Steady ns 0 g r) (n : Bytes)
    (hr : ∀ x ∈ rs, x.WellFormed) : ∃ g', g'.records ns = absorbed ns n rs (g.records ns) ∧
      Steady ns 0 g' { r with world := Exec.finalState (applySyncedBatch n rs r.world) } := by
  cases hp : r.world.store.policies[n]? with
  | none =>
    have hne : n ≠ ns := fun e => h.hosted (e ▸ hp)
    have hrun : BunnyMesh.applySyncedBatch n rs r.world = .error (.err (.badName n)) r.world := by
      simp [BunnyMesh.applySyncedBatch, requirePolicy_none hp]
    rw [hrun, Exec.finalState_error]
    exact ⟨g, by rw [absorbed, if_neg hne], h⟩
  | some p =>
    obtain ⟨w', hrun, _, hat, hpol⟩ := applySyncedBatch_spec h.attached hp hr
    obtain ⟨hself, hother⟩ := g.records_logAll n (newRecords ((g.records n).map versionKey) rs)
    have hrecords : ∃ rs', (g.logAll n (newRecords ((g.records n).map versionKey) rs)).records ns = g.records ns ++ rs' ∧
        g.records ns ++ rs' = absorbed ns n rs (g.records ns) := by
      by_cases hn : n = ns
      · subst hn
        exact ⟨_, hself, by rw [absorbed, if_pos rfl]⟩
      · exact ⟨[], by rw [hother ns (Ne.symm hn), List.append_nil], by rw [absorbed, if_neg hn, List.append_nil]⟩
    obtain ⟨rs', hlog, habsorbed⟩ := hrecords
    refine ⟨_, hlog.trans habsorbed, ?_⟩
    rw [hrun, Exec.finalState_ok]
    refine ⟨hat, by rw [hpol]; exact h.hosted, fun o ho => ?_⟩
    rw [hlog]
    exact (h.honest o ho).append (Nat.zero_le _) rs'

theorem triple_steady_applyPulled (name n : Bytes) (target : Nat) (hr : ∀ x ∈ rs, x.WellFormed) :
    Triple (Steady ns 0 g) (applyPulled name n target rs) fun _ r =>
      ∃ g', g'.records ns = absorbed ns n rs (g.records ns) ∧ Steady ns 0 g' r := by
  intro r hr' a r' hrun
  obtain ⟨g', hlog, hsteady⟩ := hr'.applySyncedBatch n hr
  refine ⟨g', hlog, ?_⟩
  -- from here on the log is that of `g'`
  suffices h : Triple (· = r) (applyPulled name n target rs) fun _ => Steady ns 0 g' from h r rfl a r' hrun
  exact (pullsFor_steady name).triple_applyPulled (fun _ _ h => h.congr rfl rfl) (fun _ h => h.modifyPeer name _)
    keeps_steady_checkpoint (triple_onStore fun s hs => (hs ▸ hsteady : Steady ns 0 g' _))

theorem triple_steady_onRecords (env : Env) (pid : PeerId) (recs : Records) :
    Triple (Steady ns 0 g) (onRecords env pid recs) fun _ r => Steady ns 0 g r ∨
      ∃ rs g', recs.Carries rs ∧ g'.records ns = absorbed ns recs.ns rs (g.records ns) ∧ Steady ns 0 g' r := by
  refine Triple.bind (triple_steady_checkRecords env pid recs) fun res => ?_
  cases res with
  | none => exact Triple.pure fun _ h => .inl h.1
  | some x =>
    obtain ⟨name, n, target, parsed⟩ := x
    intro r hr a r' hrun
    obtain ⟨rfl, hcarries⟩ := hr.2 name n target parsed rfl
    obtain ⟨g', hlog, hsteady⟩ := triple_steady_applyPulled name recs.ns target hcarries.wellFormed r hr.1 a r' hrun
    exact .inr ⟨parsed, g', hcarries, hlog, hsteady⟩

end

end BunnyMesh
