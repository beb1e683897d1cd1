import BunnyMesh.Net.Pulls
import BunnyMesh.Storage.LogRuns

/-!
# What a pull is answered with

`serve_pull` reads a window of the log and takes records from its front, as far as the budgets of a chunk go.  The answer is
a piece of the log within the budgets that the puller can verify (`served_chunk`).  A record that is too large to serve
empties the answer as soon as the loop gets to it, also behind records that could be served (`servable_served_iff`).
-/

namespace BunnyMesh

open Std

/-! ### Filling a chunk -/

def Servable (b : Bytes) : Prop := (b.length + 2) / 3 * 4 ≤ maxSingleRecordB64

instance (b : Bytes) : Decidable (Servable b) := inferInstanceAs (Decidable (_ ≤ _))

def Rec.of (x : Nat × Bytes) : Rec := ⟨x.1, b64Encode x.2⟩

variable {bs : List Bytes} {out : List Rec}

/-- A chunk takes the first so many records; it keeps to the budgets, or it is one record that goes alone. -/
theorem chunk_bounds {seq : Nat} {out' : List Rec} {bytes : Nat}
    (h : chunk (numberFrom seq bs) out bytes = some out') (hlen : out.length ≤ maxRecords) (hbytes : bytes ≤ maxFrameBytes) :
    ∃ k, out' = out ++ (numberFrom seq (bs.take k)).map Rec.of ∧ out'.length ≤ maxRecords ∧
      (bytes + (bs.take k).flatten.length ≤ maxFrameBytes ∨ out'.length = 1) := by
  induction bs generalizing seq out bytes with
  | nil =>
    obtain rfl := Option.some.inj h
    exact ⟨0, by simp [numberFrom], hlen, .inl (by simpa using hbytes)⟩
  | cons b bs ih =>
    have stop : ∃ k, out = out ++ (numberFrom seq ((b :: bs).take k)).map Rec.of ∧ out.length ≤ maxRecords ∧
        (bytes + ((b :: bs).take k).flatten.length ≤ maxFrameBytes ∨ out.length = 1) :=
      ⟨0, by simp [numberFrom], hlen, .inl (by simpa using hbytes)⟩
    rw [numberFrom, chunk] at h
    split_ifs at h with hbig hframe hempty hfull
    · -- larger than the budget of a chunk: it goes alone
      obtain rfl := Option.some.inj h
      have hout : out = [] := List.isEmpty_iff.1 hempty
      exact ⟨1, by simp [numberFrom, hout, Rec.of], by simp [maxRecords], .inr rfl⟩
    · obtain rfl := Option.some.inj h
      exact stop
    · obtain rfl := Option.some.inj h
      exact stop
    · simp only [Bool.or_eq_true, decide_eq_true_eq, not_or] at hfull
      obtain ⟨k, hout, hlen', hbytes'⟩ := ih h (by rw [List.length_append, List.length_singleton]; omega) (by omega)
      refine ⟨k + 1, ?_, hlen', ?_⟩
      · rw [hout, List.append_assoc, List.take_succ_cons, numberFrom]
        rfl
      · rw [List.take_succ_cons, List.flatten_cons, List.length_append]
        omega

theorem chunk_eq_none_iff (seq : Nat) (bytes : Nat)
    (hlen : out.length + bs.length ≤ maxRecords) : chunk (numberFrom seq bs) out bytes = none ↔
      ∃ j b, bs[j]? = some b ∧ ¬ Servable b ∧ (j = 0 ∨ bytes + (bs.take j).flatten.length ≤ maxFrameBytes) := by
  induction bs generalizing seq out bytes with
  | nil => simp [numberFrom, chunk]
  | cons b bs ih =>
    rw [List.length_cons] at hlen
    rw [numberFrom, chunk]
    by_cases hb : Servable b
    · rw [if_neg (Nat.not_lt.2 hb)]
      -- where the loop stops at `b`, nothing behind it is within the budget
      have stop (hover : ¬ bytes + b.length ≤ maxFrameBytes) : ¬ ∃ j c, (b :: bs)[j]? = some c ∧ ¬ Servable c ∧
          (j = 0 ∨ bytes + ((b :: bs).take j).flatten.length ≤ maxFrameBytes) := by
        rintro ⟨_ | j, c, hc, hnot, hbudget⟩
        · exact hnot (Option.some.inj hc ▸ hb)
        · rw [List.take_succ_cons, List.flatten_cons, List.length_append] at hbudget
          omega
      by_cases hframe : b.length > maxFrameBytes
      · rw [if_pos hframe]
        simp only [reduceCtorEq, false_iff]
        exact stop (by omega)
      · rw [if_neg hframe]
        by_cases hfits : bytes + b.length ≤ maxFrameBytes
        · have hgo : ¬ (decide (out.length ≥ maxRecords) || decide (bytes + b.length > maxFrameBytes)) = true := by
            simp only [Bool.or_eq_true, decide_eq_true_eq, not_or]
            omega
          rw [if_neg hgo, ih _ _ (by rw [List.length_append, List.length_singleton]; omega)]
          constructor
          · rintro ⟨j, c, hc, hnot, hbudget⟩
            refine ⟨j + 1, c, hc, hnot, .inr ?_⟩
            rw [List.take_succ_cons, List.flatten_cons, List.length_append]
            rcases hbudget with rfl | hbudget
            · rw [List.take_zero, List.flatten_nil, List.length_nil]
              omega
            · omega
          · rintro ⟨_ | j, c, hc, hnot, hbudget⟩
            · exact absurd (Option.some.inj hc ▸ hb) hnot
            · rw [List.take_succ_cons, List.flatten_cons, List.length_append] at hbudget
              exact ⟨j, c, hc, hnot, .inr (by omega)⟩
        · rw [if_pos (by simp only [Bool.or_eq_true, decide_eq_true_eq]; omega)]
          simp only [reduceCtorEq, false_iff]
          exact stop hfits
    · rw [if_pos (Nat.not_le.1 hb)]
      simp only [true_iff]
      exact ⟨0, b, rfl, hb, .inl rfl⟩

theorem chunk_starts {seq : Nat} {b : Bytes}
    (h : chunk (numberFrom seq (b :: bs)) [] 0 = some out) : ∃ rest, out = Rec.of (seq, b) :: rest := by
  rw [numberFrom, chunk] at h
  split_ifs at h with hbig hframe hempty hfull
  · exact ⟨[], (Option.some.inj h).symm⟩
  · exact absurd rfl hempty
  · have hfits : ¬ (decide (([] : List Rec).length ≥ maxRecords) || decide (0 + b.length > maxFrameBytes)) = true := by
      simp only [Bool.or_eq_true, decide_eq_true_eq, not_or, Nat.zero_add]
      exact ⟨by decide, hframe⟩
    exact absurd hfull hfits
  · obtain ⟨k, hk⟩ := chunk_eq_some h
    exact ⟨_, hk⟩

/-! ### The answer -/

section

variable [Crates] {r : Runner} {ns : Bytes} {bs : List Bytes} {rs : List Record} {fromSeq : Nat}

/-- The node has a valid log of the namespace: its files hold the bytes `bs`, a chain of the records `rs`. -/
structure World.Hosts (w : World) (ns : Bytes) (bs : List Bytes) (rs : List Record) : Prop where
  log : ∃ log nd, w.store.logs[ns]? = some log ∧ w.disk.dirs[nsDir ns]? = some nd ∧ LogRep nd log bs
  chained : Chained .zero bs rs

theorem World.Hosts.logRecords {w : World} (h : w.Hosts ns bs rs) (fromSeq max : Nat) :
    logRecords ns fromSeq max w = .ok (recordsFrom bs fromSeq max) w := by
  obtain ⟨log, nd, hlog, hnd, hrep⟩ := h.log
  have hread : log.readRecords nd fromSeq max = .ok (recordsFrom bs fromSeq max) := by
    cases fromSeq with
    | zero => rfl
    | succ start => exact hrep.readRecords h.chained.headerOk start max
  simp [BunnyMesh.logRecords, getLog_apply hlog, getDir_apply hnd, hread, liftRes_ok]

def answer (bs : List Bytes) (fromSeq : Nat) : List Rec := (chunk (recordsFrom bs fromSeq maxRecords) [] 0).getD []

theorem servePull_apply (h : r.world.Hosts ns bs rs) (fromSeq : Nat) :
    servePull ns fromSeq r = .ok () { r with out := r.out ++ [.respond (.records ⟨ns, answer bs fromSeq⟩)] } := by
  have hread : onStore (logRecords ns fromSeq maxRecords) r = .ok (.ok (recordsFrom bs fromSeq maxRecords)) r := by
    rw [onStore, h.logRecords]
  unfold servePull
  rw [Exec.bind_ok hread]
  rfl

omit [Crates] in
theorem answer_eq (bs : List Bytes) (fromSeq : Nat) : ∃ piece, piece <+: bs.drop (fromSeq - 1) ∧
    (fromSeq = 0 → piece = []) ∧ answer bs fromSeq = (numberFrom fromSeq piece).map Rec.of ∧
    (answer bs fromSeq).length ≤ maxRecords ∧
    (piece.flatten.length ≤ maxFrameBytes ∨ (answer bs fromSeq).length = 1) := by
  cases hchunk : chunk (recordsFrom bs fromSeq maxRecords) [] 0 with
  | none =>
    have hnone : answer bs fromSeq = [] := by rw [answer, hchunk]; rfl
    rw [hnone]
    exact ⟨[], List.nil_prefix, fun _ => rfl, rfl, Nat.zero_le _, .inl (Nat.zero_le _)⟩
  | some out =>
    have hsome : answer bs fromSeq = out := by rw [answer, hchunk]; rfl
    rw [hsome]
    cases fromSeq with
    | zero =>
      obtain rfl := Option.some.inj hchunk
      exact ⟨[], List.nil_prefix, fun _ => rfl, rfl, Nat.zero_le _, .inl (Nat.zero_le _)⟩
    | succ start =>
      obtain ⟨k, hout, hlen, hbytes⟩ := chunk_bounds hchunk (Nat.zero_le _) (Nat.zero_le _)
      rw [Nat.zero_add] at hbytes
      exact ⟨_, (List.take_prefix _ _).trans (List.take_prefix _ _), nofun, hout, hlen, hbytes⟩

/-- Every answer is a piece of the log from `fromSeq` on, of at most 1000 records, whose bytes keep to the budget of a chunk
unless it is one record; and it verifies to the records of that piece. -/
theorem served_chunk (h : r.world.Hosts ns bs rs) (fromSeq : Nat) : ∃ (recs : List Rec) (piece : List Bytes),
    servePull ns fromSeq r = .ok () { r with out := r.out ++ [.respond (.records ⟨ns, recs⟩)] } ∧
    piece <+: bs.drop (fromSeq - 1) ∧ (fromSeq = 0 → piece = []) ∧ recs = (numberFrom fromSeq piece).map Rec.of ∧
    recs.length ≤ maxRecords ∧ (piece.flatten.length ≤ maxFrameBytes ∨ recs.length = 1) ∧
    decodeRecs recs = .ok (numberFrom fromSeq piece) ∧
    verifyBatch (numberFrom fromSeq piece) = .ok ((rs.drop (fromSeq - 1)).take piece.length) := by
  obtain ⟨piece, hpiece, hzero, hanswer, hlen, hbytes⟩ := answer_eq bs fromSeq
  -- the window starts at a hash the puller does not know, and is a chain from there
  have hchained := (h.chained.drop (fromSeq - 1)).take piece.length
  rw [← List.prefix_iff_eq_take.1 hpiece] at hchained
  refine ⟨answer bs fromSeq, piece, servePull_apply h fromSeq, hpiece, hzero, hanswer, hlen, hbytes, ?_,
    verifyBatch_of_chained hchained fromSeq⟩
  rw [hanswer]
  exact decodeRecs_encoded _

/-- A record that can be served is answered first, exactly if the loop does not get to one that cannot be served: behind
every first part of the window that fits the budget of a chunk, the next record can be served. -/
theorem servable_served_iff (h : r.world.Hosts ns bs rs) (hfrom : 1 ≤ fromSeq) {b : Bytes} (hb : bs[fromSeq - 1]? = some b)
    (hservable : Servable b) :
    (∃ recs, servePull ns fromSeq r =
      .ok () { r with out := r.out ++ [.respond (.records ⟨ns, Rec.of (fromSeq, b) :: recs⟩)] }) ↔
    ∀ j, 1 ≤ j → j < maxRecords → ((bs.drop (fromSeq - 1)).take j).flatten.length ≤ maxFrameBytes →
      ∀ c, bs[fromSeq - 1 + j]? = some c → Servable c := by
  obtain ⟨start, rfl⟩ : ∃ start, fromSeq = start + 1 := ⟨fromSeq - 1, by omega⟩
  rw [Nat.add_sub_cancel] at hb ⊢
  have hwindow : recordsFrom bs (start + 1) maxRecords = numberFrom (start + 1) ((bs.drop start).take maxRecords) := rfl
  have hlen : ([] : List Rec).length + ((bs.drop start).take maxRecords).length ≤ maxRecords := by
    rw [List.length_nil, Nat.zero_add, List.length_take]
    exact Nat.min_le_left _ _
  have hnone := chunk_eq_none_iff (start + 1) 0 hlen
  rw [← hwindow] at hnone
  have hserve := servePull_apply h (start + 1)
  constructor
  · rintro ⟨recs, hrecs⟩ j hj hjmax hbudget c hc
    by_contra hnot
    have hempty : answer bs (start + 1) = [] := by
      rw [answer, hnone.2 ⟨j, c, ?_, hnot, .inr ?_⟩]
      · rfl
      · rw [List.getElem?_take_of_lt hjmax, List.getElem?_drop]
        exact hc
      · rw [Nat.zero_add, List.take_take, Nat.min_eq_left (Nat.le_of_lt hjmax)]
        exact hbudget
    rw [hserve, hempty] at hrecs
    simp at hrecs
  · intro hall
    cases hchunk : chunk (recordsFrom bs (start + 1) maxRecords) [] 0 with
    | none =>
      obtain ⟨j, c, hc, hnot, hbudget⟩ := hnone.1 hchunk
      have hjmax : j < maxRecords := by
        have hlt := (List.getElem?_eq_some_iff.1 hc).1
        omega
      rw [List.getElem?_take_of_lt hjmax, List.getElem?_drop] at hc
      rcases Nat.eq_zero_or_pos j with rfl | hj
      · rw [Nat.add_zero, hb] at hc
        exact absurd (Option.some.inj hc ▸ hservable) hnot
      · rw [Nat.zero_add, List.take_take, Nat.min_eq_left (Nat.le_of_lt hjmax)] at hbudget
        exact absurd (hall j hj hjmax (hbudget.resolve_left (by omega)) c hc) hnot
    | some out =>
      have hsome : answer bs (start + 1) = out := by rw [answer, hchunk]; rfl
      obtain ⟨hlt, hget⟩ := List.getElem?_eq_some_iff.1 hb
      have hcons : (bs.drop start).take maxRecords = b :: (bs.drop (start + 1)).take 999 := by
        rw [List.drop_eq_getElem_cons hlt, hget]
        rfl
      rw [hwindow, hcons] at hchunk
      obtain ⟨recs, rfl⟩ := chunk_starts hchunk
      rw [hsome] at hserve
      exact ⟨recs, hserve⟩

/-! ### Nodes with one log -/

def encodeLog (head : Bytes32) : List Record → List Bytes
  | [] => []
  | r :: rs => r.toBytes head :: encodeLog (recordHash head (r.toBytes head)) rs

theorem chained_encodeLog {rs : List Record} (h : ∀ r ∈ rs, r.WellFormed) (head : Bytes32) :
    Chained head (encodeLog head rs) rs := by
  induction rs generalizing head with
  | nil => exact .nil head
  | cons r rs ih =>
    obtain ⟨hr, hrs⟩ := List.forall_mem_cons.1 h
    exact .cons (parseChain_toBytes hr head (.inr rfl)) (ih hrs _)

/-- A node whose namespace `a` has these bytes in its one segment. -/
def hostOf (bs : List Bytes) : Runner :=
  .start ⟨(Store.init false).setLog [97] (logOf [bs] false),
    { Disk.empty with dirs := Disk.empty.dirs.insert (nsDir [97]) ⟨[some ⟨bs.flatten, 0⟩], none⟩ }, []⟩ .zero []

theorem hosts_hostOf (rs : List Record) (h : ∀ r ∈ rs, r.WellFormed) :
    (hostOf (encodeLog .zero rs)).world.Hosts [97] (encodeLog .zero rs) rs := by
  refine ⟨⟨logOf [encodeLog .zero rs] false, ⟨[some ⟨(encodeLog .zero rs).flatten, 0⟩], none⟩, ?_, ?_, ?_⟩,
    chained_encodeLog h .zero⟩
  · simp [hostOf, Runner.start, Store.setLog]
  · simp [hostOf, Runner.start]
  · refine ⟨fun i hi => ?_, [encodeLog .zero rs], by simp, by simp, rfl, rfl⟩
    have hi : 1 ≤ i := hi
    rw [NsDir.seg, List.getD_eq_getElem?_getD, List.getElem?_eq_none (by simpa using hi)]
    rfl

end

def smallPut : Record := putRecord [1] [10] 1 .zero .zero 0

def hugePut : Record := putRecord [2] (List.replicate (6 * 1024 * 1024) 0) 2 .zero .zero 0

theorem length_hugePut : hugePut.payload.length = 6 * 1024 * 1024 + 85 := by
  have hpayload : hugePut.payload = payloadBytes hugePut.toOp := rfl
  have hvalue : hugePut.toOp.value = List.replicate (6 * 1024 * 1024) 0 := rfl
  rw [hpayload, length_payloadBytes, hvalue, List.length_replicate, show hugePut.toOp.key.length = 1 from rfl,
    if_neg (by decide)]

theorem wellFormed_hugePut : hugePut.WellFormed := by
  refine putRecord_wellFormed ?_
  change hugePut.payload.length < 2 ^ 32
  rw [length_hugePut]
  decide

/-- A log of one record. -/
theorem served_chunk_single : letI := Crates.trivial
    ∃ recs piece, servePull [97] 1 (hostOf (encodeLog .zero [smallPut])) =
        .ok () { hostOf (encodeLog .zero [smallPut]) with out := [.respond (.records ⟨[97], recs⟩)] } ∧
      verifyBatch (numberFrom 1 piece) = .ok ([smallPut].take piece.length) := by
  let _ := Crates.trivial
  have hhost := hosts_hostOf [smallPut] (by decide +kernel)
  obtain ⟨recs, piece, hserve, _, _, _, _, _, _, hverify⟩ := served_chunk hhost 1
  exact ⟨recs, piece, hserve, hverify⟩

theorem servable_served_iff_single : letI := Crates.trivial
    ∃ recs, servePull [97] 1 (hostOf (encodeLog .zero [smallPut])) =
      .ok () { hostOf (encodeLog .zero [smallPut]) with
        out := [.respond (.records ⟨[97], Rec.of (1, smallPut.toBytes .zero) :: recs⟩)] } := by
  let _ := Crates.trivial
  have hhost := hosts_hostOf [smallPut] (by decide +kernel)
  refine (servable_served_iff hhost (Nat.le_refl 1) (b := smallPut.toBytes .zero) rfl (by decide +kernel)).2 ?_
  intro j hj _ _ c hc
  rw [List.getElem?_eq_none (by simp [encodeLog]; omega)] at hc
  cases hc

/-- A small record and one of 6 MiB behind it: the pull from the first record on is answered with nothing. -/
theorem servable_record_blocked : letI := Crates.trivial
    (hostOf (encodeLog .zero [smallPut, hugePut])).world.Hosts [97] (encodeLog .zero [smallPut, hugePut])
        [smallPut, hugePut] ∧
      Servable (smallPut.toBytes .zero) ∧
      servePull [97] 1 (hostOf (encodeLog .zero [smallPut, hugePut])) =
        .ok () { hostOf (encodeLog .zero [smallPut, hugePut]) with out := [.respond (.records ⟨[97], []⟩)] } := by
  have hsmall : letI := Crates.trivial; smallPut.WellFormed ∧ Servable (smallPut.toBytes .zero) ∧
      (smallPut.toBytes .zero).length ≤ maxFrameBytes := by decide +kernel
  let _ := Crates.trivial
  obtain ⟨hwf, hservable, hframe⟩ := hsmall
  have hhost := hosts_hostOf [smallPut, hugePut] (by
    rw [List.forall_mem_cons]
    exact ⟨hwf, fun r hr => List.mem_singleton.1 hr ▸ wellFormed_hugePut⟩)
  refine ⟨hhost, hservable, ?_⟩
  have hhuge : ¬ Servable (hugePut.toBytes (recordHash .zero (smallPut.toBytes .zero))) := by
    rw [Servable, Record.length_toBytes, length_hugePut]
    decide
  have hnone : chunk (recordsFrom (encodeLog .zero [smallPut, hugePut]) 1 maxRecords) [] 0 = none := by
    change chunk (numberFrom 1 (encodeLog .zero [smallPut, hugePut])) [] 0 = none
    refine (chunk_eq_none_iff 1 0 ?_).2 ⟨1, _, rfl, hhuge, .inr ?_⟩
    · simp [encodeLog, maxRecords]
    · simpa [encodeLog] using hframe
  have hserve := servePull_apply hhost 1
  rw [answer, hnone] at hserve
  exact hserve

end BunnyMesh
