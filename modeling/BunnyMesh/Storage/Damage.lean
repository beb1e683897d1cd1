import BunnyMesh.Storage.LogRuns
import BunnyMesh.Storage.Tail

/-!
# Crashes and damage

What a recovery makes of a log whose last append was interrupted, and of a log with a damaged record.
-/

namespace BunnyMesh

/-! ### Torn tails -/

theorem Torn.stuck {head : Bytes32} {t : Bytes} (h : Torn head t) : Stuck head t := by
  intro b x hb hparse
  obtain ⟨hlen, _, hann, rfl⟩ := announced_of_parse hb hparse
  obtain ⟨_, hs | ⟨_, hs | ⟨hs, e, herr⟩⟩⟩ := h
  · omega
  · omega
  · rw [← hs, List.take_length, herr] at hparse
    cases hparse

theorem Torn.not_panics {head : Bytes32} {t : Bytes} (h : Torn head t) : ¬ Panics head t := by
  rintro ⟨hlen, _, hann, detail, hpanic⟩
  obtain ⟨_, hs | ⟨_, hs | ⟨hs, e, herr⟩⟩⟩ := h
  · omega
  · omega
  · rw [← hs, List.take_length, herr] at hpanic
    cases hpanic

theorem torn_take {head head' : Bytes32} {b : Bytes} {x : Record × Bytes32} (h : parse b head' = .ok x) {k : Nat}
    (hk : 0 < k) (hlt : k < b.length) : Torn head (b.take k) := by
  obtain ⟨hlen, ⟨tag, htag, hrec⟩, hdecl, _⟩ := parseChain_header h
  have hhead : headerLen = 41 := rfl
  have htake : (b.take k).length = k := by rw [List.length_take]; omega
  refine ⟨fun hnil => by rw [hnil, List.length_nil] at htake; omega, ?_⟩
  by_cases hshort : k < headerLen
  · exact .inl (by omega)
  · refine .inr ⟨⟨tag, ?_, hrec⟩, .inl ?_⟩
    · rw [List.getElem?_take_of_lt hk]
      exact htag
    · have hfield : range (b.take k) 1 5 = range b 1 5 := by
        unfold range
        rw [List.drop_take, List.take_take]
        congr 1
        omega
      rw [announced, hfield, hdecl]
      omega

section

variable [Crates]

theorem recover_torn {nd : NsDir} {cs : List (List Bytes)} {c : List Bytes} {t : Bytes} {rs : List Record}
    (hclean : nd.Clean) (hfiles : nd.files = cs.map List.flatten ++ [c.flatten ++ t])
    (hchain : Chained .zero (cs ++ [c]).flatten rs) (ht : Torn (chainHead .zero (cs ++ [c]).flatten) t) (dir : Bytes)
    (durable : Bool) : ∃ log effects, recoverDurable dir nd durable = .ok (log, some (.truncatedTail 1), effects) ∧
      LogInUse (applyAll nd effects) log (cs ++ [c]).flatten := by
  have hstop : StopsAt nd.files cs c t [] := ⟨hfiles, ⟨rs, hchain⟩, ht.stuck, ht.1⟩
  have hrec := hstop.recover dir durable
  generalize recoverDurable dir nd durable = res at hrec
  cases hrec with
  | corrupt whole => exact absurd ht (whole rfl)
  | panics panics => exact absurd panics ht.not_panics
  | torn =>
    have hcut := NsDir.files_setLen_last hfiles
    rw [List.length_map] at hcut
    have hlt : cs.length < ((SegEffect.setLen cs.length c.flatten.length).apply nd).files.length := by rw [hcut]; simp
    have hclean' : ((SegEffect.setLen cs.length c.flatten.length).apply nd).Clean := by
      refine hclean.of_length_le (by rw [hcut, hfiles]; simp) fun i hi => ?_
      rw [SegEffect.apply, NsDir.seg_setSeg, if_neg (by omega)]
    have hsame : applyAll nd [.setLen cs.length c.flatten.length, .create cs.length] =
        (SegEffect.setLen cs.length c.flatten.length).apply nd := NsDir.create_self hlt
    refine ⟨_, _, rfl, ?_, rs, hchain⟩
    rw [hsame]
    exact ⟨hclean', cs ++ [c], by simp, rfl, by rw [hcut]; simp, rfl⟩

/-! ### A crash inside an append -/

/-- The directory when the process stops inside an append: before anything happened, or with the first `k` bytes of the
record in the file. -/
inductive TornAppend (nd : NsDir) (log : Log) (bytes : Bytes) : Nat → NsDir → Prop where
  | before : TornAppend nd log bytes 0 nd
  | writing {k : Nat} (short : k < bytes.length) : TornAppend nd log bytes k (applyAll nd ((log.roll bytes.length).2 ++
      [.write (log.roll bytes.length).1.curSeg (log.roll bytes.length).1.cur (bytes.take k)]))

theorem TornAppend.files {nd nd' : NsDir} {log : Log} {bs : List Bytes} {b : Bytes} {k : Nat} (h : LogRep nd log bs)
    (ht : TornAppend nd log b k nd') : nd'.Clean ∧ ∃ cs c, (cs ++ [c]).flatten = bs ∧
      nd'.files = cs.map List.flatten ++ [c.flatten ++ b.take k] := by
  cases ht with
  | before =>
    obtain ⟨hclean, chunks, hne, hflat, hfiles, _⟩ := h
    obtain ⟨cs, c, rfl⟩ := (List.eq_nil_or_concat' chunks).resolve_left hne
    exact ⟨hclean, cs, c, hflat, by rw [hfiles]; simp⟩
  | writing short =>
    obtain ⟨⟨hclean, chunks, hne, hflat, hfiles, hlog⟩, _⟩ := h.roll b.length
    obtain ⟨cs, c, rfl⟩ := (List.eq_nil_or_concat' chunks).resolve_left hne
    rw [applyAll_append, applyAll_cons, applyAll_nil]
    generalize applyAll nd (log.roll b.length).2 = nd1 at hclean hfiles
    rw [hlog, logOf_concat]
    dsimp only
    rw [List.map_append, List.map_singleton] at hfiles
    have hwrite := NsDir.files_write_last hfiles (b.take k)
    rw [List.length_map] at hwrite
    refine ⟨hclean.of_length_le (by rw [hwrite, hfiles]; simp) fun i hi => ?_, cs, c, hflat, hwrite⟩
    rw [hwrite] at hi
    simp only [List.length_append, List.length_map, List.length_singleton] at hi
    rw [SegEffect.apply, NsDir.seg_setSeg, if_neg (by omega)]

/-- Recovery after an append that did not complete: the log from before, in use, and a warning where bytes were cut. -/
theorem TornAppend.recover {nd nd' : NsDir} {log : Log} {bs : List Bytes} {r : Record} {k : Nat} (h : LogInUse nd log bs)
    (hr : r.Encodable) (ht : TornAppend nd log (r.toBytes log.head) k nd') (dir : Bytes) (durable : Bool) :
    ∃ log' effects, recoverDurable dir nd' durable =
        .ok (log', if k = 0 then none else some (.truncatedTail 1), effects) ∧
      LogInUse (applyAll nd' effects) log' bs := by
  obtain ⟨rs, hc⟩ := h.chained
  obtain ⟨hclean, cs, c, rfl, hfiles⟩ := ht.files h.rep
  have hparse := parseChain_toBytes hr.wellFormed_canonical log.head (.inr rfl)
  rw [r.toBytes_canonical] at hparse
  by_cases hk : k = 0
  · subst hk
    have hrep : LogRep nd' (logOf (cs ++ [c]) durable) (cs ++ [c]).flatten :=
      ⟨hclean, cs ++ [c], by simp, rfl, by rw [hfiles]; simp, rfl⟩
    obtain ⟨_, hrec, hsame, hrep'⟩ := hrep.recover hc dir durable
    exact ⟨_, _, hrec, by rw [hsame]; exact hrep', rs, hc⟩
  · have hshort : k < (r.toBytes log.head).length := by
      cases ht with
      | before => exact absurd rfl hk
      | writing short => exact short
    rw [if_neg hk]
    exact recover_torn hclean hfiles hc (torn_take hparse (Nat.pos_of_ne_zero hk) hshort) dir durable

/-- A crash inside an append loses exactly that record: recovery returns the log from before it, with a warning where some
of its bytes had reached the file, and what it leaves can be used and recovered like any other log. -/
theorem append_crash_loses_one_record {dir : Bytes} {nd nd' : NsDir} {log : Log} {bs : List Bytes} {r : Record} {k : Nat}
    (h : LogBuilt dir nd log bs) (hr : r.Encodable) (ht : TornAppend nd log (r.toBytes log.head) k nd') (durable : Bool) :
    ∃ log' effects, recoverDurable dir nd' durable =
        .ok (log', if k = 0 then none else some (.truncatedTail 1), effects) ∧
      log'.seq = log.seq ∧ log'.head = log.head ∧ log'.offsets = log.offsets ∧
      (∀ fromSeq max, log'.readRecords (applyAll nd' effects) fromSeq max = log.readRecords nd fromSeq max) ∧
      ∀ cs : List LogCmd, (∀ c ∈ cs, c.Valid) → ∃ nd'' log'',
        runLog dir (applyAll nd' effects) log' cs = .ok (nd'', log'') ∧
        (∃ effects', recoverDurable dir nd'' log''.durable = .ok (log'', none, effects')) ∧
        ∀ fromSeq max, log''.readRecords nd'' fromSeq max = .ok (recordsFrom (cs.foldl LogCmd.contents bs) fromSeq max) := by
  have hin := h.inUse
  obtain ⟨log', effects, hrec, hin'⟩ := ht.recover hin hr dir durable
  refine ⟨log', effects, hrec, ?_, ?_, ?_, fun fromSeq max => ?_, fun cs hcs => ?_⟩
  · rw [hin'.rep.seq_eq, hin.rep.seq_eq]
  · rw [hin'.rep.head_eq, hin.rep.head_eq]
  · rw [hin'.rep.offsets_eq, hin.rep.offsets_eq]
  · rw [hin'.readRecords, hin.readRecords]
  · obtain ⟨nd'', log'', hrun, hin''⟩ := hin'.run hcs dir
    obtain ⟨rs, hc⟩ := hin''.chained
    obtain ⟨_, hrec', _, _⟩ := hin''.rep.recover hc dir log''.durable
    exact ⟨nd'', log'', hrun, ⟨_, hrec'⟩, hin''.readRecords⟩

end

/-- A log with one record, and the first three bytes of another one. -/
theorem append_crash_loses_one_record_torn : letI := Crates.trivial
    ∃ nd log nd' log' effects, LogBuilt [97] nd log [(⟨⟨tagPut, [1], 1, .zero, .zero, [10], 0⟩, []⟩ : Record).toBytes .zero] ∧
      TornAppend nd log ((⟨⟨tagDel, [1], 2, .zero, .zero, [], 0⟩, []⟩ : Record).toBytes log.head) 3 nd' ∧
      recoverDurable [97] nd' false = .ok (log', some (.truncatedTail 1), effects) ∧ log'.seq = 1 := by
  let _ := Crates.trivial
  obtain ⟨nd₀, log₀, hopen, h₀⟩ := logInUse_empty [97] false
  have hvalid : ∀ c ∈ [LogCmd.append ⟨⟨tagPut, [1], 1, .zero, .zero, [10], 0⟩, []⟩], c.Valid := by decide
  obtain ⟨nd, log, hrun, hin⟩ := h₀.run hvalid [97]
  have hbuilt : LogBuilt [97] nd log [(⟨⟨tagPut, [1], 1, .zero, .zero, [10], 0⟩, []⟩ : Record).toBytes .zero] :=
    ⟨false, nd₀, log₀, _, hopen, hvalid, hrun, rfl⟩
  have hshort : 3 < ((⟨⟨tagDel, [1], 2, .zero, .zero, [], 0⟩, []⟩ : Record).toBytes log.head).length := by
    rw [Record.length_toBytes]
    decide
  obtain ⟨log', effects, hrec, hseq, _⟩ := append_crash_loses_one_record hbuilt (by decide) (.writing hshort) false
  exact ⟨nd, log, _, log', effects, hbuilt, .writing hshort, hrec, hseq.trans hin.rep.seq_eq⟩

/-! ### Damage -/

section

variable [Crates]

/-- The last segment ends in bytes that look like the beginning of a record. -/
def EndsTorn (ds : List Bytes) : Prop :=
  ∃ cs c t, StopsAt ds cs c t [] ∧ Torn (chainHead .zero (cs ++ [c]).flatten) t

/-- The segments stop at bytes on which the parser panics. -/
def StopsInPanic (ds : List Bytes) : Prop :=
  ∃ cs c t post, StopsAt ds cs c t post ∧ Panics (chainHead .zero (cs ++ [c]).flatten) t

variable {dir : Bytes} {nd : NsDir} {durable : Bool}

theorem EndsTorn.recover (h : EndsTorn nd.files) (dir : Bytes) (durable : Bool) : ∃ log effects,
    recoverDurable dir nd durable = .ok (log, some (.truncatedTail 1), effects) := by
  obtain ⟨cs, c, t, hstop, ht⟩ := h
  have hrec := hstop.recover dir durable
  generalize recoverDurable dir nd durable = res at hrec
  cases hrec with
  | torn => exact ⟨_, _, rfl⟩
  | corrupt whole => exact absurd ht (whole rfl)
  | panics panics => exact absurd panics ht.not_panics

theorem StopsInPanic.recover (h : StopsInPanic nd.files) (dir : Bytes) (durable : Bool) : ∃ detail,
    recoverDurable dir nd durable = .error (.panic detail) := by
  obtain ⟨cs, c, t, post, hstop, hp⟩ := h
  have hrec := hstop.recover dir durable
  generalize recoverDurable dir nd durable = res at hrec
  cases hrec with
  | torn _ torn => exact absurd hp torn.not_panics
  | corrupt _ quiet => exact absurd hp quiet
  | panics _ detail => exact ⟨detail, rfl⟩

section
omit [Crates]

end

end

/-! ### A damaged log -/

def firstPut : Record := ⟨⟨tagPut, [1], 1, .zero, .zero, [10], 0⟩, []⟩

def secondPut : Record := ⟨⟨tagPut, [2], 2, .zero, .zero, [20], 0⟩, []⟩

end BunnyMesh
