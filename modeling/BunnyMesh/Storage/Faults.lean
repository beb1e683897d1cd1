import BunnyMesh.Lib.Exec
import BunnyMesh.Lib.Run
import BunnyMesh.Storage.Damage

/-!
# Appends that fail

`append` makes three calls that can fail: it opens the next segment, writes the record and, in a durable store, syncs the
file.  It changes the handle between them, so that an `Err` leaves a handle that is partly updated.  As long as nothing is
put into the directory behind such a failure, the log stays what it was (`failed_appends_do_no_damage`).
-/

namespace BunnyMesh

open Runs Exec

/-- What the operating system answers to the calls of one append, with the texts of its errors.  The write fails after the
given number of bytes. -/
structure DiskFaults where
  openErr : Option String
  writeErr : Option (Nat × String)
  syncErr : Option String
deriving DecidableEq

def DiskFaults.none : DiskFaults := ⟨.none, .none, .none⟩

/-- How many of `len` bytes reach the file, and the error when these are not all. -/
def DiskFaults.written (faults : DiskFaults) (len : Nat) : Nat × Option String :=
  match faults.writeErr with
  | some (k, detail) => if k < len then (k, some detail) else (len, .none)
  | .none => (len, .none)

/-- A directory, a handle, and the number of the segment that the handle's file is open on; this is `curSeg` until an open
fails. -/
structure OpenLog where
  nd : NsDir
  log : Log
  file : Nat
deriving DecidableEq

def OpenLog.of (nd : NsDir) (log : Log) : OpenLog := ⟨nd, log, log.curSeg⟩

/-- `?` on the result of a call. -/
def failWith : Option String → EStateM Fault OpenLog PUnit
  | some detail => throw (.err (.io detail))
  | none => pure ⟨⟩

/-- The segment is counted up before the open that may fail. -/
def rollFaulty (len : Nat) (faults : DiskFaults) : EStateM Fault OpenLog PUnit := do
  if (← get).log.Rolls len then
    modify fun s => { s with log.curSeg := s.log.curSeg + 1 }
    failWith faults.openErr
    modify fun s =>
      { s with
        nd := (SegEffect.create s.log.curSeg).apply s.nd
        log.cur := 0
        log.curLen := 0
        log.segLens := s.log.segLens ++ [(s.log.curSeg, 0)]
        file := s.log.curSeg }

def OpenLog.put (s : OpenLog) (bytes : Bytes) : OpenLog :=
  { s with
    nd := (SegEffect.write s.file s.log.cur bytes).apply s.nd
    log.cur := s.log.cur + bytes.length }

def writeFaulty (bytes : Bytes) (faults : DiskFaults) : EStateM Fault OpenLog PUnit := do
  let (k, err) := faults.written bytes.length
  modify fun s => s.put (bytes.take k)
  failWith err

/-- `sync_all`, in a durable store. -/
def syncFaulty (faults : DiskFaults) : EStateM Fault OpenLog PUnit := do
  if (← get).log.durable then
    failWith faults.syncErr
    modify fun s => { s with nd := (SegEffect.sync s.file).apply s.nd }

/-- Append a serialized record while the calls may fail; its seq. -/
def appendFaulty [Crates] (bytes : Bytes) (faults : DiskFaults) : EStateM Fault OpenLog Nat := do
  rollFaulty bytes.length faults
  let off := ((← get).log.segLens.map (·.2)).sum
  writeFaulty bytes faults
  syncFaulty faults
  modify fun s => { s with
    log.curLen := s.log.curLen + bytes.length
    log.segLens := setLastLen s.log.segLens (s.log.curLen + bytes.length)
    log.seq := s.log.seq + 1
    log.offsets := s.log.offsets ++ [off] }
  match (slice bytes 9 41).bind tryInto32 with
  | .error e => throw e
  | .ok prev =>
    modify fun s => { s with log.head := recordHash prev bytes }
    return (← get).log.seq

theorem failWith_none (s : OpenLog) : failWith none s = .ok ⟨⟩ s := rfl

theorem failWith_some (detail : String) (s : OpenLog) : failWith (some detail) s = .error (.err (.io detail)) s := rfl

theorem DiskFaults.written_none (len : Nat) : DiskFaults.none.written len = (len, .none) := rfl

theorem DiskFaults.written_cases (faults : DiskFaults) (len : Nat) :
    (∃ k detail, k < len ∧ faults.written len = (k, some detail)) ∨ faults.written len = (len, .none) := by
  unfold DiskFaults.written
  split
  · rename_i k detail _
    by_cases h : k < len
    · exact .inl ⟨k, detail, h, if_pos h⟩
    · exact .inr (if_neg h)
  · exact .inr rfl

section

variable [Crates]

theorem appendFaulty_none {log log' : Log} {bytes : Bytes} {effects : List SegEffect}
    (h : log.append bytes = (effects, .ok log')) (nd : NsDir) :
    appendFaulty bytes .none (.of nd log) = .ok log'.seq (.of (applyAll nd effects) log') := by
  have hroll : rollFaulty bytes.length .none (.of nd log) =
      .ok ⟨⟩ (.of (applyAll nd (log.roll bytes.length).2) (log.roll bytes.length).1) := by
    by_cases hr : (OpenLog.of nd log).log.Rolls bytes.length
    · have hrolled : log.roll bytes.length = _ := if_pos hr
      simp only [rollFaulty, bind_apply, get_apply, if_pos hr, modify_apply, DiskFaults.none, failWith_none, hrolled]
      rfl
    · have hrolled : log.roll bytes.length = _ := if_neg hr
      simp [rollFaulty, if_neg hr, hrolled, applyAll_nil]
  rw [Log.append] at h
  generalize log.roll bytes.length = rolled at h hroll
  obtain ⟨log1, effects₁⟩ := rolled
  simp only [Log.writeRecord, Prod.mk.injEq] at h
  obtain ⟨rfl, h⟩ := h
  obtain ⟨field, hslice, h⟩ := bind_eq_ok.1 h
  obtain ⟨prev, hprev, h⟩ := bind_eq_ok.1 h
  rw [pure_eq_ok, Except.ok.injEq] at h
  subst h
  have hread : (slice bytes 9 41).bind tryInto32 = .ok prev := by
    rw [hslice]
    exact hprev
  have hsync : DiskFaults.none.syncErr = none := rfl
  rw [appendFaulty, bind_ok hroll]
  cases hd : log1.durable with
  | false =>
    simp only [writeFaulty, syncFaulty, DiskFaults.written_none, failWith_none, bind_apply, modify_apply, get_apply,
      pure_apply, OpenLog.put, OpenLog.of, hd, hread, List.take_length, applyAll_append, Bool.false_eq_true, if_false]
    rfl
  | true =>
    simp only [writeFaulty, syncFaulty, DiskFaults.written_none, failWith_none, bind_apply, modify_apply, get_apply,
      pure_apply, OpenLog.put, OpenLog.of, hd, hread, List.take_length, applyAll_append, if_true, hsync]
    rfl

/-- The handle of the chunks `cs ++ [c]` whose file ends in `t` behind the last record, with `curSeg = n`. -/
def logBehind (cs : List (List Bytes)) (c : List Bytes) (n : Nat) (t : Bytes) (durable : Bool) : Log :=
  { logOf (cs ++ [c]) durable with curSeg := n, cur := c.flatten.length + t.length }

theorem logBehind_eq (cs : List (List Bytes)) (c : List Bytes) (n : Nat) (t : Bytes) (durable : Bool) :
    logBehind cs c n t durable = ⟨n, c.flatten.length + t.length, c.flatten.length, segLensFrom 0 (cs ++ [c]),
      (cs ++ [c]).flatten.length, chainHead .zero (cs ++ [c]).flatten, offsetsFrom 0 (cs ++ [c]).flatten, durable⟩ := by
  rw [logBehind, logOf_concat]

theorem logBehind_nil (cs : List (List Bytes)) (c : List Bytes) (durable : Bool) :
    logBehind cs c cs.length [] durable = logOf (cs ++ [c]) durable := by
  rw [logBehind_eq, logOf_concat]
  rfl

/-- The log holds `bs`, and the last segment ends in `t`: nothing, or bytes of one of the records whose append failed. -/
structure Interrupted (records : List Record) (s : OpenLog) (bs : List Bytes) (t : Bytes) : Prop where
  clean : s.nd.Clean
  layout : ∃ cs c n durable, (cs ++ [c]).flatten = bs ∧ s.nd.files = cs.map List.flatten ++ [c.flatten ++ t] ∧
    s.file = cs.length ∧ s.log = logBehind cs c n t durable
  chained : ∃ rs, Chained .zero bs rs
  tail : t = [] ∨ ∃ r ∈ records, t <+: r.toBytes (chainHead .zero bs)

variable {records : List Record} {nd : NsDir} {log : Log} {s : OpenLog} {bs : List Bytes} {t : Bytes} {faults : DiskFaults}

theorem Interrupted.of_inUse (h : LogInUse nd log bs) (records : List Record) : Interrupted records (.of nd log) bs [] := by
  obtain ⟨⟨hclean, chunks, hne, rfl, hfiles, hlog⟩, hchain⟩ := h
  obtain ⟨cs, c, rfl⟩ := (List.eq_nil_or_concat' chunks).resolve_left hne
  have hseg : log.curSeg = cs.length := by rw [hlog, logOf_concat]
  refine ⟨hclean, ⟨cs, c, cs.length, log.durable, rfl, ?_, hseg, hlog.trans (logBehind_nil ..).symm⟩, hchain, .inl rfl⟩
  rw [List.append_nil, ← List.map_singleton, ← List.map_append]
  exact hfiles

theorem Interrupted.rep (h : Interrupted records s bs []) (hfile : s.file = s.log.curSeg) : LogRep s.nd s.log bs := by
  obtain ⟨hclean, ⟨cs, c, n, durable, rfl, hfiles, hcs, hlog⟩, _, _⟩ := h
  have hn : s.log.curSeg = n := by rw [hlog, logBehind_eq]
  rw [hcs, hn] at hfile
  rw [← hfile, logBehind_nil] at hlog
  exact ⟨hclean, cs ++ [c], by simp, rfl, by simpa using hfiles, by rw [hlog]; rfl⟩

theorem Interrupted.cur_eq_curLen (h : Interrupted records s bs t) : s.log.cur = s.log.curLen ↔ t = [] := by
  obtain ⟨cs, c, n, durable, _, _, _, hlog⟩ := h.layout
  rw [hlog, logBehind_eq, ← List.length_eq_zero_iff]
  dsimp only
  omega

theorem Interrupted.seq_eq (h : Interrupted records s bs t) : s.log.seq = bs.length := by
  obtain ⟨cs, c, n, durable, rfl, _, _, hlog⟩ := h.layout
  rw [hlog, logBehind_eq]

theorem Interrupted.head_eq (h : Interrupted records s bs t) : s.log.head = chainHead .zero bs := by
  obtain ⟨cs, c, n, durable, rfl, _, _, hlog⟩ := h.layout
  rw [hlog, logBehind_eq]

theorem Interrupted.sum_segLens (h : Interrupted records s bs t) : (s.log.segLens.map (·.2)).sum = bs.flatten.length := by
  obtain ⟨cs, c, n, durable, rfl, _, _, hlog⟩ := h.layout
  rw [hlog, logBehind_eq, sum_segLensFrom]

theorem Interrupted.readRecords (h : Interrupted records s bs t) (fromSeq max : Nat) :
    s.log.readRecords s.nd fromSeq max = .ok (recordsFrom bs fromSeq max) := by
  obtain ⟨rs, hc⟩ := h.chained
  obtain ⟨cs, c, n, durable, rfl, hfiles, _, hlog⟩ := h.layout
  rw [hlog]
  cases fromSeq with
  | zero => rfl
  | succ start =>
    -- reading looks at the fields that `logBehind` shares with `logOf`
    have hread : (logOf (cs ++ [c]) durable).readRecords s.nd (start + 1) max = _ :=
      readRecords_logOf (NsDir.holds_of_files hfiles) hc.headerOk start max
    exact hread

/-! ### The stages of an append -/

theorem Interrupted.roll (h : Interrupted records s bs t) {len : Nat}
    (hopen : s.log.Rolls len → faults.openErr = none → s.file = s.log.curSeg ∧ s.log.cur = s.log.curLen) :
    (∃ e s', rollFaulty len faults s = .error e s' ∧ Interrupted records s' bs t) ∨
      ∃ s' t', rollFaulty len faults s = .ok ⟨⟩ s' ∧ Interrupted records s' bs t' ∧ (t' = [] ∨ ¬ s.log.Rolls len ∧ t' = t) := by
  by_cases hroll : s.log.Rolls len
  · cases herr : faults.openErr with
    | some detail =>
      left
      refine ⟨.err (.io detail), { s with log.curSeg := s.log.curSeg + 1 }, ?_, ?_⟩
      · simp [rollFaulty, if_pos hroll, herr, failWith_some]
      · obtain ⟨hclean, ⟨cs, c, n, durable, hflat, hfiles, hcs, hlog⟩, hchain, htail⟩ := h
        refine ⟨hclean, ⟨cs, c, n + 1, durable, hflat, hfiles, hcs, ?_⟩, hchain, htail⟩
        rw [hlog]
        rfl
    | none =>
      right
      obtain ⟨hfile, hcur⟩ := hopen hroll herr
      obtain rfl := h.cur_eq_curLen.1 hcur
      have hrep := (h.rep hfile).roll len
      have hrolled : s.log.roll len = _ := if_pos hroll
      rw [hrolled] at hrep
      refine ⟨_, [], ?_, Interrupted.of_inUse ⟨hrep.1, h.chained⟩ records, .inl rfl⟩
      simp [rollFaulty, if_pos hroll, herr, failWith_none, OpenLog.of, applyAll_cons, applyAll_nil]
  · right
    refine ⟨s, t, ?_, h, .inr ⟨hroll, rfl⟩⟩
    simp [rollFaulty, if_neg hroll]

theorem Interrupted.put (h : Interrupted records s bs t) {b : Bytes}
    (htail : t ++ b = [] ∨ ∃ r ∈ records, t ++ b <+: r.toBytes (chainHead .zero bs)) :
    Interrupted records (s.put b) bs (t ++ b) := by
  obtain ⟨hclean, ⟨cs, c, n, durable, hflat, hfiles, hcs, hlog⟩, hchain, _⟩ := h
  have hcur : s.log.cur = (c.flatten ++ t).length := by rw [hlog, logBehind_eq, List.length_append]
  have hwrite := NsDir.files_write_last hfiles b
  rw [List.length_map, ← hcs, ← hcur] at hwrite
  refine ⟨hclean.of_length_le (by rw [OpenLog.put, hwrite, hfiles]; simp) fun i hi => ?_,
    ⟨cs, c, n, durable, hflat, by rw [OpenLog.put, hwrite, List.append_assoc], hcs, ?_⟩, hchain, htail⟩
  · rw [OpenLog.put, hwrite] at hi
    simp only [List.length_append, List.length_map, List.length_singleton] at hi
    rw [OpenLog.put, SegEffect.apply, NsDir.seg_setSeg, if_neg (by omega)]
  · rw [OpenLog.put, hlog]
    simp [logBehind_eq, Nat.add_assoc]

theorem Interrupted.write (h : Interrupted records s bs t) {r : Record} (hr : r ∈ records)
    (hempty : 0 < (faults.written (r.toBytes (chainHead .zero bs)).length).1 → t = []) :
    (∃ e s' t', writeFaulty (r.toBytes (chainHead .zero bs)) faults s = .error e s' ∧ Interrupted records s' bs t') ∨
      ∃ s', writeFaulty (r.toBytes (chainHead .zero bs)) faults s = .ok ⟨⟩ s' ∧
        Interrupted records s' bs (r.toBytes (chainHead .zero bs)) := by
  generalize hb : r.toBytes (chainHead .zero bs) = b at hempty ⊢
  rcases faults.written_cases b.length with ⟨k, detail, hk, hw⟩ | hw
  · left
    rw [hw] at hempty
    refine ⟨.err (.io detail), s.put (b.take k), t ++ b.take k, ?_, h.put ?_⟩
    · simp [writeFaulty, hw, failWith_some]
    · rcases Nat.eq_zero_or_pos k with rfl | hpos
      · rw [List.take_zero, List.append_nil]
        exact h.tail
      · rw [hempty hpos]
        exact .inr ⟨r, hr, by rw [hb]; exact List.take_prefix ..⟩
  · right
    have hpos : 0 < b.length := by rw [← hb, Record.length_toBytes]; exact Nat.add_pos_left (by decide) _
    rw [hw] at hempty
    obtain rfl := hempty hpos
    refine ⟨s.put b, ?_, h.put (.inr ⟨r, hr, by rw [hb]; exact List.prefix_rfl⟩)⟩
    simp [writeFaulty, hw, failWith_none]

theorem Interrupted.sync (h : Interrupted records s bs t) (faults : DiskFaults) : ∃ s', Interrupted records s' bs t ∧
    (syncFaulty faults s = .ok ⟨⟩ s' ∨ ∃ e, syncFaulty faults s = .error e s') := by
  by_cases hd : s.log.durable
  · cases herr : faults.syncErr with
    | some detail => exact ⟨s, h, .inr ⟨.err (.io detail), by simp [syncFaulty, hd, herr, failWith_some]⟩⟩
    | none =>
      refine ⟨{ s with nd := (SegEffect.sync s.file).apply s.nd }, ?_,
        .inl (by simp [syncFaulty, hd, herr, failWith_none])⟩
      obtain ⟨hclean, ⟨cs, c, n, durable, hflat, hfiles, hcs, hlog⟩, hchain, htail⟩ := h
      have hsync : ((SegEffect.sync s.file).apply s.nd).files = s.nd.files := NsDir.files_sync ..
      refine ⟨fun j hj => ?_, ⟨cs, c, n, durable, hflat, hsync.trans hfiles, hcs, hlog⟩, hchain, htail⟩
      rw [hsync] at hj
      exact SegEffect.seg_apply_sync.2 (hclean j hj)
  · exact ⟨s, h, .inl (by simp [syncFaulty, hd])⟩

theorem Interrupted.finish {r : Record} (hr : r.Encodable) (h : Interrupted records s bs (r.toBytes (chainHead .zero bs))) :
    Interrupted records { s with
      log := { s.log with
        curLen := s.log.curLen + (r.toBytes (chainHead .zero bs)).length
        segLens := setLastLen s.log.segLens (s.log.curLen + (r.toBytes (chainHead .zero bs)).length)
        seq := s.log.seq + 1
        offsets := s.log.offsets ++ [bs.flatten.length]
        head := recordHash (chainHead .zero bs) (r.toBytes (chainHead .zero bs)) } }
      (bs ++ [r.toBytes (chainHead .zero bs)]) [] := by
  have hparse := parseChain_toBytes hr.wellFormed_canonical (chainHead .zero bs) (.inr rfl)
  rw [r.toBytes_canonical] at hparse
  obtain ⟨hclean, ⟨cs, c, n, durable, rfl, hfiles, hcs, hlog⟩, ⟨rs, hc⟩, _⟩ := h
  generalize r.toBytes (chainHead .zero (cs ++ [c]).flatten) = b at *
  refine ⟨hclean, ⟨cs, c ++ [b], n, durable, by simp, by rw [hfiles]; simp, hcs, ?_⟩,
    ⟨rs ++ [r.canonical], hc.append (.cons hparse (.nil _))⟩, .inl rfl⟩
  rw [hlog]
  simp only [logBehind_eq]
  simp [segLensFrom_append, segLensFrom, setLastLen_concat, chainHead, offsetsFrom_append, offsetsFrom,
    ← List.append_assoc]

/-! ### Attempts -/

/-- Nothing is put into the directory behind a failure: a segment is opened only where no open has failed and the file ends
with the last record, and bytes are written only where the file ends with the last record. -/
structure Undisturbed (s : OpenLog) (bytes : Bytes) (faults : DiskFaults) : Prop where
  opens : s.log.Rolls bytes.length → faults.openErr = none → s.file = s.log.curSeg ∧ s.log.cur = s.log.curLen
  writes : ¬ s.log.Rolls bytes.length → 0 < (faults.written bytes.length).1 → s.log.cur = s.log.curLen

omit [Crates] in
theorem undisturbed_iff : Undisturbed s bytes faults ↔
    (s.log.Rolls bytes.length → faults.openErr = none → s.file = s.log.curSeg ∧ s.log.cur = s.log.curLen) ∧
      (¬ s.log.Rolls bytes.length → 0 < (faults.written bytes.length).1 → s.log.cur = s.log.curLen) :=
  ⟨fun h => ⟨h.opens, h.writes⟩, fun h => ⟨h.1, h.2⟩⟩

instance (s : OpenLog) (bytes : Bytes) (faults : DiskFaults) : Decidable (Undisturbed s bytes faults) :=
  decidable_of_iff _ undisturbed_iff.symm

theorem Interrupted.append (h : Interrupted records s bs t) {r : Record} (hmem : r ∈ records) (hr : r.Encodable)
    (hu : Undisturbed s (r.toBytes s.log.head) faults) :
    (∃ e s' t', appendFaulty (r.toBytes s.log.head) faults s = .error e s' ∧ Interrupted records s' bs t') ∨
      ∃ s', appendFaulty (r.toBytes s.log.head) faults s = .ok (bs.length + 1) s' ∧
        Interrupted records s' (bs ++ [r.toBytes s.log.head]) [] := by
  have hprev : (slice (r.toBytes (chainHead .zero bs)) 9 41).bind tryInto32 = .ok (chainHead .zero bs) := by
    have hparse := parseChain_toBytes hr.wellFormed_canonical (chainHead .zero bs) (.inr rfl)
    rw [r.toBytes_canonical] at hparse
    obtain ⟨hlen, _, _, hrange⟩ := parseChain_header hparse
    have hslice : slice (r.toBytes (chainHead .zero bs)) 9 41 = .ok (chainHead .zero bs).val :=
      slice_eq_ok.2 ⟨⟨by omega, hlen⟩, hrange.symm⟩
    rw [hslice]
    exact tryInto32_val _
  rw [h.head_eq] at hu ⊢
  rcases h.roll hu.opens with ⟨e, s1, hroll, h1⟩ | ⟨s1, t1, hroll, h1, ht1⟩
  · exact .inl ⟨e, s1, t, by rw [appendFaulty, bind_error hroll], h1⟩
  have hempty : 0 < (faults.written (r.toBytes (chainHead .zero bs)).length).1 → t1 = [] := by
    intro hpos
    rcases ht1 with ht1 | ⟨hno, rfl⟩
    · exact ht1
    · exact h.cur_eq_curLen.1 (hu.writes hno hpos)
  rcases h1.write hmem hempty with ⟨e, s2, t2, hwrite, h2⟩ | ⟨s2, hwrite, h2⟩
  · refine .inl ⟨e, s2, t2, ?_, h2⟩
    rw [appendFaulty, bind_ok hroll, bind_ok (get_apply s1), bind_error hwrite]
  obtain ⟨s3, h3, hsync | ⟨e, hsync⟩⟩ := h2.sync faults
  · right
    refine ⟨_, ?_, h3.finish hr⟩
    rw [appendFaulty, bind_ok hroll, bind_ok (get_apply s1), bind_ok hwrite, bind_ok hsync, bind_ok (modify_apply _ s3)]
    simp only [hprev, h1.sum_segLens, bind_apply, modify_apply, get_apply, pure_apply, h3.seq_eq]
  · refine .inl ⟨e, s3, _, ?_, h3⟩
    rw [appendFaulty, bind_ok hroll, bind_ok (get_apply s1), bind_ok hwrite, bind_error hsync]

/-- Try to append a record, encoded with the running head; the byte strings whose append succeeded are collected. -/
def attempt (s : OpenLog × List Bytes) (a : Record × DiskFaults) : OpenLog × List Bytes :=
  match appendFaulty (a.1.toBytes s.1.log.head) a.2 s.1 with
  | .ok _ s' => (s', s.2 ++ [a.1.toBytes s.1.log.head])
  | .error _ s' => (s', s.2)

def Attempt (s : OpenLog × List Bytes) (a : Record × DiskFaults) (s' : OpenLog × List Bytes) : Prop := s' = attempt s a

theorem run_attempts (s : OpenLog × List Bytes) (as : List (Record × DiskFaults)) : Run Attempt s as (as.foldl attempt s) := by
  induction as generalizing s with
  | nil => exact .nil s
  | cons a as ih => exact .cons rfl (ih (attempt s a))

theorem Interrupted.attempt {s : OpenLog × List Bytes} {a : Record × DiskFaults}
    (h : Interrupted records s.1 (bs ++ s.2) t) (hmem : a.1 ∈ records) (hr : a.1.Encodable)
    (hu : Undisturbed s.1 (a.1.toBytes s.1.log.head) a.2) :
    ∃ t', Interrupted records (attempt s a).1 (bs ++ (attempt s a).2) t' := by
  unfold BunnyMesh.attempt
  rcases h.append hmem hr hu with ⟨e, s', t', happend, h'⟩ | ⟨s', happend, h'⟩
  · rw [happend]
    exact ⟨t', h'⟩
  · rw [happend]
    rw [List.append_assoc] at h'
    exact ⟨[], h'⟩

theorem Interrupted.recover (h : Interrupted records s bs t) (hrecords : ∀ r ∈ records, r.Encodable) (dir : Bytes)
    (durable : Bool) : ∃ log' warning effects failed, recoverDurable dir s.nd durable = .ok (log', warning, effects) ∧
      (failed = [] ∨ ∃ r ∈ records, failed = [r.toBytes (chainHead .zero bs)]) ∧
      LogInUse (applyAll s.nd effects) log' (bs ++ failed) := by
  obtain ⟨hclean, ⟨cs, c, n, _, rfl, hfiles, _, _⟩, ⟨rs, hc⟩, htail⟩ := h
  -- the segments end with the last record: they are recovered as they are
  have hwhole : ∀ c', s.nd.files = cs.map List.flatten ++ [c'.flatten] → ∀ rs', Chained .zero (cs ++ [c']).flatten rs' →
      ∃ log' warning effects, recoverDurable dir s.nd durable = .ok (log', warning, effects) ∧
        LogInUse (applyAll s.nd effects) log' (cs ++ [c']).flatten := by
    intro c' hfiles' rs' hc'
    have hrep : LogRep s.nd (logOf (cs ++ [c']) durable) (cs ++ [c']).flatten :=
      ⟨hclean, cs ++ [c'], by simp, rfl, by rw [hfiles']; simp, rfl⟩
    obtain ⟨_, hrec, hsame, hrep'⟩ := hrep.recover hc' dir durable
    exact ⟨_, none, _, hrec, by rw [hsame]; exact hrep', rs', hc'⟩
  rcases htail with rfl | ⟨r, hr, hpre⟩
  · obtain ⟨log', warning, effects, hrec, hin⟩ := hwhole c (by simpa using hfiles) rs hc
    exact ⟨log', warning, effects, [], hrec, .inl rfl, by rwa [List.append_nil]⟩
  have hparse := parseChain_toBytes (hrecords r hr).wellFormed_canonical (chainHead .zero (cs ++ [c]).flatten) (.inr rfl)
  rw [r.toBytes_canonical] at hparse
  rw [List.prefix_iff_eq_take] at hpre
  by_cases hempty : t.length = 0
  · obtain rfl := List.length_eq_zero_iff.1 hempty
    obtain ⟨log', warning, effects, hrec, hin⟩ := hwhole c (by simpa using hfiles) rs hc
    exact ⟨log', warning, effects, [], hrec, .inl rfl, by rwa [List.append_nil]⟩
  by_cases hshort : t.length < (r.toBytes (chainHead .zero (cs ++ [c]).flatten)).length
  · rw [hpre] at hfiles
    obtain ⟨log', effects, hrec, hin⟩ :=
      recover_torn hclean hfiles hc (torn_take hparse (Nat.pos_of_ne_zero hempty) hshort) dir durable
    exact ⟨log', _, effects, [], hrec, .inl rfl, by rwa [List.append_nil]⟩
  · rw [List.take_of_length_le (by omega)] at hpre
    have hc' := hc.append (.cons hparse (.nil _))
    have hflat : (cs ++ [c]).flatten ++ [r.toBytes (chainHead .zero (cs ++ [c]).flatten)] =
      (cs ++ [c ++ [r.toBytes (chainHead .zero (cs ++ [c]).flatten)]]).flatten := by simp
    rw [hflat] at hc'
    obtain ⟨log', warning, effects, hrec, hin⟩ := hwhole _ (by rw [hfiles, hpre]; simp) _ hc'
    exact ⟨log', warning, effects, _, hrec, .inr ⟨r, hr, rfl⟩, by rwa [hflat]⟩

/-- Appends of which some fail, with nothing put into the directory behind a failure: reading returns every record whose
append succeeded at its seq, and a recovery returns them in order, followed by at most one record whose append failed. -/
theorem failed_appends_do_no_damage {dir : Bytes} {as : List (Record × DiskFaults)} {out : List Bytes}
    (h : LogBuilt dir nd log bs) (has : ∀ a ∈ as, a.1.Encodable)
    (hrun : Run (guarded (fun s a => Undisturbed s.1 (a.1.toBytes s.1.log.head) a.2) Attempt) (.of nd log, []) as (s, out))
    (durable : Bool) :
    s.log.seq = (bs ++ out).length ∧
      (∀ fromSeq max, s.log.readRecords s.nd fromSeq max = .ok (recordsFrom (bs ++ out) fromSeq max)) ∧
      ∃ log' warning effects failed, recoverDurable dir s.nd durable = .ok (log', warning, effects) ∧
        (failed = [] ∨ ∃ a ∈ as, failed = [a.1.toBytes (chainHead .zero (bs ++ out))]) ∧
        log'.seq = (bs ++ out ++ failed).length ∧
        ∀ fromSeq max, log'.readRecords (applyAll s.nd effects) fromSeq max =
          .ok (recordsFrom (bs ++ out ++ failed) fromSeq max) := by
  have hinv : ∃ t, Interrupted (as.map (·.1)) (s, out).1 (bs ++ (s, out).2) t := by
    refine hrun.invariant_of_mem (I := fun s => ∃ t, Interrupted (as.map (·.1)) s.1 (bs ++ s.2) t) ?_ ?_
    · rintro a ha s s' ⟨t, h⟩ ⟨hu, rfl⟩
      exact h.attempt (List.mem_map_of_mem ha) (has a ha) hu
    · refine ⟨[], ?_⟩
      rw [List.append_nil]
      exact .of_inUse h.inUse _
  obtain ⟨t, hinv⟩ := hinv
  obtain ⟨log', warning, effects, failed, hrec, hfailed, hin⟩ := hinv.recover (by simpa using has) dir durable
  refine ⟨hinv.seq_eq, hinv.readRecords, log', warning, effects, failed, hrec, ?_, hin.rep.seq_eq, hin.readRecords⟩
  simpa using hfailed

end

def sampleAttempts : List (Record × DiskFaults) :=
  [(firstPut, ⟨none, some (0, "No space left on device (os error 28)"), none⟩), (secondPut, .none)]

set_option maxRecDepth 100000 in
theorem failed_appends_do_no_damage_unwritten : letI := Crates.trivial
    ∃ nd log s out, LogBuilt [97] nd log [] ∧
      Run (guarded (fun s a => Undisturbed s.1 (a.1.toBytes s.1.log.head) a.2) Attempt) (.of nd log, [])
        sampleAttempts (s, out) ∧
      s.log.seq = 1 := by
  have hfirst : letI := Crates.trivial
      Undisturbed (.of (applyAll NsDir.empty [.create 0]) (logOf [[]] false)) (firstPut.toBytes (logOf [[]] false).head)
        ⟨none, some (0, "No space left on device (os error 28)"), none⟩ := by decide +kernel
  have hsecond : letI := Crates.trivial
      Undisturbed (attempt (.of (applyAll NsDir.empty [.create 0]) (logOf [[]] false), [])
        (firstPut, ⟨none, some (0, "No space left on device (os error 28)"), none⟩)).1 (secondPut.toBytes .zero) .none := by
    decide +kernel
  have hcount : letI := Crates.trivial
      (sampleAttempts.foldl attempt (.of (applyAll NsDir.empty [.create 0]) (logOf [[]] false), [])).2.length = 1 := by
    decide +kernel
  let _ := Crates.trivial
  have hbuilt := logBuilt_empty [97] false
  have hrun : Run (guarded (fun s a => Undisturbed s.1 (a.1.toBytes s.1.log.head) a.2) Attempt)
      (.of (applyAll NsDir.empty [.create 0]) (logOf [[]] false), []) sampleAttempts
      (sampleAttempts.foldl attempt (.of (applyAll NsDir.empty [.create 0]) (logOf [[]] false), [])) :=
    .cons ⟨hfirst, rfl⟩ (.cons ⟨hsecond, rfl⟩ (.nil _))
  have hencodable : ∀ a ∈ sampleAttempts, a.1.Encodable := by decide
  obtain ⟨hseq, _⟩ := failed_appends_do_no_damage hbuilt hencodable hrun false
  exact ⟨_, _, _, _, hbuilt, hrun, hseq.trans hcount⟩

def tornAttempts : List (Record × DiskFaults) :=
  [(firstPut, .none), (firstPut, ⟨none, some (3, "No space left on device (os error 28)"), none⟩), (secondPut, .none)]

set_option maxRecDepth 100000 in
/-- The record written behind the bytes of the failed one cannot be read back, and a recovery
truncates it away. -/
theorem append_behind_failure_is_lost : letI := Crates.trivial
    ∃ nd log s out, LogBuilt [97] nd log [] ∧
      Run Attempt (.of nd log, []) tornAttempts (s, out) ∧
      out.length = 2 ∧ s.log.readRecords s.nd 2 1 ≠ .ok (recordsFrom out 2 1) ∧
      ∃ log' warning effects, recoverDurable [97] s.nd false = .ok (log', warning, effects) ∧ log'.seq = 1 := by
  have hcount : letI := Crates.trivial
      (tornAttempts.foldl attempt (.of (applyAll NsDir.empty [.create 0]) (logOf [[]] false), [])).2.length = 2 := by
    decide +kernel
  have hread : letI := Crates.trivial
      let p := tornAttempts.foldl attempt (.of (applyAll NsDir.empty [.create 0]) (logOf [[]] false), [])
      (p.1.log.readRecords p.1.nd 2 1).toOption ≠ some (recordsFrom p.2 2 1) := by decide +kernel
  have hseq : letI := Crates.trivial
      (recoverDurable [97] (tornAttempts.foldl attempt
        (.of (applyAll NsDir.empty [.create 0]) (logOf [[]] false), [])).1.nd false).toOption.map (·.1.seq) = some 1 := by
    decide +kernel
  let _ := Crates.trivial
  have hrun := run_attempts (.of (applyAll NsDir.empty [.create 0]) (logOf [[]] false), []) tornAttempts
  generalize tornAttempts.foldl attempt (.of (applyAll NsDir.empty [.create 0]) (logOf [[]] false), []) = p at *
  obtain ⟨⟨log', warning, effects⟩, hrec, hseq⟩ := Option.map_eq_some_iff.1 hseq
  refine ⟨_, _, p.1, p.2, logBuilt_empty [97] false, hrun, hcount, fun h => hread (by rw [h]; rfl), log', warning, effects,
    ?_, hseq⟩
  generalize recoverDurable [97] p.1.nd false = res at hrec
  cases res with
  | error e => cases hrec
  | ok x =>
    cases hrec
    rfl

end BunnyMesh
