import BunnyMesh.Storage.Segments

/-!
# What a log stands for

A log is a list of byte strings, each of which parses as a record chained to the head before it (`Chained`), cut into
segments (`chunks`).  The handle is a function of that list (`logOf`).  `recoverDurable` returns this handle for the
segments that hold the list (`recoverDurable_of_chained`); `readRecords` reads the list (`readRecords_logOf`), `append`
adds to it (`append_logOf`) and `writeFresh` replaces it (`files_writeFresh`).
-/

namespace BunnyMesh

variable {b : Bytes} {head : Bytes32}

theorem parse_prev {prev : Bytes32} {r : Record} (h : parse b head = .ok (r, prev)) :
    prev = head := by
  obtain ⟨_, he | he⟩ := parseChain_wellFormed h
  · cases he
  · exact (Option.some.inj he).symm

/-! ### Chains -/

variable [Crates]

def chainHead (head : Bytes32) (bs : List Bytes) : Bytes32 := bs.foldl recordHash head

/-- `bs` parses as the records `rs`, each linked to the running head. -/
inductive Chained : Bytes32 → List Bytes → List Record → Prop where
  | nil (head : Bytes32) : Chained head [] []
  | cons {head : Bytes32} {b : Bytes} {r : Record} {bs : List Bytes} {rs : List Record}
      (parsed : parse b head = .ok (r, head)) (rest : Chained (recordHash head b) bs rs) :
      Chained head (b :: bs) (r :: rs)

variable {bs : List Bytes} {rs : List Record}

theorem Chained.append {bs' : List Bytes} {rs' : List Record} (h : Chained head bs rs)
    (h' : Chained (chainHead head bs) bs' rs') : Chained head (bs ++ bs') (rs ++ rs') := by
  induction h with
  | nil => exact h'
  | cons parsed rest ih => exact .cons parsed (ih h')

theorem Chained.length_eq (h : Chained head bs rs) :
    bs.length = rs.length := by
  induction h with
  | nil => rfl
  | cons _ _ ih => simp [ih]

theorem Chained.wellFormed (h : Chained head bs rs) :
    ∀ r ∈ rs, r.WellFormed := by
  induction h with
  | nil => simp
  | cons parsed _ ih => exact List.forall_mem_cons.2 ⟨(parseChain_wellFormed parsed).1, ih⟩

theorem Chained.drop (h : Chained head bs rs) (k : Nat) :
    Chained (chainHead head (bs.take k)) (bs.drop k) (rs.drop k) := by
  induction h generalizing k with
  | nil head => rw [List.take_nil, List.drop_nil, List.drop_nil]; exact .nil _
  | cons parsed rest ih =>
    cases k with
    | zero => exact .cons parsed rest
    | succ k => exact ih k

theorem Chained.take (h : Chained head bs rs) (k : Nat) :
    Chained head (bs.take k) (rs.take k) := by
  induction h generalizing k with
  | nil head => rw [List.take_nil, List.take_nil]; exact .nil _
  | cons parsed rest ih =>
    cases k with
    | zero => exact .nil _
    | succ k => exact .cons parsed (ih k)

theorem chained_encodeChain (hrs : ∀ r ∈ rs, r.WellFormed) (head : Bytes32) :
    Chained head (encodeChain head rs) rs := by
  induction rs generalizing head with
  | nil => exact .nil head
  | cons r rs ih =>
    obtain ⟨hr, hrs⟩ := List.forall_mem_cons.1 hrs
    exact .cons (parseChain_toBytes hr head (.inr rfl)) (ih hrs _)

theorem chainHead_append (head : Bytes32) (bs bs' : List Bytes) :
    chainHead head (bs ++ bs') = chainHead (chainHead head bs) bs' :=
  List.foldl_append

/-! ### The handle of a list of byte strings -/

def logOf (chunks : List (List Bytes)) (durable : Bool) : Log where
  curSeg := chunks.length - 1
  cur := (chunks.getLastD []).flatten.length
  curLen := (chunks.getLastD []).flatten.length
  segLens := segLensFrom 0 chunks
  seq := chunks.flatten.length
  head := chainHead .zero chunks.flatten
  offsets := offsetsFrom 0 chunks.flatten
  durable := durable

/-! ### The recovery scan -/

/-- The running values after `bs`, which start at the logical offset `base`. -/
def Scan.advance (st : Scan) (base : Nat) (bs : List Bytes) : Scan :=
  ⟨st.seq + bs.length, chainHead st.head bs, st.offsets ++ offsetsFrom base bs⟩

theorem Scan.advance_nil (st : Scan) (base : Nat) : st.advance base [] = st := by
  simp [Scan.advance, chainHead, offsetsFrom]

theorem Scan.advance_cons (st : Scan) (base : Nat) (b : Bytes) (bs : List Bytes) :
    st.advance base (b :: bs) =
      Scan.advance ⟨st.seq + 1, recordHash st.head b, st.offsets ++ [base]⟩ (base + b.length) bs := by
  simp [Scan.advance, chainHead, offsetsFrom]
  omega

theorem Scan.advance_append (st : Scan) (base : Nat) (bs bs' : List Bytes) :
    st.advance base (bs ++ bs') = (st.advance base bs).advance (base + bs.flatten.length) bs' := by
  simp [Scan.advance, chainHead_append, offsetsFrom_append]
  omega

variable {buf : Bytes} {pos : Nat} {st : Scan}

theorem scanSeg_skip (dir : Bytes) (segNo : Nat) (isLast : Bool) (segBase : Nat)
    (h : Chained st.head bs rs) (hat : At buf pos bs.flatten) :
    scanSeg dir segNo isLast segBase buf pos st =
      scanSeg dir segNo isLast segBase buf (pos + bs.flatten.length) (st.advance (segBase + pos) bs) := by
  induction bs generalizing rs pos st with
  | nil => rw [Scan.advance_nil, List.flatten_nil, List.length_nil, Nat.add_zero]
  | cons b bs ih =>
    cases h with
    | cons parsed rest =>
      obtain ⟨hlen, ⟨tag, hget, htag⟩, hdecl, _⟩ := parseChain_header parsed
      have hb := hat.left
      have hle := hb.length_le
      have hhead : headerLen = 41 := rfl
      have hpos : pos < buf.length := by omega
      have htagAt : index buf pos = .ok tag := by
        rw [index_eq_ok, ← hget]
        exact hb.getElem?_add (k := 0) (by omega)
      have hdeclAt : slice buf (pos + 1) (pos + 5) = .ok (range b 1 5) :=
        slice_eq_ok.2 ⟨by omega, hb.range_add (by omega)⟩
      have hrec : headerLen + fromLe (range b 1 5) = b.length := by omega
      have hbytes : slice buf pos (pos + b.length) = .ok b := slice_of_at hb rfl
      let st' : Scan := ⟨st.seq + 1, recordHash st.head b, st.offsets ++ [segBase + pos]⟩
      have hnext := ih (show Chained st'.head _ _ from rest) hat.right
      rw [Scan.advance_cons, List.flatten_cons, List.length_append, Nat.add_assoc, ← Nat.add_assoc pos, ← hnext, scanSeg,
        dif_pos hpos, if_neg (by omega)]
      simp only [htagAt, htag, hdeclAt, hrec, hbytes, parsed, ok_bind, ensure_true]
      rw [if_neg (by omega)]

theorem scanSeg_of_chained (dir : Bytes) (segNo : Nat) (isLast : Bool) (segBase : Nat)
    (h : Chained st.head bs rs)
    (hat : At buf pos bs.flatten) (hend : pos + bs.flatten.length = buf.length) :
    scanSeg dir segNo isLast segBase buf pos st = .ok (st.advance (segBase + pos) bs, none) := by
  rw [scanSeg_skip dir segNo isLast segBase h hat, scanSeg, dif_neg (by omega), pure_eq_ok]

theorem scanSeg_eq_ok {dir : Bytes} {segNo segBase : Nat} {isLast : Bool} {st' : Scan}
    {cut : Option Nat} (h : scanSeg dir segNo isLast segBase buf pos st = .ok (st', cut)) (hpos : pos ≤ buf.length) :
    ∃ bs rs tail, Chained st.head bs rs ∧ buf.drop pos = bs.flatten ++ tail ∧ st' = st.advance (segBase + pos) bs ∧
      ((cut = none ∧ tail = []) ∨ (cut = some (pos + bs.flatten.length) ∧ isLast)) := by
  -- the scan stops here: nothing is read from `pos` on
  have stop : ∀ {pos : Nat} {st : Scan}, isLast → (.ok (st, some pos) : Res _) = .ok (st', cut) →
      ∃ bs rs tail, Chained st.head bs rs ∧ buf.drop pos = bs.flatten ++ tail ∧ st' = st.advance (segBase + pos) bs ∧
        ((cut = none ∧ tail = []) ∨ (cut = some (pos + bs.flatten.length) ∧ isLast)) := by
    rintro pos st hlast ⟨⟩
    exact ⟨[], [], buf.drop pos, .nil _, rfl, (Scan.advance_nil _ _).symm, .inr ⟨rfl, hlast⟩⟩
  fun_induction scanSeg dir segNo isLast segBase buf pos st with
  | case1 pos st _ _ _ hlast => exact stop hlast h
  | case2 => cases h
  | case3 pos st hlt remaining hge ih =>
    simp only [bind_eq_ok, ensure_eq_ok, slice_eq_ok, exists_const] at h
    obtain ⟨tag, _, _, _, ⟨_, rfl⟩, h⟩ := h
    split at h
    · split at h
      · exact stop ‹_› h
      · cases h
    · rename_i hfit
      simp only [bind_eq_ok, slice_eq_ok] at h
      obtain ⟨_, ⟨hb, rfl⟩, h⟩ := h
      split at h
      · rename_i r prev parsed
        obtain rfl := parse_prev parsed
        obtain ⟨bs, rs, tail, hchain, hdrop, rfl, hcut⟩ := ih _ _ _ h hb.2
        have hlen := ByteCodec.length_range hb.1 hb.2
        refine ⟨_ :: bs, r :: rs, tail, .cons parsed hchain, ?_, ?_, ?_⟩
        · rw [List.flatten_cons, List.append_assoc, ← hdrop]
          exact (ByteCodec.range_append_drop hb.1).symm
        · rw [Scan.advance_cons, hlen]
          congr 1
          omega
        · rw [List.flatten_cons, List.length_append, hlen]
          refine hcut.imp id fun hc => ⟨hc.1.trans ?_, hc.2⟩
          congr 1
          omega
      · split at h
        · rename_i hc
          exact stop (by simp at hc; exact hc.1) h
        · cases h
      · cases h
  | case4 pos st hlt =>
    obtain ⟨rfl, rfl⟩ := h
    refine ⟨[], [], [], .nil _, ?_, (Scan.advance_nil _ _).symm, .inl ⟨rfl, rfl⟩⟩
    simpa using hlt

theorem Chained.split {bs' : List Bytes} (h : Chained head (bs ++ bs') rs) :
    ∃ rs1 rs2, rs = rs1 ++ rs2 ∧ Chained head bs rs1 ∧ Chained (chainHead head bs) bs' rs2 := by
  induction bs generalizing head rs with
  | nil => exact ⟨[], rs, rfl, .nil _, h⟩
  | cons b bs ih =>
    cases h with
    | cons parsed rest =>
      obtain ⟨rs1, rs2, rfl, h1, h2⟩ := ih rest
      exact ⟨_ :: rs1, rs2, rfl, .cons parsed h1, h2⟩

variable {found : List (Nat × SegFile)} {chunks : List (List Bytes)}

theorem scanSegs_skip (dir : Bytes)
    (total : Nat) (h : Chained st.head chunks.flatten rs) (hd : found.map (·.2.data) = chunks.map List.flatten)
    (rest : List (Nat × SegFile)) : scanSegs dir (found ++ rest) total st =
      scanSegs dir rest (total + chunks.flatten.flatten.length) (st.advance total chunks.flatten) := by
  induction found generalizing chunks rs total st with
  | nil =>
    cases chunks with
    | nil => simp [Scan.advance_nil]
    | cons c cs => simp at hd
  | cons x xs ih =>
    cases chunks with
    | nil => simp at hd
    | cons c cs =>
      simp only [List.map_cons, List.cons.injEq] at hd
      obtain ⟨rs1, rs2, rfl, h1, h2⟩ := h.split
      have hseg := scanSeg_of_chained dir x.1 (xs ++ rest).isEmpty total h1
        (show At x.2.data 0 _ from hd.1 ▸ ByteCodec.At.refl _) (by rw [hd.1, Nat.zero_add])
      have hrest := ih (total + x.2.data.length) (show Chained (st.advance total c).head _ _ from h2) hd.2
      obtain ⟨segNo, f⟩ := x
      rw [List.cons_append]
      simp only [scanSegs, hseg, ok_bind, Nat.add_zero, hrest]
      rw [List.flatten_cons, Scan.advance_append, hd.1, List.flatten_append, List.length_append, Nat.add_assoc]

theorem scanSegs_of_chained (dir : Bytes)
    (total : Nat) (h : Chained st.head chunks.flatten rs)
    (hd : found.map (·.2.data) = chunks.map List.flatten) :
    scanSegs dir found total st = .ok (st.advance total chunks.flatten, none) := by
  have hskip := scanSegs_skip dir total h hd []
  rwa [List.append_nil] at hskip

theorem scanSegs_eq_ok {dir : Bytes} {total : Nat} {st' : Scan}
    {cut : Option (Nat × Nat)} (h : scanSegs dir found total st = .ok (st', cut)) :
    ∃ chunks rs, Chained st.head chunks.flatten rs ∧ st' = st.advance total chunks.flatten ∧
      ((cut = none ∧ found.map (·.2.data) = chunks.map List.flatten) ∨
        ∃ init segNo f cs c tail, found = init ++ [(segNo, f)] ∧ init.map (·.2.data) = cs.map List.flatten ∧
          f.data = c.flatten ++ tail ∧ chunks = cs ++ [c] ∧ cut = some (segNo, c.flatten.length)) := by
  induction found generalizing total st with
  | nil =>
    obtain ⟨rfl, rfl⟩ := h
    exact ⟨[], [], .nil _, (Scan.advance_nil _ _).symm, .inl ⟨rfl, rfl⟩⟩
  | cons x xs ih =>
    obtain ⟨segNo, f⟩ := x
    simp only [scanSegs, bind_eq_ok, Prod.exists] at h
    obtain ⟨st1, cut1, hseg, h⟩ := h
    obtain ⟨bs, rs, tail, hchain, hdrop, rfl, hcut⟩ := scanSeg_eq_ok hseg (Nat.zero_le _)
    rw [List.drop_zero] at hdrop
    rw [Nat.add_zero] at h
    rcases hcut with ⟨rfl, rfl⟩ | ⟨rfl, hlast⟩
    · obtain ⟨chunks, rs', hchain', rfl, hfound⟩ := ih h
      rw [List.append_nil] at hdrop
      refine ⟨bs :: chunks, rs ++ rs', ?_, ?_, ?_⟩
      · rw [List.flatten_cons]
        exact hchain.append hchain'
      · rw [List.flatten_cons, Scan.advance_append, hdrop]
      · refine hfound.imp (fun hf => ⟨hf.1, by simp [hf.2, hdrop]⟩) ?_
        rintro ⟨init, segNo', f', cs, c, tail, rfl, hinit, hf, rfl, hcut⟩
        exact ⟨(segNo, f) :: init, segNo', f', bs :: cs, c, tail, rfl, by simp [hinit, hdrop], hf, rfl, hcut⟩
    · simp only [pure_eq_ok, Except.ok.injEq, Prod.mk.injEq] at h
      obtain ⟨rfl, rfl⟩ := h
      rw [List.isEmpty_iff] at hlast
      subst hlast
      refine ⟨[bs], rs, by simpa using hchain, by simp, .inr ⟨[], segNo, f, [], bs, tail, rfl, rfl, hdrop, rfl, ?_⟩⟩
      rw [Nat.zero_add]

/-- The log of a directory without segments is the empty one. -/
def padChunks (chunks : List (List Bytes)) : List (List Bytes) := if chunks = [] then [[]] else chunks

theorem logOf_concat (cs : List (List Bytes)) (c : List Bytes) (durable : Bool) : logOf (cs ++ [c]) durable =
    ⟨cs.length, c.flatten.length, c.flatten.length, segLensFrom 0 (cs ++ [c]), (cs ++ [c]).flatten.length,
      chainHead .zero (cs ++ [c]).flatten, offsetsFrom 0 (cs ++ [c]).flatten, durable⟩ := by
  simp [logOf]

theorem rebuildLog_none (chunks : List (List Bytes)) (durable : Bool) :
    rebuildLog (segLensFrom 0 chunks) (Scan.advance ⟨0, .zero, []⟩ 0 chunks.flatten) none durable =
      (logOf (padChunks chunks) durable, none, [.create ((padChunks chunks).length - 1)]) := by
  rcases List.eq_nil_or_concat' chunks with rfl | ⟨cs, c, rfl⟩
  · simp [rebuildLog, padChunks, segLensFrom, logOf, Scan.advance, chainHead, offsetsFrom]
  · have hne : cs ++ [c] ≠ [] := by simp
    have hseg : (segLensFrom 0 (cs ++ [c])).isEmpty = false := by simp [segLensFrom_append, segLensFrom]
    simp only [rebuildLog, segLensFrom_getLastD, hseg]
    simp [padChunks, logOf_concat, Scan.advance]

theorem rebuildLog_some (cs : List (List Bytes)) (c : List Bytes) (len : Nat) (durable : Bool) :
    rebuildLog (segLensFrom 0 cs ++ [(cs.length, len)]) (Scan.advance ⟨0, .zero, []⟩ 0 (cs ++ [c]).flatten)
      (some (cs.length, c.flatten.length)) durable =
      (logOf (cs ++ [c]) durable, some (.truncatedTail 1),
        [.setLen cs.length c.flatten.length, .create cs.length]) := by
  simp [rebuildLog, setLastLen_concat, logOf_concat, Scan.advance, segLensFrom_append, segLensFrom]

variable {nd : NsDir}

theorem recoverDurable_of_chained (dir : Bytes)
    (durable : Bool) (hd : nd.files = chunks.map List.flatten) (h : Chained .zero chunks.flatten rs) :
    recoverDurable dir nd durable =
      .ok (logOf (padChunks chunks) durable, none, [.create ((padChunks chunks).length - 1)]) := by
  have hscan := scanSegs_of_chained dir 0 (show Chained (Scan.mk 0 .zero []).head _ _ from h) hd
  have hlens := map_segLens_of_numbered (numbered_discoverFrom 0 nd.segs) hd
  rw [recoverDurable, hscan, ok_bind, NsDir.discover, hlens]
  exact congrArg Except.ok (rebuildLog_none chunks durable)

/-- Every segment file begins with its chunk. -/
def NsDir.Holds (nd : NsDir) (chunks : List (List Bytes)) : Prop :=
  ∀ j c, chunks[j]? = some c → ∃ f, nd.seg j = some f ∧ c.flatten <+: f.data

variable {cs : List (List Bytes)} {c : List Bytes}

omit [Crates] in
theorem NsDir.holds_of_files {t : Bytes}
    (hd : nd.files = cs.map List.flatten ++ [c.flatten ++ t]) : nd.Holds (cs ++ [c]) := by
  intro j d hj
  obtain ⟨hjlt, -⟩ := List.getElem?_eq_some_iff.1 hj
  simp only [List.length_append, List.length_singleton] at hjlt
  obtain ⟨f, hf, hdata⟩ := NsDir.seg_of_files (i := j) hd (by simpa using hjlt)
  refine ⟨f, hf, ?_⟩
  by_cases hlast : j < cs.length
  · rw [List.getElem?_append_left hlast] at hj
    rw [List.getElem?_append_left (by simpa using hlast), List.getElem?_map, hj, Option.map_some,
      Option.some.injEq] at hdata
    exact ⟨[], by rw [hdata, List.append_nil]⟩
  · obtain rfl : j = cs.length := by omega
    rw [List.getElem?_concat_length, Option.some.injEq] at hj
    rw [List.getElem?_append_right (by simp), List.length_map, Nat.sub_self, List.getElem?_cons_zero,
      Option.some.injEq] at hdata
    rw [hdata, ← hj]
    exact List.prefix_append ..

theorem readAt_logOf {durable : Bool} {pre post : List Bytes}
    (hd : nd.Holds chunks) (h : chunks.flatten = pre ++ b :: post) (hb : HeaderOk b) :
    (logOf chunks durable).readAt nd pre.flatten.length = .ok b := by
  obtain ⟨hlen, hdecl⟩ := hb
  have hhead : headerLen = 41 := rfl
  obtain ⟨j, c, k, hj, hseg, hk, hat⟩ := segmentAt_segLensFrom (by omega) h 0 0
  obtain ⟨f, hf, hdata⟩ := hd j c hj
  have hat := hat.of_prefix hdata
  have hhdr := readExact_of_at (k := 0) (n := headerLen) hat (by omega)
  have hrest := readExact_of_at (k := headerLen) (n := b.length - headerLen) hat (by omega)
  have hfield : slice (range b 0 headerLen) 1 5 = .ok (range b 1 5) := by
    rw [slice_eq_ok, ByteCodec.length_range (Nat.zero_le _) hlen]
    refine ⟨by omega, ?_⟩
    simp [range, hhead, List.drop_take, List.take_take]
  simp only [Nat.zero_add, Nat.add_zero] at hseg hhdr
  simp only [Log.readAt, logOf, hseg, ok_bind, hf, hhdr, hfield, hdecl, hrest, pure_eq_ok, Except.ok.injEq]
  rw [range, range, List.drop_zero, Nat.sub_zero, List.take_of_length_le (l := b.drop headerLen) (by simp),
    List.take_append_drop]

theorem Chained.headerOk (h : Chained head bs rs) :
    ∀ b ∈ bs, HeaderOk b := by
  induction h with
  | nil => simp
  | cons parsed _ ih =>
    obtain ⟨hlen, _, hdecl, _⟩ := parseChain_header parsed
    exact List.forall_mem_cons.2 ⟨⟨hlen, hdecl⟩, ih⟩

/-- `max = 0` is no bound. -/
def takeMax (max : Nat) (bs : List Bytes) : List Bytes := if max = 0 then bs else bs.take max

theorem readRecords_logOf {durable : Bool} (hd : nd.Holds chunks) (hb : ∀ b ∈ chunks.flatten, HeaderOk b) (start max : Nat) :
    (logOf chunks durable).readRecords nd (start + 1) max =
      .ok (numberFrom (start + 1) (takeMax max (chunks.flatten.drop start))) := by
  have hlen : (logOf chunks durable).offsets.length = chunks.flatten.length := length_offsetsFrom ..
  by_cases hstart : chunks.flatten.length ≤ start
  · have hseq : start + 1 = 0 ∨ start + 1 > (logOf chunks durable).seq := .inr (Nat.lt_succ_of_le hstart)
    rw [Log.readRecords, if_pos hseq, List.drop_eq_nil_of_le hstart]
    simp [takeMax, numberFrom]
  · have hseq : ¬ (start + 1 = 0 ∨ start + 1 > (logOf chunks durable).seq) := by
      change ¬ (start + 1 = 0 ∨ start + 1 > chunks.flatten.length)
      omega
    -- the number of records to read
    obtain ⟨n, hn, hcount, htake⟩ : ∃ n, start + n ≤ chunks.flatten.length ∧
        (if max = 0 then chunks.flatten.length else min (start + max) chunks.flatten.length) - start = n ∧
        takeMax max (chunks.flatten.drop start) = (chunks.flatten.drop start).take n := by
      refine ⟨_, ?_, rfl, ?_⟩
      · split <;> omega
      · unfold takeMax
        split
        · exact (List.take_of_length_le (by simp)).symm
        · rw [List.take_eq_take_iff, List.length_drop]
          omega
    have hread : ∀ idx ∈ List.range' start n,
        (logOf chunks durable).readNth nd idx = .ok (idx + 1, chunks.flatten.getD idx []) := by
      intro idx hidx
      have hlt : idx < chunks.flatten.length := by
        rw [List.mem_range'_1] at hidx
        omega
      have hsplit : chunks.flatten = chunks.flatten.take idx ++ chunks.flatten[idx] :: chunks.flatten.drop (idx + 1) := by
        rw [← List.drop_eq_getElem_cons hlt, List.take_append_drop]
      have hoff : (logOf chunks durable).offsets[idx]? = some (chunks.flatten.take idx).flatten.length := by
        rw [logOf, getElem?_offsetsFrom 0 hlt, Nat.zero_add]
      simp only [Log.readNth, hoff, readAt_logOf hd hsplit (hb _ (List.getElem_mem hlt)), ok_bind, pure_eq_ok,
        List.getD_eq_getElem?_getD, List.getElem?_eq_getElem hlt, Option.getD_some]
    rw [Log.readRecords, if_neg hseq, htake, ← map_range'_eq_numberFrom hn, ← mapM_eq_ok_map hread, ← hcount]
    simp [hlen]

/-- The segments and the handle of a log that holds exactly `bs`. -/
structure LogRep (nd : NsDir) (log : Log) (bs : List Bytes) : Prop where
  clean : nd.Clean
  chunks : ∃ chunks, chunks ≠ [] ∧ chunks.flatten = bs ∧ nd.files = chunks.map List.flatten ∧
    log = logOf chunks log.durable

variable {log : Log}

theorem LogRep.seq_eq (h : LogRep nd log bs) : log.seq = bs.length := by
  obtain ⟨chunks, _, rfl, _, hlog⟩ := h.chunks
  rw [hlog]
  rfl

theorem LogRep.head_eq (h : LogRep nd log bs) :
    log.head = chainHead .zero bs := by
  obtain ⟨chunks, _, rfl, _, hlog⟩ := h.chunks
  rw [hlog]
  rfl

theorem LogRep.offsets_eq (h : LogRep nd log bs) :
    log.offsets = offsetsFrom 0 bs := by
  obtain ⟨chunks, _, rfl, _, hlog⟩ := h.chunks
  rw [hlog]
  rfl

theorem LogRep.readRecords (h : LogRep nd log bs)
    (hb : ∀ b ∈ bs, HeaderOk b) (start max : Nat) :
    log.readRecords nd (start + 1) max = .ok (numberFrom (start + 1) (takeMax max (bs.drop start))) := by
  obtain ⟨chunks, hne, rfl, hfiles, hlog⟩ := h.chunks
  obtain ⟨cs, c, rfl⟩ := (List.eq_nil_or_concat' chunks).resolve_left hne
  rw [hlog]
  have hfiles' : nd.files = cs.map List.flatten ++ [c.flatten ++ []] := by rw [hfiles]; simp
  exact readRecords_logOf (NsDir.holds_of_files hfiles') hb start max

theorem writeRecord_logOf (durable : Bool) (hb : 41 ≤ b.length)
    (hprev : range b 9 41 = (chainHead .zero (cs ++ [c]).flatten).val) :
    (logOf (cs ++ [c]) durable).writeRecord b =
      (.write cs.length c.flatten.length b :: (if durable then [.sync cs.length] else []),
        .ok (logOf (cs ++ [c ++ [b]]) durable)) := by
  have hslice : slice b 9 41 = .ok (chainHead .zero (cs ++ [c]).flatten).val := slice_eq_ok.2 ⟨by omega, hprev⟩
  have hsum := sum_segLensFrom 0 (cs ++ [c])
  rw [logOf_concat] at *
  simp only [Log.writeRecord, hslice, ok_bind, tryInto32_val, pure_eq_ok, hsum]
  rw [logOf_concat]
  simp [segLensFrom_append, segLensFrom, setLastLen_concat, chainHead, offsetsFrom_append, offsetsFrom,
    ← List.append_assoc]

theorem roll_logOf (cs : List (List Bytes)) (c : List Bytes) (durable : Bool) (len : Nat) :
    (logOf (cs ++ [c]) durable).roll len = (logOf (cs ++ [c]) durable, []) ∨
      (logOf (cs ++ [c]) durable).roll len = (logOf (cs ++ [c] ++ [[]]) durable, [.create (cs ++ [c]).length]) := by
  unfold Log.roll
  split
  · right
    rw [logOf_concat, logOf_concat]
    simp [segLensFrom_append, segLensFrom]
  · exact .inl rfl

theorem LogRep.writeRecord (durable : Bool)
    (hclean : nd.Clean) (hfiles : nd.files = (cs ++ [c]).map List.flatten) (hb : 41 ≤ b.length)
    (hprev : range b 9 41 = (chainHead .zero (cs ++ [c]).flatten).val) :
    ∃ effects log', (logOf (cs ++ [c]) durable).writeRecord b = (effects, .ok log') ∧ log'.durable = durable ∧
      LogRep (applyAll nd effects) log' ((cs ++ [c]).flatten ++ [b]) := by
  refine ⟨_, _, writeRecord_logOf durable hb hprev, rfl, ?_⟩
  rw [List.map_append, List.map_singleton] at hfiles
  have hwrite := NsDir.files_write_last hfiles b
  rw [List.length_map] at hwrite
  have hall : (applyAll nd (.write cs.length c.flatten.length b :: if durable then [.sync cs.length] else [])).files =
      cs.map List.flatten ++ [c.flatten ++ b] := by
    rw [applyAll_cons]
    split
    · rw [applyAll_cons, applyAll_nil, NsDir.files_sync, hwrite]
    · rw [applyAll_nil, hwrite]
  refine ⟨hclean.of_length_le (by rw [hall, hfiles]; simp) fun i hi => ?_,
    cs ++ [c ++ [b]], by simp, by simp, by rw [hall]; simp, rfl⟩
  have hne : i ≠ cs.length := by
    simp only [hall, List.length_append, List.length_map, List.length_singleton] at hi
    omega
  split <;> simp [applyAll_cons, applyAll_nil, SegEffect.apply, NsDir.seg_setSeg, if_neg hne]

theorem LogRep.roll (h : LogRep nd log bs) (len : Nat) :
    LogRep (applyAll nd (log.roll len).2) (log.roll len).1 bs ∧ (log.roll len).1.durable = log.durable := by
  obtain ⟨hclean, chunks, hne, rfl, hfiles, hlog⟩ := h
  obtain ⟨cs, c, rfl⟩ := (List.eq_nil_or_concat' chunks).resolve_left hne
  rw [hlog]
  rcases roll_logOf cs c log.durable len with hroll | hroll
  · rw [hroll]
    exact ⟨⟨hclean, cs ++ [c], by simp, rfl, hfiles, rfl⟩, rfl⟩
  · rw [hroll]
    have hnext : nd.seg (((cs ++ [c]).map List.flatten).length + 1) = none := hclean _ (by rw [hfiles]; omega)
    have hcreate := NsDir.files_create_concat hfiles hnext
    rw [List.length_map] at hcreate
    refine ⟨⟨?_, cs ++ [c] ++ [[]], by simp, by simp, ?_, rfl⟩, rfl⟩
    · refine hclean.of_length_le (by rw [applyAll_cons, applyAll_nil, hcreate, hfiles]; simp) fun i hi => ?_
      rw [applyAll_cons, applyAll_nil, hcreate, List.length_append, List.length_map] at hi
      rw [applyAll_cons, applyAll_nil, SegEffect.apply, NsDir.seg_setSeg, if_neg (by simp at hi ⊢; omega)]
    · rw [applyAll_cons, applyAll_nil, hcreate]
      simp

theorem LogRep.append (h : LogRep nd log bs)
    (hb : 41 ≤ b.length) (hprev : range b 9 41 = log.head.val) :
    ∃ effects log', log.append b = (effects, .ok log') ∧ log'.durable = log.durable ∧
      LogRep (applyAll nd effects) log' (bs ++ [b]) := by
  rw [h.head_eq] at hprev
  obtain ⟨⟨hclean, chunks, hne, rfl, hfiles, hlog⟩, hdurable⟩ := h.roll b.length
  obtain ⟨cs, c, rfl⟩ := (List.eq_nil_or_concat' chunks).resolve_left hne
  obtain ⟨effects, log', hw, hdur, hrep⟩ := LogRep.writeRecord (log.roll b.length).1.durable hclean hfiles hb hprev
  rw [← hlog] at hw
  refine ⟨(log.roll b.length).2 ++ effects, log', ?_, hdur.trans hdurable, ?_⟩
  · rw [Log.append]
    simp [hw]
  · rw [applyAll_append]
    exact hrep

theorem LogRep.recover (h : LogRep nd log bs)
    (hc : Chained .zero bs rs) (dir : Bytes) (durable : Bool) :
    ∃ i, recoverDurable dir nd durable = .ok ({ log with durable := durable }, none, [.create i]) ∧
      applyAll nd [.create i] = nd ∧ LogRep nd { log with durable := durable } bs := by
  obtain ⟨hclean, chunks, hne, rfl, hfiles, hlog⟩ := h
  have hpad : padChunks chunks = chunks := if_neg hne
  have hlog' : { log with durable := durable } = logOf chunks durable := by rw [hlog]; rfl
  have hlast : chunks.length - 1 < nd.files.length := by
    rw [hfiles, List.length_map]
    have := List.length_pos_iff.2 hne
    omega
  rw [recoverDurable_of_chained dir durable hfiles hc, hpad, hlog']
  exact ⟨_, rfl, NsDir.create_self hlast, hclean, chunks, hne, rfl, hfiles, rfl⟩

theorem LogRep.sync (h : LogRep nd log bs) (i : Nat) :
    LogRep (applyAll nd [.sync i]) log bs := by
  obtain ⟨hclean, chunks, hne, hflat, hfiles, hlog⟩ := h
  have hsync : (applyAll nd [.sync i]).files = nd.files := NsDir.files_sync ..
  refine ⟨fun j hj => ?_, chunks, hne, hflat, hsync.trans hfiles, hlog⟩
  rw [hsync] at hj
  exact SegEffect.seg_apply_sync.2 (hclean j hj)

theorem files_writeFresh (hgap : nd.seg 0 ≠ none ∨ nd.seg 1 = none) (records : List Record) :
    (applyAll nd (writeFresh nd records)).files = [(encodeChain .zero records).flatten] := by
  have hcut := NsDir.files_truncate_removed hgap
  have hwrite := files_applyAll_writeAllFrom hcut (encodeChain .zero records)
  rw [writeFresh, applyAll_append, applyAll_append, applyAll_append]
  rw [applyAll_cons, applyAll_nil, NsDir.files_sync]
  simpa [applyAll_cons, applyAll_nil] using hwrite

theorem clean_writeFresh (hclean : nd.Clean) (records : List Record) :
    (applyAll nd (writeFresh nd records)).Clean := by
  have hgap : nd.seg 0 ≠ none ∨ nd.seg 1 = none := by
    by_cases h : nd.files = []
    · exact .inr (hclean 1 (by simp [h]))
    · left
      obtain ⟨f, hf, _⟩ := NsDir.seg_of_files (i := 0) rfl (List.length_pos_iff.2 h)
      simp [hf]
  intro j hj
  rw [files_writeFresh hgap, List.length_singleton] at hj
  rw [writeFresh, applyAll_append, applyAll_append, applyAll_append, applyAll_cons, applyAll_nil,
    SegEffect.seg_apply_sync, seg_applyAll_writeAllFrom _ _ _ (by omega), applyAll_cons, applyAll_nil, SegEffect.apply,
    NsDir.seg_setSeg, if_neg (by omega), seg_applyAll_remove nd.numbered_discover]
  split
  · rfl
  · refine hclean j ?_
    rw [NsDir.files, List.length_map]
    omega

theorem LogRep.writeFresh (h : LogRep nd log bs) (out : List Record) :
    ∃ log', LogRep (applyAll nd (writeFresh nd out)) log' (encodeChain .zero out) := by
  obtain ⟨hclean, chunks, hne, _, hfiles, _⟩ := h
  have hgap : nd.seg 0 ≠ none ∨ nd.seg 1 = none := by
    left
    obtain ⟨f, hf, _⟩ := NsDir.seg_of_files (i := 0) rfl (by rw [hfiles, List.length_map]; exact List.length_pos_iff.2 hne)
    simp [hf]
  exact ⟨logOf [encodeChain .zero out] false, clean_writeFresh hclean out, [encodeChain .zero out], by simp, by simp,
    by rw [files_writeFresh hgap]; rfl, rfl⟩

theorem logRep_empty (durable : Bool) : LogRep (applyAll NsDir.empty [.create 0]) (logOf [[]] durable) [] := by
  refine ⟨fun i hi => ?_, [[]], by simp, rfl, rfl, rfl⟩
  have hi : 1 ≤ i := hi
  rw [applyAll_cons, applyAll_nil, SegEffect.apply, NsDir.seg_setSeg, if_neg (by omega)]
  rfl

end BunnyMesh
