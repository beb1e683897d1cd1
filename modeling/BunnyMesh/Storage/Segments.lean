import BunnyMesh.Storage.Log

/-!
# Segment files

What the file-system effects of the log do to the segments that a recovery scan visits.  `NsDir.files` are the
contents of `log.0.seg`, `log.1.seg`, … up to the first gap; a byte string list cut into `chunks` is laid out in them
one chunk a segment.
-/

namespace BunnyMesh

/-! ### Layout -/

def offsetsFrom : Nat → List Bytes → List Nat
  | _, [] => []
  | base, b :: bs => base :: offsetsFrom (base + b.length) bs

def segLensFrom : Nat → List (List Bytes) → List (Nat × Nat)
  | _, [] => []
  | i, c :: cs => (i, c.flatten.length) :: segLensFrom (i + 1) cs

def NsDir.files (nd : NsDir) : List Bytes := nd.discover.map (·.2.data)

theorem offsetsFrom_append (base : Nat) (bs bs' : List Bytes) :
    offsetsFrom base (bs ++ bs') = offsetsFrom base bs ++ offsetsFrom (base + bs.flatten.length) bs' := by
  induction bs generalizing base with
  | nil => simp [offsetsFrom]
  | cons b bs ih =>
    simp [offsetsFrom, ih, Nat.add_assoc]

theorem length_offsetsFrom (base : Nat) (bs : List Bytes) : (offsetsFrom base bs).length = bs.length := by
  induction bs generalizing base with
  | nil => rfl
  | cons b bs ih => simp [offsetsFrom, ih]

/-! ### Segment files -/

theorem NsDir.seg_setSeg (nd : NsDir) (i j : Nat) (f : Option SegFile) :
    (nd.setSeg i f).seg j = if j = i then f else nd.seg j := by
  have hlen : i < nd.segs.length + (i + 1 - nd.segs.length) := by omega
  unfold NsDir.setSeg NsDir.seg
  simp only [List.getD_eq_getElem?_getD, List.getElem?_set, List.length_append, List.length_replicate]
  rcases eq_or_ne j i with rfl | hne
  · simp [hlen]
  · rw [if_neg hne.symm, if_neg hne]
    by_cases hj : j < nd.segs.length
    · rw [List.getElem?_append_left hj]
    · rw [List.getElem?_append_right (by omega), List.getElem?_replicate, List.getElem?_eq_none (by omega)]
      split <;> rfl

def Numbered : Nat → List (Nat × SegFile) → Prop
  | _, [] => True
  | i, x :: xs => x.1 = i ∧ Numbered (i + 1) xs

theorem numbered_discoverFrom (i : Nat) (segs : List (Option SegFile)) : Numbered i (discoverFrom i segs) := by
  induction segs generalizing i with
  | nil => trivial
  | cons f segs ih =>
    cases f with
    | none => trivial
    | some f => exact ⟨rfl, ih (i + 1)⟩

variable {nd : NsDir} {ds : List Bytes}

theorem NsDir.files_eq_iff :
    nd.files = ds ↔ (∀ i < ds.length, (nd.seg i).map (·.data) = ds[i]?) ∧ nd.seg ds.length = none := by
  have key : ∀ (segs : List (Option SegFile)) (n : Nat) (ds : List Bytes), (discoverFrom n segs).map (·.2.data) = ds ↔
      (∀ i < ds.length, (segs.getD i none).map (·.data) = ds[i]?) ∧ segs.getD ds.length none = none := by
    intro segs
    induction segs with
    | nil =>
      intro n ds
      cases ds with
      | nil => simp [discoverFrom]
      | cons d ds =>
        simp only [discoverFrom, List.map_nil, List.nil_eq, reduceCtorEq, false_iff, not_and]
        intro h
        have := h 0 (by simp)
        simp at this
    | cons f segs ih =>
      intro n ds
      cases f with
      | none =>
        cases ds with
        | nil => simp [discoverFrom]
        | cons d ds =>
          simp only [discoverFrom, List.map_nil, List.nil_eq, reduceCtorEq, false_iff, not_and]
          intro h
          have := h 0 (by simp)
          simp at this
      | some f =>
        cases ds with
        | nil => simp [discoverFrom]
        | cons d ds =>
          simp only [discoverFrom, List.map_cons, List.cons.injEq, ih (n + 1) ds, List.length_cons,
            List.getD_cons_succ, ← and_assoc]
          refine and_congr_left fun _ => ⟨?_, ?_⟩
          · rintro ⟨rfl, h⟩ i hi
            cases i with
            | zero => rfl
            | succ i => exact h i (by omega)
          · intro h
            exact ⟨by simpa using h 0 (by omega), fun i hi => h (i + 1) (by omega)⟩
  exact key nd.segs 0 ds

variable {i : Nat}

theorem map_segLens_of_numbered {found : List (Nat × SegFile)} {chunks : List (List Bytes)}
    (hn : Numbered i found) (hd : found.map (·.2.data) = chunks.map List.flatten) :
    found.map (fun x => (x.1, x.2.data.length)) = segLensFrom i chunks := by
  induction found generalizing i chunks with
  | nil =>
    cases chunks with
    | nil => rfl
    | cons c cs => simp at hd
  | cons x xs ih =>
    cases chunks with
    | nil => simp at hd
    | cons c cs =>
      simp only [List.map_cons, List.cons.injEq] at hd
      simp [segLensFrom, hn.1, hd.1, ih hn.2 hd.2]

theorem segLensFrom_append (i : Nat) (cs cs' : List (List Bytes)) :
    segLensFrom i (cs ++ cs') = segLensFrom i cs ++ segLensFrom (i + cs.length) cs' := by
  induction cs generalizing i with
  | nil => simp [segLensFrom]
  | cons c cs ih =>
    simp only [List.cons_append, segLensFrom, ih, List.length_cons, List.cons_append]
    congr 3
    omega

theorem setLastLen_concat (l : List (Nat × Nat)) (n len len' : Nat) :
    setLastLen (l ++ [(n, len)]) len' = l ++ [(n, len')] := by
  induction l with
  | nil => rfl
  | cons x l ih =>
    cases l with
    | nil => rfl
    | cons y l => 
      rw [List.cons_append, List.cons_append, setLastLen, ← List.cons_append, ih]
      rfl

variable {f : SegFile}

theorem NsDir.files_setSeg (h : nd.files = ds)
    (hi : i < ds.length) : (nd.setSeg i (some f)).files = ds.set i f.data := by
  rw [NsDir.files_eq_iff] at h ⊢
  rw [List.length_set]
  refine ⟨fun j hj => ?_, ?_⟩
  · rw [seg_setSeg, List.getElem?_set]
    rcases eq_or_ne j i with rfl | hne
    · simp [hj]
    · rw [if_neg hne, if_neg hne.symm, h.1 j hj]
  · rw [seg_setSeg, if_neg (by omega), h.2]

theorem NsDir.files_setSeg_concat (h : nd.files = ds)
    (hnext : nd.seg (ds.length + 1) = none) : (nd.setSeg ds.length (some f)).files = ds ++ [f.data] := by
  rw [NsDir.files_eq_iff] at h ⊢
  rw [List.length_append, List.length_singleton]
  refine ⟨fun j hj => ?_, ?_⟩
  · rw [seg_setSeg]
    rcases eq_or_ne j ds.length with rfl | hne
    · simp
    · rw [if_neg hne, h.1 j (by omega), List.getElem?_append_left (by omega)]
  · rw [seg_setSeg, if_neg (by omega), hnext]

theorem NsDir.seg_of_files (h : nd.files = ds) (hi : i < ds.length) :
    ∃ f, nd.seg i = some f ∧ some f.data = ds[i]? := by
  have hi' := (NsDir.files_eq_iff.1 h).1 i hi
  rw [List.getElem?_eq_getElem hi, Option.map_eq_some_iff] at hi'
  obtain ⟨f, hf, hd⟩ := hi'
  exact ⟨f, hf, by rw [hd, List.getElem?_eq_getElem hi]⟩

theorem NsDir.setSeg_self (h : nd.seg i = some f) : nd.setSeg i (some f) = nd := by
  rw [NsDir.seg, List.getD_eq_getElem?_getD, Option.getD_eq_iff] at h
  obtain ⟨hlt, hget⟩ := List.getElem?_eq_some_iff.1 (h.resolve_right nofun)
  have hpad : i + 1 - nd.segs.length = 0 := by omega
  rw [NsDir.setSeg, hpad, List.replicate_zero, List.append_nil, ← hget, List.set_getElem_self]

theorem NsDir.create_self (hi : i < nd.files.length) : (SegEffect.create i).apply nd = nd := by
  obtain ⟨f, hf, _⟩ := seg_of_files rfl hi
  rw [SegEffect.apply, hf]
  exact setSeg_self hf

theorem NsDir.files_create_concat (h : nd.files = ds)
    (hnext : nd.seg (ds.length + 1) = none) : ((SegEffect.create ds.length).apply nd).files = ds ++ [[]] := by
  have hnone := (NsDir.files_eq_iff.1 h).2
  rw [SegEffect.apply, hnone, files_setSeg_concat h hnext]
  rfl

theorem segLensFrom_getLastD (i : Nat) (cs : List (List Bytes)) (c : List Bytes) :
    (segLensFrom i (cs ++ [c])).getLastD (0, 0) = (i + cs.length, c.flatten.length) := by
  rw [segLensFrom_append, segLensFrom, segLensFrom]
  simp

theorem Numbered.of_concat {l : List (Nat × SegFile)} {x : Nat × SegFile} (h : Numbered i (l ++ [x])) :
    Numbered i l ∧ x.1 = i + l.length := by
  induction l generalizing i with
  | nil => exact ⟨trivial, h.1⟩
  | cons y l ih =>
    obtain ⟨hl, hx⟩ := ih h.2
    exact ⟨⟨h.1, hl⟩, by rw [hx, List.length_cons]; omega⟩

theorem mapM_eq_ok_map {α β : Type} {f : α → Res β} {g : α → β} {l : List α} (h : ∀ x ∈ l, f x = .ok (g x)) :
    l.mapM f = .ok (l.map g) := by
  induction l with
  | nil => simp
  | cons x l ih =>
    obtain ⟨hx, hl⟩ := List.forall_mem_cons.1 h
    simp [List.mapM_cons, hx, ih hl]

def numberFrom : Nat → List Bytes → List (Nat × Bytes)
  | _, [] => []
  | n, b :: bs => (n, b) :: numberFrom (n + 1) bs

theorem map_range'_eq_numberFrom {bs : List Bytes} {start n : Nat} (h : start + n ≤ bs.length) :
    (List.range' start n).map (fun idx => (idx + 1, bs.getD idx [])) =
      numberFrom (start + 1) ((bs.drop start).take n) := by
  induction n generalizing start with
  | zero => simp [numberFrom]
  | succ n ih =>
    have hlt : start < bs.length := by omega
    rw [List.range'_succ, List.map_cons, ih (by omega), List.drop_eq_getElem_cons hlt, List.take_succ_cons, numberFrom,
      List.getD_eq_getElem?_getD, List.getElem?_eq_getElem hlt, Option.getD_some]

theorem getElem?_offsetsFrom {bs : List Bytes} (base : Nat) (h : i < bs.length) :
    (offsetsFrom base bs)[i]? = some (base + (bs.take i).flatten.length) := by
  induction bs generalizing base i with
  | nil => simp at h
  | cons b bs ih =>
    cases i with
    | zero => simp [offsetsFrom]
    | succ i =>
      rw [offsetsFrom, List.getElem?_cons_succ, ih _ (by simpa using h)]
      simp [Nat.add_assoc]

/-- What a reader of a single record needs: the declared length is the actual one. -/
def HeaderOk (b : Bytes) : Prop := headerLen ≤ b.length ∧ fromLe (range b 1 5) = b.length - headerLen

theorem segmentAt_segLensFrom {chunks : List (List Bytes)} {pre post : List Bytes} {b : Bytes} (hb : 0 < b.length)
    (h : chunks.flatten = pre ++ b :: post) (i acc : Nat) :
    ∃ j c k, chunks[j]? = some c ∧
      segmentAt (acc + pre.flatten.length) (segLensFrom i chunks) acc = .ok (i + j, acc + k) ∧
      k ≤ pre.flatten.length ∧ At c.flatten (pre.flatten.length - k) b := by
  induction chunks generalizing pre i acc with
  | nil => simp at h
  | cons c cs ih =>
    rw [List.flatten_cons, List.append_eq_append_iff] at h
    rcases h with ⟨pre', hpre, h⟩ | ⟨c', hc, h⟩
    · -- the record lies behind this segment
      obtain ⟨j, d, k, hj, hseg, hk, hat⟩ := ih h (i + 1) (acc + c.flatten.length)
      have hlen : pre.flatten.length = c.flatten.length + pre'.flatten.length := by simp [hpre]
      refine ⟨j + 1, d, c.flatten.length + k, hj, ?_, by omega, ?_⟩
      · rw [segLensFrom, segmentAt, if_neg (by omega), hlen, ← Nat.add_assoc, hseg]
        simp [Nat.add_assoc, Nat.add_comm 1]
      · rwa [hlen, Nat.add_sub_add_left]
    · cases c' with
      | nil =>
        rw [List.append_nil] at hc
        obtain ⟨j, d, k, hj, hseg, hk, hat⟩ := ih (show _ = [] ++ _ from h.symm) (i + 1) (acc + c.flatten.length)
        simp only [List.flatten_nil, List.length_nil, Nat.add_zero, Nat.le_zero_eq] at hseg hk hat
        subst hk
        refine ⟨j + 1, d, c.flatten.length, hj, ?_, by rw [hc], by simpa [hc] using hat⟩
        rw [segLensFrom, segmentAt, hc, if_neg (by omega), ← hc, hseg]
        simp [Nat.add_assoc, Nat.add_comm 1]
      | cons b' c' =>
        obtain ⟨rfl, rfl⟩ : b = b' ∧ post = c' ++ cs.flatten := by simpa using h
        refine ⟨0, c, 0, rfl, ?_, Nat.zero_le _, ?_⟩
        · rw [segLensFrom, segmentAt, if_pos]
          · simp
          · simp only [hc, List.flatten_append, List.flatten_cons, List.length_append]
            omega
        · exact ⟨pre.flatten, c'.flatten, by simp [hc], by simp⟩

theorem readExact_of_at {data b : Bytes} {pos k n : Nat} (h : At data pos b) (hn : k + n ≤ b.length) :
    readExact data (pos + k) n = .ok (range b k (k + n)) := by
  have hle := h.length_le
  rw [readExact, if_pos (by omega), Nat.add_assoc, h.range_add hn]

theorem NsDir.numbered_discover (nd : NsDir) : Numbered 0 nd.discover := numbered_discoverFrom 0 nd.segs

/-- No segment file stands behind the first gap. -/
def NsDir.Clean (nd : NsDir) : Prop := ∀ i, nd.files.length ≤ i → nd.seg i = none

@[simp] theorem SegEffect.policy_apply (nd : NsDir) (e : SegEffect) : (e.apply nd).policy = nd.policy := by
  cases e <;> rfl

@[simp] theorem policy_applyAll (nd : NsDir) (effects : List SegEffect) :
    (applyAll nd effects).policy = nd.policy := by
  induction effects generalizing nd with
  | nil => rfl
  | cons e es ih => simp only [applyAll, List.foldl_cons] at ih ⊢; rw [ih, SegEffect.policy_apply]

theorem applyAll_append (nd : NsDir) (es es' : List SegEffect) :
    applyAll nd (es ++ es') = applyAll (applyAll nd es) es' :=
  List.foldl_append

theorem applyAll_cons (nd : NsDir) (e : SegEffect) (es : List SegEffect) :
    applyAll nd (e :: es) = applyAll (e.apply nd) es := rfl

theorem applyAll_nil (nd : NsDir) : applyAll nd [] = nd := rfl

theorem NsDir.Clean.of_length_le {nd' : NsDir} (h : nd.Clean) (hlen : nd.files.length ≤ nd'.files.length)
    (hseg : ∀ i, nd'.files.length ≤ i → nd'.seg i = nd.seg i) : nd'.Clean :=
  fun i hi => (hseg i hi).trans (h i (by omega))

theorem writeAt_end (data bytes : Bytes) : writeAt data data.length bytes = data ++ bytes := by
  simp [writeAt]

variable {d : Bytes}

theorem NsDir.files_write_last (h : nd.files = ds ++ [d]) (b : Bytes) :
    ((SegEffect.write ds.length d.length b).apply nd).files = ds ++ [d ++ b] := by
  have hlt : ds.length < (ds ++ [d]).length := by simp
  obtain ⟨f, hf, hdata⟩ := seg_of_files h hlt
  simp only [List.getElem?_append_right, Nat.le_refl, Nat.sub_self, List.getElem?_cons_zero,
    Option.some.injEq] at hdata
  rw [SegEffect.apply, hf, Option.map_some, files_setSeg h hlt, hdata, writeAt_end]
  simp

theorem NsDir.files_setLen_last {t : Bytes} (h : nd.files = ds ++ [d ++ t]) :
    ((SegEffect.setLen ds.length d.length).apply nd).files = ds ++ [d] := by
  have hlt : ds.length < (ds ++ [d ++ t]).length := by simp
  obtain ⟨f, hf, hdata⟩ := seg_of_files h hlt
  simp only [List.getElem?_append_right, Nat.le_refl, Nat.sub_self, List.getElem?_cons_zero,
    Option.some.injEq] at hdata
  rw [SegEffect.apply, hf, Option.map_some, files_setSeg h hlt, hdata, List.take_left]
  simp

theorem NsDir.files_congr {nd' : NsDir} (h : ∀ i, (nd'.seg i).map (·.data) = (nd.seg i).map (·.data)) :
    nd'.files = nd.files := by
  obtain ⟨hfiles, hend⟩ := NsDir.files_eq_iff.1 (rfl : nd.files = _)
  refine NsDir.files_eq_iff.2 ⟨fun i hi => (h i).trans (hfiles i hi), ?_⟩
  have hlast := h nd.files.length
  rwa [hend, Option.map_none, Option.map_eq_none_iff] at hlast

theorem NsDir.files_sync (nd : NsDir) (i : Nat) : ((SegEffect.sync i).apply nd).files = nd.files := by
  refine files_congr fun j => ?_
  rw [SegEffect.apply, seg_setSeg]
  split
  · subst j; simp [Function.comp_def]
  · rfl

theorem SegEffect.seg_apply_sync {j : Nat} :
    ((SegEffect.sync i).apply nd).seg j = none ↔ nd.seg j = none := by
  rw [SegEffect.apply, NsDir.seg_setSeg]
  split
  · subst j; simp
  · rfl

theorem sum_segLensFrom (i : Nat) (chunks : List (List Bytes)) :
    ((segLensFrom i chunks).map (·.2)).sum = chunks.flatten.flatten.length := by
  induction chunks generalizing i with
  | nil => rfl
  | cons c cs ih => simp [segLensFrom, ih]

theorem segLens_of_discover {init : List (Nat × SegFile)} {segNo : Nat}
    {cs : List (List Bytes)} (hfound : nd.discover = init ++ [(segNo, f)])
    (hinit : init.map (·.2.data) = cs.map List.flatten) : segNo = cs.length ∧
      nd.discover.map (fun x => (x.1, x.2.data.length)) = segLensFrom 0 cs ++ [(cs.length, f.data.length)] := by
  have hnum := nd.numbered_discover
  rw [hfound] at hnum
  obtain ⟨hnumInit, hsegNo⟩ := hnum.of_concat
  have hlen : init.length = cs.length := by simpa using congrArg List.length hinit
  rw [Nat.zero_add, hlen] at hsegNo
  refine ⟨hsegNo, ?_⟩
  rw [hfound, List.map_append, map_segLens_of_numbered hnumInit hinit, List.map_singleton, hsegNo]

/-! ### Rewriting the log -/

theorem seg_applyAll_remove {found : List (Nat × SegFile)} (hn : Numbered i found) (nd : NsDir) (j : Nat) :
    (applyAll nd (found.map fun x => .remove x.1)).seg j =
      if i ≤ j ∧ j < i + found.length then none else nd.seg j := by
  induction found generalizing i nd with
  | nil => rw [if_neg (by simp only [List.length_nil]; omega)]; rfl
  | cons x xs ih =>
    rw [List.map_cons, applyAll_cons, ih hn.2, SegEffect.apply, NsDir.seg_setSeg, hn.1, List.length_cons]
    split_ifs <;> first | rfl | omega

theorem NsDir.files_removed (nd : NsDir) :
    (applyAll nd (nd.discover.map fun x => .remove x.1)).files = [] := by
  rw [NsDir.files_eq_iff]
  refine ⟨fun i hi => by simp at hi, ?_⟩
  rw [seg_applyAll_remove nd.numbered_discover]
  split
  · rfl
  · rename_i h
    have hlen : nd.files.length = 0 := by
      simp only [NsDir.files, NsDir.discover, List.length_map, List.length_nil] at h ⊢
      omega
    have hend := (NsDir.files_eq_iff.1 (rfl : nd.files = _)).2
    rwa [hlen] at hend

theorem NsDir.files_truncate_removed (hgap : nd.seg 0 ≠ none ∨ nd.seg 1 = none) :
    ((SegEffect.truncate 0).apply (applyAll nd (nd.discover.map fun x => .remove x.1))).files = [[]] := by
  refine files_setSeg_concat nd.files_removed ?_
  rw [seg_applyAll_remove nd.numbered_discover]
  split
  · rfl
  · rename_i h
    obtain ⟨_, hend⟩ := NsDir.files_eq_iff.1 (rfl : nd.files = _)
    simp only [NsDir.files, NsDir.discover, List.length_map, List.length_nil] at h hend
    obtain hlen | hlen : (discoverFrom 0 nd.segs).length = 0 ∨ (discoverFrom 0 nd.segs).length = 1 := by omega
    · rw [hlen] at hend
      exact hgap.resolve_left (absurd hend)
    · rwa [hlen] at hend

theorem files_applyAll_writeAllFrom (h : nd.files = [d]) (bs : List Bytes) :
    (applyAll nd (writeAllFrom d.length bs)).files = [d ++ bs.flatten] := by
  induction bs generalizing nd d with
  | nil => simpa [writeAllFrom, applyAll_nil] using h
  | cons b bs ih =>
    have hb := NsDir.files_write_last (show nd.files = [] ++ [d] from h) b
    simpa [writeAllFrom, applyAll_cons] using ih hb

theorem seg_applyAll_writeAllFrom (nd : NsDir) (pos : Nat) (bs : List Bytes) {j : Nat} (hj : j ≠ 0) :
    (applyAll nd (writeAllFrom pos bs)).seg j = nd.seg j := by
  induction bs generalizing nd pos with
  | nil => rfl
  | cons b bs ih => rw [writeAllFrom, applyAll_cons, ih, SegEffect.apply, NsDir.seg_setSeg, if_neg hj]

end BunnyMesh
