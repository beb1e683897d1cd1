import BunnyMesh.Storage.LogRep
import Mathlib.Data.List.Induction

/-!
# How a recovery scan ends

The segments of a directory are read as a chain of records up to the first place where no record stands (`Stuck`).  What
stands there decides: nothing, and the scan is through; something that looks like the beginning of a record at the end of
the last segment (`Torn`), and it is cut off; anything else, and the scan refuses the directory.
-/

namespace BunnyMesh

/-! ### What stands behind the records -/

def announced (t : Bytes) : Nat := headerLen + fromLe (range t 1 5)

def Tagged (t : Bytes) : Prop := ∃ tag, t[0]? = some tag ∧ isRecordTag tag

/-- Bytes that look like the beginning of a record: less than a header, or a record announced up to the end of the file or
further that is no record chained to `head`. -/
def Torn (head : Bytes32) (t : Bytes) : Prop :=
  t ≠ [] ∧ (t.length < headerLen ∨
    Tagged t ∧ (t.length < announced t ∨ t.length = announced t ∧ ∃ e, parse t head = .error (.err e)))

/-- The parser stops the process on the record that is announced. -/
def Panics (head : Bytes32) (t : Bytes) : Prop :=
  headerLen ≤ t.length ∧ Tagged t ∧ announced t ≤ t.length ∧
    ∃ detail, parse (t.take (announced t)) head = .error (.panic detail)

/-- No record chained to `head` stands at the beginning. -/
def Stuck (head : Bytes32) (t : Bytes) : Prop := ∀ b x, b <+: t → parse b head ≠ .ok x

theorem announced_of_parse {head : Bytes32} {b t : Bytes} {x : Record × Bytes32} (hb : b <+: t)
    (h : parse b head = .ok x) :
    headerLen ≤ t.length ∧ Tagged t ∧ announced t ≤ t.length ∧ b = t.take (announced t) := by
  obtain ⟨rest, rfl⟩ := hb
  obtain ⟨hlen, ⟨tag, htag, hrec⟩, hdecl, _⟩ := parseChain_header h
  have hhead : headerLen = 41 := rfl
  have hfield : range (b ++ rest) 1 5 = range b 1 5 := by
    unfold range
    rw [List.drop_append_of_le_length (by omega), List.take_append_of_le_length (by rw [List.length_drop]; omega)]
  have hann : announced (b ++ rest) = b.length := by rw [announced, hfield, hdecl]; omega
  refine ⟨by rw [List.length_append]; omega, ⟨tag, ?_, hrec⟩, by rw [hann, List.length_append]; omega, ?_⟩
  · rw [List.getElem?_append_left (by omega)]
    exact htag
  · rw [hann, List.take_left]

variable [Crates]

/-- What the scan of a segment makes of the bytes `t` it is stuck at, from the running values `st` and position `pos`. -/
inductive ScanEnd (dir : Bytes) (isLast : Bool) (t : Bytes) (st : Scan) (pos : Nat) : Res (Scan × Option Nat) → Prop where
  | clean (empty : t = []) : ScanEnd dir isLast t st pos (.ok (st, none))
  | torn (last : isLast) (torn : Torn st.head t) : ScanEnd dir isLast t st pos (.ok (st, some pos))
  | corrupt (nonempty : t ≠ []) (whole : isLast → ¬ Torn st.head t) (quiet : ¬ Panics st.head t) (detail : String) :
      ScanEnd dir isLast t st pos (.error (corruptIn dir detail))
  | panics (panics : Panics st.head t) (detail : String) : ScanEnd dir isLast t st pos (.error (.panic detail))

omit [Crates] in
theorem range_drop (b : Bytes) (pos i j : Nat) : range (b.drop pos) i j = range b (pos + i) (pos + j) := by
  unfold range
  rw [List.drop_drop, Nat.add_sub_add_left]

theorem scanSeg_stuck (dir : Bytes) (segNo : Nat) (isLast : Bool) (segBase : Nat) {buf : Bytes} {pos : Nat} {st : Scan}
    (h : Stuck st.head (buf.drop pos)) :
    ScanEnd dir isLast (buf.drop pos) st pos (scanSeg dir segNo isLast segBase buf pos st) := by
  have hhead : headerLen = 41 := rfl
  have hlen : (buf.drop pos).length = buf.length - pos := List.length_drop
  unfold scanSeg
  by_cases hpos : pos < buf.length
  · have hne : buf.drop pos ≠ [] := by
      rw [← List.length_pos_iff]
      omega
    rw [dif_pos hpos]
    by_cases hshort : buf.length - pos < headerLen
    · -- less than a header
      have htorn : Torn st.head (buf.drop pos) := ⟨hne, .inl (by omega)⟩
      have hquiet : ¬ Panics st.head (buf.drop pos) := fun hp => absurd hp.1 (by omega)
      rw [if_pos hshort]
      cases isLast with
      | true => exact .torn rfl htorn
      | false => exact .corrupt hne (by simp) hquiet _
    · rw [if_neg hshort]
      have hget : (buf.drop pos)[0]? = buf[pos]? := by rw [List.getElem?_drop, Nat.add_zero]
      obtain ⟨tag, htag⟩ : ∃ tag, buf[pos]? = some tag := ⟨_, List.getElem?_eq_getElem hpos⟩
      have hdecl : slice buf (pos + 1) (pos + 5) = .ok (range (buf.drop pos) 1 5) :=
        slice_eq_ok.2 ⟨by omega, (range_drop ..).symm⟩
      rw [index_eq_ok.2 htag, ok_bind]
      by_cases hrec : isRecordTag tag = true
      · have htagged : Tagged (buf.drop pos) := ⟨tag, hget.trans htag, hrec⟩
        rw [hrec, ensure_true, ok_bind, hdecl, ok_bind]
        change ScanEnd dir isLast (buf.drop pos) st pos (if announced (buf.drop pos) > buf.length - pos then _ else _)
        by_cases hpast : announced (buf.drop pos) > buf.length - pos
        · -- the record announced passes the end of the file
          have htorn : Torn st.head (buf.drop pos) := ⟨hne, .inr ⟨htagged, .inl (by omega)⟩⟩
          have hquiet : ¬ Panics st.head (buf.drop pos) := fun hp => absurd hp.2.2.1 (by omega)
          rw [if_pos hpast]
          cases isLast with
          | true => exact .torn rfl htorn
          | false => exact .corrupt hne (by simp) hquiet _
        · have htake : slice buf pos (pos + announced (buf.drop pos)) =
              .ok ((buf.drop pos).take (announced (buf.drop pos))) := by
            refine slice_eq_ok.2 ⟨by omega, ?_⟩
            rw [range, Nat.add_sub_cancel_left]
          rw [if_neg hpast]
          change ScanEnd dir isLast (buf.drop pos) st pos (slice buf pos (pos + announced (buf.drop pos)) >>= _)
          rw [htake, ok_bind]
          cases hparse : parse ((buf.drop pos).take (announced (buf.drop pos))) st.head with
          | ok x => exact absurd hparse (h _ x (List.take_prefix _ _))
          | error e =>
            have hquiet : ∀ err, e = .err err → ¬ Panics st.head (buf.drop pos) := by
              rintro err rfl ⟨_, _, _, detail, hp⟩
              rw [hparse] at hp
              cases hp
            cases e with
            | panic detail => exact .panics ⟨by omega, htagged, by omega, detail, hparse⟩ detail
            | err err =>
              change ScanEnd dir isLast (buf.drop pos) st pos
                (if (isLast && decide (announced (buf.drop pos) ≥ buf.length - pos)) = true then _ else _)
              by_cases hcut : (isLast && decide (announced (buf.drop pos) ≥ buf.length - pos)) = true
              · -- the last record of the file is damaged
                rw [if_pos hcut]
                simp only [Bool.and_eq_true, decide_eq_true_eq] at hcut
                have hall : (buf.drop pos).length = announced (buf.drop pos) := by omega
                rw [← hall, List.take_length] at hparse
                exact .torn hcut.1 ⟨hne, .inr ⟨htagged, .inr ⟨hall, err, hparse⟩⟩⟩
              · rw [if_neg hcut]
                refine .corrupt hne (fun hlast htorn => hcut ?_) (hquiet err rfl) _
                obtain ⟨_, hs | ⟨_, hs | ⟨hs, _⟩⟩⟩ := htorn
                · omega
                · omega
                · simp only [hlast, Bool.true_and, decide_eq_true_eq]
                  omega
      · -- a bad tag is never the end of a write
        have hno : ¬ Tagged (buf.drop pos) := by
          rintro ⟨tag', htag', hrec'⟩
          rw [hget, htag, Option.some.injEq] at htag'
          exact hrec (htag' ▸ hrec')
        rw [Bool.not_eq_true] at hrec
        rw [hrec, ensure_false, error_bind]
        refine .corrupt hne (fun _ htorn => ?_) (fun hp => hno hp.2.1) _
        obtain ⟨_, hs | ⟨hs, _⟩⟩ := htorn
        · omega
        · exact hno hs
  · rw [dif_neg hpos]
    exact .clean (List.drop_eq_nil_of_le (by omega))

/-! ### All segments -/

/-- The place where the segments stop being a chain of records: behind the segments `cs` and the records `c` of the next
one, the bytes `t` are no record. -/
structure StopsAt (ds : List Bytes) (cs : List (List Bytes)) (c : List Bytes) (t : Bytes) (post : List Bytes) : Prop where
  files : ds = cs.map List.flatten ++ (c.flatten ++ t) :: post
  chained : ∃ rs, Chained .zero (cs ++ [c]).flatten rs
  stuck : Stuck (chainHead .zero (cs ++ [c]).flatten) t
  nonempty : t ≠ []

/-- What a recovery makes of the place where the segments stop. -/
inductive RecoverEnd (dir : Bytes) (durable : Bool) (cs : List (List Bytes)) (c : List Bytes) (t : Bytes)
    (post : List Bytes) : Res (Log × Option RecoverWarning × List SegEffect) → Prop where
  | torn (last : post = []) (torn : Torn (chainHead .zero (cs ++ [c]).flatten) t) : RecoverEnd dir durable cs c t post
      (.ok (logOf (cs ++ [c]) durable, some (.truncatedTail 1), [.setLen cs.length c.flatten.length, .create cs.length]))
  | corrupt (whole : post = [] → ¬ Torn (chainHead .zero (cs ++ [c]).flatten) t)
      (quiet : ¬ Panics (chainHead .zero (cs ++ [c]).flatten) t) (detail : String) :
      RecoverEnd dir durable cs c t post (.error (corruptIn dir detail))
  | panics (panics : Panics (chainHead .zero (cs ++ [c]).flatten) t) (detail : String) :
      RecoverEnd dir durable cs c t post (.error (.panic detail))

theorem StopsAt.recover {nd : NsDir} {cs : List (List Bytes)} {c : List Bytes} {t : Bytes} {post : List Bytes}
    (h : StopsAt nd.files cs c t post) (dir : Bytes) (durable : Bool) :
    RecoverEnd dir durable cs c t post (recoverDurable dir nd durable) := by
  obtain ⟨hfiles, ⟨rs, hchain⟩, hstuck, hne⟩ := h
  -- the segments found, cut at the one the scan stops in
  obtain ⟨init, found, hfound, hinit, hrest⟩ := List.map_eq_append_iff.1 hfiles
  obtain ⟨⟨segNo, f⟩, post', rfl, hf, hpost⟩ := List.map_eq_cons_iff.1 hrest
  have hlast : post'.isEmpty = true ↔ post = [] := by
    rw [List.isEmpty_iff, ← hpost, List.map_eq_nil_iff]
  rw [List.flatten_append, List.flatten_singleton] at hchain
  obtain ⟨rs1, rs2, rfl, hchain1, hchain2⟩ := hchain.split
  have hskip := scanSegs_skip dir 0 (show Chained (Scan.mk 0 .zero []).head _ _ from hchain1) hinit ((segNo, f) :: post')
  let st := Scan.advance ⟨0, .zero, []⟩ 0 cs.flatten
  have hseg := scanSeg_skip dir segNo post'.isEmpty cs.flatten.flatten.length
    (show Chained st.head c rs2 from hchain2) (show At f.data 0 c.flatten from ⟨[], t, hf, rfl⟩)
  rw [Nat.zero_add, Nat.add_zero] at hseg
  have hdrop : f.data.drop c.flatten.length = t := by
    rw [hf, List.drop_left]
  have hheads : (st.advance cs.flatten.flatten.length c).head = chainHead .zero (cs ++ [c]).flatten := by
    rw [List.flatten_append, List.flatten_singleton, chainHead_append]
    rfl
  have hend := scanSeg_stuck dir segNo post'.isEmpty cs.flatten.flatten.length
    (show Stuck (st.advance cs.flatten.flatten.length c).head (f.data.drop c.flatten.length) by
      rw [hdrop, hheads]
      exact hstuck)
  rw [hdrop, ← hseg] at hend
  have hscan : scanSegs dir nd.discover 0 ⟨0, .zero, []⟩ =
      scanSegs dir ((segNo, f) :: post') cs.flatten.flatten.length st := by
    rw [hfound, hskip, Nat.zero_add]
  rw [recoverDurable, hscan, scanSegs]
  generalize scanSeg dir segNo post'.isEmpty cs.flatten.flatten.length f.data 0 st = res at hend
  cases hend with
  | clean empty => exact absurd empty hne
  | torn last torn =>
    rw [hheads] at torn
    obtain rfl : post' = [] := List.isEmpty_iff.1 last
    obtain ⟨rfl, hlens⟩ := segLens_of_discover hfound hinit
    have hrebuilt := rebuildLog_some cs c f.data.length durable
    rw [List.flatten_append, List.flatten_singleton, Scan.advance_append, Nat.zero_add] at hrebuilt
    simp only [ok_bind, pure_eq_ok, hlens]
    rw [hrebuilt]
    exact .torn (hlast.1 rfl) torn
  | corrupt _ whole quiet detail =>
    rw [hheads] at whole quiet
    exact .corrupt (fun hp => whole (hlast.2 hp)) quiet detail
  | panics panics detail =>
    rw [hheads] at panics
    exact .panics panics detail

end BunnyMesh
