import BunnyMesh.Lib.Utf8

/-!
# Lines of text

`str::lines`, `str::trim` and `str::split_once` on UTF-8 bytes, and which lines a text of lines has.
-/

namespace ByteCodec

def newline : UInt8 := 10

def stripCr (line : Bytes) : Bytes := if line.getLast? = some 13 then line.dropLast else line

/-- `str::lines`: what stands behind the last newline is a line only if it is not empty. -/
def lines (s : Bytes) : List Bytes :=
  (s.splitOn newline).dropLast.map stripCr ++ (s.splitOn newline).getLast?.toList.filter (!·.isEmpty)

/-- The encodings of the characters with the property `White_Space`. -/
def spaces : List Bytes :=
  [[9], [10], [11], [12], [13], [32], [0xC2, 0x85], [0xC2, 0xA0], [0xE1, 0x9A, 0x80], [0xE2, 0x80, 0x80],
    [0xE2, 0x80, 0x81], [0xE2, 0x80, 0x82], [0xE2, 0x80, 0x83], [0xE2, 0x80, 0x84], [0xE2, 0x80, 0x85],
    [0xE2, 0x80, 0x86], [0xE2, 0x80, 0x87], [0xE2, 0x80, 0x88], [0xE2, 0x80, 0x89], [0xE2, 0x80, 0x8A],
    [0xE2, 0x80, 0xA8], [0xE2, 0x80, 0xA9], [0xE2, 0x80, 0xAF], [0xE2, 0x81, 0x9F], [0xE3, 0x80, 0x80]]

/-- Drop the words `ws` from the front, as often as one stands there. -/
def dropWords (ws : List Bytes) (s : Bytes) : Bytes :=
  match ws.find? fun w => !w.isEmpty && w.isPrefixOf s with
  | none => s
  | some w => if w.length = 0 ∨ s.length = 0 then s else dropWords ws (s.drop w.length)
termination_by s.length
decreasing_by rw [List.length_drop]; omega

def trim (s : Bytes) : Bytes :=
  (dropWords (spaces.map List.reverse) (dropWords spaces s).reverse).reverse

def splitOnce (c : UInt8) : Bytes → Option (Bytes × Bytes)
  | [] => none
  | b :: rest => if b = c then some ([], rest) else (splitOnce c rest).map fun x => (b :: x.1, x.2)

/-! ### Lines -/

theorem lines_append (a b : Bytes) : lines (a ++ newline :: b) = (a.splitOn newline).map stripCr ++ lines b := by
  unfold lines
  rw [List.splitOn_append_cons_self, List.dropLast_append_of_ne_nil (List.splitOn_ne_nil _ _), List.map_append,
    List.append_assoc, List.getLast?_append]
  cases h : (b.splitOn newline).getLast? with
  | none => exact absurd (List.getLast?_eq_none_iff.1 h) (List.splitOn_ne_nil _ _)
  | some last => rfl

def Terminated (s : Bytes) : Prop := s = [] ∨ ∃ t, s = t ++ [newline]

theorem mem_lines {pre line post : Bytes} (hpre : Terminated pre) (hline : newline ∉ line) :
    stripCr line ∈ lines (pre ++ (line ++ newline :: post)) := by
  have hsplit : line.splitOn newline = [line] := List.splitOn_eq_singleton hline
  have hhead : stripCr line ∈ lines (line ++ newline :: post) := by
    rw [lines_append, hsplit]
    exact List.mem_append_left _ (List.mem_singleton.2 rfl)
  rcases hpre with rfl | ⟨t, rfl⟩
  · exact hhead
  · rw [List.append_assoc, List.singleton_append, lines_append]
    exact List.mem_append_right _ hhead

/-! ### Trimming -/

theorem dropWords_eq_self {ws : List Bytes} {s : Bytes} (h : ∀ w ∈ ws, w.head? ≠ s.head?) : dropWords ws s = s := by
  have hnone : ws.find? (fun w => !w.isEmpty && w.isPrefixOf s) = none := by
    rw [List.find?_eq_none]
    intro w hw hpre
    rw [Bool.and_eq_true, List.isPrefixOf_iff_prefix] at hpre
    obtain ⟨t, rfl⟩ := hpre.2
    cases w with
    | nil => exact absurd hpre.1 (by decide)
    | cons b w => exact h _ hw rfl
  rw [dropWords, hnone]

theorem trim_eq_self {s : Bytes} (hhead : ∀ w ∈ spaces, w.head? ≠ s.head?)
    (hlast : ∀ w ∈ spaces, w.getLast? ≠ s.getLast?) : trim s = s := by
  unfold trim
  rw [dropWords_eq_self hhead, dropWords_eq_self, List.reverse_reverse]
  intro w hw
  obtain ⟨w', hw', rfl⟩ := List.mem_map.1 hw
  rw [List.head?_reverse, List.head?_reverse]
  exact hlast w' hw'

theorem splitOnce_append {c : UInt8} {a : Bytes} (b : Bytes) (h : c ∉ a) : splitOnce c (a ++ c :: b) = some (a, b) := by
  induction a with
  | nil => exact if_pos rfl
  | cons x a ih =>
    rw [List.mem_cons, not_or] at h
    rw [List.cons_append, splitOnce, if_neg (Ne.symm h.1), ih h.2]
    rfl

/-! ### UTF-8 texts -/

theorem isCont_zero : isCont 0 = false := rfl

theorem second3_zero (b : UInt8) : second3 b 0 = false := by
  simp [second3]

theorem second4_zero (b : UInt8) : second4 b 0 = false := by
  simp [second4]

theorem charTail_append {b : UInt8} {rest : Bytes} {k : Nat} (h : charTail b rest = (true, k)) (t : Bytes) :
    charTail b (rest ++ t) = (true, k) ∧ k ≤ rest.length := by
  unfold charTail at h ⊢
  rcases rest with _ | ⟨x, _ | ⟨y, _ | ⟨z, rest⟩⟩⟩
  all_goals
    simp only [List.getD_nil, List.getD_cons_zero, List.getD_cons_succ, List.cons_append, List.nil_append, isCont_zero,
      second3_zero, second4_zero] at h ⊢
    split_ifs at h ⊢ <;> simp_all <;> omega

theorem isUtf8_append {s t : Bytes} (hs : isUtf8 s) (ht : isUtf8 t) : isUtf8 (s ++ t) := by
  fun_induction isUtf8 s with
  | case1 => exact ht
  | case2 b rest complete k htail ih =>
    rw [Bool.and_eq_true] at hs
    obtain ⟨rfl, hrest⟩ := hs
    obtain ⟨htail', hk⟩ := charTail_append htail t
    rw [List.cons_append, isUtf8, htail']
    simp only [Bool.true_and, List.drop_append_of_le_length hk]
    exact ih hrest

end ByteCodec
