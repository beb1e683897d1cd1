import Mathlib.Data.List.Induction
import BunnyMesh.Basic

/-!
# The event stream of the SDK

`subscribe` reads the body of a response in chunks, cut anywhere.  `StreamUtf8` holds back the beginning of a character at
the end of a chunk, and the loop over the frames the beginning of a frame, so that the events and the cursor do not depend
on the cuts (`chunking_irrelevant`).
-/

namespace BunnyMesh

namespace Sdk

/-- A JavaScript string as its code points. -/
abbrev Text := List Nat

/-! ### UTF-8 -/

/-- The UTF-8 encoding of a character. -/
def utf8Char (c : Char) : Bytes :=
  let n := c.toNat
  if n < 0x80 then [.ofNat n]
  else if n < 0x800 then [.ofNat (0xc0 + n / 64), .ofNat (0x80 + n % 64)]
  else if n < 0x10000 then [.ofNat (0xe0 + n / 4096), .ofNat (0x80 + n / 64 % 64), .ofNat (0x80 + n % 64)]
  else [.ofNat (0xf0 + n / 262144), .ofNat (0x80 + n / 4096 % 64), .ofNat (0x80 + n / 64 % 64), .ofNat (0x80 + n % 64)]

def utf8 (text : List Char) : Bytes := text.flatMap utf8Char

/-- The code point of a lead byte that carries `lead` bits and of the low six bits of the bytes behind it. -/
def codePoint (lead : Nat) (conts : Bytes) : Nat := conts.foldl (fun n b => n * 64 + b.toNat % 64) lead

/-- How many bytes the character of a lead byte has; `b & 0xe0 === 0xc0` is `b / 32 = 6`, and so on. -/
def expects (b : UInt8) : Nat :=
  if b.toNat / 32 = 6 then 2 else if b.toNat / 16 = 14 then 3 else if b.toNat / 8 = 30 then 4 else 0

/-- `utf8Decode` without a `TextDecoder`; a lead byte of two, three or four bytes carries five, four or three bits.  For a
code point beyond Unicode the source throws; valid UTF-8 has none. -/
def utf8Decode : Bytes → Text
  | [] => []
  | b :: rest =>
    if b.toNat < 0x80 then b.toNat :: utf8Decode rest
    else if 0 < expects b ∧ expects b ≤ rest.length + 1 then
      codePoint (b.toNat % 2 ^ (7 - expects b)) (rest.take (expects b - 1)) :: utf8Decode (rest.drop (expects b - 1))
    else 0xfffd :: utf8Decode rest
termination_by data => data.length
decreasing_by all_goals simp +arith

/-- The loop of `feed` that scans back for a lead byte; the argument is reversed and `d` is the distance from the end. -/
def keep : Nat → Bytes → Nat
  | _, [] => 0
  | d, b :: rest =>
    if d > 4 then 0
    else if b.toNat / 64 = 3 then (if d < expects b then d else 0)
    else keep (d + 1) rest

/-- `StreamUtf8.feed` without a `TextDecoder`: what is pending, and the text. -/
def feed (pending chunk : Bytes) : Bytes × Text :=
  let data := pending ++ chunk
  let k := keep 1 data.reverse
  (data.drop (data.length - k), utf8Decode (data.take (data.length - k)))

/-! ### Frames -/

/-- What `JSON.parse` gives: an error, `null`, which has no properties, or a value, with its `seq` if that is a safe
integer. -/
inductive Parsed (Ev Num : Type) where
  | invalid
  | null
  | value (ev : Ev) (seq : Option Num)

/-- `JSON.parse` and `Number`. -/
structure Platform (Ev Num : Type) where
  parse : Text → Parsed Ev Num
  number : Text → Num

/-- The variables of `subscribe` that outlive a connection, and the events `onEvent` was called with; `failed` once an
exception has ended it. -/
structure Client (Ev Num : Type) where
  since : Num
  events : List Ev
  failed : Bool

def isSpace (c : Nat) : Bool :=
  (9 ≤ c && c ≤ 13) || (0x2000 ≤ c && c ≤ 0x200a) ||
    [32, 0xa0, 0x1680, 0x2028, 0x2029, 0x202f, 0x205f, 0x3000, 0xfeff].contains c

def trim (s : Text) : Text := ((s.dropWhile isSpace).reverse.dropWhile isSpace).reverse

def codes (s : String) : Text := s.toList.map Char.toNat

/-- The data and the id of a frame, by one more line. -/
def readLine (found : Option Text × Option Text) (l : Text) : Option Text × Option Text :=
  if codes "data: " <+: l then (some (l.drop 6), found.2)
  else if codes "id:" <+: l then (found.1, some (trim (l.drop 3)))
  else found

/-- `/^\d+$/` -/
def isDigits (s : Text) : Bool := !s.isEmpty && s.all fun c => 48 ≤ c && c ≤ 57

/-- The buffer up to the first empty line, and behind it. -/
def cut : Text → Option (Text × Text)
  | [] | [_] => none
  | a :: b :: rest => if a = 10 ∧ b = 10 then some ([], rest) else (cut (b :: rest)).map fun x => (a :: x.1, x.2)

theorem length_lt_of_cut {buf frame rest : Text} (h : cut buf = some (frame, rest)) : rest.length < buf.length := by
  induction buf using cut.induct generalizing frame with
  | case1 | case2 => cases h
  | case3 a b l hab =>
    rw [cut, if_pos hab] at h
    cases h
    simp +arith
  | case4 a b l hab ih =>
    rw [cut, if_neg hab] at h
    obtain ⟨x, hx, heq⟩ := Option.map_eq_some_iff.1 h
    cases heq
    exact (ih hx).trans (Nat.lt_succ_self _)

namespace Platform

variable {Ev Num : Type} (P : Platform Ev Num)

def handle (c : Client Ev Num) (frame : Text) : Client Ev Num :=
  let found := (frame.splitOn 10).foldl readLine (none, none)
  match c.failed, found.1 with
  | false, some (x :: dataLine) =>
    match P.parse (x :: dataLine) with
    | .invalid => c
    | .null => { c with failed := true }
    | .value ev seq =>
      { c with since := (seq <|> (found.2.filter isDigits).map P.number).getD c.since, events := c.events ++ [ev] }
  | _, _ => c

/-- The loop over the frames of the buffer, and what is left of it. -/
def frames (buf : Text) (c : Client Ev Num) : Text × Client Ev Num :=
  match _h : cut buf with
  | none => (buf, c)
  | some x => frames x.2 (P.handle c x.1)
termination_by buf.length
decreasing_by exact length_lt_of_cut _h

/-- A connection: the decoder, the buffer, and the client. -/
structure Conn (Ev Num : Type) where
  pending : Bytes
  buf : Text
  client : Client Ev Num

/-- One round of the loop that reads the body. -/
def receive (conn : Conn Ev Num) (chunk : Bytes) : Conn Ev Num :=
  let fed := feed conn.pending chunk
  let out := P.frames (conn.buf ++ fed.2) conn.client
  ⟨fed.1, out.1, out.2⟩

end Platform

/-! ### Characters -/

/-- A character is one ASCII byte, or a lead byte and the bytes it announces. -/
theorem utf8Char_cases (c : Char) : (∃ b, utf8Char c = [b] ∧ b.toNat = c.toNat ∧ b.toNat < 0x80) ∨
    ∃ b conts, utf8Char c = b :: conts ∧ b.toNat / 64 = 3 ∧ expects b = conts.length + 1 ∧ conts ≠ [] ∧
      (∀ x ∈ conts, x.toNat / 64 = 2) ∧ codePoint (b.toNat % 2 ^ (7 - expects b)) conts = c.toNat := by
  have hc : c.toNat < 0x110000 := by
    rcases c.valid with h | h
    · exact Nat.lt_trans h (by decide)
    · exact h.2
  unfold utf8Char
  generalize c.toNat = n at hc
  dsimp only
  split_ifs with h1 h2 h3
  · have hb : (UInt8.ofNat n).toNat = n := by simp; omega
    exact .inl ⟨_, rfl, hb, hb.trans_lt h1⟩
  all_goals
    refine .inr ⟨_, _, rfl, ?_⟩
    simp only [expects, codePoint, UInt8.toNat_ofNat', Nat.reducePow, List.forall_mem_cons, List.foldl_cons, List.foldl_nil,
      List.length_cons, List.length_nil]
  -- the lead byte tells how many bytes there are
  · have hlead : (0xc0 + n / 64) % 256 / 32 = 6 := by omega
    simp [hlead]
    omega
  · have h6 : (0xe0 + n / 4096) % 256 / 32 ≠ 6 := by omega
    have hlead : (0xe0 + n / 4096) % 256 / 16 = 14 := by omega
    simp [h6, hlead]
    omega
  · have h6 : (0xf0 + n / 262144) % 256 / 32 ≠ 6 := by omega
    have h14 : (0xf0 + n / 262144) % 256 / 16 ≠ 14 := by omega
    have hlead : (0xf0 + n / 262144) % 256 / 8 = 30 := by omega
    simp [h6, h14, hlead]
    omega

theorem utf8Decode_char (c : Char) (rest : Bytes) : utf8Decode (utf8Char c ++ rest) = c.toNat :: utf8Decode rest := by
  rcases utf8Char_cases c with ⟨b, heq, hb, hlt⟩ | ⟨b, conts, heq, hb, hlen, -, -, hcode⟩
  · rw [heq, List.singleton_append, utf8Decode, if_pos hlt, hb]
  · rw [heq, List.cons_append, utf8Decode, if_neg (by omega), if_pos (by simp; omega), hlen, Nat.add_sub_cancel,
      List.take_left, List.drop_left, ← hlen, hcode]

theorem utf8Decode_utf8 (text : List Char) : utf8Decode (utf8 text) = text.map Char.toNat := by
  induction text with
  | nil => rw [utf8, List.flatMap_nil, utf8Decode, List.map_nil]
  | cons c text ih =>
    rw [utf8, List.flatMap_cons, utf8Decode_char, List.map_cons]
    exact congrArg _ ih

/-! ### What is pending -/

theorem keep_append {xs : Bytes} (h : ∀ x ∈ xs, x.toNat / 64 ≠ 3) (d : Nat) (ys : Bytes) :
    keep d (xs ++ ys) = keep (d + xs.length) ys := by
  induction xs generalizing d with
  | nil => rfl
  | cons x xs ih =>
    obtain ⟨hx, hxs⟩ := List.forall_mem_cons.1 h
    rw [List.cons_append, keep, if_neg hx, ih hxs, List.length_cons]
    split_ifs with hd
    · cases ys with
      | nil => rw [keep]
      | cons y ys => rw [keep, if_pos (by omega)]
    · congr 1
      omega

/-- Behind whole characters nothing is kept. -/
theorem keep_utf8 (text : List Char) (d : Nat) : keep (d + 1) (utf8 text).reverse = 0 := by
  induction text using List.reverseRecOn generalizing d with
  | nil => rfl
  | append_singleton text c ih =>
    have hrev : (utf8 (text ++ [c])).reverse = (utf8Char c).reverse ++ (utf8 text).reverse := by simp [utf8]
    rw [hrev]
    rcases utf8Char_cases c with ⟨b, heq, -, hlt⟩ | ⟨b, conts, heq, hb, hlen, -, hconts, -⟩
    · rw [heq, List.reverse_singleton, keep_append (by simp; omega)]
      exact ih _
    · rw [heq, List.reverse_cons, List.append_assoc, keep_append fun x hx => by
        rw [hconts x (List.mem_reverse.1 hx)]; decide, List.singleton_append, keep, List.length_reverse]
      split_ifs
      all_goals omega

/-- The beginning of a character, or nothing. -/
def Begun (tail : Bytes) : Prop := tail = [] ∨ ∃ c rest, utf8Char c = tail ++ rest ∧ tail ≠ [] ∧ rest ≠ []

theorem feed_eq {pending chunk tail : Bytes} {text : List Char} (h : pending ++ chunk = utf8 text ++ tail)
    (ht : Begun tail) : feed pending chunk = (tail, text.map Char.toNat) := by
  have hkeep : keep 1 (utf8 text ++ tail).reverse = tail.length := by
    rcases ht with rfl | ⟨c, rest, heq, hne, hrest⟩
    · rw [List.append_nil]
      exact keep_utf8 text 0
    · -- the lead byte of the last character is the first one found, and too near to the end
      rcases utf8Char_cases c with ⟨b, hc, -, -⟩ | ⟨b, conts, hc, hb, hlen, -, hconts, -⟩
      all_goals
        obtain ⟨x, tail, rfl⟩ := List.exists_cons_of_ne_nil hne
        rw [hc, List.cons_append, List.cons.injEq] at heq
      · exact absurd (List.append_eq_nil_iff.1 heq.2.symm).2 hrest
      · obtain ⟨rfl, rfl⟩ := heq
        have hpos := List.length_pos_iff.2 hrest
        have hle : expects b ≤ 4 := by
          unfold expects
          split_ifs <;> decide
        rw [List.length_append] at hlen
        rw [List.reverse_append, List.reverse_cons, List.append_assoc, keep_append fun x hx => by
          rw [hconts x (List.mem_append_left _ (List.mem_reverse.1 hx))]; decide, List.singleton_append, keep,
          List.length_reverse, if_neg (by omega), if_pos hb, if_pos (by omega), List.length_cons]
        omega
  simp only [feed, h, hkeep, List.length_append, Nat.add_sub_cancel, List.take_left, List.drop_left, utf8Decode_utf8]

theorem exists_begun {text : List Char} {p q : Bytes} (h : p ++ q = utf8 text) : ∃ done todo tail,
    text = done ++ todo ∧ p = utf8 done ++ tail ∧ tail ++ q = utf8 todo ∧ Begun tail := by
  induction text generalizing p with
  | nil =>
    obtain ⟨rfl, rfl⟩ := List.append_eq_nil_iff.1 h
    exact ⟨[], [], [], rfl, rfl, rfl, .inl rfl⟩
  | cons c text ih =>
    rw [utf8, List.flatMap_cons] at h
    rcases List.append_eq_append_iff.1 h with ⟨rest, hchar, hq⟩ | ⟨p', rfl, hp⟩
    · by_cases hrest : rest = []
      · subst hrest
        exact ⟨[c], text, [], rfl, by simp [utf8, hchar], hq, .inl rfl⟩
      · refine ⟨[], c :: text, p, rfl, rfl, ?_, ?_⟩
        · rw [hq, utf8, List.flatMap_cons, hchar, List.append_assoc]
        · by_cases hp : p = []
          · exact .inl hp
          · exact .inr ⟨c, rest, hchar, hp, hrest⟩
    · obtain ⟨done, todo, tail, rfl, rfl, htail, hbegun⟩ := ih hp.symm
      exact ⟨c :: done, todo, tail, rfl, by simp [utf8], htail, hbegun⟩

/-! ### Frames of a longer buffer -/

theorem cut_append {buf frame rest : Text} (h : cut buf = some (frame, rest)) (more : Text) :
    cut (buf ++ more) = some (frame, rest ++ more) := by
  induction buf using cut.induct generalizing frame with
  | case1 | case2 => cases h
  | case3 a b l hab =>
    rw [cut, if_pos hab] at h
    cases h
    rw [List.cons_append, List.cons_append, cut, if_pos hab]
  | case4 a b l hab ih =>
    rw [cut, if_neg hab] at h
    obtain ⟨x, hx, heq⟩ := Option.map_eq_some_iff.1 h
    cases heq
    have hmore := ih hx
    rw [List.cons_append] at hmore
    rw [List.cons_append, List.cons_append, cut, if_neg hab, hmore, Option.map_some]

namespace Platform

variable {Ev Num : Type} (P : Platform Ev Num)

theorem frames_none {buf : Text} (h : cut buf = none) (c : Client Ev Num) : P.frames buf c = (buf, c) := by
  rw [frames]
  split
  · rfl
  · simp_all

theorem frames_some {buf frame rest : Text} (h : cut buf = some (frame, rest)) (c : Client Ev Num) :
    P.frames buf c = P.frames rest (P.handle c frame) := by
  rw [frames]
  split
  · simp_all
  · simp_all

/-- The loop leaves no whole frame, and goes on from there when there is more text. -/
theorem frames_append (buf : Text) (c : Client Ev Num) : cut (P.frames buf c).1 = none ∧
    ∀ more, P.frames (buf ++ more) c = P.frames ((P.frames buf c).1 ++ more) (P.frames buf c).2 := by
  induction hn : buf.length using Nat.strong_induction_on generalizing buf c with
  | h n ih =>
    cases h : cut buf with
    | none =>
      rw [P.frames_none h]
      exact ⟨h, fun _ => rfl⟩
    | some x =>
      obtain ⟨hcut, hmore⟩ := ih _ (hn ▸ length_lt_of_cut h) x.2 (P.handle c x.1) rfl
      rw [P.frames_some h]
      exact ⟨hcut, fun more => by rw [P.frames_some (cut_append h more), hmore]⟩

/-- Whatever the chunks, a connection that is yet to receive `text` ends with all its frames. -/
theorem foldl_receive {chunks : List Bytes} {text : List Char} {conn : Conn Ev Num} (hcut : cut conn.buf = none)
    (hbegun : Begun conn.pending) (h : conn.pending ++ chunks.flatten = utf8 text) :
    (chunks.foldl P.receive conn).client = (P.frames (conn.buf ++ text.map Char.toNat) conn.client).2 := by
  induction chunks generalizing text conn with
  | nil =>
    -- a character that has begun is not all that is to come
    have hpending : feed conn.pending [] = (conn.pending, []) :=
      feed_eq (show conn.pending ++ [] = utf8 [] ++ conn.pending from List.append_nil _) hbegun
    have htext : feed conn.pending [] = ([], text.map Char.toNat) := feed_eq (h.trans (List.append_nil _).symm) (.inl rfl)
    have hnil := congrArg Prod.snd (htext.symm.trans hpending)
    rw [List.foldl_nil, show text.map Char.toNat = [] from hnil, List.append_nil, P.frames_none hcut]
  | cons chunk chunks ih =>
    rw [List.flatten_cons, ← List.append_assoc] at h
    obtain ⟨done, todo, tail, rfl, hdata, htail, hbegun'⟩ := exists_begun h
    have hfeed := feed_eq hdata hbegun'
    obtain ⟨hcut', hmore⟩ := P.frames_append (conn.buf ++ done.map Char.toNat) conn.client
    have hrec : P.receive conn chunk = ⟨tail, (P.frames (conn.buf ++ done.map Char.toNat) conn.client).1,
        (P.frames (conn.buf ++ done.map Char.toNat) conn.client).2⟩ := by
      rw [receive, hfeed]
    rw [List.foldl_cons, hrec, ih hcut' hbegun' htail, List.map_append, ← List.append_assoc, hmore]

/-- The client after the chunks of a stream of valid UTF-8 is the one after the stream in one chunk. -/
theorem chunking_irrelevant {chunks : List Bytes} {text : List Char} (h : chunks.flatten = utf8 text)
    (c : Client Ev Num) :
    (chunks.foldl P.receive ⟨[], [], c⟩).client = (P.receive ⟨[], [], c⟩ (utf8 text)).client := by
  have hall : ∀ chunks : List Bytes, chunks.flatten = utf8 text →
      (chunks.foldl P.receive ⟨[], [], c⟩).client = (P.frames (text.map Char.toNat) c).2 :=
    fun chunks hc => P.foldl_receive (by rw [cut]) (.inl rfl) hc
  rw [hall chunks h, ← hall [utf8 text] (by simp), List.foldl_cons, List.foldl_nil]

end Platform

/-- Events are the texts of their data. -/
def plain : Platform Text Nat := ⟨fun data => .value data none, List.length⟩

def oneFrame : List Char := "data: é\n\n".toList

/-- The frame, cut in the character and in the empty line. -/
def cutFrame : List Bytes := [str "data: " ++ [0xc3], [0xa9, 10], [10]]

theorem chunking_irrelevant_oneFrame : cutFrame.flatten = utf8 oneFrame ∧
    (cutFrame.foldl plain.receive ⟨[], [], ⟨0, [], false⟩⟩).client =
      (plain.receive ⟨[], [], ⟨0, [], false⟩⟩ (utf8 oneFrame)).client :=
  ⟨by decide, plain.chunking_irrelevant (by decide) _⟩

end Sdk

end BunnyMesh
