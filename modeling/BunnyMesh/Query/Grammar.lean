import BunnyMesh.Lib.Text
import BunnyMesh.Query.Parse
import Mathlib.Data.List.TakeWhile

/-!
# The grammar of queries

A call is written as the tokens `IDENT '(' [arg (',' arg)*] ')'` (`Call.tokens`), each spelled as bytes with white space
around it (`Spells`).  The loop of the parser reads `(arg ','*)*` between the parentheses (`Call.Loose`), which is more:
commas may be missing, doubled and trailing (`parses_grammar_iff`).
-/

namespace BunnyMesh

namespace Query

open ByteCodec (isUtf8 fromUtf8Lossy)
open Tokenizer

/-! ### Texts -/

def IsBlank (bs : Bytes) : Prop := ∀ b ∈ bs, isAsciiWhitespace b = true

/-- How a string is written between quotes. -/
inductive Escaped : Bytes → Bytes → Prop where
  | nil : Escaped [] []
  | raw {c : UInt8} {s text : Bytes} (hquote : c ≠ 34) (hescape : c ≠ 92) (rest : Escaped s text) :
      Escaped (c :: s) (c :: text)
  | escape {e b : UInt8} {s text : Bytes} (hb : unescape e = some b) (rest : Escaped s text) :
      Escaped (b :: s) (92 :: e :: text)

/-- How a token is written. -/
inductive Tok.Spelled : Tok → Bytes → Prop where
  | lparen : Tok.lparen.Spelled [40]
  | rparen : Tok.rparen.Spelled [41]
  | comma : Tok.comma.Spelled [44]
  | str {s text : Bytes} (h : Escaped s text) : (Tok.str s).Spelled (34 :: (text ++ [34]))
  | ident {c : UInt8} {cs : Bytes} (hstart : startsIdent c = true) (hin : ∀ b ∈ cs, inIdent b = true) :
      (Tok.ident (c :: cs)).Spelled (c :: cs)

def Tok.Ends : Tok → Bytes → Prop
  | .ident _, rest => ∀ b ∈ rest.head?, inIdent b = false
  | _, _ => True

/-- The text is that of the tokens, with white space around them. -/
inductive Spells : List Tok → Bytes → Prop where
  | nil {ws : Bytes} (hws : IsBlank ws) : Spells [] ws
  | cons {ws text rest : Bytes} {tok : Tok} {toks : List Tok} (hws : IsBlank ws) (htok : tok.Spelled text)
      (hends : tok.Ends rest) (hrest : Spells toks rest) : Spells (tok :: toks) (ws ++ (text ++ rest))

/-! ### Reading a token -/

theorem IsBlank.ascii {ws : Bytes} (h : IsBlank ws) : ∀ b ∈ ws, b < 0x80 := by
  intro b hb
  have hspace := h b hb
  simp only [isAsciiWhitespace, Bool.or_eq_true, beq_iff_eq] at hspace
  obtain (((rfl | rfl) | rfl) | rfl) | rfl := hspace <;> decide

variable {bs : Bytes} {t : Tokenizer}

theorem skipBytes_rest (h : t.rest = bs) : (skipBytes bs t).rest = bs.dropWhile isAsciiWhitespace := by
  induction bs generalizing t with
  | nil => exact h
  | cons c rest ih =>
    rw [skipBytes, List.dropWhile_cons]
    split
    · exact ih (rest_past t c rest)
    · exact h

theorem skipWs_rest (t : Tokenizer) : (skipWs t).rest = t.rest.dropWhile isAsciiWhitespace := skipBytes_rest rfl

theorem exists_blank (bs : Bytes) :
    ∃ ws, IsBlank ws ∧ bs = ws ++ bs.dropWhile isAsciiWhitespace ∧
      ∀ b ∈ (bs.dropWhile isAsciiWhitespace).head?, isAsciiWhitespace b = false := by
  refine ⟨bs.takeWhile isAsciiWhitespace, fun b hb => List.mem_takeWhile_imp hb, List.takeWhile_append_dropWhile.symm, ?_⟩
  intro b hb
  have := List.head?_dropWhile_not isAsciiWhitespace bs
  rw [hb] at this
  simpa using this

theorem dropWhile_blank {ws : Bytes} (hws : IsBlank ws) (hbs : ∀ b ∈ bs.head?, isAsciiWhitespace b = false) :
    (ws ++ bs).dropWhile isAsciiWhitespace = bs := by
  rw [List.dropWhile_append_of_pos hws]
  cases bs with
  | nil => rfl
  | cons b bs => rw [List.dropWhile_cons_of_neg (by simp [hbs b rfl])]

theorem identBytes_eq (h : t.rest = bs) (name : Bytes) : (identBytes bs name t).1 = name ++ bs.takeWhile inIdent ∧
      (identBytes bs name t).2.rest = bs.dropWhile inIdent := by
  induction bs generalizing t name with
  | nil => exact ⟨(List.append_nil name).symm, h⟩
  | cons c rest ih =>
    rw [identBytes, List.takeWhile_cons, List.dropWhile_cons]
    split
    · obtain ⟨hname, hrest⟩ := ih (rest_past t c rest) (name ++ [c])
      exact ⟨by rw [hname, List.append_assoc, List.singleton_append], hrest⟩
    · exact ⟨(List.append_nil name).symm, h⟩

theorem escaped_of_stringBytes {s : Bytes} {x : Bytes × Tokenizer} (h : stringBytes bs s t = .ok x) :
    ∃ s' text, Escaped s' text ∧ x.1 = s ++ s' ∧ bs = text ++ 34 :: x.2.rest := by
  fun_induction stringBytes bs s t with
  | case1 s t => cases h
  | case2 rest s t =>
    cases h
    exact ⟨[], [], .nil, (List.append_nil s).symm, by simp⟩
  | case3 s t => cases h
  | case4 s t e rest b hb _ t' ih =>
    obtain ⟨s', text, hesc, hx, hbs⟩ := ih h
    exact ⟨b :: s', 92 :: e :: text, .escape hb hesc, by rw [hx, List.append_assoc]; rfl, by rw [hbs]; rfl⟩
  | case5 s t e rest t' hb => cases h
  | case6 c rest s t hquote hescape ih =>
    obtain ⟨s', text, hesc, hx, hbs⟩ := ih h
    exact ⟨c :: s', c :: text, .raw hquote hescape hesc, by rw [hx, List.append_assoc]; rfl, by rw [hbs]; rfl⟩

theorem stringBytes_of_escaped {s' text : Bytes} (h : Escaped s' text) (rest s : Bytes) (t : Tokenizer) :
    ∃ t', stringBytes (text ++ 34 :: rest) s t = .ok (s ++ s', t') ∧ t'.rest = rest := by
  induction h generalizing s t with
  | nil =>
    refine ⟨t.past 34 rest, ?_, rest_past ..⟩
    rw [List.nil_append, stringBytes.eq_def]
    dsimp only
    rw [if_pos rfl, List.append_nil]
  | @raw c s' text hquote hescape _ ih =>
    obtain ⟨t', hread, hrest⟩ := ih (s ++ [c]) (t.past c (text ++ 34 :: rest))
    refine ⟨t', ?_, hrest⟩
    rw [List.cons_append, stringBytes.eq_def]
    dsimp only
    rw [if_neg hquote, if_neg hescape, hread, List.append_assoc, List.singleton_append]
  | @escape e b s' text hb _ ih =>
    obtain ⟨t', hread, hrest⟩ := ih (s ++ [b]) ((t.past 92 (e :: (text ++ 34 :: rest))).past e (text ++ 34 :: rest))
    refine ⟨t', ?_, hrest⟩
    rw [List.cons_append, List.cons_append, stringBytes.eq_def]
    dsimp only
    rw [if_neg (by decide), if_pos rfl, hb]
    dsimp only
    rw [hread, List.append_assoc, List.singleton_append]

theorem Escaped.ascii {e b : UInt8} (h : unescape e = some b) : e < 0x80 ∧ b < 0x80 := by
  unfold unescape at h
  split_ifs at h with h1 h2 h3 h4 <;> cases h <;> subst_vars <;> decide

theorem Escaped.isUtf8 {s text : Bytes} (h : Escaped s text) (pre : Bytes) (htext : isUtf8 (pre ++ text)) :
    isUtf8 (pre ++ s) := by
  induction h generalizing pre with
  | nil => exact htext
  | @raw c s text _ _ _ ih =>
    have := ih (pre ++ [c]) (by simpa using htext)
    simpa using this
  | @escape e b s text hb _ ih =>
    obtain ⟨he, hascii⟩ := Escaped.ascii hb
    obtain ⟨hpre, hrest⟩ := ByteCodec.isUtf8_split (by decide) htext
    have hs := ih [] (ByteCodec.isUtf8_split (a := []) he hrest).2
    have hb' : ByteCodec.isUtf8 ([b] ++ s) :=
      ByteCodec.isUtf8_append (ByteCodec.isUtf8_of_ascii (by simpa using hascii)) hs
    exact ByteCodec.isUtf8_append hpre hb'

section
variable {t t' : Tokenizer} {tok : Tok}

theorem inIdent_of_startsIdent {c : UInt8} (h : startsIdent c = true) : inIdent c = true := by
  unfold inIdent
  unfold startsIdent at h
  simp only [Bool.or_eq_true] at h ⊢
  exact h.imp .inl id

theorem ascii_of_inIdent {c : UInt8} (h : inIdent c = true) : c < 0x80 := by
  have hle : ∀ b : UInt8, c ≤ b → b < 0x80 → c < 0x80 := fun b hc hb => UInt8.lt_of_le_of_lt hc hb
  simp only [inIdent, isAsciiAlphabetic, isAsciiDigit, Bool.or_eq_true, Bool.and_eq_true, decide_eq_true_eq,
    beq_iff_eq] at h
  obtain ((h | h) | h) | rfl := h
  · exact hle 90 h.2 (by decide)
  · exact hle 122 h.2 (by decide)
  · exact hle 57 h.2 (by decide)
  · decide

variable [QueryCrates]

theorem spelled_of_token (h : token t = .ok (some tok, t')) (hutf : isUtf8 t.rest) :
    ∃ ws text, IsBlank ws ∧ tok.Spelled text ∧ tok.Ends t'.rest ∧ t.rest = ws ++ (text ++ t'.rest) ∧ isUtf8 t'.rest := by
  obtain ⟨ws, hws, ht, -⟩ := exists_blank t.rest
  have hutf' : isUtf8 (t.rest.dropWhile isAsciiWhitespace) := ByteCodec.isUtf8_of_ascii_append hws.ascii (ht ▸ hutf)
  rw [← skipWs_rest] at ht hutf'
  suffices htok : ∃ text, tok.Spelled text ∧ tok.Ends t'.rest ∧ (skipWs t).rest = text ++ t'.rest ∧ isUtf8 t'.rest by
    obtain ⟨text, hspelled, hends, hrest, hutf''⟩ := htok
    exact ⟨ws, text, hws, hspelled, hends, hrest ▸ ht, hutf''⟩
  unfold token at h
  cases hrest : (skipWs t).rest with
  | nil =>
    simp only [hrest] at h
    cases h
  | cons c rest =>
    rw [hrest] at hutf'
    have hafter : c < 0x80 → isUtf8 rest := fun hc => (ByteCodec.isUtf8_split (a := []) hc hutf').2
    simp only [hrest] at h
    split_ifs at h with h1 h2 h3 h4 h5
    · cases h
      subst h1
      exact ⟨[40], .lparen, trivial, by simp, by simpa using hafter (by decide)⟩
    · cases h
      subst h2
      exact ⟨[41], .rparen, trivial, by simp, by simpa using hafter (by decide)⟩
    · cases h
      subst h3
      exact ⟨[44], .comma, trivial, by simp, by simpa using hafter (by decide)⟩
    · cases hs : stringBytes rest [] ((skipWs t).past c rest) with
      | error e =>
        rw [hs] at h
        cases h
      | ok x =>
        rw [hs] at h
        cases h
        subst h4
        obtain ⟨s, text, hesc, hx, htext⟩ := escaped_of_stringBytes hs
        obtain ⟨hleft, hright⟩ := ByteCodec.isUtf8_split (by decide) (htext ▸ hafter (by decide))
        have hlossy : fromUtf8Lossy x.1 = s := by
          rw [hx, List.nil_append]
          exact ByteCodec.fromUtf8Lossy_of_isUtf8 (hesc.isUtf8 [] hleft)
        exact ⟨34 :: (text ++ [34]), hlossy ▸ .str hesc, trivial, by rw [htext]; simp, hright⟩
    · cases h
      obtain ⟨hname, hdrop⟩ := identBytes_eq hrest []
      have hin := inIdent_of_startsIdent h5
      rw [List.nil_append, List.takeWhile_cons_of_pos hin] at hname
      rw [List.dropWhile_cons_of_pos hin] at hdrop
      have hall : ∀ b ∈ rest.takeWhile inIdent, inIdent b = true := fun b hb => List.mem_takeWhile_imp hb
      have hascii : ∀ b ∈ c :: rest.takeWhile inIdent, b < 0x80 :=
        List.forall_mem_cons.2 ⟨ascii_of_inIdent hin, fun b hb => ascii_of_inIdent (hall b hb)⟩
      have hlossy : fromUtf8Lossy (identBytes (c :: rest) [] (skipWs t)).1 = c :: rest.takeWhile inIdent := by
        rw [hname]
        exact ByteCodec.fromUtf8Lossy_of_isUtf8 (ByteCodec.isUtf8_of_ascii hascii)
      have hsplit : c :: rest = (c :: rest.takeWhile inIdent) ++ rest.dropWhile inIdent := by
        rw [List.cons_append, List.takeWhile_append_dropWhile]
      refine ⟨c :: rest.takeWhile inIdent, hlossy ▸ .ident h5 hall, ?_, by rw [hdrop, ← hsplit], ?_⟩
      · intro b hb
        rw [hdrop] at hb
        have := List.head?_dropWhile_not inIdent rest
        rw [hb] at this
        simpa using this
      · rw [hdrop]
        exact ByteCodec.isUtf8_of_ascii_append hascii (hsplit ▸ hutf')

omit [QueryCrates] in
theorem Tok.Spelled.head {text : Bytes} (h : tok.Spelled text) :
    ∃ c rest, text = c :: rest ∧ isAsciiWhitespace c = false := by
  cases h with
  | lparen => exact ⟨40, [], rfl, by decide⟩
  | rparen => exact ⟨41, [], rfl, by decide⟩
  | comma => exact ⟨44, [], rfl, by decide⟩
  | @str s text _ => exact ⟨34, text ++ [34], rfl, by decide⟩
  | @ident c cs hstart _ =>
    refine ⟨c, cs, rfl, ?_⟩
    by_contra hspace
    rw [Bool.not_eq_false] at hspace
    simp only [isAsciiWhitespace, Bool.or_eq_true, beq_iff_eq] at hspace
    obtain (((rfl | rfl) | rfl) | rfl) | rfl := hspace <;> exact absurd hstart (by decide)

theorem token_of_spelled {ws text rest : Bytes} (hws : IsBlank ws) (htok : tok.Spelled text) (hends : tok.Ends rest)
    (ht : t.rest = ws ++ (text ++ rest)) (hutf : isUtf8 t.rest) : ∃ t', token t = .ok (some tok, t') ∧ t'.rest = rest := by
  have hskip : (skipWs t).rest = text ++ rest := by
    obtain ⟨c, text', rfl, hc⟩ := htok.head
    rw [skipWs_rest, ht]
    refine dropWhile_blank hws fun b hb => ?_
    obtain rfl : c = b := by simpa using hb
    exact hc
  have hutf' : isUtf8 (text ++ rest) := ByteCodec.isUtf8_of_ascii_append hws.ascii (ht ▸ hutf)
  unfold token
  cases htok with
  | lparen =>
    refine ⟨(skipWs t).past 40 rest, ?_, by simp⟩
    simp only [hskip, List.singleton_append]
    rfl
  | rparen =>
    refine ⟨(skipWs t).past 41 rest, ?_, by simp⟩
    simp only [hskip, List.singleton_append]
    rfl
  | comma =>
    refine ⟨(skipWs t).past 44 rest, ?_, by simp⟩
    simp only [hskip, List.singleton_append]
    rfl
  | @str s text hesc =>
    rw [List.cons_append, List.append_assoc, List.singleton_append] at hskip hutf'
    obtain ⟨t', hread, hrest⟩ := stringBytes_of_escaped hesc rest [] ((skipWs t).past 34 (text ++ 34 :: rest))
    have hleft := (ByteCodec.isUtf8_split (by decide) (ByteCodec.isUtf8_split (a := []) (by decide) hutf').2).1
    have hlossy : fromUtf8Lossy s = s := ByteCodec.fromUtf8Lossy_of_isUtf8 (hesc.isUtf8 [] hleft)
    refine ⟨t', ?_, hrest⟩
    simp only [hskip]
    rw [if_neg (by decide), if_neg (by decide), if_neg (by decide), if_pos trivial, hread, List.nil_append]
    simp [Except.map, hlossy]
  | @ident c cs hstart hin =>
    rw [List.cons_append] at hskip
    have hc := inIdent_of_startsIdent hstart
    obtain ⟨hname, hdrop⟩ := identBytes_eq hskip []
    have hstop : rest.takeWhile inIdent = [] ∧ rest.dropWhile inIdent = rest := by
      cases rest with
      | nil => exact ⟨rfl, rfl⟩
      | cons b rest =>
        have hb : ¬ inIdent b = true := by simp [hends b rfl]
        exact ⟨List.takeWhile_cons_of_neg hb, List.dropWhile_cons_of_neg hb⟩
    rw [List.nil_append, List.takeWhile_cons_of_pos hc, List.takeWhile_append_of_pos hin, hstop.1, List.append_nil] at hname
    rw [List.dropWhile_cons_of_pos hc, List.dropWhile_append_of_pos hin, hstop.2] at hdrop
    have hascii : ∀ b ∈ c :: cs, b < 0x80 :=
      List.forall_mem_cons.2 ⟨ascii_of_inIdent hc, fun b hb => ascii_of_inIdent (hin b hb)⟩
    have hlossy : fromUtf8Lossy (c :: cs) = c :: cs :=
      ByteCodec.fromUtf8Lossy_of_isUtf8 (ByteCodec.isUtf8_of_ascii hascii)
    have hne : ∀ b : UInt8, startsIdent b = false → c ≠ b := by
      rintro b hb rfl
      rw [hstart] at hb
      cases hb
    refine ⟨_, ?_, hdrop⟩
    simp only [hskip]
    rw [if_neg (hne 40 rfl), if_neg (hne 41 rfl), if_neg (hne 44 rfl), if_neg (hne 34 rfl), if_pos hstart, hname, hlossy]

theorem token_of_blank (h : IsBlank t.rest) : token t = .ok (none, skipWs t) := by
  have hskip : (skipWs t).rest = [] := by
    have hdrop : (t.rest ++ []).dropWhile isAsciiWhitespace = [] := dropWhile_blank h (by simp)
    rw [List.append_nil] at hdrop
    rw [skipWs_rest, hdrop]
  unfold token
  simp [hskip]

/-! ### Reading tokens -/

/-- These tokens are next, and reading them leads to `t'`. -/
inductive Reads : List Tok → Tokenizer → Tokenizer → Prop where
  | nil (t : Tokenizer) : Reads [] t t
  | cons {tok : Tok} {toks : List Tok} {t t₁ t' : Tokenizer} (first : token t = .ok (some tok, t₁))
      (rest : Reads toks t₁ t') : Reads (tok :: toks) t t'

variable {toks toks' : List Tok}

theorem Reads.append {t₁ : Tokenizer} (h : Reads toks t t₁) (h' : Reads toks' t₁ t') : Reads (toks ++ toks') t t' := by
  induction h with
  | nil => exact h'
  | cons first _ ih => exact .cons first (ih h')

theorem Reads.split (h : Reads (toks ++ toks') t t') : ∃ t₁, Reads toks t t₁ ∧ Reads toks' t₁ t' := by
  induction toks generalizing t with
  | nil => exact ⟨t, .nil t, h⟩
  | cons tok toks ih =>
    cases h with
    | cons first rest =>
      obtain ⟨t₁, hleft, hright⟩ := ih rest
      exact ⟨t₁, .cons first hleft, hright⟩

theorem spells_of_reads (h : Reads toks t t') (hutf : isUtf8 t.rest) (hend : IsBlank t'.rest) : Spells toks t.rest := by
  induction h with
  | nil => exact .nil hend
  | cons first _ ih =>
    obtain ⟨ws, text, hws, htok, hends, ht, hutf'⟩ := spelled_of_token first hutf
    rw [ht]
    exact .cons hws htok hends (ih hutf' hend)

theorem Spells.reads {bs : Bytes} (h : Spells toks bs) (ht : t.rest = bs) (hutf : isUtf8 bs) :
    ∃ t', Reads toks t t' ∧ IsBlank t'.rest := by
  induction h generalizing t with
  | nil hws => exact ⟨t, .nil t, ht ▸ hws⟩
  | cons hws htok hends _ ih =>
    obtain ⟨t₁, first, hrest⟩ := token_of_spelled hws htok hends ht (ht ▸ hutf)
    obtain ⟨_, _, _, _, _, _, hutf'⟩ := spelled_of_token first (ht ▸ hutf)
    obtain ⟨t', hreads, hend⟩ := ih hrest (hrest ▸ hutf')
    exact ⟨t', .cons first hreads, hend⟩

theorem Spells.unique {bs : Bytes} (h : Spells toks bs) (h' : Spells toks' bs) (hutf : isUtf8 bs) : toks = toks' := by
  obtain ⟨t₁, h1, hend1⟩ := h.reads (t := .new bs) rfl hutf
  obtain ⟨t₂, h2, hend2⟩ := h'.reads (t := .new bs) rfl hutf
  clear h h'
  generalize Tokenizer.new bs = t at h1 h2
  induction h1 generalizing toks' with
  | nil t =>
    cases h2 with
    | nil => rfl
    | cons first _ =>
      rw [token_of_blank hend1] at first
      cases first
  | cons first _ ih =>
    cases h2 with
    | nil =>
      rw [token_of_blank hend2] at first
      cases first
    | cons first' rest =>
      rw [first] at first'
      cases first'
      rw [ih hend1 rest]

end

/-! ### The grammar -/

mutual

def Arg.tokens : Arg → List Tok
  | .str s => [.str s]
  | .call c => c.tokens

/-- The tokens of a call: `IDENT '(' [arg (',' arg)*] ')'`. -/
def Call.tokens : Call → List Tok
  | .mk name args => .ident name :: .lparen :: (argsTokens args ++ [.rparen])

def argsTokens : List Arg → List Tok
  | [] => []
  | a :: args => a.tokens ++ moreTokens args

def moreTokens : List Arg → List Tok
  | [] => []
  | a :: args => .comma :: (a.tokens ++ moreTokens args)

end

mutual

def Arg.Loose : Arg → List Tok → Prop
  | .str s, toks => toks = [.str s]
  | .call c, toks => c.Loose toks

/-- What the parser takes for a call: `IDENT '(' (arg ','*)* ')'`. -/
def Call.Loose : Call → List Tok → Prop
  | .mk name args, toks => ∃ inner, LooseArgs args inner ∧ toks = .ident name :: .lparen :: (inner ++ [.rparen])

def LooseArgs : List Arg → List Tok → Prop
  | [], toks => toks = []
  | a :: args, toks => ∃ own commas rest, a.Loose own ∧ LooseArgs args rest ∧
      toks = own ++ (List.replicate commas .comma ++ rest)

end

mutual

theorem Arg.loose_tokens : ∀ a : Arg, a.Loose a.tokens
  | .str _ => rfl
  | .call c => c.loose_tokens

theorem Call.loose_tokens : ∀ c : Call, c.Loose c.tokens
  | .mk _ args => ⟨argsTokens args, looseArgs_tokens args, rfl⟩

theorem looseArgs_tokens : ∀ args : List Arg, LooseArgs args (argsTokens args)
  | [] => rfl
  | a :: args => by
    obtain ⟨commas, rest, hrest, htoks⟩ := looseArgs_moreTokens args
    exact ⟨a.tokens, commas, rest, a.loose_tokens, hrest, by rw [argsTokens, htoks]⟩

theorem looseArgs_moreTokens : ∀ args : List Arg,
    ∃ commas rest, LooseArgs args rest ∧ moreTokens args = List.replicate commas .comma ++ rest
  | [] => ⟨0, [], rfl, rfl⟩
  | a :: args => by
    obtain ⟨commas, rest, hrest, htoks⟩ := looseArgs_moreTokens args
    exact ⟨1, _, ⟨a.tokens, commas, rest, a.loose_tokens, hrest, rfl⟩, by rw [moreTokens, htoks]; rfl⟩

end

/-! ### The parser -/

section
variable [QueryCrates]

/-- What is left to read behind the arguments `args` of a call: commas only behind an argument, and more arguments. -/
def Rest (args more : List Arg) (toks : List Tok) : Prop :=
  ∃ commas inner, (args = [] → commas = 0) ∧ LooseArgs more inner ∧
    toks = List.replicate commas .comma ++ (inner ++ [.rparen])

section
omit [QueryCrates]

theorem Rest.close (args : List Arg) : Rest args [] [.rparen] := ⟨0, [], fun _ => rfl, rfl, rfl⟩

theorem Rest.comma {args more : List Arg} {toks : List Tok} (hargs : args ≠ []) (h : Rest args more toks) :
    Rest args more (.comma :: toks) := by
  obtain ⟨commas, inner, -, hinner, rfl⟩ := h
  exact ⟨commas + 1, inner, fun hnil => absurd hnil hargs, hinner, rfl⟩

theorem Rest.arg {args more : List Arg} {a : Arg} {own toks : List Tok} (ha : a.Loose own)
    (h : Rest (args ++ [a]) more toks) : Rest args (a :: more) (own ++ toks) := by
  obtain ⟨commas, inner, -, hinner, rfl⟩ := h
  refine ⟨0, own ++ (List.replicate commas .comma ++ inner), fun _ => rfl, ⟨own, commas, inner, ha, hinner, rfl⟩, ?_⟩
  simp

end

theorem loose_of_parse (n : Nat) :
    (∀ name t x, t.rest.length < n → parseNamedCall name t = .ok x →
      ∃ toks, x.1.1.Loose (.ident name :: toks) ∧ Reads toks t x.1.2) ∧
    ∀ name args t x, t.rest.length < n → parseArgs name args t = .ok x →
      ∃ more toks, x.1.1 = .mk name (args ++ more) ∧ Rest args more toks ∧ Reads toks t x.1.2 := by
  induction n with
  | zero => exact ⟨fun _ _ _ hlen => absurd hlen (Nat.not_lt_zero _), fun _ _ _ _ hlen => absurd hlen (Nat.not_lt_zero _)⟩
  | succ n ih =>
    obtain ⟨ihCall, ihArgs⟩ := ih
    constructor
    · intro name t x hlen h
      rw [parseNamedCall] at h
      split at h
      · cases h
      · rename_i t₁ htok
        have hlt := length_token htok
        obtain ⟨y, hy, hx⟩ := bind_eq_ok.1 h
        cases hx
        obtain ⟨more, toks, hc, ⟨commas, inner, hcommas, hinner, rfl⟩, hreads⟩ := ihArgs name [] t₁ y (by omega) hy
        obtain rfl := hcommas rfl
        refine ⟨_, ?_, .cons htok hreads⟩
        change y.1.1.Loose _
        rw [hc]
        exact ⟨inner, hinner, rfl⟩
      · cases h
    · intro name args t x hlen h
      rw [parseArgs] at h
      split at h
      · cases h
      · cases h
      · rename_i t₁ htok
        cases h
        exact ⟨[], _, by rw [List.append_nil], .close args, .cons htok (.nil _)⟩
      · rename_i t₁ htok
        have hlt := length_token htok
        split at h
        · cases h
        rename_i hargs
        obtain ⟨y, hy, hx⟩ := bind_eq_ok.1 h
        cases hx
        obtain ⟨more, toks, hc, hrest, hreads⟩ := ihArgs name args t₁ y (by omega) hy
        exact ⟨more, _, hc, hrest.comma (by simpa using hargs), .cons htok hreads⟩
      · rename_i s t₁ htok
        have hlt := length_token htok
        obtain ⟨y, hy, hx⟩ := bind_eq_ok.1 h
        cases hx
        obtain ⟨more, toks, hc, hrest, hreads⟩ := ihArgs name (args ++ [.str s]) t₁ y (by omega) hy
        exact ⟨.str s :: more, _, by rw [← List.append_cons] at hc; exact hc, .arg rfl hrest, .cons htok hreads⟩
      · rename_i name' t₁ htok
        have hlt := length_token htok
        obtain ⟨c, hc, h⟩ := bind_eq_ok.1 h
        obtain ⟨y, hy, hx⟩ := bind_eq_ok.1 h
        cases hx
        obtain ⟨own, hown, hreads⟩ := ihCall name' t₁ c (by omega) hc
        obtain ⟨more, toks, hy', hrest, hreads'⟩ := ihArgs name (args ++ [.call c.1.1]) c.1.2 y (by omega) hy
        exact ⟨.call c.1.1 :: more, _, by rw [← List.append_cons] at hy'; exact hy', .arg hown hrest,
          .cons htok (hreads.append hreads')⟩
      · cases h

/-- The call that is read behind its name ends at `t'`. -/
def ParsesCall (name : Bytes) (t : Tokenizer) (c : Call) (t' : Tokenizer) : Prop :=
  ∃ h, parseNamedCall name t = .ok ⟨(c, t'), h⟩

def ParsesArgs (name : Bytes) (args : List Arg) (t : Tokenizer) (c : Call) (t' : Tokenizer) : Prop :=
  ∃ h, parseArgs name args t = .ok ⟨(c, t'), h⟩

section
variable {t t₁ t₂ t' : Tokenizer} {name : Bytes} {args : List Arg} {c : Call}

theorem ParsesCall.lparen (htok : token t = .ok (some .lparen, t₁)) (h : ParsesArgs name [] t₁ c t') :
    ParsesCall name t c t' := by
  obtain ⟨hlt, h⟩ := h
  refine ⟨hlt.trans (length_token htok), ?_⟩
  rw [parseNamedCall]
  split <;> rename_i heq
  · cases htok.symm.trans heq
  · cases htok.symm.trans heq
    rw [h]
    rfl
  · rename_i hne
    cases htok.symm.trans heq
    exact (hne rfl).elim

theorem ParsesArgs.rparen (htok : token t = .ok (some .rparen, t')) : ParsesArgs name args t (.mk name args) t' := by
  refine ⟨length_token htok, ?_⟩
  rw [parseArgs]
  split <;> rename_i heq <;> cases htok.symm.trans heq
  rfl

theorem ParsesArgs.comma (htok : token t = .ok (some .comma, t₁)) (hargs : args ≠ []) (h : ParsesArgs name args t₁ c t') :
    ParsesArgs name args t c t' := by
  obtain ⟨hlt, h⟩ := h
  refine ⟨hlt.trans (length_token htok), ?_⟩
  rw [parseArgs]
  split <;> rename_i heq <;> cases htok.symm.trans heq
  rw [if_neg (by simpa using hargs), h]
  rfl

theorem ParsesArgs.str {s : Bytes} (htok : token t = .ok (some (.str s), t₁))
    (h : ParsesArgs name (args ++ [.str s]) t₁ c t') : ParsesArgs name args t c t' := by
  obtain ⟨hlt, h⟩ := h
  refine ⟨hlt.trans (length_token htok), ?_⟩
  rw [parseArgs]
  split <;> rename_i heq <;> cases htok.symm.trans heq
  rw [h]
  rfl

theorem ParsesArgs.call {name' : Bytes} {c' : Call} (htok : token t = .ok (some (.ident name'), t₁))
    (hcall : ParsesCall name' t₁ c' t₂) (h : ParsesArgs name (args ++ [.call c']) t₂ c t') :
    ParsesArgs name args t c t' := by
  obtain ⟨hlt', hcall⟩ := hcall
  obtain ⟨hlt, h⟩ := h
  refine ⟨hlt.trans (hlt'.trans (length_token htok)), ?_⟩
  rw [parseArgs]
  split <;> rename_i heq <;> cases htok.symm.trans heq
  rw [hcall]
  change (parseArgs name (args ++ [Arg.call c']) t₂ >>= fun x => pure (x.after _)) = _
  rw [h]
  rfl

theorem ParsesArgs.commas {commas : Nat} (hread : Reads (List.replicate commas .comma) t t₁)
    (hargs : args = [] → commas = 0) (h : ParsesArgs name args t₁ c t') : ParsesArgs name args t c t' := by
  induction commas generalizing t with
  | zero =>
    cases hread
    exact h
  | succ commas ih =>
    have hne : args ≠ [] := fun hnil => Nat.succ_ne_zero _ (hargs hnil)
    cases hread with
    | cons first rest => exact .comma first hne (ih rest fun hnil => absurd hnil hne)

end

mutual

theorem Call.parses : ∀ (c : Call) {name : Bytes} {toks : List Tok} {t t' : Tokenizer}, c.Loose (.ident name :: toks) →
    Reads toks t t' → ParsesCall name t c t'
  | .mk _ more, _, _, _, _, hloose, hreads => by
    obtain ⟨inner, hinner, htoks⟩ := hloose
    cases htoks
    cases hreads with
    | cons first rest => exact .lparen first (args_parse more ⟨0, inner, fun _ => rfl, hinner, rfl⟩ rest)

theorem Arg.parses : ∀ (a : Arg) {name : Bytes} {args : List Arg} {own : List Tok} {t t₁ t' : Tokenizer} {c : Call},
    a.Loose own → Reads own t t₁ → ParsesArgs name (args ++ [a]) t₁ c t' → ParsesArgs name args t c t'
  | .str s, _, _, _, _, _, _, _, hloose, hreads, h => by
    cases hloose
    cases hreads with
    | cons first rest =>
      cases rest
      exact .str first h
  | .call (.mk name' args'), _, _, _, _, _, _, _, hloose, hreads, h => by
    obtain ⟨inner, hinner, rfl⟩ := hloose
    cases hreads with
    | cons first rest => exact .call first (Call.parses (.mk name' args') ⟨inner, hinner, rfl⟩ rest) h

theorem args_parse : ∀ (more : List Arg) {name : Bytes} {args : List Arg} {toks : List Tok} {t t' : Tokenizer},
    Rest args more toks → Reads toks t t' → ParsesArgs name args t (.mk name (args ++ more)) t'
  | [], _, _, _, _, _, hrest, hreads => by
    obtain ⟨commas, inner, hcommas, rfl, rfl⟩ := hrest
    obtain ⟨t₁, hcommas', hclose⟩ := hreads.split
    refine .commas hcommas' hcommas ?_
    cases hclose with
    | cons first rest =>
      cases rest
      rw [List.append_nil]
      exact .rparen first
  | a :: more, name, args, _, _, _, hrest, hreads => by
    obtain ⟨commas, inner, hcommas, ⟨own, behind, rest, ha, hrest, rfl⟩, rfl⟩ := hrest
    obtain ⟨t₁, hcommas', hreads⟩ := hreads.split
    rw [List.append_assoc, List.append_assoc] at hreads
    obtain ⟨t₂, hown, hlater⟩ := hreads.split
    have hne : args ++ [a] ≠ [] := by simp
    have hmore : ParsesArgs name (args ++ [a]) t₂ (.mk name (args ++ [a] ++ more)) _ :=
      args_parse more ⟨behind, rest, fun hnil => absurd hnil hne, hrest, rfl⟩ hlater
    rw [← List.append_cons] at hmore
    exact .commas hcommas' hcommas (a.parses ha hown hmore)

end

omit [QueryCrates] in
theorem blank_iff (t : Tokenizer) : (skipWs t).rest.isEmpty = true ↔ IsBlank t.rest := by
  rw [skipWs_rest, List.isEmpty_iff, List.dropWhile_eq_nil_iff]
  rfl

omit [QueryCrates] in
theorem skipWs_skipWs (t : Tokenizer) : skipWs (skipWs t) = skipWs t := by
  obtain ⟨-, -, -, hhead⟩ := exists_blank t.rest
  rw [← skipWs_rest] at hhead
  generalize skipWs t = s at hhead
  rw [skipWs]
  cases hs : s.rest with
  | nil => rfl
  | cons c rest =>
    rw [skipBytes, if_neg]
    rw [hhead c (by rw [hs]; rfl)]
    exact Bool.false_ne_true

theorem token_skipWs (t : Tokenizer) : token (skipWs t) = token t := by
  unfold token
  rw [skipWs_skipWs]

theorem parseCall_eq_ok {t t' : Tokenizer} {c : Call} :
    parseCall t = .ok (some c, t') ↔ ∃ name t₁, token t = .ok (some (.ident name), t₁) ∧ ParsesCall name t₁ c t' := by
  rw [parseCall]
  constructor
  · intro h
    split at h
    · cases h
    obtain ⟨x, hx, hres⟩ := bind_eq_ok.1 h
    cases hres
    rw [parseCallInner, token_skipWs] at hx
    obtain ⟨y, hy, hx⟩ := bind_eq_ok.1 hx
    obtain ⟨tok, t₁⟩ := y
    cases tok with
    | none => cases hx
    | some tok =>
      cases tok with
      | ident name =>
        obtain ⟨z, hz, hx⟩ := bind_eq_ok.1 hx
        cases hx
        exact ⟨name, t₁, hy, z.2, hz⟩
      | str _ | lparen | rparen | comma => cases hx
  · rintro ⟨name, t₁, htok, hlt, hcall⟩
    have hne : ¬ (skipWs t).rest.isEmpty = true := by
      rw [blank_iff]
      intro hblank
      rw [token_of_blank hblank] at htok
      cases htok
    rw [if_neg hne, parseCallInner, token_skipWs, htok]
    change (parseNamedCall name t₁ >>= fun x => pure x.1) >>= (fun x => pure (some x.1, x.2)) = _
    rw [hcall]
    rfl

theorem parse_eq_ok_iff {src : Bytes} (hutf : isUtf8 src) (c : Call) :
    parse src = .ok c ↔ ∃ toks, c.Loose toks ∧ Spells toks src := by
  have hend : ∀ t, expectEnd t = .ok () ↔ IsBlank t.rest := by
    intro t
    rw [← blank_iff, expectEnd]
    split <;> simp_all
  constructor
  · intro h
    obtain ⟨x, hx, h⟩ := bind_eq_ok.1 h
    obtain ⟨res, t'⟩ := x
    cases res with
    | none => cases h
    | some c' =>
      obtain ⟨u, hu, hc⟩ := bind_eq_ok.1 h
      cases hc
      obtain ⟨name, t₁, htok, hlt, hcall⟩ := parseCall_eq_ok.1 hx
      obtain ⟨toks, hloose, hreads⟩ := (loose_of_parse (t₁.rest.length + 1)).1 name t₁ _ (Nat.lt_succ_self _) hcall
      exact ⟨_, hloose, spells_of_reads (.cons htok hreads) hutf ((hend t').1 hu)⟩
  · rintro ⟨toks, hloose, hspells⟩
    obtain ⟨t', hreads, hblank⟩ := hspells.reads (t := .new src) rfl hutf
    cases c with
    | mk name args =>
      obtain ⟨inner, hinner, rfl⟩ := hloose
      cases hreads with
      | cons first rest =>
        have hcall := (Call.mk name args).parses ⟨inner, hinner, rfl⟩ rest
        rw [parse, parseCall_eq_ok.2 ⟨name, _, first, hcall⟩]
        change (expectEnd t' >>= fun _ => pure (Call.mk name args)) = _
        rw [(hend t').2 hblank]
        rfl

/-! ### The grammar and the parser -/

/-- The parser accepts the text exactly if it is that of a call, and with that call. -/
def ParsesGrammar (src : Bytes) : Prop := ∀ c, parse src = .ok c ↔ Spells c.tokens src

/-- Where the text reads as a call with any number of commas behind each argument, it is one comma behind each argument
but the last, and none behind the last. -/
def OneComma (src : Bytes) : Prop := ∀ c toks, Call.Loose c toks → Spells toks src → toks = c.tokens

/-- The parser does with a text what the grammar says exactly if no list of arguments in it lacks a comma or has one too
many. -/
theorem parses_grammar_iff {src : Bytes} (hutf : isUtf8 src) : ParsesGrammar src ↔ OneComma src := by
  constructor
  · intro hparses c toks hloose hspells
    have hparse : parse src = .ok c := (parse_eq_ok_iff hutf c).2 ⟨toks, hloose, hspells⟩
    exact hspells.unique ((hparses c).1 hparse) hutf
  · intro hone c
    rw [parse_eq_ok_iff hutf c]
    constructor
    · rintro ⟨toks, hloose, hspells⟩
      rwa [hone c toks hloose hspells] at hspells
    · intro hspells
      exact ⟨c.tokens, c.loose_tokens, hspells⟩

end

theorem parses_grammar_iff_get : letI := QueryCrates.trivial
    isUtf8 (BunnyMesh.str "get(\"k\")") ∧
      (ParsesGrammar (BunnyMesh.str "get(\"k\")") ↔ OneComma (BunnyMesh.str "get(\"k\")")) := by
  let _ := QueryCrates.trivial
  have hutf : isUtf8 (BunnyMesh.str "get(\"k\")") := by decide +kernel
  exact ⟨hutf, parses_grammar_iff hutf⟩

def firstToks [QueryCrates] : Nat → Tokenizer → List Tok
  | 0, _ => []
  | n + 1, t =>
    match token t with
    | .ok (some tok, t') => tok :: firstToks n t'
    | .ok (none, _) => []
    | .error _ => []

theorem Reads.firstToks_eq [QueryCrates] {toks : List Tok} {t t' : Tokenizer} (h : Reads toks t t') :
    firstToks toks.length t = toks := by
  induction h with
  | nil => rfl
  | cons first _ ih =>
    rw [List.length_cons, firstToks, first]
    exact congrArg _ ih

/-- A text with a comma missing, one doubled and one trailing. -/
def sloppyPut : Bytes := BunnyMesh.str "put(\"k\"\"v\",,\"60\",)"

set_option maxRecDepth 100000 in
/-- It is not a text of the grammar, and it is parsed. -/
theorem sloppy_put_parses : letI := QueryCrates.trivial
    ∃ c : Call, parse sloppyPut = .ok c ∧
      c.tokens = [.ident (BunnyMesh.str "put"), .lparen, .str (BunnyMesh.str "k"), .comma, .str (BunnyMesh.str "v"),
        .comma, .str (BunnyMesh.str "60"), .rparen] ∧ ¬ Spells c.tokens sloppyPut := by
  have hparse : letI := QueryCrates.trivial
      (parse sloppyPut).toOption.map Call.tokens =
        some [.ident (BunnyMesh.str "put"), .lparen, .str (BunnyMesh.str "k"), .comma, .str (BunnyMesh.str "v"),
          .comma, .str (BunnyMesh.str "60"), .rparen] := by decide +kernel
  have hfirst : letI := QueryCrates.trivial
      firstToks 8 (.new sloppyPut) ≠ [.ident (BunnyMesh.str "put"), .lparen, .str (BunnyMesh.str "k"), .comma,
        .str (BunnyMesh.str "v"), .comma, .str (BunnyMesh.str "60"), .rparen] := by decide +kernel
  have hutf : isUtf8 sloppyPut := by decide +kernel
  let _ := QueryCrates.trivial
  obtain ⟨c, hc, htoks⟩ := Option.map_eq_some_iff.1 hparse
  cases hsrc : parse sloppyPut with
  | error e =>
    rw [hsrc] at hc
    cases hc
  | ok c' =>
    rw [hsrc] at hc
    cases hc
    refine ⟨c, rfl, htoks, fun hspells => ?_⟩
    obtain ⟨t', hreads, -⟩ := hspells.reads (t := .new sloppyPut) rfl hutf
    rw [htoks] at hreads
    exact hfirst hreads.firstToks_eq

end Query

end BunnyMesh
