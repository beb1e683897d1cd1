import BunnyMesh.Query.Exec

/-!
# The text of a query

The tokenizer and the recursive-descent parser of `query/mod.rs`, and on top of them `classify` and `eval`.  The grammar
is `call := IDENT '(' args ')'` with `args := (STRING|call) (',' (STRING|call))*`; the loop of the parser also takes
arguments without a comma between them, and commas in a row after the first argument.  An error is reported at the line
and the column the tokenizer has reached.
-/

namespace BunnyMesh

open ByteCodec (fromUtf8Lossy)

/-- `{:?}` of a character, which is the byte `c` read as Latin-1. -/
class QueryCrates extends AuthCrates where
  debugChar : UInt8 → Bytes

@[reducible] def QueryCrates.trivial : QueryCrates := { AuthCrates.trivial with debugChar := fun c => [c] }

namespace Query

/-! ### Bytes -/

def isAsciiWhitespace (c : UInt8) : Bool := c == 9 || c == 10 || c == 12 || c == 13 || c == 32

def isAsciiAlphabetic (c : UInt8) : Bool := 65 ≤ c && c ≤ 90 || 97 ≤ c && c ≤ 122

def startsIdent (c : UInt8) : Bool := isAsciiAlphabetic c || c == 95

def inIdent (c : UInt8) : Bool := isAsciiAlphabetic c || isAsciiDigit c || c == 95

/-- `c as char` in UTF-8. -/
def latin1 (c : UInt8) : Bytes := if c < 128 then [c] else [(c >>> 6) ||| 0xC0, (c &&& 0x3F) ||| 0x80]

def unescape (c : UInt8) : Option UInt8 :=
  if c = 34 then some 34
  else if c = 92 then some 92
  else if c = 110 then some 10
  else if c = 116 then some 9
  else none

/-! ### Tokens -/

inductive Tok where
  | ident (name : Bytes)
  | str (s : Bytes)
  | lparen
  | rparen
  | comma
deriving DecidableEq

/-- What is left to read, and where it starts. -/
structure Tokenizer where
  rest : Bytes
  line : Nat
  col : Nat

namespace Tokenizer

def new (src : Bytes) : Tokenizer := ⟨src, 1, 1⟩

def err (t : Tokenizer) (msg : Bytes) : QueryError := .parse t.line t.col msg

/-- Past the byte `c`, with `rest` to follow. -/
def past (t : Tokenizer) (c : UInt8) (rest : Bytes) : Tokenizer :=
  if c = 10 then ⟨rest, t.line + 1, 1⟩ else ⟨rest, t.line, t.col + 1⟩

@[simp] theorem rest_past (t : Tokenizer) (c : UInt8) (rest : Bytes) : (t.past c rest).rest = rest := by
  unfold past
  split <;> rfl

end Tokenizer

open Tokenizer

/-- `skip_ws` over the bytes of `t`. -/
def skipBytes : Bytes → Tokenizer → Tokenizer
  | [], t => t
  | c :: rest, t => if isAsciiWhitespace c then skipBytes rest (t.past c rest) else t

def skipWs (t : Tokenizer) : Tokenizer := skipBytes t.rest t

/-- The name that `t` starts with; `name` is what is read of it. -/
def identBytes : Bytes → Bytes → Tokenizer → Bytes × Tokenizer
  | [], name, t => (name, t)
  | c :: rest, name, t => if inIdent c then identBytes rest (name ++ [c]) (t.past c rest) else (name, t)

/-- The string that `t` is inside of, to its closing quote; `s` is what is read of it. -/
def stringBytes : Bytes → Bytes → Tokenizer → Except QueryError (Bytes × Tokenizer)
  | [], _, t => .error (t.err (BunnyMesh.str "unterminated string"))
  | c :: rest, s, t =>
    if c = 34 then .ok (s, t.past c rest)
    else if c = 92 then
      match rest with
      | [] => .error ((t.past c []).err (BunnyMesh.str "unterminated string"))
      | e :: rest =>
        let t := (t.past c (e :: rest)).past e rest
        match unescape e with
        | some b => stringBytes rest (s ++ [b]) t
        | none => .error (t.err (BunnyMesh.str "invalid escape \\" ++ latin1 e))
    else stringBytes rest (s ++ [c]) (t.past c rest)

section
variable [QueryCrates]

def token (t : Tokenizer) : Except QueryError (Option Tok × Tokenizer) :=
  let t := skipWs t
  match t.rest with
  | [] => .ok (none, t)
  | c :: rest =>
    if c = 40 then .ok (some .lparen, t.past c rest)
    else if c = 41 then .ok (some .rparen, t.past c rest)
    else if c = 44 then .ok (some .comma, t.past c rest)
    else if c = 34 then (stringBytes rest [] (t.past c rest)).map fun x => (some (.str (fromUtf8Lossy x.1)), x.2)
    else if startsIdent c then
      let x := identBytes (c :: rest) [] t
      .ok (some (.ident (fromUtf8Lossy x.1)), x.2)
    else .error (t.err (BunnyMesh.str "unexpected character " ++ QueryCrates.debugChar c))

variable {bs : Bytes} {t : Tokenizer}

section
omit [QueryCrates]

theorem length_skipBytes (h : t.rest = bs) : (skipBytes bs t).rest.length ≤ t.rest.length := by
  induction bs generalizing t with
  | nil => exact le_rfl
  | cons c rest ih =>
    unfold skipBytes
    split
    · refine (ih (rest_past t c rest)).trans ?_
      rw [rest_past, h]
      simp
    · exact le_rfl

theorem length_identBytes {name : Bytes} (h : t.rest = bs) :
    (identBytes bs name t).2.rest.length ≤ t.rest.length := by
  induction bs generalizing t name with
  | nil => exact le_rfl
  | cons c rest ih =>
    unfold identBytes
    split
    · refine (ih (rest_past t c rest)).trans ?_
      rw [rest_past, h]
      simp
    · exact le_rfl

theorem length_stringBytes {s : Bytes} {x : Bytes × Tokenizer} (h : stringBytes bs s t = .ok x) :
    x.2.rest.length < bs.length := by
  fun_induction stringBytes bs s t with
  | case1 s t => cases h
  | case2 rest s t =>
    cases h
    simp
  | case3 s t => cases h
  | case4 s t e rest b hb _ t' ih =>
    have := ih h
    simp only [List.length_cons]
    omega
  | case5 s t e rest t' hb => cases h
  | case6 c rest s t hquote hescape ih =>
    have := ih h
    simp only [List.length_cons]
    omega

end

theorem length_token {t' : Tokenizer} {tok : Tok} (h : token t = .ok (some tok, t')) :
    t'.rest.length < t.rest.length := by
  have hskip : (skipWs t).rest.length ≤ t.rest.length := length_skipBytes rfl
  refine lt_of_lt_of_le ?_ hskip
  unfold token at h
  cases hrest : (skipWs t).rest with
  | nil => simp [hrest] at h
  | cons c rest =>
    simp only [hrest] at h
    split_ifs at h with h1 h2 h3 h4 h5
    · cases h; simp
    · cases h; simp
    · cases h; simp
    · cases hs : stringBytes rest [] ((skipWs t).past c rest) with
      | error e => simp [hs, Except.map] at h
      | ok x =>
        have hlt := length_stringBytes hs
        simp only [hs, Except.map, Except.ok.injEq, Prod.mk.injEq] at h
        rw [← h.2, List.length_cons]
        omega
    · simp only [Except.ok.injEq, Prod.mk.injEq] at h
      have hin : inIdent c = true := by
        unfold inIdent
        unfold startsIdent at h5
        simp only [Bool.or_eq_true] at h5 ⊢
        exact h5.imp .inl id
      rw [← h.2, identBytes, if_pos hin]
      exact (length_identBytes (rest_past _ c rest)).trans_lt (by simp)

/-! ### Calls -/

def Tok.debug : Tok → Bytes
  | .ident name => BunnyMesh.str "Ident(" ++ AuthCrates.debugStr name ++ BunnyMesh.str ")"
  | .str s => BunnyMesh.str "Str(" ++ AuthCrates.debugStr s ++ BunnyMesh.str ")"
  | .lparen => BunnyMesh.str "LParen"
  | .rparen => BunnyMesh.str "RParen"
  | .comma => BunnyMesh.str "Comma"

def debugNext : Option Tok → Bytes
  | some tok => BunnyMesh.str "Some(" ++ tok.debug ++ BunnyMesh.str ")"
  | none => BunnyMesh.str "None"

/-- A call, and the shorter text after it. -/
abbrev Parsed (t : Tokenizer) := { x : Call × Tokenizer // x.2.rest.length < t.rest.length }

def Parsed.after {t t' : Tokenizer} (h : t'.rest.length < t.rest.length) (x : Parsed t') : Parsed t := ⟨x.1, x.2.trans h⟩

mutual

/-- `( args )` for a call whose name was read. -/
def parseNamedCall (name : Bytes) (t : Tokenizer) : Except QueryError (Parsed t) :=
  match h : token t with
  | .error e => .error e
  | .ok (some .lparen, t') => do pure ((← parseArgs name [] t').after (length_token h))
  | .ok (other, t') =>
    .error (t'.err (BunnyMesh.str "expected '(' after " ++ name ++ BunnyMesh.str ", got " ++ debugNext other))
termination_by t.rest.length
decreasing_by exact length_token h

/-- The loop over the arguments; `args` are those read before. -/
def parseArgs (name : Bytes) (args : List Arg) (t : Tokenizer) : Except QueryError (Parsed t) :=
  match h : token t with
  | .error e => .error e
  | .ok (none, t') => .error (t'.err (BunnyMesh.str "unterminated call: missing ')'"))
  | .ok (some .rparen, t') => .ok ⟨(.mk name args, t'), length_token h⟩
  | .ok (some .comma, t') =>
    if args.isEmpty then .error (t'.err (BunnyMesh.str "unexpected ','"))
    else do pure ((← parseArgs name args t').after (length_token h))
  | .ok (some (.str s), t') => do pure ((← parseArgs name (args ++ [.str s]) t').after (length_token h))
  | .ok (some (.ident n), t') => do
    let c ← parseNamedCall n t'
    pure ((← parseArgs name (args ++ [.call c.1.1]) c.1.2).after (c.2.trans (length_token h)))
  | .ok (some .lparen, t') => .error (t'.err (BunnyMesh.str "expected argument, got '('"))
termination_by t.rest.length
decreasing_by
  · exact length_token h
  · exact length_token h
  · exact length_token h
  · exact c.2.trans (length_token h)

end

def parseCallInner (t : Tokenizer) : Except QueryError (Call × Tokenizer) := do
  match ← token t with
  | (some (.ident name), t') => pure (← parseNamedCall name t').1
  | (some other, t') => throw (t'.err (BunnyMesh.str "expected function name, got " ++ other.debug))
  | (none, t') => throw (t'.err (BunnyMesh.str "empty expression"))

def parseCall (t : Tokenizer) : Except QueryError (Option Call × Tokenizer) := do
  let t := skipWs t
  if t.rest.isEmpty then pure (none, t)
  else
    let (c, t') ← parseCallInner t
    pure (some c, t')

def expectEnd (t : Tokenizer) : Except QueryError Unit :=
  let t := skipWs t
  if t.rest.isEmpty then .ok () else .error (t.err (BunnyMesh.str "trailing tokens after expression"))

/-- The one call of a text, as `eval` and `classify` both read it. -/
def parse (src : Bytes) : Except QueryError Call := do
  match ← parseCall (Tokenizer.new src) with
  | (none, t) => throw (t.err (BunnyMesh.str "empty expression"))
  | (some c, t) =>
    expectEnd t
    pure c

/-! ### Statements -/

/-- What a statement does to the store. -/
inductive StmtKind where
  | readOnly
  | mutating
deriving DecidableEq

def classify (src : Bytes) : Except QueryError StmtKind := do
  let call ← parse src
  pure (if call.containsMutator then .mutating else .readOnly)

/-- `encode` writes a list of strings as JSON. -/
def eval (encode : List Bytes → Bytes) (ctx : QueryCtx) (src : Bytes) : Exec Value := do
  match parse src with
  | .error e => throw e
  | .ok call => exec encode ctx call

end

end Query

end BunnyMesh
