import BunnyMesh.Basic

/-!
# Log records

One record of a namespace log: its fields, its wire form (`toBytes`) and its parser (`parseChain`), as in
`storage/log.rs`.  All integers are little-endian:

    tag:u8 | len:u32 | crc32:u32 | prev:[u8;32] | payload

where the payload of a single write is `key_len:u32 | key | hlc:u64 | replica | author | val_len:u64 | value`, with
a trailing `expires_at:u64` for a TTL write, and the payload of a batch is `count:u32` followed by the tag and the
payload of every sub-operation.

A record that a caller can rely on (`Record.WellFormed`) is read back by the parser exactly as it was written
(`parseChain_toBytes`).
-/

namespace BunnyMesh

def tagPut : UInt8 := 0x01
def tagDel : UInt8 := 0x02
def tagPutTtl : UInt8 := 0x03
def tagSchema : UInt8 := 0x04
def tagIndex : UInt8 := 0x05
def tagBatch : UInt8 := 0x06

/-- tag(1) + len(4) + crc(4) + prev(32) -/
def headerLen : Nat := 41

/-- The fields of one write; also a sub-operation of a batch, which is never itself a batch. -/
structure Op where
  tag : UInt8
  key : Bytes
  hlc : UInt64
  replica : Bytes32
  author : Bytes32
  value : Bytes
  expiresAt : UInt64
deriving DecidableEq

/-- One parsed record: the wire and audit unit of a namespace.  `ops` is empty unless the tag is `tagBatch`. -/
structure Record extends Op where
  ops : List Op
deriving DecidableEq

def isPutTag (tag : UInt8) : Bool := tag == tagPut || tag == tagPutTtl

def isOpTag (tag : UInt8) : Bool := tag == tagPut || tag == tagPutTtl || tag == tagDel

def isRecordTag (tag : UInt8) : Bool :=
  tag == tagPut || tag == tagDel || tag == tagPutTtl || tag == tagSchema || tag == tagIndex || tag == tagBatch

def Record.dataOps (r : Record) : List Op :=
  if isOpTag r.tag then [r.toOp] else if r.tag = tagBatch then r.ops else []

def hexTag (tag : UInt8) : String := "0x" ++ String.ofList (Nat.toDigits 16 tag.toNat)

/-! ### CRC -/

/-- Entry `i` of the IEEE 802.3 table. -/
def crcTable (i : UInt32) : UInt32 :=
  (List.range 8).foldl (fun (c : UInt32) _ => if c &&& 1 != 0 then (0xEDB88320 : UInt32) ^^^ (c >>> 1) else c >>> 1) i

def crc32Parts (a b : Bytes) : UInt32 :=
  (a ++ b).foldl (fun c byte => crcTable ((c ^^^ byte.toUInt32) &&& 0xFF) ^^^ (c >>> 8)) 0xFFFFFFFF ^^^ 0xFFFFFFFF

/-! ### Writing -/

def payloadBytes (r : Op) : Bytes :=
  le 4 r.key.length ++ (r.key ++ (le 8 r.hlc.toNat ++ (r.replica.val ++ (r.author.val ++
    (le 8 r.value.length ++ (r.value ++ if r.tag = tagPutTtl then le 8 r.expiresAt.toNat else []))))))

def opsBytes (ops : List Op) : Bytes := ops.flatMap fun op => op.tag :: payloadBytes op

def Record.payload (r : Record) : Bytes :=
  if r.tag = tagBatch then le 4 r.ops.length ++ opsBytes r.ops else payloadBytes r.toOp

/-- Serialize with `prev` filled in; the full record bytes. -/
def Record.toBytes (r : Record) (prev : Bytes32) : Bytes :=
  let crc := crc32Parts [r.tag] (prev.val ++ r.payload)
  r.tag :: (le 4 r.payload.length ++ (le 4 crc.toNat ++ (prev.val ++ r.payload)))

/-- `sha256(prev || full_record_bytes)`, the chain link. -/
def recordHash [Crates] (prev : Bytes32) (bytes : Bytes) : Bytes32 := Crates.sha256 (prev.val ++ bytes)

/-! ### Parsing -/

/-- Parse a payload section at offset `p`; the write and the offset behind it. -/
def parsePayload (tag : UInt8) (bytes : Bytes) (p : Nat) : Res (Op × Nat) := do
  ensure (p + 4 ≤ bytes.length) (corrupt "key_len overruns")
  let keyLen := fromLe (← slice bytes p (p + 4))
  let p := p + 4
  ensure (keyLen ≤ bytes.length - p) (corrupt "key_len overruns")
  let key ← slice bytes p (p + keyLen)
  let p := p + keyLen
  ensure (p + 8 ≤ bytes.length) (corrupt "hlc overruns")
  let hlc := UInt64.ofNat (fromLe (← slice bytes p (p + 8)))
  let p := p + 8
  ensure (p + 64 ≤ bytes.length) (corrupt "keys overrun")
  let replica ← tryInto32 (← slice bytes p (p + 32))
  let p := p + 32
  let author ← tryInto32 (← slice bytes p (p + 32))
  let p := p + 32
  -- the source takes this slice without a bound check of its own
  let valLen := fromLe (← slice bytes p (p + 8))
  let p := p + 8
  ensure (valLen ≤ bytes.length - p) (corrupt "val_len overruns")
  let value ← slice bytes p (p + valLen)
  let p := p + valLen
  if tag = tagPutTtl then
    ensure (p + 8 ≤ bytes.length) (corrupt "expires_at overruns")
    let expiresAt := UInt64.ofNat (fromLe (← slice bytes p (p + 8)))
    pure (⟨tag, key, hlc, replica, author, value, expiresAt⟩, p + 8)
  else
    pure (⟨tag, key, hlc, replica, author, value, 0⟩, p)

def parseOps (bytes : Bytes) : Nat → Nat → Res (List Op × Nat)
  | 0, p => pure ([], p)
  | count + 1, p => do
    ensure (p < bytes.length) (corrupt "batch sub-op overruns")
    let subTag ← index bytes p
    ensure (isOpTag subTag) (corrupt s!"bad batch sub-op tag {hexTag subTag}")
    let (sub, p) ← parsePayload subTag bytes (p + 1)
    let (rest, p) ← parseOps bytes count p
    pure (sub :: rest, p)

/-- The record a batch denotes: it mirrors its first sub-operation. -/
def batchRecord (ops : List Op) : Record :=
  match ops with
  | [] => ⟨⟨tagBatch, [], 0, .zero, .zero, [], 0⟩, []⟩
  | op :: _ => ⟨⟨tagBatch, [], op.hlc, op.replica, op.author, [], 0⟩, ops⟩

/-- Parse a full record.  `expectedPrev = none` skips the chain check; CRC, tag and lengths are always verified. -/
def parseChain (bytes : Bytes) (expectedPrev : Option Bytes32) : Res (Record × Bytes32) := do
  ensure (headerLen ≤ bytes.length) (corrupt "record shorter than header")
  let tag ← index bytes 0
  ensure (isRecordTag tag) (corrupt s!"bad record tag {hexTag tag}")
  let declaredLen := fromLe (← slice bytes 1 5)
  let payloadLen := bytes.length - headerLen
  ensure (declaredLen = payloadLen) (corrupt s!"record len {declaredLen} != actual {payloadLen}")
  let storedCrc := fromLe (← slice bytes 5 9)
  let calcCrc := crc32Parts (← slice bytes 0 1) (← slice bytes 9 bytes.length)
  ensure (calcCrc.toNat = storedCrc) (corrupt "crc32 mismatch")
  let prev ← tryInto32 (← slice bytes 9 41)
  ensure (expectedPrev = none ∨ expectedPrev = some prev) (corrupt "chain adjacency violated (prev != running head)")
  let p := headerLen
  if tag = tagBatch then
    ensure (p + 4 ≤ bytes.length) (corrupt "batch count overruns")
    let count := fromLe (← slice bytes p (p + 4))
    let (ops, _) ← parseOps bytes count (p + 4)
    pure (batchRecord ops, prev)
  else
    let (op, _) ← parsePayload tag bytes p
    pure (⟨op, []⟩, prev)

/-- `Record::parse`: the chain is checked against the running head. -/
def parse (bytes : Bytes) (expectedPrev : Bytes32) : Res (Record × Bytes32) := parseChain bytes (some expectedPrev)

/-! ### Reading back what was written -/

/-- Only a TTL write has an expiry: the field is not written for any other tag. -/
def Op.TtlOk (op : Op) : Prop := op.tag ≠ tagPutTtl → op.expiresAt = 0

instance (op : Op) : Decidable op.TtlOk := inferInstanceAs (Decidable (_ → _))

theorem ofNat_fromLe_le (n : UInt64) : UInt64.ofNat (fromLe (le 8 n.toNat)) = n := by
  rw [ByteCodec.fromLe_le_of_lt n.toNat_lt, UInt64.ofNat_toNat]

theorem length_payloadBytes (op : Op) :
    (payloadBytes op).length = 84 + op.key.length + op.value.length + if op.tag = tagPutTtl then 8 else 0 := by
  unfold payloadBytes
  split <;> simp <;> omega

variable {s : Bytes} {p : Nat}

theorem parsePayload_of_at {op : Op} (h : At s p (payloadBytes op))
    (hk : op.key.length < 256 ^ 4) (hv : op.value.length < 256 ^ 8) (ht : op.TtlOk) :
    parsePayload op.tag s p = .ok (op, p + (payloadBytes op).length) := by
  have hend := h.length_le
  rw [length_payloadBytes] at hend ⊢
  have hkey := h.right
  have hhlc := hkey.right
  have hrep := hhlc.right
  have haut := hrep.right
  have hvl := haut.right
  have hval := hvl.right
  have httl := hval.right
  simp only [ByteCodec.length_le, Bytes32.length_val] at hkey hhlc hrep haut hvl hval httl
  have b1 : p + 4 ≤ s.length := by omega
  have b2 : op.key.length ≤ s.length - (p + 4) := by omega
  have b3 : p + 4 + op.key.length + 8 ≤ s.length := by omega
  have b4 : p + 4 + op.key.length + 8 + 64 ≤ s.length := by omega
  have b5 : op.value.length ≤ s.length - (p + 4 + op.key.length + 8 + 32 + 32 + 8) := by omega
  simp only [parsePayload, slice_of_at h.left (ByteCodec.length_le ..), slice_of_at hkey.left rfl,
    slice_of_at hhlc.left (ByteCodec.length_le ..), slice_of_at hrep.left op.replica.len,
    slice_of_at haut.left op.author.len, slice_of_at hvl.left (ByteCodec.length_le ..), slice_of_at hval.left rfl,
    ByteCodec.fromLe_le_of_lt hk, ByteCodec.fromLe_le_of_lt hv, ofNat_fromLe_le, tryInto32_val,
    decide_eq_true b1, decide_eq_true b2, decide_eq_true b3, decide_eq_true b4, decide_eq_true b5,
    ensure_true, ok_bind, pure_eq_ok]
  by_cases htag : op.tag = tagPutTtl
  · rw [if_pos htag] at httl hend
    have b6 : p + 4 + op.key.length + 8 + 32 + 32 + 8 + op.value.length + 8 ≤ s.length := by omega
    simp only [if_pos htag, slice_of_at httl (ByteCodec.length_le ..), decide_eq_true b6, ofNat_fromLe_le, ensure_true,
      ok_bind, Except.ok.injEq, Prod.mk.injEq, true_and]
    omega
  · have hexp := ht htag
    obtain ⟨tag, key, hlc, replica, author, value, expiresAt⟩ := op
    subst hexp
    simp only [if_neg htag, Except.ok.injEq, Prod.mk.injEq, true_and]
    omega

/-- What a batch accepts as a sub-operation. -/
@[mk_iff]
structure Op.SubOk (op : Op) : Prop where
  tag : isOpTag op.tag
  ttl : op.TtlOk

instance (op : Op) : Decidable op.SubOk := decidable_of_iff' _ (Op.subOk_iff op)

/-- The records the parser can return, and the ones it reads back: a known tag, no field that the wire form drops,
and a payload whose length fits the header. -/
@[mk_iff]
structure Record.WellFormed (r : Record) : Prop where
  tag : isRecordTag r.tag
  fits : r.payload.length < 2 ^ 32
  ttl : r.TtlOk
  single : r.tag ≠ tagBatch → r.ops = []
  batch : r.tag = tagBatch → r = batchRecord r.ops
  subs : ∀ op ∈ r.ops, op.SubOk

variable {r : Record}

theorem Record.WellFormed.dataOps_tag (h : r.WellFormed) : ∀ op ∈ r.dataOps, isOpTag op.tag := by
  intro op hop
  unfold Record.dataOps at hop
  split_ifs at hop with h1 h2
  · rw [List.mem_singleton] at hop
    exact hop ▸ h1
  · exact (h.subs op hop).tag
  · cases hop

instance (r : Record) : Decidable r.WellFormed := decidable_of_iff' _ (Record.wellFormed_iff r)

theorem opsBytes_cons (op : Op) (ops : List Op) :
    opsBytes (op :: ops) = [op.tag] ++ (payloadBytes op ++ opsBytes ops) := by
  simp [opsBytes]

theorem length_ops_le (ops : List Op) : ops.length ≤ (opsBytes ops).length := by
  induction ops with
  | nil => simp
  | cons op ops ih =>
    rw [opsBytes_cons]
    simp only [List.length_append, List.length_cons, List.length_nil]
    omega

variable {ops : List Op}

theorem parseOps_of_at (h : At s p (opsBytes ops))
    (hlen : (opsBytes ops).length < 2 ^ 32) (hops : ∀ op ∈ ops, op.SubOk) :
    parseOps s ops.length p = .ok (ops, p + (opsBytes ops).length) := by
  induction ops generalizing p with
  | nil => simp [parseOps, opsBytes]
  | cons op ops ih =>
    rw [opsBytes_cons] at h hlen ⊢
    have hpay := length_payloadBytes op
    simp only [List.length_append, List.length_cons, List.length_nil] at hlen
    have hlt : p < s.length := by
      have := h.length_le
      simp only [List.length_append, List.length_cons, List.length_nil] at this
      omega
    obtain ⟨hop, hops⟩ := List.forall_mem_cons.1 hops
    have hparse := parsePayload_of_at h.right.left (by omega) (by omega) hop.ttl
    have hrest := ih h.right.right (by omega) hops
    simp only [List.length_cons, List.length_nil, Nat.zero_add] at hparse hrest
    simp only [List.length_cons, parseOps, decide_eq_true hlt, ensure_true, ok_bind, index_of_at h, hop.tag,
      hparse, hrest, pure_eq_ok, Except.ok.injEq, Prod.mk.injEq, true_and, List.length_append, List.length_nil]
    omega

theorem Record.toBytes_at (r : Record) (prev : Bytes32) : At (r.toBytes prev) 0 ([r.tag] ++ (le 4 r.payload.length ++
    (le 4 (crc32Parts [r.tag] (prev.val ++ r.payload)).toNat ++ (prev.val ++ r.payload)))) :=
  ByteCodec.At.refl _

theorem Record.length_toBytes (r : Record) (prev : Bytes32) :
    (r.toBytes prev).length = headerLen + r.payload.length := by
  simp [toBytes, headerLen]
  omega

/-! ### Header and payload -/

/-- The checks before the payload: the tag and the `prev` field of a record that passes them. -/
def parseHeader (bytes : Bytes) (expectedPrev : Option Bytes32) : Res (UInt8 × Bytes32) := do
  ensure (headerLen ≤ bytes.length) (corrupt "record shorter than header")
  let tag ← index bytes 0
  ensure (isRecordTag tag) (corrupt s!"bad record tag {hexTag tag}")
  let declaredLen := fromLe (← slice bytes 1 5)
  let payloadLen := bytes.length - headerLen
  ensure (declaredLen = payloadLen) (corrupt s!"record len {declaredLen} != actual {payloadLen}")
  let storedCrc := fromLe (← slice bytes 5 9)
  let calcCrc := crc32Parts (← slice bytes 0 1) (← slice bytes 9 bytes.length)
  ensure (calcCrc.toNat = storedCrc) (corrupt "crc32 mismatch")
  let prev ← tryInto32 (← slice bytes 9 41)
  ensure (expectedPrev = none ∨ expectedPrev = some prev) (corrupt "chain adjacency violated (prev != running head)")
  pure (tag, prev)

def parseBody (bytes : Bytes) (tag : UInt8) (prev : Bytes32) : Res (Record × Bytes32) :=
  if tag = tagBatch then do
    ensure (headerLen + 4 ≤ bytes.length) (corrupt "batch count overruns")
    let count := fromLe (← slice bytes headerLen (headerLen + 4))
    let (ops, _) ← parseOps bytes count (headerLen + 4)
    pure (batchRecord ops, prev)
  else do
    let (op, _) ← parsePayload tag bytes headerLen
    pure (⟨op, []⟩, prev)

theorem parseChain_eq (s : Bytes) (e : Option Bytes32) :
    parseChain s e = parseHeader s e >>= fun x => parseBody s x.1 x.2 := by
  simp only [parseChain, parseHeader, bind_assoc, pure_bind]
  rfl

/-- The header passes: tag, length, checksum and, if one is expected, the previous hash. -/
structure HeaderPasses (s : Bytes) (tag : UInt8) (e : Option Bytes32) : Prop where
  len : headerLen ≤ s.length
  tag : s[0]? = some tag ∧ isRecordTag tag
  declared : fromLe (range s 1 5) = s.length - headerLen
  crc : (crc32Parts (range s 0 1) (range s 9 s.length)).toNat = fromLe (range s 5 9)
  prev : ∀ h, e = some h → h.val = range s 9 41

variable {e : Option Bytes32} {tag : UInt8} {prev : Bytes32}

theorem parseHeader_eq_ok_iff :
    parseHeader s e = .ok (tag, prev) ↔ HeaderPasses s tag e ∧ prev.val = range s 9 41 := by
  simp only [parseHeader, bind_eq_ok, ensure_eq_ok, slice_eq_ok, index_eq_ok, tryInto32_eq_ok, decide_eq_true_eq,
    exists_const, pure_eq_ok, Except.ok.injEq, Prod.mk.injEq]
  constructor
  · rintro ⟨hlen, _, hget, htag, _, ⟨_, rfl⟩, hdecl, _, ⟨_, rfl⟩, _, ⟨_, rfl⟩, _, ⟨_, rfl⟩, hcrc, _, ⟨_, rfl⟩, _, hprev,
      he, rfl, rfl⟩
    refine ⟨⟨hlen, ⟨hget, htag⟩, hdecl, hcrc, ?_⟩, hprev⟩
    rintro h rfl
    obtain he | he := he
    · cases he
    · rw [Option.some.inj he, hprev]
  · rintro ⟨h, hprev⟩
    have hlen : 41 ≤ s.length := h.len
    have he : e = none ∨ e = some prev := by
      cases e with
      | none => exact .inl rfl
      | some p => exact .inr (congrArg some (Bytes32.ext ((h.prev p rfl).trans hprev.symm)))
    exact ⟨h.len, tag, h.tag.1, h.tag.2, _, ⟨by omega, rfl⟩, h.declared, _, ⟨by omega, rfl⟩, _, ⟨by omega, rfl⟩, _,
      ⟨by omega, rfl⟩, h.crc, _, ⟨by omega, rfl⟩, prev, hprev, he, rfl, rfl⟩

variable {x : Record × Bytes32}

theorem parseChain_eq_ok_iff : parseChain s e = .ok x ↔
    ∃ tag prev, (HeaderPasses s tag e ∧ prev.val = range s 9 41) ∧ parseBody s tag prev = .ok x := by
  simp [parseChain_eq, bind_eq_ok, parseHeader_eq_ok_iff]

/-! ### Reading back what was written -/

/-- Where the fields of a written record lie. -/
theorem Record.toBytes_fields (r : Record) (prev : Bytes32) :
    range (r.toBytes prev) 0 1 = [r.tag] ∧ range (r.toBytes prev) 1 5 = le 4 r.payload.length ∧
      range (r.toBytes prev) 5 9 = le 4 (crc32Parts [r.tag] (prev.val ++ r.payload)).toNat ∧
      range (r.toBytes prev) 9 41 = prev.val ∧
      range (r.toBytes prev) 9 (r.toBytes prev).length = prev.val ++ r.payload ∧ At (r.toBytes prev) 41 r.payload := by
  have hs := r.toBytes_at prev
  have hlen := r.length_toBytes prev
  have h1 := hs.right
  have h5 := h1.right
  have h9 := h5.right
  simp only [List.length_cons, List.length_nil, ByteCodec.length_le, Nat.zero_add, Nat.reduceAdd] at h1 h5 h9
  refine ⟨hs.left.range_eq rfl, h1.left.range_eq rfl, h5.left.range_eq rfl, h9.left.range_eq ?_, h9.range_eq ?_, ?_⟩
  · rw [prev.len]
  · rw [List.length_append, prev.len, hlen, headerLen]
    omega
  · have h41 := h9.right
    rwa [prev.len] at h41

theorem Record.headerPasses_toBytes (htag : isRecordTag r.tag) (hfits : r.payload.length < 2 ^ 32)
    (prev : Bytes32) (he : e = none ∨ e = some prev) :
    HeaderPasses (r.toBytes prev) r.tag e := by
  obtain ⟨h0, h1, h5, h9, hrest, -⟩ := r.toBytes_fields prev
  have hlen := r.length_toBytes prev
  refine ⟨by omega, ⟨rfl, htag⟩, ?_, ?_, ?_⟩
  · rw [h1, ByteCodec.fromLe_le_of_lt (by omega), hlen, Nat.add_sub_cancel_left]
  · rw [h0, hrest, h5, ByteCodec.fromLe_le_of_lt (UInt32.toNat_lt _)]
  · rintro h rfl
    obtain he | he := he
    · cases he
    · rw [h9, Option.some.inj he]

/-- A payload is read back wherever it begins, whatever follows it. -/
theorem parseBody_of_at (h : r.WellFormed) (hs : At s headerLen r.payload) (prev : Bytes32) :
    parseBody s r.tag prev = .ok (r, prev) := by
  have hfits := h.fits
  have hlen := hs.length_le
  unfold parseBody
  by_cases hb : r.tag = tagBatch
  · have hpay : r.payload = le 4 r.ops.length ++ opsBytes r.ops := if_pos hb
    rw [hpay] at hs
    rw [hpay, List.length_append, ByteCodec.length_le] at hlen hfits
    have hcount : headerLen + 4 ≤ s.length := by omega
    have hops := parseOps_of_at hs.right (by omega) h.subs
    have hn := length_ops_le r.ops
    rw [ByteCodec.length_le] at hops
    simp only [if_pos hb, hcount, decide_true, slice_of_at hs.left (ByteCodec.length_le ..),
      ByteCodec.fromLe_le_of_lt (n := r.ops.length) (w := 4) (by omega), ensure_true, ok_bind, hops, pure_eq_ok]
    rw [← h.batch hb]
  · have hpay : r.payload = payloadBytes r.toOp := if_neg hb
    rw [hpay] at hs hfits
    have hplen := length_payloadBytes r.toOp
    have hparse := parsePayload_of_at hs (by omega) (by omega) h.ttl
    simp only [if_neg hb, hparse, ok_bind, pure_eq_ok]
    rw [← h.single hb]

theorem parseChain_toBytes (h : r.WellFormed) (prev : Bytes32)
    (he : e = none ∨ e = some prev) : parseChain (r.toBytes prev) e = .ok (r, prev) := by
  obtain ⟨-, -, -, h9, -, h41⟩ := r.toBytes_fields prev
  exact parseChain_eq_ok_iff.2 ⟨r.tag, prev, ⟨Record.headerPasses_toBytes h.tag h.fits prev he, h9.symm⟩,
    parseBody_of_at h h41 prev⟩

/-! ### What the parser accepts -/

theorem parsePayload_eq_ok {q : Nat} {op : Op} (h : parsePayload tag s p = .ok (op, q)) :
    op.tag = tag ∧ op.TtlOk ∧ At s p (payloadBytes op) ∧ q = p + (payloadBytes op).length := by
  simp only [parsePayload, bind_eq_ok, ensure_eq_ok, slice_eq_ok, tryInto32_eq_ok, decide_eq_true_eq,
    exists_const] at h
  obtain ⟨_, _, ⟨h1, rfl⟩, _, key, ⟨h2, rfl⟩, _, _, ⟨h3, rfl⟩, _, _, ⟨h4, rfl⟩, replica, hr, _, ⟨h5, rfl⟩, author, ha,
    _, ⟨h6, rfl⟩, _, value, ⟨h7, rfl⟩, h⟩ := h
  have stamp : ∀ {i : Nat}, i + 8 ≤ s.length → At s i (le 8 (UInt64.ofNat (fromLe (range s i (i + 8)))).toNat) := by
    intro i hi
    have hlt := ByteCodec.fromLe_lt (range s i (i + 8))
    rw [ByteCodec.length_range (Nat.le_add_right i 8) hi, Nat.add_sub_cancel_left] at hlt
    rw [UInt64.toNat_ofNat_of_lt' hlt]
    exact .of_fromLe hi
  have hkey := ByteCodec.length_range h2.1 h2.2
  have hval := ByteCodec.length_range h7.1 h7.2
  rw [Nat.add_sub_cancel_left] at hkey hval
  have hrep := ByteCodec.At.of_range h4.1 h4.2
  have haut := ByteCodec.At.of_range h5.1 h5.2
  rw [← hr] at hrep
  rw [← ha] at haut
  -- the fields up to the author, with any rest behind them
  have front {rest : Bytes} (h : At s _ rest) :=
    (ByteCodec.At.of_fromLe h1.2).append ((ByteCodec.At.of_range h2.1 h2.2).append ((stamp h3.2).append (hrep.append
      (haut.append h (by rw [author.len])) (by rw [replica.len])) rfl) (by rw [hkey])) rfl
  rw [length_payloadBytes]
  split at h <;> rename_i htag
  · simp only [bind_eq_ok, ensure_eq_ok, slice_eq_ok, decide_eq_true_eq, exists_const, pure_eq_ok, Except.ok.injEq,
      Prod.mk.injEq] at h
    obtain ⟨hend, _, ⟨h8, rfl⟩, rfl, rfl⟩ := h
    simp only [payloadBytes, if_pos htag, hkey, hval]
    refine ⟨trivial, fun hne => absurd htag hne, ?_, by omega⟩
    have hbody := (ByteCodec.At.of_fromLe h6.2).append ((ByteCodec.At.of_range h7.1 h7.2).append (stamp hend) (by rw [hval])) rfl
    exact front hbody
  · simp only [pure_eq_ok, Except.ok.injEq, Prod.mk.injEq] at h
    obtain ⟨rfl, rfl⟩ := h
    simp only [payloadBytes, if_neg htag, hkey, hval, List.append_nil]
    refine ⟨trivial, fun _ => rfl, ?_, by omega⟩
    exact front ((ByteCodec.At.of_fromLe h6.2).append (.of_range h7.1 h7.2) rfl)

theorem parseOps_eq_ok {n q : Nat} (h : parseOps s n p = .ok (ops, q))
    (hp : p ≤ s.length) :
    ops.length = n ∧ (∀ op ∈ ops, op.SubOk) ∧ At s p (opsBytes ops) ∧ q = p + (opsBytes ops).length := by
  induction n generalizing p q ops with
  | zero =>
    obtain ⟨rfl, rfl⟩ := h
    exact ⟨rfl, by simp, ⟨s.take p, s.drop p, by simp [opsBytes], by rw [List.length_take]; omega⟩, rfl⟩
  | succ n ih =>
    simp only [parseOps, bind_eq_ok, ensure_eq_ok, exists_const, pure_eq_ok, Except.ok.injEq, Prod.mk.injEq,
      Prod.exists, index_eq_ok, decide_eq_true_eq] at h
    obtain ⟨hlt, tag, hget, htag, op, p', hop, rest, q', hrest, rfl, rfl⟩ := h
    obtain ⟨rfl, httl, hat, rfl⟩ := parsePayload_eq_ok hop
    obtain ⟨hlen, hsubs, hats, rfl⟩ := ih hrest hat.length_le
    have hfirst : At s p [op.tag] := by
      have hone : range s p (p + 1) = [op.tag] := by
        rw [List.getElem?_eq_getElem hlt] at hget
        rw [range, Nat.add_sub_cancel_left, List.drop_eq_getElem_cons hlt, Option.some.inj hget]
        rfl
      exact hone ▸ .of_range (Nat.le_add_right p 1) hlt
    rw [opsBytes_cons]
    refine ⟨by rw [List.length_cons, hlen], List.forall_mem_cons.2 ⟨⟨htag, httl⟩, hsubs⟩,
      hfirst.append (hat.append hats rfl) rfl, ?_⟩
    simp only [List.length_append, List.length_cons, List.length_nil]
    omega

theorem batchRecord_tag (ops : List Op) : (batchRecord ops).tag = tagBatch := by cases ops <;> rfl

theorem batchRecord_expiresAt (ops : List Op) : (batchRecord ops).expiresAt = 0 := by cases ops <;> rfl

theorem batchRecord_ops (ops : List Op) : (batchRecord ops).ops = ops := by cases ops <;> rfl

theorem batchRecord_wellFormed (hops : ∀ op ∈ ops, op.SubOk)
    (h : (batchRecord ops).payload.length < 2 ^ 32) : (batchRecord ops).WellFormed := by
  refine ⟨by rw [batchRecord_tag]; decide, h, fun _ => batchRecord_expiresAt ops, fun hb => absurd (batchRecord_tag ops) hb,
    fun _ => by rw [batchRecord_ops], ?_⟩
  rw [batchRecord_ops]
  exact hops

theorem Record.wellFormed_of_single (htag : isRecordTag r.tag) (hb : r.tag ≠ tagBatch) (httl : r.TtlOk)
    (hops : r.ops = []) (hfits : r.payload.length < 2 ^ 32) : r.WellFormed :=
  ⟨htag, hfits, httl, fun _ => hops, fun h => absurd h hb, by simp [hops]⟩

/-- The record a payload is read as is well-formed, and it is written as the bytes it was read from. -/
theorem parseBody_eq_ok
    (hpass : HeaderPasses s tag e) (h : parseBody s tag prev = .ok x) :
    x.2 = prev ∧ x.1.tag = tag ∧ x.1.WellFormed ∧ At s headerLen x.1.payload := by
  have hfits : s.length < 2 ^ 32 + headerLen := by
    have hlen : 41 ≤ s.length := hpass.len
    have hlt := ByteCodec.fromLe_lt (range s 1 5)
    rw [ByteCodec.length_range (by omega) (by omega), hpass.declared] at hlt
    omega
  unfold parseBody at h
  split at h <;> rename_i hb
  · simp only [bind_eq_ok, ensure_eq_ok, slice_eq_ok, decide_eq_true_eq, exists_const, pure_eq_ok, Except.ok.injEq,
      Prod.exists] at h
    obtain ⟨hcount, _, ⟨_, rfl⟩, ops, q, hops, rfl⟩ := h
    obtain ⟨hn, hsubs, hat, -⟩ := parseOps_eq_ok hops hcount
    have hpay : (batchRecord ops).payload = le 4 ops.length ++ opsBytes ops := by
      rw [Record.payload, if_pos (batchRecord_tag ops), batchRecord_ops]
    have hbody : At s headerLen (batchRecord ops).payload := by
      rw [hpay, hn]
      exact .append (.of_fromLe hcount) hat rfl
    have hlen := hbody.length_le
    exact ⟨rfl, (batchRecord_tag ops).trans hb.symm, batchRecord_wellFormed hsubs (by omega), hbody⟩
  · simp only [bind_eq_ok, pure_eq_ok, Except.ok.injEq, Prod.exists] at h
    obtain ⟨op, q, hop, rfl⟩ := h
    obtain ⟨rfl, httl, hat, -⟩ := parsePayload_eq_ok hop
    have hbody : At s headerLen (⟨op, []⟩ : Record).payload := by
      rw [Record.payload, if_neg hb]
      exact hat
    have hlen := hbody.length_le
    have hwf : (⟨op, []⟩ : Record).WellFormed := Record.wellFormed_of_single hpass.tag.2 hb httl rfl (by omega)
    exact ⟨rfl, rfl, hwf, hbody⟩

/-- The header of an accepted record: its declared length is its actual one, and its `prev` field is returned. -/
theorem parseChain_header
    (h : parseChain s e = .ok (r, prev)) : headerLen ≤ s.length ∧ (∃ tag, s[0]? = some tag ∧ isRecordTag tag) ∧
      fromLe (range s 1 5) = s.length - headerLen ∧ prev.val = range s 9 41 := by
  obtain ⟨tag, prev', ⟨hpass, hprev⟩, hbody⟩ := parseChain_eq_ok_iff.1 h
  obtain ⟨rfl, -⟩ := parseBody_eq_ok hpass hbody
  exact ⟨hpass.len, ⟨tag, hpass.tag⟩, hpass.declared, hprev⟩

theorem parseChain_wellFormed
    (h : parseChain s e = .ok (r, prev)) : r.WellFormed ∧ (e = none ∨ e = some prev) := by
  obtain ⟨tag, prev', ⟨hpass, hprev⟩, hbody⟩ := parseChain_eq_ok_iff.1 h
  obtain ⟨rfl, -, hwf, -⟩ := parseBody_eq_ok hpass hbody
  refine ⟨hwf, ?_⟩
  cases e with
  | none => exact .inl rfl
  | some p => exact .inr (congrArg some (Bytes32.ext ((hpass.prev p rfl).trans hprev.symm)))

theorem parseChain_none (h : parseChain s e = .ok x) :
    parseChain s none = .ok x := by
  obtain ⟨tag, prev, ⟨hpass, hprev⟩, hbody⟩ := parseChain_eq_ok_iff.1 h
  exact parseChain_eq_ok_iff.2 ⟨tag, prev, ⟨{ hpass with prev := nofun }, hprev⟩, hbody⟩

end BunnyMesh
