import BunnyMesh.Lib.Bytes

/-!
# Readers of byte strings

A reader consumes a byte string from the front.  `Reads p w a` says that `p` reads `a` from `w` and leaves whatever
follows; the rules below follow the structure of a reader, so that the round trip of a format is proved field by
field, beside the writer.
-/

namespace ByteCodec

abbrev Reader (ε α : Type) := StateT Bytes (Except ε) α

namespace Reader

variable {ε α β : Type}

def take (e : ε) (n : Nat) : Reader ε Bytes := fun s =>
  if n ≤ s.length then .ok (s.take n, s.drop n) else .error e

def byte (e : ε) : Reader ε UInt8 := fun s =>
  match s with
  | [] => .error e
  | b :: rest => .ok (b, rest)

def lift (x : Except ε α) : Reader ε α := fun s => x.map fun a => (a, s)

def int (e : ε) (w : Nat) : Reader ε Nat := do pure (fromLe (← take e w))

def bytes (e : ε) : Reader ε Bytes := do take e (← int e 4)

def many (p : Reader ε α) : Nat → Reader ε (List α)
  | 0 => pure []
  | n + 1 => do
    let a ← p
    let as ← many p n
    pure (a :: as)

def list (e : ε) (p : Reader ε α) : Reader ε (List α) := do many p (← int e 4)

/-- `p` reads `a` from `w`, whatever follows. -/
def Reads (p : Reader ε α) (w : Bytes) (a : α) : Prop := ∀ rest, p (w ++ rest) = .ok (a, rest)

theorem Reads.pure (a : α) : Reads (pure a : Reader ε α) [] a := fun _ => rfl

variable {p : Reader ε α} {w : Bytes} {a : α}

theorem Reads.bind {f : α → Reader ε β} {w' : Bytes} {b : β} (hp : Reads p w a)
    (hf : Reads (f a) w' b) : Reads (p >>= f) (w ++ w') b := by
  intro rest
  have hstep : (p >>= f) (w ++ w' ++ rest) = (p (w ++ (w' ++ rest)) >>= fun x => f x.1 x.2) := by
    rw [List.append_assoc]
    rfl
  rw [hstep, hp]
  exact hf rest

theorem Reads.map {f : α → Reader ε β} {b : β} (hp : Reads p w a)
    (hf : f a = Pure.pure b) : Reads (p >>= f) w b := by
  have h := hp.bind (show Reads (f a) [] b from hf ▸ Reads.pure b)
  rwa [List.append_nil] at h

theorem reads_take (e : ε) {n : Nat} (h : w.length = n) : Reads (take e n) w w := by
  intro rest
  subst h
  simp [take]

theorem reads_byte (e : ε) (b : UInt8) : Reads (byte e) [b] b := fun _ => rfl

theorem reads_lift {x : Except ε α} (h : x = .ok a) : Reads (lift x) [] a := by
  subst h
  exact fun _ => rfl

theorem reads_int (e : ε) {w n : Nat} (h : n < 256 ^ w) : Reads (int e w) (le w n) n :=
  (reads_take e (length_le w n)).map (by rw [fromLe_le_of_lt h])

theorem reads_bytes (e : ε) {b : Bytes} (h : b.length < 256 ^ 4) : Reads (bytes e) (le 4 b.length ++ b) b :=
  (reads_int e h).bind (reads_take e rfl)

theorem reads_many {enc : α → Bytes} {as : List α} (h : ∀ a ∈ as, Reads p (enc a) a) :
    Reads (many p as.length) (as.flatMap enc) as := by
  induction as with
  | nil => exact Reads.pure []
  | cons a as ih =>
    obtain ⟨ha, has⟩ := List.forall_mem_cons.1 h
    exact ha.bind ((ih has).map rfl)

theorem reads_list (e : ε) {enc : α → Bytes} {as : List α} (hlen : as.length < 256 ^ 4)
    (h : ∀ a ∈ as, Reads p (enc a) a) : Reads (list e p) (le 4 as.length ++ as.flatMap enc) as :=
  (reads_int e hlen).bind (reads_many h)

theorem Reads.run_nil (h : Reads p w a) : p w = .ok (a, []) := by
  have h' := h []
  rwa [List.append_nil] at h'

end Reader

end ByteCodec
