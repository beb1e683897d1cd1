import BunnyMesh.Storage.Store

/-!
# Names of namespaces and of their directories

A valid namespace name is ASCII, and the name of its directory decodes to it, so different namespaces have different
directories.
-/

namespace BunnyMesh

open Store
open ByteCodec

/-! ### Directory names -/

theorem ascii_of_isHexDigit {b : UInt8} (h : isHexDigit b) : b < 0x80 := by
  revert h
  unfold isHexDigit hexValue
  rw [UInt8.lt_iff_toNat_lt]
  dsimp only
  split_ifs <;> simp <;> omega

theorem str_owner : str "u/" = [117, 47] := by decide +kernel

variable {ns : Bytes}

theorem ascii_of_validNs (h : validNs ns) : ∀ b ∈ ns, b < 0x80 := by
  unfold validNs at h
  simp only [Bool.or_eq_true, Bool.and_eq_true, List.all_eq_true, beq_iff_eq, decide_eq_true_eq,
    isAsciiLowercase, isAsciiDigit] at h
  intro b hb
  rcases h with ⟨_, hflat⟩ | ⟨⟨hpre, _⟩, hhex⟩
  · have := hflat b hb
    rw [UInt8.lt_iff_toNat_lt]
    simp only [UInt8.le_iff_toNat_le] at this
    rcases this with (((h | h) | rfl) | rfl) | rfl
    · have := h.2; simp at this ⊢; omega
    · have := h.2; simp at this ⊢; omega
    all_goals decide
  · obtain ⟨rest, rfl⟩ := List.isPrefixOf_iff_prefix.1 hpre
    rcases List.mem_append.1 hb with hb | hb
    · rw [str_owner, List.mem_pair] at hb
      rcases hb with rfl | rfl <;> decide
    · have hdrop : (str "u/" ++ rest).drop 2 = rest := by rw [str_owner]; rfl
      exact ascii_of_isHexDigit (hhex b (hdrop ▸ hb))

theorem isUtf8_of_validNs (h : validNs ns) : isUtf8 ns := isUtf8_of_ascii (ascii_of_validNs h)

theorem length_of_validNs (h : validNs ns) : ns.length ≤ 66 := by
  unfold validNs at h
  simp only [Bool.or_eq_true, Bool.and_eq_true, beq_iff_eq, decide_eq_true_eq, List.length_drop] at h
  omega

theorem splitUnderscore_append {a b : Bytes} (h : ∀ x ∈ a, x ≠ 95) :
    splitUnderscore (a ++ 95 :: b) = some (a, b) := by
  induction a with
  | nil => simp [splitUnderscore]
  | cons x a ih =>
    obtain ⟨hx, ha⟩ := List.forall_mem_cons.1 h
    simp [splitUnderscore, hx, ih ha]

theorem parseNsDir_nsDir (h : validNs ns) : parseNsDir (nsDir ns) = some ns := by
  have hlen := length_of_validNs h
  have hdigits : ∀ x ∈ hexOfNat (ns.length * 2), isHexDigit x := by
    intro x hx
    obtain ⟨n, hn, rfl⟩ := mem_hexOfNat hx
    exact isHexDigit_hexDigit hn
  have hsplit : splitUnderscore (nsDir ns) = some (hexOfNat (ns.length * 2), hexEncode ns) := by
    refine splitUnderscore_append fun x hx => ?_
    obtain ⟨n, hn, rfl⟩ := mem_hexOfNat hx
    exact hexDigit_ne_underscore hn
  have henc : ∀ x ∈ hexEncode ns, isHexDigit x := by
    intro x hx
    obtain ⟨n, hn, rfl⟩ := mem_hexEncode hx
    exact isHexDigit_hexDigit hn
  have hnat : natOfHex (hexOfNat (ns.length * 2)) = some (ns.length * 2) := natOfHex_hexOfNat (by omega)
  simpa [parseNsDir, hsplit, hnat, length_hexEncode, hexDecode_hexEncode, isUtf8_of_validNs h, h]
    using And.intro hdigits henc

theorem nsDir_injective {ns' : Bytes} (h : validNs ns) (h' : validNs ns') (e : nsDir ns = nsDir ns') : ns = ns' := by
  have := parseNsDir_nsDir h
  rw [e, parseNsDir_nsDir h'] at this
  exact (Option.some.inj this).symm

theorem fromUtf8Lossy_nsDir (ns : Bytes) : fromUtf8Lossy (nsDir ns) = nsDir ns := by
  refine fromUtf8Lossy_of_isUtf8 (isUtf8_of_ascii fun b hb => ?_)
  rcases List.mem_append.1 hb with hb | hb
  · obtain ⟨n, hn, rfl⟩ := mem_hexOfNat hb
    exact hexDigit_lt hn
  · rcases List.mem_cons.1 hb with rfl | hb
    · decide
    · obtain ⟨n, hn, rfl⟩ := mem_hexEncode hb
      exact hexDigit_lt hn

end BunnyMesh
