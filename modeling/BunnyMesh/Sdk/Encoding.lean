import BunnyMesh.Server.Tokens

/-!
# Base64 of the SDK

`b64urlEncode` of `compat.ts` writes the token that the server's `b64url_decode` reads.  It takes the encoder of the
runtime where there is one and a loop of its own elsewhere (`fallback_agrees_iff`).
-/

namespace BunnyMesh

open Capability (b64Url)

/-- The codec of `util.rs` with either of its alphabets. -/
theorem base64_round_trips : RoundTrips b64 ∧ RoundTrips b64Url := ⟨alphabet_b64.roundTrips, alphabet_b64Url.roundTrips⟩

namespace Sdk

/-- `B64` of `compat.ts` -/
def b64 : Bytes := str "ABCDEFGHIJKLMNOPQRSTUVWXYZabcdefghijklmnopqrstuvwxyz0123456789+/"

def indices : Bytes → List Nat
  | [] => []
  | [a] => [a.toNat / 4, a.toNat % 4 * 16]
  | [a, b] => [a.toNat / 4, a.toNat % 4 * 16 + b.toNat / 16, b.toNat % 16 * 4]
  | a :: b :: c :: rest =>
    a.toNat / 4 :: (a.toNat % 4 * 16 + b.toNat / 16) :: (b.toNat % 16 * 4 + c.toNat / 64) :: c.toNat % 64 :: indices rest

/-- What the host offers: Node's `Buffer`, a browser's `btoa`, or neither. -/
inductive Runtime where
  | buffer
  | btoa
  | bare

/-- `btoa`: standard base64 with padding. -/
def btoa (data : Bytes) : Bytes := padded (encodeImpl data BunnyMesh.b64)

/-- `.replace(/=+$/, "")` -/
def stripPad (text : Bytes) : Bytes := popPad text.length text

/-- `.replace(/\+/g, "-").replace(/\//g, "_")` -/
def urlSafe (text : Bytes) : Bytes :=
  (text.map fun c => if c = 43 then 45 else c).map fun c => if c = 47 then 95 else c

/-- `Buffer.toString("base64url")` is base64 in the URL-safe alphabet without padding. -/
def b64urlEncode (data : Bytes) : Runtime → Bytes
  | .buffer => stripPad (encodeImpl data b64Url)
  | .btoa => stripPad (urlSafe (btoa data))
  | .bare => (indices data).map (letter b64)

theorem indices_eq (data : Bytes) : indices data = sextets data := by
  have hz : (0 : UInt8).toNat = 0 := rfl
  fun_induction indices data with
  | case1 => rfl
  | case2 a =>
    have ha := a.toNat_lt
    simp only [sextets, group, hz, List.cons.injEq, and_true]
    omega
  | case3 a b =>
    have ha := a.toNat_lt
    have hb := b.toNat_lt
    simp only [sextets, group, hz, List.cons.injEq, and_true]
    omega
  | case4 a b c rest ih =>
    have ha := a.toNat_lt
    have hb := b.toNat_lt
    have hc := c.toNat_lt
    simp only [sextets, group, ih, List.cons.injEq, and_true]
    omega

theorem bare_eq (data : Bytes) : b64urlEncode data .bare = encodeImpl data BunnyMesh.b64 := by
  rw [b64urlEncode, indices_eq]
  rfl

/-- Both native branches write the URL-safe alphabet without padding. -/
theorem native_eq (data : Bytes) : b64urlEncode data .buffer = encodeImpl data b64Url ∧
    b64urlEncode data .btoa = encodeImpl data b64Url := by
  have hletter : ∀ i < 64, urlSafe [letter BunnyMesh.b64 i] = [letter b64Url i] := by decide +kernel
  have hurl : urlSafe (encodeImpl data BunnyMesh.b64) = encodeImpl data b64Url := by
    simp only [urlSafe, encodeImpl, List.map_map]
    apply List.map_congr_left
    intro i hi
    exact List.head_eq_of_cons_eq (hletter i (sextets_lt data i hi))
  have hpad := pad_not_mem_encodeImpl alphabet_b64Url data
  refine ⟨popPad_of_not_mem hpad _, ?_⟩
  have hsafe : urlSafe (btoa data) =
      encodeImpl data b64Url ++ List.replicate ((4 - (encodeImpl data BunnyMesh.b64).length % 4) % 4) 61 := by
    rw [← hurl]
    simp [btoa, padded, urlSafe]
  rw [b64urlEncode, stripPad, hsafe]
  exact popPad_append hpad (by simp)

/-- No six-bit group of the data is 62 or 63, where the two alphabets differ. -/
def Plain (data : Bytes) : Prop := ∀ i ∈ sextets data, i < 62

/-- The fallback writes the standard alphabet. It agrees with the native encoders, and the server reads back the tokens
of every runtime, for the data that need no letter of it beyond the first 62. -/
theorem fallback_agrees_iff (data : Bytes) :
    (b64urlEncode data .bare = b64urlEncode data .btoa ↔ Plain data) ∧
      ((∀ runtime, decodeImpl (b64urlEncode data runtime) b64Url = .ok data) ↔ Plain data) := by
  obtain ⟨hbuffer, hbtoa⟩ := native_eq data
  have hletter : ∀ i < 64, letter BunnyMesh.b64 i = letter b64Url i ↔ i < 62 := by decide +kernel
  have hrev : ∀ i < 64, 62 ≤ i → revIndex b64Url (letter BunnyMesh.b64 i) = .error (.char (letter BunnyMesh.b64 i)) := by
    intro i hi hge
    obtain rfl | rfl : i = 62 ∨ i = 63 := by omega
    · rfl
    · rfl
  have hsame : encodeImpl data BunnyMesh.b64 = encodeImpl data b64Url ↔ Plain data := by
    unfold encodeImpl Plain
    rw [List.map_inj_left]
    exact forall₂_congr fun i hi => hletter i (sextets_lt data i hi)
  have hdecode := decodeImpl_encodeImpl alphabet_b64Url data
  rw [bare_eq, hbtoa]
  refine ⟨hsame, fun h i hi => ?_, fun h runtime => ?_⟩
  · by_contra hge
    have hbare := h .bare
    rw [bare_eq] at hbare
    obtain ⟨l, hl, -⟩ := map_revIndex_of_decodeImpl hbare
    rw [popPad_of_not_mem (pad_not_mem_encodeImpl alphabet_b64 data), encodeImpl, List.map_map] at hl
    have hmem := List.mem_map_of_mem (f := revIndex b64Url ∘ letter BunnyMesh.b64) hi
    rw [hl, Function.comp_apply, hrev i (sextets_lt data i hi) (by omega)] at hmem
    simp at hmem
  · cases runtime with
    | buffer => rw [hbuffer, hdecode]
    | btoa => rw [hbtoa, hdecode]
    | bare => rw [bare_eq, hsame.2 h, hdecode]

theorem question_mark_not_read : b64urlEncode (str "ab?") .bare = str "YWI/" ∧
    b64urlEncode (str "ab?") .btoa = str "YWI_" ∧
      decodeImpl (b64urlEncode (str "ab?") .bare) b64Url = .error (.char 47) := ⟨rfl, rfl, rfl⟩

end Sdk

end BunnyMesh
