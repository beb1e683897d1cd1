import BunnyMesh.Auth.Ledger
import BunnyMesh.Storage.Names

/-!
# Scopes as paths

A scope is a path `host/tier/ns/prefix` of segments between slashes.  The reserved form `u/<pk>` of a namespace takes two
segments, so the flat name `u`, which is valid, is read back as the start of an owner's namespace; every other scope is
read back as it was written (`scope_named_iff`).  A scope covers another exactly if the segments of its prefix are the
first ones of the other's (`covers_iff_segments`).
-/

namespace BunnyMesh

open Store

namespace Scope

/-! ### Segments -/

def segments : Option Bytes → List Bytes
  | some p => p.splitOn slash
  | none => []

theorem splitOn_append_cons {a : Bytes} (h : slash ∉ a) (b : Bytes) :
    (a ++ slash :: b).splitOn slash = a :: b.splitOn slash := by
  rw [List.splitOn_append_cons_self, List.splitOn_eq_singleton h]
  rfl

theorem splitOn_append_tailPath {a : Bytes} (h : slash ∉ a) (p : Option Bytes) :
    (a ++ tailPath p).splitOn slash = a :: segments p := by
  cases p with
  | none => rw [tailPath, List.append_nil, List.splitOn_eq_singleton h, segments]
  | some p => exact splitOn_append_cons h p

theorem joinFrom_segments (p : Option Bytes) : joinFrom (segments p) 0 = p := by
  cases p with
  | none => rfl
  | some p =>
    have hpos : 0 < (p.splitOn slash).length := List.length_pos_iff.2 (List.splitOn_ne_nil _ _)
    rw [segments, joinFrom, if_pos hpos, List.drop_zero, List.intercalate_splitOn]

/-! ### Writing and reading -/

theorem slash_notMem_asStr (t : Tier) : slash ∉ t.asStr := by
  cases t <;> decide +kernel

theorem parse_asStr (t : Tier) : Tier.parse t.asStr = some t := by
  cases t <;> decide +kernel

theorem segments_toUrl {s : Scope} (h : slash ∉ s.host) : ∃ rest, s.toUrl = scheme ++ rest ∧
    rest.splitOn slash = s.host :: s.tier.asStr :: (s.ns ++ tailPath s.keyPrefix).splitOn slash :=
  ⟨_, rfl, by rw [splitOn_append_cons h, splitOn_append_cons (slash_notMem_asStr s.tier)]⟩

variable {segs : List Bytes}

theorem parse_toUrl [AuthCrates] {s : Scope} (hne : s.host ≠ []) (h : slash ∉ s.host)
    (hsegs : (s.ns ++ tailPath s.keyPrefix).splitOn slash = segs) :
    parse s.toUrl = (parseNs (s.host :: s.tier.asStr :: segs)).bind fun x =>
      if x.1.isEmpty then .error (str "empty namespace")
      else .ok ⟨s.host, s.tier, x.1, joinFrom (s.host :: s.tier.asStr :: segs) x.2⟩ := by
  obtain ⟨rest, hurl, hrest⟩ := segments_toUrl h
  have hscheme : scheme.isPrefixOf (scheme ++ rest) := List.isPrefixOf_iff_prefix.2 (List.prefix_append _ _)
  rw [parse, hurl, if_pos hscheme, List.drop_left, hrest, hsegs]
  simp only [List.getElem?_cons_zero, List.getElem?_cons_succ, List.isEmpty_iff, if_neg hne, parse_asStr]
  rfl

theorem segments_of_validNs {ns : Bytes} (h : validNs ns) : (ns ≠ [] ∧ slash ∉ ns) ∨
    ∃ pk, ns = str "u/" ++ pk ∧ slash ∉ pk := by
  unfold validNs at h
  simp only [Bool.or_eq_true, Bool.and_eq_true, Bool.not_eq_true', List.isEmpty_eq_false_iff, List.all_eq_true, beq_iff_eq,
    decide_eq_true_eq] at h
  rcases h with ⟨⟨hne, _⟩, hflat⟩ | ⟨⟨howner, _⟩, hhex⟩
  · refine .inl ⟨hne, fun hmem => ?_⟩
    exact absurd (hflat slash hmem) (by decide)
  · obtain ⟨pk, rfl⟩ := List.isPrefixOf_iff_prefix.1 howner
    refine .inr ⟨pk, rfl, fun hmem => ?_⟩
    have hdrop : (str "u/" ++ pk).drop 2 = pk := by rw [str_owner]; rfl
    exact absurd (hhex slash (hdrop ▸ hmem)) (by decide)

theorem parseNs_owner {host tierS pk : Bytes} :
    parseNs (host :: tierS :: str "u" :: pk :: segs) = .ok (str "u/" ++ pk, 4) := by
  simp [parseNs]

theorem parseNs_flat {host tierS ns : Bytes} (h : ns ≠ str "u") :
    parseNs (host :: tierS :: ns :: segs) = .ok (ns, 3) := by
  simp [parseNs, h]

/-- A written scope is read back as it is, unless its namespace is called `u`; and a URL that is read is the one that is
written. -/
theorem scope_named_iff [AuthCrates] {s : Scope} (hhost : s.host ≠ []) (hslash : slash ∉ s.host) (hns : validNs s.ns) :
    (parse s.toUrl = .ok s ↔ s.ns ≠ str "u") ∧ ∀ url s', parse url = .ok s' → s'.toUrl = url := by
  refine ⟨⟨fun hparse hu => ?_, fun hu => ?_⟩, fun url s' => toUrl_of_parse⟩
  · -- what is read starts with `u/`
    have hflat : slash ∉ s.ns := by
      rw [hu]
      decide +kernel
    rw [parse_toUrl hhost hslash (splitOn_append_tailPath hflat s.keyPrefix), hu] at hparse
    cases hsegs : segments s.keyPrefix with
    | nil =>
      rw [hsegs] at hparse
      exact absurd hparse (by simp [parseNs, Except.bind])
    | cons pk segs =>
      rw [hsegs, parseNs_owner, Except.bind] at hparse
      split_ifs at hparse
      have hlong : str "u/" ++ pk = str "u" := (congrArg Scope.ns (Except.ok.inj hparse)).trans hu
      have hlen := congrArg List.length hlong
      have hone : (str "u").length = 1 := by decide +kernel
      rw [str_owner, List.length_append, hone] at hlen
      simp only [List.length_cons, List.length_nil] at hlen
      omega
  · rcases segments_of_validNs hns with ⟨hne, hflat⟩ | ⟨pk, howner, hpk⟩
    · have hempty : ¬s.ns.isEmpty := by simpa using hne
      rw [parse_toUrl hhost hslash (splitOn_append_tailPath hflat s.keyPrefix), parseNs_flat hu, Except.bind, if_neg hempty,
        joinFrom_cons, joinFrom_cons, joinFrom_cons, joinFrom_segments]
    · have hu : str "u/" = str "u" ++ [slash] := by decide +kernel
      have hsegs : (s.ns ++ tailPath s.keyPrefix).splitOn slash = str "u" :: pk :: segments s.keyPrefix := by
        rw [howner, hu, List.append_assoc, List.append_assoc, List.singleton_append,
          splitOn_append_cons (by decide +kernel), splitOn_append_tailPath hpk]
      have hempty : ¬(str "u/" ++ pk).isEmpty := by
        nofun
      rw [parse_toUrl hhost hslash hsegs, parseNs_owner, Except.bind, if_neg hempty, joinFrom_cons, joinFrom_cons,
        joinFrom_cons, joinFrom_cons, joinFrom_segments, ← howner]

/-- The flat namespace `a` on the host `h`, with a prefix that ends with a slash. -/
theorem scope_named_iff_flat : letI := AuthCrates.trivial
    (⟨[104], .l2, [97], some [98, 47]⟩ : Scope).host ≠ [] ∧ slash ∉ (⟨[104], .l2, [97], some [98, 47]⟩ : Scope).host ∧
      validNs [97] ∧ (parse (toUrl ⟨[104], .l2, [97], some [98, 47]⟩) = .ok ⟨[104], .l2, [97], some [98, 47]⟩ ↔
        ([97] : Bytes) ≠ str "u") := by
  let _ := AuthCrates.trivial
  have hhost : (⟨[104], .l2, [97], some [98, 47]⟩ : Scope).host ≠ [] := by decide
  have hslash : slash ∉ (⟨[104], .l2, [97], some [98, 47]⟩ : Scope).host := by decide
  have hns : validNs [97] := by decide +kernel
  exact ⟨hhost, hslash, hns, (scope_named_iff hhost hslash hns).1⟩

/-- The namespace `u` is valid, and its scope with the prefix `x` is read back as that of the namespace `u/x`. -/
theorem reserved_name_moves : letI := AuthCrates.trivial
    validNs (str "u") ∧ toUrl ⟨[104], .l2, str "u", some [120]⟩ = str "bmdb://h/l2/u/x" ∧
      parse (toUrl ⟨[104], .l2, str "u", some [120]⟩) = .ok ⟨[104], .l2, str "u/x", none⟩ := by
  decide +kernel

/-! ### Coverage -/

theorem intercalate_append {l m : List Bytes} (hl : l ≠ []) (hm : m ≠ []) :
    [slash].intercalate (l ++ m) = [slash].intercalate l ++ slash :: [slash].intercalate m := by
  induction l with
  | nil => exact absurd rfl hl
  | cons a l ih =>
    cases l with
    | nil =>
      cases m with
      | nil => exact absurd rfl hm
      | cons b m => simp
    | cons b l =>
      have ih := ih (by simp)
      simp only [List.cons_append] at ih ⊢
      rw [List.intercalate_cons_cons, ih, List.intercalate_cons_cons]
      simp

theorem prefixCovers_iff (a b : Option Bytes) : prefixCovers a b = true ↔ segments a <+: segments b := by
  cases a with
  | none => simp [prefixCovers, segments]
  | some a =>
    cases b with
    | none => simp [prefixCovers, segments, List.splitOn_ne_nil]
    | some b =>
      rw [prefixCovers, segments, segments, Bool.or_eq_true, beq_iff_eq, List.isPrefixOf_iff_prefix]
      constructor
      · rintro (rfl | ⟨r, rfl⟩)
        · exact List.prefix_refl _
        · rw [List.append_assoc, List.singleton_append, List.splitOn_append_cons_self]
          exact List.prefix_append _ _
      · rintro ⟨t, ht⟩
        have hb : [slash].intercalate (a.splitOn slash ++ t) = b := by rw [ht, List.intercalate_splitOn]
        cases t with
        | nil =>
          rw [List.append_nil, List.intercalate_splitOn] at hb
          exact .inl hb.symm
        | cons x t =>
          rw [intercalate_append (List.splitOn_ne_nil _ _) (by simp), List.intercalate_splitOn] at hb
          refine .inr ⟨[slash].intercalate (x :: t), ?_⟩
          rw [← hb, List.append_assoc, List.singleton_append]

theorem covers_eq_true {a b : Scope} : a.covers b = true ↔
    a.host = b.host ∧ a.tier = b.tier ∧ a.ns = b.ns ∧ segments a.keyPrefix <+: segments b.keyPrefix := by
  rw [covers, Bool.and_eq_true, Bool.and_eq_true, Bool.and_eq_true, beq_iff_eq, beq_iff_eq, beq_iff_eq, prefixCovers_iff,
    and_assoc, and_assoc]

/-- Coverage is the order of the segment lists within one namespace: it is reflexive and transitive, and two different
segments in one directory do not cover each other. -/
theorem covers_iff_segments (a b : Scope) :
    (a.covers b = true ↔
      a.host = b.host ∧ a.tier = b.tier ∧ a.ns = b.ns ∧ segments a.keyPrefix <+: segments b.keyPrefix) ∧
    a.covers a = true ∧ (∀ c, a.covers b = true → b.covers c = true → a.covers c = true) ∧
    ∀ dir x y, segments a.keyPrefix = dir ++ [x] → segments b.keyPrefix = dir ++ [y] → x ≠ y → a.covers b = false := by
  refine ⟨covers_eq_true, covers_eq_true.2 ⟨rfl, rfl, rfl, List.prefix_refl _⟩, fun c hab hbc => ?_, ?_⟩
  · obtain ⟨hhost, htier, hns, hpre⟩ := covers_eq_true.1 hab
    obtain ⟨hhost', htier', hns', hpre'⟩ := covers_eq_true.1 hbc
    exact covers_eq_true.2 ⟨hhost.trans hhost', htier.trans htier', hns.trans hns', hpre.trans hpre'⟩
  · intro dir x y ha hb hne
    rw [Bool.eq_false_iff]
    intro hcov
    have hpre := (covers_eq_true.1 hcov).2.2.2
    rw [ha, hb] at hpre
    have heq := hpre.eq_of_length (by simp)
    exact hne (List.singleton_injective (List.append_cancel_left heq))

end Scope

end BunnyMesh
