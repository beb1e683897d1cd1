import BunnyMesh.Auth.Caps
import BunnyMesh.Lib.Text

/-!
# The ledger of revocations

The daemon keeps its revocations as text in the metadata, one line `scope<TAB>principal` each, and reads it back when it
starts.  A scope that `Scope.parse` accepts is written as it was read (`Scope.toUrl_of_parse`), so a line whose scope has
neither a tab nor a newline brings back its revocation (`mem_readLedger`).
-/

namespace BunnyMesh

open ByteCodec

namespace Scope

theorem asStr_of_parse {s : Bytes} {t : Tier} (h : Tier.parse s = some t) : t.asStr = s := by
  unfold Tier.parse at h
  split_ifs at h <;> cases h <;> exact Eq.symm ‹_›

theorem intercalate_cons (a : Bytes) (segs : List Bytes) :
    [slash].intercalate (a :: segs) = a ++ tailPath (joinFrom segs 0) := by
  cases segs with
  | nil => simp [joinFrom, tailPath]
  | cons b segs => simp [joinFrom, tailPath]

theorem joinFrom_cons (a : Bytes) (segs : List Bytes) (n : Nat) : joinFrom (a :: segs) (n + 1) = joinFrom segs n := by
  simp [joinFrom]

theorem segs_of_parseNs {host tierS ns : Bytes} {segs : List Bytes} {n : Nat}
    (h : parseNs (host :: tierS :: segs) = .ok (ns, n)) :
    joinFrom segs 0 = some (ns ++ tailPath (joinFrom (host :: tierS :: segs) n)) := by
  have hjoin : ∀ a l, joinFrom (a :: l) 0 = some ([slash].intercalate (a :: l)) := fun a l => if_pos (by simp)
  unfold parseNs at h
  split_ifs at h with hu
  · -- an owner's namespace takes two segments
    rcases segs with _ | ⟨u, _ | ⟨pk, segs⟩⟩
    · cases hu
    · cases h
    · obtain rfl : u = str "u" := by simpa using hu
      cases h
      have howner : str "u/" = str "u" ++ [slash] := by decide +kernel
      rw [hjoin, intercalate_cons, hjoin, intercalate_cons, howner, joinFrom_cons, joinFrom_cons, joinFrom_cons,
        joinFrom_cons, tailPath]
      simp
  · rcases segs with _ | ⟨ns', segs⟩
    · cases h
    · cases h
      rw [hjoin, intercalate_cons, joinFrom_cons, joinFrom_cons, joinFrom_cons]

variable [AuthCrates]

theorem toUrl_of_parse {url : Bytes} {s : Scope} (h : parse url = .ok s) : s.toUrl = url := by
  unfold parse at h
  split_ifs at h with hscheme
  obtain ⟨rest, rfl⟩ := List.isPrefixOf_iff_prefix.1 hscheme
  rw [List.drop_left] at h
  have hrest : [slash].intercalate (rest.splitOn slash) = rest := List.intercalate_splitOn slash
  generalize rest.splitOn slash = segs at h hrest
  rcases segs with _ | ⟨host, _ | ⟨tierS, segs⟩⟩
  · cases h
  · cases h
  · simp only [List.getElem?_cons_zero, List.getElem?_cons_succ] at h
    split_ifs at h with hhost
    cases ht : Tier.parse tierS with
    | none => rw [ht] at h; cases h
    | some tier =>
      rw [ht] at h
      cases hns : parseNs (host :: tierS :: segs) with
      | error e => rw [hns] at h; cases h
      | ok x =>
        obtain ⟨ns, n⟩ := x
        rw [hns] at h
        change (if ns.isEmpty then _ else _) = _ at h
        split_ifs at h
        cases h
        rw [toUrl, asStr_of_parse ht, ← hrest, intercalate_cons]
        have htail : joinFrom (tierS :: segs) 0 = some (tierS ++ tailPath (joinFrom segs 0)) := by
          rw [← intercalate_cons]
          exact if_pos (by simp)
        rw [htail, segs_of_parseNs hns]
        rfl

end Scope

/-! ### Public keys as text -/

theorem PublicKey.parse_display (k : PublicKey) : PublicKey.parse (PublicKey.display k) = some k := by
  rw [PublicKey.parse, PublicKey.display, hexDecode_hexEncode, Option.bind_some, dif_pos k.len]

theorem PublicKey.getLast?_display (k : PublicKey) :
    ∃ d n, (PublicKey.display k).getLast? = some d ∧ n < 16 ∧ d = hexDigit n := by
  have hne : PublicKey.display k ≠ [] := by
    intro h
    have hlen := length_hexEncode k.val
    rw [PublicKey.display] at h
    rw [h, k.len] at hlen
    exact absurd hlen (by decide)
  obtain ⟨n, hn, hd⟩ := mem_hexEncode (List.getLast_mem hne)
  exact ⟨_, n, List.getLast?_eq_some_getLast hne, hn, hd⟩

/-! ### Writing and reading -/

def tab : UInt8 := 9

def revocationLine (scope : Scope) (principal : PublicKey) : Bytes := scope.toUrl ++ tab :: PublicKey.display principal

def extendLedger (ledger : Option Bytes) (line : Bytes) : Bytes :=
  (ledger.map fromUtf8Lossy).getD [] ++ (line ++ [newline])

section
variable [AuthCrates]

def readLine (revocations : RevocationSet) (line : Bytes) : RevocationSet :=
  let line := trim line
  if line.isEmpty then revocations
  else
    match splitOnce tab line with
    | none => revocations
    | some (scopeS, toS) =>
      match Scope.parse scopeS, PublicKey.parse toS with
      | .ok scope, some principal => revocations.revokePrincipal scope (PublicKey.display principal)
      | _, _ => revocations

/-- The revocations of a ledger, as the daemon rebuilds them. -/
def readLedger : Option Bytes → RevocationSet
  | none => .new
  | some v => (lines (fromUtf8Lossy v)).foldl readLine .new

theorem readLine_mono (r : RevocationSet) (line : Bytes) : r.byPrincipal ⊆ (readLine r line).byPrincipal := by
  unfold readLine
  dsimp only
  split
  · exact fun _ h => h
  · split
    · exact fun _ h => h
    · split
      · exact Finset.subset_insert ..
      · exact fun _ h => h

theorem foldl_readLine_mono (r : RevocationSet) (ls : List Bytes) : r.byPrincipal ⊆ (ls.foldl readLine r).byPrincipal := by
  induction ls generalizing r with
  | nil => exact fun _ h => h
  | cons l ls ih => exact (readLine_mono r l).trans (ih _)

section
omit [AuthCrates]

theorem ends_revocationLine (scope : Scope) (principal : PublicKey) :
    (revocationLine scope principal).head? = some 98 ∧
    ∃ n < 16, (revocationLine scope principal).getLast? = some (hexDigit n) := by
  constructor
  · have hscheme : Scope.scheme = 98 :: Scope.scheme.tail := by decide +kernel
    rfl
  · obtain ⟨d, n, hlast, hn, rfl⟩ := PublicKey.getLast?_display principal
    refine ⟨n, hn, ?_⟩
    rw [revocationLine, List.getLast?_append, List.getLast?_cons, hlast]
    rfl

theorem trim_revocationLine (scope : Scope) (principal : PublicKey) :
    trim (revocationLine scope principal) = revocationLine scope principal := by
  obtain ⟨hhead, n, hn, hlast⟩ := ends_revocationLine scope principal
  have hdigit : ∀ n < 16, ∀ w ∈ spaces, w.getLast? ≠ some (hexDigit n) := by decide
  refine trim_eq_self ?_ ?_
  · rw [hhead]
    decide
  · rw [hlast]
    exact hdigit n hn

theorem stripCr_revocationLine (scope : Scope) (principal : PublicKey) :
    stripCr (revocationLine scope principal) = revocationLine scope principal := by
  obtain ⟨_, n, hn, hlast⟩ := ends_revocationLine scope principal
  have hdigit : ∀ n < 16, hexDigit n ≠ 13 := by decide
  refine if_neg fun h => hdigit n hn ?_
  rw [hlast] at h
  exact Option.some.inj h

end

variable {scope : Scope}

theorem readLine_revocationLine {principal : PublicKey} (hparse : Scope.parse scope.toUrl = .ok scope)
    (htab : tab ∉ scope.toUrl) (r : RevocationSet) :
    readLine r (revocationLine scope principal) = r.revokePrincipal scope (PublicKey.display principal) := by
  have hne : (revocationLine scope principal).isEmpty = false := by
    obtain ⟨hhead, _⟩ := ends_revocationLine scope principal
    cases h : revocationLine scope principal with
    | nil => rw [h] at hhead; cases hhead
    | cons b l => rfl
  have hsplit : splitOnce tab (revocationLine scope principal) = some (scope.toUrl, PublicKey.display principal) :=
    splitOnce_append _ htab
  unfold readLine
  simp [trim_revocationLine, hne, hsplit, hparse, PublicKey.parse_display]

omit [AuthCrates] in
theorem newline_notMem_revocationLine (h : newline ∉ scope.toUrl) (principal : PublicKey) :
    newline ∉ revocationLine scope principal := by
  intro hmem
  rcases List.mem_append.1 hmem with hmem | hmem
  · exact h hmem
  · rcases List.mem_cons.1 hmem with hmem | hmem
    · exact absurd hmem (by decide)
    · obtain ⟨n, hn, hd⟩ := mem_hexEncode hmem
      have hdigit : ∀ n < 16, newline ≠ hexDigit n := by decide
      exact hdigit n hn hd

omit [AuthCrates] in
theorem isUtf8_revocationLine (h : isUtf8 scope.toUrl) (principal : PublicKey) :
    isUtf8 (revocationLine scope principal) := by
  refine isUtf8_append h (isUtf8_of_ascii ?_)
  intro b hb
  rcases List.mem_cons.1 hb with rfl | hb
  · decide
  · obtain ⟨n, hn, rfl⟩ := mem_hexEncode hb
    exact hexDigit_lt hn

/-! ### A ledger of lines -/

/-- A text of terminated lines. -/
structure LedgerText (v : Option Bytes) : Prop where
  utf8 : isUtf8 (v.getD [])
  terminated : Terminated (v.getD [])

/-- `line` was written at the start of a line. -/
def HasLine (v : Option Bytes) (line : Bytes) : Prop :=
  ∃ pre post, v.getD [] = pre ++ (line ++ newline :: post) ∧ Terminated pre

variable {v : Option Bytes}

section
omit [AuthCrates]

theorem LedgerText.extendLedger_eq (h : LedgerText v) (line : Bytes) :
    extendLedger v line = v.getD [] ++ (line ++ [newline]) := by
  rw [extendLedger]
  cases v with
  | none => rfl
  | some v =>
    have hv : fromUtf8Lossy v = v := fromUtf8Lossy_of_isUtf8 h.utf8
    rw [Option.map_some, Option.getD_some, hv, Option.getD_some]

theorem LedgerText.extend (h : LedgerText v) {line : Bytes} (hline : isUtf8 line) :
    LedgerText (some (extendLedger v line)) := by
  rw [h.extendLedger_eq]
  refine ⟨isUtf8_append h.utf8 (isUtf8_append hline ?_), .inr ⟨v.getD [] ++ line, ?_⟩⟩
  · refine isUtf8_of_ascii fun b hb => ?_
    rw [List.mem_singleton.1 hb]
    decide
  · rw [Option.getD_some, List.append_assoc]

theorem LedgerText.hasLine_extend (h : LedgerText v) (line : Bytes) :
    HasLine (some (extendLedger v line)) line :=
  ⟨v.getD [], [], by rw [h.extendLedger_eq, Option.getD_some], h.terminated⟩

theorem HasLine.extend {line : Bytes} (h : HasLine v line) (ht : LedgerText v) (line' : Bytes) :
    HasLine (some (extendLedger v line')) line := by
  obtain ⟨pre, post, hv, hpre⟩ := h
  refine ⟨pre, post ++ (line' ++ [newline]), ?_, hpre⟩
  rw [ht.extendLedger_eq, Option.getD_some, hv]
  simp

end

theorem mem_readLedger {principal : PublicKey} (ht : LedgerText v)
    (hv : HasLine v (revocationLine scope principal)) (hparse : Scope.parse scope.toUrl = .ok scope)
    (htab : tab ∉ scope.toUrl) (hnl : newline ∉ scope.toUrl) :
    (scope.toUrl, PublicKey.display principal) ∈ (readLedger v).byPrincipal := by
  obtain ⟨pre, post, hv, hpre⟩ := hv
  cases v with
  | none => simp at hv
  | some text =>
    have hutf8 : fromUtf8Lossy text = text := fromUtf8Lossy_of_isUtf8 ht.utf8
    have hmem : stripCr (revocationLine scope principal) ∈
        lines (pre ++ (revocationLine scope principal ++ newline :: post)) :=
      mem_lines hpre (newline_notMem_revocationLine hnl principal)
    rw [stripCr_revocationLine, ← hv, Option.getD_some] at hmem
    obtain ⟨before, after, hlines⟩ := List.append_of_mem hmem
    rw [readLedger, hutf8, hlines, List.foldl_append, List.foldl_cons,
      readLine_revocationLine hparse htab]
    exact foldl_readLine_mono _ _ (Finset.mem_insert_self ..)

end

end BunnyMesh
