import BunnyMesh.Basic
import BunnyMesh.Lib.OrdMap
import Mathlib.Data.Finset.Card

/-!
# The rate limiter

`RateLimiter::allow` (`server/ratelimit.rs`) counts the calls of each key in the current window.  A shard over its budget
loses buckets, in the order in which its hash map is scanned.  As long as no shard sees more keys than its budget nothing is
lost and the count is exact; whatever is called, no shard grows beyond twice its budget.
-/

namespace BunnyMesh

open Std

/-- The hash map of a shard: a window and a count under each key. -/
abbrev Shard := ExtTreeMap Bytes (Nat × Nat) compare

def shardCount : Nat := 64

def evictScanBudget : Nat := 512

structure RateLimiter where
  enabled : Bool
  maxRequests : Nat
  windowMs : Nat
  perShardBudget : Nat

/-- A call of `allow`, with the order in which its scans meet the buckets of the hash map. -/
structure AllowCall where
  key : Bytes
  nowMs : Nat
  order : List (Bytes × Nat × Nat) → List (Bytes × Nat × Nat)
  perm : ∀ l, (order l).Perm l

/-- Remove the picked buckets among the first ones that a scan meets. -/
def AllowCall.sweep (c : AllowCall) (pick : Nat → Bool) (b : Shard) : Shard :=
  (((c.order b.toList).take evictScanBudget).filter fun x => pick x.2.1).foldl (fun b x => b.erase x.1) b

namespace RateLimiter

variable (rl : RateLimiter)

def window (c : AllowCall) : Nat := c.nowMs / rl.windowMs

/-- `allow` in the shard of the key, whose lock it holds throughout. -/
def allowIn (c : AllowCall) (b : Shard) : Bool × Shard :=
  match b[c.key]? with
  | some (w, count) =>
    if w = rl.window c then
      if count ≥ rl.maxRequests then (false, b) else (true, b.insert c.key (w, count + 1))
    else (true, b.insert c.key (rl.window c, 1))
  | none =>
    let b := b.insert c.key (rl.window c, 1)
    let b := if b.size > rl.perShardBudget then c.sweep (· < rl.window c) b else b
    let b := if b.size > rl.perShardBudget * 2 then c.sweep (fun _ => true) b else b
    (true, b)

def Active : Prop := rl.enabled ∧ rl.maxRequests ≠ 0 ∧ rl.windowMs ≠ 0

instance : Decidable rl.Active := inferInstanceAs (Decidable (_ ∧ _))

/-- `allow`; `hash` is the `DefaultHasher`. -/
def allow (hash : Bytes → Nat) (c : AllowCall) (buckets : Nat → Shard) : Bool × (Nat → Shard) :=
  if rl.Active then
    let shard := hash c.key % shardCount
    let r := rl.allowIn c (buckets shard)
    (r.1, Function.update buckets shard r.2)
  else (true, buckets)

def bucketsAfter (hash : Bytes → Nat) (cs : List AllowCall) : Nat → Shard :=
  cs.foldl (fun buckets c => (rl.allow hash c buckets).2) fun _ => ∅

def calls (cs : List AllowCall) (k : Bytes) (w : Nat) : Nat := cs.countP fun c => c.key = k ∧ rl.window c = w

end RateLimiter

def callsIn (hash : Bytes → Nat) (i : Nat) (cs : List AllowCall) : List AllowCall :=
  cs.filter fun c => hash c.key % shardCount = i

/-! ### Sizes -/

section
variable {b : Shard} {c : AllowCall}

theorem size_foldl_erase_le (l : List (Bytes × Nat × Nat)) (b : Shard) :
    (l.foldl (fun b x => b.erase x.1) b).size ≤ b.size := by
  induction l generalizing b with
  | nil => exact Nat.le_refl _
  | cons x l ih => exact (ih (b.erase x.1)).trans ExtTreeMap.size_erase_le

theorem AllowCall.size_sweep_le (pick : Nat → Bool) : (c.sweep pick b).size ≤ b.size := size_foldl_erase_le _ b

theorem AllowCall.size_sweep_lt (h : 0 < b.size) : (c.sweep (fun _ => true) b).size < b.size := by
  have hlen : 0 < ((c.order b.toList).take evictScanBudget).length := by
    rw [List.length_take, (c.perm _).length_eq, ExtTreeMap.length_toList]
    exact Nat.lt_min.2 ⟨by decide, h⟩
  unfold sweep
  rw [List.filter_true]
  cases hscan : (c.order b.toList).take evictScanBudget with
  | nil =>
    rw [hscan] at hlen
    cases hlen
  | cons x l =>
    have hx : x ∈ b.toList := (c.perm _).mem_iff.1 (List.mem_of_mem_take (hscan ▸ List.mem_cons_self))
    have hmem : x.1 ∈ b := by
      rw [ExtTreeMap.mem_iff_isSome_getElem?, ExtTreeMap.mem_toList_iff_getElem?_eq_some.1 hx]
      rfl
    have hle := size_foldl_erase_le l (b.erase x.1)
    rw [ExtTreeMap.size_erase, if_pos (ExtTreeMap.mem_iff_contains.1 hmem)] at hle
    rw [List.foldl_cons]
    omega

theorem Shard.size_le_card {s : Finset Bytes} (h : ∀ k ∈ b, k ∈ s) : b.size ≤ s.card := by
  rw [← ExtTreeMap.length_keys, ← List.toFinset_card_of_nodup ExtTreeMap.nodup_keys]
  exact Finset.card_le_card fun k hk => h k (ExtTreeMap.mem_keys.1 (List.mem_toFinset.1 hk))

end

namespace RateLimiter

variable {rl : RateLimiter} {hash : Bytes → Nat} {c : AllowCall} {p : List AllowCall} {b : Shard}

theorem size_allowIn_le (h : b.size ≤ 2 * rl.perShardBudget) : (rl.allowIn c b).2.size ≤ 2 * rl.perShardBudget := by
  have hinsert : ∀ v, (b.insert c.key v).size = if c.key ∈ b then b.size else b.size + 1 := fun v => ExtTreeMap.size_insert
  unfold allowIn
  split
  case h_1 w count hbucket =>
    have hmem : c.key ∈ b := by
      rw [ExtTreeMap.mem_iff_isSome_getElem?, hbucket]
      rfl
    split_ifs
    · exact h
    · rwa [hinsert, if_pos hmem]
    · rwa [hinsert, if_pos hmem]
  case h_2 =>
    dsimp only
    have hone : (b.insert c.key (rl.window c, 1)).size ≤ b.size + 1 := ExtTreeMap.size_insert_le
    generalize b.insert c.key (rl.window c, 1) = b1 at hone
    have htwo : (if b1.size > rl.perShardBudget then c.sweep (· < rl.window c) b1 else b1).size ≤ b1.size := by
      split_ifs
      · exact AllowCall.size_sweep_le _
      · exact Nat.le_refl _
    generalize (if b1.size > rl.perShardBudget then c.sweep (· < rl.window c) b1 else b1) = b2 at htwo
    split_ifs with hover
    · have hless := AllowCall.size_sweep_lt (c := c) (b := b2) (by omega)
      omega
    · omega

theorem size_bucketsAfter_le {i : Nat} : (rl.bucketsAfter hash p i).size ≤ 2 * rl.perShardBudget := by
  induction p using List.reverseRecOn with
  | nil => exact Nat.zero_le _
  | append_singleton p c ih =>
    rw [bucketsAfter, List.foldl_concat, ← bucketsAfter, allow]
    split_ifs
    · dsimp only
      by_cases hi : i = hash c.key % shardCount
      · subst hi
        rw [Function.update_self]
        exact size_allowIn_le ih
      · rwa [Function.update_of_ne hi]
    · exact ih

/-! ### Counts -/

/-- The bucket of a key tells of its calls: the window of the last one, and how many of that window were allowed. -/
def Tracks (rl : RateLimiter) (p : List AllowCall) (k : Bytes) : Option (Nat × Nat) → Prop
  | none => ∀ c ∈ p, c.key ≠ k
  | some (w, n) => (∃ c ∈ p, c.key = k ∧ rl.window c = w) ∧ (∀ c ∈ p, c.key = k → rl.window c ≤ w) ∧
      n = min rl.maxRequests (rl.calls p k w)

theorem calls_snoc (k : Bytes) (w : Nat) :
    rl.calls (p ++ [c]) k w = rl.calls p k w + if c.key = k ∧ rl.window c = w then 1 else 0 := by
  simp [calls, List.countP_append, List.countP_singleton]

theorem Tracks.other {k : Bytes} {o : Option (Nat × Nat)} (h : rl.Tracks p k o) (hk : c.key ≠ k) :
    rl.Tracks (p ++ [c]) k o := by
  have hmem : ∀ c' ∈ p ++ [c], c'.key = k → c' ∈ p := by
    intro c' hc' hkey
    rcases List.mem_append.1 hc' with hc' | hc'
    · exact hc'
    · exact absurd (List.mem_singleton.1 hc' ▸ hkey) hk
  cases o with
  | none => exact fun c' hc' hkey => h c' (hmem c' hc' hkey) hkey
  | some x =>
    obtain ⟨⟨c', hc', hkey⟩, hlast, hn⟩ := h
    refine ⟨⟨c', List.mem_append_left _ hc', hkey⟩, fun d hd hdk => hlast d (hmem d hd hdk) hdk, ?_⟩
    rw [calls_snoc, if_neg fun hc => hk hc.1]
    exact hn

theorem Tracks.same {w n : Nat} (hlater : ∀ c' ∈ p, rl.window c' ≤ rl.window c) (hw : rl.window c = w)
    (hn : n = min rl.maxRequests (rl.calls p c.key w + 1)) : rl.Tracks (p ++ [c]) c.key (some (w, n)) := by
  subst hw
  refine ⟨⟨c, by simp, rfl, rfl⟩, fun c' hc' _ => ?_, ?_⟩
  · rcases List.mem_append.1 hc' with hc' | hc'
    · exact hlater c' hc'
    · rw [List.mem_singleton.1 hc']
  · rw [calls_snoc, if_pos ⟨rfl, rfl⟩]
    exact hn

theorem calls_eq_zero {k : Bytes} {w : Nat} (h : ∀ c ∈ p, c.key = k → rl.window c ≠ w) : rl.calls p k w = 0 := by
  refine List.countP_eq_zero.2 fun c hc => ?_
  have hne := h c hc
  simpa using hne

theorem allowIn_tracks (hmax : rl.maxRequests ≠ 0) (h : ∀ k, rl.Tracks p k b[k]?)
    (hlater : ∀ c' ∈ p, rl.window c' ≤ rl.window c) (hsmall : ∀ v, (b.insert c.key v).size ≤ rl.perShardBudget) :
    ((rl.allowIn c b).1 = true ↔ rl.calls p c.key (rl.window c) < rl.maxRequests) ∧
      ∀ k, rl.Tracks (p ++ [c]) k (rl.allowIn c b).2[k]? := by
  have hset : ∀ v, rl.Tracks (p ++ [c]) c.key (some v) → ∀ k, rl.Tracks (p ++ [c]) k (b.insert c.key v)[k]? := by
    intro v hv k
    rw [OrdMap.getElem?_insert]
    split_ifs with hk
    · exact hk ▸ hv
    · exact (h k).other hk
  have hfirst : rl.calls p c.key (rl.window c) = 0 → 1 = min rl.maxRequests (rl.calls p c.key (rl.window c) + 1) := by omega
  have hkey := h c.key
  unfold allowIn
  split
  case h_1 w n hbucket =>
    rw [hbucket] at hkey
    obtain ⟨⟨c', hc', hkey', hw'⟩, hlast, hn⟩ := hkey
    split_ifs with hw hfull
    · -- the window is full, and the bucket stays
      subst hw
      refine ⟨by simp; omega, fun k => ?_⟩
      by_cases hk : c.key = k
      · subst hk
        rw [hbucket]
        exact .same hlater rfl (by omega)
      · exact (h k).other hk
    · subst hw
      exact ⟨by simp; omega, hset _ (.same hlater rfl (by omega))⟩
    · -- the first call in a window
      have hle := hlater c' hc'
      have hzero : rl.calls p c.key (rl.window c) = 0 := calls_eq_zero fun d hd hdk => by
        have hd := hlast d hd hdk
        omega
      exact ⟨by simp; omega, hset _ (.same hlater rfl (hfirst hzero))⟩
  case h_2 hbucket =>
    rw [hbucket] at hkey
    have hzero : rl.calls p c.key (rl.window c) = 0 := calls_eq_zero fun d hd hdk => absurd hdk (hkey d hd)
    have hsize := hsmall (rl.window c, 1)
    dsimp only
    rw [if_neg (Nat.not_lt.2 hsize), if_neg (by omega)]
    exact ⟨by simp; omega, hset _ (.same hlater rfl (hfirst hzero))⟩

/-! ### Runs -/

def shardAfter (rl : RateLimiter) (p : List AllowCall) : Shard := p.foldl (fun b c => (rl.allowIn c b).2) ∅

theorem bucketsAfter_apply (hactive : rl.Active) (i : Nat) :
    rl.bucketsAfter hash p i = rl.shardAfter (callsIn hash i p) := by
  induction p using List.reverseRecOn with
  | nil => rfl
  | append_singleton p c ih =>
    rw [bucketsAfter, List.foldl_concat, ← bucketsAfter, allow, if_pos hactive]
    dsimp only
    have hsnoc : callsIn hash i (p ++ [c]) = callsIn hash i p ++ if hash c.key % shardCount = i then [c] else [] := by
      simp [callsIn, List.filter_append, List.filter_singleton]
    by_cases hi : hash c.key % shardCount = i
    · rw [hi, Function.update_self, hsnoc, if_pos hi, ih, shardAfter, shardAfter, List.foldl_concat]
    · rw [Function.update_of_ne (Ne.symm hi), hsnoc, if_neg hi, List.append_nil, ih]

/-- One more call, while there are few keys and the clock goes on. -/
theorem allowIn_shardAfter (hmax : rl.maxRequests ≠ 0) (h : ∀ k, rl.Tracks p k (rl.shardAfter p)[k]?)
    (hclock : (p ++ [c]).Pairwise fun c c' => rl.window c ≤ rl.window c')
    (hfew : ((p ++ [c]).map (·.key)).toFinset.card ≤ rl.perShardBudget) :
    ((rl.allowIn c (rl.shardAfter p)).1 = true ↔ rl.calls p c.key (rl.window c) < rl.maxRequests) ∧
      ∀ k, rl.Tracks (p ++ [c]) k (rl.shardAfter (p ++ [c]))[k]? := by
  have hsmall : ∀ v, ((rl.shardAfter p).insert c.key v).size ≤ rl.perShardBudget := by
    refine fun v => (Shard.size_le_card fun k hk => ?_).trans hfew
    rw [List.mem_toFinset, List.mem_map]
    rw [ExtTreeMap.mem_iff_isSome_getElem?, OrdMap.getElem?_insert] at hk
    split_ifs at hk with hck
    · exact ⟨c, by simp, hck⟩
    · have hk' := h k
      obtain ⟨x, hx⟩ := Option.isSome_iff_exists.1 hk
      rw [hx] at hk'
      obtain ⟨⟨c', hc', hkey, _⟩, _⟩ := hk'
      exact ⟨c', List.mem_append_left _ hc', hkey⟩
  have hlater : ∀ c' ∈ p, rl.window c' ≤ rl.window c :=
    fun c' hc' => (List.pairwise_append.1 hclock).2.2 c' hc' c List.mem_cons_self
  rw [show rl.shardAfter (p ++ [c]) = (rl.allowIn c (rl.shardAfter p)).2 from List.foldl_concat ..]
  exact allowIn_tracks hmax h hlater hsmall

theorem card_keys_le {q : List AllowCall} (h : p.Sublist q) :
    (p.map (·.key)).toFinset.card ≤ (q.map (·.key)).toFinset.card := by
  refine Finset.card_le_card fun k hk => ?_
  rw [List.mem_toFinset] at hk ⊢
  exact (h.map _).subset hk

theorem tracks_shardAfter (hmax : rl.maxRequests ≠ 0) (hclock : p.Pairwise fun c c' => rl.window c ≤ rl.window c')
    (hfew : (p.map (·.key)).toFinset.card ≤ rl.perShardBudget) : ∀ k, rl.Tracks p k (rl.shardAfter p)[k]? := by
  induction p using List.reverseRecOn with
  | nil =>
    intro k
    exact nofun
  | append_singleton p c ih =>
    have hp := ih (List.pairwise_append.1 hclock).1 ((card_keys_le (List.sublist_append_left p [c])).trans hfew)
    exact (allowIn_shardAfter hmax hp hclock hfew).2

end RateLimiter

open RateLimiter in
/-- Where the clock goes on and no shard sees more keys than its budget, a call is allowed exactly if fewer than
`maxRequests` calls of its key came before it in its window.  No calls at all make a shard grow beyond twice its budget. -/
theorem rate_limit_exact_and_bounded (rl : RateLimiter) (hash : Bytes → Nat) :
    (∀ cs c cs', rl.Active → (cs ++ c :: cs').Pairwise (·.nowMs ≤ ·.nowMs) →
      (∀ i, ((callsIn hash i (cs ++ c :: cs')).map (·.key)).toFinset.card ≤ rl.perShardBudget) →
        ((rl.allow hash c (rl.bucketsAfter hash cs)).1 = true ↔ rl.calls cs c.key (rl.window c) < rl.maxRequests)) ∧
    ∀ cs i, (rl.bucketsAfter hash cs i).size ≤ 2 * rl.perShardBudget := by
  constructor
  · intro cs c cs' hactive hclock hfew
    -- what the shard of the key has seen, up to this call
    have hpart : (callsIn hash (hash c.key % shardCount) cs ++ [c]).Sublist
        (callsIn hash (hash c.key % shardCount) (cs ++ c :: cs')) := by
      simp [callsIn, List.filter_append]
    have hwindows := (hclock.sublist (hpart.trans List.filter_sublist)).imp fun {c c'} (h : c.nowMs ≤ c'.nowMs) =>
      (Nat.div_le_div_right h : rl.window c ≤ rl.window c')
    have hkeys := (card_keys_le hpart).trans (hfew _)
    have hcalls : rl.calls (callsIn hash (hash c.key % shardCount) cs) c.key (rl.window c) =
        rl.calls cs c.key (rl.window c) := by
      rw [calls, callsIn, List.countP_filter]
      refine List.countP_congr fun c' _ => ?_
      simp only [Bool.and_eq_true, decide_eq_true_eq]
      exact ⟨fun h => h.1, fun h => ⟨h, by rw [h.1]⟩⟩
    have htracks := tracks_shardAfter hactive.2.1 (List.pairwise_append.1 hwindows).1
      ((card_keys_le (List.sublist_append_left _ [c])).trans hkeys)
    rw [allow, if_pos hactive, ← hcalls]
    dsimp only
    rw [bucketsAfter_apply hactive]
    exact (allowIn_shardAfter hactive.2.1 htracks hwindows hkeys).1
  · exact fun cs i => size_bucketsAfter_le

end BunnyMesh
