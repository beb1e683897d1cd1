import BunnyMesh.Server.Causal

/-!
# Identities of records

Sync tells records apart by tag, time stamp and replica, so a node should never log two records with the same three.  The
records of one handler carry stamps of their own, but a listing of a directory is removed or moved with a single stamp for
all its keys, and after a restart the clock may give out stamps that are in the log.  Where neither happens, the
identities in every log are distinct.
-/

namespace BunnyMesh

open Std Store
open Interface (Prog)
open Runs (Run guarded)

section
variable [AuthCrates]

/-- When an access for a handler that writes to `ns` keeps identities apart: a stamp is drawn where the clock has passed
the log, and a directory that is removed or moved has one key at most. -/
def Access.Distinct (n : Node) (ms : UInt64) (ns : Bytes) : {β : Type} → Access β → Prop
  | _, .draw true => n.last ≠ Hlc.top ∧ ∀ r ∈ n.world.records ns, r.hlc < Hlc.base ms ∨ r.hlc ≤ n.last
  | _, .draw false => n.last ≠ Hlc.top
  | _, .scanKeys ns pre => Single (n.world.store.scanKeys ns pre)
  | _, .store o => o.Fits
  | _, _ => True

def Node.Distinct (n : Node) : NodeEvent → Prop
  | .access i ms => ∀ t ∈ n.threads[i]?, t.rest.Next (Access.Distinct n ms t.ns)
  | .start _ | .restart _ _ => True
  | .sync _ _ => False

instance (n : Node) (ms : UInt64) (ns : Bytes) (β : Type) (o : Access β) : Decidable (o.Distinct n ms ns) := by
  delta Access.Distinct Single
  split <;> infer_instance

instance (n : Node) (e : NodeEvent) : Decidable (n.Distinct e) := by
  cases e <;> delta Node.Distinct <;> infer_instance

/-! ### The stamps a handler has used -/

/-- The tags and stamps of the records since the lock was let go, after an access. -/
def Access.spent : {β : Type} → Access β → List (UInt8 × UInt64) → List (UInt8 × UInt64)
  | _, .unlock, _ => []
  | _, .store o, used => (o.written.map fun x => (x.2.tag, x.2.hlc)).toList ++ used
  | _, _, used => used

/-- A handler that follows the discipline and has used what the log shows of its stamps. -/
structure Spends (w : World) (t : Thread) (used : List (UInt8 × UInt64)) : Prop where
  keeps : t.rest.Keeps (fresh t.ns) (fun _ _ => True) (t.drawn, used)
  drawn : ∀ x ∈ used, x.2 ∈ t.drawn
  logged : ∀ r ∈ w.records t.ns, r.hlc ∈ t.drawn → (r.tag, r.hlc) ∈ used

variable {β : Type} {o : Access β} {k : β → Handler Answer} {b : β} {n n₁ n' : Node} {i : Nat} {ms : UInt64} {ns : Bytes}
  {drawn : List UInt64} {used : List (UInt8 × UInt64)} {g : History} {w w' : World} {t : Thread}

/-- What an access adds to the stamps of a handler has just been drawn: it is above the watermark and the log. -/
theorem Access.mem_account (hp : o.perform i ms n = some (some b, n₁)) (hd : o.Distinct n ms ns) {h : UInt64}
    (hh : h ∈ o.account b drawn) :
    h ∈ drawn ∨ (n.last < h ∧ h = n₁.last ∧ o.writes = none ∧ ∀ r ∈ n.world.records ns, r.hlc < h) := by
  cases o with
  | draw stamp =>
    cases stamp with
    | false => exact .inl hh
    | true =>
      refine (List.mem_append.1 hh).imp_right fun hh => ?_
      obtain ⟨hb, hlast⟩ := Access.perform_draw hp
      obtain ⟨htop, hlog⟩ := hd
      rw [List.mem_singleton.1 hh]
      refine ⟨?_, hlast.symm, rfl, fun r hr => ?_⟩
      · rw [hb]
        exact Hlc.last_lt_now ms htop
      · rw [hb]
        exact Hlc.lt_now ms htop (hlog r hr)
  | unlock => cases hh
  | readLock | writeLock | read | scanKeys | store | clock => exact .inl hh

theorem Access.le_last (hp : o.perform i ms n = some (some b, n₁)) (hd : o.Distinct n ms ns) : n.last ≤ n₁.last := by
  cases o with
  | draw stamp =>
    have htop : n.last ≠ Hlc.top := by
      cases stamp with
      | false => exact hd
      | true => exact hd.1
    obtain ⟨hb, hlast⟩ := Access.perform_draw hp
    rw [hlast, hb]
    exact UInt64.le_of_lt (Hlc.last_lt_now ms htop)
  | unlock | clock =>
    cases hp
    exact UInt64.le_refl _
  | readLock | writeLock | read | scanKeys =>
    simp only [Access.perform] at hp
    split at hp
    case isTrue =>
      cases hp
      exact UInt64.le_refl _
    case isFalse => cases hp
  | store o =>
    simp only [Access.perform] at hp
    split at hp
    case isTrue =>
      split at hp
      case h_1 | h_2 =>
        cases hp
        exact UInt64.le_refl _
      case h_3 => cases hp
    case isFalse => cases hp

variable {Q : β → List UInt64 × List (UInt8 × UInt64) → Prop}

theorem fresh_next (hwp : (fresh ns).wp o (drawn, used) Q)
    (hp : o.perform i ms n = some (some b, n₁)) (hd : o.Distinct n ms ns) (hused : ∀ x ∈ used, x.2 ≤ n.last) :
    Q b (o.account b drawn, o.spent used) := by
  cases o with
  | draw stamp =>
    cases stamp with
    | false => exact hwp b
    | true =>
      refine hwp b fun tag hmem => ?_
      have hle : b ≤ n.last := hused (tag, b) hmem
      rw [(Access.perform_draw hp).1] at hle
      exact UInt64.not_lt.2 hle (Hlc.last_lt_now ms hd.1)
  | unlock => exact hwp
  | scanKeys ns' pre =>
    simp only [Access.perform] at hp
    split at hp
    case isTrue =>
      cases hp
      exact hwp _ hd
    case isFalse => cases hp
  | store o => exact hwp.2.2 b
  | readLock | writeLock | read | clock => exact hwp b

section
omit [AuthCrates]

theorem fresh_proper (hwp : (fresh ns).wp o (drawn, used) Q)
    (hd : o.Distinct n ms ns) : o.Proper := by
  cases o with
  | store o => exact ⟨hwp.1, hd⟩
  | readLock | writeLock | unlock | read | scanKeys | draw | clock => trivial

theorem fresh_writes (hwp : (fresh ns).wp o (drawn, used) Q) :
    ∀ x ∈ o.writes, x.1 = ns ∧ x.2.hlc ∈ drawn ∧ (x.2.tag, x.2.hlc) ∉ used := by
  cases o with
  | store o => exact hwp.2.1
  | readLock | writeLock | unlock | read | scanKeys | draw | clock => exact nofun

theorem Access.spent_drawn (hused : ∀ x ∈ used, x.2 ∈ drawn) (hw : ∀ x ∈ o.writes, x.2.hlc ∈ drawn) :
    ∀ x ∈ o.spent used, x.2 ∈ o.account b drawn := by
  cases o with
  | unlock => exact nofun
  | draw stamp =>
    cases stamp with
    | true => exact fun x hx => List.mem_append_left _ (hused x hx)
    | false => exact hused
  | store o =>
    intro x hx
    rcases List.mem_append.1 hx with hx | hx
    · obtain ⟨y, hy, rfl⟩ := Option.map_eq_some_iff.1 (Option.mem_toList.1 hx)
      exact hw y hy
    · exact hused x hx
  | readLock | writeLock | read | scanKeys | clock => exact hused

theorem Access.spent_of_used {h : UInt64} {x : UInt8 × UInt64} (hh : h ∈ o.account b drawn) (hx : x ∈ used) :
    x ∈ o.spent used := by
  cases o with
  | unlock => cases hh
  | store o => exact List.mem_append_right _ hx
  | readLock | writeLock | read | scanKeys | draw | clock => exact hx

theorem Access.spent_of_writes {x : Bytes × Record} (hx : x ∈ o.writes) : (x.2.tag, x.2.hlc) ∈ o.spent used := by
  cases o with
  | store o => exact List.mem_append_left _ (Option.mem_toList.2 (Option.mem_map_of_mem _ hx))
  | readLock | writeLock | unlock | read | scanKeys | draw | clock => cases hx

end

/-! ### Runs -/

/-- The identities in every log are distinct, and so are the stamps that the handlers hold. -/
structure Node.Apart (n : Node) : Prop where
  sound : ∃ g, Sound (n.world, g)
  unique : ∀ ns, ((n.world.records ns).map versionKey).Nodup
  threads : ∀ (i : Nat) t, n.threads[i]? = some t → ∃ used, Spends n.world t used
  below : ∀ (i : Nat) t, n.threads[i]? = some t → ∀ h ∈ t.drawn, h ≤ n.last
  apart : ∀ (i j : Nat) t t', i ≠ j → n.threads[i]? = some t → n.threads[j]? = some t' → ∀ h ∈ t.drawn, h ∉ t'.drawn

theorem Node.Apart.boot (h : Sound (w, g)) (hunique : ∀ ns, ((w.records ns).map versionKey).Nodup) : (Node.boot w).Apart :=
  ⟨⟨g, h⟩, hunique, nofun, nofun, nofun⟩

theorem Spends.access (h : Spends n.world ⟨ns, drawn, .call o k⟩ used) (hd : o.Distinct n ms ns)
    (hp : o.perform i ms n = some (some b, n₁)) (hbelow : ∀ h ∈ drawn, h ≤ n.last)
    (hlogs : n.world.Logs n₁.world [] ∨ n.world.Logs n₁.world o.writes.toList) :
    Spends n₁.world ⟨ns, o.account b drawn, k b⟩ (o.spent used) := by
  refine ⟨fresh_next h.keeps hp hd fun x hx => hbelow _ (h.drawn x hx), ?_, fun r hr hmem => ?_⟩
  · exact Access.spent_drawn h.drawn fun x hx => (fresh_writes h.keeps x hx).2.1
  · rcases Access.mem_account hp hd hmem with hold | ⟨_, _, hnone, hnew⟩
    · rcases hlogs with hlogs | hlogs
      · exact Access.spent_of_used hmem (h.logged r (hlogs.mem_iff.1 hr |>.resolve_right nofun) hold)
      · rcases hlogs.mem_iff.1 hr with hr | hr
        · exact Access.spent_of_used hmem (h.logged r hr hold)
        · exact Access.spent_of_writes (Option.mem_toList.1 hr)
    · -- the stamp just drawn is in no record
      rw [hnone, Option.toList_none, or_self] at hlogs
      have hr' : r ∈ n.world.records ns := (hlogs.mem_iff.1 hr).resolve_right nofun
      exact absurd (hnew r hr') (UInt64.lt_irrefl _)

omit [AuthCrates] in
theorem Spends.logs {xs : List (Bytes × Record)} (h : Spends w t used) (hlogs : w.Logs w' xs)
    (hxs : ∀ x ∈ xs, x.2.hlc ∉ t.drawn) : Spends w' t used := by
  refine ⟨h.keeps, h.drawn, fun r hr hmem => ?_⟩
  rcases hlogs.mem_iff.1 hr with hr | hr
  · exact h.logged r hr hmem
  · exact absurd hmem (hxs _ hr)

omit [AuthCrates] in
theorem Spends.unique {x : Bytes × Record} (h : Spends n.world ⟨ns, drawn, .call o k⟩ used) (hx : x ∈ o.writes)
    (hunique : ((n.world.records ns).map versionKey).Nodup) :
    x.1 = ns ∧ ((n.world.records ns ++ [x.2]).map versionKey).Nodup := by
  obtain ⟨hns, hdrawn, hunused⟩ := fresh_writes h.keeps x hx
  refine ⟨hns, ?_⟩
  rw [List.map_append, List.nodup_append]
  refine ⟨hunique, List.nodup_singleton _, fun a ha b hb heq => ?_⟩
  obtain ⟨r, hr, rfl⟩ := List.mem_map.1 ha
  rw [List.map_cons, List.map_nil, List.mem_singleton] at hb
  rw [hb] at heq
  have htag : r.tag = x.2.tag := congrArg Prod.fst heq
  have hhlc : r.hlc = x.2.hlc := congrArg (·.2.1) heq
  have hmem := h.logged r hr (hhlc ▸ hdrawn)
  rw [htag, hhlc] at hmem
  exact hunused hmem

theorem Node.Apart.access (h : n.Apart) (hd : n.Distinct (.access i ms)) (hstep : n.access i ms = some n') : n'.Apart := by
  obtain ⟨g, hsound⟩ := h.sound
  have hproper : ∀ t ∈ n.threads[i]?, t.rest.Next Access.Proper := by
    intro t ht
    obtain ⟨used, hspends⟩ := h.threads i t ht
    have hkeeps := hspends.keeps
    have hnext := hd t ht
    cases hrest : t.rest with
    | ret a => trivial
    | call o k =>
      rw [hrest] at hkeeps hnext
      exact fresh_proper hkeeps hnext
  obtain ⟨ns, drawn, β, o, k, b, n₁, g', ht, hp, rfl, hthreads, hsound', hlogs⟩ := Node.access_spec hsound hproper hstep
  obtain ⟨used, hspends⟩ := h.threads i _ ht
  have hnext : o.Distinct n ms ns := hd _ ht
  have hlast : n.last ≤ n₁.last := Access.le_last hp hnext
  have hbelow : ∀ h ∈ drawn, h ≤ n.last := h.below i _ ht
  have hcases : ∀ (j : Nat) t, (n₁.setThread i ⟨ns, o.account b drawn, k b⟩).threads[j]? = some t →
      (j = i ∧ t = ⟨ns, o.account b drawn, k b⟩) ∨ (j ≠ i ∧ n.threads[j]? = some t) := by
    rw [← hthreads]
    exact fun j t => Node.setThread_cases
  have hother : ∀ (j : Nat) t, j ≠ i → n.threads[j]? = some t → ∀ h ∈ o.account b drawn, h ∉ t.drawn := by
    intro j t hji hj s hs hmem
    rcases Access.mem_account hp hnext hs with hs | ⟨hlt, _⟩
    · exact h.apart i j _ t (Ne.symm hji) ht hj s hs hmem
    · exact UInt64.not_lt.2 (h.below j t hj s hmem) hlt
  refine ⟨⟨g', hsound'⟩, fun m => ?_, fun j t hj => ?_, fun j t hj s hs => ?_, fun j j' t t' hne hj hj' s hs => ?_⟩
  · rcases hlogs with hlogs | hlogs
    · rw [show (n₁.setThread i _).world = n₁.world from rfl, World.Logs.nil.1 hlogs m]
      exact h.unique m
    · cases hx : o.writes with
      | none =>
        rw [hx] at hlogs
        rw [show (n₁.setThread i _).world = n₁.world from rfl, World.Logs.nil.1 hlogs m]
        exact h.unique m
      | some x =>
        rw [hx] at hlogs
        obtain ⟨hself, hrest⟩ := World.Logs.single hlogs
        obtain ⟨hns, hnodup⟩ := hspends.unique hx (h.unique ns)
        rw [show (n₁.setThread i _).world = n₁.world from rfl]
        by_cases hm : m = x.1
        · rw [hm, hself, hns]
          exact hnodup
        · rw [hrest m hm]
          exact h.unique m
  · rcases hcases j t hj with ⟨rfl, rfl⟩ | ⟨hji, hj⟩
    · have hspends' : Spends n₁.world _ _ := hspends.access hnext hp hbelow hlogs
      exact ⟨_, hspends'⟩
    · obtain ⟨used', hspends'⟩ := h.threads j t hj
      rcases hlogs with hlogs | hlogs
      · exact ⟨used', hspends'.logs hlogs nofun⟩
      · refine ⟨used', hspends'.logs hlogs fun x hx hmem => ?_⟩
        have hdrawn := (fresh_writes hspends.keeps x (Option.mem_toList.1 hx)).2.1
        exact h.apart i j _ t (Ne.symm hji) ht hj _ hdrawn hmem
  · rcases hcases j t hj with ⟨rfl, rfl⟩ | ⟨_, hj⟩
    · rcases Access.mem_account hp hnext hs with hs | ⟨_, hlast', _⟩
      · exact UInt64.le_trans (hbelow s hs) hlast
      · exact hlast' ▸ UInt64.le_refl _
    · exact UInt64.le_trans (h.below j t hj s hs) hlast
  · rcases hcases j t hj with ⟨rfl, rfl⟩ | ⟨hji, hjt⟩
    · rcases hcases j' t' hj' with ⟨rfl, rfl⟩ | ⟨hji', hjt'⟩
      · exact absurd rfl hne
      · exact hother j' t' hji' hjt' s hs
    · rcases hcases j' t' hj' with ⟨rfl, rfl⟩ | ⟨hji', hjt'⟩
      · exact fun hs' => hother j t hji hjt s hs' hs
      · exact h.apart j j' t t' hne hjt hjt' s hs

theorem Node.Apart.start (h : n.Apart) (site : Site) (s : Surface) :
    Node.Apart { n with threads := n.threads ++ [⟨s.ns site.cfg, [], s.handler site⟩] } := by
  have hcases : ∀ (i : Nat) t, (n.threads ++ [⟨s.ns site.cfg, [], s.handler site⟩])[i]? = some t →
      n.threads[i]? = some t ∨ t = ⟨s.ns site.cfg, [], s.handler site⟩ := by
    intro i t hi
    rw [List.getElem?_append] at hi
    split at hi
    case isTrue => exact .inl hi
    case isFalse => exact .inr (List.mem_singleton.1 (List.mem_of_getElem? hi))
  refine ⟨h.sound, h.unique, fun i t hi => ?_, fun i t hi => ?_, fun i j t t' hne hi hj => ?_⟩
  · rcases hcases i t hi with hi | rfl
    · exact h.threads i t hi
    · exact ⟨[], fresh_handler site s ([], []), nofun, nofun⟩
  · rcases hcases i t hi with hi | rfl
    · exact h.below i t hi
    · exact nofun
  · rcases hcases i t hi with hi | rfl
    · rcases hcases j t' hj with hj | rfl
      · exact h.apart i j t t' hne hi hj
      · exact fun _ _ => List.not_mem_nil
    · exact nofun

theorem Node.Apart.step {site : Site} {e : NodeEvent} (h : n.Apart)
    (hstep : guarded Node.Distinct (NodeStep site) n e n') : n'.Apart := by
  obtain ⟨hd, hstep⟩ := hstep
  obtain ⟨g, hsound⟩ := h.sound
  cases e with
  | start s =>
    cases hstep
    exact h.start site s
  | access i ms => exact h.access hd hstep
  | sync => exact absurd hd id
  | restart durable now =>
    obtain ⟨w', g', hopen, hsound', hlogs⟩ := hsound.restart durable now
    rw [NodeStep, Node.step, hopen] at hstep
    cases hstep
    refine .boot hsound' fun ns => ?_
    rw [World.Logs.nil.1 hlogs ns]
    exact h.unique ns

theorem Opened.records_eq (h : Opened w) (ns : Bytes) : w.records ns = [] := by
  obtain ⟨hsound, hpol⟩ := h.sound
  exact hsound.running.toAttached.records_none (by rw [hpol]; simp)

/-- In a run of local writes in which every event keeps identities apart, no two records of a log have the same identity,
and a peer that syncs the log from the start applies every one of them. -/
theorem record_identities_unique (site : Site) {w₀ : World} {es : List NodeEvent} (hw₀ : Opened w₀)
    (hrun : Run (guarded Node.Distinct (NodeStep site)) (Node.boot w₀) es n) (ns : Bytes) :
    ((n.world.records ns).map versionKey).Nodup ∧ newRecords [] (n.world.records ns) = n.world.records ns := by
  have hboot : (Node.boot w₀).Apart := .boot hw₀.sound.1 fun ns => by
    rw [hw₀.records_eq]
    exact List.nodup_nil
  have hapart : n.Apart := hrun.invariant (fun _ _ _ h hs => h.step hs) hboot
  exact ⟨hapart.unique ns, Shipping.unseen_of_fresh (fun _ _ => List.not_mem_nil) (hapart.unique ns)⟩

end

/-! ### Examples -/

def putFile (key : Bytes) : Surface := .put (Fs.nsOf .zero) key [1] none .zero

def oneFile : List NodeEvent := serving (putFile (str "fs/d/a")) 0 5 10

def mountLog (_ n' : Node) : List (UInt8 × UInt64 × Bytes32) := (n'.world.records (Fs.nsOf .zero)).map versionKey

set_option maxRecDepth 100000 in
/-- A directory with one file is removed, its key and then its own. -/
theorem record_identities_unique_rmdir : letI := AuthCrates.trivial
    ∃ w₀ n, Opened w₀ ∧ Run (guarded Node.Distinct (NodeStep plainSite)) (Node.boot w₀)
      (oneFile ++ serving (.rmdir [] (str "d")) 1 5 15 ++ [.access 1 5]) n ∧
      ((n.world.records (Fs.nsOf .zero)).map versionKey).Nodup ∧
      newRecords [] (n.world.records (Fs.nsOf .zero)) = n.world.records (Fs.nsOf .zero) ∧
      (n.world.records (Fs.nsOf .zero)).map versionKey =
        [(tagPut, 327680, .zero), (tagDel, 327681, .zero), (tagDel, 327682, .zero)] := by
  have h : letI := AuthCrates.trivial
      Node.runThen Node.Distinct plainSite (oneFile ++ serving (.rmdir [] (str "d")) 1 5 15) (.access 1 5) mountLog =
        some [(tagPut, 327680, .zero), (tagDel, 327681, .zero), (tagDel, 327682, .zero)] := by decide +kernel
  let _ := AuthCrates.trivial
  obtain ⟨w₀, n, n', hw₀, hrun, hstep, hlog⟩ := Node.runThen_sound h
  have hrun' := hrun.append (.single hstep)
  obtain ⟨hnodup, hsync⟩ := record_identities_unique plainSite hw₀ hrun' (Fs.nsOf .zero)
  exact ⟨w₀, n', hw₀, hrun', hnodup, hsync, hlog⟩

def twoFilesRemoved : List NodeEvent :=
  oneFile ++ serving (putFile (str "fs/d/b")) 1 5 9 ++ serving (.rmdir [] (str "d")) 2 5 9

def twoFilesMoved : List NodeEvent :=
  oneFile ++ serving (putFile (str "fs/d/b")) 1 5 9 ++ serving (.rename false [] (str "d") [] (str "e")) 2 5 19

/-- A file is written, the process restarts, and a file is written with the clock where it was. -/
def sameStamp : List NodeEvent := oneFile ++ .restart false 0 :: serving (putFile (str "fs/d/b")) 0 5 7

/-- After the events, an access of the handler `i` leaves two records with the same identity in the log. -/
def Collides [AuthCrates] (es : List NodeEvent) (i : Nat) : Prop :=
  ∃ w₀ n, Opened w₀ ∧ Run (NodeStep plainSite) (Node.boot w₀) (es ++ [.access i 5]) n ∧
    ¬ ((n.world.records (Fs.nsOf .zero)).map versionKey).Nodup

theorem collides_of_run [AuthCrates] {es : List NodeEvent} {i : Nat}
    (h : Node.runThen (fun _ _ => True) plainSite es (.access i 5) (fun n n' => decide (mountLog n n').Nodup) = some false) :
    Collides es i := by
  obtain ⟨w0, n, n', hw0, hrun, hstep, hlog⟩ := Node.runThen_sound h
  have hrun' := hrun.append (.single hstep)
  exact ⟨w0, n', hw0, hrun'.mono fun _ _ _ hs => hs.2, of_decide_eq_false hlog⟩

set_option maxRecDepth 100000 in
/-- Two keys of a directory are removed or moved under one identity, and a restart gives out a stamp again. -/
theorem record_identities_collide : letI := AuthCrates.trivial
    Collides twoFilesRemoved 2 ∧ Collides twoFilesMoved 2 ∧ Collides sameStamp 0 := by
  refine ⟨?_, ?_, ?_⟩
  · exact @collides_of_run AuthCrates.trivial _ _ (by decide +kernel)
  · exact @collides_of_run AuthCrates.trivial _ _ (by decide +kernel)
  · exact @collides_of_run AuthCrates.trivial _ _ (by decide +kernel)

end BunnyMesh
