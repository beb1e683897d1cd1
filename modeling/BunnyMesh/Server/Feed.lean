import BunnyMesh.Lib.Polling
import BunnyMesh.Storage.Definitions

/-!
# The change feed

`GET /l2/{ns}/changes?since=<seq>` answers with the head of the log and at most `MAX_CHANGES` records behind `since`, and
a client asks again with the head it was told.  A client that is further behind than that skips what the window left out
and never asks for it again (`feed_gapless_iff`).
-/

namespace BunnyMesh

open Std Store
open Polling (polled KeepsUp)

/-! ### The route -/

def maxChanges : Nat := 10000

/-- What the feed tells of a record. -/
structure FeedRecord where
  key : Bytes
  value : Bytes
  del : Bool
  ttl : Bool
  expiresAt : UInt64
  hlc : UInt64
  batch : Bool
  ops : Nat
deriving DecidableEq

def FeedRecord.of (r : Record) : FeedRecord :=
  ⟨r.key, r.value, r.tag == tagDel, r.expiresAt != 0, r.expiresAt, r.hlc, r.tag == tagBatch, r.ops.length⟩

/-- One entry of `changes`; without a record, `parse_error`. -/
structure FeedChange where
  seq : Nat
  record : Option FeedRecord
deriving DecidableEq

inductive FeedReply where
  | notFound
  | changes (since : Nat) (head : Option (Nat × Bytes32)) (changes : List FeedChange)
  | aborted
deriving DecidableEq

section

variable [Crates]

def feedChanges : List (Nat × Bytes) → Res (List FeedChange)
  | [] => .ok []
  | (seq, bytes) :: rest =>
    match parseChain bytes none with
    | .ok (record, _) => do pure (⟨seq, some (.of record)⟩ :: (← feedChanges rest))
    | .error (.err _) => do pure (⟨seq, none⟩ :: (← feedChanges rest))
    | .error (.panic msg) => .error (.panic msg)

def l2Changes (ns : Bytes) (since : Nat) (w : World) : FeedReply :=
  if (w.store.policy ns).isNone then .notFound
  else
    match logRecords ns (since + 1) maxChanges w with
    | .ok records _ =>
      match feedChanges (records.take maxChanges) with
      | .ok changes => .changes since (w.store.head ns) changes
      | .error _ => .aborted
    | .error (.err _) _ => .changes since (w.store.head ns) []
    | .error (.panic _) _ => .aborted

/-! ### A client -/

inductive FeedEvent where
  | op (c : Cmd)
  | poll

def World.after (w : World) (c : Cmd) : World :=
  match c.run w with
  | .ok _ w' => w'
  | .error _ w' => w'

def World.afterAll : World → List FeedEvent → World
  | w, [] => w
  | w, .op c :: es => (w.after c).afterAll es
  | w, .poll :: es => w.afterAll es

/-- The changes a client gets that polls from `since` on, and after each response from its `head.seq` on. -/
def feedReceived (ns : Bytes) : Nat → World → List FeedEvent → List FeedChange
  | _, _, [] => []
  | since, w, .op c :: es => feedReceived ns since (w.after c) es
  | since, w, .poll :: es =>
    match l2Changes ns since w with
    | .changes _ head changes => changes ++ feedReceived ns ((head.map (·.1)).getD since) w es
    | .notFound | .aborted => feedReceived ns since w es

def Appends : World → List FeedEvent → Prop
  | _, [] => True
  | w, .op c :: es => (c.Valid w.store ∧ ∀ now, c ≠ .gcLive now) ∧ Appends (w.after c) es
  | w, .poll :: es => Appends w es

def polledLogs (ns : Bytes) : World → List FeedEvent → List (List Record)
  | _, [] => []
  | w, .op c :: es => polledLogs ns (w.after c) es
  | w, .poll :: es => if (w.store.policy ns).isNone then polledLogs ns w es else w.records ns :: polledLogs ns w es

def FeedChange.of (x : Record × Nat) : FeedChange := ⟨x.2, some (.of x.1)⟩

/-- The client has every record behind `since` that the log has, once and in order. -/
def Gapless (since : Nat) (received : List FeedChange) (log : List Record) : Prop :=
  received.filter (fun c => since < c.seq) = ((log.zipIdx 1).drop since).map .of

/-! ### What a poll brings -/

variable {w w' : World} {g : History} {ns : Bytes} {p : ConflictPolicy} {x x' : World × History} {es : List FeedEvent}

theorem feedChanges_of_chained {head : Bytes32} {bs : List Bytes} {rs : List Record} (h : Chained head bs rs) (seq : Nat) :
    feedChanges (numberFrom seq bs) = .ok ((rs.zipIdx seq).map .of) := by
  induction h generalizing seq with
  | nil => rfl
  | cons parsed rest ih =>
    simp [numberFrom, feedChanges, parseChain_none parsed, ih, FeedChange.of]

omit [Crates] in
theorem length_numberFrom (seq : Nat) (bs : List Bytes) : (numberFrom seq bs).length = bs.length := by
  induction bs generalizing seq with
  | nil => rfl
  | cons b bs ih => rw [numberFrom, List.length_cons, List.length_cons, ih]

theorem l2Changes_spec (h : Attached w g) (hp : w.store.policies[ns]? = some p) (since : Nat) : ∃ hash,
    l2Changes ns since w = .changes since (some ((w.records ns).length, hash))
      ((Polling.window maxChanges since (w.records ns)).map .of) := by
  have hchained := h.files.chained ns (by rw [hp]; simp)
  have hlen : ((g.bytes ns).drop since).take maxChanges = takeMax maxChanges ((g.bytes ns).drop since) := by
    rw [takeMax, if_neg (by decide)]
  have hread := h.logRecords_spec hp since maxChanges
  rw [← hlen] at hread
  have hparsed := feedChanges_of_chained ((hchained.drop since).take maxChanges) (since + 1)
  have hshort : (numberFrom (since + 1) (((g.bytes ns).drop since).take maxChanges)).take maxChanges =
      numberFrom (since + 1) (((g.bytes ns).drop since).take maxChanges) := by
    refine List.take_of_length_le ?_
    rw [length_numberFrom]
    exact List.length_take_le _ _
  refine ⟨chainHead .zero (g.bytes ns), ?_⟩
  have hhosted : (w.store.policy ns).isNone = false := by rw [Store.policy, hp]; rfl
  simp [l2Changes, hhosted, hread, hshort, hparsed, h.head_eq hp, h.records_eq hp, Polling.window_eq,
    h.files.length_records (by rw [hp]; simp)]

omit [Crates] in
theorem l2Changes_notFound (hp : w.store.policies[ns]? = none) (since : Nat) : l2Changes ns since w = .notFound := by
  rw [l2Changes, if_pos (by rw [Store.policy, hp]; rfl)]

/-! ### The log between polls -/

theorem Happens.records_prefix {e : Event} (hs : Sound x) (he : Happens x e x') (hgc : ∀ now, e ≠ .compacted now) :
    x.1.records ns <+: x'.1.records ns ∧ (x.1.store.policies[ns]? ≠ none → x'.1.store.policies[ns]? ≠ none) := by
  have hat := hs.running.toAttached
  have hat' := (he.sound hs).running.toAttached
  cases he with
  | @created w g n p log disk points valid fresh running =>
    have hpol : (w.store.policies.insert n p)[ns]? = if n = ns then some p else w.store.policies[ns]? :=
      OrdMap.getElem?_insert ..
    rcases eq_or_ne n ns with rfl | hne
    · rw [hat.records_none fresh]
      exact ⟨List.nil_prefix, fun h => absurd fresh h⟩
    · rw [if_neg hne] at hpol
      refine ⟨?_, fun h => by rw [← hpol] at h; exact h⟩
      cases hp : w.store.policies[ns]? with
      | none =>
        rw [hat.records_none hp]
        exact List.nil_prefix
      | some q =>
        have hrecords : (g.create n).records ns = g.records ns := Function.update_of_ne hne.symm ..
        rw [hat.records_eq hp, hat'.records_eq (hpol.trans hp), hrecords]
  | @changed w w' g n p c logged =>
    obtain ⟨-, hpol, -, -, -⟩ := logged.spec hat
    refine ⟨?_, fun h => by rw [hpol]; exact h⟩
    cases hp : w.store.policies[ns]? with
    | none =>
      rw [hat.records_none hp]
      exact List.nil_prefix
    | some q =>
      rw [hat.records_eq hp, hat'.records_eq (by rw [hpol, hp])]
      rcases eq_or_ne n ns with rfl | hne
      · have hlog : (g.log n c.record).records n = g.records n ++ [c.record] := Function.update_self ..
        rw [hlog]
        exact List.prefix_append _ _
      · have hlog : (g.log n c.record).records ns = g.records ns := Function.update_of_ne hne.symm ..
        rw [hlog]
  | @snapshot w g disk points running =>
    have hrecords := hat.records_congr hat' rfl (rfl : (g.snapshot w.store).records ns = g.records ns)
    exact ⟨by rw [hrecords], id⟩
  | @reopened w w' g running policies derived view =>
    have hrecords := hat.records_congr hat' policies (rfl : g.records ns = g.records ns)
    exact ⟨by rw [hrecords], fun h => by rw [policies]; exact h⟩
  | compacted run running => exact absurd rfl (hgc _)

theorem World.after_spec {c : Cmd} (hs : Sound (w, g)) (hc : c.Valid w.store) (hgc : ∀ now, c ≠ .gcLive now) :
    ∃ g', Sound (w.after c, g') ∧ w.records ns <+: (w.after c).records ns ∧
      (w.store.policies[ns]? ≠ none → (w.after c).store.policies[ns]? ≠ none) := by
  rcases Cmd.outcome hs hc with ⟨-, e, herr⟩ | ⟨w', g', hok, hevents⟩
  · have hafter : w.after c = w := by rw [World.after, herr]
    rw [hafter]
    exact ⟨g, hs, List.prefix_rfl, id⟩
  · have hafter : w.after c = w' := by rw [World.after, hok]
    rw [hafter]
    have hnone : ∀ e ∈ c.events w, ∀ now, e ≠ .compacted now := by
      intro e he now heq
      subst heq
      cases c with
      | gcLive now' => exact hgc now' rfl
      | put | delete | putBatch | setSchema | setIndex | createNamespace | checkpoint | reopen =>
        cases List.mem_singleton.1 he
      | applySynced | applySyncedBatch =>
        obtain ⟨r, -, hr⟩ := List.mem_map.1 he
        cases hr
    have hinv := hevents.invariant_of_mem (I := fun x => Sound x ∧ w.records ns <+: x.1.records ns ∧
      (w.store.policies[ns]? ≠ none → x.1.store.policies[ns]? ≠ none)) ?_ ⟨hs, List.prefix_rfl, id⟩
    · exact ⟨g', hinv⟩
    · rintro e he x x' ⟨hx, hpre, hhosted⟩ hstep
      obtain ⟨hpre', hhosted'⟩ := hstep.records_prefix hx (hnone e he)
      exact ⟨hstep.sound hx, hpre.trans hpre', fun h => hhosted' (hhosted h)⟩

theorem World.afterAll_spec (hs : Sound (w, g)) (hes : Appends w es) :
    ∃ g', Sound (w.afterAll es, g') ∧ (w.store.policies[ns]? ≠ none → (w.afterAll es).store.policies[ns]? ≠ none) := by
  induction es generalizing w g with
  | nil => exact ⟨g, hs, id⟩
  | cons e es ih =>
    cases e with
    | op c =>
      obtain ⟨⟨hc, hgc⟩, hrest⟩ := hes
      obtain ⟨g1, hs1, -, hhosted⟩ := World.after_spec hs hc hgc
      obtain ⟨g', hs', hhosted'⟩ := ih hs1 hrest
      exact ⟨g', hs', fun h => hhosted' (hhosted h)⟩
    | poll => exact ih hs hes

theorem feedReceived_eq (hs : Sound (w, g)) (hes : Appends w es) (since : Nat) :
    feedReceived ns since w es = (polled maxChanges since (polledLogs ns w es)).map .of ∧
      (∀ l ∈ polledLogs ns w es, w.records ns <+: l) ∧ (polledLogs ns w es).Pairwise (· <+: ·) := by
  induction es generalizing w g since with
  | nil => exact ⟨rfl, nofun, List.Pairwise.nil⟩
  | cons e es ih =>
    cases e with
    | op c =>
      obtain ⟨⟨hc, hgc⟩, hrest⟩ := hes
      obtain ⟨g', hs', hpre, -⟩ := World.after_spec hs hc hgc
      obtain ⟨hreceived, hlogs, hgrow⟩ := ih hs' hrest since
      exact ⟨hreceived, fun l hl => hpre.trans (hlogs l hl), hgrow⟩
    | poll =>
      cases hp : w.store.policies[ns]? with
      | none =>
        have hunknown : (w.store.policy ns).isNone = true := by rw [Store.policy, hp]; rfl
        simp only [feedReceived, l2Changes_notFound hp, polledLogs, hunknown, if_true]
        exact ih hs hes since
      | some p =>
        have hknown : (w.store.policy ns).isNone = false := by rw [Store.policy, hp]; rfl
        obtain ⟨hash, hpoll⟩ := l2Changes_spec hs.running.toAttached hp since
        obtain ⟨hreceived, hlogs, hgrow⟩ := ih hs hes (w.records ns).length
        simp only [feedReceived, hpoll, polledLogs, hknown, Bool.false_eq_true, if_false, Option.map_some, Option.getD_some,
          polled, List.map_append, hreceived, true_and]
        exact ⟨List.forall_mem_cons.2 ⟨List.prefix_rfl, hlogs⟩, List.pairwise_cons.2 ⟨hlogs, hgrow⟩⟩

theorem polledLogs_concat (hhosted : (w.afterAll es).store.policies[ns]? ≠ none) :
    polledLogs ns w (es ++ [.poll]) = polledLogs ns w es ++ [(w.afterAll es).records ns] := by
  induction es generalizing w with
  | nil =>
    have hknown : ¬ (w.store.policy ns).isNone = true := by simpa [Store.policy, World.afterAll] using hhosted
    simp only [List.nil_append, polledLogs, World.afterAll, if_neg hknown]
  | cons e es ih =>
    cases e with
    | op c => exact ih hhosted
    | poll =>
      have hrest : polledLogs ns w (es ++ [.poll]) = polledLogs ns w es ++ [(w.afterAll es).records ns] := ih hhosted
      simp only [List.cons_append, polledLogs, World.afterAll, hrest]
      split
      · rfl
      · rfl

theorem polledLogs_of_unhosted (hs : Sound (w, g)) (hes : Appends w es)
    (hnone : (w.afterAll es).store.policies[ns]? = none) : polledLogs ns w es = [] := by
  induction es generalizing w g with
  | nil => rfl
  | cons e es ih =>
    cases e with
    | op c =>
      obtain ⟨⟨hc, hgc⟩, hrest⟩ := hes
      obtain ⟨g', hs', -⟩ := @World.after_spec _ w g ns c hs hc hgc
      exact ih hs' hrest hnone
    | poll =>
      have hp : w.store.policies[ns]? = none := by
        by_contra hp
        obtain ⟨-, -, hhosted⟩ := World.afterAll_spec hs hes
        exact hhosted hp hnone
      rw [polledLogs, if_pos (by rw [Store.policy, hp]; rfl)]
      exact ih hs hes hnone

theorem World.afterAll_poll (w : World) (es : List FeedEvent) : w.afterAll (es ++ [.poll]) = w.afterAll es := by
  induction es generalizing w with
  | nil => rfl
  | cons e es ih =>
    cases e with
    | op c => exact ih (w.after c)
    | poll => exact ih w

theorem Appends.poll (h : Appends w es) : Appends w (es ++ [.poll]) := by
  induction es generalizing w with
  | nil => trivial
  | cons e es ih =>
    cases e with
    | op c => exact ⟨h.1, ih h.2⟩
    | poll => exact ih h

/-- A client that polls with the head of the last response has, at each poll, every record behind its first `since`, once
and in order, exactly if it never was more than `MAX_CHANGES` records behind, but for records it did not ask for. -/
theorem feed_gapless_iff (hs : Sound (w, g)) (hes : Appends w es) (since : Nat) :
    Gapless since (feedReceived ns since w (es ++ [.poll])) ((w.afterAll es).records ns) ↔
      KeepsUp maxChanges since since (polledLogs ns w (es ++ [.poll])) := by
  obtain ⟨hreceived, -, hgrow⟩ := @feedReceived_eq _ w g ns _ hs hes.poll since
  rw [Gapless, hreceived]
  by_cases hp : (w.afterAll es).store.policies[ns]? = none
  · -- there is no log, and no poll was answered
    obtain ⟨g', hs', -⟩ := @World.afterAll_spec _ w g ns es hs hes
    have hend : (w.afterAll (es ++ [.poll])).store.policies[ns]? = none := by rw [World.afterAll_poll]; exact hp
    rw [polledLogs_of_unhosted hs hes.poll hend, hs'.running.toAttached.records_none hp]
    simp [polled, KeepsUp]
  · rw [polledLogs_concat hp] at hgrow ⊢
    exact Polling.map_polled_eq_iff (fun _ => rfl) hgrow

end

/-! ### Two clients -/

set_option maxRecDepth 100000 in
/-- A client that polls, and polls again behind one more write. -/
theorem feed_gapless_iff_close : letI := Crates.trivial
    ∃ w g, Sound (w, g) ∧ Gapless 0 (feedReceived [97] 0 w [.poll, .op (.put [97] [1] [20] 7 .zero .zero 0), .poll])
      ((w.after (.put [97] [1] [20] 7 .zero .zero 0)).records [97]) := by
  have h : letI := Crates.trivial
      ((arrived [putRecord [1] [10] 5 .zero .zero 0]).any fun w => decide (KeepsUp maxChanges 0 0
        (polledLogs [97] w [.poll, .op (.put [97] [1] [20] 7 .zero .zero 0), .poll]))) = true := by decide +kernel
  let _ := Crates.trivial
  obtain ⟨w, hw, h⟩ := (Option.any_eq_true ..).1 h
  obtain ⟨g, hs, -⟩ := (syncedOnly_of_arrived hw).replayed
  have hvalid : (putRecord [1] [20] 7 .zero .zero 0).payload.length < 2 ^ 32 := by decide
  have hes : Appends w [.poll, .op (.put [97] [1] [20] 7 .zero .zero 0)] := ⟨⟨hvalid, nofun⟩, trivial⟩
  exact ⟨w, g, hs, (feed_gapless_iff hs hes 0).2 (of_decide_eq_true h)⟩

/-- One more record than a response has. -/
def backlog : List Record := (List.range (maxChanges + 1)).map fun i => putRecord [1] [10] (.ofNat i) .zero .zero 0

theorem backlog_wellFormed : ∀ r ∈ backlog, r.WellFormed := by
  intro r hr
  obtain ⟨i, -, rfl⟩ := List.mem_map.1 hr
  refine putRecord_wellFormed ?_
  have htag : (putRecord [1] [10] (.ofNat i) .zero .zero 0).tag = tagPut := rfl
  have hvalue : (putRecord [1] [10] (.ofNat i) .zero .zero 0).toOp.value = [10] := rfl
  have hkey : (putRecord [1] [10] (.ofNat i) .zero .zero 0).toOp.key = [1] := rfl
  rw [Record.payload, htag, if_neg (by decide), length_payloadBytes, hvalue, hkey, htag, if_neg (by decide)]
  decide

theorem nodup_backlog : (backlog.map versionKey).Nodup := by
  rw [backlog, List.map_map]
  refine List.nodup_range.map_on fun i hi j hj h => ?_
  have hlt : ∀ k ∈ List.range (maxChanges + 1), (UInt64.ofNat k).toNat = k := by
    intro k hk
    have hk := List.mem_range.1 hk
    exact UInt64.toNat_ofNat_of_lt' (hk.trans_le (by decide))
  have hhlc : UInt64.ofNat i = UInt64.ofNat j := congrArg (·.2.1) h
  rw [← hlt i hi, ← hlt j hj, hhlc]

/-- A client that starts from the beginning of such a log never gets its last record. -/
theorem feed_skips_record : letI := Crates.trivial
    ∃ w, SyncedOnly [97] w ∧ (w.records [97]).length = 10001 ∧
      (feedReceived [97] 0 w [.poll, .poll]).length = 10000 ∧
      ¬ Gapless 0 (feedReceived [97] 0 w [.poll, .poll]) (w.records [97]) := by
  let _ := Crates.trivial
  obtain ⟨w, hw, hrecords⟩ := @exists_syncedOnly _ [97] backlog (by decide) backlog_wellFormed nodup_backlog
  obtain ⟨g, hs, -⟩ := hw.replayed
  have hlen : (w.records [97]).length = 10001 := by
    rw [hrecords, backlog, List.length_map, List.length_range, maxChanges]
  have hreceived : (feedReceived [97] 0 w [.poll, .poll]).length = 10000 := by
    obtain ⟨-, -, -, -, hhosted⟩ := hw
    have hknown : ¬ (w.store.policy [97]).isNone = true := by simpa [Store.policy] using hhosted
    rw [(@feedReceived_eq _ w g [97] [.poll, .poll] hs trivial 0).1]
    simp [polledLogs, polled, Polling.window, hknown, hlen, maxChanges]
  refine ⟨w, hw, hlen, hreceived, fun h => ?_⟩
  have hle := List.length_filter_le (fun c : FeedChange => 0 < c.seq) (feedReceived [97] 0 w [.poll, .poll])
  rw [h, List.length_map, List.drop_zero, List.length_zipIdx] at hle
  omega

end BunnyMesh
