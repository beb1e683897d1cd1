import BunnyMesh.Lib.HashChain
import BunnyMesh.Storage.LogRep
import BunnyMesh.Storage.Tail

/-!
# The head fixes the history

The head of a log is the last link of a hash chain over its records.  Two segment sets that recovery accepts without a
warning and that have the same head hold the same records, however they are split into segments
(`records_eq_of_head_eq`), unless `sha256` collides on one of their links or maps one to the all-zero start.
-/

namespace BunnyMesh

open ByteCodec

/-- The byte strings of a segment, cut where the headers say; `fuel` bounds their number. -/
def cutRecords : Nat → Bytes → List Bytes
  | 0, _ => []
  | fuel + 1, s => if s.isEmpty then [] else s.take (announced s) :: cutRecords fuel (s.drop (announced s))

def NsDir.recordStrings (nd : NsDir) : List Bytes := nd.files.flatMap fun s => cutRecords s.length s

theorem cutRecords_flatten {bs : List Bytes} (h : ∀ b ∈ bs, HeaderOk b) {fuel : Nat} (hf : bs.flatten.length ≤ fuel) :
    cutRecords fuel bs.flatten = bs := by
  induction bs generalizing fuel with
  | nil => cases fuel <;> rfl
  | cons b bs ih =>
    obtain ⟨hb, hbs⟩ := List.forall_mem_cons.1 h
    obtain ⟨hlen, hdecl⟩ := hb
    have hpos : headerLen = 41 := rfl
    rw [List.flatten_cons, List.length_append] at hf
    have hann : announced (b ++ bs.flatten) = b.length := by
      have hrange : range (b ++ bs.flatten) 1 5 = range b 1 5 := by
        have := (At.refl (b ++ bs.flatten)).left.range_add (k := 1) (l := 5) (by omega)
        simpa using this
      rw [announced, hrange, hdecl]
      omega
    cases fuel with
    | zero => omega
    | succ fuel =>
      have hne : (b ++ bs.flatten).isEmpty = false := by
        cases b with
        | nil => simp [headerLen] at hlen
        | cons => rfl
      rw [List.flatten_cons, cutRecords, hne, hann, List.take_left, List.drop_left, ih hbs (by omega)]
      rfl

section

variable [Crates]

/-- What recovery hashes: the running head, then the record. -/
def hashInputs (bs : List Bytes) : List Bytes := (HashChain.links recordHash .zero bs).map fun x => x.1.val ++ x.2

/-- No two of the inputs collide, and none is mapped to the head of an empty log. -/
@[mk_iff]
structure Collisionless (inputs : List Bytes) : Prop where
  inj : ∀ x ∈ inputs, ∀ y ∈ inputs, Crates.sha256 x = Crates.sha256 y → x = y
  zero : ∀ x ∈ inputs, Crates.sha256 x ≠ .zero

theorem Chained.recordStrings_eq {nd : NsDir} {chunks : List (List Bytes)} {head : Bytes32} {rs : List Record}
    (h : Chained head chunks.flatten rs) (hd : nd.files = chunks.map List.flatten) :
    nd.recordStrings = chunks.flatten := by
  have hcut : ∀ c ∈ chunks, cutRecords c.flatten.length c.flatten = c := fun c hc =>
    cutRecords_flatten (fun b hb => h.headerOk b (List.mem_flatten.2 ⟨c, hc, hb⟩)) le_rfl
  rw [NsDir.recordStrings, hd, List.flatMap_map, List.flatMap_def, List.map_congr_left hcut, List.map_id']

instance (inputs : List Bytes) : Decidable (Collisionless inputs) := decidable_of_iff' _ (collisionless_iff inputs)

/-- A segment set accepted without a warning is a chain of its record strings, up to the recovered head. -/
theorem recoverDurable_records {dir : Bytes} {nd : NsDir} {durable : Bool} {log : Log} {effects : List SegEffect}
    (h : recoverDurable dir nd durable = .ok (log, none, effects)) :
    nd.files.flatten = nd.recordStrings.flatten ∧ (∃ rs, Chained .zero nd.recordStrings rs) ∧
      log.head = chainHead .zero nd.recordStrings := by
  simp only [recoverDurable, bind_eq_ok, pure_eq_ok, Except.ok.injEq, Prod.exists] at h
  obtain ⟨st, truncate, hscan, h⟩ := h
  obtain ⟨chunks, rs, hchain, rfl, ⟨rfl, hd⟩ | ⟨init, segNo, f, cs, c, tail, -, -, -, -, rfl⟩⟩ := scanSegs_eq_ok hscan
  · rw [hchain.recordStrings_eq hd]
    refine ⟨?_, ⟨rs, hchain⟩, ?_⟩
    · rw [NsDir.files, hd, List.flatten_flatten]
    · have hhead := congrArg (fun x => x.1.head) h
      exact hhead.symm
  · -- a cut tail is a warning
    have hwarn := congrArg (fun x => x.2.1) h
    cases hwarn

theorem recordHash_inj {S : List Bytes} (hinj : ∀ x ∈ S, ∀ y ∈ S, Crates.sha256 x = Crates.sha256 y → x = y)
    {p q : Bytes32 × Bytes} (hp : p.1.val ++ p.2 ∈ S) (hq : q.1.val ++ q.2 ∈ S)
    (h : recordHash p.1 p.2 = recordHash q.1 q.2) : p = q := by
  have hbytes := hinj _ hp _ hq h
  obtain ⟨hprev, hrec⟩ := List.append_inj hbytes (p.1.len.trans q.1.len.symm)
  exact Prod.ext (Bytes32.ext hprev) hrec

/-- Equal heads have equal histories: two segment sets that recovery accepts without a warning, with one recovered head
and no collision among what was hashed for them, consist of the same record byte strings. -/
theorem records_eq_of_head_eq {dir dir' : Bytes} {nd nd' : NsDir} {durable durable' : Bool} {log log' : Log}
    {effects effects' : List SegEffect} (h : recoverDurable dir nd durable = .ok (log, none, effects))
    (h' : recoverDurable dir' nd' durable' = .ok (log', none, effects'))
    (hc : Collisionless (hashInputs nd.recordStrings ++ hashInputs nd'.recordStrings)) (hhead : log.head = log'.head) :
    nd.recordStrings = nd'.recordStrings ∧ nd.files.flatten = nd'.files.flatten := by
  obtain ⟨hbytes, -, hlog⟩ := recoverDurable_records h
  obtain ⟨hbytes', -, hlog'⟩ := recoverDurable_records h'
  rw [hlog, hlog'] at hhead
  have hlink : ∀ x ∈ HashChain.links recordHash .zero nd.recordStrings ++
      HashChain.links recordHash .zero nd'.recordStrings,
      x.1.val ++ x.2 ∈ hashInputs nd.recordStrings ++ hashInputs nd'.recordStrings := by
    intro x hx
    rw [hashInputs, hashInputs, ← List.map_append]
    exact List.mem_map.2 ⟨x, hx, rfl⟩
  have heq : nd.recordStrings = nd'.recordStrings :=
    HashChain.eq_of_foldl_eq (fun p hp q hq => recordHash_inj hc.inj (hlink p hp) (hlink q hq))
      (fun p hp => hc.zero _ (hlink p hp)) (List.subset_append_left _ _) (List.subset_append_right _ _) hhead
  exact ⟨heq, by rw [hbytes, hbytes', heq]⟩

end

/-- A hash for examples: the length of its input, in 32 bytes. -/
@[reducible] def Crates.byLength : Crates := ⟨fun x => ⟨le 32 x.length, length_le ..⟩, fun _ => none, fun _ => none⟩

def twoRecords : List Record :=
  [⟨⟨tagPut, [1], 1, .zero, .zero, [10], 0⟩, []⟩, ⟨⟨tagDel, [1], 2, .zero, .zero, [], 0⟩, []⟩]

def oneSegment [Crates] : NsDir := ⟨[some ⟨(encodeChain .zero twoRecords).flatten, 0⟩], none⟩

def twoSegments [Crates] : NsDir := ⟨(encodeChain .zero twoRecords).map fun b => some ⟨b, 0⟩, none⟩

set_option maxRecDepth 100000 in
theorem records_eq_of_head_eq_twoSegments : letI := Crates.byLength
    ∃ log log' effects effects', oneSegment.files ≠ twoSegments.files ∧
      recoverDurable [] oneSegment true = .ok (log, none, effects) ∧
      recoverDurable [] twoSegments true = .ok (log', none, effects') ∧ log.head = log'.head ∧
      oneSegment.recordStrings = twoSegments.recordStrings := by
  have hfiles : letI := Crates.byLength; oneSegment.files ≠ twoSegments.files := by decide +kernel
  have hc : letI := Crates.byLength
      Collisionless (hashInputs (encodeChain .zero twoRecords) ++ hashInputs (encodeChain .zero twoRecords)) := by
    decide +kernel
  have hwf : ∀ r ∈ twoRecords, r.WellFormed := by decide +kernel
  let _ := Crates.byLength
  have hchain : Chained .zero [encodeChain .zero twoRecords].flatten twoRecords := by
    simpa using chained_encodeChain hwf .zero
  have hchain' : Chained .zero ((encodeChain .zero twoRecords).map fun b => [b]).flatten twoRecords := by
    exact chained_encodeChain hwf .zero
  have hj := recoverDurable_of_chained [] true (show oneSegment.files = _ from rfl) hchain
  have hs := recoverDurable_of_chained [] true (show twoSegments.files = _ from rfl) hchain'
  refine ⟨_, _, _, _, hfiles, hj, hs, rfl, (records_eq_of_head_eq hj hs ?_ rfl).1⟩
  exact hc

end BunnyMesh
