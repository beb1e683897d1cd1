import BunnyMesh.Storage.Runs

/-!
# Entries match their policy

In every run the log handles and the policies are of the same namespaces, whatever is held belongs to one of them, and every
entry has the form its policy asks for (`Store.Matched`).  So a write that has appended its record is applied without an
error (`World.Applies`), and an operation changes the log and the memory, or neither.
-/

namespace BunnyMesh

open Std Store
open Runs (Run guarded)

/-! ### Registers hold a version -/

def Slot.Filled (sl : Slot) : Prop := ∀ vs, sl.entry = some (.register vs) → vs ≠ []

theorem Slot.filled_register (vs : List Version) (v : Version) (tomb : Option UInt64) :
    Slot.Filled ⟨some (.register (vs ++ [v])), tomb⟩ := by
  intro vs' h
  cases h
  simp

theorem Slot.filled_lww (v : Version) (tomb : Option UInt64) : Slot.Filled ⟨some (.lww v), tomb⟩ := by
  intro vs h
  cases h

theorem Slot.slotKept_filled : SlotKept fun _ sl => sl.Filled where
  empty _ _ h := nomatch h
  recordOp {op sl} _ h p seq := by
    unfold Slot.recordOp
    split
    · cases p with
      | lww =>
        dsimp only
        split
        · exact Slot.filled_lww _ _
        · exact h
      | crdtRegister => exact Slot.filled_register _ _ _
    · split
      · exact fun _ h => nomatch h
      · exact h
  localOp {op sl} _ h p seq := by
    unfold Slot.localOp
    split
    · cases p with
      | lww => exact Slot.filled_lww _ _
      | crdtRegister => exact Slot.filled_register _ _ _
    · split
      · exact fun _ h => nomatch h
      · exact h

/-! ### Stores that match -/

def Entry.Matches : ConflictPolicy → Entry → Prop
  | .lww, .lww _ => True
  | .crdtRegister, .register vs => vs ≠ []
  | _, _ => False

structure Store.Matched (s : Store) : Prop where
  names : ∀ ns : Bytes, s.logs[ns]? ≠ none ↔ s.policies[ns]? ≠ none
  entries : ∀ (ns key : Bytes) (e : Entry), s.index[(ns, key)]? = some e → ∃ p, s.policies[ns]? = some p ∧ e.Matches p
  tombs : ∀ (ns key : Bytes) (hlc : UInt64), s.tombs[(ns, key)]? = some hlc → s.policies[ns]? ≠ none

theorem Slot.Shaped.matches {p : ConflictPolicy} {sl : Slot} {e : Entry} (h : sl.Shaped p) (hf : sl.Filled)
    (he : sl.entry = some e) : e.Matches p := by
  unfold Slot.Shaped at h
  rw [he] at h
  cases p with
  | lww =>
    cases e with
    | lww v => trivial
    | register vs => exact h
  | crdtRegister =>
    cases e with
    | lww v => exact h
    | register vs => exact hf vs he

section
variable [Crates]
variable {w w' : World} {g : History}

theorem Attached.matched (h : Attached w g) (hf : ∀ n, (w.store.view n).Each fun _ sl => sl.Filled) : w.store.Matched := by
  have houtside : ∀ ns key : Bytes, w.store.policies[ns]? = none → (w.store.view ns).slot key = ⟨none, none⟩ := by
    intro ns key hp
    rw [h.outside ns hp]
    rfl
  refine ⟨fun ns => ?_, fun ns key e he => ?_, fun ns key hlc ht hp => ?_⟩
  · constructor
    · intro hlog hp
      exact hlog (h.noLogs ns hp)
    · intro hp
      obtain ⟨p, hp⟩ := Option.ne_none_iff_exists'.1 hp
      obtain ⟨_, log, _, hlog, _⟩ := h.logs ns p hp
      rw [hlog]
      simp
  · have hentry : ((w.store.view ns).slot key).entry = some e := he
    cases hp : w.store.policies[ns]? with
    | none =>
      rw [houtside ns key hp] at hentry
      cases hentry
    | some p => exact ⟨p, rfl, (h.shaped ns p hp key).matches (hf ns key) hentry⟩
  · have htomb : ((w.store.view ns).slot key).tomb = some hlc := ht
    rw [houtside ns key hp] at htomb
    cases htomb

/-! ### Appended and applied -/

/-- A write to a namespace of the store appends its record and is applied without an error: the log has one record more,
and the namespace is what the write makes of it. -/
def World.Applies (w : World) : Prop :=
  ∀ (ns : Bytes) (p : ConflictPolicy) (c : Change), w.store.policies[ns]? = some p → c.record.WellFormed →
    ∃ n w', logged ns c.record (c.act ns) w = .ok (n + 1) w' ∧ (w.store.head ns).map (·.1) = some n ∧
      (w'.store.head ns).map (·.1) = some (n + 1) ∧ w'.store.view ns = c.effect p (n + 1) (w.store.view ns)

theorem Attached.applies (h : Attached w g) : w.Applies := by
  intro ns p c hp hc
  obtain ⟨w', hrun, hlogged⟩ := logged_spec h hp hc
  obtain ⟨hat, hpol, _, hview, _⟩ := hlogged.spec h
  have hlen : (g.bytes ns).length = (g.records ns).length := h.files.length_records (by rw [hp]; simp)
  refine ⟨(g.records ns).length, w', hrun, ?_, ?_, hview⟩
  · rw [h.head_eq hp, ← hlen]
    rfl
  · rw [hat.head_eq (by rw [hpol, hp]), ← hlen]
    simp [History.log]

/-- In every run the entries match the policies; what is appended is applied, and an operation that fails has done
nothing. -/
theorem entries_match_policy (h : Opened w) {cmds : List Cmd}
    (hrun : Run (guarded (fun w c => c.Valid w.store) Step) w cmds w') :
    w'.store.Matched ∧ w'.Applies ∧ ∀ c : Cmd, c.Valid w'.store →
      (∃ e, c.run w' = .error (.err e) w') ∨ ∃ w'', c.run w' = .ok () w'' := by
  have hstart : EachSlot (fun _ sl => sl.Filled) (w, History.empty) := by
    refine ⟨fun n => ?_, fun n => ?_⟩
    · rw [h.view_empty]
      exact NsState.each_empty Slot.slotKept_filled
    · dsimp only
      exact NsState.each_empty Slot.slotKept_filled
  have hstep : ∀ (w : World) (g : History) (c : Cmd) x', Sound (w, g) →
      EachSlot (fun _ sl => sl.Filled) (w, g) → c.Valid w.store →
      Run Happens (w, g) (c.events w) x' → EachSlot (fun _ sl => sl.Filled) x' := by
    intro w g c x' hs hI _ hevents
    -- along the events of one operation, with the soundness of the store
    have hboth := hevents.invariant (I := fun x => Sound x ∧ EachSlot (fun _ sl => sl.Filled) x)
      (fun x e x' hx he => ⟨he.sound hx.1, he.eachSlot Slot.slotKept_filled hx.1.running hx.1.sized hx.2⟩) ⟨hs, hI⟩
    exact hboth.2
  obtain ⟨g, hsound, hfilled⟩ := run_invariant (fun _ _ => id) hstep hrun h.sound.1 hstart
  have hat := hsound.running.toAttached
  refine ⟨hat.matched hfilled.view, hat.applies, fun c hc => ?_⟩
  rcases Cmd.outcome hsound hc with ⟨_, e, herr⟩ | ⟨w'', _, hok, _⟩
  · exact .inl ⟨e, herr⟩
  · exact .inr ⟨w'', hok⟩

end

set_option maxRecDepth 100000 in
/-- A register that was written. -/
theorem entries_match_policy_put : let _ := Crates.trivial
    ∃ w w' : World, Opened w ∧ w'.store.index[(([97] : Bytes), ([107] : Bytes))]?.isSome ∧ w'.store.Matched := by
  have hfresh : letI := Crates.trivial
      ((freshRun (fun w c => c.Valid w.store) [.createNamespace [97] .crdtRegister,
        .put [97] [107] [118] 1 .zero .zero 0]).map fun w => w.store.index[(([97] : Bytes), ([107] : Bytes))]?.isSome) =
          some true := by decide +kernel
  let _ := Crates.trivial
  obtain ⟨w', hw', hsome⟩ := Option.map_eq_some_iff.1 hfresh
  obtain ⟨w, hopened, hrun⟩ := freshRun_sound hw'
  exact ⟨w, w', hopened, hsome, (entries_match_policy hopened hrun).1⟩

end BunnyMesh
