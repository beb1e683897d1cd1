import BunnyMesh.Fs.Mount

/-!
# Open files of the mount

A handle that is open for writing has a buffer.  Whatever the calls on other handles are, the buffer goes through the edits
that the calls on its own make to a file, gaps filled with zeros, and its first `flush` commits it unless it is as it was.
-/

namespace BunnyMesh

namespace Fs

/-- What a call changes of an open file: `write` at an offset, or the size by `setattr`. -/
inductive Edit where
  | write (offset : Nat) (data : Bytes)
  | resize (size : Nat)

structure Handle where
  data : Bytes
  dirty : Bool
  append : Bool

def Handle.opened (value : Bytes) (trunc append : Bool) : Handle := ⟨if trunc then [] else value, trunc, append⟩

/-- Copy `bytes` in at `off`; a buffer that is too short is filled up with zeros first. -/
def writeAt (data : Bytes) (off : Nat) (bytes : Bytes) : Bytes :=
  let data := if off + bytes.length > data.length then Handler.resized data (off + bytes.length) else data
  data.take off ++ bytes ++ data.drop (off + bytes.length)

def Handle.edit (h : Handle) : Edit → Handle
  | .write offset bytes =>
    { h with data := writeAt h.data (if h.append then h.data.length else offset) bytes, dirty := true }
  | .resize size =>
    if size = h.data.length then h else { h with data := Handler.resized h.data size, dirty := true }

/-- `bufs` and `next_fh`; 2 ^ 64 handles are out of reach. -/
structure Handles where
  bufs : Nat → Option Handle
  next : Nat

/-- The calls that touch the table.  `open` for writing finds `value` in the store and has the flags `O_TRUNC`, `O_APPEND`;
`create` is one that finds nothing, without flags.  `flush` is given what `path_of` says. -/
inductive Call where
  | openFile (value : Bytes) (trunc append : Bool)
  | edit (fh : Nat) (e : Edit)
  | flush (fh : Nat) (path : Option Bytes)
  | release (fh : Nat)

/-- A call, and what it commits. -/
def Handles.step (s : Handles) : Call → Handles × Option (Bytes × Bytes)
  | .openFile value trunc append =>
    (⟨Function.update s.bufs s.next (some (.opened value trunc append)), s.next + 1⟩, none)
  | .edit fh e => ({ s with bufs := Function.update s.bufs fh ((s.bufs fh).map (·.edit e)) }, none)
  | .flush _ none => (s, none)
  | .flush fh (some path) => ({ s with bufs := Function.update s.bufs fh none },
      (s.bufs fh).bind fun h => if h.dirty then some (path, h.data) else none)
  | .release fh => ({ s with bufs := Function.update s.bufs fh none }, none)

def Handles.run (s : Handles) (calls : List Call) : Handles := calls.foldl (fun s c => (s.step c).1) s

/-! ### Files -/

/-- A file as its size and its bytes, zero behind the end. -/
@[ext]
structure Image where
  size : Nat
  byte : Nat → UInt8

namespace Image

def of (data : Bytes) : Image := ⟨data.length, fun i => data.getD i 0⟩

def edit (append : Bool) (f : Image) : Edit → Image
  | .write offset bytes =>
    let off := if append then f.size else offset
    ⟨max f.size (off + bytes.length),
      fun i => if off ≤ i ∧ i < off + bytes.length then bytes.getD (i - off) 0 else f.byte i⟩
  | .resize size => ⟨size, fun i => if i < size then f.byte i else 0⟩

theorem of_resized (data : Bytes) (size : Nat) (append : Bool) :
    of (Handler.resized data size) = (of data).edit append (.resize size) := by
  refine Image.ext (by simp [of, edit, Handler.resized]; omega) (funext fun i => ?_)
  simp only [of, edit, Handler.resized, List.getD_eq_getElem?_getD]
  grind

/-- Edits of a buffer are edits of the file. -/
theorem of_edit (h : Handle) (e : Edit) : of (h.edit e).data = (of h.data).edit h.append e := by
  cases e with
  | resize size =>
    rw [Handle.edit]
    split_ifs with hsize
    · simp [of, edit, hsize]
      grind
    · exact of_resized ..
  | write offset bytes =>
    simp only [Handle.edit, writeAt]
    generalize hoff : (if h.append then h.data.length else offset) = off
    have hgrown : (if off + bytes.length > h.data.length then Handler.resized h.data (off + bytes.length) else h.data) =
        Handler.resized h.data (max h.data.length (off + bytes.length)) := by
      split_ifs with hlen
      · rw [max_eq_right hlen.le]
      · simp [Handler.resized, max_eq_left (not_lt.1 hlen)]
    rw [hgrown]
    refine Image.ext (by simp [of, edit, Handler.resized, hoff]; omega) (funext fun i => ?_)
    simp only [of, edit, hoff, Handler.resized, List.getD_eq_getElem?_getD, List.getElem?_append, List.getElem?_take,
      List.getElem?_drop, List.length_append, List.length_take, List.length_replicate, List.getElem?_replicate]
    grind

end Image

/-! ### Runs -/

/-- The call takes the buffer away from the handle. -/
def Call.ends (fh : Nat) : Call → Bool
  | .flush fh' (some _) | .release fh' => fh == fh'
  | _ => false

def Call.edits (fh : Nat) : Call → List Edit
  | .edit fh' e => if fh = fh' then [e] else []
  | _ => []

/-- The buffer goes through the edits, and is as it was if it is not marked. -/
theorem Handle.foldl_edit (edits : List Edit) (h : Handle) :
    Image.of (edits.foldl edit h).data = edits.foldl (Image.edit h.append) (Image.of h.data) ∧
      ((edits.foldl edit h).dirty = false → edits.foldl edit h = h) := by
  induction edits generalizing h with
  | nil => exact ⟨rfl, fun _ => rfl⟩
  | cons e edits ih =>
    have happend : (h.edit e).append = h.append := by cases e <;> grind [edit]
    obtain ⟨himage, hclean⟩ := ih (h.edit e)
    refine ⟨by rw [List.foldl_cons, himage, happend, Image.of_edit, List.foldl_cons], fun hdirty => ?_⟩
    have hrest := hclean hdirty
    rw [List.foldl_cons, hrest] at hdirty ⊢
    cases e <;> grind [edit]

namespace Handles

variable {s : Handles} {fh : Nat}

/-- A call changes the buffer of an older handle only if it is about it. -/
theorem bufs_step (hfh : fh < s.next) (c : Call) : fh < (s.step c).1.next ∧ (s.step c).1.bufs fh =
    if c.ends fh then none else (s.bufs fh).map ((c.edits fh).foldl Handle.edit ·) := by
  rcases c with _ | ⟨fh', _⟩ | ⟨_, _ | _⟩ | _
  case openFile => simp [step, Call.ends, Call.edits, hfh.ne, Nat.lt_succ_of_lt hfh]
  case edit => by_cases heq : fh = fh' <;> simp_all [step, Call.ends, Call.edits]
  all_goals simp [step, Call.ends, Call.edits, hfh, Function.update_apply]

theorem bufs_run (calls : List Call) (hfh : fh < s.next) : fh < (s.run calls).next ∧ (s.run calls).bufs fh =
    if calls.any (Call.ends fh) then none else (s.bufs fh).map ((calls.flatMap (Call.edits fh)).foldl Handle.edit ·) := by
  induction calls generalizing s with
  | nil => simp [run, hfh]
  | cons c calls ih =>
    obtain ⟨hnext, hbuf⟩ := bufs_step hfh c
    have hrun : s.run (c :: calls) = (s.step c).1.run calls := rfl
    rw [hrun, (ih hnext).2, hbuf]
    refine ⟨(ih hnext).1, ?_⟩
    by_cases hends : c.ends fh <;> simp [hends, Function.comp_def]

theorem flush_none (hnone : s.bufs fh = none) (path : Option Bytes) : (s.step (.flush fh path)).2 = none := by
  cases path <;> simp [step, hnone]

end Handles

/-- After an `open` for writing and whatever calls follow it, `flush` commits the file that was found with the edits made
through the handle, or nothing if these left it as it was; then, or after `release`, there is nothing more to commit. -/
theorem handle_commits_once (s : Handles) (value : Bytes) (trunc append : Bool) (calls after : List Call) (path : Bytes) :
    let fh := s.next
    let before := calls.takeWhile fun c => !c.ends fh
    let t := (s.step (.openFile value trunc append)).1.run before
    let file := (before.flatMap (Call.edits fh)).foldl (Image.edit append) (Image.of (if trunc then [] else value))
    ((∃ data, (t.step (.flush fh (some path))).2 = some (path, data) ∧ Image.of data = file) ∨
      (t.step (.flush fh (some path))).2 = none ∧ trunc = false ∧ file = Image.of value) ∧
    ∀ c : Call, c.ends fh → ∀ path', (((t.step c).1.run after).step (.flush fh path')).2 = none := by
  intro fh before t file
  have hbefore : before.any (Call.ends fh) = false := by
    simpa only [List.all_eq_not_any_not, Bool.not_not, Bool.not_eq_true'] using
      List.all_takeWhile (p := fun c => !c.ends fh) (l := calls)
  have hopen : fh < (s.step (.openFile value trunc append)).1.next := Nat.lt_succ_self _
  obtain ⟨hnext, hbuf⟩ := Handles.bufs_run before hopen
  have hown : (s.step (.openFile value trunc append)).1.bufs fh = some (.opened value trunc append) :=
    Function.update_self ..
  obtain ⟨himage, hclean⟩ := Handle.foldl_edit (before.flatMap (Call.edits fh)) (.opened value trunc append)
  rw [hbefore, if_neg Bool.false_ne_true, hown, Option.map_some] at hbuf
  refine ⟨?_, fun c hc path' => ?_⟩
  · have hcommit : (t.step (.flush fh (some path))).2 = (t.bufs fh).bind _ := rfl
    rw [hcommit, hbuf, Option.bind_some]
    split_ifs with hdirty
    · exact .inl ⟨_, rfl, himage⟩
    · have hsame := hclean (by simpa using hdirty)
      rw [hsame] at himage hdirty
      have htrunc : trunc = false := by simpa [Handle.opened] using hdirty
      exact .inr ⟨rfl, htrunc, himage.symm.trans (by simp [Handle.opened, htrunc])⟩
  · obtain ⟨hnext', hgone⟩ := Handles.bufs_step hnext c
    rw [if_pos hc] at hgone
    exact Handles.flush_none (by simp [(Handles.bufs_run after hnext').2, hgone, t]) path'

end Fs
end BunnyMesh
