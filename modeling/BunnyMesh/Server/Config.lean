import BunnyMesh.Auth.Caps
import BunnyMesh.Lib.Path
import BunnyMesh.Net.Pinned
import Mathlib.Data.List.Pairwise

/-!
# The configuration file

`server/config.rs`: a node loads its configuration at the start, and saves it whenever a peer is added, removed or pinned.
`load` takes `data_dir` relative to the directory of the file, and `save` writes what `load` made of it, so a file is
stable under rounds of both only where the second `load` has nothing to do (`config_rounds_iff`).  `load` refuses two peers
with one pin; it and `add_peer_scoped` compare pins as texts, `persist_pin` does not compare them at all
(`one_name_iff`).
-/

namespace BunnyMesh

open ByteCodec (isUtf8 fromUtf8Lossy)

/-! ### The file -/

structure Ratelimit where
  enabled : Bool
  maxRequests : Nat
  windowSecs : Nat
deriving DecidableEq

structure Tls where
  certPath : Bytes
  keyPath : Bytes
deriving DecidableEq

structure L3 where
  defaultQuota : Nat
deriving DecidableEq

structure Config.Node where
  name : Bytes
  dataDir : Bytes
  listen : Bytes
  p2pListen : Bytes
  workerThreads : Nat
  meshSync : Bool
  syncIntervalSecs : Nat
  durableWrites : Bool
  gcIntervalSecs : Nat
  ratelimit : Ratelimit
  tls : Option Tls
  l3 : L3
deriving DecidableEq

structure Config where
  node : Config.Node
  peers : List Peer
deriving DecidableEq

/-- What is taken from `toml`, over the texts of files: `from_str` with its error, and `to_string`.  A configuration comes
back from its text, and the strings of a parsed one are UTF-8. -/
class Toml (Text : Type) where
  fromStr : Text → Except Bytes Config
  toStr : Config → Text
  fromStr_toStr : ∀ c, isUtf8 c.node.dataDir → fromStr (toStr c) = .ok c
  isUtf8_dataDir : ∀ text c, fromStr text = .ok c → isUtf8 c.node.dataDir

namespace Config

def peer (c : Config) (name : Bytes) : Option Peer := c.peers.find? (·.name == name)

/-- `data_dir` relative to the directory of the file. -/
def normalize (path : Bytes) (c : Config) : Config :=
  match UnixPath.parent path with
  | some parent =>
    if UnixPath.isAbsolute c.node.dataDir then c
    else { c with node := { c.node with dataDir := fromUtf8Lossy (UnixPath.join parent c.node.dataDir) } }
  | none => c

section

variable [AuthCrates]

/-- Refuse two peers with the same pin; `seen` has the names of the peers so far by their pins. -/
def checkPins : List Peer → BMap Bytes Bytes → Except Bytes Unit
  | [], _ => .ok ()
  | p :: ps, seen =>
    if p.pin.isEmpty then checkPins ps seen
    else match seen[p.pin]? with
      | some other => .error (str "duplicate peer pin: peers " ++ AuthCrates.debugStr p.name ++ str " and " ++
          AuthCrates.debugStr other ++ str " share key " ++ AuthCrates.debugStr p.pin ++
          str "; a peer identity must be unique")
      | none => checkPins ps (seen.insert p.pin p.name)

variable {Text : Type} [Toml Text]

/-- `Config::load`; `file` is what reading the file at `path` gives. -/
def load (path : Bytes) (file : Except Bytes Text) : Except Bytes Config :=
  match file with
  | .error e => .error (str "read config " ++ AuthCrates.debugStr path ++ str ": " ++ e)
  | .ok text =>
    match Toml.fromStr text with
    | .error e => .error (str "parse config " ++ AuthCrates.debugStr path ++ str ": " ++ e)
    | .ok cfg =>
      match checkPins cfg.peers ∅ with
      | .error e => .error e
      | .ok () => .ok (cfg.normalize path)

def save (c : Config) : Text := Toml.toStr c

variable [Libp2p]

def addPeerScoped (c : Config) (name addr pin : Bytes) (namespaces : Option (List Bytes)) : Except Bytes Config :=
  if (c.peer name).isSome then .error (str "peer " ++ AuthCrates.debugStr name ++ str " already exists")
  else if (Libp2p.parseAddr addr).isNone then .error (str "invalid peer addr " ++ AuthCrates.debugStr addr)
  else if !pin.isEmpty && (parseKey pin).isNone then
    .error (str "invalid pin: expected the peer's 64-hex-digit host public key")
  else
    match if pin.isEmpty then none else c.peers.find? (·.pin == pin) with
    | some p => .error (str "duplicate peer identity: pin already used by peer " ++ AuthCrates.debugStr p.name)
    | none => .ok { c with peers := c.peers ++ [⟨name, addr, pin, namespaces⟩] }

end

def removePeer (c : Config) (name : Bytes) : Config × Bool :=
  let keep := c.peers.filter (·.name != name)
  ({ c with peers := keep }, keep.length != c.peers.length)

def persistPin (c : Config) (name : Bytes) (pk : Bytes32) : Config :=
  { c with peers := setPin name (showKey pk) c.peers }

end Config

/-! ### Rounds of loading and saving -/

namespace Config

theorem peers_normalize (path : Bytes) (c : Config) : (c.normalize path).peers = c.peers := by
  unfold normalize
  split
  · split <;> rfl
  · rfl

theorem isUtf8_normalize {path : Bytes} {c : Config} (h : isUtf8 c.node.dataDir) :
    isUtf8 (c.normalize path).node.dataDir := by
  unfold normalize
  split
  · split
    · exact h
    · exact ByteCodec.isUtf8_fromUtf8Lossy _
  · exact h

/-- A second `load` has nothing to do: the data directory of the file is absolute, or its own directory is, or the file is
named without a directory. -/
def Settled (path dataDir : Bytes) : Prop :=
  UnixPath.isAbsolute dataDir ∨ ∀ parent, UnixPath.parent path = some parent → parent = [] ∨ UnixPath.isAbsolute parent

instance (path dataDir : Bytes) : Decidable (Settled path dataDir) :=
  decidable_of_iff (UnixPath.isAbsolute dataDir ∨
    ∀ parent ∈ UnixPath.parent path, parent = [] ∨ UnixPath.isAbsolute parent) Iff.rfl

theorem normalize_normalize_iff {path : Bytes} {c : Config} (h : isUtf8 c.node.dataDir) :
    (c.normalize path).normalize path = c.normalize path ↔ Settled path c.node.dataDir := by
  have hstays : ∀ d : Config, UnixPath.isAbsolute d.node.dataDir → d.normalize path = d := by
    intro d hd
    unfold normalize
    split
    · rw [if_pos hd]
    · rfl
  by_cases habs : UnixPath.isAbsolute c.node.dataDir
  · rw [hstays c habs, hstays c habs]
    exact ⟨fun _ => .inl habs, fun _ => rfl⟩
  rw [Bool.not_eq_true] at habs
  cases hparent : UnixPath.parent path with
  | none =>
    refine ⟨fun _ => .inr ?_, fun _ => ?_⟩
    · rw [hparent]
      nofun
    · simp [normalize, hparent]
  | some parent =>
    have hnorm : ∀ d : Config, UnixPath.isAbsolute d.node.dataDir = false → (d.normalize path).node.dataDir =
        fromUtf8Lossy (UnixPath.join parent d.node.dataDir) := by
      intro d hd
      simp [normalize, hparent, hd]
    have hsettled : Settled path c.node.dataDir ↔ parent = [] ∨ UnixPath.isAbsolute parent := by
      simp [Settled, habs, hparent]
    rw [hsettled]
    rcases eq_or_ne parent [] with rfl | hne
    · -- the empty directory adds nothing to a valid text
      refine ⟨fun _ => .inl rfl, fun _ => ?_⟩
      have hsame : c.normalize path = c := by
        simp [normalize, hparent, habs, UnixPath.join_nil, ByteCodec.fromUtf8Lossy_of_isUtf8 h]
      rw [hsame, hsame]
    · have habs' : UnixPath.isAbsolute (c.normalize path).node.dataDir = UnixPath.isAbsolute parent := by
        rw [hnorm c habs, UnixPath.isAbsolute_fromUtf8Lossy, UnixPath.isAbsolute_join hne habs]
      by_cases hpabs : UnixPath.isAbsolute parent
      · refine ⟨fun _ => .inr hpabs, fun _ => hstays _ ?_⟩
        rw [habs']
        exact hpabs
      · rw [Bool.not_eq_true] at hpabs
        rw [hpabs] at habs'
        refine ⟨fun heq => absurd heq fun heq => ?_, fun h => ?_⟩
        · -- each round makes the data directory longer
          have hlen := ByteCodec.length_le_fromUtf8Lossy (UnixPath.join parent (c.normalize path).node.dataDir)
          have hjoin := @UnixPath.length_join parent _ habs'
          have hpos := List.length_pos_iff.2 hne
          rw [← hnorm _ habs', heq] at hlen
          omega
        · rcases h with h | h
          · exact absurd h hne
          · rw [hpabs] at h
            cases h

section

variable [AuthCrates] {Text : Type} [Toml Text]

theorem load_eq_ok {path : Bytes} {file : Except Bytes Text} {c : Config} : load path file = .ok c ↔
    ∃ text raw, file = .ok text ∧ Toml.fromStr text = .ok raw ∧ checkPins raw.peers ∅ = .ok () ∧ c = raw.normalize path := by
  unfold load
  split
  · simp
  · rename_i text
    cases hraw : Toml.fromStr text with
    | error e => simp [hraw]
    | ok raw =>
      cases hpins : checkPins raw.peers ∅ with
      | error e => simp [hraw, hpins]
      | ok u => simp [hraw, hpins, eq_comm]

theorem load_save {path : Bytes} {c : Config} (hutf : isUtf8 c.node.dataDir) (hpins : checkPins c.peers ∅ = .ok ()) :
    load path (.ok (c.save : Text)) = .ok (c.normalize path) :=
  load_eq_ok.2 ⟨_, c, rfl, Toml.fromStr_toStr c hutf, hpins, rfl⟩

/-- Save the configuration to the file it was loaded from and load it again, `n` times. -/
def rounds (Text : Type) [Toml Text] (path : Bytes) : Nat → Config → Except Bytes Config
  | 0, c => .ok c
  | n + 1, c =>
    match load path (.ok (c.save : Text)) with
    | .ok c => rounds Text path n c
    | .error e => .error e

/-- Rounds of saving and loading leave a loaded configuration as it is, exactly if its data directory is settled. -/
theorem config_rounds_iff {path : Bytes} {text : Text} {raw c : Config} (hraw : Toml.fromStr text = .ok raw)
    (hload : load path (.ok text) = .ok c) :
    (∀ n, rounds Text path n c = .ok c) ↔ Settled path raw.node.dataDir := by
  obtain ⟨text', raw', htext, hraw', hpins, rfl⟩ := load_eq_ok.1 hload
  cases htext
  obtain rfl : raw = raw' := Except.ok.inj (hraw.symm.trans hraw')
  have hutf := Toml.isUtf8_dataDir text raw hraw
  have hpins' : checkPins (raw.normalize path).peers ∅ = .ok () := by
    rw [peers_normalize]
    exact hpins
  have hround : load path (.ok ((raw.normalize path).save : Text)) = .ok ((raw.normalize path).normalize path) :=
    load_save (isUtf8_normalize hutf) hpins'
  rw [← normalize_normalize_iff hutf]
  constructor
  · intro h
    have hone := h 1
    simp only [rounds, hround, Except.ok.injEq] at hone
    exact hone
  · intro h n
    induction n with
    | zero => rfl
    | succ n ih =>
      rw [h] at hround
      simp only [rounds, hround]
      exact ih

end

/-! ### Identities -/

def Apart (p q : Peer) : Prop := ∀ pk, parseKey p.pin = some pk → parseKey q.pin ≠ some pk

def PinsDiffer (p q : Peer) : Prop := p.pin ≠ [] → q.pin ≠ p.pin

theorem Apart.symm {p q : Peer} (h : Apart p q) : Apart q p := fun pk hq hp => h pk hp hq

theorem PinsDiffer.symm {p q : Peer} (h : PinsDiffer p q) : PinsDiffer q p :=
  fun hq he => h (he ▸ hq) he.symm

/-- One identity, one name: no two peers have pins of one key, and the saved configuration is accepted again. -/
structure OneName [AuthCrates] (Text : Type) [Toml Text] (path : Bytes) (c : Config) : Prop where
  apart : c.peers.Pairwise Apart
  accepted : ∃ c', load path (.ok (c.save : Text)) = .ok c'

/-- What can happen to the configuration of a node. -/
inductive Cmd where
  | load
  | addPeer (name addr pin : Bytes) (namespaces : Option (List Bytes))
  | removePeer (name : Bytes)
  | persistPin (name : Bytes) (pk : Bytes32)

section

variable [AuthCrates] [Libp2p]

/-- One step; where it is refused, the configuration stays. -/
def step (Text : Type) [Toml Text] (path : Bytes) (c : Config) : Cmd → Config
  | .load =>
    match load path (.ok (c.save : Text)) with
    | .ok c' => c'
    | .error _ => c
  | .addPeer name addr pin namespaces =>
    match c.addPeerScoped name addr pin namespaces with
    | .ok c' => c'
    | .error _ => c
  | .removePeer name => (c.removePeer name).1
  | .persistPin name pk => c.persistPin name pk

/-- The step gives no key a second name: a peer is added under a key nobody has, unless it is refused, and a key is
pinned to a peer that nobody else has. -/
def KeepsNames (c : Config) : Cmd → Prop
  | .load | .removePeer _ => True
  | .addPeer name addr pin _ => c.peer name = none → Libp2p.parseAddr addr ≠ none → (∀ q ∈ c.peers, q.pin ≠ pin) →
    ∀ pk ∈ parseKey pin, ∀ q ∈ c.peers, parseKey q.pin ≠ some pk
  | .persistPin name pk => c.peer name ≠ none → ∀ q ∈ c.peers.eraseP (·.name == name), parseKey q.pin ≠ some pk

instance (c : Config) (x : Cmd) : Decidable (c.KeepsNames x) := by
  cases x <;> delta Config.KeepsNames <;> infer_instance

def AllKeepNames (Text : Type) [Toml Text] (path : Bytes) : Config → List Cmd → Prop
  | _, [] => True
  | c, x :: xs => c.KeepsNames x ∧ AllKeepNames Text path (c.step Text path x) xs

instance instDecidableAllKeepNames (Text : Type) [Toml Text] (path : Bytes) : ∀ c xs, Decidable (AllKeepNames Text path c xs)
  | _, [] => inferInstanceAs (Decidable True)
  | c, x :: xs =>
    have : Decidable (AllKeepNames Text path (c.step Text path x) xs) := instDecidableAllKeepNames Text path _ xs
    inferInstanceAs (Decidable (c.KeepsNames x ∧ AllKeepNames Text path (c.step Text path x) xs))

end

section

variable [AuthCrates]

theorem checkPins_eq_ok {ps : List Peer} {seen : BMap Bytes Bytes} : checkPins ps seen = .ok () ↔
    (∀ p ∈ ps, p.pin ≠ [] → seen[p.pin]? = none) ∧ ps.Pairwise PinsDiffer := by
  induction ps generalizing seen with
  | nil => simp [checkPins]
  | cons p ps ih =>
    rw [checkPins, List.forall_mem_cons, List.pairwise_cons]
    by_cases hempty : p.pin = []
    · have hdiffer : ∀ q ∈ ps, PinsDiffer p q := fun _ _ h => absurd hempty h
      rw [if_pos (List.isEmpty_iff.2 hempty), ih]
      constructor
      · rintro ⟨hold, hrest⟩
        exact ⟨⟨fun hne => absurd hempty hne, hold⟩, hdiffer, hrest⟩
      · rintro ⟨⟨-, hold⟩, -, hrest⟩
        exact ⟨hold, hrest⟩
    · rw [if_neg (by simpa using hempty)]
      cases hseen : seen[p.pin]? with
      | some other => simp [hempty]
      | none =>
        simp only [ih, OrdMap.getElem?_insert]
        constructor
        · rintro ⟨hnew, hrest⟩
          refine ⟨⟨fun _ => trivial, fun q hq hne => ?_⟩, fun q hq _ he => ?_, hrest⟩
          · have h := hnew q hq hne
            split at h
            · cases h
            · exact h
          · have h := hnew q hq (he ▸ hempty)
            rw [if_pos he.symm] at h
            cases h
        · rintro ⟨⟨-, hold⟩, hdiffer, hrest⟩
          refine ⟨fun q hq hne => ?_, hrest⟩
          rw [if_neg fun he => hdiffer q hq hempty he.symm]
          exact hold q hq hne

variable {Text : Type} [Toml Text] {path : Bytes} {c : Config}

theorem oneName_iff (hutf : isUtf8 c.node.dataDir) :
    OneName Text path c ↔ c.peers.Pairwise Apart ∧ c.peers.Pairwise PinsDiffer := by
  have hchecked : (∃ c', load path (.ok (c.save : Text)) = .ok c') ↔ c.peers.Pairwise PinsDiffer := by
    have hpins : checkPins c.peers ∅ = .ok () ↔ c.peers.Pairwise PinsDiffer := by
      rw [checkPins_eq_ok]
      simp
    rw [← hpins]
    constructor
    · rintro ⟨c', hload⟩
      obtain ⟨text, raw, htext, hraw, hpins, -⟩ := load_eq_ok.1 hload
      cases htext
      rw [save, Toml.fromStr_toStr c hutf] at hraw
      cases hraw
      exact hpins
    · exact fun h => ⟨_, load_save hutf h⟩
  exact ⟨fun h => ⟨h.apart, hchecked.1 h.accepted⟩, fun h => ⟨h.1, hchecked.2 h.2⟩⟩

end

theorem setPin_cases (name pin : Bytes) (ps : List Peer) :
    ((∀ q ∈ ps, q.name ≠ name) ∧ setPin name pin ps = ps) ∨
      ∃ front p back, ps = front ++ p :: back ∧ p.name = name ∧ (∀ q ∈ front, q.name ≠ name) ∧
        setPin name pin ps = front ++ { p with pin := pin } :: back := by
  induction ps with
  | nil => exact .inl ⟨nofun, rfl⟩
  | cons p ps ih =>
    by_cases hname : p.name = name
    · refine .inr ⟨[], p, ps, rfl, hname, nofun, ?_⟩
      rw [setPin, if_pos (by simpa using hname)]
      rfl
    · rw [setPin, if_neg (by simpa using hname)]
      rcases ih with ⟨hnone, heq⟩ | ⟨front, q, back, rfl, hq, hfront, heq⟩
      · exact .inl ⟨List.forall_mem_cons.2 ⟨hname, hnone⟩, by rw [heq]⟩
      · exact .inr ⟨p :: front, q, back, rfl, hq, List.forall_mem_cons.2 ⟨hname, hfront⟩, by rw [heq]; rfl⟩

theorem parseKey_ne_nil {pin : Bytes} {pk : Bytes32} (h : parseKey pin = some pk) : pin ≠ [] := by
  rintro rfl
  exact absurd h (by simp [parseKey, ByteCodec.hexDecode])

section

variable [AuthCrates] [Libp2p] {Text : Type} [Toml Text] {path : Bytes} {c : Config}

omit [AuthCrates] [Libp2p] [Toml Text] in
theorem pairwise_middle_pinned {front back : List Peer} {p : Peer} {pk : Bytes32} (hp : parseKey p.pin = some pk)
    (hapart : (front ++ back).Pairwise Apart) (hdiffer : (front ++ back).Pairwise PinsDiffer) :
    ((front ++ p :: back).Pairwise Apart ∧ (front ++ p :: back).Pairwise PinsDiffer) ↔
      ∀ q ∈ front ++ back, parseKey q.pin ≠ some pk := by
  rw [List.pairwise_middle fun h => h.symm, List.pairwise_middle fun h => h.symm, List.pairwise_cons, List.pairwise_cons]
  constructor
  · rintro ⟨⟨h, -⟩, -⟩ q hq
    exact h q hq pk hp
  · intro h
    refine ⟨⟨fun q hq k hk => ?_, hapart⟩, fun q hq _ he => ?_, hdiffer⟩
    · obtain rfl : pk = k := Option.some.inj (hp.symm.trans hk)
      exact h q hq
    · exact h q hq (he ▸ hp)

theorem addPeerScoped_eq_ok {name addr pin : Bytes} {namespaces : Option (List Bytes)} {c' : Config} :
    c.addPeerScoped name addr pin namespaces = .ok c' ↔ c.peer name = none ∧ Libp2p.parseAddr addr ≠ none ∧
      (pin = [] ∨ (parseKey pin ≠ none ∧ ∀ q ∈ c.peers, q.pin ≠ pin)) ∧
      c' = { c with peers := c.peers ++ [⟨name, addr, pin, namespaces⟩] } := by
  unfold addPeerScoped
  by_cases hname : c.peer name = none
  · rw [if_neg (by simp [hname])]
    by_cases haddr : Libp2p.parseAddr addr = none
    · rw [if_pos (by simp [haddr])]
      simp [haddr]
    rw [if_neg (by simpa using haddr)]
    by_cases hempty : pin = []
    · simp [hempty, hname, haddr, eq_comm]
    by_cases hkey : parseKey pin = none
    · rw [if_pos (by simp [hempty, hkey])]
      simp [hempty, hkey]
    rw [if_neg (by simp [hkey]), if_neg (by simpa using hempty)]
    cases hfind : c.peers.find? (·.pin == pin) with
    | some p =>
      have hp := List.find?_some hfind
      have hmem := List.mem_of_find?_eq_some hfind
      refine ⟨nofun, ?_⟩
      rintro ⟨-, -, hpin | ⟨-, hpin⟩, -⟩
      · exact absurd hpin hempty
      · exact absurd (by simpa using hp) (hpin p hmem)
    | none =>
      have hpin : ∀ q ∈ c.peers, q.pin ≠ pin := by simpa using hfind
      simp only [Except.ok.injEq]
      constructor
      · rintro rfl
        exact ⟨hname, haddr, .inr ⟨hkey, hpin⟩, rfl⟩
      · rintro ⟨-, -, -, rfl⟩
        rfl
  · rw [if_pos (by simpa [Option.isSome_iff_ne_none] using hname)]
    simp [hname]

theorem isUtf8_step (h : isUtf8 c.node.dataDir) (x : Cmd) : isUtf8 (c.step Text path x).node.dataDir := by
  cases x with
  | load =>
    simp only [step]
    split
    · rename_i c' hload
      obtain ⟨text, raw, htext, hraw, -, rfl⟩ := load_eq_ok.1 hload
      exact isUtf8_normalize (Toml.isUtf8_dataDir text raw hraw)
    · exact h
  | addPeer name addr pin namespaces =>
    simp only [step]
    split
    · rename_i c' hadd
      obtain ⟨-, -, -, rfl⟩ := addPeerScoped_eq_ok.1 hadd
      exact h
    · exact h
  | removePeer name => exact h
  | persistPin name pk => exact h

theorem oneName_step_iff (hutf : isUtf8 c.node.dataDir) (h : OneName Text path c) (x : Cmd) :
    OneName Text path (c.step Text path x) ↔ c.KeepsNames x := by
  obtain ⟨hapart, hdiffer⟩ := (oneName_iff hutf).1 h
  cases x with
  | load =>
    obtain ⟨c', hload⟩ := h.accepted
    obtain ⟨text, raw, htext, hraw, -, rfl⟩ := load_eq_ok.1 hload
    cases htext
    rw [save, Toml.fromStr_toStr c hutf] at hraw
    cases hraw
    simp only [step, hload, KeepsNames, iff_true]
    rw [oneName_iff (isUtf8_normalize hutf), peers_normalize]
    exact ⟨hapart, hdiffer⟩
  | addPeer name addr pin namespaces =>
    cases hadd : c.addPeerScoped name addr pin namespaces with
    | error e =>
      simp only [step, hadd, h, KeepsNames, true_iff]
      -- what is refused is refused for another reason
      intro hname haddr hpins pk hpk
      have hok : c.addPeerScoped name addr pin namespaces = .ok _ :=
        addPeerScoped_eq_ok.2 ⟨hname, haddr, .inr ⟨Option.ne_none_iff_exists'.2 ⟨pk, hpk⟩, hpins⟩, rfl⟩
      cases hadd.symm.trans hok
    | ok c' =>
      obtain ⟨hname, haddr, hpin, rfl⟩ := addPeerScoped_eq_ok.1 hadd
      simp only [step, hadd, KeepsNames]
      rw [oneName_iff (by exact hutf)]
      rcases hpin with rfl | ⟨hkey, hpins⟩
      · -- an empty pin is no key
        have hnokey : ∀ pk, parseKey [] ≠ some pk := fun pk hpk => parseKey_ne_nil hpk rfl
        refine ⟨fun _ _ _ _ pk hpk => absurd hpk (hnokey pk), fun _ => ?_⟩
        simp only [List.pairwise_append, List.pairwise_singleton, List.forall_mem_singleton]
        refine ⟨⟨hapart, trivial, fun q hq pk _ => hnokey pk⟩, hdiffer, trivial, fun q hq hne he => hne he.symm⟩
      · obtain ⟨pk, hpk⟩ := Option.ne_none_iff_exists'.1 hkey
        have hmiddle := @pairwise_middle_pinned c.peers [] ⟨name, addr, pin, namespaces⟩ pk hpk
        rw [List.append_nil] at hmiddle
        rw [hmiddle hapart hdiffer]
        constructor
        · intro hnew _ _ _ pk' hpk'
          obtain rfl : pk = pk' := Option.some.inj (hpk.symm.trans hpk')
          exact hnew
        · exact fun hnew => hnew hname haddr hpins pk hpk
  | removePeer name =>
    have hsub : (c.peers.filter (·.name != name)).Sublist c.peers := List.filter_sublist
    simp only [KeepsNames, iff_true]
    exact (oneName_iff (by exact hutf)).2 ⟨List.Pairwise.sublist hsub hapart, List.Pairwise.sublist hsub hdiffer⟩
  | persistPin name pk =>
    simp only [step, persistPin, KeepsNames]
    rw [oneName_iff (by exact hutf)]
    rcases setPin_cases name (showKey pk) c.peers with ⟨hnone, heq⟩ | ⟨front, p, back, hpeers, hp, hfront, heq⟩
    · rw [heq]
      have hmissing : c.peer name = none := List.find?_eq_none.2 fun q hq => by simpa using hnone q hq
      exact ⟨fun _ hname => absurd hmissing hname, fun _ => ⟨hapart, hdiffer⟩⟩
    · have hsub : (front ++ back).Sublist c.peers := by
        rw [hpeers]
        exact (List.sublist_cons_self p back).append_left front
      have hname : c.peer name ≠ none := by
        intro hmissing
        have hp' := List.find?_eq_none.1 hmissing p (by simp [hpeers])
        exact hp' (by simpa using hp)
      have herase : c.peers.eraseP (·.name == name) = front ++ back := by
        rw [hpeers, List.eraseP_append_right _ fun q hq => by simpa using hfront q hq,
          List.eraseP_cons_of_pos (by simpa using hp)]
      have hpinned := @pairwise_middle_pinned front back { p with pin := showKey pk } pk (parseKey_showKey pk)
        (List.Pairwise.sublist hsub hapart) (List.Pairwise.sublist hsub hdiffer)
      rw [heq, hpinned, herase]
      exact ⟨fun hnew _ => hnew, fun hnew => hnew hname⟩

/-- From a configuration with one name for each identity, every state of a run has one exactly if no step gives a key a
second name. -/
theorem oneName_run_iff (hutf : isUtf8 c.node.dataDir) (h : OneName Text path c) (cmds : List Cmd) :
    (∀ done, done <+: cmds → OneName Text path (done.foldl (step Text path) c)) ↔ AllKeepNames Text path c cmds := by
  induction cmds generalizing c with
  | nil =>
    simp only [AllKeepNames, iff_true]
    intro done hdone
    rw [List.prefix_nil.1 hdone]
    exact h
  | cons x cmds ih =>
    have hstep := oneName_step_iff hutf h x
    constructor
    · intro hall
      have hone : OneName Text path (c.step Text path x) := hall [x] (List.prefix_append [x] cmds)
      refine ⟨hstep.1 hone, (ih (isUtf8_step hutf x) hone).1 fun done hdone => ?_⟩
      exact hall (x :: done) (List.cons_prefix_cons.2 ⟨rfl, hdone⟩)
    · rintro ⟨hkeep, hrest⟩ done hdone
      cases done with
      | nil => exact h
      | cons y done =>
        obtain ⟨rfl, hdone'⟩ := List.cons_prefix_cons.1 hdone
        exact (ih (isUtf8_step hutf y) (hstep.2 hkeep)).2 hrest done hdone'

/-- After any steps from a file that is accepted, no two peers have pins of one key and the saved configuration is accepted
again, exactly if the file gives no key two names and no step does. -/
theorem one_name_iff {file : Except Bytes Text} {c₀ : Config} (hload : load path file = .ok c₀) (cmds : List Cmd) :
    (∀ done, done <+: cmds → OneName Text path (done.foldl (step Text path) c₀)) ↔
      c₀.peers.Pairwise Apart ∧ AllKeepNames Text path c₀ cmds := by
  obtain ⟨text, raw, rfl, hraw, hpins, rfl⟩ := load_eq_ok.1 hload
  have hutf := @isUtf8_normalize path raw (Toml.isUtf8_dataDir text raw hraw)
  have hdiffer : (raw.normalize path).peers.Pairwise PinsDiffer := by
    rw [peers_normalize]
    exact (checkPins_eq_ok.1 hpins).2
  constructor
  · intro hall
    have hone : OneName Text path (raw.normalize path) := hall [] List.nil_prefix
    exact ⟨hone.apart, (oneName_run_iff hutf hone cmds).1 hall⟩
  · rintro ⟨hapart, hkeep⟩
    exact (oneName_run_iff hutf ((oneName_iff hutf).2 ⟨hapart, hdiffer⟩) cmds).2 hkeep

end

/-! ### Two files -/

/-- Texts for closed examples: a text is the configuration it stands for. -/
@[reducible] def plainToml : Toml Config where
  fromStr c := if isUtf8 c.node.dataDir then .ok c else .error []
  toStr c := c
  fromStr_toStr c h := by rw [if_pos h]
  isUtf8_dataDir c c' h := by
    split at h
    · cases h
      assumption
    · cases h

def withDir (dataDir : Bytes) (peers : List Peer) : Config :=
  ⟨⟨[], dataDir, [], [], 4, true, 30, false, 0, ⟨true, 600, 60⟩, none, ⟨1073741824⟩⟩, peers⟩

set_option maxRecDepth 100000 in
/-- The file `/c` with the data directory `d`: it is `/d` from the first load on. -/
theorem config_rounds_iff_absolute : letI := AuthCrates.trivial; letI := plainToml
    load [47, 99] (.ok (withDir [100] [])) = .ok (withDir [47, 100] []) ∧
      ∀ n, rounds Config [47, 99] n (withDir [47, 100] []) = .ok (withDir [47, 100] []) := by
  have hload : letI := AuthCrates.trivial; letI := plainToml
      load [47, 99] (.ok (withDir [100] [])) = .ok (withDir [47, 100] []) := by decide +kernel
  have hraw : letI := plainToml
      Toml.fromStr (withDir [100] []) = .ok (withDir [100] []) := by decide +kernel
  have hsettled : Settled [47, 99] (withDir [100] []).node.dataDir := by decide
  let _ := AuthCrates.trivial
  let _ := plainToml
  exact ⟨hload, (config_rounds_iff hraw hload).2 hsettled⟩

set_option maxRecDepth 100000 in
/-- The file `a/c` with the data directory `d`: it is `a/d` after the first load and `a/a/d` after the second. -/
theorem data_dir_moves : letI := AuthCrates.trivial; letI := plainToml
    load [97, 47, 99] (.ok (withDir [100] [])) = .ok (withDir [97, 47, 100] []) ∧
      rounds Config [97, 47, 99] 1 (withDir [97, 47, 100] []) = .ok (withDir [97, 47, 97, 47, 100] []) ∧
      withDir [97, 47, 97, 47, 100] [] ≠ withDir [97, 47, 100] [] := by
  decide +kernel

set_option maxRecDepth 100000 in
/-- A peer is added without a pin and pinned at its first contact, then another is added, and the node starts again. -/
theorem one_name_iff_two_peers : letI := AuthCrates.trivial; letI := Libp2p.trivial; letI := plainToml
    load [47, 99] (.ok (withDir [100] [])) = .ok (withDir [47, 100] []) ∧
      OneName Config [47, 99] ([.addPeer [98] [120] [] none, .persistPin [98] (.fill 7),
        .addPeer [99] [121] (showKey (.fill 8)) none, .load].foldl (step Config [47, 99]) (withDir [47, 100] [])) := by
  have hload : letI := AuthCrates.trivial; letI := plainToml
      load [47, 99] (.ok (withDir [100] [])) = .ok (withDir [47, 100] []) := by decide +kernel
  have hkeep : letI := AuthCrates.trivial; letI := Libp2p.trivial; letI := plainToml
      AllKeepNames Config [47, 99] (withDir [47, 100] []) [.addPeer [98] [120] [] none, .persistPin [98] (.fill 7),
        .addPeer [99] [121] (showKey (.fill 8)) none, .load] := by decide +kernel
  let _ := AuthCrates.trivial
  let _ := Libp2p.trivial
  let _ := plainToml
  exact ⟨hload, (one_name_iff hload _).2 ⟨List.Pairwise.nil, hkeep⟩ _ (List.prefix_refl _)⟩

set_option maxRecDepth 100000 in
/-- The peer `c` is added with the key of the peer `b`, its digits in upper case; and `c` and `d`, added without a pin, are
pinned to one key, after which the file is refused. -/
theorem one_key_two_names : letI := AuthCrates.trivial; letI := Libp2p.trivial; letI := plainToml
    load [47, 99] (.ok (withDir [47] [⟨[98], [120], showKey (.fill 170), none⟩])) =
        .ok (withDir [47] [⟨[98], [120], showKey (.fill 170), none⟩]) ∧
      (step Config [47, 99] (withDir [47] [⟨[98], [120], showKey (.fill 170), none⟩])
        (.addPeer [99] [121] (List.replicate 64 65) none)).peers.map (fun p => (p.name, parseKey p.pin)) =
        [([98], some (.fill 170)), ([99], some (.fill 170))] ∧
      load [47, 99] (.ok (withDir [47] [⟨[99], [120], [], none⟩, ⟨[100], [121], [], none⟩])) =
        .ok (withDir [47] [⟨[99], [120], [], none⟩, ⟨[100], [121], [], none⟩]) ∧
      (load [47, 99] (.ok (save ([.persistPin [99] (.fill 7), .persistPin [100] (.fill 7)].foldl (step Config [47, 99])
        (withDir [47] [⟨[99], [120], [], none⟩, ⟨[100], [121], [], none⟩])) : Config))).isOk = false := by
  decide +kernel

end Config

end BunnyMesh
