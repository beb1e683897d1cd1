import BunnyMesh.Server.State
import BunnyMesh.Storage.Meta

/-!
# Issuing and revoking capabilities

`l1_issue_cap` and `l1_revoke`, and the runs of a daemon over restarts.  A revocation is kept in the memory of the
process and as a line of the ledger in the metadata of the store, which reaches the directory with the next snapshot; a
daemon that starts rebuilds its revocations from there.
-/

namespace BunnyMesh

open Std Store
open ByteCodec
open Runs (Run guarded)

/-! ### The handlers -/

def revocationsKey : Bytes := str "sys/revocations"

def capsKey : Bytes := str "sys/caps"

/-- The strings of a body are UTF-8. -/
structure IssueCapBody where
  scope : Bytes
  perms : List Bytes
  expiryMs : Option Nat
  recipient : Option Bytes
  utf8 : isUtf8 scope
deriving DecidableEq

structure RevokeBody where
  scope : Bytes
  recipient : Bytes
  utf8 : isUtf8 scope
deriving DecidableEq

section
variable [AuthCrates]

/-- The principal a capability is issued to: the one named in the body, or the caller. -/
def issueSubject (body : IssueCapBody) (principal : PublicKey) : Option PublicKey :=
  match body.recipient with
  | some hex => PublicKey.parse hex
  | none => some principal

/-- The capability `l1_issue_cap` issues; `nonce` comes from the operating system. -/
def issuedCap (cfg : NodeConfig) (body : IssueCapBody) (nonce : Nat) (principal : PublicKey) : Option Capability :=
  match Scope.parse body.scope with
  | .error _ => none
  | .ok target =>
    if (target.tier = .l2 ∨ target.tier = .l3) ∧ target.host = cfg.hostName then
      match PermSet.parseList body.perms, issueSubject body principal with
      | .ok perms, some subject => some (Capability.signFor target perms body.expiryMs nonce subject cfg.seed)
      | _, _ => none
    else none

def l1IssueCap (cfg : NodeConfig) (caps : Option (List Capability)) (body : IssueCapBody) (nonce nowMs : Nat)
    (d : Daemon) : Reply × Daemon :=
  match authL1L2 cfg d caps (l1Scope cfg) .admin nowMs with
  | .error r => (r, d)
  | .ok principal =>
    match issuedCap cfg body nonce principal with
    | none => (badRequest, d)
    | some cap =>
      (.capability cap, d.metaSet capsKey (extendLedger (d.world.store.metaGet capsKey) cap.toJson))

/-- The revocation in memory, then its line in the ledger. -/
def Daemon.revoke (d : Daemon) (scope : Scope) (principal : PublicKey) : Daemon :=
  let d := { d with
    revocations := d.revocations.revokePrincipal scope (PublicKey.display principal)
    revEpoch := d.revEpoch + 1 }
  d.metaSet revocationsKey
    (extendLedger (d.world.store.metaGet revocationsKey) (revocationLine scope principal))

def l1Revoke (cfg : NodeConfig) (caps : Option (List Capability)) (body : RevokeBody) (nowMs : Nat) (d : Daemon) :
    Reply × Daemon :=
  match authL1L2 cfg d caps (l1Scope cfg) .admin nowMs with
  | .error r => (r, d)
  | .ok _ =>
    match Scope.parse body.scope, PublicKey.parse body.recipient with
    | .ok scope, some principal => (.ok, d.revoke scope principal)
    | _, _ => (badRequest, d)

/-! ### Runs of a daemon -/

def booted (w : World) : Daemon := ⟨w, readLedger (w.store.metaGet revocationsKey), 0⟩

/-- The directories a stop can leave: the one of the store, or what an operation in progress has made of it. -/
def World.Leaves (w : World) (disk : Disk) : Prop :=
  disk = w.disk ∨ ∃ c : Cmd, disk ∈ (Exec.finalState (c.run w)).points.drop w.points.length

inductive DaemonEvent where
  | store (c : Cmd)
  | metaSet (key value : Bytes)
  | issue (caps : Option (List Capability)) (body : IssueCapBody) (nonce nowMs : Nat)
  | revoke (caps : Option (List Capability)) (body : RevokeBody) (nowMs : Nat)
  | restart (disk : Disk) (durable : Bool) (now : UInt64)

/-- What the handlers, the mesh and the timers do to the store, the metadata they keep, the two handlers above, and a
stop, clean or not, with the start that follows. -/
inductive DaemonStep (cfg : NodeConfig) : Daemon → DaemonEvent → Daemon → Prop where
  | store {d : Daemon} {c : Cmd} {w : World} (running : c.isReopen = false) (step : Step d.world c w) :
      DaemonStep cfg d (.store c) { d with world := w }
  | metaSet {d : Daemon} {key : Bytes} (other : key ≠ revocationsKey) (value : Bytes) :
      DaemonStep cfg d (.metaSet key value) (d.metaSet key value)
  | issue {d : Daemon} (caps : Option (List Capability)) (body : IssueCapBody) (nonce nowMs : Nat) :
      DaemonStep cfg d (.issue caps body nonce nowMs) (l1IssueCap cfg caps body nonce nowMs d).2
  | revoke {d : Daemon} (caps : Option (List Capability)) (body : RevokeBody) (nowMs : Nat) :
      DaemonStep cfg d (.revoke caps body nowMs) (l1Revoke cfg caps body nowMs d).2
  | restart {d : Daemon} {disk : Disk} {durable : Bool} {now : UInt64} {w : World} (left : d.world.Leaves disk)
      (start : openDurable durable now ⟨Store.init durable, disk, []⟩ = .ok () w) :
      DaemonStep cfg d (.restart disk durable now) (booted w)

def Daemon.ledger (d : Daemon) : Option Bytes := d.world.store.metaGet revocationsKey

/-- The daemon stops only where the snapshot has the ledger: none was extended since the last checkpoint. -/
def Saved (d : Daemon) : DaemonEvent → Prop
  | .restart disk _ _ => disk.savedMeta revocationsKey = d.ledger
  | _ => True

instance (d : Daemon) (e : DaemonEvent) : Decidable (Saved d e) := by
  cases e <;> delta Saved <;> infer_instance

/-! ### The ledger along a run -/

omit [AuthCrates] in
theorem reserved_revocationsKey : Reserved revocationsKey := reserved_of_second (by decide +kernel)

variable {cfg : NodeConfig} {d d' : Daemon} {e : DaemonEvent}

omit [AuthCrates] in
theorem Daemon.ledger_metaSet_of_ne {key : Bytes} (h : key ≠ revocationsKey) (value : Bytes) :
    (d.metaSet key value).ledger = d.ledger := by
  change (d.world.store.metaMap.insert key value)[revocationsKey]? = d.world.store.metaMap[revocationsKey]?
  rw [OrdMap.getElem?_insert, if_neg h]

omit [AuthCrates] in
theorem Daemon.ledger_revoke (scope : Scope) (principal : PublicKey) :
    (d.revoke scope principal).ledger = some (extendLedger d.ledger (revocationLine scope principal)) := by
  change (d.world.store.metaMap.insert revocationsKey _)[revocationsKey]? = _
  rw [OrdMap.getElem?_insert, if_pos rfl]
  rfl

theorem l1Revoke_cases (cfg : NodeConfig) (d : Daemon) (caps : Option (List Capability)) (body : RevokeBody) (nowMs : Nat) :
    ((l1Revoke cfg caps body nowMs d).1 ≠ .ok ∧ (l1Revoke cfg caps body nowMs d).2 = d) ∨
    ∃ scope principal, Scope.parse body.scope = .ok scope ∧ PublicKey.parse body.recipient = some principal ∧
      l1Revoke cfg caps body nowMs d = (.ok, d.revoke scope principal) := by
  unfold l1Revoke
  split
  · rename_i r hauth
    obtain ⟨status, err, rfl⟩ := authL1L2_error hauth
    exact .inl ⟨nofun, rfl⟩
  · split
    · rename_i scope principal hscope hprincipal
      exact .inr ⟨scope, principal, hscope, hprincipal, rfl⟩
    · exact .inl ⟨nofun, rfl⟩

theorem l1IssueCap_state (cfg : NodeConfig) (d : Daemon) (caps : Option (List Capability)) (body : IssueCapBody) (nonce nowMs : Nat) :
    (l1IssueCap cfg caps body nonce nowMs d).2 = d ∨
    ∃ value, (l1IssueCap cfg caps body nonce nowMs d).2 = d.metaSet capsKey value := by
  unfold l1IssueCap
  split
  · exact .inl rfl
  · split
    · exact .inl rfl
    · exact .inr ⟨_, rfl⟩

theorem DaemonStep.cases_ledger (hsaved : Saved d e) (hstep : DaemonStep cfg d e d') :
    (d'.ledger = d.ledger ∧ (d'.revocations = d.revocations ∨ d'.revocations = readLedger d.ledger)) ∨
    ∃ scope principal, isUtf8 scope.toUrl ∧ d' = d.revoke scope principal := by
  cases hstep with
  | store running step =>
    refine .inl ⟨?_, .inl rfl⟩
    have hmeta := always_metaAt_run reserved_revocationsKey running d.world rfl
    cases step with
    | ok run => rw [run] at hmeta; exact hmeta
    | failed run => rw [run] at hmeta; exact hmeta
  | metaSet other value => exact .inl ⟨Daemon.ledger_metaSet_of_ne other value, .inl rfl⟩
  | issue caps body nonce nowMs =>
    rcases l1IssueCap_state cfg d caps body nonce nowMs with h | ⟨value, h⟩
    · rw [h]
      exact .inl ⟨rfl, .inl rfl⟩
    · rw [h]
      exact .inl ⟨Daemon.ledger_metaSet_of_ne (by decide +kernel) value, .inl rfl⟩
  | revoke caps body nowMs =>
    rcases l1Revoke_cases cfg d caps body nowMs with ⟨_, h⟩ | ⟨scope, principal, hscope, _, h⟩
    · rw [h]
      exact .inl ⟨rfl, .inl rfl⟩
    · rw [h]
      refine .inr ⟨scope, principal, ?_, rfl⟩
      rw [Scope.toUrl_of_parse hscope]
      exact body.utf8
  | restart left start =>
    have hmeta := metaAt_of_open reserved_revocationsKey start
    have hledger : (booted _).ledger = d.ledger := Eq.trans hmeta hsaved
    refine .inl ⟨hledger, .inr ?_⟩
    rw [← hledger]
    rfl

/-- The revocation of `principal` is in memory, and its line in the ledger. -/
structure Daemon.Recorded (scope : Scope) (principal : PublicKey) (d : Daemon) : Prop where
  text : LedgerText d.ledger
  line : HasLine d.ledger (revocationLine scope principal)
  revoked : (scope.toUrl, PublicKey.display principal) ∈ d.revocations.byPrincipal

variable {scope : Scope}

omit [AuthCrates] in
theorem Daemon.text_revoke (h : LedgerText d.ledger) (hscope : isUtf8 scope.toUrl) (principal : PublicKey) :
    LedgerText (d.revoke scope principal).ledger := by
  rw [Daemon.ledger_revoke]
  exact h.extend (isUtf8_revocationLine hscope principal)

theorem text_step (h : LedgerText d.ledger) (hstep : guarded Saved (DaemonStep cfg) d e d') : LedgerText d'.ledger := by
  rcases hstep.2.cases_ledger hstep.1 with ⟨hledger, _⟩ | ⟨scope, principal, hscope, rfl⟩
  · rw [hledger]
    exact h
  · exact Daemon.text_revoke h hscope principal

omit [AuthCrates] in
theorem Daemon.recorded_revoke (h : LedgerText d.ledger) (hscope : isUtf8 scope.toUrl)
    (principal : PublicKey) : (d.revoke scope principal).Recorded scope principal := by
  refine ⟨Daemon.text_revoke h hscope principal, ?_, Finset.mem_insert_self ..⟩
  rw [Daemon.ledger_revoke]
  exact h.hasLine_extend _

theorem Daemon.Recorded.step {principal : PublicKey} (h : d.Recorded scope principal)
    (hparse : Scope.parse scope.toUrl = .ok scope) (htab : tab ∉ scope.toUrl) (hnl : newline ∉ scope.toUrl)
    (hstep : guarded Saved (DaemonStep cfg) d e d') : d'.Recorded scope principal := by
  have htext := text_step h.text hstep
  rcases hstep.2.cases_ledger hstep.1 with ⟨hledger, hrevs⟩ | ⟨scope', principal', _, rfl⟩
  · refine ⟨htext, by rw [hledger]; exact h.line, ?_⟩
    rcases hrevs with hrevs | hrevs
    · rw [hrevs]
      exact h.revoked
    · rw [hrevs]
      exact mem_readLedger h.text h.line hparse htab hnl
  · refine ⟨htext, ?_, Finset.mem_insert_of_mem h.revoked⟩
    rw [Daemon.ledger_revoke]
    exact h.line.extend h.text _

theorem Capability.verify_of_revoked {cap : Capability} {revocations : RevocationSet}
    (h : (cap.scope.toUrl, PublicKey.display cap.subject) ∈ revocations.byPrincipal) (keyring : RootKeyring)
    (principal : PublicKey) (nowMs : Nat) : cap.verify keyring principal revocations nowMs ≠ .ok () := by
  unfold Capability.verify
  cases cap.checkSig keyring with
  | error e => exact nofun
  | ok u =>
    cases hsubject : cap.checkSubject principal nowMs with
    | error e => exact nofun
    | ok u =>
      have hrevoked : cap.checkRevoked principal revocations = .error .revoked := by
        rw [← subject_of_checkSubject hsubject]
        refine if_pos ?_
        rw [RevocationSet.isRevoked, decide_eq_true h, Bool.true_or]
      rw [hrevoked]
      exact nofun

/-! ### Acknowledged revocations -/

theorem Opened.ledger {w : World} (h : Opened w) : (booted w).ledger = none := by
  obtain ⟨s, points, durable, now, hopen⟩ := h
  exact metaAt_of_open reserved_revocationsKey hopen

/-- After `l1_revoke` has returned ok for the scope and the subject of a capability, it does not verify any more, through
every restart, as long as its scope has no tab and no newline and the daemon stops only where the snapshot has the
ledger. -/
theorem acknowledged_revocation_permanent {w₀ : World} {d₁ d₂ d₃ : Daemon} {before after : List DaemonEvent}
    (hopened : Opened w₀) (hbefore : Run (guarded Saved (DaemonStep cfg)) (booted w₀) before d₁)
    {caps : Option (List Capability)} {body : RevokeBody} {nowMs : Nat}
    (hrevoke : l1Revoke cfg caps body nowMs d₁ = (.ok, d₂))
    (hafter : Run (guarded Saved (DaemonStep cfg)) d₂ after d₃)
    {cap : Capability} (hscope : Scope.parse body.scope = .ok cap.scope)
    (hsubject : PublicKey.parse body.recipient = some cap.subject) (htab : tab ∉ cap.scope.toUrl)
    (hnl : newline ∉ cap.scope.toUrl) (principal : PublicKey) (now : Nat) :
    cap.verify cfg.keyring principal d₃.revocations now ≠ .ok () := by
  have htext : LedgerText d₁.ledger := by
    refine hbefore.invariant (I := fun d => LedgerText d.ledger) (fun _ _ _ => text_step) ?_
    rw [hopened.ledger]
    exact ⟨isUtf8_of_ascii nofun, .inl rfl⟩
  have hurl := Scope.toUrl_of_parse hscope
  have hrecorded : d₂.Recorded cap.scope cap.subject := by
    rcases l1Revoke_cases cfg d₁ caps body nowMs with ⟨hne, _⟩ | ⟨scope, subject, hscope', hsubject', h⟩
    · rw [hrevoke] at hne
      exact absurd rfl hne
    · rw [hscope] at hscope'
      rw [hsubject] at hsubject'
      cases hscope'
      cases hsubject'
      rw [hrevoke] at h
      cases h
      exact Daemon.recorded_revoke htext (by rw [hurl]; exact body.utf8) cap.subject
  have hparse : Scope.parse cap.scope.toUrl = .ok cap.scope := by
    rw [hurl]
    exact hscope
  have hend := hafter.invariant (I := Daemon.Recorded cap.scope cap.subject)
    (fun _ _ _ h hstep => h.step hparse htab hnl hstep) hrecorded
  exact Capability.verify_of_revoked hend.revoked cfg.keyring principal now

def Daemon.checkpointed (d : Daemon) : Option Daemon :=
  (Exec.okState (checkpoint d.world)).map fun w => { d with world := w }

/-- A stop between two operations, and the start on the directory it leaves. -/
def Daemon.restarted (d : Daemon) : Option Daemon :=
  (Exec.okState (openDurable false 0 ⟨Store.init false, d.world.disk, []⟩)).map booted

theorem step_checkpointed (h : d.checkpointed = some d') : DaemonStep cfg d (.store .checkpoint) d' := by
  obtain ⟨w, hw, rfl⟩ := Option.map_eq_some_iff.1 h
  exact .store rfl (.ok (Exec.okState_eq_some.1 hw))

theorem step_restarted (h : d.restarted = some d') : DaemonStep cfg d (.restart d.world.disk false 0) d' := by
  obtain ⟨w, hw, rfl⟩ := Option.map_eq_some_iff.1 h
  exact .restart (.inl rfl) (Exec.okState_eq_some.1 hw)

def freshDaemon : Option Daemon :=
  (Exec.okState (openDurable false 0 ⟨Store.init false, Disk.empty, []⟩)).map booted

theorem opened_of_freshDaemon (h : freshDaemon = some d) : ∃ w0, Opened w0 ∧ booted w0 = d := by
  obtain ⟨w, hw, rfl⟩ := Option.map_eq_some_iff.1 h
  exact ⟨w, ⟨_, _, _, _, Exec.okState_eq_some.1 hw⟩, rfl⟩

end

/-! ### Examples -/

def hostNode : NodeConfig := ⟨⟨.zero, []⟩, .zero, str "h", 0⟩

def hostAdmin : Capability := ⟨l1Scope hostNode, .admin, none, 0, .zero, .zero, .zero⟩

/-- A scope without a prefix, and one with a tab in its prefix. -/
def plainScope : Scope := ⟨str "h", .l2, str "n", none⟩

def tabbedScope : Scope := ⟨str "h", .l2, str "n", some [97, 9, 98]⟩

theorem utf8_examples : isUtf8 plainScope.toUrl ∧ isUtf8 tabbedScope.toUrl := by decide +kernel

def issuedFor (scope : Scope) : Capability := ⟨scope, .read, none, 1, .zero, .zero, .zero⟩

def issueBody (scope : Scope) (h : isUtf8 scope.toUrl) : IssueCapBody := ⟨scope.toUrl, [str "read"], none, none, h⟩

def revokeBody (scope : Scope) (h : isUtf8 scope.toUrl) : RevokeBody := ⟨scope.toUrl, PublicKey.display .zero, h⟩

section
variable [AuthCrates]

def issueFor (scope : Scope) (h : isUtf8 scope.toUrl) (d : Daemon) : Reply × Daemon :=
  l1IssueCap hostNode (some [hostAdmin]) (issueBody scope h) 1 5 d

def revokeFor (scope : Scope) (h : isUtf8 scope.toUrl) (d : Daemon) : Reply × Daemon :=
  l1Revoke hostNode (some [hostAdmin]) (revokeBody scope h) 5 d

/-- A capability is issued, its revocation is acknowledged, and after the events `es` and a restart it verifies. -/
def Forgets (scope : Scope) (h : isUtf8 scope.toUrl) (es : List DaemonEvent) : Prop :=
  ∃ w₀ d₁ d₂ d₃ disk, Opened w₀ ∧ issueFor scope h (booted w₀) = (.capability (issuedFor scope), d₁) ∧
    revokeFor scope h d₁ = (.ok, d₂) ∧ Run (DaemonStep hostNode) d₂ (es ++ [.restart disk false 0]) d₃ ∧
    (issuedFor scope).verify hostNode.keyring .zero d₃.revocations 5 = .ok ()

end

set_option maxRecDepth 100000 in
/-- A crash before the next checkpoint forgets the revocation, and a tab in the scope forgets it even behind one. -/
theorem acknowledged_revocation_lost : letI := AuthCrates.trivial
    Forgets plainScope utf8_examples.1 [] ∧ Forgets tabbedScope utf8_examples.2 [.store .checkpoint] := by
  have hcrash : letI := AuthCrates.trivial
      freshDaemon.any fun d₀ =>
        decide ((issueFor plainScope utf8_examples.1 d₀).1 = .capability (issuedFor plainScope)) &&
        decide ((revokeFor plainScope utf8_examples.1 (issueFor plainScope utf8_examples.1 d₀).2).1 = .ok) &&
        (revokeFor plainScope utf8_examples.1 (issueFor plainScope utf8_examples.1 d₀).2).2.restarted.any fun d₃ =>
          ((issuedFor plainScope).verify hostNode.keyring .zero d₃.revocations 5).toBool := by
    decide +kernel
  have htab : letI := AuthCrates.trivial
      freshDaemon.any fun d₀ =>
        decide ((issueFor tabbedScope utf8_examples.2 d₀).1 = .capability (issuedFor tabbedScope)) &&
        decide ((revokeFor tabbedScope utf8_examples.2 (issueFor tabbedScope utf8_examples.2 d₀).2).1 = .ok) &&
        (revokeFor tabbedScope utf8_examples.2 (issueFor tabbedScope utf8_examples.2 d₀).2).2.checkpointed.any fun d₃ =>
          d₃.restarted.any fun d₄ => ((issuedFor tabbedScope).verify hostNode.keyring .zero d₄.revocations 5).toBool := by
    decide +kernel
  let _ := AuthCrates.trivial
  simp only [Option.any_eq_true, Bool.and_eq_true, decide_eq_true_eq, Capability.toBool_eq_true] at hcrash htab
  constructor
  · obtain ⟨d₀, hfresh, ⟨hissue, hrevoke⟩, d₃, hrestart, hverify⟩ := hcrash
    obtain ⟨w₀, hopened, rfl⟩ := opened_of_freshDaemon hfresh
    exact ⟨w₀, _, _, d₃, _, hopened, Prod.ext hissue rfl, Prod.ext hrevoke rfl, .single (step_restarted hrestart), hverify⟩
  · obtain ⟨d₀, hfresh, ⟨hissue, hrevoke⟩, d₃, hcheck, d₄, hrestart, hverify⟩ := htab
    obtain ⟨w₀, hopened, rfl⟩ := opened_of_freshDaemon hfresh
    exact ⟨w₀, _, _, d₄, _, hopened, Prod.ext hissue rfl, Prod.ext hrevoke rfl,
      .cons (step_checkpointed hcheck) (.single (step_restarted hrestart)), hverify⟩

set_option maxRecDepth 100000 in
/-- Behind a checkpoint, the revocation of a plain scope survives a restart. -/
theorem acknowledged_revocation_permanent_checkpoint : letI := AuthCrates.trivial
    ∃ w₀ d₁ d₂ d₃ d₄, Opened w₀ ∧ issueFor plainScope utf8_examples.1 (booted w₀) = (.capability (issuedFor plainScope), d₁) ∧
      revokeFor plainScope utf8_examples.1 d₁ = (.ok, d₂) ∧ d₂.checkpointed = some d₃ ∧ d₃.restarted = some d₄ ∧
      (issuedFor plainScope).verify hostNode.keyring .zero d₄.revocations 5 ≠ .ok () := by
  have hrun : letI := AuthCrates.trivial
      freshDaemon.any fun d₀ =>
        decide ((issueFor plainScope utf8_examples.1 d₀).1 = .capability (issuedFor plainScope)) &&
        decide ((revokeFor plainScope utf8_examples.1 (issueFor plainScope utf8_examples.1 d₀).2).1 = .ok) &&
        (revokeFor plainScope utf8_examples.1 (issueFor plainScope utf8_examples.1 d₀).2).2.checkpointed.any fun d₃ =>
          d₃.restarted.isSome && decide (d₃.world.disk.savedMeta revocationsKey = d₃.ledger) := by
    decide +kernel
  have hscope : letI := AuthCrates.trivial
      Scope.parse (revokeBody plainScope utf8_examples.1).scope = .ok (issuedFor plainScope).scope := by
    decide +kernel
  let _ := AuthCrates.trivial
  simp only [Option.any_eq_true, Bool.and_eq_true, decide_eq_true_eq, Option.isSome_iff_exists] at hrun
  obtain ⟨d₀, hfresh, ⟨hissue, hrevoke⟩, d₃, hcheck, ⟨d₄, hrestart⟩, hsaved⟩ := hrun
  obtain ⟨w₀, hopened, rfl⟩ := opened_of_freshDaemon hfresh
  refine ⟨w₀, _, _, d₃, d₄, hopened, Prod.ext hissue rfl, Prod.ext hrevoke rfl, hcheck, hrestart, ?_⟩
  have hbefore : Run (guarded Saved (DaemonStep hostNode)) (booted w₀)
      [.issue (some [hostAdmin]) (issueBody plainScope utf8_examples.1) 1 5]
      (issueFor plainScope utf8_examples.1 (booted w₀)).2 := .single ⟨trivial, .issue ..⟩
  have hafter : Run (guarded Saved (DaemonStep hostNode))
      (revokeFor plainScope utf8_examples.1 (issueFor plainScope utf8_examples.1 (booted w₀)).2).2
      [.store .checkpoint, .restart d₃.world.disk false 0] d₄ :=
    .cons ⟨trivial, step_checkpointed hcheck⟩ (.single ⟨hsaved, step_restarted hrestart⟩)
  exact acknowledged_revocation_permanent hopened hbefore (Prod.ext hrevoke rfl) hafter hscope
    (PublicKey.parse_display _) (by decide +kernel) (by decide +kernel) _ _

end BunnyMesh
