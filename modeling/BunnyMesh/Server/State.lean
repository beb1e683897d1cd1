import BunnyMesh.Auth.Authorize
import BunnyMesh.Auth.Ledger
import BunnyMesh.Storage.Runs

/-!
# The server

The state behind the HTTP handlers, what they answer, and the authorization they start with (`server/mod.rs`).  A
handler is a function of the state; the wall clock, the body and the capabilities of the request are its arguments.  The
cache of `authorize_cached` is left out here: a call answers as without it.
-/

namespace BunnyMesh

/-- The parts of `AppState` that do not change: the root keys, the seed of the host key, the name of the host and the
default quota. -/
structure NodeConfig where
  keyring : RootKeyring
  seed : Bytes32
  hostName : Bytes
  defaultQuota : Nat
deriving DecidableEq

/-- The parts that do: the store on its directory and the revocations with their epoch. -/
structure Daemon where
  world : World
  revocations : RevocationSet
  revEpoch : Nat

/-- What a handler answers; `aborted` where it panics. -/
inductive Reply where
  | error (status : Nat) (error : Bytes)
  | ok
  | capability (cap : Capability)
  | value (v : Bytes)
  | entries (rows : List (Bytes × Bytes × UInt64))
  | versions (key : Bytes) (vs : List Version)
  | written (seq : Nat) (expiresAt : UInt64)
  | defined (seq : Nat)
  | aborted
deriving DecidableEq

def badRequest : Reply := .error 400 (str "bad_request")

def unauthorized : Reply := .error 401 (str "invalid_capability")

def authToResponse : AuthError → Reply
  | .quotaExceeded _ _ => .error 409 (str "quota_exceeded")
  | _ => .error 403 (str "forbidden")

section
variable [AuthCrates]

def NodeConfig.root (cfg : NodeConfig) : PublicKey := AuthCrates.verifyingKey cfg.seed

/-- The principal is the subject of the first capability presented. -/
def authL1L2 (cfg : NodeConfig) (d : Daemon) (caps : Option (List Capability)) (scope : Scope) (perms : PermSet)
    (nowMs : Nat) : Except Reply PublicKey :=
  match caps with
  | none | some [] => .error unauthorized
  | some (cap :: rest) =>
    match authorize ⟨scope, cap.subject, perms, cap :: rest, cfg.hostName, nowMs⟩ cfg.keyring d.revocations with
    | .ok () => .ok cap.subject
    | .error e => .error (authToResponse e)

theorem authL1L2_error {cfg : NodeConfig} {d : Daemon} {caps : Option (List Capability)} {scope : Scope} {perms : PermSet}
    {nowMs : Nat} {r : Reply} (h : authL1L2 cfg d caps scope perms nowMs = .error r) : ∃ status e, r = .error status e := by
  unfold authL1L2 at h
  split at h
  · cases h
    exact ⟨_, _, rfl⟩
  · cases h
    exact ⟨_, _, rfl⟩
  · split at h
    · cases h
    · rename_i err _
      cases h
      cases err <;> exact ⟨_, _, rfl⟩

end

def l1Scope (cfg : NodeConfig) : Scope := ⟨cfg.hostName, .l1, str "*", none⟩

def Daemon.metaSet (d : Daemon) (key value : Bytes) : Daemon :=
  { d with world := { d.world with store := d.world.store.metaSet key value } }

end BunnyMesh
