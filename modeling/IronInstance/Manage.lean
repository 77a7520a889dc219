import IronInstance.Codec
import IronInstance.Effects
import IronInstance.Primitives

/-!
# POST /manage

The envelope is decoded and verified before the store is touched; then come two
separate lock sections, the replay guard on the nonce and the revoke itself.
-/

namespace IronInstance
open Programs
set_option autoImplicit false

structure ManageEnvelope where
  payload : String
  signature : String
  deriving DecidableEq

variable (P : Primitives)

/-- Decoding, signature and payload; no store access yet. -/
def manageChecks (A : Anchors P) (env : ManageEnvelope) : Except Response ManageAction :=
  match b64DecodeAny env.payload, b64DecodeAny env.signature with
  | some payloadBytes, some sigBytes =>
    match P.signatureFromSlice sigBytes with
    | none => .error (err .unauthorized "malformed signature")
    | some signature =>
      if !P.verify A.orchManagePubkey payloadBytes signature then
        .error (err .unauthorized "signature invalid")
      else
        match P.parseAction payloadBytes with
        | none => .error (err .badRequest "malformed action")
        | some action => .ok action
  | _, _ => .error (err .unauthorized "malformed envelope")

def ManageAction.hash (action : ManageAction) : Option MemberHash := do
  let bytes ← hexDecode (← action.memberHash)
  if h : bytes.length = 32 then some ⟨bytes.toArray, by simpa using h⟩ else none

def applyAction (action : ManageAction) : Handler Response :=
  if action.action = "revoke" then
    match action.hash with
    | none => pure (err .badRequest "revoke requires 32-byte hex member_hash")
    | some hash => do
      let revoked ← Handler.revokeByMemberHash hash
      return ⟨.ok, .revoked revoked⟩
  else pure (err .badRequest "unknown action")

def guardAndApply (action : ManageAction) : Handler Response := do
  if !(← Handler.noteNonce action.nonce) then
    return err .conflict "nonce replay"
  applyAction action

def manageHandler (A : Anchors P) (env : ManageEnvelope) : Handler Response :=
  match manageChecks P A env with
  | .error r => pure r
  | .ok action => guardAndApply action

theorem guardAndApply_eq (action : ManageAction) :
    guardAndApply action = .call (.noteNonce action.nonce) fun fresh =>
      if fresh then applyAction action else .pure (err .conflict "nonce replay") := by
  unfold guardAndApply Handler.noteNonce
  simp only [Prog.call_bind, Prog.pure_bind]
  congr 1
  funext fresh
  cases fresh <;> rfl

/-- A request passes the checks exactly when its decoded signature verifies over
its decoded payload and the payload parses. -/
theorem manageChecks_eq_ok {A : Anchors P} {env : ManageEnvelope} {action : ManageAction} :
    manageChecks P A env = .ok action ↔
      ∃ payloadBytes sigBytes signature, b64DecodeAny env.payload = some payloadBytes ∧
        b64DecodeAny env.signature = some sigBytes ∧ P.signatureFromSlice sigBytes = some signature ∧
        P.verify A.orchManagePubkey payloadBytes signature = true ∧
        P.parseAction payloadBytes = some action := by
  unfold manageChecks
  cases b64DecodeAny env.payload with
  | none => simp
  | some payloadBytes =>
    cases b64DecodeAny env.signature with
    | none => simp
    | some sigBytes =>
      cases hs : P.signatureFromSlice sigBytes with
      | none => simp [hs]
      | some signature =>
        cases hv : P.verify A.orchManagePubkey payloadBytes signature with
        | false => simp [hs, hv]
        | true =>
          cases hp : P.parseAction payloadBytes <;> simp [hs, hv, hp]

end IronInstance
