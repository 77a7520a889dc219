import IronInstance.Enroll
import IronInstance.Hex
import IronInstance.Manage

/-!
# Members by text and by bytes

The handshake and `/enroll` compare hex text, `/manage` decodes it, and the store
compares bytes. The four agree on every manifest string, so whoever can enroll under
an entry can be revoked by quoting it.
-/

namespace IronInstance
open Programs
set_option autoImplicit false

theorem ManageAction.hash_eq_some_iff {action : ManageAction} {quoted : String}
    (hquoted : action.memberHash = some quoted) (h : MemberHash) :
    action.hash = some h ↔ eqIgnoreAsciiCase quoted (hexEncode h.toList) = true := by
  rw [← hexDecode_eq_some_iff, ManageAction.hash, hquoted]
  cases hd : hexDecode quoted with
  | none => simp [hd]
  | some bytes =>
    by_cases hlen : bytes.length = 32
    · simp [hd, hlen, ← Vector.toList_inj]
    · have hne : bytes ≠ h.toList := by
        rintro rfl
        exact hlen (by simp)
      simp [hd, hlen, hne]

theorem Manifest.containsPubkey_iff {M : Manifest} {point : Pubkey} :
    M.containsPubkey point = true ↔ ∃ m ∈ M.members, hexDecode m.pubkey = some point.toList := by
  simp [containsPubkey, hexDecode_eq_some_iff]

/-- `/enroll` accepts the identity under this entry of the manifest. -/
def ManifestMember.Admits (m : ManifestMember) (i : Identity) : Prop :=
  eqIgnoreAsciiCase m.pubkey (hexEncode i.clientPubkey.toList) = true ∧
    eqIgnoreAsciiCase m.hash (hexEncode i.memberHash.toList) = true

theorem exists_admits {P : Primitives} {A : Anchors P} {M : Manifest} {now : UnixTime} {client : Option Pubkey}
    {req : EnrollRequest} {i : Identity} (h : enrollChecks P A M now client req = .ok i) :
    ∃ m ∈ M.members, m.Admits i :=
  Manifest.containsPair_iff.mp (enrollChecks_pair P h).2

/-- What a signed revoke does when its hash is readable. -/
theorem manageHandler_revoke {P : Primitives} {A : Anchors P} {env : ManageEnvelope} {action : ManageAction}
    {hash : MemberHash} (hchecks : manageChecks P A env = .ok action) (haction : action.action = "revoke")
    (hhash : action.hash = some hash) :
    manageHandler P A env = .call (.noteNonce action.nonce) fun fresh =>
      if fresh then .call (.revokeByMemberHash hash) fun revoked => .pure ⟨.ok, .revoked revoked⟩
      else .pure (err .conflict "nonce replay") := by
  have happly : applyAction action = .call (.revokeByMemberHash hash) fun revoked => .pure ⟨.ok, .revoked revoked⟩ := by
    rw [applyAction, if_pos haction, hhash]
    rfl
  rw [manageHandler, hchecks, ← happly]
  exact guardAndApply_eq action

theorem hex_text_and_bytes_agree :
    (∀ s b, eqIgnoreAsciiCase s (hexEncode b) = true ↔ hexDecode s = some b) ∧
    (∀ s, (hexDecode s).isSome = true ↔ (asBytes s).length % 2 = 0 ∧ ∀ c ∈ asBytes s, IsHexDigit c) ∧
    (∀ s, hexDecodeIndexed s ≠ .outOfBounds) ∧
    (∀ (M : Manifest) (point : Pubkey),
      M.containsPubkey point = true ↔ ∃ m ∈ M.members, hexDecode m.pubkey = some point.toList) ∧
    (∀ (P : Primitives) (A : Anchors P) (M : Manifest) now client req i,
      enrollChecks P A M now client req = .ok i → ∃ m ∈ M.members, m.Admits i) ∧
    -- a signed revoke that quotes the hash of a manifest entry in any letter case
    ∀ (P : Primitives) (A : Anchors P) (M : Manifest) (m : ManifestMember) (env : ManageEnvelope)
      (action : ManageAction) (quoted : String), m ∈ M.members → manageChecks P A env = .ok action →
      action.action = "revoke" → action.memberHash = some quoted → eqIgnoreAsciiCase quoted m.hash = true →
      (∀ hash, action.hash = some hash ↔ hexDecode m.hash = some hash.toList) ∧
      ∀ now client req i, enrollChecks P A M now client req = .ok i → m.Admits i → ∀ token,
        manageHandler P A env = .call (.noteNonce action.nonce) fun fresh =>
          if fresh then
            .call (.revokeByMemberHash (i.entry token).memberHash) fun revoked => .pure ⟨.ok, .revoked revoked⟩
          else .pure (err .conflict "nonce replay") := by
  refine ⟨fun s b => (hexDecode_eq_some_iff s b).symm, hexDecode_isSome_iff, hexDecodeIndexed_inBounds,
    fun M point => Manifest.containsPubkey_iff, fun P A M now client req i h => exists_admits h, ?_⟩
  intro P A M m env action quoted _ hchecks haction hquoted hcase
  have htarget : ∀ hash, action.hash = some hash ↔ hexDecode m.hash = some hash.toList := by
    intro hash
    rw [action.hash_eq_some_iff hquoted, hexDecode_eq_some_iff, eqIgnoreAsciiCase_trans hcase]
  refine ⟨htarget, ?_⟩
  intro now client req i _ hadmits token
  apply manageHandler_revoke hchecks haction
  rw [htarget, hexDecode_eq_some_iff]
  exact hadmits.2

end IronInstance
