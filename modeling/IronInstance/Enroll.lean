import IronInstance.Credentials
import IronInstance.Effects
import IronInstance.Manifest
import IronInstance.Uuid

/-!
# POST /enroll

The checks up to the manifest match are a pure function of the request; what
follows them mints a bearer and inserts it, one random read and one lock section.
-/

namespace IronInstance
open Programs
set_option autoImplicit false

structure EnrollRequest where
  appleIdentityJwt : String
  storekitJws : String
  deriving DecidableEq

/-- What `/enroll` has established when it gets to minting a bearer. -/
structure Identity where
  clientPubkey : Pubkey
  memberHash : MemberHash
  originalTxId : String
  deriving DecidableEq

variable (P : Primitives)

def appAccountTokenMatches (A : Anchors P) (claims : AppleClaims) (tx : StoreKitPayload) : Bool :=
  match tx.appAccountToken with
  | some got => uuidEq P.toLowercase (uuidV5 A.appaccountNamespace (asBytes claims.sub)) got
  | none => false

def memberHashOf (claims : AppleClaims) (tx : StoreKitPayload) : MemberHash :=
  P.sha256 (asBytes claims.sub ++ asBytes tx.originalTransactionId)

/-- The decision chain of the handler, up to and including the manifest match. -/
def enrollChecks (A : Anchors P) (M : Manifest) (now : UnixTime) (client : Option Pubkey)
    (req : EnrollRequest) : Except Response Identity :=
  match client with
  | none => .error (err .forbidden "no client certificate")
  | some clientPubkey =>
    match verifyAppleJwt P now req.appleIdentityJwt A.appleJwtKeys A.appleIssuer A.appleAudience with
    | none => .error (err .unauthorized "apple jwt invalid")
    | some claims =>
      match verifyStorekitJws P now req.storekitJws A.storekitRootSha256 A.storekitBundleId with
      | none => .error (err .unauthorized "storekit jws invalid")
      | some tx =>
        if !appAccountTokenMatches P A claims tx then
          .error (err .forbidden "appAccountToken mismatch")
        else if !M.containsPair clientPubkey (memberHashOf P claims tx) then
          .error (err .forbidden "not in cohort manifest")
        else .ok ⟨clientPubkey, memberHashOf P claims tx, tx.originalTransactionId⟩

def Identity.entry (i : Identity) (sessionToken : String) : MemberEntry :=
  { clientPubkey := i.clientPubkey
    memberHash := i.memberHash
    sessionToken := sessionToken
    originalTxId := i.originalTxId }

def issueBearer (i : Identity) : Handler Response := do
  let random ← Handler.random32
  let sessionToken := b64urlNopad random.toList
  if !(← Handler.insert (i.entry sessionToken)) then
    return err .tooManyRequests "device cap reached"
  return ⟨.ok, .sessionToken sessionToken⟩

def bearerResponse (sessionToken : String) (inserted : Bool) : Response :=
  if inserted then ⟨.ok, .sessionToken sessionToken⟩ else err .tooManyRequests "device cap reached"

theorem issueBearer_eq (i : Identity) :
    issueBearer i = .call .random32 fun random =>
      .call (.insert (i.entry (b64urlNopad random.toList))) fun inserted =>
        .pure (bearerResponse (b64urlNopad random.toList) inserted) := by
  unfold issueBearer Handler.random32 Handler.insert
  simp only [Prog.call_bind, Prog.pure_bind]
  congr 1
  funext random
  congr 1
  funext inserted
  cases inserted <;> rfl

def enrollHandler (A : Anchors P) (M : Manifest) (now : UnixTime) (client : Option Pubkey)
    (req : EnrollRequest) : Handler Response :=
  match enrollChecks P A M now client req with
  | .error r => pure r
  | .ok i => issueBearer i

/-- The checks pass exactly when the pubkey is present, both credentials verify,
the account token is derived from `sub`, and the pair is in the manifest. -/
theorem enrollChecks_eq_ok {A : Anchors P} {M : Manifest} {now : UnixTime} {client : Option Pubkey}
    {req : EnrollRequest} {i : Identity} :
    enrollChecks P A M now client req = .ok i ↔
      ∃ pk claims tx, client = some pk ∧
        verifyAppleJwt P now req.appleIdentityJwt A.appleJwtKeys A.appleIssuer A.appleAudience = some claims ∧
        verifyStorekitJws P now req.storekitJws A.storekitRootSha256 A.storekitBundleId = some tx ∧
        appAccountTokenMatches P A claims tx = true ∧
        M.containsPair pk (memberHashOf P claims tx) = true ∧
        i = ⟨pk, memberHashOf P claims tx, tx.originalTransactionId⟩ := by
  unfold enrollChecks
  cases client with
  | none => simp
  | some pk =>
    cases verifyAppleJwt P now req.appleIdentityJwt A.appleJwtKeys A.appleIssuer A.appleAudience with
    | none => simp
    | some claims =>
      cases verifyStorekitJws P now req.storekitJws A.storekitRootSha256 A.storekitBundleId with
      | none => simp
      | some tx =>
        constructor
        · intro h
          simp only at h
          split at h
          · cases h
          · rename_i ha
            split at h
            · cases h
            · rename_i hm
              exact ⟨pk, claims, tx, rfl, rfl, rfl, by simpa using ha, by simpa using hm,
                (Except.ok.inj h).symm⟩
        · rintro ⟨pk', claims', tx', hpk, hclaims, htx, ha, hm, rfl⟩
          cases hpk
          cases hclaims
          cases htx
          simp [ha, hm]

theorem enrollChecks_pair {A : Anchors P} {M : Manifest} {now : UnixTime} {client : Option Pubkey}
    {req : EnrollRequest} {i : Identity} (h : enrollChecks P A M now client req = .ok i) :
    client = some i.clientPubkey ∧ M.containsPair i.clientPubkey i.memberHash = true := by
  obtain ⟨pk, claims, tx, hc, -, -, -, hm, rfl⟩ := (enrollChecks_eq_ok P).mp h
  exact ⟨hc, hm⟩

theorem appAccountTokenMatches_iff {A : Anchors P} {claims : AppleClaims} {tx : StoreKitPayload} :
    appAccountTokenMatches P A claims tx = true ↔ ∃ got, tx.appAccountToken = some got ∧
      uuidEq P.toLowercase (uuidV5 A.appaccountNamespace (asBytes claims.sub)) got = true := by
  unfold appAccountTokenMatches
  cases tx.appAccountToken <;> simp

theorem enrollChecks_passes_iff {A : Anchors P} {M : Manifest} {now : UnixTime} {client : Option Pubkey}
    {req : EnrollRequest} :
    (∃ i, enrollChecks P A M now client req = .ok i) ↔ ∃ pk claims tx got, client = some pk ∧
      verifyAppleJwt P now req.appleIdentityJwt A.appleJwtKeys A.appleIssuer A.appleAudience = some claims ∧
      verifyStorekitJws P now req.storekitJws A.storekitRootSha256 A.storekitBundleId = some tx ∧
      tx.appAccountToken = some got ∧
      uuidEq P.toLowercase (uuidV5 A.appaccountNamespace (asBytes claims.sub)) got = true ∧
      M.containsPair pk (memberHashOf P claims tx) = true := by
  constructor
  · rintro ⟨i, hok⟩
    obtain ⟨pk, claims, tx, hclient, hjwt, hjws, hmatch, hpair, -⟩ := (enrollChecks_eq_ok P).mp hok
    obtain ⟨got, hgot, huuid⟩ := (appAccountTokenMatches_iff P).mp hmatch
    exact ⟨pk, claims, tx, got, hclient, hjwt, hjws, hgot, huuid, hpair⟩
  · rintro ⟨pk, claims, tx, got, hclient, hjwt, hjws, hgot, huuid, hpair⟩
    exact ⟨_, (enrollChecks_eq_ok P).mpr ⟨pk, claims, tx, hclient, hjwt, hjws,
      (appAccountTokenMatches_iff P).mpr ⟨got, hgot, huuid⟩, hpair, rfl⟩⟩

theorem enrollChecks_error_status {A : Anchors P} {M : Manifest} {now : UnixTime} {client : Option Pubkey}
    {req : EnrollRequest} {r : Response} (h : enrollChecks P A M now client req = .error r) :
    r.status = .unauthorized ∨ r.status = .forbidden := by
  unfold enrollChecks at h
  repeat' split at h
  all_goals cases h
  all_goals simp [err]

/-! ## Synthetic credentials

A pair of tokens that verifies, in the manner of the integration tests: the two
digests are the SHA-256 values of the bytes they are taken of. -/

namespace Synthetic

def sub : String := "apple-sub-000111"

def originalTx : String := "2000000055500001"

/-- SHA-256 of `sub || originalTx`. -/
def memberHash : MemberHash :=
  #v[158, 38, 44, 88, 80, 242, 82, 66, 217, 178, 221, 172, 18, 64, 130, 235,
    137, 12, 1, 37, 106, 153, 110, 220, 141, 195, 144, 114, 106, 137, 69, 0]

/-- SHA-256 of the one-byte root certificate `B`. -/
def rootSha256 : Vector UInt8 32 :=
  #v[223, 126, 112, 229, 2, 21, 68, 244, 131, 75, 190, 230, 74, 158, 55, 137,
    254, 188, 75, 232, 20, 112, 223, 98, 156, 173, 109, 219, 3, 50, 10, 92]

def appaccountNamespace : Vector UInt8 16 :=
  #v[0xda, 0xfb, 0x6e, 0x23, 0x9c, 0x4d, 0x5d, 0x27, 0xaa, 0x05, 0x3f, 0x6c, 0x2e, 0x9e, 0x7b, 0x14]

def claims : AppleClaims :=
  ⟨"https://appleid.apple.com", sub, .string "com.rayeeev.IronServer", 2000000000, 1900000000⟩

def payload : StoreKitPayload :=
  ⟨"com.rayeeev.IronServer", originalTx, originalTx, "com.rayeeev.IronServer.slot.v1",
    some (uuidV5 appaccountNamespace (asBytes sub))⟩

def primitives : Primitives where
  DecodingKey := Unit
  Cert := List UInt8
  Signature := List UInt8
  VerifyingKey := Unit
  sha256 bytes := if bytes = asBytes sub ++ asBytes originalTx then memberHash else rootSha256
  toLowercase c := [c.toLower]
  decodeHeader token :=
    if token = "apple.jwt" then some ⟨.RS256, some "test-apple-kid", none⟩
    else if token = "storekit.jws" then some ⟨.ES256, none, some ["QQ==", "Qg=="]⟩
    else none
  decodeAppleClaims token _ _ now := if token = "apple.jwt" ∧ now ≤ claims.exp then some claims else none
  decodeStoreKit token _ _ _ := if token = "storekit.jws" then some payload else none
  fromEcDer _ := ()
  fromDer der := some der
  subjectPublicKey cert := cert
  verifySignature _ _ := true
  isValid _ _ := true
  basicConstraints _ := .ok (some ⟨true, none⟩)
  keyUsage _ := .ok none
  signatureFromSlice bytes := some bytes
  verify _ _ signature := signature == [1]
  parseAction _ := some ⟨"revoke", "nonce-1", some (hexEncode memberHash.toList)⟩

def anchors : Anchors primitives where
  appleJwtKeys := (∅ : Finmap fun _ : String => Unit).insert "test-apple-kid" ()
  appleIssuer := "https://appleid.apple.com"
  appleAudience := "com.rayeeev.IronServer"
  storekitBundleId := "com.rayeeev.IronServer"
  storekitRootSha256 := rootSha256
  appaccountNamespace := appaccountNamespace
  orchManagePubkey := ()

def request : EnrollRequest := ⟨"apple.jwt", "storekit.jws"⟩

def now : UnixTime := 1950000000

def pubkey : Pubkey := Vector.replicate 65 4

def manifest : Manifest := ⟨"cohort", [⟨hexEncode pubkey.toList, hexEncode memberHash.toList⟩]⟩

theorem verifyAppleJwt_eq : verifyAppleJwt primitives now request.appleIdentityJwt anchors.appleJwtKeys
    anchors.appleIssuer anchors.appleAudience = some claims := by
  decide +kernel

theorem verifyStorekitJws_eq : verifyStorekitJws primitives now request.storekitJws
    anchors.storekitRootSha256 anchors.storekitBundleId = some payload := by
  decide +kernel

theorem memberHashOf_eq : memberHashOf primitives claims payload = memberHash := by
  simp [memberHashOf, primitives, claims, payload]

theorem checks_eq {M : Manifest} {pk : Pubkey} (h : M.containsPair pk memberHash = true) :
    enrollChecks primitives anchors M now (some pk) request = .ok ⟨pk, memberHash, originalTx⟩ := by
  refine (enrollChecks_eq_ok primitives).mpr ⟨pk, claims, payload, rfl, verifyAppleJwt_eq,
    verifyStorekitJws_eq, ?_, by rwa [memberHashOf_eq], by rw [memberHashOf_eq]; rfl⟩
  simp [appAccountTokenMatches, uuidEq, payload, claims, anchors]

end Synthetic

end IronInstance
