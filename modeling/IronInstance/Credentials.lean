import IronInstance.Codec
import IronInstance.Primitives

/-!
# The two enroll credentials

`verify_apple_jwt` and `verify_storekit_jws`, with every check in the order of the
source. Both collapse every failure to one error, here `none`.
-/

namespace IronInstance
set_option autoImplicit false

variable (P : Primitives)

def audContains (aud : Audience) (needle : String) : Bool :=
  match aud with
  | .string s => s == needle
  | .array items => items.any fun v => v == some needle
  | .other => false

def appleValidation (issuer audience : String) : Validation :=
  { Validation.new .RS256 with
    issuer := some issuer
    audience := some audience
    requiredSpecClaims := ["iss", "aud", "exp", "iat", "sub"]
    leeway := 60 }

def verifyAppleJwt (now : UnixTime) (token : String) (keys : Finmap fun _ : String => P.DecodingKey)
    (issuer audience : String) : Option AppleClaims := do
  let header ← P.decodeHeader token
  if header.alg ≠ .RS256 then none
  let kid ← header.kid
  let key ← keys.lookup kid
  let claims ← P.decodeAppleClaims token key (appleValidation issuer audience) now
  if claims.iss ≠ issuer then none
  if !audContains claims.aud audience then none
  if (asBytes claims.sub).length = 0 ∨ 255 < (asBytes claims.sub).length then none
  some claims

def verifyLinks : List P.Cert → Bool
  | c :: issuer :: rest => P.verifySignature c issuer && verifyLinks (issuer :: rest)
  | _ => true

def checkCert (now : UnixTime) (depth : Nat) (cert : P.Cert) : Bool :=
  if !P.isValid cert now then false
  else
    match depth with
    | 0 => true -- the leaf is the end-entity signer, not an issuer
    | intermediatesBelow + 1 =>
      match P.basicConstraints cert with
      | .error _ => false
      | .ok none => false
      | .ok (some bc) =>
        if !bc.ca then false
        else if bc.pathLenConstraint.any fun max => decide (max < intermediatesBelow) then false
        else
          -- only a successful read with a value is looked at
          match P.keyUsage cert with
          | .ok (some ku) => ku.keyCertSign
          | _ => true

def checkPath (now : UnixTime) (depth : Nat) : List P.Cert → Bool
  | [] => true
  | cert :: rest => checkCert P now depth cert && checkPath now (depth + 1) rest

def storekitValidation : Validation :=
  { Validation.new .ES256 with
    requiredSpecClaims := []
    validateExp := false
    validateAud := false }

def verifyStorekitJws (now : UnixTime) (jws : String) (rootSha256 : Vector UInt8 32)
    (expectedBundleId : String) : Option StoreKitPayload := do
  let header ← P.decodeHeader jws
  if header.alg ≠ .ES256 then none
  let x5c ← header.x5c
  if x5c.length < 2 ∨ 5 < x5c.length then none
  let ders ← x5c.mapM b64DecodeAny
  let last ← ders.getLast?
  if P.sha256 last ≠ rootSha256 then none
  let parsed ← ders.mapM P.fromDer
  if !verifyLinks P parsed then none
  if !checkPath P now 0 parsed then none
  let leaf ← parsed.head?
  let leafKey := P.fromEcDer (P.subjectPublicKey leaf)
  let payload ← P.decodeStoreKit jws leafKey storekitValidation now
  if payload.bundleId ≠ expectedBundleId ∨ payload.originalTransactionId = "" ∨
      payload.transactionId = "" ∨ payload.productId = "" then none
  some payload

end IronInstance
