import IronInstance.State

/-!
# Third-party primitives

What the crate takes from its dependencies (`jsonwebtoken`, `x509-parser`, `sha2`,
`p256`, `serde_json`, Unicode tables) is a parameter of the model: one opaque
function for each call. Calls that read the wall clock take the time as an argument.
-/

namespace IronInstance
set_option autoImplicit false

abbrev UnixTime := Nat

inductive Algorithm where
  | RS256
  | ES256
  | other
  deriving DecidableEq

structure JwtHeader where
  alg : Algorithm
  kid : Option String
  x5c : Option (List String)
  deriving DecidableEq

/-- The fields of `jsonwebtoken::Validation` that the source sets. -/
structure Validation where
  alg : Algorithm
  issuer : Option String
  audience : Option String
  requiredSpecClaims : List String
  leeway : Nat
  validateExp : Bool
  validateAud : Bool
  deriving DecidableEq

def Validation.new (alg : Algorithm) : Validation :=
  { alg := alg, issuer := none, audience := none, requiredSpecClaims := ["exp"], leeway := 60
    validateExp := true, validateAud := true }

/-- The `aud` claim; in an array, `none` stands for an element that is not a string. -/
inductive Audience where
  | string (s : String)
  | array (items : List (Option String))
  | other
  deriving DecidableEq

structure AppleClaims where
  iss : String
  sub : String
  aud : Audience
  exp : Nat
  iat : Nat
  deriving DecidableEq

structure StoreKitPayload where
  bundleId : String
  originalTransactionId : String
  transactionId : String
  productId : String
  appAccountToken : Option String
  deriving DecidableEq

structure BasicConstraints where
  ca : Bool
  pathLenConstraint : Option Nat
  deriving DecidableEq

structure KeyUsage where
  keyCertSign : Bool
  deriving DecidableEq

structure ManageAction where
  action : String
  nonce : String
  memberHash : Option String
  deriving DecidableEq

structure Primitives where
  DecodingKey : Type
  Cert : Type
  Signature : Type
  VerifyingKey : Type
  sha256 : List UInt8 → Vector UInt8 32
  toLowercase : Char → List Char
  decodeHeader : String → Option JwtHeader
  decodeAppleClaims : String → DecodingKey → Validation → UnixTime → Option AppleClaims
  decodeStoreKit : String → DecodingKey → Validation → UnixTime → Option StoreKitPayload
  fromEcDer : List UInt8 → DecodingKey
  fromDer : List UInt8 → Option Cert
  subjectPublicKey : Cert → List UInt8
  verifySignature : Cert → Cert → Bool
  isValid : Cert → UnixTime → Bool
  basicConstraints : Cert → Except Unit (Option BasicConstraints)
  keyUsage : Cert → Except Unit (Option KeyUsage)
  signatureFromSlice : List UInt8 → Option Signature
  verify : VerifyingKey → List UInt8 → Signature → Bool
  parseAction : List UInt8 → Option ManageAction

structure Anchors (P : Primitives) where
  appleJwtKeys : Finmap fun _ : String => P.DecodingKey
  appleIssuer : String
  appleAudience : String
  storekitBundleId : String
  storekitRootSha256 : Vector UInt8 32
  appaccountNamespace : Vector UInt8 16
  orchManagePubkey : P.VerifyingKey

end IronInstance
