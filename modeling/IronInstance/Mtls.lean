import IronInstance.Manifest
import IronInstance.Primitives

/-!
# The mTLS gate

The verifier admits a leaf whose P-256 point is in the cohort manifest; after the
handshake the acceptor reads the point of the same leaf again and attaches it to
every request of the connection.
-/

namespace IronInstance
set_option autoImplicit false

variable (P : Primitives)

/-- The uncompressed X9.63 point of a leaf, `0x04 || X || Y`. -/
def clientPointFromCert (der : List UInt8) : Option Pubkey := do
  let cert ← P.fromDer der
  let point := P.subjectPublicKey cert
  if h : point.length = 65 then
    if point.head? ≠ some 0x04 then none else some ⟨point.toArray, by simpa using h⟩
  else none

inductive TlsError where
  | general (msg : String)
  deriving DecidableEq

def verifyClientCert (M : Manifest) (endEntity : List UInt8) : Except TlsError Unit :=
  match clientPointFromCert P endEntity with
  | none => .error (.general "client leaf is not a P-256 X9.63 key")
  | some point =>
    if !M.containsPubkey point then .error (.general "client pubkey not in cohort manifest") else .ok ()

/-- `MtlsAcceptor::accept` after the handshake: the point of the first peer certificate. -/
def acceptedPubkey (peerCertificates : List (List UInt8)) : Option Pubkey := do
  let leaf ← peerCertificates.head?
  clientPointFromCert P leaf

theorem acceptedPubkey_of_verified {M : Manifest} {leaf : List UInt8} {rest : List (List UInt8)}
    (h : verifyClientCert P M leaf = .ok ()) :
    ∃ pk, acceptedPubkey P (leaf :: rest) = some pk ∧ M.containsPubkey pk = true := by
  unfold verifyClientCert at h
  cases hp : clientPointFromCert P leaf with
  | none =>
    rw [hp] at h
    cases h
  | some pk =>
    rw [hp] at h
    refine ⟨pk, by simp [acceptedPubkey, hp], ?_⟩
    by_contra hm
    simp [hm] at h

end IronInstance
