import IronInstance.State
import IronInstance.Library.Programs

/-!
# What a request handler may do

A handler is a program over `Op`: the lock sections of the store, reads of the
clock and the random source, and the calls that leave the process. Between two
operations of one handler any operation of another may happen.
-/

namespace IronInstance
open Programs
set_option autoImplicit false

inductive StatusCode where
  | ok
  | badRequest
  | unauthorized
  | forbidden
  | conflict
  | tooManyRequests
  | badGateway
  | serviceUnavailable
  | upstream (code : Nat)
  deriving DecidableEq

structure Envelope where
  version : Nat
  cpuVendor : String
  cpuReport : String
  cpuChain : List String
  gpuReports : List String
  gpuChains : List (List String)
  deriving DecidableEq

inductive Body where
  | error (msg : String)
  | sessionToken (token : String)
  | revoked (revoked : Bool)
  | envelope (e : Envelope)
  | stream
  deriving DecidableEq

structure Response where
  status : StatusCode
  body : Body
  deriving DecidableEq

def err (code : StatusCode) (msg : String) : Response := ⟨code, .error msg⟩

/-- One entry of the JSON that the GPU helper prints. -/
structure Gpu where
  report : String
  certChain : List String
  deriving DecidableEq

/-- What `Command::output` hands back: the exit status, and what `serde_json` makes
of the standard output (`none` when it does not parse). -/
structure HelperRun where
  success : Bool
  stdout : Option (List Gpu)
  deriving DecidableEq

inductive BodyEvent where
  | data (bytes : List UInt8)
  | nonData
  | error
  deriving DecidableEq

/-- An upstream answer. The list ends where the body ends normally. -/
structure Upstream where
  status : Nat
  events : List BodyEvent
  deriving DecidableEq

inductive UpstreamFailure where
  | badRequest
  | unavailable
  deriving DecidableEq

/-- What the relay hands to the client. The cut mark is kept apart from a backend
frame that happens to spell the same bytes. -/
inductive Chunk where
  | relayed (bytes : List UInt8)
  | revoked
  deriving DecidableEq

inductive Op where
  | insert (entry : MemberEntry)
  | containsToken (token : String)
  | revokeByMemberHash (hash : MemberHash)
  | noteNonce (nonce : String)
  | instantNow
  | allowAttestation (pubkey : Pubkey) (now : Instant)
  | random32
  | tdxQuote (reportData : List UInt8)
  | gpuHelper (args : List String)
  | upstreamRequest (body : List UInt8)
  | frame
  | send (chunk : Chunk)
  deriving DecidableEq

@[reducible] def Ans : Op → Type
  | .insert _ => Bool
  | .containsToken _ => Bool
  | .revokeByMemberHash _ => Bool
  | .noteNonce _ => Bool
  | .instantNow => Instant
  | .allowAttestation _ _ => Bool
  | .random32 => Vector UInt8 32
  | .tdxQuote _ => Option (List UInt8)
  | .gpuHelper _ => Option HelperRun
  | .upstreamRequest _ => Except UpstreamFailure Upstream
  | .frame => Unit
  | .send _ => Bool

abbrev Handler (α : Type) := Prog Op Ans α

/-! ## The calls by name -/

namespace Handler

def insert (entry : MemberEntry) : Handler Bool := .call (.insert entry) .pure

def containsToken (token : String) : Handler Bool := .call (.containsToken token) .pure

def revokeByMemberHash (hash : MemberHash) : Handler Bool := .call (.revokeByMemberHash hash) .pure

def noteNonce (nonce : String) : Handler Bool := .call (.noteNonce nonce) .pure

/-- The clock is read before the lock is taken. -/
def allowAttestation (pubkey : Pubkey) : Handler Bool :=
  .call .instantNow fun now => .call (.allowAttestation pubkey now) .pure

def random32 : Handler (Vector UInt8 32) := .call .random32 .pure

def tdxQuote (reportData : List UInt8) : Handler (Option (List UInt8)) := .call (.tdxQuote reportData) .pure

def gpuHelper (args : List String) : Handler (Option HelperRun) := .call (.gpuHelper args) .pure

def upstreamRequest (body : List UInt8) : Handler (Except UpstreamFailure Upstream) :=
  .call (.upstreamRequest body) .pure

def frame : Handler Unit := .call .frame .pure

def send (chunk : Chunk) : Handler Bool := .call (.send chunk) .pure

end Handler

end IronInstance
