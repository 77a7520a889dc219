import IronInstance.Codec
import IronInstance.Effects

/-!
# POST /v1/chat/completions

The bearer is checked once at the door and again before each relayed frame. The
relay task is spawned behind the answer and nothing of the handler follows the
spawn, so it is the rest of the handler's program here.
-/

namespace IronInstance
open Programs
set_option autoImplicit false

def revokedFrame : List UInt8 :=
  asBytes "data: \x7b\"error\":\x7b\"message\":\"session revoked\",\"type\":\"revoked\"\x7d\x7d\n\n"

def Chunk.bytes : Chunk → List UInt8
  | .relayed bytes => bytes
  | .revoked => revokedFrame

/-- `raw.strip_prefix("Bearer ")` on the `Authorization` header. -/
def bearer (authorization : Option String) : Option String := do
  let raw ← authorization
  if "Bearer ".toList.isPrefixOf raw.toList then some (String.ofList (raw.toList.drop 7)) else none

/-- The `while let Some(frame) = body.frame().await` loop. -/
def relay (token : String) : List BodyEvent → Handler Unit
  | [] => Handler.frame
  | event :: rest => do
    Handler.frame
    match event with
    | .error => return
    | .nonData => relay token rest
    | .data bytes =>
      -- a revoke between frames cuts the stream
      if !(← Handler.containsToken token) then
        let _ ← Handler.send .revoked
        return
      if !(← Handler.send (.relayed bytes)) then
        return -- client hung up
      relay token rest

def chatHandler (authorization : Option String) (body : List UInt8) : Handler Response :=
  match bearer authorization with
  | none => pure (err .unauthorized "invalid bearer")
  | some token => do
    if !(← Handler.containsToken token) then
      return err .unauthorized "invalid bearer"
    match ← Handler.upstreamRequest body with
    | .error .badRequest => return err .badGateway "bad upstream request"
    | .error .unavailable => return err .badGateway "model backend unavailable"
    | .ok upstream =>
      if ¬ (200 ≤ upstream.status ∧ upstream.status < 300) then
        return err (.upstream upstream.status) "model backend rejected the request"
      relay token upstream.events
      return ⟨.ok, .stream⟩

end IronInstance
