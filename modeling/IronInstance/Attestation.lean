import IronInstance.Codec
import IronInstance.Effects
import IronInstance.Primitives
import IronInstance.Library.Text

/-!
# GET /attestation

The handler asks the limiter, derives one GPU nonce for each index, fetches the TDX
quote and runs the GPU helper, and assembles the version-2 envelope. The number of
GPUs is a parameter of the definitions; the source fixes it to eight.
-/

namespace IronInstance
open Programs Text
set_option autoImplicit false

def expectedGpuCount : Nat := 8

structure AttestationQuery where
  nonce : Option String
  deriving DecidableEq

/-! ## The PCK chain of a quote -/

def pemBegin : List Char := "-----BEGIN CERTIFICATE-----".toList

def pemEnd : List Char := "-----END CERTIFICATE-----".toList

/-- The `while let Some(start) = rest.find(BEGIN)` loop. Each turn consumes the two
markers, so the length of the text is fuel enough. -/
def pckLoop (out : List (List UInt8)) : (fuel : Nat) → (rest : List Char) → List (List UInt8)
  | 0, _ => out
  | fuel + 1, rest =>
    match find pemBegin rest with
    | none => out
    | some start =>
      let after := rest.drop (start + pemBegin.length)
      match find pemEnd after with
      | none => out
      | some stop =>
        let out := match b64DecodeAny (String.ofList (after.take stop)) with
          | some der => if der.isEmpty then out else out ++ [der]
          | none => out
        pckLoop out fuel (after.drop (stop + pemEnd.length))

/-- More fuel than characters is never used up. -/
theorem pckLoop_fuel (extra : Nat) : ∀ (fuel : Nat) (out : List (List UInt8)) (rest : List Char),
    rest.length < fuel → pckLoop out (fuel + extra) rest = pckLoop out fuel rest
  | 0, _, rest, h => absurd h (Nat.not_lt_zero rest.length)
  | fuel + 1, out, rest, h => by
    have hmore : 0 < pemBegin.length := by decide
    rw [Nat.add_right_comm, pckLoop, pckLoop]
    cases hstart : find pemBegin rest with
    | none => rfl
    | some start =>
      have hrest : 0 < rest.length := by
        rcases rest with _ | ⟨c, rest⟩
        · rw [find, if_neg (by decide)] at hstart
          cases hstart
        · exact Nat.succ_pos rest.length
      cases hstop : find pemEnd (rest.drop (start + pemBegin.length)) with
      | none => simp only [hstop]
      | some stop =>
        simp only [hstop]
        apply pckLoop_fuel extra fuel
        simp only [List.length_drop]
        omega

/-- `from_utf8_lossy` puts U+FFFD for what is not UTF-8. -/
def pckChainFromQuote (quote : List UInt8) : List (List UInt8) :=
  let text := decodeUtf8 [Char.ofNat 0xfffd] quote
  pckLoop [] (text.length + 1) text

/-! ## The GPU reports -/

section Gpu
variable (P : Primitives)

def deriveGpuNonce (nonce : List UInt8) (spkiSha256 : Vector UInt8 32) (index : UInt8) : Vector UInt8 32 :=
  P.sha256 (nonce ++ spkiSha256.toList ++ [index])

def gpuNonces (count : Nat) (nonce : List UInt8) (spkiSha256 : Vector UInt8 32) : List (Vector UInt8 32) :=
  (List.range count).map fun i => deriveGpuNonce P nonce spkiSha256 (UInt8.ofNat i)

end Gpu

def helperArgs (nonces : List (Vector UInt8 32)) : List String :=
  nonces.flatMap fun (nonce : Vector UInt8 32) => ["--nonce-hex", hexEncode nonce.toList]

def decodeGpu (g : Gpu) : Option (List UInt8 × List (List UInt8)) := do
  let report ← b64DecodeAny g.report
  let chain ← g.certChain.mapM b64DecodeAny
  if report.isEmpty || chain.isEmpty then none else some (report, chain)

/-- What `gpu_reports_all` makes of the finished helper. -/
def parseHelper (count : Nat) (out : Option HelperRun) : Option (List (List UInt8 × List (List UInt8))) := do
  let out ← out
  if !out.success then none
  else
    let gpus ← out.stdout
    if gpus.length ≠ count then none else gpus.mapM decodeGpu

def gpuReportsAll (nonces : List (Vector UInt8 32)) : Handler (Option (List (List UInt8 × List (List UInt8)))) := do
  let out ← Handler.gpuHelper (helperArgs nonces)
  return parseHelper nonces.length out

def envelope (quote : List UInt8) (cpuChain : List (List UInt8))
    (gpus : List (List UInt8 × List (List UInt8))) : Envelope :=
  { version := 2
    cpuVendor := "intel_tdx"
    cpuReport := b64Encode quote
    cpuChain := cpuChain.map b64Encode
    gpuReports := gpus.map fun g => b64Encode g.1
    gpuChains := gpus.map fun g => g.2.map b64Encode }

/-! ## The handler -/

section Handler
variable (P : Primitives)

/-- The blocking part: quote first, then the GPUs; any failure is a 503. -/
def attest (count : Nat) (spkiSha256 : Vector UInt8 32) (nonce : List UInt8) : Handler Response := do
  let unavailable := err .serviceUnavailable "attestation unavailable"
  match ← Handler.tdxQuote (nonce ++ spkiSha256.toList) with
  | none => return unavailable
  | some quote =>
    match ← gpuReportsAll (gpuNonces P count nonce spkiSha256) with
    | none => return unavailable
    | some gpus => return ⟨.ok, .envelope (envelope quote (pckChainFromQuote quote) gpus)⟩

def attestAnswer (quote : List UInt8) : Option (List (List UInt8 × List (List UInt8))) → Response
  | none => err .serviceUnavailable "attestation unavailable"
  | some gpus => ⟨.ok, .envelope (envelope quote (pckChainFromQuote quote) gpus)⟩

theorem attest_eq (count : Nat) (spkiSha256 : Vector UInt8 32) (nonce : List UInt8) :
    attest P count spkiSha256 nonce = .call (.tdxQuote (nonce ++ spkiSha256.toList)) fun
      | none => .pure (err .serviceUnavailable "attestation unavailable")
      | some quote => .call (.gpuHelper (helperArgs (gpuNonces P count nonce spkiSha256))) fun out =>
          .pure (attestAnswer quote (parseHelper count out)) := by
  unfold attest Handler.tdxQuote gpuReportsAll Handler.gpuHelper
  simp only [Prog.call_bind, Prog.pure_bind]
  congr 1
  funext answer
  cases answer with
  | none => rfl
  | some quote =>
    simp only [Prog.pure_bind, Prog.pure_eq]
    congr 1
    funext out
    rw [gpuNonces, List.length_map, List.length_range]
    cases parseHelper count out <;> rfl

def answerQuery (count : Nat) (spkiSha256 : Vector UInt8 32) (q : AttestationQuery) : Handler Response :=
  match q.nonce with
  | none => pure (err .badRequest "missing nonce")
  | some nonceHex =>
    match hexDecode nonceHex with
    | some nonce =>
      if nonce.length = 32 then attest P count spkiSha256 nonce
      else pure (err .badRequest "nonce must be 32 bytes hex")
    | none => pure (err .badRequest "nonce must be 32 bytes hex")

def attestationHandler (count : Nat) (spkiSha256 : Vector UInt8 32) (client : Option Pubkey)
    (q : AttestationQuery) : Handler Response :=
  match client with
  | none => answerQuery P count spkiSha256 q
  | some pk => do
    if !(← Handler.allowAttestation pk) then
      return err .tooManyRequests "attestation rate limit"
    answerQuery P count spkiSha256 q

end Handler

end IronInstance
