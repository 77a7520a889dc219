import IronInstance.Attestation
import IronInstance.Base64

/-!
# The GPU helper

`nix/gpu-report.py` as a function of its arguments and of NVML. NVML is a record of
answers, each of which may be an exception (`none`). The script ends in an exception
that nothing catches, in a nonzero `return`, or by printing one entry for each GPU.
-/

namespace IronInstance
open Text Traverse
set_option autoImplicit false

/-! ## What the script takes from Python -/

/-- An end of the script that prints nothing. -/
inductive Exit where
  | raised
  | returned (code : Nat)
  deriving DecidableEq

def Exit.status : Exit → Nat
  | .raised => 1
  | .returned code => code

abbrev Script (α : Type) := Except Exit α

def orRaise {α : Type} : Option α → Script α
  | none => .error .raised
  | some a => .ok a

/-- The characters `str.split()` cuts at. -/
def isSpace (c : Char) : Bool :=
  let n := c.toNat
  (9 ≤ n && n ≤ 13) || (0x1c ≤ n && n ≤ 0x20) || n == 0x85 || n == 0xa0 || n == 0x1680 ||
    (0x2000 ≤ n && n ≤ 0x200a) || n == 0x2028 || n == 0x2029 || n == 0x202f || n == 0x205f || n == 0x3000

/-- `"".join(body.split())`. -/
def joinSplit (body : List Char) : List Char := body.filter fun c => !isSpace c

/-- `table_a2b_base64` of CPython: the standard alphabet only. -/
def a2bTable (n : Nat) : Option UInt8 :=
  if 65 ≤ n ∧ n ≤ 90 then some (UInt8.ofNat (n - 65))
  else if 97 ≤ n ∧ n ≤ 122 then some (UInt8.ofNat (n - 97 + 26))
  else if 48 ≤ n ∧ n ≤ 57 then some (UInt8.ofNat (n - 48 + 52))
  else if n = 43 then some 62
  else if n = 47 then some 63
  else none

structure A2bState where
  quadPos : Nat
  leftchar : UInt8
  pads : Nat
  out : List UInt8
  deriving DecidableEq

def A2bState.push (st : A2bState) (v : UInt8) : A2bState :=
  match st.quadPos with
  | 0 => ⟨1, v, 0, st.out⟩
  | 1 => ⟨2, v &&& 0x0f, 0, st.out ++ [st.leftchar <<< 2 ||| v >>> 4]⟩
  | 2 => ⟨3, v &&& 0x03, 0, st.out ++ [st.leftchar <<< 4 ||| v >>> 2]⟩
  | _ => ⟨0, 0, 0, st.out ++ [st.leftchar <<< 6 ||| v]⟩

/-- `binascii.a2b_base64` without strict mode: characters outside the alphabet are
skipped, a complete pad ends the data, and an incomplete quad raises. -/
def a2bLoop (st : A2bState) : List Char → Option (List UInt8)
  | [] => if st.quadPos = 0 then some st.out else none
  | c :: rest =>
    if c = '=' then
      if 2 ≤ st.quadPos then
        if 4 ≤ st.quadPos + (st.pads + 1) then some st.out
        else a2bLoop ⟨st.quadPos, st.leftchar, st.pads + 1, st.out⟩ rest
      else a2bLoop st rest
    else
      match a2bTable c.toNat with
      | none => a2bLoop st rest
      | some v => a2bLoop (st.push v) rest

/-- `base64.b64decode` of a `str`, which must be ASCII. -/
def b64decode (s : List Char) : Option (List UInt8) :=
  if s.all fun c => c.toNat < 128 then a2bLoop ⟨0, 0, 0, []⟩ s else none

inductive UnhexlifyError where
  | valueError
  | binasciiError
  deriving DecidableEq

def hexDigitValue (c : Char) : Option UInt8 :=
  let n := c.toNat
  if 48 ≤ n ∧ n ≤ 57 then some (UInt8.ofNat (n - 48))
  else if 97 ≤ n ∧ n ≤ 102 then some (UInt8.ofNat (n - 97 + 10))
  else if 65 ≤ n ∧ n ≤ 70 then some (UInt8.ofNat (n - 65 + 10))
  else none

def unhexPairs : List Char → Except UnhexlifyError (List UInt8)
  | [] => .ok []
  | [_] => .error .binasciiError
  | c :: d :: rest =>
    match hexDigitValue c, hexDigitValue d with
    | some hi, some lo => (unhexPairs rest).map fun bytes => (hi <<< 4 ||| lo) :: bytes
    | _, _ => .error .binasciiError

def unhexlify (s : String) : Except UnhexlifyError (List UInt8) :=
  if s.toList.all fun c => c.toNat < 128 then unhexPairs s.toList else .error .valueError

/-! ## NVML -/

structure ConfComputeState where
  ccFeature : Option Int
  deriving DecidableEq

/-- The mode under either of its names; an attribute may be missing. -/
structure ConfComputeSettings where
  multiGpuMode : Option Int
  multi_gpu_mode : Option Int
  deriving DecidableEq

structure AttestationReport where
  attestationReport : List UInt8
  attestationReportSize : Nat
  deriving DecidableEq

structure GpuCertificate where
  attestationCertChain : List UInt8
  attestationCertChainSize : Nat
  deriving DecidableEq

structure Nvml where
  Device : Type
  nvmlInit : Option Unit
  deviceGetCount : Option Nat
  systemGetConfComputeState : Option ConfComputeState
  systemGetConfComputeSettings : Option ConfComputeSettings
  deviceGetHandleByIndex : Nat → Option Device
  deviceGetConfComputeGpuAttestationReport : Device → List UInt8 → Option AttestationReport
  deviceGetConfComputeGpuCertificate : Device → Option GpuCertificate
  nvmlShutdown : Option Unit

/-! ## The script -/

def nonceLen : Nat := 32

def nvmlCcSystemMultigpuNvle : Int := 2

/-- The `while True` loop. An END marker is looked for from the BEGIN marker on, and
every turn moves `idx` past it. -/
def derCertsLoop (text : List Char) (out : List String) : (fuel : Nat) → (idx : Nat) → Option (List String)
  | 0, _ => some out
  | fuel + 1, idx =>
    match findFrom pemBegin text idx with
    | none => some out
    | some start =>
      match findFrom pemEnd text start with
      | none => some out
      | some stop =>
        match b64decode (joinSplit (slice text (start + pemBegin.length) stop)) with
        | none => none
        | some der => derCertsLoop text (out ++ [Base64.encode der]) fuel (stop + pemEnd.length)

def derCertsFromPemBundle (blob : List UInt8) : Option (List String) :=
  let text := decodeUtf8 [] blob
  derCertsLoop text [] (text.length + 1) 0

def parseNoncesLoop (nonces : List (List UInt8)) : List String → Script (Option (List (List UInt8)))
  | [] => .ok (some nonces)
  | h :: rest =>
    match unhexlify h with
    -- only `binascii.Error` is caught
    | .error .valueError => .error .raised
    | .error .binasciiError => .ok none
    | .ok n => if n.length ≠ nonceLen then .ok none else parseNoncesLoop (nonces ++ [n]) rest

def parseNonces (hexArgs : List String) : Script (Option (List (List UInt8))) := parseNoncesLoop [] hexArgs

def multiGpuMode (nvml : Nvml) : Script Int := do
  let settings ← orRaise nvml.systemGetConfComputeSettings
  return settings.multiGpuMode.getD (settings.multi_gpu_mode.getD (-1))

def attestDevice (nvml : Nvml) (nonces : List (List UInt8)) (i : Nat) : Script Gpu := do
  let dev ← orRaise (nvml.deviceGetHandleByIndex i)
  let nonce ← orRaise nonces[i]?
  let report ← orRaise (nvml.deviceGetConfComputeGpuAttestationReport dev nonce)
  let cert ← orRaise (nvml.deviceGetConfComputeGpuCertificate dev)
  let raw := report.attestationReport.take report.attestationReportSize
  let chainBlob := cert.attestationCertChain.take cert.attestationCertChainSize
  let chain ← orRaise (derCertsFromPemBundle chainBlob)
  if raw.isEmpty || chain.isEmpty then .error (.returned 1)
  else return { report := Base64.encode raw, certChain := chain }

def attestBoard (nvml : Nvml) (nonces : List (List UInt8)) : Script (List Gpu) := do
  let count ← orRaise nvml.deviceGetCount
  if count ≠ nonces.length then .error (.returned 1)
  else
    let state ← orRaise nvml.systemGetConfComputeState
    if state.ccFeature.getD 0 = 0 then .error (.returned 1)
    else
      let mode ← multiGpuMode nvml
      if mode ≠ nvmlCcSystemMultigpuNvle then .error (.returned 1)
      else (List.range count).mapM (attestDevice nvml nonces)

/-- The values of the repeated `--nonce-hex VALUE`, the only form the service writes;
any other command line counts as a usage error. -/
def nonceArgs : List String → Option (List String)
  | [] => some []
  | flag :: value :: rest =>
    if flag = "--nonce-hex" ∧ value.toList.head? ≠ some '-' then (nonceArgs rest).map (value :: ·) else none
  | [_] => none

def parseArgs (argv : List String) : Script (List String) :=
  match nonceArgs argv with
  | none => .error (.returned 2)
  | some values => if values.isEmpty then .error (.returned 2) else .ok values

/-- `main`, up to the printed list; `nvmlShutdown` runs however the `try` block ends. -/
def gpuReportMain (nvml : Nvml) (argv : List String) : Script (List Gpu) := do
  let args ← parseArgs argv
  match ← parseNonces args with
  | none => .error (.returned 2)
  | some nonces =>
    orRaise nvml.nvmlInit
    let gpus := attestBoard nvml nonces
    orRaise nvml.nvmlShutdown
    gpus

/-- What `Command::output` and `serde_json` hand to the service. -/
def runHelper (nvml : Nvml) (argv : List String) : HelperRun :=
  match gpuReportMain nvml argv with
  | .ok gpus => { success := true, stdout := some gpus }
  | .error e => { success := decide (e.status = 0), stdout := none }

/-! ## Reading the script -/

theorem orRaise_eq_ok {α : Type} {o : Option α} {a : α} : orRaise o = .ok a ↔ o = some a := by
  cases o <;> simp [orRaise]

theorem check_eq_ok {α : Type} {c : Prop} [Decidable c] {e : Exit} {x : Script α} {a : α} :
    (if c then .error e else x) = .ok a ↔ ¬ c ∧ x = .ok a := by
  split <;> simp_all

/-- Device `i`, challenged with `nonce`, yields the report `raw` and the chain `chain`. -/
def Nvml.Answers (nvml : Nvml) (i : Nat) (nonce raw : List UInt8) (chain : List String) : Prop :=
  ∃ dev report cert, nvml.deviceGetHandleByIndex i = some dev ∧
    nvml.deviceGetConfComputeGpuAttestationReport dev nonce = some report ∧
    nvml.deviceGetConfComputeGpuCertificate dev = some cert ∧
    report.attestationReport.take report.attestationReportSize = raw ∧
    derCertsFromPemBundle (cert.attestationCertChain.take cert.attestationCertChainSize) = some chain

def Nvml.CcOn (nvml : Nvml) : Prop :=
  ∃ state, nvml.systemGetConfComputeState = some state ∧ state.ccFeature.getD 0 ≠ 0

theorem attestDevice_eq_ok {nvml : Nvml} {nonces : List (List UInt8)} {i : Nat} {nonce : List UInt8}
    (hnonce : nonces[i]? = some nonce) {g : Gpu} :
    attestDevice nvml nonces i = .ok g ↔ ∃ raw chain, nvml.Answers i nonce raw chain ∧ raw ≠ [] ∧ chain ≠ [] ∧
      g = { report := Base64.encode raw, certChain := chain } := by
  unfold attestDevice
  simp only [bind_eq_ok_iff, orRaise_eq_ok, hnonce, Option.some.injEq, exists_eq_left', check_eq_ok, Bool.or_eq_true,
    List.isEmpty_iff, not_or, pure, Except.pure, Except.ok.injEq]
  constructor
  · rintro ⟨dev, hdev, report, hreport, cert, hcert, chain, hchain, ⟨hraw, hne⟩, rfl⟩
    exact ⟨_, chain, ⟨dev, report, cert, hdev, hreport, hcert, rfl, hchain⟩, hraw, hne, rfl⟩
  · rintro ⟨_, chain, ⟨dev, report, cert, hdev, hreport, hcert, rfl, hchain⟩, hraw, hne, rfl⟩
    exact ⟨dev, hdev, report, hreport, cert, hcert, chain, hchain, ⟨hraw, hne⟩, rfl⟩

theorem attestBoard_eq_ok {nvml : Nvml} {nonces : List (List UInt8)} {gpus : List Gpu} :
    attestBoard nvml nonces = .ok gpus ↔ nvml.deviceGetCount = some nonces.length ∧ nvml.CcOn ∧
      multiGpuMode nvml = .ok nvmlCcSystemMultigpuNvle ∧
      List.Forall₂ (fun i g => attestDevice nvml nonces i = .ok g) (List.range nonces.length) gpus := by
  unfold attestBoard
  simp only [bind_eq_ok_iff, orRaise_eq_ok, check_eq_ok, mapM_eq_ok_iff, ne_eq, not_not]
  constructor
  · rintro ⟨count, hcount, rfl, state, hstate, hcc, mode, hmode, rfl, hdevices⟩
    exact ⟨hcount, ⟨state, hstate, hcc⟩, hmode, hdevices⟩
  · rintro ⟨hcount, ⟨state, hstate, hcc⟩, hmode, hdevices⟩
    exact ⟨_, hcount, rfl, state, hstate, hcc, _, hmode, rfl, hdevices⟩

/-! ## The arguments -/

theorem hexDigit_ne_dash (n : UInt8) : hexDigit n ≠ '-' := by
  revert n
  exact forall_byte (by decide +kernel)

theorem hexDigitValue_pair (x : UInt8) :
    hexDigitValue (hexDigit (x >>> 4)) = some (x >>> 4) ∧ hexDigitValue (hexDigit (x &&& 0x0f)) = some (x &&& 0x0f) := by
  revert x
  exact forall_byte (by decide +kernel)

theorem head_hexEncode (x : List UInt8) : (hexEncode x).toList.head? ≠ some '-' := by
  rw [hexEncode, String.toList_ofList, hexEncodeChars]
  cases x with
  | nil => simp
  | cons b x =>
    rw [List.flatMap_cons, List.cons_append, List.head?_cons]
    intro h
    exact hexDigit_ne_dash _ (Option.some.inj h)

theorem nonceArgs_helperArgs (nonces : List (Vector UInt8 32)) :
    nonceArgs (helperArgs nonces) = some (nonces.map fun nonce => hexEncode nonce.toList) := by
  induction nonces with
  | nil => rfl
  | cons nonce nonces ih =>
    rw [helperArgs, List.flatMap_cons, ← helperArgs, List.cons_append, List.cons_append, List.nil_append, nonceArgs,
      if_pos ⟨rfl, head_hexEncode nonce.toList⟩, ih]
    rfl

theorem unhexPairs_hexEncodeChars (x : List UInt8) : unhexPairs (hexEncodeChars x) = .ok x := by
  induction x with
  | nil => rfl
  | cons b x ih =>
    obtain ⟨hhi, hlo⟩ := hexDigitValue_pair b
    rw [hexEncodeChars, List.flatMap_cons, List.cons_append, List.cons_append, List.nil_append, unhexPairs, hhi, hlo,
      ← hexEncodeChars]
    simp only [ih, Except.map, nibbles_join]

theorem unhexlify_hexEncode (x : List UInt8) : unhexlify (hexEncode x) = .ok x := by
  have hascii : ((hexEncode x).toList.all fun c => c.toNat < 128) = true := by
    rw [hexEncode, String.toList_ofList, hexEncodeChars, List.all_flatMap, List.all_eq_true]
    intro b _
    simp [hexDigit_ascii]
  rw [unhexlify, if_pos hascii, hexEncode, String.toList_ofList]
  exact unhexPairs_hexEncodeChars x

theorem parseNoncesLoop_hex (done : List (List UInt8)) (nonces : List (Vector UInt8 32)) :
    parseNoncesLoop done (nonces.map fun nonce => hexEncode nonce.toList) =
      .ok (some (done ++ nonces.map Vector.toList)) := by
  induction nonces generalizing done with
  | nil => rw [List.map_nil, parseNoncesLoop, List.map_nil, List.append_nil]
  | cons nonce nonces ih =>
    have hlen : ¬ nonce.toList.length ≠ nonceLen := by simp [nonceLen]
    rw [List.map_cons, parseNoncesLoop, unhexlify_hexEncode]
    simp only [if_neg hlen, ih]
    rw [List.map_cons, List.append_assoc, List.singleton_append]

/-- The script reaches NVML with exactly the nonces of the service, in their order. -/
theorem gpuReportMain_helperArgs {nvml : Nvml} {nonces : List (Vector UInt8 32)} {gpus : List Gpu} :
    gpuReportMain nvml (helperArgs nonces) = .ok gpus ↔ nonces ≠ [] ∧ nvml.nvmlInit.isSome ∧ nvml.nvmlShutdown.isSome ∧
      attestBoard nvml (nonces.map Vector.toList) = .ok gpus := by
  have hloop : parseNonces (nonces.map fun nonce => hexEncode nonce.toList) = .ok (some (nonces.map Vector.toList)) :=
    parseNoncesLoop_hex [] nonces
  have hargs : parseArgs (helperArgs nonces) = if nonces = [] then .error (.returned 2)
      else .ok (nonces.map fun nonce => hexEncode nonce.toList) := by
    simp [parseArgs, nonceArgs_helperArgs]
  unfold gpuReportMain
  rw [hargs, bind_eq_ok_iff]
  simp only [check_eq_ok, Except.ok.injEq]
  constructor
  · rintro ⟨args, ⟨hne, rfl⟩, hrun⟩
    obtain ⟨parsed, hparsed, hrun⟩ := bind_eq_ok_iff.mp hrun
    rw [hloop] at hparsed
    cases hparsed
    obtain ⟨⟨⟩, hinit, hrun⟩ := bind_eq_ok_iff.mp hrun
    obtain ⟨⟨⟩, hshutdown, hboard⟩ := bind_eq_ok_iff.mp hrun
    rw [orRaise_eq_ok] at hinit hshutdown
    exact ⟨hne, by rw [hinit]; rfl, by rw [hshutdown]; rfl, hboard⟩
  · rintro ⟨hne, hinit, hshutdown, hboard⟩
    obtain ⟨⟨⟩, hinit⟩ := Option.isSome_iff_exists.mp hinit
    obtain ⟨⟨⟩, hshutdown⟩ := Option.isSome_iff_exists.mp hshutdown
    refine ⟨_, ⟨hne, rfl⟩, bind_eq_ok_iff.mpr ⟨_, hloop, ?_⟩⟩
    exact bind_eq_ok_iff.mpr ⟨(), orRaise_eq_ok.mpr hinit, bind_eq_ok_iff.mpr ⟨(), orRaise_eq_ok.mpr hshutdown, hboard⟩⟩

/-! ## The certificates -/

/-- The loop's fuel is more than it can use up. -/
theorem derCertsLoop_fuel (text : List Char) (extra : Nat) : ∀ (fuel idx : Nat) (out : List String),
    text.length < idx + fuel → derCertsLoop text out (fuel + extra) idx = derCertsLoop text out fuel idx
  | 0, idx, out, h => by
    have hnone : findFrom pemBegin text idx = none := findFrom_of_length_le (by decide) (Nat.le_of_lt h)
    cases extra with
    | zero => rfl
    | succ extra => simp only [derCertsLoop, hnone]
  | fuel + 1, idx, out, h => by
    rw [Nat.add_right_comm, derCertsLoop, derCertsLoop]
    cases hstart : findFrom pemBegin text idx with
    | none => rfl
    | some start =>
      cases hstop : findFrom pemEnd text start with
      | none => simp only [hstop]
      | some stop =>
        have hle := Nat.le_trans (le_of_findFrom hstart) (le_of_findFrom hstop)
        have hmore : 0 < pemEnd.length := by decide
        simp only [hstop]
        cases b64decode (joinSplit (slice text (start + pemBegin.length) stop)) with
        | none => rfl
        | some der => exact derCertsLoop_fuel text extra fuel _ _ (by omega)

theorem derCertsLoop_encoded {text : List Char} {fuel idx : Nat} {out chain : List String}
    (h : derCertsLoop text out fuel idx = some chain) (hout : ∃ ders : List (List UInt8), out = ders.map Base64.encode) :
    ∃ ders : List (List UInt8), chain = ders.map Base64.encode := by
  induction fuel generalizing idx out with
  | zero =>
    cases h
    exact hout
  | succ fuel ih =>
    rw [derCertsLoop] at h
    split at h
    · cases h
      exact hout
    · split at h
      · cases h
        exact hout
      · split at h
        · cases h
        · obtain ⟨ders, rfl⟩ := hout
          exact ih h ⟨ders ++ [_], by rw [List.map_append, List.map_singleton]⟩

theorem derCertsFromPemBundle_encoded {blob : List UInt8} {chain : List String}
    (h : derCertsFromPemBundle blob = some chain) : ∃ ders : List (List UInt8), chain = ders.map Base64.encode :=
  derCertsLoop_encoded h ⟨[], rfl⟩

theorem Nvml.Answers.encoded {nvml : Nvml} {i : Nat} {nonce raw : List UInt8} {chain : List String}
    (h : nvml.Answers i nonce raw chain) : ∃ ders : List (List UInt8), chain = ders.map Base64.encode := by
  obtain ⟨dev, report, cert, -, -, -, -, hchain⟩ := h
  exact derCertsFromPemBundle_encoded hchain

theorem main_of_stdout {nvml : Nvml} {argv : List String} {gpus : List Gpu}
    (h : (runHelper nvml argv).stdout = some gpus) : gpuReportMain nvml argv = .ok gpus := by
  unfold runHelper at h
  cases hmain : gpuReportMain nvml argv with
  | error e =>
    rw [hmain] at h
    cases h
  | ok printed =>
    rw [hmain] at h
    cases h
    rfl

end IronInstance
