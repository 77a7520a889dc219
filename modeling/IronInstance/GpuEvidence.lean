import IronInstance.Enroll
import IronInstance.GpuReport

/-!
# Every report belongs to its slot

The path of a GPU index through the service, the command line, the helper, NVML, the
helper's base64 and the service's own. An envelope holds, for every index, the report
of exactly that device to exactly that index's nonce; a board or a helper that is not
as expected gives a 503.
-/

namespace IronInstance
open Programs Traverse
set_option autoImplicit false

def helperRuns (cs : List (Performed Op Ans)) : List (List String × Option HelperRun) :=
  cs.filterMap fun
    | ⟨.gpuHelper args, out⟩ => some (args, out)
    | _ => none

def unavailable : Response := err .serviceUnavailable "attestation unavailable"

/-! ## The handler's paths -/

/-- Either the handler ends before the helper runs, without an envelope, or it runs the
helper once and answers from its output. -/
inductive AttestPath (P : Primitives) (n : Nat) (spki : Vector UInt8 32) (q : AttestationQuery) :
    List (Performed Op Ans) → Response → Prop where
  | early {cs : List (Performed Op Ans)} {r : Response} (hruns : helperRuns cs = [])
      (hbody : ∀ e, r.body ≠ .envelope e) : AttestPath P n spki q cs r
  | ran {cs : List (Performed Op Ans)} {s : String} {nonce quote : List UInt8} {out : Option HelperRun}
      (hs : q.nonce = some s) (hnonce : hexDecode s = some nonce) (hlen : nonce.length = 32)
      (hruns : helperRuns cs = [(helperArgs (gpuNonces P n nonce spki), out)]) :
      AttestPath P n spki q cs (attestAnswer quote (parseHelper n out))

section Paths
variable {P : Primitives} {n : Nat} {spki : Vector UInt8 32} {q : AttestationQuery}
  {cs : List (Performed Op Ans)} {r : Response}

theorem attest_path {s : String} {nonce : List UInt8} (hs : q.nonce = some s) (hnonce : hexDecode s = some nonce)
    (hlen : nonce.length = 32) (h : Follows (attest P n spki nonce) cs (.pure r)) : AttestPath P n spki q cs r := by
  rw [attest_eq] at h
  obtain ⟨answer, cs₁, rfl, h₁⟩ := h.call_finished
  cases answer with
  | none =>
    obtain ⟨rfl, rfl⟩ := Follows.pure_finished h₁
    exact .early rfl (by simp [err])
  | some quote =>
    obtain ⟨out, cs₂, rfl, h₂⟩ := Follows.call_finished h₁
    obtain ⟨rfl, rfl⟩ := Follows.pure_finished h₂
    exact .ran hs hnonce hlen rfl

theorem refused_path {code : StatusCode} {msg : String}
    (h : Follows (.pure (err code msg) : Handler Response) cs (.pure r)) : AttestPath P n spki q cs r := by
  obtain ⟨rfl, rfl⟩ := h.pure_finished
  exact .early rfl (by simp [err])

theorem answerQuery_path (h : Follows (answerQuery P n spki q) cs (.pure r)) : AttestPath P n spki q cs r := by
  unfold answerQuery at h
  cases hs : q.nonce with
  | none =>
    rw [hs] at h
    exact refused_path h
  | some s =>
    cases hnonce : hexDecode s with
    | none =>
      simp only [hs, hnonce] at h
      exact refused_path h
    | some nonce =>
      simp only [hs, hnonce] at h
      by_cases hlen : nonce.length = 32
      · rw [if_pos hlen] at h
        exact attest_path hs hnonce hlen h
      · rw [if_neg hlen] at h
        exact refused_path h

theorem AttestPath.limited {c : Performed Op Ans} (hc : helperRuns [c] = []) (h : AttestPath P n spki q cs r) :
    AttestPath P n spki q (c :: cs) r := by
  have hruns : helperRuns (c :: cs) = helperRuns cs := by
    rw [← List.singleton_append, helperRuns, List.filterMap_append, ← helperRuns, hc, List.nil_append, helperRuns]
  cases h with
  | early hr hbody => exact .early (hruns.trans hr) hbody
  | ran hs hnonce hlen hr => exact .ran hs hnonce hlen (hruns.trans hr)

theorem attestation_path {client : Option Pubkey} (h : Follows (attestationHandler P n spki client q) cs (.pure r)) :
    AttestPath P n spki q cs r := by
  cases client with
  | none => exact answerQuery_path h
  | some pk =>
    obtain ⟨now, cs₁, rfl, h₁⟩ := Follows.call_finished h
    obtain ⟨allowed, cs₂, rfl, h₂⟩ := Follows.call_finished h₁
    apply AttestPath.limited rfl
    apply AttestPath.limited rfl
    cases allowed with
    | false => exact refused_path h₂
    | true => exact answerQuery_path h₂

end Paths

/-! ## What the service makes of the helper's output -/

def UsableGpu (g : Gpu) : Prop :=
  (∃ report, b64DecodeAny g.report = some report ∧ report ≠ []) ∧ g.certChain ≠ [] ∧
    ∀ c ∈ g.certChain, ∃ der, b64DecodeAny c = some der

/-- The helper exited with success and printed `n` entries, all of them decodable and
none of them empty. -/
def Usable (n : Nat) (out : Option HelperRun) : Prop :=
  ∃ run gpus, out = some run ∧ run.success = true ∧ run.stdout = some gpus ∧ gpus.length = n ∧ ∀ g ∈ gpus, UsableGpu g

theorem parseHelper_eq_some {n : Nat} {out : Option HelperRun} {gs : List (List UInt8 × List (List UInt8))} :
    parseHelper n out = some gs ↔ ∃ run gpus, out = some run ∧ run.success = true ∧ run.stdout = some gpus ∧
      gpus.length = n ∧ gpus.mapM decodeGpu = some gs := by
  unfold parseHelper
  simp only [Option.bind_eq_bind, Option.bind_eq_some_iff, Option.ite_none_left_eq_some, Bool.not_eq_true', Bool.not_eq_false,
    not_not, ne_eq]
  constructor
  · rintro ⟨run, rfl, hsuccess, gpus, hgpus, hlen, hmap⟩
    exact ⟨run, gpus, rfl, hsuccess, hgpus, hlen, hmap⟩
  · rintro ⟨run, gpus, rfl, hsuccess, hgpus, hlen, hmap⟩
    exact ⟨run, rfl, hsuccess, gpus, hgpus, hlen, hmap⟩

theorem decodeGpu_eq_some {g : Gpu} {report : List UInt8} {chain : List (List UInt8)} :
    decodeGpu g = some (report, chain) ↔ b64DecodeAny g.report = some report ∧
      g.certChain.mapM b64DecodeAny = some chain ∧ report ≠ [] ∧ chain ≠ [] := by
  unfold decodeGpu
  simp only [Option.bind_eq_bind, Option.bind_eq_some_iff, Option.ite_none_left_eq_some, Bool.or_eq_true, List.isEmpty_iff,
    not_or, Option.some.injEq, Prod.mk.injEq]
  constructor
  · rintro ⟨_, hreport, _, hchain, ⟨hr, hc⟩, rfl, rfl⟩
    exact ⟨hreport, hchain, hr, hc⟩
  · rintro ⟨hreport, hchain, hr, hc⟩
    exact ⟨report, hreport, chain, hchain, ⟨hr, hc⟩, rfl, rfl⟩

theorem usableGpu_of_decodeGpu {g : Gpu} {d : List UInt8 × List (List UInt8)} (h : decodeGpu g = some d) :
    UsableGpu g := by
  obtain ⟨hreport, hchain, hr, hc⟩ := decodeGpu_eq_some.mp h
  refine ⟨⟨d.1, hreport, hr⟩, ?_, forall_of_mapM hchain⟩
  intro hnil
  rw [hnil] at hchain
  exact hc (Option.some.inj hchain).symm

theorem usable_of_parseHelper {n : Nat} {out : Option HelperRun} {gs : List (List UInt8 × List (List UInt8))}
    (h : parseHelper n out = some gs) : Usable n out := by
  obtain ⟨run, gpus, hout, hsuccess, hgpus, hlen, hmap⟩ := parseHelper_eq_some.mp h
  refine ⟨run, gpus, hout, hsuccess, hgpus, hlen, ?_⟩
  intro g hg
  obtain ⟨d, hd⟩ := forall_of_mapM hmap g hg
  exact usableGpu_of_decodeGpu hd

theorem decodeGpu_encode {raw : List UInt8} {ders : List (List UInt8)} (hraw : raw ≠ []) (hders : ders ≠ []) :
    decodeGpu { report := Base64.encode raw, certChain := ders.map Base64.encode } = some (raw, ders) := by
  refine decodeGpu_eq_some.mpr ⟨b64DecodeAny_encode raw, ?_, hraw, hders⟩
  rw [mapM_eq_some_iff, List.forall₂_map_left_iff, List.forall₂_same]
  exact fun der _ => b64DecodeAny_encode der

/-! ## From NVML to the envelope -/

/-- The envelope holds for every slot the base64 of what NVML returned for that device
when challenged with that slot's nonce. -/
structure BoundToSlots (P : Primitives) (n : Nat) (spki : Vector UInt8 32) (nonce : List UInt8) (nvml : Nvml)
    (e : Envelope) : Prop where
  reports : e.gpuReports.length = n
  chains : e.gpuChains.length = n
  slot : ∀ i < n, ∃ (index : UInt8) (raw : List UInt8) (ders : List (List UInt8)), index.toNat = i ∧
    nvml.Answers i (P.sha256 (nonce ++ spki.toList ++ [index])).toList raw (ders.map Base64.encode) ∧
    raw ≠ [] ∧ ders ≠ [] ∧ e.gpuReports[i]? = some (Base64.encode raw) ∧
    e.gpuChains[i]? = some (ders.map Base64.encode)

def Defective (P : Primitives) (n : Nat) (spki : Vector UInt8 32) (nonce : List UInt8) (nvml : Nvml) : Prop :=
  nvml.deviceGetCount ≠ some n ∨ ¬ nvml.CcOn ∨ multiGpuMode nvml ≠ .ok nvmlCcSystemMultigpuNvle ∨
    ∃ (index : UInt8), index.toNat < n ∧ ∀ raw chain,
      nvml.Answers index.toNat (P.sha256 (nonce ++ spki.toList ++ [index])).toList raw chain → raw = [] ∨ chain = []

section Board
variable {P : Primitives} {n : Nat} {spki : Vector UInt8 32} {nonce : List UInt8} {nvml : Nvml}

theorem gpuNonces_getElem? {i : Nat} (hi : i < n) : ((gpuNonces P n nonce spki).map Vector.toList)[i]? =
    some (P.sha256 (nonce ++ spki.toList ++ [UInt8.ofNat i])).toList := by
  simp [gpuNonces, deriveGpuNonce, hi]

theorem board_of_parseHelper {gs : List (List UInt8 × List (List UInt8))}
    (h : parseHelper n (some (runHelper nvml (helperArgs (gpuNonces P n nonce spki)))) = some gs) :
    nvml.deviceGetCount = some n ∧ nvml.CcOn ∧ multiGpuMode nvml = .ok nvmlCcSystemMultigpuNvle ∧ gs.length = n ∧
      ∀ i < n, ∃ raw ders, nvml.Answers i (P.sha256 (nonce ++ spki.toList ++ [UInt8.ofNat i])).toList raw
          (ders.map Base64.encode) ∧ raw ≠ [] ∧ ders ≠ [] ∧ gs[i]? = some (raw, ders) := by
  obtain ⟨run, gpus, hrun, -, hgpus, hlen, hmap⟩ := parseHelper_eq_some.mp h
  cases hrun
  obtain ⟨-, -, -, hboard⟩ := gpuReportMain_helperArgs.mp (main_of_stdout hgpus)
  obtain ⟨hcount, hcc, hmode, hdevices⟩ := attestBoard_eq_ok.mp hboard
  have hnonces : ((gpuNonces P n nonce spki).map Vector.toList).length = n := by simp [gpuNonces]
  rw [hnonces] at hcount hdevices
  have hdecoded := mapM_eq_some_iff.mp hmap
  refine ⟨hcount, hcc, hmode, hdecoded.length_eq.symm.trans hlen, ?_⟩
  intro i hi
  obtain ⟨g, hg, hdevice⟩ := forall₂_getElem? hdevices (List.getElem?_range hi)
  obtain ⟨raw, chain, hanswers, hraw, hchain, rfl⟩ := (attestDevice_eq_ok (gpuNonces_getElem? hi)).mp hdevice
  obtain ⟨ders, rfl⟩ := hanswers.encoded
  have hders : ders ≠ [] := by
    rintro rfl
    exact hchain rfl
  obtain ⟨d, hd, hdecode⟩ := forall₂_getElem? hdecoded hg
  rw [decodeGpu_encode hraw hders] at hdecode
  cases hdecode
  exact ⟨raw, ders, hanswers, hraw, hders, hd⟩

theorem boundToSlots_of_parseHelper (hn : n ≤ 256) {gs : List (List UInt8 × List (List UInt8))} (quote : List UInt8)
    (h : parseHelper n (some (runHelper nvml (helperArgs (gpuNonces P n nonce spki)))) = some gs) :
    BoundToSlots P n spki nonce nvml (envelope quote (pckChainFromQuote quote) gs) := by
  obtain ⟨-, -, -, hlen, hslots⟩ := board_of_parseHelper h
  refine ⟨by simp [envelope, hlen], by simp [envelope, hlen], ?_⟩
  intro i hi
  obtain ⟨raw, ders, hanswers, hraw, hders, hgs⟩ := hslots i hi
  refine ⟨UInt8.ofNat i, raw, ders, UInt8.toNat_ofNat_of_lt (Nat.lt_of_lt_of_le hi hn), hanswers, hraw, hders, ?_, ?_⟩
  · simp [envelope, hgs, b64Encode_eq]
  · simp [envelope, hgs, funext b64Encode_eq]

theorem not_defective_of_parseHelper {gs : List (List UInt8 × List (List UInt8))}
    (h : parseHelper n (some (runHelper nvml (helperArgs (gpuNonces P n nonce spki)))) = some gs) :
    ¬ Defective P n spki nonce nvml := by
  obtain ⟨hcount, hcc, hmode, -, hslots⟩ := board_of_parseHelper h
  rintro (hne | hoff | hother | ⟨index, hindex, hempty⟩)
  · exact hne hcount
  · exact hoff hcc
  · exact hother hmode
  · obtain ⟨raw, ders, hanswers, hraw, hders, -⟩ := hslots index.toNat hindex
    rw [UInt8.ofNat_toNat] at hanswers
    rcases hempty raw _ hanswers with hnil | hnil
    · exact hraw hnil
    · exact hders (List.map_eq_nil_iff.mp hnil)

end Board

/-- Every run of the helper is a run of the script over this NVML, or did not start. -/
def HelperOver (nvml : Nvml) (cs : List (Performed Op Ans)) : Prop :=
  ∀ args out, (args, out) ∈ helperRuns cs → out = none ∨ out = some (runHelper nvml args)

theorem gpu_evidence_bound_to_slots (P : Primitives) {n : Nat} (hn : n ≤ 256) (spki : Vector UInt8 32)
    (client : Option Pubkey) (q : AttestationQuery) {cs : List (Performed Op Ans)} {r : Response}
    (h : Follows (attestationHandler P n spki client q) cs (.pure r)) :
    (∀ nvml, HelperOver nvml cs →
      (∀ e, r.body = .envelope e → ∃ s nonce, q.nonce = some s ∧ hexDecode s = some nonce ∧ nonce.length = 32 ∧
        BoundToSlots P n spki nonce nvml e) ∧
      (∀ s nonce, q.nonce = some s → hexDecode s = some nonce → helperRuns cs ≠ [] →
        Defective P n spki nonce nvml → r = unavailable)) ∧
    ∀ args out, (args, out) ∈ helperRuns cs → ¬ Usable n out → r = unavailable := by
  cases attestation_path h with
  | early hruns hbody =>
    refine ⟨fun nvml _ => ⟨fun e he => absurd he (hbody e), fun _ _ _ _ hran => absurd hruns hran⟩, ?_⟩
    intro args out hmem
    rw [hruns] at hmem
    cases hmem
  | @ran s nonce quote out hs hnonce hlen hruns =>
    refine ⟨?_, ?_⟩
    · intro nvml hover
      have hout := hover _ out (by rw [hruns]; exact List.mem_singleton_self _)
      cases hparse : parseHelper n out with
      | none => exact ⟨fun e he => absurd he (by simp [attestAnswer, err]), fun _ _ _ _ _ _ => rfl⟩
      | some gs =>
        rcases hout with rfl | rfl
        · cases hparse
        refine ⟨?_, ?_⟩
        · intro e he
          cases he
          exact ⟨s, nonce, hs, hnonce, hlen, boundToSlots_of_parseHelper hn quote hparse⟩
        · intro s' nonce' hs' hnonce' _ hdefective
          rw [hs] at hs'
          cases hs'
          rw [hnonce] at hnonce'
          cases hnonce'
          exact absurd hdefective (not_defective_of_parseHelper hparse)
    · intro args out' hmem hunusable
      rw [hruns, List.mem_singleton] at hmem
      cases hmem
      cases hparse : parseHelper n out with
      | none => rfl
      | some gs => exact absurd (usable_of_parseHelper hparse) hunusable

/-! ## Two GPUs

The nonce, the SPKI hash and the digests are the golden vectors of the source's tests. -/

namespace TwoGpus

def nonceHex : String := "000102030405060708090a0b0c0d0e0f101112131415161718191a1b1c1d1e1f"

def nonce : List UInt8 := (List.range 32).map UInt8.ofNat

def spki : Vector UInt8 32 :=
  #v[0xf9, 0x93, 0x9b, 0x4a, 0xc1, 0x20, 0x7a, 0x11, 0xd2, 0x18, 0xb0, 0x7c, 0x9a, 0xde, 0x87, 0x9c,
    0xc8, 0x2f, 0x76, 0x58, 0x5f, 0x33, 0xbe, 0x18, 0xdf, 0x2a, 0x3c, 0x0f, 0x0f, 0x4d, 0xd2, 0x9f]

def digest0 : Vector UInt8 32 :=
  #v[0xb3, 0x1a, 0xc3, 0x40, 0x2d, 0x62, 0x84, 0xdc, 0x6b, 0x63, 0xbc, 0x79, 0x7d, 0x28, 0xa9, 0xb4,
    0x10, 0x7c, 0x05, 0x73, 0x0c, 0xff, 0xd3, 0x5f, 0x42, 0x34, 0x72, 0x3a, 0xd5, 0x0a, 0x53, 0x9e]

def digest1 : Vector UInt8 32 :=
  #v[0x73, 0x32, 0x58, 0x86, 0xc2, 0x44, 0x73, 0xce, 0xe3, 0xe0, 0x92, 0x9d, 0x85, 0xdd, 0x8f, 0xa6,
    0x96, 0xe4, 0x9f, 0x96, 0x4e, 0x87, 0xae, 0x3b, 0xed, 0x7a, 0xa0, 0x18, 0x25, 0x1b, 0x5c, 0x06]

def primitives : Primitives :=
  { Synthetic.primitives with
    sha256 := fun bytes => if bytes = nonce ++ spki.toList ++ [0] then digest0 else digest1 }

def pem : String := "-----BEGIN CERTIFICATE-----\nQU\nI=\n-----END CERTIFICATE-----\n"

/-- Each device answers only the challenge of its own slot. -/
def board : Nvml where
  Device := Nat
  nvmlInit := some ()
  deviceGetCount := some 2
  systemGetConfComputeState := some ⟨some 1⟩
  systemGetConfComputeSettings := some ⟨some 2, none⟩
  deviceGetHandleByIndex i := if i < 2 then some i else none
  deviceGetConfComputeGpuAttestationReport dev challenge :=
    if dev = 0 ∧ challenge = digest0.toList then some ⟨[1, 2, 3, 4, 0], 4⟩
    else if dev = 1 ∧ challenge = digest1.toList then some ⟨[5, 6, 0], 2⟩
    else none
  deviceGetConfComputeGpuCertificate _ := some ⟨asBytes pem, 256⟩
  nvmlShutdown := some ()

def out : HelperRun := runHelper board (helperArgs (gpuNonces primitives 2 nonce spki))

def gpus : List (List UInt8 × List (List UInt8)) := [([1, 2, 3, 4], [[0x41, 0x42]]), ([5, 6], [[0x41, 0x42]])]

theorem parsed : parseHelper 2 (some out) = some gpus := by decide +kernel

theorem decoded : hexDecode nonceHex = some nonce := by decide +kernel

def calls : List (Performed Op Ans) :=
  [⟨.tdxQuote (nonce ++ spki.toList), some [1]⟩,
    ⟨.gpuHelper (helperArgs (gpuNonces primitives 2 nonce spki)), some out⟩]

theorem follows : Follows (attestationHandler primitives 2 spki none ⟨some nonceHex⟩) calls
    (.pure ⟨.ok, .envelope (envelope [1] (pckChainFromQuote [1]) gpus)⟩) := by
  have hlen : nonce.length = 32 := rfl
  simp only [attestationHandler, answerQuery, decoded, if_pos hlen, attest_eq, calls]
  have hanswer : attestAnswer [1] (parseHelper 2 (some out)) =
      ⟨.ok, .envelope (envelope [1] (pckChainFromQuote [1]) gpus)⟩ := by rw [parsed, attestAnswer]
  rw [← hanswer]
  exact .cons (.cons (.nil _))

theorem helperOver : HelperOver board calls := by
  intro args run hmem
  simp only [helperRuns, calls, List.filterMap_cons, List.filterMap_nil, List.mem_singleton, Prod.mk.injEq] at hmem
  obtain ⟨rfl, rfl⟩ := hmem
  exact .inr rfl

end TwoGpus

theorem gpu_evidence_bound_to_two_slots :
    BoundToSlots TwoGpus.primitives 2 TwoGpus.spki TwoGpus.nonce TwoGpus.board
      (envelope [1] (pckChainFromQuote [1]) TwoGpus.gpus) := by
  obtain ⟨hboards, -⟩ := gpu_evidence_bound_to_slots TwoGpus.primitives (n := 2) (by decide) TwoGpus.spki none
    ⟨some TwoGpus.nonceHex⟩ TwoGpus.follows
  obtain ⟨s, nonce, hs, hnonce, -, hbound⟩ := (hboards TwoGpus.board TwoGpus.helperOver).1 _ rfl
  cases hs
  rw [TwoGpus.decoded] at hnonce
  cases hnonce
  exact hbound

end IronInstance
