import IronInstance.Enroll
import IronInstance.Library.Traverse

/-!
# Which StoreKit signatures are accepted

`verify_storekit_jws` walks the x5c chain twice, once for the link signatures and once
for the path constraints. Read together the two walks say what each certificate must
satisfy at its position; the one check that is not made of every issuer is that its
keyUsage extension can be read at all.
-/

namespace IronInstance
open Traverse
set_option autoImplicit false

section Walks
variable {P : Primitives} {now : UnixTime}

/-! ## The two walks, by position -/

theorem verifyLinks_iff {certs : List P.Cert} : verifyLinks P certs = true ↔
    ∀ i c issuer, certs[i]? = some c → certs[i + 1]? = some issuer → P.verifySignature c issuer = true := by
  induction certs with
  | nil => simp [verifyLinks]
  | cons c rest ih =>
    cases rest with
    | nil => simp [verifyLinks]
    | cons issuer rest =>
      rw [verifyLinks, Bool.and_eq_true, ih]
      constructor
      · rintro ⟨hfirst, hrest⟩ i c' issuer' hc hissuer
        cases i with
        | zero =>
          cases hc
          cases hissuer
          exact hfirst
        | succ i => exact hrest i c' issuer' hc hissuer
      · intro h
        exact ⟨h 0 c issuer rfl rfl, fun i c' issuer' hc hissuer => h (i + 1) c' issuer' hc hissuer⟩

theorem checkPath_iff {depth : Nat} {certs : List P.Cert} : checkPath P now depth certs = true ↔
    ∀ d c, certs[d]? = some c → checkCert P now (depth + d) c = true := by
  induction certs generalizing depth with
  | nil => simp [checkPath]
  | cons cert rest ih =>
    rw [checkPath, Bool.and_eq_true, ih]
    constructor
    · rintro ⟨hfirst, hrest⟩ d c hc
      cases d with
      | zero =>
        cases hc
        exact hfirst
      | succ d =>
        rw [Nat.add_comm d 1, ← Nat.add_assoc]
        exact hrest d c hc
    · intro h
      refine ⟨h 0 cert rfl, ?_⟩
      intro d c hc
      rw [Nat.add_assoc, Nat.add_comm 1 d]
      exact h (d + 1) c hc

/-- What the code asks of an issuer's keyUsage: a value that was read asserts keyCertSign. -/
def UsageTolerated (P : Primitives) (c : P.Cert) : Prop :=
  ∀ ku, P.keyUsage c = .ok (some ku) → ku.keyCertSign = true

/-- A CA within its path length, with `below` certificates between it and the leaf. -/
def IsCa (P : Primitives) (below : Nat) (c : P.Cert) : Prop :=
  ∃ bc, P.basicConstraints c = .ok (some bc) ∧ bc.ca = true ∧ ∀ max, bc.pathLenConstraint = some max → below ≤ max

theorem checkCert_leaf {c : P.Cert} : checkCert P now 0 c = true ↔ P.isValid c now = true := by
  unfold checkCert
  cases P.isValid c now <;> simp

theorem checkCert_issuer {below : Nat} {c : P.Cert} : checkCert P now (below + 1) c = true ↔
    P.isValid c now = true ∧ IsCa P below c ∧ UsageTolerated P c := by
  unfold checkCert IsCa UsageTolerated
  cases P.isValid c now with
  | false => simp
  | true =>
    cases P.basicConstraints c with
    | error _ => simp
    | ok constraints =>
      cases constraints with
      | none => simp
      | some bc =>
        cases hca : bc.ca with
        | false => simp [hca]
        | true =>
          rcases hku : P.keyUsage c with _ | _ | ku <;> cases hmax : bc.pathLenConstraint <;> simp [hca, hmax]

end Walks

/-! ## The whole verification -/

/-- The certificates of the header's x5c, decoded and parsed in order. -/
structure IsChain (P : Primitives) (jws : String) (ders : List (List UInt8)) (certs : List P.Cert) : Prop where
  decoded : ∃ header x5c, P.decodeHeader jws = some header ∧ header.x5c = some x5c ∧
    List.Forall₂ (fun s der => b64DecodeAny s = some der) x5c ders
  parsed : List.Forall₂ (fun der c => P.fromDer der = some c) ders certs

/-- Certificates strictly between the leaf and position `d`. -/
def between {α : Type} (certs : List α) (d : Nat) : List α := (certs.take d).drop 1

/-- Every check of the verification except the one of keyUsage. -/
structure Verifies (P : Primitives) (now : UnixTime) (jws : String) (rootSha256 : Vector UInt8 32)
    (expectedBundleId : String) (ders : List (List UInt8)) (certs : List P.Cert) (payload : StoreKitPayload) : Prop where
  alg : ∃ header, P.decodeHeader jws = some header ∧ header.alg = .ES256
  chain : IsChain P jws ders certs
  length : 2 ≤ certs.length ∧ certs.length ≤ 5
  root : ∃ last, ders.getLast? = some last ∧ P.sha256 last = rootSha256
  links : ∀ i c issuer, certs[i]? = some c → certs[i + 1]? = some issuer → P.verifySignature c issuer = true
  valid : ∀ c ∈ certs, P.isValid c now = true
  issuers : ∀ d c, 1 ≤ d → certs[d]? = some c → IsCa P (between certs d).length c
  signed : ∃ leaf, certs[0]? = some leaf ∧
    P.decodeStoreKit jws (P.fromEcDer (P.subjectPublicKey leaf)) storekitValidation now = some payload
  bundle : payload.bundleId = expectedBundleId
  ids : payload.originalTransactionId ≠ "" ∧ payload.transactionId ≠ "" ∧ payload.productId ≠ ""

section Verification
variable {P : Primitives} {now : UnixTime} {jws : String} {rootSha256 : Vector UInt8 32} {expectedBundleId : String}
  {payload : StoreKitPayload}

theorem length_between {α : Type} {certs : List α} {d : Nat} {c : α} (h : certs[d]? = some c) :
    (between certs d).length = d - 1 := by
  obtain ⟨hd, -⟩ := List.getElem?_eq_some_iff.mp h
  simp only [between, List.length_drop, List.length_take]
  omega

theorem checkPath_zero_iff {certs : List P.Cert} : checkPath P now 0 certs = true ↔
    (∀ c ∈ certs, P.isValid c now = true) ∧
      (∀ d c, 1 ≤ d → certs[d]? = some c → IsCa P (between certs d).length c) ∧
      ∀ c ∈ certs.tail, UsageTolerated P c := by
  have hsplit : checkPath P now 0 certs = true ↔ ∀ d c, certs[d]? = some c → P.isValid c now = true ∧
      (1 ≤ d → IsCa P (between certs d).length c ∧ UsageTolerated P c) := by
    rw [checkPath_iff]
    refine forall₃_congr fun d c hc => ?_
    rw [length_between hc, Nat.zero_add]
    cases d with
    | zero => simp [checkCert_leaf]
    | succ below => simp [checkCert_issuer]
  rw [hsplit]
  constructor
  · intro h
    refine ⟨?_, fun d c hd hc => ((h d c hc).2 hd).1, ?_⟩
    · intro c hmem
      obtain ⟨d, hc⟩ := List.mem_iff_getElem?.mp hmem
      exact (h d c hc).1
    · intro c hmem
      obtain ⟨d, hc⟩ := List.mem_iff_getElem?.mp hmem
      rw [List.getElem?_tail] at hc
      exact ((h (d + 1) c hc).2 (Nat.le_add_left 1 d)).2
  · rintro ⟨hvalid, hissuers, husage⟩ d c hc
    refine ⟨hvalid c (List.mem_of_getElem? hc), fun hd => ⟨hissuers d c hd hc, husage c ?_⟩⟩
    refine List.mem_iff_getElem?.mpr ⟨d - 1, ?_⟩
    rwa [List.getElem?_tail, Nat.sub_add_cancel hd]

theorem verifyStorekitJws_iff : verifyStorekitJws P now jws rootSha256 expectedBundleId = some payload ↔
    ∃ ders certs, Verifies P now jws rootSha256 expectedBundleId ders certs payload ∧
      ∀ c ∈ certs.tail, UsageTolerated P c := by
  unfold verifyStorekitJws
  simp only [Option.bind_eq_bind, Option.bind_none, Option.ite_none_left_eq_some, Option.bind_eq_some_iff,
    Option.some.injEq, mapM_eq_some_iff, Bool.not_eq_true', Bool.not_eq_false, verifyLinks_iff, checkPath_zero_iff]
  constructor
  · rintro ⟨header, hheader, halg, x5c, hx5c, hlen, ders, hders, last, hlast, hroot, certs, hcerts, hlinks,
      ⟨hvalid, hissuers, husage⟩, leaf, hleaf, payload', hsigned, hfields, rfl⟩
    have hcount : certs.length = x5c.length := by rw [← hcerts.length_eq, ← hders.length_eq]
    simp only [not_or, not_lt, ne_eq, not_not] at halg hlen hroot hfields
    rw [List.head?_eq_getElem?] at hleaf
    exact ⟨ders, certs,
      { alg := ⟨header, hheader, halg⟩
        chain := ⟨⟨header, x5c, hheader, hx5c, hders⟩, hcerts⟩
        length := by rwa [hcount]
        root := ⟨last, hlast, hroot⟩
        links := hlinks
        valid := hvalid
        issuers := hissuers
        signed := ⟨leaf, hleaf, hsigned⟩
        bundle := hfields.1
        ids := hfields.2 }, husage⟩
  · rintro ⟨ders, certs, h, husage⟩
    obtain ⟨header, hheader, halg⟩ := h.alg
    obtain ⟨header', x5c, hheader', hx5c, hders⟩ := h.chain.decoded
    obtain ⟨last, hlast, hroot⟩ := h.root
    obtain ⟨leaf, hleaf, hsigned⟩ := h.signed
    rw [hheader] at hheader'
    cases hheader'
    have hcount : certs.length = x5c.length := by rw [← h.chain.parsed.length_eq, ← hders.length_eq]
    have hlen := h.length
    rw [hcount] at hlen
    rw [← List.head?_eq_getElem?] at hleaf
    refine ⟨header, hheader, by simp [halg], x5c, hx5c, by omega, ders, hders, last, hlast, by simp [hroot], certs,
      h.chain.parsed, h.links, ⟨h.valid, h.issuers, husage⟩, leaf, hleaf, payload, hsigned, ?_, rfl⟩
    simp [h.bundle, h.ids]

/-! ## Readers that fail -/

/-- keyUsage was read, and asserts keyCertSign if the certificate carries it. -/
def UsageConfirmed (P : Primitives) (c : P.Cert) : Prop :=
  ∃ usage, P.keyUsage c = .ok usage ∧ ∀ ku, usage = some ku → ku.keyCertSign = true

/-- Neither extension reader fails on a certificate of the chain. -/
def ReadersSucceed (P : Primitives) (jws : String) : Prop :=
  ∀ ders certs, IsChain P jws ders certs → ∀ c ∈ certs,
    (∃ constraints, P.basicConstraints c = .ok constraints) ∧ ∃ usage, P.keyUsage c = .ok usage

theorem usageConfirmed_iff {c : P.Cert} :
    UsageConfirmed P c ↔ (∃ usage, P.keyUsage c = .ok usage) ∧ UsageTolerated P c := by
  unfold UsageConfirmed UsageTolerated
  cases P.keyUsage c <;> simp

theorem IsChain.unique {ders ders' : List (List UInt8)} {certs certs' : List P.Cert}
    (h : IsChain P jws ders certs) (h' : IsChain P jws ders' certs') : ders = ders' ∧ certs = certs' := by
  obtain ⟨header, x5c, hheader, hx5c, hders⟩ := h.decoded
  obtain ⟨header', x5c', hheader', hx5c', hders'⟩ := h'.decoded
  rw [hheader] at hheader'
  cases hheader'
  rw [hx5c] at hx5c'
  cases hx5c'
  rw [← mapM_eq_some_iff] at hders hders'
  rw [hders] at hders'
  cases hders'
  have hparsed := h.parsed
  have hparsed' := h'.parsed
  rw [← mapM_eq_some_iff] at hparsed hparsed'
  rw [hparsed] at hparsed'
  cases hparsed'
  exact ⟨rfl, rfl⟩

/-- `(depth as u32) - 1` of a chain of admitted length. -/
theorem depth_sub_one {certs : List P.Cert} {d : Nat} {c : P.Cert} (hlen : certs.length ≤ 5) (hd : 1 ≤ d)
    (hc : certs[d]? = some c) : 1 ≤ UInt32.ofNat d ∧ (UInt32.ofNat d - 1).toNat = (between certs d).length := by
  obtain ⟨hlt, -⟩ := List.getElem?_eq_some_iff.mp hc
  have hval : (UInt32.ofNat d).toNat = d := UInt32.toNat_ofNat_of_lt' (by
    show d < 4294967296
    omega)
  have hone : 1 ≤ UInt32.ofNat d := by
    rw [UInt32.le_iff_toNat_le, hval]
    exact hd
  refine ⟨hone, ?_⟩
  rw [UInt32.toNat_sub_of_le _ _ hone, hval, length_between hc]
  rfl

theorem storekit_accepts_iff (hread : ReadersSucceed P jws) :
    (verifyStorekitJws P now jws rootSha256 expectedBundleId = some payload ↔
      ∃ ders certs, Verifies P now jws rootSha256 expectedBundleId ders certs payload ∧
        ∀ c ∈ certs.tail, UsageConfirmed P c) ∧
    -- the subtraction of the path length check never wraps
    (∀ ders certs, IsChain P jws ders certs → certs.length ≤ 5 → ∀ d c, 1 ≤ d → certs[d]? = some c →
      1 ≤ UInt32.ofNat d ∧ (UInt32.ofNat d - 1).toNat = (between certs d).length) := by
  refine ⟨?_, fun _ _ _ hlen _ _ hd hc => depth_sub_one hlen hd hc⟩
  rw [verifyStorekitJws_iff]
  refine exists₂_congr fun ders certs => and_congr_right fun hverifies => forall₂_congr fun c hc => ?_
  have husage := (hread ders certs hverifies.chain c (List.mem_of_mem_tail hc)).2
  rw [usageConfirmed_iff, and_iff_right husage]

/-- A chain on which a reader fails above the leaf is refused, and an accepted chain has
every keyUsage confirmed. -/
def FailsClosed (P : Primitives) (now : UnixTime) (jws : String) (rootSha256 : Vector UInt8 32)
    (expectedBundleId : String) : Prop :=
  ∀ ders certs, IsChain P jws ders certs →
    ((∃ c ∈ certs.tail, (∃ e, P.basicConstraints c = .error e) ∨ ∃ e, P.keyUsage c = .error e) →
      verifyStorekitJws P now jws rootSha256 expectedBundleId = none) ∧
    (∀ payload, verifyStorekitJws P now jws rootSha256 expectedBundleId = some payload →
      ∀ c ∈ certs.tail, UsageConfirmed P c)

theorem failsClosed_iff : FailsClosed P now jws rootSha256 expectedBundleId ↔
    ∀ ders certs payload, Verifies P now jws rootSha256 expectedBundleId ders certs payload →
      (∀ c ∈ certs.tail, UsageTolerated P c) → ∀ c ∈ certs.tail, ∃ usage, P.keyUsage c = .ok usage := by
  constructor
  · intro h ders certs payload hverifies htolerated c hc
    have haccepted := verifyStorekitJws_iff.mpr ⟨ders, certs, hverifies, htolerated⟩
    exact (usageConfirmed_iff.mp ((h ders certs hverifies.chain).2 payload haccepted c hc)).1
  · intro h ders certs hchain
    have hconfirmed : ∀ payload, verifyStorekitJws P now jws rootSha256 expectedBundleId = some payload →
        ∀ c ∈ certs.tail, (∃ bc, P.basicConstraints c = .ok (some bc)) ∧ UsageConfirmed P c := by
      intro payload haccepted c hc
      obtain ⟨ders', certs', hverifies, htolerated⟩ := verifyStorekitJws_iff.mp haccepted
      obtain ⟨rfl, rfl⟩ := hchain.unique hverifies.chain
      obtain ⟨d, hd⟩ := List.mem_iff_getElem?.mp hc
      rw [List.getElem?_tail] at hd
      obtain ⟨bc, hbc, -⟩ := hverifies.issuers (d + 1) c (Nat.le_add_left 1 d) hd
      exact ⟨⟨bc, hbc⟩, usageConfirmed_iff.mpr ⟨h ders certs payload hverifies htolerated c hc, htolerated c hc⟩⟩
    refine ⟨?_, fun payload haccepted c hc => (hconfirmed payload haccepted c hc).2⟩
    rintro ⟨c, hc, hfails⟩
    rw [Option.eq_none_iff_forall_ne_some]
    intro payload haccepted
    obtain ⟨⟨bc, hbc⟩, usage, husage, -⟩ := hconfirmed payload haccepted c hc
    rcases hfails with ⟨e, he⟩ | ⟨e, he⟩
    · rw [hbc] at he
      cases he
    · rw [husage] at he
      cases he

end Verification

/-! ## Chains of three -/

namespace Synthetic

/-- The synthetic deployment with an intermediate `C`, whose keyUsage reads as given. -/
def withIntermediate (usage : Except Unit (Option KeyUsage)) : Primitives where
  __ := primitives
  decodeHeader token :=
    if token = "storekit.jws" then some ⟨.ES256, none, some ["QQ==", "Qw==", "Qg=="]⟩ else none
  keyUsage := fun (cert : List UInt8) => if cert = [0x43] then usage else .ok (some ⟨true⟩)

theorem isChain (usage : Except Unit (Option KeyUsage)) :
    IsChain (withIntermediate usage) "storekit.jws" [[0x41], [0x43], [0x42]] [[0x41], [0x43], [0x42]] where
  decoded := ⟨_, _, rfl, rfl, .cons (by decide) (.cons (by decide) (.cons (by decide) .nil))⟩
  parsed := .cons rfl (.cons rfl (.cons rfl .nil))

theorem accepts_signing_intermediate :
    verifyStorekitJws (withIntermediate (.ok (some ⟨true⟩))) now "storekit.jws" rootSha256 "com.rayeeev.IronServer" =
      some payload := by
  decide +kernel

theorem accepts_unreadable_intermediate :
    verifyStorekitJws (withIntermediate (.error ())) now "storekit.jws" rootSha256 "com.rayeeev.IronServer" =
      some payload := by
  decide +kernel

theorem readersSucceed : ReadersSucceed (withIntermediate (.ok (some ⟨true⟩))) "storekit.jws" := by
  intro ders certs hchain c _
  refine ⟨⟨_, rfl⟩, ?_⟩
  by_cases hc : c = ([0x43] : List UInt8)
  · exact ⟨_, if_pos hc⟩
  · exact ⟨_, if_neg hc⟩

end Synthetic

theorem storekit_accepts_iff_three : ∃ ders certs,
    Verifies (Synthetic.withIntermediate (.ok (some ⟨true⟩))) Synthetic.now "storekit.jws" Synthetic.rootSha256
      "com.rayeeev.IronServer" ders certs Synthetic.payload ∧
    ∀ c ∈ certs.tail, UsageConfirmed (Synthetic.withIntermediate (.ok (some ⟨true⟩))) c :=
  (storekit_accepts_iff Synthetic.readersSucceed).1.mp Synthetic.accepts_signing_intermediate

theorem not_failsClosed : ¬ FailsClosed (Synthetic.withIntermediate (.error ())) Synthetic.now "storekit.jws"
    Synthetic.rootSha256 "com.rayeeev.IronServer" := by
  intro h
  have hrefused := (h _ _ (Synthetic.isChain (.error ()))).1 ⟨[0x43], List.mem_cons_self, .inr ⟨(), rfl⟩⟩
  rw [Synthetic.accepts_unreadable_intermediate] at hrefused
  cases hrefused

end IronInstance
