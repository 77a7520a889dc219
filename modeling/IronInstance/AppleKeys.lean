import IronInstance.Membership
import IronInstance.StorekitChain

/-!
# The pinned Apple keys

The identity token of an enroll is checked against the keys that `load_apple_jwt_keys`
takes from the pinned JWKS. It skips every key that is not an RSA signing key and every
one it cannot read, and a later key replaces an earlier one of the same `kid`. Parsing
the JWKS and reading an RSA key are third-party.
-/

namespace IronInstance
open FiniteMap Programs Runs
set_option autoImplicit false

structure Jwk where
  kid : String
  n : String
  e : String
  kty : Option String
  useField : Option String
  deriving DecidableEq

section Loader
variable {K : Type} (fromRsaComponents : String → String → Option K)

def loadKeys : List Jwk → (Finmap fun _ : String => K) → Finmap fun _ : String => K
  | [], out => out
  | k :: ks, out =>
    if k.kty ≠ some "RSA" then loadKeys ks out
    else if k.useField.any (· != "sig") then loadKeys ks out
    else
      match fromRsaComponents k.n k.e with
      | some dk => loadKeys ks (out.insert k.kid dk)
      | none => loadKeys ks out

/-- A snapshot that does not parse is a panic, here `none`. -/
def loadAppleJwtKeys (parseJwks : List UInt8 → Option (List Jwk)) (jwksJson : List UInt8) :
    Option (Finmap fun _ : String => K) :=
  (parseJwks jwksJson).map fun keys => loadKeys fromRsaComponents keys ∅

/-! ## Which key a `kid` names -/

/-- An RSA key that is not marked for another use than signing. -/
def Jwk.Signing (k : Jwk) : Prop := k.kty = some "RSA" ∧ ∀ u, k.useField = some u → u = "sig"

/-- The key under `kid`: from the last signing key of that name that can be read. -/
structure KeyOf (keys : List Jwk) (k : Jwk) (key : K) : Prop where
  signing : k.Signing
  read : fromRsaComponents k.n k.e = some key
  last : ∃ pre post, keys = pre ++ k :: post ∧
    ∀ k' ∈ post, k'.kid = k.kid → k'.Signing → fromRsaComponents k'.n k'.e = none

theorem loadKeys_cons (k : Jwk) (ks : List Jwk) (out : Finmap fun _ : String => K) :
    (∃ dk, k.Signing ∧ fromRsaComponents k.n k.e = some dk ∧
      loadKeys fromRsaComponents (k :: ks) out = loadKeys fromRsaComponents ks (out.insert k.kid dk)) ∨
    ((k.Signing → fromRsaComponents k.n k.e = none) ∧
      loadKeys fromRsaComponents (k :: ks) out = loadKeys fromRsaComponents ks out) := by
  rw [loadKeys]
  by_cases hkty : k.kty = some "RSA"
  · rw [if_neg (not_not.mpr hkty)]
    by_cases huse : k.useField.any (· != "sig") = true
    · refine .inr ⟨fun hs => ?_, if_pos huse⟩
      cases hu : k.useField with
      | none => simp [hu] at huse
      | some u => simp [hu, hs.2 u hu] at huse
    · have hsig : k.Signing := by
        refine ⟨hkty, fun u hu => ?_⟩
        simpa [hu] using huse
      rw [if_neg huse]
      cases hread : fromRsaComponents k.n k.e with
      | none => exact .inr ⟨fun _ => rfl, rfl⟩
      | some dk => exact .inl ⟨dk, hsig, rfl, rfl⟩
  · exact .inr ⟨fun hs => absurd hs.1 hkty, if_pos hkty⟩

variable {fromRsaComponents}

theorem lookup_loadKeys {keys : List Jwk} {out : Finmap fun _ : String => K} {kid : String} {key : K} :
    (loadKeys fromRsaComponents keys out).lookup kid = some key ↔
      (∃ k, k.kid = kid ∧ KeyOf fromRsaComponents keys k key) ∨
        (out.lookup kid = some key ∧
          ∀ k ∈ keys, k.kid = kid → k.Signing → fromRsaComponents k.n k.e = none) := by
  induction keys generalizing out with
  | nil =>
    constructor
    · intro h
      exact .inr ⟨h, fun k hk => absurd hk List.not_mem_nil⟩
    · rintro (⟨k, -, -, -, pre, post, hsplit, -⟩ | ⟨h, -⟩)
      · simp at hsplit
      · exact h
  | cons k ks ih =>
    -- a key of the rest wins over `k`; `k`, if it counts, wins over what was there
    have hlater : ∀ {k'}, KeyOf fromRsaComponents ks k' key → KeyOf fromRsaComponents (k :: ks) k' key := by
      rintro k' ⟨hs, hread, pre, post, rfl, hlast⟩
      exact ⟨hs, hread, k :: pre, post, rfl, hlast⟩
    have hback : ∀ {k'}, KeyOf fromRsaComponents (k :: ks) k' key →
        KeyOf fromRsaComponents ks k' key ∨ (k' = k ∧ ∀ k'' ∈ ks, k''.kid = k.kid → k''.Signing →
          fromRsaComponents k''.n k''.e = none) := by
      rintro k' ⟨hs, hread, pre, post, hsplit, hlast⟩
      cases pre with
      | nil =>
        obtain ⟨rfl, rfl⟩ := List.cons.inj hsplit
        exact .inr ⟨rfl, hlast⟩
      | cons x pre =>
        obtain ⟨rfl, rfl⟩ := List.cons.inj hsplit
        exact .inl ⟨hs, hread, pre, post, rfl, hlast⟩
    rcases loadKeys_cons fromRsaComponents k ks out with ⟨dk, hs, hread, heq⟩ | ⟨hnone, heq⟩
    · rw [heq, ih, lookup_insert_eq]
      constructor
      · rintro (⟨k', hk', hkey⟩ | ⟨hout, hrest⟩)
        · exact .inl ⟨k', hk', hlater hkey⟩
        · by_cases hkid : kid = k.kid
          · subst hkid
            rw [if_pos rfl] at hout
            cases hout
            exact .inl ⟨k, rfl, hs, hread, [], ks, rfl, hrest⟩
          · rw [if_neg hkid] at hout
            refine .inr ⟨hout, fun k' hk' hname => ?_⟩
            rcases List.mem_cons.mp hk' with rfl | hk'
            · exact absurd hname.symm hkid
            · exact hrest k' hk' hname
      · rintro (⟨k', hk', hkey⟩ | ⟨hout, hall⟩)
        · rcases hback hkey with hkey' | ⟨rfl, hrest⟩
          · exact .inl ⟨k', hk', hkey'⟩
          · refine .inr ⟨?_, fun k'' hm hname => hrest k'' hm (hname.trans hk'.symm)⟩
            rw [if_pos hk'.symm, ← hread, hkey.read]
        · have hkid : kid ≠ k.kid := by
            rintro rfl
            rw [hall k List.mem_cons_self rfl hs] at hread
            cases hread
          exact .inr ⟨(if_neg hkid).trans hout, fun k' hk' => hall k' (List.mem_cons_of_mem _ hk')⟩
    · rw [heq, ih]
      constructor
      · rintro (⟨k', hk', hkey⟩ | ⟨hout, hrest⟩)
        · exact .inl ⟨k', hk', hlater hkey⟩
        · refine .inr ⟨hout, fun k' hk' hname => ?_⟩
          rcases List.mem_cons.mp hk' with rfl | hk'
          · exact hnone
          · exact hrest k' hk' hname
      · rintro (⟨k', hk', hkey⟩ | ⟨hout, hall⟩)
        · rcases hback hkey with hkey' | ⟨rfl, -⟩
          · exact .inl ⟨k', hk', hkey'⟩
          · have hread := hkey.read
            rw [hnone hkey.signing] at hread
            cases hread
        · exact .inr ⟨hout, fun k' hk' => hall k' (List.mem_cons_of_mem _ hk')⟩

theorem lookup_load {keys : List Jwk} {kid : String} {key : K} :
    (loadKeys fromRsaComponents keys ∅).lookup kid = some key ↔
      ∃ k, k.kid = kid ∧ KeyOf fromRsaComponents keys k key := by
  rw [lookup_loadKeys]
  simp

end Loader

/-! ## The identity token -/

section Token
variable {P : Primitives}

theorem verifyAppleJwt_eq_some {now : UnixTime} {token issuer audience : String}
    {keys : Finmap fun _ : String => P.DecodingKey} {claims : AppleClaims} :
    verifyAppleJwt P now token keys issuer audience = some claims ↔
      ∃ header kid key, P.decodeHeader token = some header ∧ header.alg = .RS256 ∧ header.kid = some kid ∧
        keys.lookup kid = some key ∧
        P.decodeAppleClaims token key (appleValidation issuer audience) now = some claims ∧ claims.iss = issuer ∧
        audContains claims.aud audience = true ∧ 0 < (asBytes claims.sub).length ∧ (asBytes claims.sub).length ≤ 255 := by
  unfold verifyAppleJwt
  simp only [Option.bind_eq_bind, Option.bind_none, Option.ite_none_left_eq_some, Option.bind_eq_some_iff,
    Option.some.injEq, Bool.not_eq_true', Bool.not_eq_false, not_not, ne_eq]
  constructor
  · rintro ⟨header, hheader, halg, kid, hkid, key, hkey, claims', hdecode, hiss, haud, hsub, rfl⟩
    exact ⟨header, kid, key, hheader, halg, hkid, hkey, hdecode, hiss, haud, by omega, by omega⟩
  · rintro ⟨header, kid, key, hheader, halg, hkid, hkey, hdecode, hiss, haud, hpos, hle⟩
    exact ⟨header, hheader, halg, kid, hkid, key, hkey, claims, hdecode, hiss, haud, by omega, rfl⟩

/-- The checks of an identity token that is accepted under the key `k` of the JWKS. -/
structure SignedBy (P : Primitives) (k : Jwk) (key : P.DecodingKey) (A : Anchors P) (now : UnixTime) (token : String)
    (claims : AppleClaims) : Prop where
  header : ∃ header, P.decodeHeader token = some header ∧ header.alg = .RS256 ∧ header.kid = some k.kid
  decoded : P.decodeAppleClaims token key (appleValidation A.appleIssuer A.appleAudience) now = some claims
  iss : claims.iss = A.appleIssuer
  aud : audContains claims.aud A.appleAudience = true
  sub : 0 < (asBytes claims.sub).length ∧ (asBytes claims.sub).length ≤ 255

variable {fromRsaComponents : String → String → Option P.DecodingKey} {jwks : List Jwk}

theorem verifyAppleJwt_pinned {A : Anchors P} (hkeys : A.appleJwtKeys = loadKeys fromRsaComponents jwks ∅)
    {now : UnixTime} {token : String} {claims : AppleClaims} :
    verifyAppleJwt P now token A.appleJwtKeys A.appleIssuer A.appleAudience = some claims ↔
      ∃ k key, KeyOf fromRsaComponents jwks k key ∧ SignedBy P k key A now token claims := by
  rw [verifyAppleJwt_eq_some, hkeys]
  constructor
  · rintro ⟨header, kid, key, hheader, halg, hkid, hkey, hdecode, hiss, haud, hpos, hle⟩
    obtain ⟨k, rfl, hk⟩ := lookup_load.mp hkey
    exact ⟨k, key, hk, ⟨header, hheader, halg, hkid⟩, hdecode, hiss, haud, hpos, hle⟩
  · rintro ⟨k, key, hk, ⟨header, hheader, halg, hkid⟩, hdecode, hiss, haud, hpos, hle⟩
    exact ⟨header, k.kid, key, hheader, halg, hkid, lookup_load.mpr ⟨k, rfl, hk⟩, hdecode, hiss, haud, hpos, hle⟩

/-- Who is admitted, down to the third-party calls: in every run an enroll is answered
with 200 exactly for a member whose identity token is signed by a pinned signing key
and whose receipt is signed under the pinned root. -/
theorem enroll_admits_exactly {C : Config P} {parseJwks : List UInt8 → Option (List Jwk)} {jwksJson : List UInt8}
    (hparse : parseJwks jwksJson = some jwks)
    (hload : loadAppleJwtKeys fromRsaComponents parseJwks jwksJson = some C.anchors.appleJwtKeys)
    {es : List ServiceEvent} {p : ServiceState} (h : Run (ServiceStep C) bootState es p) {id : Nat}
    {t : Task Request Op Ans Response} {now : UnixTime} {req : EnrollRequest} {r : Response}
    (ht : p.task id = some t) (hend : t.req.endpoint = .enroll now req) (hr : t.prog = .pure r) :
    r.status = .ok ↔ ∃ pk k key claims ders certs tx got, t.req.client = some pk ∧
      KeyOf fromRsaComponents jwks k key ∧ SignedBy P k key C.anchors now req.appleIdentityJwt claims ∧
      Verifies P now req.storekitJws C.anchors.storekitRootSha256 C.anchors.storekitBundleId ders certs tx ∧
      (∀ c ∈ certs.tail, UsageTolerated P c) ∧ tx.appAccountToken = some got ∧
      uuidEq P.toLowercase (uuidV5 C.anchors.appaccountNamespace (asBytes claims.sub)) got = true ∧
      C.manifest.containsPair pk (memberHashOf P claims tx) = true := by
  have hkeys : C.anchors.appleJwtKeys = loadKeys fromRsaComponents jwks ∅ := by
    simpa [loadAppleJwtKeys, hparse, eq_comm] using hload
  have hpasses : r.status = .ok ↔ ∃ i, enrollChecks P C.anchors C.manifest now t.req.client req = .ok i := by
    rcases enroll_answer h ht hend hr with ⟨herr, -⟩ | ⟨i, token, hok, rfl⟩
    · have hstatus := enrollChecks_error_status P herr
      rw [herr]
      refine iff_of_false ?_ ?_
      · intro hok
        rw [hok] at hstatus
        simp at hstatus
      · rintro ⟨i, hok⟩
        cases hok
    · exact iff_of_true rfl ⟨i, hok⟩
  rw [hpasses, enrollChecks_passes_iff]
  constructor
  · rintro ⟨pk, claims, tx, got, hclient, hjwt, hjws, hgot, huuid, hpair⟩
    obtain ⟨k, key, hk, hsigned⟩ := (verifyAppleJwt_pinned hkeys).mp hjwt
    obtain ⟨ders, certs, hverifies, husage⟩ := verifyStorekitJws_iff.mp hjws
    exact ⟨pk, k, key, claims, ders, certs, tx, got, hclient, hk, hsigned, hverifies, husage, hgot, huuid, hpair⟩
  · rintro ⟨pk, k, key, claims, ders, certs, tx, got, hclient, hk, hsigned, hverifies, husage, hgot, huuid, hpair⟩
    exact ⟨pk, claims, tx, got, hclient, (verifyAppleJwt_pinned hkeys).mpr ⟨k, key, hk, hsigned⟩,
      verifyStorekitJws_iff.mpr ⟨ders, certs, hverifies, husage⟩, hgot, huuid, hpair⟩

end Token

namespace Synthetic

def jwks : List Jwk := [⟨"test-apple-kid", "AQAB", "AQAB", some "RSA", some "sig"⟩]

def jwksJson : List UInt8 :=
  asBytes ("\x7b\"keys\":[\x7b\"kid\":\"test-apple-kid\",\"n\":\"AQAB\",\"e\":\"AQAB\"," ++
    "\"kty\":\"RSA\",\"use\":\"sig\"\x7d]\x7d")

def parseJwks (bytes : List UInt8) : Option (List Jwk) := if bytes = jwksJson then some jwks else none

theorem parseJwks_eq : parseJwks jwksJson = some jwks := if_pos rfl

theorem load_eq : loadAppleJwtKeys (fun _ _ => some ()) parseJwks jwksJson = some config.anchors.appleJwtKeys := by
  rw [loadAppleJwtKeys, parseJwks_eq]
  rfl

end Synthetic

theorem enroll_admits_exactly_single : ∃ es p t, Run (ServiceStep Synthetic.config) bootState es p ∧
    p.task 1 = some t ∧ ∃ k key claims, KeyOf (fun _ _ => some ()) Synthetic.jwks k key ∧
      SignedBy Synthetic.primitives k key Synthetic.anchors Synthetic.now "apple.jwt" claims := by
  obtain ⟨es, p, hrun, -, -, htask⟩ := Synthetic.serve 1 (.enroll Synthetic.now Synthetic.request) rfl
    Synthetic.connected_conns
    (Synthetic.follows_enroll (Vector.replicate 32 0)) (Synthetic.performs_enroll _ _)
  have ht := congrFun htask 1
  rw [Function.update_self] at ht
  obtain ⟨pk, k, key, claims, ders, certs, tx, got, -, hk, hsigned, -⟩ :=
    (enroll_admits_exactly Synthetic.parseJwks_eq Synthetic.load_eq (Synthetic.run_connected.append hrun) ht rfl
      rfl).mp rfl
  exact ⟨_, p, _, Synthetic.run_connected.append hrun, ht, k, key, claims, hk, hsigned⟩

end IronInstance
