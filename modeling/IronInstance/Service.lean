import IronInstance.Attestation
import IronInstance.Chat
import IronInstance.Enroll
import IronInstance.Hex
import IronInstance.Liveness
import IronInstance.Manage
import IronInstance.Mtls
import IronInstance.Revocation

/-!
# The service

Connections pass the mTLS gate, requests arrive on open connections, and every
request runs its handler as a task beside all others. The tasks share the member
store and the clock; an operation of a handler is one step, so a run is any
interleaving of any number of requests.
-/

namespace IronInstance
open FiniteMap Programs Runs
set_option autoImplicit false

structure Config (P : Primitives) where
  anchors : Anchors P
  manifest : Manifest
  spkiSha256 : Vector UInt8 32

inductive Endpoint where
  | attestation (q : AttestationQuery)
  | enroll (now : UnixTime) (req : EnrollRequest)
  | chat (authorization : Option String) (body : List UInt8)
  | manage (env : ManageEnvelope)

structure Request where
  client : Option Pubkey
  endpoint : Endpoint

/-- `build_router`. -/
def route {P : Primitives} (C : Config P) (r : Request) : Handler Response :=
  match r.endpoint with
  | .attestation q => attestationHandler P expectedGpuCount C.spkiSha256 r.client q
  | .enroll now req => enrollHandler P C.anchors C.manifest now r.client req
  | .chat authorization body => chatHandler authorization body
  | .manage env => manageHandler P C.anchors env

structure Shared where
  store : Inner
  clock : Instant
  conns : Nat → Option (Option Pubkey)

def Shared.boot : Shared := ⟨Inner.empty, 0, fun _ => none⟩

/-- Calls whose answer does not come from the process. -/
def Op.outside : Op → Bool
  | .random32 | .tdxQuote _ | .gpuHelper _ | .upstreamRequest _ | .frame | .send _ => true
  | _ => false

inductive Exec : Shared → (o : Op) → Ans o → Shared → Prop where
  | insert (s : Shared) (entry : MemberEntry) :
      Exec s (.insert entry) (s.store.insert entry).1 { s with store := (s.store.insert entry).2 }
  | containsToken (s : Shared) (token : String) :
      Exec s (.containsToken token) (s.store.containsToken token) s
  | revokeByMemberHash (s : Shared) (it : Iteration s.store.byPubkey) (hash : MemberHash) :
      Exec s (.revokeByMemberHash hash) (s.store.revokeByMemberHash it hash).1
        { s with store := (s.store.revokeByMemberHash it hash).2 }
  | noteNonce (s : Shared) (nonce : String) :
      Exec s (.noteNonce nonce) (s.store.noteNonce nonce).1 { s with store := (s.store.noteNonce nonce).2 }
  | instantNow (s : Shared) : Exec s .instantNow s.clock s
  | allowAttestation (s : Shared) (pk : Pubkey) (now : Instant) :
      Exec s (.allowAttestation pk now) (s.store.allowAttestation pk now).1
        { s with store := (s.store.allowAttestation pk now).2 }
  | outside (s : Shared) {o : Op} (a : Ans o) (ho : o.outside = true) : Exec s o a s

inductive EnvEvent where
  | handshake (conn : Nat) (certificates : List (List UInt8))
  | close (conn : Nat)
  | tick (now : Instant)

inductive EnvStep {P : Primitives} (C : Config P) : Shared → EnvEvent → Shared → Prop where
  | handshake {s : Shared} {conn : Nat} {leaf : List UInt8} {rest : List (List UInt8)}
      (hfree : s.conns conn = none) (hok : verifyClientCert P C.manifest leaf = .ok ()) :
      EnvStep C s (.handshake conn (leaf :: rest))
        { s with conns := Function.update s.conns conn (some (acceptedPubkey P (leaf :: rest))) }
  | close (s : Shared) (conn : Nat) :
      EnvStep C s (.close conn) { s with conns := Function.update s.conns conn none }
  | tick {s : Shared} {now : Instant} (h : s.clock ≤ now) : EnvStep C s (.tick now) { s with clock := now }

/-- A request belongs to an open connection and carries the pubkey attached to it. -/
def machine {P : Primitives} (C : Config P) : Machine Shared Request Op Ans Response EnvEvent where
  start := route C
  accepts s r := ∃ conn, s.conns conn = some r.client
  exec := Exec
  env := EnvStep C

abbrev ServiceState := Pool Shared Request Op Ans Response

abbrev ServiceEvent := PoolEvent Request Op Ans EnvEvent

abbrev ServiceStep {P : Primitives} (C : Config P) : ServiceState → ServiceEvent → ServiceState → Prop :=
  PoolStep (machine C)

def bootState : ServiceState := Pool.initial Shared.boot

/-! ## The store behind the service -/

def Op.token : Op → Option String
  | .insert entry => some entry.sessionToken
  | _ => none

def ServiceEvent.minted : ServiceEvent → Option String
  | .perform _ o _ => o.token
  | _ => none

def mintedTokens (es : List ServiceEvent) : List String := es.filterMap ServiceEvent.minted

theorem mintedTokens_append (es fs : List ServiceEvent) :
    mintedTokens (es ++ fs) = mintedTokens es ++ mintedTokens fs :=
  List.filterMap_append

section Store
variable {P : Primitives} {C : Config P} {s s' : Shared}

theorem Exec.revoke_cases {hash : MemberHash} {revoked : Bool} (h : Exec s (.revokeByMemberHash hash) revoked s') :
    (revoked = true ∧ ∃ pk m, s.store.byPubkey.lookup pk = some m ∧ m.memberHash = hash ∧
      s' = { s with store := s.store.removeMember pk }) ∨ (revoked = false ∧ s' = s) := by
  cases h with
  | revokeByMemberHash it =>
    unfold Inner.revokeByMemberHash
    cases hf : s.store.findMember it hash with
    | none => exact .inr ⟨rfl, rfl⟩
    | some pk =>
      obtain ⟨m, hm, hp⟩ := Iteration.find_some hf
      exact .inl ⟨rfl, pk, m, hm, by simpa using hp, rfl⟩
  | outside _ ho => cases ho

theorem Exec.revoke_true {hash : MemberHash} (h : Exec s (.revokeByMemberHash hash) true s') :
    ∃ pk m, s.store.byPubkey.lookup pk = some m ∧ m.memberHash = hash ∧
      s' = { s with store := s.store.removeMember pk } := by
  rcases h.revoke_cases with ⟨-, hmember⟩ | ⟨hfalse, -⟩
  · exact hmember
  · cases hfalse

theorem Exec.revoke_false {hash : MemberHash} (h : Exec s (.revokeByMemberHash hash) false s') : s' = s := by
  rcases h.revoke_cases with ⟨htrue, -⟩ | ⟨-, hsame⟩
  · cases htrue
  · exact hsame

theorem Exec.noteNonce_eq {nonce : String} {fresh : Bool} (h : Exec s (.noteNonce nonce) fresh s') :
    fresh = decide (nonce ∉ s.store.seenNonces) ∧ s' = { s with store := (s.store.noteNonce nonce).2 } := by
  cases h with
  | noteNonce => exact ⟨rfl, rfl⟩
  | outside _ ho => cases ho

theorem Exec.insert_eq {entry : MemberEntry} {ok : Bool} (h : Exec s (.insert entry) ok s') :
    ok = true ∧ s' = { s with store := (s.store.insert entry).2 } := by
  cases h with
  | insert => exact ⟨rfl, rfl⟩
  | outside _ ho => cases ho

theorem Exec.storeRun {o : Op} {a : Ans o} (h : Exec s o a s') :
    ∃ ses, Run Step s.store ses s'.store ∧ insertedTokens ses = o.token.toList := by
  cases h with
  | insert entry => exact ⟨[_], .single (.insert _ entry), rfl⟩
  | containsToken token => exact ⟨[], .nil _, rfl⟩
  | revokeByMemberHash it hash => exact ⟨[_], .single (.revoke _ it hash), rfl⟩
  | noteNonce nonce => exact ⟨[_], .single (.noteNonce _ nonce), rfl⟩
  | instantNow => exact ⟨[], .nil _, rfl⟩
  | allowAttestation pk now => exact ⟨[_], .single (.allowAttestation _ pk now), rfl⟩
  | outside a ho =>
    refine ⟨[], .nil _, ?_⟩
    cases o with
    | insert entry => cases ho
    | _ => rfl

theorem EnvStep.store_eq {e : EnvEvent} (h : EnvStep C s e s') : s'.store = s.store := by
  cases h <;> rfl

/-- Every run of the service is a run of the store. -/
theorem storeRun_of_service {p q : ServiceState} {es : List ServiceEvent} (h : Run (ServiceStep C) p es q) :
    ∃ ses, Run Step p.shared.store ses q.shared.store ∧ insertedTokens ses = mintedTokens es := by
  induction h with
  | nil p => exact ⟨[], .nil _, rfl⟩
  | cons hstep _ ih =>
    obtain ⟨ses, hses, htok⟩ := ih
    cases hstep with
    | spawn _ _ => exact ⟨ses, hses, htok⟩
    | perform _ hexec =>
      obtain ⟨ses', hses', htok'⟩ := Exec.storeRun hexec
      refine ⟨ses' ++ ses, hses'.append hses, ?_⟩
      rw [insertedTokens_append, htok', htok]
      simp only [mintedTokens, List.filterMap_cons, ServiceEvent.minted]
      cases Op.token _ <;> rfl
    | env henv =>
      rw [EnvStep.store_eq henv] at hses
      exact ⟨ses, hses, htok⟩

theorem Exec.total (s : Shared) (o : Op) : ∃ a s', Exec s o a s' := by
  cases o with
  | insert entry => exact ⟨_, _, .insert s entry⟩
  | containsToken token => exact ⟨_, _, .containsToken s token⟩
  | revokeByMemberHash hash =>
    obtain ⟨it⟩ : Nonempty (Iteration s.store.byPubkey) := inferInstance
    exact ⟨_, _, .revokeByMemberHash s it hash⟩
  | noteNonce nonce => exact ⟨_, _, .noteNonce s nonce⟩
  | instantNow => exact ⟨_, _, .instantNow s⟩
  | allowAttestation pk now => exact ⟨_, _, .allowAttestation s pk now⟩
  | random32 => exact ⟨Vector.replicate 32 0, s, .outside s _ rfl⟩
  | tdxQuote reportData => exact ⟨none, s, .outside s _ rfl⟩
  | gpuHelper args => exact ⟨none, s, .outside s _ rfl⟩
  | upstreamRequest body => exact ⟨.error .unavailable, s, .outside s _ rfl⟩
  | frame => exact ⟨(), s, .outside s _ rfl⟩
  | send chunk => exact ⟨true, s, .outside s _ rfl⟩

/-! ## Who touches the sessions -/

def Op.sparesSessions : Op → Bool
  | .insert _ | .revokeByMemberHash _ => false
  | _ => true

theorem Exec.spares {o : Op} {a : Ans o} (h : Exec s o a s') (ho : o.sparesSessions = true) :
    s'.store.byPubkey = s.store.byPubkey ∧ s'.store.byToken = s.store.byToken := by
  cases h with
  | insert entry => cases ho
  | revokeByMemberHash it hash => cases ho
  | allowAttestation pk now => simp
  | _ => exact ⟨rfl, rfl⟩

/-- No step of task `id` along the run changed `by_pubkey` or `by_token`. -/
def KeepsSessions (C : Config P) (id : Nat) (es : List ServiceEvent) (p : ServiceState) : Prop :=
  ∀ pre o a post q q', es = pre ++ .perform id o a :: post → Run (ServiceStep C) bootState pre q →
    ServiceStep C q (.perform id o a) q' → Run (ServiceStep C) q' post p →
    q'.shared.store.byPubkey = q.shared.store.byPubkey ∧ q'.shared.store.byToken = q.shared.store.byToken

theorem keepsSessions_of_done {id : Nat} {es : List ServiceEvent} {p : ServiceState}
    {t : Task Request Op Ans Response} (ht : p.task id = some t)
    (hdone : ∀ c ∈ t.done, c.1.sparesSessions = true) : KeepsSessions C id es p := by
  intro pre o a post q q' _ _ hstep hpost
  obtain ⟨_, _, _, _, hexec, _⟩ := Pool.perform_inv hstep
  exact Exec.spares hexec (hdone _ (Pool.mem_done hstep hpost ht))

end Store

theorem route_enroll {P : Primitives} {C : Config P} {client : Option Pubkey} {now : UnixTime} {req : EnrollRequest}
    {i : Identity} (h : enrollChecks P C.anchors C.manifest now client req = .ok i) :
    route C ⟨client, .enroll now req⟩ = issueBearer i := by
  simp only [route, enrollHandler, h]

/-! ## A synthetic deployment -/

namespace Synthetic

def config : Config primitives := ⟨anchors, manifest, Vector.replicate 32 9⟩

theorem containsPubkey_eq : manifest.containsPubkey pubkey = true :=
  List.any_eq_true.mpr ⟨_, List.mem_singleton.mpr rfl, eqIgnoreAsciiCase_self _⟩

/-- The member's leaf: its raw point, in this deployment. -/
def leaf : List UInt8 := pubkey.toList

theorem clientPoint_eq : clientPointFromCert primitives leaf = some pubkey := by decide +kernel

theorem verifyClientCert_eq : verifyClientCert primitives manifest leaf = .ok () := by
  simp [verifyClientCert, clientPoint_eq, containsPubkey_eq]

def connected : ServiceState :=
  ⟨⟨Inner.empty, 0, Function.update (fun _ => none) 0 (some (acceptedPubkey primitives [leaf]))⟩, fun _ => none⟩

theorem run_connected : Run (ServiceStep config) bootState [.env (.handshake 0 [leaf])] connected :=
  .single (.env (.handshake rfl verifyClientCert_eq))

abbrev Performs : Shared → List (Performed Op Ans) → Shared → Prop := Run fun s c s' => Exec s c.1 c.2 s'

theorem serve {p : ServiceState} (id : Nat) (endpoint : Endpoint) {cs : List (Performed Op Ans)} {r : Response}
    {s : Shared} (hfree : p.task id = none) (hconn : p.shared.conns 0 = some (some pubkey))
    (hf : Follows (route config ⟨some pubkey, endpoint⟩) cs (.pure r)) (hx : Performs p.shared cs s) :
    ∃ es q, Run (ServiceStep config) p es q ∧ mintedTokens es = cs.filterMap (fun c => c.1.token) ∧
      q.shared = s ∧ q.task = Function.update p.task id (some ⟨⟨some pubkey, endpoint⟩, cs, .pure r⟩) := by
  obtain ⟨q, hrun, hs, ht⟩ := Pool.serve (M := machine config) id hfree ⟨0, hconn⟩ hf hx
  refine ⟨_, q, hrun, ?_, hs, ht⟩
  simp only [mintedTokens, List.filterMap_cons, ServiceEvent.minted, List.filterMap_map]
  rfl

theorem connected_conns : connected.shared.conns 0 = some (some pubkey) := by
  simp [connected, acceptedPubkey, clientPoint_eq]

def entry (random : Vector UInt8 32) : MemberEntry := ⟨pubkey, memberHash, b64urlNopad random.toList, originalTx⟩

theorem follows_enroll (random : Vector UInt8 32) :
    Follows (route config ⟨some pubkey, .enroll now request⟩)
      [⟨.random32, random⟩, ⟨.insert (entry random), true⟩]
      (.pure ⟨.ok, .sessionToken (b64urlNopad random.toList)⟩) := by
  have hchecks : enrollChecks primitives config.anchors config.manifest now (some pubkey) request =
      .ok ⟨pubkey, memberHash, originalTx⟩ := checks_eq containsPair_self
  rw [route_enroll hchecks, issueBearer_eq]
  exact .cons (.cons (.nil _))

theorem performs_enroll (s : Shared) (random : Vector UInt8 32) :
    Performs s [⟨.random32, random⟩, ⟨.insert (entry random), true⟩]
      { s with store := (s.store.insert (entry random)).2 } :=
  .cons (Exec.outside s (o := .random32) random rfl) (.single (Exec.insert s (entry random)))

end Synthetic

end IronInstance
