import Mathlib.Data.Set.Card
import IronInstance.ChatRelay
import IronInstance.Replay

/-!
# Only members hold anything

The authorisation invariant of the service. What each handler may ask of the store
is bounded by `Allowed`, a property of its program alone; together with the gate at
the handshake this keeps every stored member a pair of the manifest and every bucket
a pubkey of it, and so bounds both tables by the size of the manifest.
-/

namespace IronInstance
open FiniteMap Programs Runs
set_option autoImplicit false

/-- What a request of `client` may ask: an insert is a pair of the manifest, and the
limiter is charged to the client itself. -/
def Allowed (M : Manifest) (client : Option Pubkey) : Op → Prop
  | .insert entry => M.containsPair entry.clientPubkey entry.memberHash = true
  | .allowAttestation pk _ => client = some pk
  | _ => True

/-! ## The handlers ask only for what is allowed -/

section Handlers
variable {P : Primitives} {M : Manifest} {client : Option Pubkey}

theorem attest_only (count : Nat) (spki : Vector UInt8 32) (nonce : List UInt8) :
    (attest P count spki nonce).Only (Allowed M client) := by
  rw [attest_eq]
  refine ⟨trivial, fun answer => ?_⟩
  cases answer with
  | none => exact trivial
  | some quote => exact ⟨trivial, fun out => trivial⟩

theorem answerQuery_only (count : Nat) (spki : Vector UInt8 32) (q : AttestationQuery) :
    (answerQuery P count spki q).Only (Allowed M client) := by
  unfold answerQuery
  repeat' split
  all_goals first | exact attest_only count spki _ | exact trivial

theorem attestation_only (count : Nat) (spki : Vector UInt8 32) (q : AttestationQuery) :
    (attestationHandler P count spki client q).Only (Allowed M client) := by
  unfold attestationHandler
  cases client with
  | none => exact answerQuery_only count spki q
  | some pk =>
    refine ⟨trivial, fun now => ⟨rfl, fun allowed => ?_⟩⟩
    cases allowed with
    | false => exact trivial
    | true => exact answerQuery_only count spki q

theorem enroll_only (A : Anchors P) (now : UnixTime) (req : EnrollRequest) :
    (enrollHandler P A M now client req).Only (Allowed M client) := by
  unfold enrollHandler
  cases hc : enrollChecks P A M now client req with
  | error r => exact trivial
  | ok i =>
    simp only [issueBearer_eq]
    exact ⟨trivial, fun random => ⟨(enrollChecks_pair P hc).2, fun _ => trivial⟩⟩

theorem relay_only (token : String) (events : List BodyEvent) :
    (relay token events).Only (Allowed M client) := by
  induction events with
  | nil => exact ⟨trivial, fun _ => trivial⟩
  | cons event rest ih =>
    cases event with
    | error => exact ⟨trivial, fun _ => trivial⟩
    | nonData => exact ⟨trivial, fun _ => ih⟩
    | data bytes =>
      rw [relay_data]
      refine ⟨trivial, fun _ => ⟨trivial, fun live => ?_⟩⟩
      cases live with
      | false => exact ⟨trivial, fun _ => trivial⟩
      | true =>
        refine ⟨trivial, fun ok => ?_⟩
        cases ok with
        | false => exact trivial
        | true => exact ih

theorem chat_only (authorization : Option String) (body : List UInt8) :
    (chatHandler authorization body).Only (Allowed M client) := by
  unfold chatHandler
  cases bearer authorization with
  | none => exact trivial
  | some token =>
    refine ⟨trivial, fun live => ?_⟩
    cases live with
    | false => exact trivial
    | true =>
      refine ⟨trivial, fun answer => ?_⟩
      rcases answer with (_ | _) | upstream
      · exact trivial
      · exact trivial
      · show Prog.Only _ (ite _ _ _)
        split
        · exact trivial
        · exact .bind (relay_only token upstream.events) fun _ => trivial

theorem manage_only (A : Anchors P) (env : ManageEnvelope) :
    (manageHandler P A env).Only (Allowed M client) := by
  unfold manageHandler
  cases manageChecks P A env with
  | error r => exact trivial
  | ok action =>
    simp only [guardAndApply_eq]
    refine ⟨trivial, fun fresh => ?_⟩
    cases fresh with
    | false => exact trivial
    | true =>
      show (applyAction action).Only _
      rcases applyAction_cases action with ⟨msg, heq⟩ | ⟨hash, _, heq⟩
      · rw [heq]
        exact trivial
      · rw [heq]
        exact ⟨trivial, fun _ => trivial⟩

theorem route_only (C : Config P) (r : Request) : (route C r).Only (Allowed C.manifest r.client) := by
  unfold route
  cases r.endpoint with
  | attestation q => exact attestation_only _ _ q
  | enroll now req => exact enroll_only _ now req
  | chat authorization body => exact chat_only authorization body
  | manage env => exact manage_only _ env

end Handlers

/-! ## The invariant -/

/-- Everyone who is connected, being served, stored or metered is a member. -/
structure Authorised (M : Manifest) (p : ServiceState) : Prop where
  conns : ∀ conn client, p.shared.conns conn = some client → ∃ pk, client = some pk ∧ M.containsPubkey pk = true
  tasks : ∀ id t, p.task id = some t → ∃ pk, t.req.client = some pk ∧ M.containsPubkey pk = true
  stored : StoredPairs M p.shared.store
  buckets : ∀ pk, pk ∈ p.shared.store.attestBuckets → M.containsPubkey pk = true

section Invariant
variable {P : Primitives} {C : Config P} {M : Manifest} {p q : ServiceState} {s s' : Shared}

theorem authorised_boot : Authorised M bootState where
  conns := by
    intro conn client h
    cases h
  tasks := by
    intro id t h
    cases h
  stored := by
    intro pk m h
    cases h
  buckets := by
    intro pk h
    exact absurd h Finmap.notMem_empty

theorem Exec.storedPairs {o : Op} {a : Ans o} {client : Option Pubkey} (h : Exec s o a s')
    (ho : Allowed M client o) (hs : StoredPairs M s.store) : StoredPairs M s'.store := by
  cases h with
  | insert entry => exact storedPairs_insert hs ho
  | revokeByMemberHash it hash =>
    simp only [Inner.revokeByMemberHash]
    cases s.store.findMember it hash with
    | none => exact hs
    | some pk => exact storedPairs_removeMember hs pk
  | allowAttestation pk now =>
    intro pk' m hm
    rw [Inner.allowAttestation_byPubkey] at hm
    exact hs pk' m hm
  | _ => exact hs

theorem Exec.buckets {o : Op} {a : Ans o} {pk : Pubkey} (h : Exec s o a s') (ho : Allowed M (some pk) o)
    {pk' : Pubkey} (hm : pk' ∈ s'.store.attestBuckets) : pk' = pk ∨ pk' ∈ s.store.attestBuckets := by
  cases h with
  | revokeByMemberHash it hash => exact .inr (by simpa using hm)
  | allowAttestation pk₀ now =>
    cases ho
    exact Inner.mem_allowAttestation_iff.mp hm
  | _ => exact .inr hm

theorem authorised_step {e : ServiceEvent} {es : List ServiceEvent}
    (hrun : Run (ServiceStep C) bootState es p) (hstep : ServiceStep C p e q)
    (h : Authorised C.manifest p) : Authorised C.manifest q := by
  cases hstep with
  | @spawn id req hnone hok =>
    refine ⟨h.conns, ?_, h.stored, h.buckets⟩
    intro id' t ht
    rcases update_some_iff.mp ht with ⟨_, rfl⟩ | ⟨_, hold⟩
    · obtain ⟨conn, hconn⟩ := hok
      exact h.conns conn _ hconn
    · exact h.tasks id' t hold
  | @perform id req done o k a s hsome hexec =>
    -- the operation is one the handler of this client may ask for
    obtain ⟨hallowed, -⟩ := Prog.Only.of_follows (Pool.follows hrun hsome) (route_only C req)
    obtain ⟨pk, hclient, hpk⟩ := h.tasks id _ hsome
    have ho : Allowed C.manifest (some pk) o := hclient ▸ hallowed.1
    have hshared : s.conns = p.shared.conns := by
      cases hexec <;> rfl
    refine ⟨?_, ?_, Exec.storedPairs hexec ho h.stored, ?_⟩
    · intro conn client hconn
      exact h.conns conn client (hshared ▸ hconn)
    · intro id' t ht
      rcases update_some_iff.mp ht with ⟨_, rfl⟩ | ⟨_, hold⟩
      · exact ⟨pk, hclient, hpk⟩
      · exact h.tasks id' t hold
    · intro pk' hm
      rcases Exec.buckets hexec ho hm with rfl | hold
      · exact hpk
      · exact h.buckets pk' hold
  | env henv =>
    cases henv with
    | @handshake conn leaf rest hfree hok =>
      refine ⟨?_, h.tasks, h.stored, h.buckets⟩
      intro conn' client hconn
      rcases update_some_iff.mp hconn with ⟨_, rfl⟩ | ⟨_, hold⟩
      · exact acceptedPubkey_of_verified P hok
      · exact h.conns conn' client hold
    | close conn =>
      refine ⟨?_, h.tasks, h.stored, h.buckets⟩
      intro conn' client hconn
      by_cases hc : conn' = conn
      · subst hc
        simp at hconn
      · exact h.conns conn' client (by simpa [hc] using hconn)
    | tick _ => exact ⟨h.conns, h.tasks, h.stored, h.buckets⟩

theorem authorised_run {es : List ServiceEvent} (h : Run (ServiceStep C) bootState es p) :
    Authorised C.manifest p :=
  h.reverseInduction (P := fun _ p => Authorised C.manifest p) authorised_boot
    fun hrun hstep ih => authorised_step hrun hstep ih

theorem consistent_of_service {es : List ServiceEvent} (h : Run (ServiceStep C) bootState es p)
    (hd : (mintedTokens es).Nodup) : Consistent p.shared.store := by
  obtain ⟨ses, hses, htok⟩ := storeRun_of_service h
  exact consistent_of_distinct hses (htok ▸ hd)

/-! ## Sizes -/

instance : Finite Pubkey := by
  have : Finite UInt8 := Finite.of_injective UInt8.toFin fun _ _ => UInt8.toFin_inj.mp
  refine Finite.of_injective (fun v : Pubkey => fun i : Fin 65 => v.get i) ?_
  intro v w hvw
  apply Vector.ext
  intro i hi
  exact congrFun hvw ⟨i, hi⟩

theorem card_keys_le {β : Type} {m : Finmap fun _ : Pubkey => β}
    (h : ∀ pk, pk ∈ m → M.containsPubkey pk = true) :
    m.keys.card ≤ Set.ncard { pk : Pubkey | M.containsPubkey pk = true } := by
  rw [← Set.ncard_coe_finset]
  exact Set.ncard_le_ncard (fun pk hpk => h pk (Finmap.mem_keys.mp hpk)) (Set.toFinite _)

theorem Consistent.card_byToken_le {g : Inner} (h : Consistent g) :
    g.byToken.keys.card ≤ deviceCap * g.byPubkey.keys.card := by
  rw [h.card_byToken, Nat.mul_comm]
  refine Finset.sum_le_card_nsmul _ _ _ fun pk _ => ?_
  rw [Inner.sessionCount_eq]
  exact h.length_le pk

theorem StoredPairs.containsPubkey {g : Inner} (h : StoredPairs M g) {pk : Pubkey} (hm : pk ∈ g.byPubkey) :
    M.containsPubkey pk = true := by
  obtain ⟨m, hm⟩ := Finmap.mem_iff.mp hm
  exact Manifest.containsPubkey_of_pair (h pk m hm)

/-! ## The answers of /enroll -/

inductive EnrollPath (checks : Except Response Identity) : List (Performed Op Ans) → Handler Response → Prop where
  | rejected {r : Response} (h : checks = .error r) : EnrollPath checks [] (.pure r)
  | checked {i : Identity} (h : checks = .ok i) : EnrollPath checks [] (issueBearer i)
  | minted {i : Identity} (h : checks = .ok i) (random : Vector UInt8 32) :
      EnrollPath checks [⟨.random32, random⟩] (.call (.insert (i.entry (b64urlNopad random.toList))) fun inserted =>
        .pure (bearerResponse (b64urlNopad random.toList) inserted))
  | answered {i : Identity} (h : checks = .ok i) (random : Vector UInt8 32) (inserted : Bool) :
      EnrollPath checks [⟨.random32, random⟩, ⟨.insert (i.entry (b64urlNopad random.toList)), inserted⟩]
        (.pure (bearerResponse (b64urlNopad random.toList) inserted))

theorem enroll_path {A : Anchors P} {now : UnixTime} {client : Option Pubkey} {req : EnrollRequest}
    {done : List (Performed Op Ans)} {prog : Handler Response}
    (h : Follows (enrollHandler P A M now client req) done prog) :
    EnrollPath (enrollChecks P A M now client req) done prog := by
  unfold enrollHandler at h
  cases hc : enrollChecks P A M now client req with
  | error r =>
    rw [hc] at h
    obtain ⟨rfl, rfl⟩ := Follows.pure_iff.mp h
    exact .rejected rfl
  | ok i =>
    rw [hc] at h
    simp only [issueBearer_eq, Follows.call_iff] at h
    rcases h with ⟨rfl, rfl⟩ | ⟨random, cs, rfl, ⟨rfl, rfl⟩ | ⟨inserted, cs, rfl, h⟩⟩
    · rw [← issueBearer_eq]
      exact .checked rfl
    · exact .minted rfl random
    · obtain ⟨rfl, rfl⟩ := Follows.pure_iff.mp h
      exact .answered rfl random inserted

theorem task_enrollPath {es : List ServiceEvent} (h : Run (ServiceStep C) bootState es p) {id : Nat}
    {t : Task Request Op Ans Response} {now : UnixTime} {req : EnrollRequest} (ht : p.task id = some t)
    (hend : t.req.endpoint = .enroll now req) :
    EnrollPath (enrollChecks P C.anchors C.manifest now t.req.client req) t.done t.prog := by
  have hstart : route C t.req = enrollHandler P C.anchors C.manifest now t.req.client req := by
    unfold route
    rw [hend]
  exact enroll_path (hstart ▸ Pool.follows h ht)

theorem insert_answers_true {es : List ServiceEvent} (h : Run (ServiceStep C) bootState es p) {id : Nat}
    {t : Task Request Op Ans Response} (ht : p.task id = some t) {entry : MemberEntry} {ok : Bool}
    (hm : ⟨.insert entry, ok⟩ ∈ t.done) : ok = true := by
  obtain ⟨_, _, a, b, -, -, hstep, -⟩ := h.split_at (Pool.performed_of_done h ht hm)
  obtain ⟨_, _, _, _, hexec, _⟩ := Pool.perform_inv hstep
  exact (Exec.insert_eq hexec).1

theorem enroll_answer {es : List ServiceEvent} (h : Run (ServiceStep C) bootState es p) {id : Nat}
    {t : Task Request Op Ans Response} {now : UnixTime} {req : EnrollRequest} {r : Response}
    (ht : p.task id = some t) (hend : t.req.endpoint = .enroll now req) (hr : t.prog = .pure r) :
    (enrollChecks P C.anchors C.manifest now t.req.client req = .error r ∧ t.done = []) ∨
      ∃ i token, enrollChecks P C.anchors C.manifest now t.req.client req = .ok i ∧ r = ⟨.ok, .sessionToken token⟩ := by
  have hpath := task_enrollPath h ht hend
  have hinsert := @insert_answers_true _ _ _ _ h id t ht
  rw [hr] at hpath
  generalize hp : (Prog.pure r : Handler Response) = prog at hpath
  generalize hd : t.done = done at hpath hinsert ⊢
  cases hpath with
  | rejected hc =>
    cases hp
    exact .inl ⟨hc, rfl⟩
  | checked hc =>
    rw [issueBearer_eq] at hp
    cases hp
  | minted hc random => cases hp
  | answered hc random inserted =>
    cases hp
    have htrue : inserted = true := hinsert (List.mem_cons_of_mem _ List.mem_cons_self)
    subst htrue
    exact .inr ⟨_, _, hc, rfl⟩

end Invariant

/-- Authorisation and size of the member store, and the answers of /enroll, in every
state the service can reach. -/
theorem service_members_only {P : Primitives} {C : Config P} {es : List ServiceEvent} {p : ServiceState}
    (h : Run (ServiceStep C) bootState es p) (hd : (mintedTokens es).Nodup) :
    -- a live token belongs to a pair that one entry of the manifest matches on both fields
    (∀ t, p.shared.store.containsToken t = true → ∃ entry, p.shared.store.getByToken t = some entry ∧
      ∃ m ∈ C.manifest.members, eqIgnoreAsciiCase m.pubkey (hexEncode entry.clientPubkey.toList) = true ∧
        eqIgnoreAsciiCase m.hash (hexEncode entry.memberHash.toList) = true) ∧
    (∀ pk, pk ∈ p.shared.store.byPubkey → C.manifest.containsPubkey pk = true) ∧
    (∀ pk, pk ∈ p.shared.store.attestBuckets → C.manifest.containsPubkey pk = true) ∧
    p.shared.store.byToken.keys.card ≤
      deviceCap * Set.ncard { pk : Pubkey | C.manifest.containsPubkey pk = true } ∧
    p.shared.store.attestBuckets.keys.card ≤ Set.ncard { pk : Pubkey | C.manifest.containsPubkey pk = true } ∧
    -- an enroll answers 200 exactly when everything checks out, never 429
    (∀ id t now req r, p.task id = some t → t.req.endpoint = .enroll now req → t.prog = .pure r →
      (r.status = .ok ↔ ∃ pk claims tx got, t.req.client = some pk ∧
        verifyAppleJwt P now req.appleIdentityJwt C.anchors.appleJwtKeys C.anchors.appleIssuer
          C.anchors.appleAudience = some claims ∧
        verifyStorekitJws P now req.storekitJws C.anchors.storekitRootSha256 C.anchors.storekitBundleId = some tx ∧
        tx.appAccountToken = some got ∧
        uuidEq P.toLowercase (uuidV5 C.anchors.appaccountNamespace (asBytes claims.sub)) got = true ∧
        C.manifest.containsPair pk (memberHashOf P claims tx) = true) ∧
      r.status ≠ .tooManyRequests ∧ (r.status ≠ .ok → KeepsSessions C id es p)) ∧
    -- and every request can be brought to its answer
    (∀ id t, p.task id = some t → ∃ more q done r, Run (ServiceStep C) p more q ∧
      q.task id = some ⟨t.req, done, .pure r⟩ ∧ ∀ e ∈ more, ∃ o a, e = .perform id o a) := by
  have hauth := authorised_run h
  have hc := consistent_of_service h hd
  refine ⟨?_, fun pk => hauth.stored.containsPubkey, hauth.buckets, ?_, card_keys_le hauth.buckets, ?_,
    fun id t ht => Pool.can_finish Exec.total ht⟩
  · intro t ht
    have hsome := hc.held.isSome_getByToken t
    rw [ht, Option.isSome_iff_exists] at hsome
    obtain ⟨entry, hentry⟩ := hsome
    obtain ⟨-, m, hm, hhash⟩ := Inner.member_of_getByToken hentry
    refine ⟨entry, hentry, Manifest.containsPair_iff.mp ?_⟩
    exact hhash ▸ hauth.stored _ m hm
  · calc p.shared.store.byToken.keys.card
        ≤ deviceCap * p.shared.store.byPubkey.keys.card := hc.card_byToken_le
      _ ≤ _ := Nat.mul_le_mul_left _ (card_keys_le fun pk => hauth.stored.containsPubkey)
  · intro id t now req r ht hend hr
    rw [← enrollChecks_passes_iff]
    rcases enroll_answer h ht hend hr with ⟨herr, hdone⟩ | ⟨i, token, hok, rfl⟩
    · have hstatus := enrollChecks_error_status P herr
      refine ⟨iff_of_false ?_ ?_, ?_, fun _ => keepsSessions_of_done ht (by simp [hdone])⟩
      · intro hok
        rw [hok] at hstatus
        simp at hstatus
      · rintro ⟨i, hok⟩
        rw [herr] at hok
        cases hok
      · intro htoo
        rw [htoo] at hstatus
        simp at hstatus
    · exact ⟨iff_of_true rfl ⟨i, hok⟩, by simp, fun hne => absurd rfl hne⟩

theorem service_members_only_single :
    ∃ es p, Run (ServiceStep Synthetic.config) bootState es p ∧
      p.shared.store.containsToken (b64urlNopad (Vector.replicate 32 0).toList) = true ∧
      p.shared.store.byToken.keys.card ≤
        deviceCap * Set.ncard { pk : Pubkey | Synthetic.manifest.containsPubkey pk = true } := by
  obtain ⟨es, p, hrun, hminted, hs, -⟩ := Synthetic.serve 1 (.enroll Synthetic.now Synthetic.request) rfl
    Synthetic.connected_conns
    (Synthetic.follows_enroll (Vector.replicate 32 0)) (Synthetic.performs_enroll _ _)
  refine ⟨_, p, Synthetic.run_connected.append hrun, ?_, ?_⟩
  · rw [hs]
    exact Inner.containsToken_insert _ _
  · refine (service_members_only (Synthetic.run_connected.append hrun) ?_).2.2.2.1
    rw [mintedTokens_append, hminted]
    decide

end IronInstance
