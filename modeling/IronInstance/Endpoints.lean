import IronInstance.Membership

/-!
# What each endpoint may do and answer

`Endpoint.May` and `Endpoint.Shapes` bound what a request does and what it answers by
its endpoint alone. With the paths of the handlers they give the guarantees across all
requests: a prompt leaves the service only for a member's live bearer, and a bearer is
told to the one request that minted it.
-/

namespace IronInstance
open Programs Runs
set_option autoImplicit false

namespace Endpoint

def May : Endpoint → Op → Prop
  | .attestation _, .instantNow | .attestation _, .allowAttestation _ _ => True
  | .attestation _, .tdxQuote _ | .attestation _, .gpuHelper _ => True
  | .enroll _ _, .random32 | .enroll _ _, .insert _ => True
  | .chat authorization _, .containsToken token => bearer authorization = some token
  | .chat _ body, .upstreamRequest sent => sent = body
  | .chat _ _, .frame | .chat _ _, .send _ => True
  | .manage _, .noteNonce _ | .manage _, .revokeByMemberHash _ => True
  | _, _ => False

def Shapes : Endpoint → Body → Prop
  | _, .error _ => True
  | .attestation _, .envelope _ => True
  | .enroll _ _, .sessionToken _ => True
  | .chat _ _, .stream => True
  | .manage _, .revoked _ => True
  | _, _ => False

end Endpoint

/-! ## The handlers keep to their endpoint -/

section Handlers
variable {P : Primitives}

theorem answerQuery_may (count : Nat) (spki : Vector UInt8 32) (q q' : AttestationQuery) :
    (answerQuery P count spki q).Only (Endpoint.attestation q').May := by
  have hattest : ∀ nonce, (attest P count spki nonce).Only (Endpoint.attestation q').May := by
    intro nonce
    rw [attest_eq]
    refine ⟨trivial, fun answer => ?_⟩
    cases answer with
    | none => exact trivial
    | some quote => exact ⟨trivial, fun _ => trivial⟩
  unfold answerQuery
  repeat' split
  all_goals first | exact hattest _ | exact trivial

theorem attestation_may (count : Nat) (spki : Vector UInt8 32) (client : Option Pubkey) (q : AttestationQuery) :
    (attestationHandler P count spki client q).Only (Endpoint.attestation q).May := by
  unfold attestationHandler
  cases client with
  | none => exact answerQuery_may count spki q q
  | some pk =>
    refine ⟨trivial, fun now => ⟨trivial, fun allowed => ?_⟩⟩
    cases allowed with
    | false => exact trivial
    | true => exact answerQuery_may count spki q q

theorem enroll_may (A : Anchors P) (M : Manifest) (now : UnixTime) (client : Option Pubkey) (req : EnrollRequest) :
    (enrollHandler P A M now client req).Only (Endpoint.enroll now req).May := by
  unfold enrollHandler
  cases enrollChecks P A M now client req with
  | error r => exact trivial
  | ok i =>
    simp only [issueBearer_eq]
    exact ⟨trivial, fun _ => ⟨trivial, fun _ => trivial⟩⟩

theorem relay_may {authorization : Option String} {token : String} (hb : bearer authorization = some token)
    (body : List UInt8) (events : List BodyEvent) :
    (relay token events).Only (Endpoint.chat authorization body).May := by
  induction events with
  | nil => exact ⟨trivial, fun _ => trivial⟩
  | cons event rest ih =>
    cases event with
    | error => exact ⟨trivial, fun _ => trivial⟩
    | nonData => exact ⟨trivial, fun _ => ih⟩
    | data bytes =>
      rw [relay_data]
      refine ⟨trivial, fun _ => ⟨hb, fun live => ?_⟩⟩
      cases live with
      | false => exact ⟨trivial, fun _ => trivial⟩
      | true =>
        refine ⟨trivial, fun ok => ?_⟩
        cases ok with
        | false => exact trivial
        | true => exact ih

theorem chat_may (authorization : Option String) (body : List UInt8) :
    (chatHandler authorization body).Only (Endpoint.chat authorization body).May := by
  unfold chatHandler
  cases hb : bearer authorization with
  | none => exact trivial
  | some token =>
    refine ⟨hb, fun live => ?_⟩
    cases live with
    | false => exact trivial
    | true =>
      refine ⟨rfl, fun answer => ?_⟩
      rcases answer with (_ | _) | upstream
      · exact trivial
      · exact trivial
      · show Prog.Only _ (ite _ _ _)
        split
        · exact trivial
        · exact .bind (relay_may hb body upstream.events) fun _ => trivial

theorem manage_may (A : Anchors P) (env : ManageEnvelope) :
    (manageHandler P A env).Only (Endpoint.manage env).May := by
  unfold manageHandler
  cases manageChecks P A env with
  | error r => exact trivial
  | ok action =>
    simp only [guardAndApply_eq]
    refine ⟨trivial, fun fresh => ?_⟩
    cases fresh with
    | false => exact trivial
    | true =>
      show (applyAction action).Only _
      rcases applyAction_cases action with ⟨msg, heq⟩ | ⟨hash, _, heq⟩
      · rw [heq]
        exact trivial
      · rw [heq]
        exact ⟨trivial, fun _ => trivial⟩

theorem route_may (C : Config P) (r : Request) : (route C r).Only r.endpoint.May := by
  unfold route
  cases r.endpoint with
  | attestation q => exact attestation_may _ _ _ q
  | enroll now req => exact enroll_may _ _ now _ req
  | chat authorization body => exact chat_may authorization body
  | manage env => exact manage_may _ env

theorem answerQuery_shapes (count : Nat) (spki : Vector UInt8 32) (q q' : AttestationQuery) :
    (answerQuery P count spki q).Ends fun r => (Endpoint.attestation q').Shapes r.body := by
  have hattest : ∀ nonce, (attest P count spki nonce).Ends fun r => (Endpoint.attestation q').Shapes r.body := by
    intro nonce
    rw [attest_eq]
    intro answer
    cases answer with
    | none => exact trivial
    | some quote =>
      intro out
      cases hgpus : parseHelper count out <;> simp only [hgpus] <;> exact trivial
  unfold answerQuery
  repeat' split
  all_goals first | exact hattest _ | exact trivial

theorem applyAction_shapes (action : ManageAction) (env : ManageEnvelope) :
    (applyAction action).Ends fun r => (Endpoint.manage env).Shapes r.body := by
  rcases applyAction_cases action with ⟨msg, heq⟩ | ⟨hash, _, heq⟩
  · rw [heq]
    exact trivial
  · rw [heq]
    exact fun _ => trivial

theorem enrollChecks_error_body {A : Anchors P} {M : Manifest} {now : UnixTime} {client : Option Pubkey}
    {req : EnrollRequest} {r : Response} (h : enrollChecks P A M now client req = .error r) :
    ∃ msg, r.body = .error msg := by
  unfold enrollChecks at h
  repeat' split at h
  all_goals cases h
  all_goals exact ⟨_, rfl⟩

theorem manageChecks_error_body {A : Anchors P} {env : ManageEnvelope} {r : Response}
    (h : manageChecks P A env = .error r) : ∃ msg, r.body = .error msg := by
  unfold manageChecks at h
  repeat' split at h
  all_goals cases h
  all_goals exact ⟨_, rfl⟩

theorem route_shapes (C : Config P) (r : Request) :
    (route C r).Ends fun answer => r.endpoint.Shapes answer.body := by
  unfold route
  cases r.endpoint with
  | attestation q =>
    cases r.client with
    | none => exact answerQuery_shapes _ _ q q
    | some pk =>
      intro now allowed
      cases allowed with
      | false => exact trivial
      | true => exact answerQuery_shapes _ _ q q
  | enroll now req =>
    simp only [enrollHandler]
    cases hc : enrollChecks P C.anchors C.manifest now r.client req with
    | error refusal =>
      obtain ⟨msg, hmsg⟩ := enrollChecks_error_body hc
      show Endpoint.Shapes _ refusal.body
      rw [hmsg]
      exact trivial
    | ok i =>
      simp only [issueBearer_eq]
      intro random inserted
      cases inserted <;> exact trivial
  | chat authorization body =>
    simp only [chatHandler]
    cases bearer authorization with
    | none => exact trivial
    | some token =>
      intro live
      cases live with
      | false => exact trivial
      | true =>
        rintro ((_ | _) | upstream)
        · exact trivial
        · exact trivial
        · show Prog.Ends _ (ite _ _ _)
          split
          · exact trivial
          · exact .bind (relay token upstream.events) fun _ => trivial
  | manage env =>
    simp only [manageHandler]
    cases hc : manageChecks P C.anchors env with
    | error refusal =>
      obtain ⟨msg, hmsg⟩ := manageChecks_error_body hc
      show Endpoint.Shapes _ refusal.body
      rw [hmsg]
      exact trivial
    | ok action =>
      simp only [guardAndApply_eq]
      intro fresh
      cases fresh with
      | false => exact trivial
      | true => exact applyAction_shapes action env

end Handlers

/-! ## A bearer is told once -/

theorem eq_of_nodup_filterMap {α β : Type} {f : α → Option β} {l : List α} (hd : (l.filterMap f).Nodup) {a b : α}
    {x : β} (ha : a ∈ l) (hb : b ∈ l) (hfa : f a = some x) (hfb : f b = some x) : a = b := by
  induction l with
  | nil => cases ha
  | cons c l ih =>
    rw [List.filterMap_cons] at hd
    have htail : (l.filterMap f).Nodup := by
      cases hc : f c with
      | none => simpa only [hc] using hd
      | some y =>
        simp only [hc, List.nodup_cons] at hd
        exact hd.2
    -- an element that gives what the head gives would repeat it
    have hhead : f c = some x → x ∉ l.filterMap f := by
      intro hc
      simp only [hc, List.nodup_cons] at hd
      exact hd.1
    rcases List.mem_cons.mp ha with rfl | ha'
    · rcases List.mem_cons.mp hb with rfl | hb'
      · rfl
      · exact absurd (List.mem_filterMap.mpr ⟨b, hb', hfb⟩) (hhead hfa)
    · rcases List.mem_cons.mp hb with rfl | hb'
      · exact absurd (List.mem_filterMap.mpr ⟨a, ha', hfa⟩) (hhead hfb)
      · exact ih htail ha' hb'

section Answers
variable {P : Primitives} {C : Config P} {es : List ServiceEvent} {p : ServiceState}

theorem shapes_of_answer (h : Run (ServiceStep C) bootState es p) {id : Nat} {t : Task Request Op Ans Response}
    (ht : p.task id = some t) {r : Response} (hr : t.prog = .pure r) : t.req.endpoint.Shapes r.body := by
  have hends : t.prog.Ends fun answer => t.req.endpoint.Shapes answer.body :=
    .of_follows (Pool.follows h ht) (route_shapes C t.req)
  rw [hr] at hends
  exact hends

theorem minted_by_answer (h : Run (ServiceStep C) bootState es p) {id : Nat} {t : Task Request Op Ans Response}
    (ht : p.task id = some t) {status : StatusCode} {token : String}
    (hr : t.prog = .pure ⟨status, .sessionToken token⟩) :
    status = .ok ∧ (∃ now req, t.req.endpoint = .enroll now req) ∧
      ∃ entry, .perform id (.insert entry) true ∈ es ∧ entry.sessionToken = token ∧
        t.req.client = some entry.clientPubkey := by
  have hshape := shapes_of_answer h ht hr
  cases hend : t.req.endpoint with
  | enroll now req =>
    have hpath := task_enrollPath h ht hend
    have hinsert := @insert_answers_true _ _ _ _ h id t ht
    have hevent := @Pool.performed_of_done _ _ _ _ _ _ _ _ _ _ h id t ht
    rw [hr] at hpath
    generalize hp : (Prog.pure (⟨status, .sessionToken token⟩ : Response) : Handler Response) = prog at hpath
    generalize t.done = done at hpath hinsert hevent
    cases hpath with
    | rejected hc =>
      cases hp
      obtain ⟨msg, hmsg⟩ := enrollChecks_error_body hc
      cases hmsg
    | checked hc =>
      rw [issueBearer_eq] at hp
      cases hp
    | minted hc random => cases hp
    | @answered i hc random inserted =>
      have hmem : ∀ ok, inserted = ok → (⟨.insert (i.entry (b64urlNopad random.toList)), ok⟩ : Performed Op Ans) ∈
          [⟨.random32, random⟩, ⟨.insert (i.entry (b64urlNopad random.toList)), inserted⟩] := by
        rintro ok rfl
        simp
      have htrue : inserted = true := hinsert (hmem inserted rfl)
      subst htrue
      cases hp
      exact ⟨rfl, ⟨now, req, rfl⟩, _, hevent (hmem true rfl), rfl, (enrollChecks_pair P hc).1⟩
  | _ =>
    rw [hend] at hshape
    exact hshape.elim

/-- A session token is answered only to the enrolment that inserted it, under the key
of its own connection, and to no other request. -/
theorem bearer_told_once (h : Run (ServiceStep C) bootState es p) (hd : (mintedTokens es).Nodup) {id : Nat}
    {t : Task Request Op Ans Response} (ht : p.task id = some t) {status : StatusCode} {token : String}
    (hr : t.prog = .pure ⟨status, .sessionToken token⟩) :
    (status = .ok ∧ (∃ now req, t.req.endpoint = .enroll now req) ∧
      ∃ entry, .perform id (.insert entry) true ∈ es ∧ entry.sessionToken = token ∧
        t.req.client = some entry.clientPubkey) ∧
    ∀ id' t' status', p.task id' = some t' → t'.prog = .pure ⟨status', .sessionToken token⟩ → id' = id := by
  have hmine := minted_by_answer h ht hr
  refine ⟨hmine, ?_⟩
  intro id' t' status' ht' hr'
  obtain ⟨-, -, entry, hevent, htoken, -⟩ := hmine
  obtain ⟨-, -, entry', hevent', htoken', -⟩ := minted_by_answer h ht' hr'
  have hsame := eq_of_nodup_filterMap (f := ServiceEvent.minted) (x := token) hd hevent' hevent
    (congrArg some htoken') (congrArg some htoken)
  cases hsame
  rfl

end Answers

theorem bearer_told_once_single : ∃ es p, Run (ServiceStep Synthetic.config) bootState es p ∧
    ∃ entry, .perform 1 (.insert entry) true ∈ es ∧ entry.clientPubkey = Synthetic.pubkey ∧
      (p.task 1).map Task.prog = some (.pure ⟨.ok, .sessionToken entry.sessionToken⟩) := by
  obtain ⟨es, p, hrun, hminted, -, htask⟩ := Synthetic.serve 1 (.enroll Synthetic.now Synthetic.request) rfl
    Synthetic.connected_conns
    (Synthetic.follows_enroll (Vector.replicate 32 0)) (Synthetic.performs_enroll _ _)
  have ht := congrFun htask 1
  rw [Function.update_self] at ht
  have hd : (mintedTokens ([.env (.handshake 0 [Synthetic.leaf])] ++ es)).Nodup := by
    rw [mintedTokens_append, hminted]
    decide
  obtain ⟨⟨-, -, entry, hevent, htoken, hclient⟩, -⟩ :=
    bearer_told_once (Synthetic.run_connected.append hrun) hd ht rfl
  refine ⟨_, p, Synthetic.run_connected.append hrun, entry, hevent, (Option.some.inj hclient).symm, ?_⟩
  rw [ht, htoken]
  rfl

end IronInstance
