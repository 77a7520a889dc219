import IronInstance.Endpoints
import IronInstance.Slots

/-!
# Chat streams in the running service

A chat request passes the door with one lookup, sends its body upstream once, and then
relays. Here the relay runs among all other requests of the service: enrolments that
evict, revokes, other streams. A prompt goes upstream only for a bearer that was a
member's live one at the door, and a bearer that has died stops its streams.
-/

namespace IronInstance
open FiniteMap Programs Runs
set_option autoImplicit false

/-! ## The path of a chat request -/

inductive ChatPath (token : String) (body : List UInt8) : List (Performed Op Ans) → Handler Response → Prop where
  | door {prog : Handler Response} (h : ∀ r, prog ≠ .pure r) : ChatPath token body [] prog
  | refused : ChatPath token body [⟨.containsToken token, false⟩] (.pure (err .unauthorized "invalid bearer"))
  | admitted {prog : Handler Response} (h : ∀ r, prog ≠ .pure r) :
      ChatPath token body [⟨.containsToken token, true⟩] prog
  | failed (answer : Except UpstreamFailure Upstream) (code : StatusCode) (msg : String) :
      ChatPath token body [⟨.containsToken token, true⟩, ⟨.upstreamRequest body, answer⟩] (.pure (err code msg))
  | streaming (upstream : Upstream) {cs : List (Performed Op Ans)} {q : Handler Unit}
      (h : Follows (relay token upstream.events) cs q) :
      ChatPath token body (⟨.containsToken token, true⟩ :: ⟨.upstreamRequest body, .ok upstream⟩ :: cs)
        (q.bind fun _ => .pure ⟨.ok, .stream⟩)

section Paths
variable {token : String} {body : List UInt8}

theorem chat_path {authorization : Option String} {cs : List (Performed Op Ans)} {prog : Handler Response}
    (hb : bearer authorization = some token) (h : Follows (chatHandler authorization body) cs prog) :
    ChatPath token body cs prog := by
  simp only [chatHandler, hb] at h
  rcases Follows.call_iff.mp h with ⟨rfl, rfl⟩ | ⟨live, cs, rfl, h₁⟩
  · exact .door (by simp)
  cases live with
  | false =>
    obtain ⟨rfl, rfl⟩ := Follows.pure_iff.mp h₁
    exact .refused
  | true =>
    rcases Follows.call_iff.mp h₁ with ⟨rfl, rfl⟩ | ⟨answer, cs, rfl, h₂⟩
    · exact .admitted (by simp)
    rcases answer with (_ | _) | upstream
    · obtain ⟨rfl, rfl⟩ := Follows.pure_iff.mp h₂
      exact .failed _ _ _
    · obtain ⟨rfl, rfl⟩ := Follows.pure_iff.mp h₂
      exact .failed _ _ _
    · change Follows (ite _ _ _) cs prog at h₂
      split at h₂
      · obtain ⟨rfl, rfl⟩ := Follows.pure_iff.mp h₂
        exact .failed _ _ _
      · obtain ⟨q, hq, rfl⟩ := Follows.of_map h₂
        exact .streaming upstream hq

theorem relay_no_upstream {events : List BodyEvent} {cs : List (Performed Op Ans)} {q : Handler Unit}
    (h : Follows (relay token events) cs q) (sent : List UInt8) (answer : Except UpstreamFailure Upstream) :
    (⟨.upstreamRequest sent, answer⟩ : Performed Op Ans) ∉ cs := by
  obtain ⟨past, rest, tail, -, -, rfl, htail⟩ := relay_path token h
  intro hm
  rcases List.mem_append.mp hm with hm | hm
  · rcases passed_of_mem token hm with hm | hm | ⟨bytes, hm⟩ <;> cases hm
  · cases htail <;> simp at hm

/-- The prompt goes upstream once, unchanged, after the lookup that found the bearer. -/
theorem ChatPath.of_upstream {cs : List (Performed Op Ans)} {prog : Handler Response} (h : ChatPath token body cs prog)
    {sent : List UInt8} {answer : Except UpstreamFailure Upstream} (hm : ⟨.upstreamRequest sent, answer⟩ ∈ cs) :
    sent = body ∧ ∃ rest, cs = ⟨.containsToken token, true⟩ :: ⟨.upstreamRequest body, answer⟩ :: rest ∧
      ∀ sent' answer', (⟨.upstreamRequest sent', answer'⟩ : Performed Op Ans) ∉ rest := by
  cases h with
  | door _ => cases hm
  | refused => simp at hm
  | admitted _ => simp at hm
  | failed answer' code msg =>
    simp only [List.mem_cons, List.not_mem_nil, or_false] at hm
    rcases hm with hm | hm
    · cases hm
    · cases hm
      exact ⟨rfl, [], rfl, by simp⟩
  | streaming upstream hrelay =>
    rcases List.mem_cons.mp hm with hm | hm
    · cases hm
    · rcases List.mem_cons.mp hm with hm | hm
      · cases hm
        exact ⟨rfl, _, rfl, relay_no_upstream hrelay⟩
      · exact absurd hm (relay_no_upstream hrelay sent answer)

/-- Without a live lookup of its own a request gets no further than the door. -/
theorem ChatPath.stopped {cs : List (Performed Op Ans)} {prog : Handler Response} (h : ChatPath token body cs prog)
    (hdead : ⟨.containsToken token, true⟩ ∉ cs) :
    (cs = [] ∧ ∀ r, prog ≠ .pure r) ∨
      (cs = [⟨.containsToken token, false⟩] ∧ prog = .pure (err .unauthorized "invalid bearer")) := by
  cases h with
  | door hprog => exact .inl ⟨rfl, hprog⟩
  | refused => exact .inr ⟨rfl, rfl⟩
  | _ => exact absurd List.mem_cons_self hdead

theorem ChatPath.quiet {cs : List (Performed Op Ans)} {prog : Handler Response} (h : ChatPath token body cs prog)
    (hdead : ⟨.containsToken token, true⟩ ∉ cs) :
    (sent cs).filterMap Chunk.relayed? = [] ∧
      ∀ sent answer, (⟨.upstreamRequest sent, answer⟩ : Performed Op Ans) ∉ cs := by
  rcases h.stopped hdead with ⟨rfl, -⟩ | ⟨rfl, -⟩
  · exact ⟨rfl, by simp⟩
  · exact ⟨rfl, by simp⟩

end Paths

/-! ## The door -/

section Service
variable {P : Primitives} {C : Config P} {token : String}

theorem Exec.containsToken_eq {s s' : Shared} {live : Bool} (h : Exec s (.containsToken token) live s') :
    s.store.containsToken token = live := by
  cases h with
  | containsToken => rfl
  | outside _ ho => cases ho

theorem task_chatPath {es : List ServiceEvent} {p : ServiceState} (h : Run (ServiceStep C) bootState es p) {id : Nat}
    {t : Task Request Op Ans Response} (ht : p.task id = some t) {authorization : Option String} {body : List UInt8}
    (hend : t.req.endpoint = .chat authorization body) (hb : bearer authorization = some token) :
    ChatPath token body t.done t.prog := by
  have hstart : route C t.req = chatHandler authorization body := by
    unfold route
    rw [hend]
  exact chat_path hb (hstart ▸ Pool.follows h ht)

theorem live_member {es : List ServiceEvent} {p : ServiceState} (h : Run (ServiceStep C) bootState es p)
    (hlive : p.shared.store.containsToken token = true) :
    token ∈ mintedTokens es ∧ ∃ entry, p.shared.store.getByToken token = some entry ∧
      C.manifest.containsPair entry.clientPubkey entry.memberHash = true := by
  obtain ⟨ses, hses, htok⟩ := storeRun_of_service h
  refine ⟨htok ▸ live_inserted hses hlive, ?_⟩
  have hsome := (Held.of_run hses).isSome_getByToken token
  rw [hlive, Option.isSome_iff_exists] at hsome
  obtain ⟨entry, hentry⟩ := hsome
  obtain ⟨-, m, hm, hhash⟩ := Inner.member_of_getByToken hentry
  exact ⟨entry, hentry, hhash ▸ (authorised_run h).stored _ m hm⟩

theorem chat_of_upstream {es : List ServiceEvent} {p : ServiceState} (h : Run (ServiceStep C) bootState es p) {id : Nat}
    {t : Task Request Op Ans Response} (ht : p.task id = some t) {body : List UInt8}
    {answer : Except UpstreamFailure Upstream} (hm : ⟨.upstreamRequest body, answer⟩ ∈ t.done) :
    ∃ authorization token, t.req.endpoint = .chat authorization body ∧ bearer authorization = some token := by
  have hfollows : Follows (route C t.req) t.done t.prog := Pool.follows h ht
  have hmay := (Prog.Only.of_follows hfollows (route_may C t.req)).2 _ hm
  cases hend : t.req.endpoint with
  | chat authorization body' =>
    rw [hend] at hmay
    cases hmay
    refine ⟨authorization, ?_⟩
    cases hb : bearer authorization with
    | some token => exact ⟨token, rfl, rfl⟩
    | none =>
      rw [route, hend] at hfollows
      simp only [chatHandler, hb] at hfollows
      rw [(Follows.pure_iff.mp hfollows).1] at hm
      cases hm
  | _ =>
    rw [hend] at hmay
    exact hmay.elim

/-- A prompt reaches the model only as the unchanged body of a chat request, once for
each request, and only after a lookup that found its bearer live; the bearer was then a
minted one and belonged to a pair of the manifest. -/
theorem prompt_needs_live_member {es : List ServiceEvent} {p : ServiceState}
    (h : Run (ServiceStep C) bootState es p) {id : Nat} {body : List UInt8}
    {answer : Except UpstreamFailure Upstream} (hev : .perform id (.upstreamRequest body) answer ∈ es) :
    ∃ t authorization token rest, p.task id = some t ∧ t.req.endpoint = .chat authorization body ∧
      bearer authorization = some token ∧
      t.done = ⟨.containsToken token, true⟩ :: ⟨.upstreamRequest body, answer⟩ :: rest ∧
      (∀ sent again, (⟨.upstreamRequest sent, again⟩ : Performed Op Ans) ∉ rest) ∧
      ∃ es₁ es₂ q q' entry, es = es₁ ++ .perform id (.containsToken token) true :: es₂ ∧
        Run (ServiceStep C) bootState es₁ q ∧ ServiceStep C q (.perform id (.containsToken token) true) q' ∧
        Run (ServiceStep C) q' es₂ p ∧ .perform id (.upstreamRequest body) answer ∈ es₂ ∧ token ∈ mintedTokens es₁ ∧
        q.shared.store.getByToken token = some entry ∧
        C.manifest.containsPair entry.clientPubkey entry.memberHash = true := by
  obtain ⟨t, ht, hm⟩ := Pool.task_of_performed h hev
  obtain ⟨authorization, token, hend, hbearer⟩ := chat_of_upstream h ht hm
  obtain ⟨-, rest, hdone, honce⟩ := (task_chatPath h ht hend hbearer).of_upstream hm
  have hfirst : t.done = [] ++ ⟨.containsToken token, true⟩ :: ⟨.upstreamRequest body, answer⟩ :: rest := hdone
  obtain ⟨es₁, es₂, q, q', k', hes, hq, hbefore, hlookup, hpost⟩ := Pool.performed_at h ht hfirst
  obtain ⟨_, _, _, _, hexec, _⟩ := Pool.perform_inv hlookup
  obtain ⟨hminted, entry, hentry, hpair⟩ := live_member hq (Exec.containsToken_eq hexec)
  -- when the bearer was looked up the request had done nothing yet
  have hafter : .perform id (.upstreamRequest body) answer ∈ es₂ := by
    rw [hes, List.mem_append, List.mem_cons] at hev
    rcases hev with hearly | hnow | hlate
    · obtain ⟨t₀, ht₀, hm₀⟩ := Pool.task_of_performed hq hearly
      rw [hbefore] at ht₀
      cases ht₀
      cases hm₀
    · cases hnow
    · exact hlate
  exact ⟨t, authorization, token, rest, ht, hend, hbearer, hdone, honce, es₁, es₂, q, q', entry, hes, hq, hlookup, hpost,
    hafter, hminted, hentry, hpair⟩

/-! ## A dead bearer -/

theorem lookups_fail_later {es₁ es₂ : List ServiceEvent} {p₁ p₂ : ServiceState}
    (h₁ : Run (ServiceStep C) bootState es₁ p₁) (h₂ : Run (ServiceStep C) p₁ es₂ p₂)
    (hd : (mintedTokens (es₁ ++ es₂)).Nodup) (hminted : token ∈ mintedTokens es₁)
    (hdead : p₁.shared.store.containsToken token = false) (id : Nat) :
    ⟨.containsToken token, true⟩ ∉ Pool.performedBy id es₂ := by
  intro hm
  obtain ⟨pre, post, a, b, rfl, hpre, hstep, -⟩ := h₂.split_at (Pool.mem_performedBy.mp hm)
  obtain ⟨_, _, _, _, hexec, _⟩ := Pool.perform_inv hstep
  obtain ⟨hist, hhist, htok⟩ := storeRun_of_service h₁
  obtain ⟨later, hlater, htok'⟩ := storeRun_of_service hpre
  have hd' : (insertedTokens (hist ++ later)).Nodup := by
    rw [mintedTokens_append, mintedTokens_append, ← List.append_assoc] at hd
    rw [insertedTokens_append, htok, htok']
    exact (List.nodup_append.mp hd).1
  have hstill := dead_stays_dead hhist hlater hd' (htok ▸ hminted) hdead
  rw [Exec.containsToken_eq hexec] at hstill
  cases hstill

section Cut
variable {es₁ es₂ : List ServiceEvent} {p₁ p₂ : ServiceState} {id : Nat} {t₁ t₂ : Task Request Op Ans Response}
  {authorization : Option String} {body : List UInt8}

/-- What a request that was there when its bearer died can still do. -/
theorem cut_of_present (h₁ : Run (ServiceStep C) bootState es₁ p₁) (h₂ : Run (ServiceStep C) p₁ es₂ p₂)
    (hfail : ⟨.containsToken token, true⟩ ∉ Pool.performedBy id es₂) (ht₁ : p₁.task id = some t₁)
    (ht₂ : p₂.task id = some t₂) (hend : t₂.req.endpoint = .chat authorization body)
    (hb : bearer authorization = some token) :
    ((sent (Pool.performedBy id es₂)).filterMap Chunk.relayed? = [] ∨ ∃ bytes k,
      t₁.prog = .call (.send (.relayed bytes)) k ∧
        (sent (Pool.performedBy id es₂)).filterMap Chunk.relayed? = [bytes]) ∧
    (∀ prompt answer, ⟨.upstreamRequest prompt, answer⟩ ∈ Pool.performedBy id es₂ →
      t₁.done = [⟨.containsToken token, true⟩]) := by
  obtain ⟨prog, hnow, hnew⟩ := Pool.progress h₂ ht₁
  rw [ht₂] at hnow
  cases hnow
  have hpath₂ := task_chatPath (h₁.append h₂) ht₂ hend hb
  have hpath₁ := task_chatPath h₁ ht₁ hend hb
  obtain ⟨req, done, prog₁⟩ := t₁
  generalize hcs : Pool.performedBy id es₂ = new at *
  simp only at hpath₁ hpath₂ hnew ⊢
  cases hpath₁ with
  | door _ =>
    obtain ⟨hquiet, hnone⟩ := ChatPath.quiet hpath₂ hfail
    exact ⟨.inl hquiet, fun prompt answer hm => absurd hm (hnone prompt answer)⟩
  | refused =>
    obtain ⟨rfl, -⟩ := Follows.pure_iff.mp hnew
    exact ⟨.inl rfl, by simp⟩
  | admitted _ =>
    refine ⟨.inl ?_, fun _ _ _ => rfl⟩
    generalize hall : [⟨.containsToken token, true⟩] ++ new = all at hpath₂
    cases hpath₂ with
    | door _ => cases hall
    | refused => cases hall
    | admitted _ =>
      cases hall
      rfl
    | failed answer code msg =>
      cases hall
      rfl
    | streaming upstream hrelay =>
      cases hall
      have hlater := nothing_relayed_of_dead token hrelay fun hm => hfail (List.mem_cons_of_mem _ hm)
      exact hlater
  | failed answer code msg =>
    obtain ⟨rfl, -⟩ := Follows.pure_iff.mp hnew
    exact ⟨.inl rfl, by simp⟩
  | streaming upstream hrelay =>
    obtain ⟨q', hq', -⟩ := Follows.of_map hnew
    obtain ⟨past, rest, tail, -, -, -, htail⟩ := relay_path token hrelay
    refine ⟨?_, ?_⟩
    · rcases relayed_after_dead token htail hq' hfail with hnone | ⟨bytes, k, rfl, hone⟩
      · exact .inl hnone
      · exact .inr ⟨bytes, _, rfl, hone⟩
    · intro prompt answer hm
      obtain ⟨-, rest, hdone, honce⟩ := hpath₂.of_upstream (List.mem_append_right _ hm)
      cases hdone
      exact absurd (List.mem_append_right _ hm) (honce prompt _)

/-- Once a minted bearer has died, by a revoke or by an eviction, each of its streams sends
at most the one frame it had already checked, no prompt of it goes upstream that had not
passed the door before, and a request that comes later is refused. -/
theorem dead_bearer_cut_off (h₁ : Run (ServiceStep C) bootState es₁ p₁) (h₂ : Run (ServiceStep C) p₁ es₂ p₂)
    (hd : (mintedTokens (es₁ ++ es₂)).Nodup) (hminted : token ∈ mintedTokens es₁)
    (hdead : p₁.shared.store.containsToken token = false) (ht₂ : p₂.task id = some t₂)
    (hend : t₂.req.endpoint = .chat authorization body) (hb : bearer authorization = some token) :
    ((sent (Pool.performedBy id es₂)).filterMap Chunk.relayed? = [] ∨ ∃ bytes k t₁, p₁.task id = some t₁ ∧
      t₁.prog = .call (.send (.relayed bytes)) k ∧
        (sent (Pool.performedBy id es₂)).filterMap Chunk.relayed? = [bytes]) ∧
    (∀ prompt answer, .perform id (.upstreamRequest prompt) answer ∈ es₂ →
      ∃ t₁, p₁.task id = some t₁ ∧ t₁.done = [⟨.containsToken token, true⟩]) ∧
    (p₁.task id = none → ∀ r, t₂.prog = .pure r → r = err .unauthorized "invalid bearer") := by
  have hfail := lookups_fail_later h₁ h₂ hd hminted hdead id
  cases ht₁ : p₁.task id with
  | some t₁ =>
    obtain ⟨hframes, hprompts⟩ := cut_of_present h₁ h₂ hfail ht₁ ht₂ hend hb
    refine ⟨?_, ?_, by simp⟩
    · rcases hframes with hnone | ⟨bytes, k, hprog, hone⟩
      · exact .inl hnone
      · exact .inr ⟨bytes, k, t₁, rfl, hprog, hone⟩
    · intro prompt answer hev
      exact ⟨t₁, rfl, hprompts prompt answer (Pool.mem_performedBy.mpr hev)⟩
  | none =>
    obtain ⟨hdone, -⟩ := Pool.arrived h₂ ht₁ ht₂
    have hpath := task_chatPath (h₁.append h₂) ht₂ hend hb
    rw [hdone] at hpath
    obtain ⟨hquiet, hnone⟩ := hpath.quiet hfail
    refine ⟨.inl hquiet, ?_, ?_⟩
    · intro prompt answer hev
      exact absurd (Pool.mem_performedBy.mpr hev) (hnone prompt answer)
    · intro _ r hr
      rcases hpath.stopped hfail with ⟨-, hnot⟩ | ⟨-, hprog⟩
      · exact absurd hr (hnot r)
      · rw [hprog] at hr
        exact (Prog.pure.inj hr).symm

end Cut

end Service

/-! ## A stream in the synthetic deployment -/

namespace Synthetic

def authorization : Option String := some (String.ofList ("Bearer ".toList ++ bearerToken.toList))

theorem bearer_eq : bearer authorization = some bearerToken := by
  have hseven : "Bearer ".toList.length = 7 := by decide
  simp only [bearer, authorization, Option.bind_eq_bind, Option.bind_some, String.toList_ofList]
  rw [if_pos (List.isPrefixOf_iff_prefix.mpr (List.prefix_append _ _)), List.drop_left' hseven, String.ofList_toList]

def upstreamAnswer : Upstream := ⟨200, [.data [1], .data [2]]⟩

def askChat : Request := ⟨some pubkey, .chat authorization [7]⟩

/-- The first frame is checked and not yet sent. -/
def streamed : List (Performed Op Ans) :=
  [⟨.containsToken bearerToken, true⟩, ⟨.upstreamRequest [7], .ok upstreamAnswer⟩, ⟨.frame, ()⟩,
    ⟨.containsToken bearerToken, true⟩]

def cutOff : List (Performed Op Ans) :=
  [⟨.send (.relayed [1]), true⟩, ⟨.frame, ()⟩, ⟨.containsToken bearerToken, false⟩, ⟨.send .revoked, true⟩]

def sending : Handler Response := (relaySend bearerToken [1] [.data [2]]).bind fun _ => .pure ⟨.ok, .stream⟩

theorem follows_streamed : Follows (route config askChat) streamed sending := by
  have hrelay : Follows (relay bearerToken [.data [1], .data [2]]) [⟨.frame, ()⟩, ⟨.containsToken bearerToken, true⟩]
      (relaySend bearerToken [1] [.data [2]]) := by
    rw [relay_data]
    exact .cons (.cons (.nil _))
  have hchat : Follows (chatHandler authorization [7]) streamed sending := by
    simp only [chatHandler, bearer_eq]
    exact .cons (.cons (hrelay.bind_left fun _ => (.pure ⟨.ok, .stream⟩ : Handler Response)))
  exact hchat

theorem follows_cutOff : Follows sending cutOff (.pure ⟨.ok, .stream⟩) := by
  have hrest : Follows (relay bearerToken [.data [2]])
      [⟨.frame, ()⟩, ⟨.containsToken bearerToken, false⟩, ⟨.send .revoked, true⟩] (.pure ()) := by
    rw [relay_data]
    exact .cons (.cons (.cons (.nil _)))
  have hsend : Follows (relaySend bearerToken [1] [.data [2]]) cutOff (.pure ()) := .cons hrest
  exact hsend.bind_left fun _ => (.pure ⟨.ok, .stream⟩ : Handler Response)

theorem performs_streamed : Performs enrolled streamed enrolled := by
  have hlive : Exec enrolled (.containsToken bearerToken) true enrolled := by
    have hyes : enrolled.store.containsToken bearerToken = true := Inner.containsToken_insert _ _
    exact hyes ▸ Exec.containsToken enrolled bearerToken
  exact .cons hlive (.cons (Exec.outside (o := .upstreamRequest [7]) _ (.ok upstreamAnswer) rfl)
    (.cons (Exec.outside (o := .frame) _ () rfl) (.single hlive)))

theorem dead_revokedShared : revokedShared.store.containsToken bearerToken = false := by decide +kernel

theorem performs_cutOff : Performs revokedShared cutOff revokedShared := by
  have hmiss : Exec revokedShared (.containsToken bearerToken) false revokedShared :=
    dead_revokedShared ▸ Exec.containsToken revokedShared bearerToken
  exact .cons (Exec.outside (o := .send (.relayed [1])) _ true rfl)
    (.cons (Exec.outside (o := .frame) _ () rfl) (.cons hmiss
      (.single (Exec.outside (o := .send .revoked) _ true rfl))))

theorem mintedTokens_alone (id : Nat) (cs : List (Performed Op Ans)) :
    mintedTokens (cs.map fun c => .perform id c.1 c.2) = cs.filterMap fun c => c.1.token := by
  simp only [mintedTokens, List.filterMap_map]
  rfl

/-- The member enrols and streams; the revoke comes between the lookup of the first
frame and its send. -/
theorem stream_run : ∃ es₁ p₁ es₂ p₂, Run (ServiceStep config) bootState es₁ p₁ ∧ Run (ServiceStep config) p₁ es₂ p₂ ∧
    mintedTokens es₁ = [bearerToken] ∧ mintedTokens es₂ = [] ∧ p₁.shared = revokedShared ∧
    p₁.task 5 = some ⟨askChat, streamed, sending⟩ ∧
    p₂.task 5 = some ⟨askChat, streamed ++ cutOff, .pure ⟨.ok, .stream⟩⟩ ∧ Pool.performedBy 5 es₂ = cutOff := by
  obtain ⟨es, p, hrun, hminted, hs, ht⟩ := serve 1 (.enroll now request) rfl connected_conns (follows_enroll first)
    (performs_enroll _ first)
  have hopen : p.shared.conns 0 = some (some pubkey) := by rw [hs]; exact connected_conns
  have hstream : Performs p.shared streamed enrolled := by rw [hs]; exact performs_streamed
  let asked : ServiceState := { p with task := Function.update p.task 5 (some ⟨askChat, [], route config askChat⟩) }
  have hspawn : ServiceStep config p (.spawn 5 askChat) asked := .spawn (by simp [ht, connected]) ⟨0, hopen⟩
  have hasked : asked.task 5 = some ⟨askChat, [], route config askChat⟩ := Function.update_self 5 _ p.task
  obtain ⟨p', hrun', hs', ht'⟩ := Pool.run_alone (M := machine config) (p := asked) follows_streamed hstream hasked
  have hchecks := manageChecks_of_decoded ⟨"QQ==", "AQ=="⟩ [65] (by decide) (by decide)
  have hrevoke : Performs p'.shared [⟨.noteNonce "nonce-1", true⟩, ⟨.revokeByMemberHash memberHash, true⟩]
      revokedShared := by rw [hs']; exact performs_revoke
  obtain ⟨es₁, p₁, hrun₁, hminted₁, hs₁, ht₁⟩ := serve (p := p') 2 (.manage ⟨"QQ==", "AQ=="⟩)
    (by simp [ht', asked, ht, connected]) (by rw [hs']; exact connected_conns)
    (by rw [route_manage hchecks]; exact follows_revoke true) hrevoke
  have ht₅ : p₁.task 5 = some ⟨askChat, streamed, sending⟩ := by simp [ht₁, ht']
  have hcut : Performs p₁.shared cutOff revokedShared := by rw [hs₁]; exact performs_cutOff
  obtain ⟨p₂, hrun₂, -, ht₂⟩ := Pool.run_alone (M := machine config) follows_cutOff hcut ht₅
  refine ⟨_, p₁, _, p₂, ((run_connected.append hrun).append (.cons hspawn hrun')).append hrun₁, hrun₂, ?_, ?_, hs₁, ht₅,
    by simp [ht₂], ?_⟩
  · rw [mintedTokens_append, mintedTokens_append, mintedTokens_append, hminted, hminted₁]
    rfl
  · rw [mintedTokens_alone]
    rfl
  · rfl

end Synthetic

theorem prompt_needs_live_member_single : ∃ es p, Run (ServiceStep Synthetic.config) bootState es p ∧
    ∃ es₁ es₂ q entry, es = es₁ ++ .perform 5 (.containsToken Synthetic.bearerToken) true :: es₂ ∧
      Run (ServiceStep Synthetic.config) bootState es₁ q ∧
      .perform 5 (.upstreamRequest [7]) (.ok Synthetic.upstreamAnswer) ∈ es₂ ∧
      q.shared.store.getByToken Synthetic.bearerToken = some entry ∧
      Synthetic.manifest.containsPair entry.clientPubkey entry.memberHash = true := by
  obtain ⟨es, p, -, -, hrun, -, -, -, -, ht, -⟩ := Synthetic.stream_run
  have hev := Pool.performed_of_done hrun ht (o := .upstreamRequest [7]) (a := .ok Synthetic.upstreamAnswer)
    (by simp [Synthetic.streamed])
  obtain ⟨t, _, token, _, ht', hend, hb, -, -, es₁, es₂, q, q', entry, rfl, hq, -, -, hafter, -, hget, hpair⟩ :=
    prompt_needs_live_member hrun hev
  rw [ht] at ht'
  cases ht'
  cases hend
  rw [Synthetic.bearer_eq] at hb
  cases hb
  exact ⟨_, p, hrun, es₁, es₂, q, entry, rfl, hq, hafter, hget, hpair⟩

theorem dead_bearer_cut_off_mid_stream : ∃ es₁ p₁ es₂ p₂,
    Run (ServiceStep Synthetic.config) bootState es₁ p₁ ∧ Run (ServiceStep Synthetic.config) p₁ es₂ p₂ ∧
    sent (Pool.performedBy 5 es₂) = [.relayed [1], .revoked] ∧
    ((sent (Pool.performedBy 5 es₂)).filterMap Chunk.relayed? = [] ∨ ∃ bytes k t₁, p₁.task 5 = some t₁ ∧
      t₁.prog = .call (.send (.relayed bytes)) k ∧
        (sent (Pool.performedBy 5 es₂)).filterMap Chunk.relayed? = [bytes]) := by
  obtain ⟨es₁, p₁, es₂, p₂, h₁, h₂, hm₁, hm₂, hs, -, ht₂, hby⟩ := Synthetic.stream_run
  refine ⟨es₁, p₁, es₂, p₂, h₁, h₂, by rw [hby]; rfl, ?_⟩
  refine (dead_bearer_cut_off h₁ h₂ ?_ (hm₁ ▸ List.mem_singleton_self _) ?_ ht₂ rfl Synthetic.bearer_eq).1
  · rw [mintedTokens_append, hm₁, hm₂]
    decide
  · rw [hs]
    exact Synthetic.dead_revokedShared

end IronInstance
