import IronInstance.Service

/-!
# The replay guard of /manage

A signed payload can be re-spelled without end, since the base64 decoder is lenient
and ECDSA signatures are malleable; the guard is on the nonce inside the verified
payload. The guard and the revoke are two lock sections, so the argument is about
runs: a nonce once noted is never forgotten, and only the first request to note it
gets to the second section.
-/

namespace IronInstance
open FiniteMap Programs Runs
set_option autoImplicit false

/-! ## The paths of one request -/

section Paths
variable {P : Primitives} {A : Anchors P} {env : ManageEnvelope}

theorem applyAction_cases (action : ManageAction) :
    (∃ msg, applyAction action = .pure (err .badRequest msg)) ∨
      ∃ hash, action.hash = some hash ∧ applyAction action =
        .call (.revokeByMemberHash hash) fun revoked => .pure ⟨.ok, .revoked revoked⟩ := by
  unfold applyAction
  split
  · cases hh : action.hash with
    | none => exact .inl ⟨_, rfl⟩
    | some hash => exact .inr ⟨hash, rfl, rfl⟩
  · exact .inl ⟨_, rfl⟩

/-- What a request has done so far, and what it has left to do. -/
inductive ManagePath (A : Anchors P) (env : ManageEnvelope) : List (Performed Op Ans) → Handler Response → Prop where
  | rejected {r : Response} (h : manageChecks P A env = .error r) : ManagePath A env [] (.pure r)
  | checked {action : ManageAction} (h : manageChecks P A env = .ok action) :
      ManagePath A env [] (guardAndApply action)
  | replayed {action : ManageAction} (h : manageChecks P A env = .ok action) :
      ManagePath A env [⟨.noteNonce action.nonce, false⟩] (.pure (err .conflict "nonce replay"))
  | guarded {action : ManageAction} (h : manageChecks P A env = .ok action) :
      ManagePath A env [⟨.noteNonce action.nonce, true⟩] (applyAction action)
  | applied {action : ManageAction} {hash : MemberHash} (revoked : Bool)
      (h : manageChecks P A env = .ok action) (hh : action.hash = some hash) :
      ManagePath A env [⟨.noteNonce action.nonce, true⟩, ⟨.revokeByMemberHash hash, revoked⟩]
        (.pure ⟨.ok, .revoked revoked⟩)

theorem manage_path {done : List (Performed Op Ans)} {prog : Handler Response}
    (h : Follows (manageHandler P A env) done prog) : ManagePath A env done prog := by
  unfold manageHandler at h
  cases hc : manageChecks P A env with
  | error r =>
    rw [hc] at h
    obtain ⟨rfl, rfl⟩ := Follows.pure_iff.mp h
    exact .rejected hc
  | ok action =>
    rw [hc] at h
    simp only [guardAndApply_eq, Follows.call_iff] at h
    rcases h with ⟨rfl, rfl⟩ | ⟨fresh, cs, rfl, h⟩
    · rw [← guardAndApply_eq]
      exact .checked hc
    cases fresh with
    | false =>
      obtain ⟨rfl, rfl⟩ := Follows.pure_iff.mp h
      exact .replayed hc
    | true =>
      rw [if_pos rfl] at h
      rcases applyAction_cases action with ⟨msg, heq⟩ | ⟨hash, hh, heq⟩
      · rw [heq] at h
        obtain ⟨rfl, rfl⟩ := Follows.pure_iff.mp h
        rw [← heq]
        exact .guarded hc
      · rw [heq, Follows.call_iff] at h
        rcases h with ⟨rfl, rfl⟩ | ⟨revoked, cs, rfl, h⟩
        · rw [← heq]
          exact .guarded hc
        · obtain ⟨rfl, rfl⟩ := Follows.pure_iff.mp h
          exact .applied revoked hc hh

theorem ManagePath.next {done : List (Performed Op Ans)} {o : Op} {k : Ans o → Handler Response}
    (h : ManagePath A env done (.call o k)) :
    ∃ action, manageChecks P A env = .ok action ∧
      (o = .noteNonce action.nonce ∨ ∃ hash, action.hash = some hash ∧ o = .revokeByMemberHash hash) := by
  generalize hp : Prog.call o k = prog at h
  cases h with
  | rejected _ => cases hp
  | replayed _ => cases hp
  | applied _ _ _ => cases hp
  | @checked action hc =>
    rw [guardAndApply_eq] at hp
    injection hp with ho
    exact ⟨action, hc, .inl ho⟩
  | @guarded action hc =>
    rcases applyAction_cases action with ⟨msg, heq⟩ | ⟨hash, hh, heq⟩
    · rw [heq] at hp
      cases hp
    · rw [heq] at hp
      injection hp with ho
      exact ⟨action, hc, .inr ⟨hash, hh, ho⟩⟩

theorem ManagePath.done_cases {done : List (Performed Op Ans)} {prog : Handler Response}
    (h : ManagePath A env done prog) (hne : done ≠ []) :
    ∃ action, manageChecks P A env = .ok action ∧
      (done = [⟨.noteNonce action.nonce, false⟩] ∨ done = [⟨.noteNonce action.nonce, true⟩] ∨
        ∃ hash revoked, action.hash = some hash ∧
          done = [⟨.noteNonce action.nonce, true⟩, ⟨.revokeByMemberHash hash, revoked⟩]) := by
  cases h with
  | rejected _ => exact absurd rfl hne
  | checked _ => exact absurd rfl hne
  | replayed h => exact ⟨_, h, .inl rfl⟩
  | guarded h => exact ⟨_, h, .inr (.inl rfl)⟩
  | applied revoked h hh => exact ⟨_, h, .inr (.inr ⟨_, revoked, hh, rfl⟩)⟩

theorem ManagePath.spares {done : List (Performed Op Ans)} {r : Response}
    (h : ManagePath A env done (.pure r)) (hr : r.status ≠ .ok) : ∀ c ∈ done, c.1.sparesSessions = true := by
  generalize hp : (Prog.pure r : Handler Response) = prog at h
  cases h with
  | applied revoked _ _ =>
    cases hp
    exact absurd rfl hr
  | _ => simp [Op.sparesSessions]

theorem ManagePath.refused {done : List (Performed Op Ans)} {r : Response} {action : ManageAction}
    (h : ManagePath A env done (.pure r)) (hc : manageChecks P A env = .ok action)
    (hno : ⟨.noteNonce action.nonce, true⟩ ∉ done) : r = err .conflict "nonce replay" := by
  generalize hp : (Prog.pure r : Handler Response) = prog at h
  cases h with
  | rejected h =>
    rw [hc] at h
    cases h
  | checked h =>
    rw [guardAndApply_eq] at hp
    cases hp
  | replayed h =>
    cases hp
    rfl
  | guarded h =>
    rw [hc] at h
    cases h
    exact absurd (by simp) hno
  | applied revoked h _ =>
    rw [hc] at h
    cases h
    exact absurd (by simp) hno

end Paths

/-! ## The guard over a run -/

section Guard
variable {P : Primitives} {C : Config P} {p q : ServiceState}

theorem Exec.seenNonces_mono {s s' : Shared} {o : Op} {a : Ans o} (h : Exec s o a s') :
    s.store.seenNonces ⊆ s'.store.seenNonces := by
  cases h with
  | revokeByMemberHash it hash => simp
  | noteNonce nonce => exact Finset.subset_insert _ _
  | allowAttestation pk now => simp
  | _ => exact Finset.Subset.refl _

def PassedGuard (p : ServiceState) (id : Nat) (nonce : String) : Prop :=
  ∃ t, p.task id = some t ∧ ⟨.noteNonce nonce, true⟩ ∈ t.done

/-- Whoever passed the guard left its nonce behind, and nobody passed with the same one. -/
structure Guarded (p : ServiceState) : Prop where
  seen : ∀ id nonce, PassedGuard p id nonce → nonce ∈ p.shared.store.seenNonces
  unique : ∀ id id' nonce, PassedGuard p id nonce → PassedGuard p id' nonce → id = id'

theorem guarded_boot : Guarded bootState where
  seen := by
    rintro id nonce ⟨t, ht, -⟩
    cases ht
  unique := by
    rintro id id' nonce ⟨t, ht, -⟩
    cases ht

theorem passedGuard_step {e : ServiceEvent} (hstep : ServiceStep C p e q) {id : Nat} {nonce : String}
    (h : PassedGuard q id nonce) :
    PassedGuard p id nonce ∨ e = .perform id (.noteNonce nonce) true ∧
      nonce ∉ p.shared.store.seenNonces ∧ nonce ∈ q.shared.store.seenNonces := by
  obtain ⟨t, ht, hmem⟩ := h
  cases hstep with
  | spawn _ _ =>
    rcases update_some_iff.mp ht with ⟨_, rfl⟩ | ⟨_, hold⟩
    · cases hmem
    · exact .inl ⟨t, hold, hmem⟩
  | perform hsome hexec =>
    rcases update_some_iff.mp ht with ⟨rfl, rfl⟩ | ⟨_, hold⟩
    · rcases List.mem_append.mp hmem with hdone | hnew
      · exact .inl ⟨_, hsome, hdone⟩
      · cases List.mem_singleton.mp hnew
        obtain ⟨hfresh, hs⟩ := Exec.noteNonce_eq hexec
        refine .inr ⟨rfl, by simpa using hfresh, ?_⟩
        simp only [hs]
        exact Finset.mem_insert_self _ _
    · exact .inl ⟨t, hold, hmem⟩
  | env _ => exact .inl ⟨t, ht, hmem⟩

theorem seenNonces_step {e : ServiceEvent} (hstep : ServiceStep C p e q) :
    p.shared.store.seenNonces ⊆ q.shared.store.seenNonces := by
  cases hstep with
  | spawn _ _ => exact Finset.Subset.refl _
  | perform _ hexec => exact Exec.seenNonces_mono hexec
  | env henv => simp [EnvStep.store_eq henv]

theorem guarded_step {e : ServiceEvent} (hstep : ServiceStep C p e q) (h : Guarded p) : Guarded q where
  seen := by
    intro id nonce hpass
    rcases passedGuard_step hstep hpass with hold | ⟨_, _, hseen⟩
    · exact seenNonces_step hstep (h.seen id nonce hold)
    · exact hseen
  unique := by
    intro id id' nonce hpass hpass'
    rcases passedGuard_step hstep hpass with hold | ⟨he, hfresh, _⟩
    · rcases passedGuard_step hstep hpass' with hold' | ⟨_, hfresh', _⟩
      · exact h.unique id id' nonce hold hold'
      · exact absurd (h.seen id nonce hold) hfresh'
    · rcases passedGuard_step hstep hpass' with hold' | ⟨he', _, _⟩
      · exact absurd (h.seen id' nonce hold') hfresh
      · rw [he] at he'
        cases he'
        rfl

theorem guarded_run {es : List ServiceEvent} (h : Run (ServiceStep C) bootState es p) : Guarded p :=
  h.invariant guarded_step guarded_boot

/-- The only writes of a request to /manage: its nonce, and the removal of one member
with the decoded hash together with all its bearers. -/
inductive ManageWrite (action : ManageAction) (g : Inner) : Inner → Prop where
  | nonce : ManageWrite action g { g with seenNonces := Insert.insert action.nonce g.seenNonces }
  | revoke {hash : MemberHash} {pk : Pubkey} {m : Member} (hh : action.hash = some hash)
      (hm : g.byPubkey.lookup pk = some m) (heq : m.memberHash = hash) :
      ManageWrite action g { g with byPubkey := g.byPubkey.erase pk, byToken := eraseAll g.byToken m.sessions }

theorem task_managePath {es : List ServiceEvent} (h : Run (ServiceStep C) bootState es p) {id : Nat}
    {t : Task Request Op Ans Response} {env : ManageEnvelope} (ht : p.task id = some t)
    (hend : t.req.endpoint = .manage env) : ManagePath C.anchors env t.done t.prog := by
  have hstart : route C t.req = manageHandler P C.anchors env := by
    unfold route
    rw [hend]
  exact manage_path (hstart ▸ Pool.follows h ht)

theorem manage_step {es : List ServiceEvent} (h : Run (ServiceStep C) bootState es p) {id : Nat}
    {t : Task Request Op Ans Response} {env : ManageEnvelope} (ht : p.task id = some t)
    (hend : t.req.endpoint = .manage env) {o : Op} {a : Ans o}
    (hstep : ServiceStep C p (.perform id o a) q) :
    q.shared.store = p.shared.store ∨
      ∃ action, manageChecks P C.anchors env = .ok action ∧ ManageWrite action p.shared.store q.shared.store := by
  have hm := task_managePath h ht hend
  obtain ⟨req, done, k, hsome, hexec, -⟩ := Pool.perform_inv hstep
  rw [ht] at hsome
  cases hsome
  obtain ⟨action, hc, rfl | ⟨hash, hh, rfl⟩⟩ := hm.next
  · refine .inr ⟨action, hc, ?_⟩
    rw [(Exec.noteNonce_eq hexec).2]
    exact .nonce
  · cases a with
    | false => exact .inl (by rw [Exec.revoke_false hexec])
    | true =>
      obtain ⟨pk, m, hm, hhash, hs⟩ := Exec.revoke_true hexec
      refine .inr ⟨action, hc, ?_⟩
      rw [hs]
      simp only [Inner.removeMember, hm]
      exact .revoke hh hm hhash

end Guard

/-- The contract of /manage over every run of the service. -/
theorem manage_replay_guarded {P : Primitives} {C : Config P} {es : List ServiceEvent} {p : ServiceState}
    (h : Run (ServiceStep C) bootState es p) :
    -- a request writes only if it verifies and parses, and then only its nonce and one revoke
    (∀ id t env o a q, p.task id = some t → t.req.endpoint = .manage env →
      ServiceStep C p (.perform id o a) q → q.shared.store ≠ p.shared.store →
      ∃ payloadBytes sigBytes signature action, b64DecodeAny env.payload = some payloadBytes ∧
        b64DecodeAny env.signature = some sigBytes ∧ P.signatureFromSlice sigBytes = some signature ∧
        P.verify C.anchors.orchManagePubkey payloadBytes signature = true ∧
        P.parseAction payloadBytes = some action ∧
        ManageWrite action p.shared.store q.shared.store) ∧
    (∀ id t env, p.task id = some t → t.req.endpoint = .manage env → t.done ≠ [] →
      ∃ action, manageChecks P C.anchors env = .ok action ∧
        (t.done = [⟨.noteNonce action.nonce, false⟩] ∨
          t.done = [⟨.noteNonce action.nonce, true⟩] ∨
          ∃ hash revoked, action.hash = some hash ∧
            t.done = [⟨.noteNonce action.nonce, true⟩, ⟨.revokeByMemberHash hash, revoked⟩])) ∧
    -- of all requests with one nonce at most one gets past the guard
    (∀ id id' nonce, PassedGuard p id nonce → PassedGuard p id' nonce → id = id') ∧
    -- every other one answers 409 and leaves the sessions alone
    (∀ id t env action r, p.task id = some t → t.req.endpoint = .manage env →
      manageChecks P C.anchors env = .ok action → t.prog = .pure r → ¬ PassedGuard p id action.nonce →
      r = err .conflict "nonce replay" ∧ KeepsSessions C id es p) ∧
    -- so does every answer that is not a 200
    (∀ id t env r, p.task id = some t → t.req.endpoint = .manage env → t.prog = .pure r → r.status ≠ .ok →
      KeepsSessions C id es p) ∧
    -- and every request can be brought to its answer
    (∀ id t, p.task id = some t → ∃ more q done r, Run (ServiceStep C) p more q ∧
      q.task id = some ⟨t.req, done, .pure r⟩ ∧ ∀ e ∈ more, ∃ o a, e = .perform id o a) := by
  have hkeep : ∀ {id t env r}, p.task id = some t → t.req.endpoint = .manage env → t.prog = .pure r →
      r.status ≠ .ok → KeepsSessions C id es p := by
    intro id t env r ht hend hp hr
    have hpath := task_managePath h ht hend
    rw [hp] at hpath
    exact keepsSessions_of_done ht (hpath.spares hr)
  refine ⟨?_, ?_, (guarded_run h).unique, ?_, fun id t env r => hkeep, fun id t ht => Pool.can_finish Exec.total ht⟩
  · intro id t env o a q ht hend hstep hne
    rcases manage_step h ht hend hstep with heq | ⟨action, hc, hw⟩
    · exact absurd heq hne
    · obtain ⟨payloadBytes, sigBytes, signature, hp, hs, hsig, hv, hparse⟩ := (manageChecks_eq_ok P).mp hc
      exact ⟨payloadBytes, sigBytes, signature, action, hp, hs, hsig, hv, hparse, hw⟩
  · intro id t env ht hend hne
    exact (task_managePath h ht hend).done_cases hne
  · intro id t env action r ht hend hc hp hno
    have hpath := task_managePath h ht hend
    rw [hp] at hpath
    have hr := hpath.refused hc fun hm => hno ⟨t, ht, hm⟩
    refine ⟨hr, hkeep ht hend hp ?_⟩
    rw [hr]
    simp [err]

namespace Synthetic

def action : ManageAction := ⟨"revoke", "nonce-1", some (hexEncode memberHash.toList)⟩

theorem manageChecks_of_decoded (env : ManageEnvelope) (payload : List UInt8)
    (hp : b64DecodeAny env.payload = some payload) (hs : b64DecodeAny env.signature = some [1]) :
    manageChecks primitives anchors env = .ok action :=
  (manageChecks_eq_ok primitives).mpr ⟨payload, [1], [1], hp, hs, rfl, rfl, rfl⟩

theorem route_manage {env : ManageEnvelope} {client : Option Pubkey}
    (h : manageChecks primitives anchors env = .ok action) :
    route config ⟨client, .manage env⟩ = guardAndApply action := by
  simp only [route, manageHandler, config, h]

theorem action_hash : action.hash = some memberHash := by decide +kernel

theorem applyAction_eq : applyAction action =
    .call (.revokeByMemberHash memberHash) fun revoked => .pure ⟨.ok, .revoked revoked⟩ := by
  have hrevoke : action.action = "revoke" := rfl
  rw [applyAction, action_hash, if_pos hrevoke]
  rfl

theorem follows_revoke (revoked : Bool) : Follows (guardAndApply action)
    [⟨.noteNonce "nonce-1", true⟩, ⟨.revokeByMemberHash memberHash, revoked⟩] (.pure ⟨.ok, .revoked revoked⟩) := by
  rw [guardAndApply_eq]
  refine .cons ?_
  rw [if_pos rfl, applyAction_eq]
  exact .cons (.nil _)

theorem follows_replay : Follows (guardAndApply action) [⟨.noteNonce "nonce-1", false⟩]
    (.pure (err .conflict "nonce replay")) := by
  rw [guardAndApply_eq]
  exact .cons (.nil _)

def first : Vector UInt8 32 := Vector.replicate 32 0

def second : Vector UInt8 32 := Vector.replicate 32 1

def bearerToken : String := b64urlNopad first.toList

def enrolled : Shared := { connected.shared with store := (Inner.empty.insert (entry first)).2 }

def revokedShared : Shared :=
  { enrolled with store := (enrolled.store.noteNonce "nonce-1").2.removeMember pubkey }

def reenrolled : Shared := { revokedShared with store := (revokedShared.store.insert (entry second)).2 }

theorem performs_revoke : Performs enrolled [⟨.noteNonce "nonce-1", true⟩, ⟨.revokeByMemberHash memberHash, true⟩]
    revokedShared := by
  have hnote : Exec enrolled (.noteNonce "nonce-1") true
      { enrolled with store := (enrolled.store.noteNonce "nonce-1").2 } := by
    have hfresh : (enrolled.store.noteNonce "nonce-1").1 = true := by decide +kernel
    exact hfresh ▸ Exec.noteNonce enrolled "nonce-1"
  have hmember : (enrolled.store.noteNonce "nonce-1").2.byPubkey.lookup pubkey =
      some ⟨memberHash, originalTx, [bearerToken]⟩ := by decide +kernel
  have hfound := Iteration.find_startingAt hmember (p := fun m => m.memberHash == memberHash) (by decide)
  have hrevoke := Exec.revokeByMemberHash { enrolled with store := (enrolled.store.noteNonce "nonce-1").2 }
    (Iteration.startingAt (Finmap.mem_of_lookup_eq_some hmember)) memberHash
  simp only [Inner.revokeByMemberHash, Inner.findMember, hfound] at hrevoke
  exact .cons hnote (.single hrevoke)

def revokeRequest : Request := ⟨some pubkey, .manage ⟨"QQ==", "AQ=="⟩⟩

theorem follows_revokeRequest : Follows (route config revokeRequest)
    [⟨.noteNonce "nonce-1", true⟩, ⟨.revokeByMemberHash memberHash, true⟩] (.pure ⟨.ok, .revoked true⟩) := by
  rw [revokeRequest, route_manage (manageChecks_of_decoded ⟨"QQ==", "AQ=="⟩ [65] (by decide) (by decide))]
  exact follows_revoke true

/-- The member enrols, is revoked and enrols again. -/
theorem reenrolled_run : ∃ es₀ p₀ es₁ p₁ es₂ p₂, Run (ServiceStep config) bootState es₀ p₀ ∧
    Run (ServiceStep config) p₀ es₁ p₁ ∧ Run (ServiceStep config) p₁ es₂ p₂ ∧
    mintedTokens es₀ = [b64urlNopad first.toList] ∧ mintedTokens es₁ = [] ∧
    mintedTokens es₂ = [b64urlNopad second.toList] ∧ p₀.task 2 = none ∧
    p₁.task 2 = some ⟨revokeRequest,
      [⟨.noteNonce "nonce-1", true⟩, ⟨.revokeByMemberHash memberHash, true⟩], .pure ⟨.ok, .revoked true⟩⟩ ∧
    p₂.task 2 = p₁.task 2 ∧ p₂.task 4 = none ∧ p₂.shared = reenrolled := by
  obtain ⟨es₀, p₀, hrun₀, hminted₀, hs₀, ht₀⟩ := serve 1 (.enroll now request) rfl connected_conns (follows_enroll first)
    (performs_enroll _ first)
  have hrevoke : Performs p₀.shared [⟨.noteNonce "nonce-1", true⟩, ⟨.revokeByMemberHash memberHash, true⟩]
      revokedShared := by
    rw [hs₀]
    exact performs_revoke
  obtain ⟨es₁, p₁, hrun₁, hminted₁, hs₁, ht₁⟩ := serve 2 revokeRequest.endpoint (by simp [ht₀, connected])
    (by rw [hs₀]; exact connected_conns) follows_revokeRequest hrevoke
  obtain ⟨es₂, p₂, hrun₂, hminted₂, hs₂, ht₂⟩ := serve 3 (.enroll now request) (by simp [ht₁, ht₀, connected])
    (by rw [hs₁]; exact connected_conns) (follows_enroll second) (performs_enroll p₁.shared second)
  refine ⟨_, p₀, es₁, p₁, es₂, p₂, run_connected.append hrun₀, hrun₁, hrun₂, ?_, hminted₁, hminted₂,
    by simp [ht₀, connected], by simp [ht₁, revokeRequest], by simp [ht₂], by simp [ht₂, ht₁, ht₀, connected], ?_⟩
  · rw [mintedTokens_append, hminted₀]
    rfl
  · rw [hs₂, hs₁]
    rfl

end Synthetic

/-- The copy, re-spelled, of a revoke comes after the member has enrolled again: it gets
a 409 and the new bearer stays. -/
theorem manage_replay_guarded_respelled :
    let copy : Request := ⟨some Synthetic.pubkey, .manage ⟨"Q\nQ", "=AQ"⟩⟩
    ∃ es p t t', Run (ServiceStep Synthetic.config) bootState es p ∧
      p.task 2 = some ⟨Synthetic.revokeRequest, t, .pure ⟨.ok, .revoked true⟩⟩ ∧
      p.task 4 = some ⟨copy, t', .pure (err .conflict "nonce replay")⟩ ∧
      PassedGuard p 2 "nonce-1" ∧ ¬ PassedGuard p 4 "nonce-1" ∧
      KeepsSessions Synthetic.config 4 es p ∧
      p.shared.store.containsToken (b64urlNopad Synthetic.first.toList) = false ∧
      p.shared.store.containsToken (b64urlNopad Synthetic.second.toList) = true := by
  intro copy
  have hcopy := Synthetic.manageChecks_of_decoded ⟨"Q\nQ", "=AQ"⟩ [65] (by decide) (by decide)
  obtain ⟨es₀, p₀, es₁, p₁, es₂, p₂, hrun₀, hrun₁, hrun₂, -, -, -, -, hrevoked, hkept, hfree, hs₂⟩ :=
    Synthetic.reenrolled_run
  have hnote : Synthetic.Performs p₂.shared [⟨.noteNonce "nonce-1", false⟩]
      { Synthetic.reenrolled with store := (Synthetic.reenrolled.store.noteNonce "nonce-1").2 } := by
    have hseen : (Synthetic.reenrolled.store.noteNonce "nonce-1").1 = false := by decide +kernel
    rw [hs₂]
    exact .single (hseen ▸ Exec.noteNonce Synthetic.reenrolled "nonce-1")
  obtain ⟨es₃, p₃, hrun₃, -, hs₃, ht₃⟩ := Synthetic.serve 4 (.manage ⟨"Q\nQ", "=AQ"⟩) hfree
    (by rw [hs₂]; exact Synthetic.connected_conns)
    (by rw [Synthetic.route_manage hcopy]; exact Synthetic.follows_replay) hnote
  have hrun := ((hrun₀.append hrun₁).append hrun₂).append hrun₃
  have hrevoked₃ : p₃.task 2 = p₁.task 2 := by simp [ht₃, hkept]
  have hpass : PassedGuard p₃ 2 "nonce-1" := by
    rw [PassedGuard, hrevoked₃, hrevoked]
    exact ⟨_, rfl, List.mem_cons_self⟩
  have htask : p₃.task 4 = some ⟨copy, [⟨.noteNonce "nonce-1", false⟩], .pure (err .conflict "nonce replay")⟩ := by
    rw [ht₃]
    rfl
  have hno : ¬ PassedGuard p₃ 4 "nonce-1" := by
    intro h
    have := (manage_replay_guarded hrun).2.2.1 2 4 "nonce-1" hpass h
    omega
  refine ⟨_, p₃, _, _, hrun, hrevoked₃.trans hrevoked, htask, hpass, hno,
    ((manage_replay_guarded hrun).2.2.2.1 4 _ _ _ _ htask rfl hcopy rfl hno).2, ?_, ?_⟩
  · rw [hs₃]
    decide +kernel
  · rw [hs₃]
    decide +kernel

end IronInstance
