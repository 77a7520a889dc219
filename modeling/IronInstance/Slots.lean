import IronInstance.Membership

/-!
# What a revoke means for a slot

A revoke drops the bearers a slot has at that moment, for good. It leaves no trace
beyond that: `/enroll` consults the manifest, which is fixed for the lifetime of the
process, so the same member may enroll again.
-/

namespace IronInstance
open FiniteMap Programs Runs
set_option autoImplicit false

def AnsweredRevoked (p : ServiceState) (id : Nat) (hash : MemberHash) : Prop :=
  ∃ t env, p.task id = some t ∧ t.req.endpoint = .manage env ∧
    ⟨.revokeByMemberHash hash, true⟩ ∈ t.done ∧ t.prog = .pure ⟨.ok, .revoked true⟩

/-- After a revoke of `hash` no enroll inserts a bearer for it any more, and no live
token carries it. -/
def StaysRevoked {P : Primitives} (C : Config P) : Prop :=
  ∀ es₁ p₁ id hash es₂ p₂, Run (ServiceStep C) bootState es₁ p₁ → AnsweredRevoked p₁ id hash →
    Run (ServiceStep C) p₁ es₂ p₂ → (mintedTokens (es₁ ++ es₂)).Nodup →
    (∀ id' entry ok, .perform id' (.insert entry) ok ∈ es₂ → entry.memberHash ≠ hash) ∧
    ∀ token entry, p₂.shared.store.containsToken token = true →
      p₂.shared.store.getByToken token = some entry → entry.memberHash ≠ hash

/-! ## The bearers that are gone -/

theorem Step.mem_sessions {g g' : Inner} {e : StoreEvent} (h : Step g e g') {pk : Pubkey} {t : String}
    (ht : t ∈ g'.sessions pk) : t ∈ g.sessions pk ∨ t ∈ insertedTokens [e] := by
  rw [h.sessions pk] at ht
  cases hk : e.forKey pk with
  | none =>
    rw [hk] at ht
    exact .inl ht
  | some k =>
    rw [hk] at ht
    have hin := (Newest.rtake_suffix _ _).subset ht
    cases k with
    | removed => cases hin
    | inserted token =>
      rcases List.mem_append.mp hin with hold | hnew
      · exact .inl hold
      · obtain ⟨entry, rfl, -, rfl⟩ := forKey_eq_inserted.mp hk
        rw [List.mem_singleton.mp hnew]
        exact .inr (token_mem_insertedTokens List.mem_cons_self)

theorem mem_sessions_run {g g' : Inner} {es : List StoreEvent} (h : Run Step g es g') {pk : Pubkey} {t : String}
    (ht : t ∈ g'.sessions pk) : t ∈ g.sessions pk ∨ t ∈ insertedTokens es := by
  induction h with
  | nil => exact .inl ht
  | @cons g g₁ g' e es hstep _ ih =>
    have hsplit : insertedTokens (e :: es) = insertedTokens [e] ++ insertedTokens es :=
      insertedTokens_append [e] es
    rw [hsplit, List.mem_append]
    rcases ih ht with hmid | hlater
    · rcases hstep.mem_sessions hmid with hold | hnew
      · exact .inl hold
      · exact .inr (.inl hnew)
    · exact .inr (.inr hlater)

theorem removal_is_final {hist later : List StoreEvent} {g g' : Inner} {hash : MemberHash} {pk : Pubkey}
    {m : Member} (hg : Run Step Inner.empty hist g) (hm : g.byPubkey.lookup pk = some m) (hh : m.memberHash = hash)
    (hlater : Run Step (g.removeMember pk) later g') (hd : (insertedTokens (hist ++ later)).Nodup) :
    (∀ t ∈ m.sessions, g'.containsToken t = false) ∧
      ∀ t, t ∈ g'.sessions pk → t ∈ insertedTokens later := by
  have hstep : Step g (.revokeByMemberHash hash (some pk)) (g.removeMember pk) := Step.revoke_of_match hm hh
  have hbefore : insertedTokens (hist ++ [.revokeByMemberHash hash (some pk)]) = insertedTokens hist := by
    simp [insertedTokens, StoreEvent.token]
  have hnodup := hd
  rw [insertedTokens_append, List.nodup_append] at hnodup
  have hc : Consistent g := consistent_of_distinct hg hnodup.1
  constructor
  · intro t ht
    have hmem : t ∈ g.sessions pk := by rwa [Inner.sessions_of_lookup hm]
    have hin : t ∈ insertedTokens hist := live_inserted hg (hc.containsToken_iff.mpr ⟨pk, hmem⟩)
    have hdead : (g.removeMember pk).containsToken t = false := by
      rw [Inner.containsToken, Inner.removeMember_byToken, if_pos hmem]
      rfl
    refine dead_stays_dead (hg.snoc hstep) hlater ?_ (by rwa [hbefore]) hdead
    rwa [insertedTokens_append, hbefore, ← insertedTokens_append]
  · intro t ht
    rcases mem_sessions_run hlater ht with hold | hnew
    · rw [Inner.removeMember_sessions, if_pos rfl] at hold
      cases hold
    · exact hnew

/-- A revoke is final for the bearers of the member it removed: whatever happens later,
they stay refused, and a live token that carries the hash was inserted after the revoke
or belongs to another pubkey with the same hash. -/
theorem revoked_bearers_stay_dead {P : Primitives} {C : Config P} {es₁ es₂ : List ServiceEvent}
    {p₁ p₂ : ServiceState} {id : Nat} {hash : MemberHash} (h₁ : Run (ServiceStep C) bootState es₁ p₁)
    (hrev : AnsweredRevoked p₁ id hash) (h₂ : Run (ServiceStep C) p₁ es₂ p₂)
    (hd : (mintedTokens (es₁ ++ es₂)).Nodup) :
    ∃ pre post a b pk m, es₁ = pre ++ .perform id (.revokeByMemberHash hash) true :: post ∧
      Run (ServiceStep C) bootState pre a ∧ ServiceStep C a (.perform id (.revokeByMemberHash hash) true) b ∧
      Run (ServiceStep C) b post p₁ ∧ a.shared.store.byPubkey.lookup pk = some m ∧ m.memberHash = hash ∧
      b.shared.store = a.shared.store.removeMember pk ∧
      (∀ token ∈ m.sessions, p₂.shared.store.containsToken token = false) ∧
      (∀ token entry, p₂.shared.store.containsToken token = true →
        p₂.shared.store.getByToken token = some entry → entry.memberHash = hash →
        token ∈ mintedTokens (post ++ es₂) ∨ entry.clientPubkey ≠ pk) ∧
      (OneToOne C.manifest → ∀ token entry, p₂.shared.store.containsToken token = true →
        p₂.shared.store.getByToken token = some entry → entry.memberHash = hash →
        token ∈ mintedTokens (post ++ es₂)) := by
  obtain ⟨t, env, ht, -, hdone, -⟩ := hrev
  obtain ⟨pre, post, a, b, rfl, hpre, hstep, hpost⟩ := h₁.split_at (Pool.performed_of_done h₁ ht hdone)
  obtain ⟨_, _, _, _, hexec, _⟩ := Pool.perform_inv hstep
  obtain ⟨pk, m, hm, hh, hb⟩ := Exec.revoke_true hexec
  obtain ⟨hist, hhist, htok⟩ := storeRun_of_service hpre
  obtain ⟨later, hlater, htok'⟩ := storeRun_of_service (hpost.append h₂)
  have hd' : (insertedTokens (hist ++ later)).Nodup := by
    rw [insertedTokens_append, htok, htok', ← mintedTokens_append]
    -- the revoke itself inserts nothing
    have hsame : mintedTokens (pre ++ .perform id (.revokeByMemberHash hash) true :: post ++ es₂) =
        mintedTokens (pre ++ (post ++ es₂)) := by
      rw [List.append_assoc, mintedTokens_append, mintedTokens_append, mintedTokens_append, mintedTokens_append]
      rfl
    rwa [← hsame]
  have hb' : b.shared.store = a.shared.store.removeMember pk := by rw [hb]
  obtain ⟨hgone, hnew⟩ := removal_is_final hhist hm hh (hb' ▸ hlater) hd'
  have hc : Consistent p₂.shared.store := consistent_of_service (h₁.append h₂) hd
  -- a live token is held by the pubkey it resolves to
  have hheld : ∀ token entry, p₂.shared.store.getByToken token = some entry →
      token ∈ p₂.shared.store.sessions entry.clientPubkey := by
    intro token entry hget
    exact (hc.byToken_iff token _).mp (Inner.member_of_getByToken hget).1
  refine ⟨pre, post, a, b, pk, m, rfl, hpre, hstep, hpost, hm, hh, hb', hgone, ?_, ?_⟩
  · intro token entry _ hget _
    by_cases hpk : entry.clientPubkey = pk
    · exact .inl (htok' ▸ hnew token (hpk ▸ hheld token entry hget))
    · exact .inr hpk
  · intro hM token entry _ hget hentry
    have hpair := (authorised_run hpre).stored pk m hm
    obtain ⟨-, m', hm', hhash⟩ := Inner.member_of_getByToken hget
    have hpair' := (authorised_run (h₁.append h₂)).stored _ m' hm'
    rw [hhash, hentry] at hpair'
    have hsame : entry.clientPubkey = pk := hM.pubkey_unique _ pk hash hpair' (hh ▸ hpair)
    exact htok' ▸ hnew token (hsame ▸ hheld token entry hget)

theorem Synthetic.answeredRevoked {p : ServiceState} (h : p.task 2 = some ⟨revokeRequest,
    [⟨.noteNonce "nonce-1", true⟩, ⟨.revokeByMemberHash memberHash, true⟩], .pure ⟨.ok, .revoked true⟩⟩) :
    AnsweredRevoked p 2 memberHash :=
  ⟨_, _, h, rfl, by simp, rfl⟩

/-- The revoked member enrolls again and gets a live bearer with the same hash. -/
theorem not_staysRevoked : ¬ StaysRevoked Synthetic.config := by
  intro hstays
  obtain ⟨es₀, p₀, es₁, p₁, es₂, p₂, hrun₀, hrun₁, hrun₂, hminted₀, hminted₁, hminted₂, -, hrevoked, -, -, hs₂⟩ :=
    Synthetic.reenrolled_run
  have hdistinct : (mintedTokens (es₀ ++ es₁ ++ es₂)).Nodup := by
    rw [mintedTokens_append, mintedTokens_append, hminted₀, hminted₁, hminted₂]
    decide
  obtain ⟨-, hlive⟩ := hstays _ _ _ _ _ _ (hrun₀.append hrun₁) (Synthetic.answeredRevoked hrevoked) hrun₂ hdistinct
  refine hlive (Synthetic.entry Synthetic.second).sessionToken (Synthetic.entry Synthetic.second) ?_ ?_ rfl
  · rw [hs₂]
    exact Inner.containsToken_insert _ _
  · rw [hs₂]
    exact Inner.getByToken_insert _ _

/-- In the same run the first bearer is dead and the second one came after the revoke. -/
theorem revoked_bearers_stay_dead_reenrolled :
    ∃ es₁ p₁ es₂ p₂, Run (ServiceStep Synthetic.config) bootState es₁ p₁ ∧
      AnsweredRevoked p₁ 2 Synthetic.memberHash ∧ Run (ServiceStep Synthetic.config) p₁ es₂ p₂ ∧
      p₂.shared.store.containsToken (b64urlNopad Synthetic.first.toList) = false ∧
      p₂.shared.store.containsToken (b64urlNopad Synthetic.second.toList) = true ∧
      b64urlNopad Synthetic.second.toList ∈ mintedTokens es₂ := by
  obtain ⟨es₀, p₀, es₁, p₁, es₂, p₂, hrun₀, hrun₁, hrun₂, hminted₀, hminted₁, hminted₂, hfree, hrevoked, -, -, hs₂⟩ :=
    Synthetic.reenrolled_run
  have hdistinct : (mintedTokens (es₀ ++ es₁ ++ es₂)).Nodup := by
    rw [mintedTokens_append, mintedTokens_append, hminted₀, hminted₁, hminted₂]
    decide
  have hrev := Synthetic.answeredRevoked hrevoked
  obtain ⟨pre, post, a, b, pk, m, hsplit, -, -, -, -, -, -, -, -, hlater⟩ :=
    revoked_bearers_stay_dead (hrun₀.append hrun₁) hrev hrun₂ hdistinct
  -- the revoke is not among the events of the first enroll, so nothing minted there comes after it
  have hpost : mintedTokens post = [] := by
    rcases List.append_eq_append_iff.mp hsplit with ⟨mid, hpre, hes₁⟩ | ⟨mid, hes₀, hes₁⟩
    · rw [hes₁, mintedTokens_append] at hminted₁
      exact (List.append_eq_nil_iff.mp hminted₁).2
    · rcases mid with _ | ⟨e, mid⟩
      · rw [List.nil_append] at hes₁
        rw [← hes₁] at hminted₁
        exact hminted₁
      · cases hes₁
        obtain ⟨t, ht, -⟩ := Pool.task_of_performed hrun₀ (hes₀ ▸ List.mem_append_right pre List.mem_cons_self)
        rw [hfree] at ht
        cases ht
  refine ⟨_, p₁, es₂, p₂, hrun₀.append hrun₁, hrev, hrun₂, ?_, ?_, hminted₂ ▸ List.mem_singleton_self _⟩
  · by_contra hlive
    rw [Bool.not_eq_false] at hlive
    have hc := consistent_of_service ((hrun₀.append hrun₁).append hrun₂) hdistinct
    have hsome : (p₂.shared.store.getByToken (b64urlNopad Synthetic.first.toList)).isSome = true := by
      rw [hc.held.isSome_getByToken, hlive]
    obtain ⟨entry, hentry⟩ := Option.isSome_iff_exists.mp hsome
    obtain ⟨-, m', hm', hhash⟩ := Inner.member_of_getByToken hentry
    have hpair := (authorised_run ((hrun₀.append hrun₁).append hrun₂)).stored _ m' hm'
    have hmember := (Synthetic.containsPair_iff.mp hpair).2
    have hminted := hlater Synthetic.oneToOne _ entry hlive hentry (hhash.symm.trans hmember)
    rw [mintedTokens_append, hpost, hminted₂] at hminted
    revert hminted
    decide
  · rw [hs₂]
    exact Inner.containsToken_insert _ _

end IronInstance
