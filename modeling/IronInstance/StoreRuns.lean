import Mathlib.Algebra.BigOperators.Finprod
import IronInstance.State
import IronInstance.Library.Runs

/-!
# Runs of store operations and the two session indexes

Every lock section that writes is one event of a run. An event records what the
operation answered and, for a revoke, which pubkey it removed, since the order in
which a hash map is walked is unspecified. `by_pubkey` and `by_token` are updated
by separate statements; `Consistent` is the joint invariant that every operation
keeps as long as an inserted token is not already live.
-/

namespace IronInstance
open FiniteMap Newest Runs
set_option autoImplicit false

inductive StoreEvent where
  | insert (entry : MemberEntry)
  | revokeByMemberHash (hash : MemberHash) (found : Option Pubkey)
  | noteNonce (nonce : String) (fresh : Bool)
  | allowAttestation (pubkey : Pubkey) (now : Instant) (allowed : Bool)
  deriving DecidableEq

/-- One lock section; a revoke may walk `by_pubkey` in any order. -/
inductive Step : Inner → StoreEvent → Inner → Prop where
  | insert (g : Inner) (entry : MemberEntry) : Step g (.insert entry) (g.insert entry).2
  | revoke (g : Inner) (it : Iteration g.byPubkey) (hash : MemberHash) :
      Step g (.revokeByMemberHash hash (g.findMember it hash)) (g.revokeByMemberHash it hash).2
  | noteNonce (g : Inner) (nonce : String) :
      Step g (.noteNonce nonce (g.noteNonce nonce).1) (g.noteNonce nonce).2
  | allowAttestation (g : Inner) (pubkey : Pubkey) (now : Instant) :
      Step g (.allowAttestation pubkey now (g.allowAttestation pubkey now).1)
        (g.allowAttestation pubkey now).2

namespace Step
variable {g g' : Inner}

theorem insert_eq {entry : MemberEntry} (h : Step g (.insert entry) g') : g' = (g.insert entry).2 := by
  cases h; rfl

theorem noteNonce_eq {nonce : String} {fresh : Bool} (h : Step g (.noteNonce nonce fresh) g') :
    (fresh, g') = g.noteNonce nonce := by
  cases h; rfl

theorem allowAttestation_eq {pk : Pubkey} {now : Instant} {allowed : Bool}
    (h : Step g (.allowAttestation pk now allowed) g') : (allowed, g') = g.allowAttestation pk now := by
  cases h; rfl

theorem revoke_none {hash : MemberHash} (h : Step g (.revokeByMemberHash hash none) g') :
    g' = g ∧ ∀ pk m, g.byPubkey.lookup pk = some m → m.memberHash ≠ hash := by
  generalize hf : (none : Option Pubkey) = found at h
  cases h with
  | revoke it =>
    refine ⟨by simp [Inner.revokeByMemberHash, ← hf], ?_⟩
    intro pk m hm
    simpa using Iteration.find_none hf.symm hm

theorem revoke_some {hash : MemberHash} {pk : Pubkey}
    (h : Step g (.revokeByMemberHash hash (some pk)) g') :
    g' = g.removeMember pk ∧ ∃ m, g.byPubkey.lookup pk = some m ∧ m.memberHash = hash := by
  generalize hf : some pk = found at h
  cases h with
  | revoke it =>
    refine ⟨by simp [Inner.revokeByMemberHash, ← hf], ?_⟩
    obtain ⟨m, hm, hp⟩ := Iteration.find_some hf.symm
    exact ⟨m, hm, by simpa using hp⟩

/-- Any member with the hash may be the one that is removed. -/
theorem revoke_of_match {hash : MemberHash} {pk : Pubkey} {m : Member}
    (hm : g.byPubkey.lookup pk = some m) (hh : m.memberHash = hash) :
    Step g (.revokeByMemberHash hash (some pk)) (g.removeMember pk) := by
  have hfind := Iteration.find_startingAt hm (p := fun m => m.memberHash == hash) (by simpa using hh)
  have h := Step.revoke g (Iteration.startingAt (Finmap.mem_of_lookup_eq_some hm)) hash
  have hf : g.findMember (Iteration.startingAt (Finmap.mem_of_lookup_eq_some hm)) hash = some pk := hfind
  rw [Inner.revokeByMemberHash, hf] at h
  exact h

theorem revoke_of_no_match {hash : MemberHash}
    (hno : ∀ pk m, g.byPubkey.lookup pk = some m → m.memberHash ≠ hash) :
    Step g (.revokeByMemberHash hash none) g := by
  obtain ⟨it⟩ : Nonempty (Iteration g.byPubkey) := inferInstance
  have h := Step.revoke g it hash
  cases hf : g.findMember it hash with
  | none =>
    rw [Inner.revokeByMemberHash, hf] at h
    exact h
  | some pk =>
    obtain ⟨m, hm, hp⟩ := Iteration.find_some hf
    exact absurd (by simpa using hp) (hno pk m hm)

end Step

/-- The step of a run in which no insert repeats a live token. -/
def FreshStep (g : Inner) (e : StoreEvent) (g' : Inner) : Prop :=
  Step g e g' ∧ ∀ entry, e = .insert entry → g.containsToken entry.sessionToken = false

/-! ## The joint invariant -/

/-- A live token is among the sessions of the pubkey it resolves to, even where tokens repeat. -/
def Held (g : Inner) : Prop := ∀ t pk, g.byToken.lookup t = some pk → t ∈ g.sessions pk

namespace Held
variable {g g' : Inner}

theorem insert (h : Held g) (entry : MemberEntry) : Held (g.insert entry).2 := by
  intro t pk ht
  rw [Inner.insert_byToken] at ht
  rw [Inner.insert_sessions]
  by_cases hnew : t = entry.sessionToken
  · rw [if_pos hnew] at ht
    rw [if_pos (Option.some.inj ht).symm, hnew]
    exact mem_rtake_push _ _ (by decide)
  rw [if_neg hnew] at ht
  split at ht
  · cases ht
  rename_i hkept
  have hold := h t pk ht
  split
  · rename_i hpk
    subst hpk
    have hpushed : t ∈ g.sessions entry.clientPubkey ++ [entry.sessionToken] := List.mem_append_left _ hold
    rw [← List.take_append_drop ((g.sessions entry.clientPubkey ++ [entry.sessionToken]).length - deviceCap)
      (g.sessions entry.clientPubkey ++ [entry.sessionToken]), List.mem_append] at hpushed
    exact hpushed.resolve_left hkept
  · exact hold

theorem removeMember (h : Held g) (pk : Pubkey) : Held (g.removeMember pk) := by
  intro t pk' ht
  rw [Inner.removeMember_byToken] at ht
  split at ht
  · cases ht
  rename_i hkept
  rw [Inner.removeMember_sessions]
  split
  · rename_i hpk
    subst hpk
    exact absurd (h t pk' ht) hkept
  · exact h t pk' ht

theorem step {e : StoreEvent} (hs : Step g e g') (h : Held g) : Held g' := by
  cases e with
  | insert entry =>
    rw [hs.insert_eq]
    exact h.insert entry
  | revokeByMemberHash hash found =>
    cases found with
    | none => rwa [hs.revoke_none.1]
    | some pk =>
      rw [hs.revoke_some.1]
      exact h.removeMember pk
  | noteNonce nonce fresh =>
    cases hs
    simpa [Held, Inner.sessions] using h
  | allowAttestation pk now allowed =>
    cases hs
    simpa [Held, Inner.sessions] using h

theorem of_run {es : List StoreEvent} (h : Run Step Inner.empty es g) : Held g :=
  h.invariant Held.step (by simp [Held, Inner.empty])

theorem isSome_getByToken (h : Held g) (t : String) : (g.getByToken t).isSome = g.containsToken t := by
  unfold Inner.getByToken Inner.containsToken
  cases ht : g.byToken.lookup t with
  | none => rfl
  | some pk =>
    obtain ⟨m, hm, _⟩ := Inner.mem_sessions_iff.mp (h t pk ht)
    simp [hm]

end Held

/-- Both indexes describe the same set of sessions, within the cap. -/
structure Consistent (g : Inner) : Prop where
  byToken_iff : ∀ t pk, g.byToken.lookup t = some pk ↔ t ∈ g.sessions pk
  length_pos : ∀ pk m, g.byPubkey.lookup pk = some m → 0 < m.sessions.length
  length_le : ∀ pk, (g.sessions pk).length ≤ deviceCap
  nodup : ∀ pk, (g.sessions pk).Nodup

namespace Consistent
variable {g : Inner}

theorem empty : Consistent Inner.empty where
  byToken_iff := by simp [Inner.empty, Inner.sessions]
  length_pos := by simp [Inner.empty]
  length_le := by simp
  nodup := by simp

theorem congr {g' : Inner} (h : Consistent g) (hp : g'.byPubkey = g.byPubkey)
    (ht : g'.byToken = g.byToken) : Consistent g' := by
  have hs : g'.sessions = g.sessions := by
    funext pk
    simp [Inner.sessions, hp]
  exact ⟨by rw [ht, hs]; exact h.byToken_iff, by rw [hp]; exact h.length_pos,
    by rw [hs]; exact h.length_le, by rw [hs]; exact h.nodup⟩

theorem unique_owner (h : Consistent g) {t : String} {pk pk' : Pubkey}
    (hpk : t ∈ g.sessions pk) (hpk' : t ∈ g.sessions pk') : pk = pk' := by
  have h₁ := (h.byToken_iff t pk).mpr hpk
  have h₂ := (h.byToken_iff t pk').mpr hpk'
  rw [h₁] at h₂
  exact Option.some.inj h₂

theorem containsToken_iff (h : Consistent g) {t : String} :
    g.containsToken t = true ↔ ∃ pk, t ∈ g.sessions pk := by
  simp only [Inner.containsToken_iff, h.byToken_iff]

theorem not_mem_of_not_live (h : Consistent g) {t : String} (ht : g.containsToken t = false)
    (pk : Pubkey) : t ∉ g.sessions pk := by
  intro hm
  have := h.containsToken_iff.mpr ⟨pk, hm⟩
  rw [ht] at this
  exact Bool.false_ne_true this

theorem nodup_push (h : Consistent g) {entry : MemberEntry}
    (hfresh : g.containsToken entry.sessionToken = false) :
    (g.sessions entry.clientPubkey ++ [entry.sessionToken]).Nodup := by
  refine List.nodup_append.mpr ⟨h.nodup _, by simp, ?_⟩
  rintro a ha b hb rfl
  rw [List.mem_singleton.mp hb] at ha
  exact h.not_mem_of_not_live hfresh _ ha

theorem insert_own (h : Consistent g) {entry : MemberEntry}
    (hfresh : g.containsToken entry.sessionToken = false) (t : String) :
    (g.insert entry).2.byToken.lookup t = some entry.clientPubkey ↔
      t ∈ (g.insert entry).2.sessions entry.clientPubkey := by
  have hnd := h.nodup_push hfresh
  rw [Inner.insert_byToken, Inner.insert_sessions, if_pos rfl, mem_rtake_iff hnd, ← Inner.evicted]
  by_cases ht : t = entry.sessionToken
  · subst ht
    have hkept := mem_rtake_push (g.sessions entry.clientPubkey) entry.sessionToken
      (n := deviceCap) (by decide)
    simpa [Inner.evicted] using ((mem_rtake_iff hnd _ _).mp hkept).2
  · rw [if_neg ht]
    by_cases hev : t ∈ g.evicted entry
    · rw [if_pos hev]
      simp [hev]
    · rw [if_neg hev, h.byToken_iff]
      simp [ht, hev]

/-- Another pubkey's bearers are neither evicted nor equal to the new token. -/
theorem insert_spares (h : Consistent g) {entry : MemberEntry}
    (hfresh : g.containsToken entry.sessionToken = false) {pk : Pubkey} (hpk : pk ≠ entry.clientPubkey)
    {t : String} (hm : t ∈ g.sessions pk) : t ≠ entry.sessionToken ∧ t ∉ g.evicted entry := by
  have hne : t ≠ entry.sessionToken := by
    intro heq
    subst heq
    exact h.not_mem_of_not_live hfresh pk hm
  refine ⟨hne, fun hev => hpk ?_⟩
  have hin := List.mem_of_mem_take hev
  have hown : t ∈ g.sessions entry.clientPubkey := by simpa [hne] using hin
  exact h.unique_owner hm hown

theorem insert_other (h : Consistent g) {entry : MemberEntry}
    (hfresh : g.containsToken entry.sessionToken = false) {pk : Pubkey} (hpk : pk ≠ entry.clientPubkey)
    (t : String) : (g.insert entry).2.byToken.lookup t = some pk ↔ t ∈ (g.insert entry).2.sessions pk := by
  have hspares := fun hm => h.insert_spares hfresh hpk (t := t) hm
  rw [Inner.insert_byToken, Inner.insert_sessions, if_neg hpk]
  by_cases ht : t = entry.sessionToken
  · rw [if_pos ht]
    constructor
    · intro heq
      exact absurd (Option.some.inj heq).symm hpk
    · intro hm
      exact absurd ht (hspares hm).1
  · rw [if_neg ht]
    split
    · rename_i hev
      simpa using fun hm => (hspares hm).2 hev
    · exact h.byToken_iff t pk

theorem insert (h : Consistent g) {entry : MemberEntry}
    (hfresh : g.containsToken entry.sessionToken = false) : Consistent (g.insert entry).2 where
  byToken_iff := by
    intro t pk
    by_cases hpk : pk = entry.clientPubkey
    · subst hpk
      exact h.insert_own hfresh t
    · exact h.insert_other hfresh hpk t
  length_pos := by
    intro pk m hm
    rw [Inner.insert_byPubkey] at hm
    split at hm
    · rw [← Option.some.inj hm]
      exact List.length_pos_of_mem (mem_rtake_push _ _ (by decide))
    · exact h.length_pos pk m hm
  length_le := by
    intro pk
    rw [Inner.insert_sessions]
    split
    · rw [length_rtake]
      exact Nat.min_le_left _ _
    · exact h.length_le pk
  nodup := by
    intro pk
    rw [Inner.insert_sessions]
    split
    · exact (h.nodup_push hfresh).sublist (rtake_suffix _ _).sublist
    · exact h.nodup pk

theorem removeMember (h : Consistent g) (pk : Pubkey) : Consistent (g.removeMember pk) where
  byToken_iff := by
    intro t pk'
    rw [Inner.removeMember_byToken, Inner.removeMember_sessions]
    by_cases ht : t ∈ g.sessions pk
    · rw [if_pos ht]
      split
      · simp
      · rename_i hne
        simpa using fun hm => hne (h.unique_owner hm ht)
    · rw [if_neg ht, h.byToken_iff]
      split
      · rename_i heq
        simpa [heq] using ht
      · rfl
  length_pos := by
    intro pk' m hm
    rw [Inner.removeMember_byPubkey] at hm
    split at hm
    · exact absurd hm (by simp)
    · exact h.length_pos pk' m hm
  length_le := by
    intro pk'
    rw [Inner.removeMember_sessions]
    split
    · simp
    · exact h.length_le pk'
  nodup := by
    intro pk'
    rw [Inner.removeMember_sessions]
    split
    · simp
    · exact h.nodup pk'

theorem step {g' : Inner} {e : StoreEvent} (hstep : FreshStep g e g') (h : Consistent g) :
    Consistent g' := by
  obtain ⟨hs, hfresh⟩ := hstep
  cases e with
  | insert entry =>
    rw [hs.insert_eq]
    exact h.insert (hfresh entry rfl)
  | revokeByMemberHash hash found =>
    cases found with
    | none => rwa [hs.revoke_none.1]
    | some pk =>
      rw [hs.revoke_some.1]
      exact h.removeMember pk
  | noteNonce nonce fresh =>
    cases hs
    exact h.congr (Inner.noteNonce_byPubkey g nonce) (Inner.noteNonce_byToken g nonce)
  | allowAttestation pk now allowed =>
    cases hs
    exact h.congr (Inner.allowAttestation_byPubkey g pk now) (Inner.allowAttestation_byToken g pk now)

theorem of_run {es : List StoreEvent} (h : Run FreshStep Inner.empty es g) : Consistent g :=
  h.invariant Consistent.step Consistent.empty

theorem keys_byToken (h : Consistent g) :
    g.byToken.keys = g.byPubkey.keys.biUnion fun pk => (g.sessions pk).toFinset := by
  ext t
  simp only [Finmap.mem_keys, Finmap.mem_iff, h.byToken_iff, Finset.mem_biUnion, List.mem_toFinset]
  constructor
  · rintro ⟨pk, ht⟩
    obtain ⟨m, hm, _⟩ := Inner.mem_sessions_iff.mp ht
    exact ⟨pk, ⟨m, hm⟩, ht⟩
  · rintro ⟨pk, _, ht⟩
    exact ⟨pk, ht⟩

theorem card_byToken (h : Consistent g) :
    g.byToken.keys.card = ∑ pk ∈ g.byPubkey.keys, g.sessionCount pk := by
  rw [h.keys_byToken, Finset.card_biUnion]
  · refine Finset.sum_congr rfl fun pk _ => ?_
    rw [List.toFinset_card_of_nodup (h.nodup pk), Inner.sessionCount_eq]
  · intro pk _ pk' _ hne
    rw [Function.onFun, Finset.disjoint_left]
    intro t ht ht'
    rw [List.mem_toFinset] at ht ht'
    exact hne (h.unique_owner ht ht')

/-- Pubkeys outside the store hold no bearer, so the sum may range over all of them. -/
theorem card_byToken_finsum (h : Consistent g) :
    g.byToken.keys.card = ∑ᶠ pk, g.sessionCount pk := by
  rw [h.card_byToken]
  symm
  apply finsum_eq_sum_of_support_subset
  intro pk hpk
  rw [Function.mem_support, Inner.sessionCount_eq] at hpk
  obtain ⟨t, ht⟩ := List.exists_mem_of_length_pos (Nat.pos_of_ne_zero hpk)
  obtain ⟨m, hm, _⟩ := Inner.mem_sessions_iff.mp ht
  exact Finmap.mem_keys.mpr (Finmap.mem_of_lookup_eq_some hm)

theorem held (h : Consistent g) : Held g := fun t pk => (h.byToken_iff t pk).mp

end Consistent

/-- After any run in which inserted tokens are not live yet, both indexes hold the
same sessions, every member holds between one and `deviceCap` of them, and no token
occurs twice. -/
theorem store_indexes_agree {es : List StoreEvent} {g : Inner} (h : Run FreshStep Inner.empty es g) :
    (∀ t pk, g.byToken.lookup t = some pk ↔
      ∃ m, g.byPubkey.lookup pk = some m ∧ t ∈ m.sessions) ∧
    (∀ pk m, g.byPubkey.lookup pk = some m →
      1 ≤ m.sessions.length ∧ m.sessions.length ≤ deviceCap ∧ m.sessions.Nodup) ∧
    (∀ pk pk' m m' t, g.byPubkey.lookup pk = some m → g.byPubkey.lookup pk' = some m' →
      t ∈ m.sessions → t ∈ m'.sessions → pk = pk') ∧
    (∀ t, g.containsToken t = true ↔ (g.getByToken t).isSome = true) ∧
    g.byToken.keys.card = ∑ᶠ pk, g.sessionCount pk := by
  have hc := Consistent.of_run h
  refine ⟨?_, ?_, ?_, ?_, hc.card_byToken_finsum⟩
  · intro t pk
    rw [hc.byToken_iff, Inner.mem_sessions_iff]
  · intro pk m hm
    have hs := Inner.sessions_of_lookup hm
    exact ⟨hc.length_pos pk m hm, hs ▸ hc.length_le pk, hs ▸ hc.nodup pk⟩
  · intro pk pk' m m' t hm hm' ht ht'
    exact hc.unique_owner (Inner.mem_sessions_iff.mpr ⟨m, hm, ht⟩)
      (Inner.mem_sessions_iff.mpr ⟨m', hm', ht'⟩)
  · intro t
    rw [hc.held.isSome_getByToken]

theorem store_indexes_agree_two_devices :
    let pk : Pubkey := Vector.replicate 65 4
    let first : MemberEntry := ⟨pk, Vector.replicate 32 7, "device-1", "tx-1"⟩
    let second : MemberEntry := ⟨pk, Vector.replicate 32 7, "device-2", "tx-1"⟩
    let g := ((Inner.empty.insert first).2.insert second).2
    g.byToken.keys.card = ∑ᶠ pk, g.sessionCount pk := by
  intro pk first second g
  have hrun : Run FreshStep Inner.empty [.insert first, .insert second] g :=
    .cons ⟨.insert _ _, by rintro _ ⟨⟩; decide⟩ (.single ⟨.insert _ _, by rintro _ ⟨⟩; decide⟩)
  exact (store_indexes_agree hrun).2.2.2.2

end IronInstance
