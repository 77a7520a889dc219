import IronInstance.Enroll
import IronInstance.Hex
import IronInstance.Liveness

/-!
# When a revoke is complete

`revoke_by_member_hash` removes one member whose stored hash matches, and a
re-enroll overwrites the stored hash. Neither the manifest nor `/enroll` checks
that pubkeys and hashes pair up one to one, and completeness of revocation is
equivalent to that: for every other manifest some run leaves a bearer alive.
-/

namespace IronInstance
open FiniteMap Newest Programs Runs
set_option autoImplicit false

structure OneToOne (M : Manifest) : Prop where
  hash_unique : ∀ pk h h', M.containsPair pk h = true → M.containsPair pk h' = true → h = h'
  pubkey_unique : ∀ pk pk' h, M.containsPair pk h = true → M.containsPair pk' h = true → pk = pk'

variable (P : Primitives) (A : Anchors P) (M : Manifest)

/-- Some request makes the handler mint this entry and answer with its token. -/
def Enrolls (entry : MemberEntry) : Prop :=
  ∃ now req random, Follows (enrollHandler P A M now (some entry.clientPubkey) req)
    [⟨.random32, random⟩, ⟨.insert entry, true⟩] (.pure ⟨.ok, .sessionToken entry.sessionToken⟩)

def Enrollable : Prop :=
  ∀ pk h, M.containsPair pk h = true →
    ∃ now req i, enrollChecks P A M now (some pk) req = .ok i ∧ i.memberHash = h

def CohortStep (g : Inner) (e : StoreEvent) (g' : Inner) : Prop :=
  Step g e g' ∧ ((∃ entry, e = .insert entry ∧ Enrolls P A M entry) ∨
    ∃ hash found, e = .revokeByMemberHash hash found)

/-- Right after a revoke of `hash`, no token minted for `hash` before is accepted. -/
def RevocationComplete : Prop :=
  ∀ es hash found g, Run (CohortStep P A M) Inner.empty (es ++ [.revokeByMemberHash hash found]) g →
    (insertedTokens es).Nodup →
    ∀ entry, .insert entry ∈ es → entry.memberHash = hash → g.containsToken entry.sessionToken = false

variable {P A M}

theorem enrolls_iff {entry : MemberEntry} :
    Enrolls P A M entry ↔ ∃ now req i, ∃ random : Vector UInt8 32,
      enrollChecks P A M now (some entry.clientPubkey) req = .ok i ∧
        entry = i.entry (b64urlNopad random.toList) := by
  constructor
  · rintro ⟨now, req, random, hf⟩
    refine ⟨now, req, ?_⟩
    unfold enrollHandler at hf
    cases hc : enrollChecks P A M now (some entry.clientPubkey) req with
    | error r =>
      rw [hc] at hf
      simp at hf
    | ok i =>
      rw [hc] at hf
      simp only [issueBearer_eq] at hf
      cases hf with
      | cons hf =>
        cases hf with
        | cons hf => exact ⟨i, random, rfl, rfl⟩
  · rintro ⟨now, req, i, random, hc, rfl⟩
    refine ⟨now, req, random, ?_⟩
    unfold enrollHandler
    rw [hc]
    simp only [issueBearer_eq]
    exact .cons (.cons (.nil _))

theorem Enrolls.pair {entry : MemberEntry} (h : Enrolls P A M entry) :
    M.containsPair entry.clientPubkey entry.memberHash = true := by
  obtain ⟨now, req, i, random, hc, rfl⟩ := enrolls_iff.mp h
  exact (enrollChecks_pair P hc).2

theorem cohort_run_store {es : List StoreEvent} {g g' : Inner} (h : Run (CohortStep P A M) g es g') :
    Run Step g es g' := h.mono fun hs => hs.1

theorem cohort_run_enrolls {es : List StoreEvent} {g g' : Inner} (h : Run (CohortStep P A M) g es g')
    {entry : MemberEntry} (hin : .insert entry ∈ es) : Enrolls P A M entry := by
  induction h with
  | nil => simp at hin
  | cons hs _ ih =>
    rcases List.mem_cons.mp hin with rfl | hrest
    · rcases hs.2 with ⟨entry', heq, hen⟩ | ⟨_, _, heq⟩
      · cases heq
        exact hen
      · cases heq
    · exact ih hrest

def StoredPairs (M : Manifest) (g : Inner) : Prop :=
  ∀ pk m, g.byPubkey.lookup pk = some m → M.containsPair pk m.memberHash = true

theorem storedPairs_insert {g : Inner} {entry : MemberEntry} (h : StoredPairs M g)
    (hp : M.containsPair entry.clientPubkey entry.memberHash = true) : StoredPairs M (g.insert entry).2 := by
  intro pk m hm
  rw [Inner.insert_byPubkey] at hm
  split at hm
  · rename_i heq
    rw [← Option.some.inj hm, heq]
    exact hp
  · exact h pk m hm

theorem storedPairs_removeMember {g : Inner} (h : StoredPairs M g) (pk : Pubkey) :
    StoredPairs M (g.removeMember pk) := by
  intro pk' m hm
  rw [Inner.removeMember_byPubkey] at hm
  split at hm
  · cases hm
  · exact h pk' m hm

theorem storedPairs_step {g g' : Inner} {e : StoreEvent} (hs : CohortStep P A M g e g')
    (h : StoredPairs M g) : StoredPairs M g' := by
  obtain ⟨hstep, ⟨entry, rfl, hen⟩ | ⟨hash, found, rfl⟩⟩ := hs
  · rw [hstep.insert_eq]
    exact storedPairs_insert h hen.pair
  · cases found with
    | none => rwa [hstep.revoke_none.1]
    | some pk =>
      rw [hstep.revoke_some.1]
      exact storedPairs_removeMember h pk

theorem storedPairs_run {es : List StoreEvent} {g : Inner} (h : Run (CohortStep P A M) Inner.empty es g) :
    StoredPairs M g :=
  h.invariant storedPairs_step (by intro pk m hm; simp [Inner.empty] at hm)

/-- With unique pairs, the stored hash of a live token's owner is the minting hash. -/
theorem complete_of_oneToOne (hM : OneToOne M) : RevocationComplete P A M := by
  intro es hash found g hrun hd entry hin hhash
  by_contra hlive
  have hlive' : g.containsToken entry.sessionToken = true := by simpa using hlive
  have hdall : (insertedTokens (es ++ [.revokeByMemberHash hash found])).Nodup := by
    have hnone : insertedTokens [.revokeByMemberHash hash found] = [] := rfl
    rwa [insertedTokens_append, hnone, List.append_nil]
  have hown := live_owner (cohort_run_store hrun) hdall (List.mem_append_left _ hin) hlive'
  obtain ⟨m, hm, -⟩ := Inner.mem_sessions_iff.mp hown
  have hpair := (cohort_run_enrolls hrun (List.mem_append_left _ hin)).pair
  have hstored := storedPairs_run hrun _ m hm
  have hsame := hM.hash_unique _ _ _ hstored hpair
  obtain ⟨g₀, hrun₀, hlast⟩ := Run.append_iff.mp hrun
  obtain ⟨g₁, hstep, hnil⟩ := Run.cons_iff.mp hlast
  rw [Run.nil_iff] at hnil
  subst hnil
  cases found with
  | none =>
    obtain ⟨rfl, hno⟩ := hstep.1.revoke_none
    exact hno _ m hm (hsame.trans hhash)
  | some pk =>
    obtain ⟨rfl, m₀, hm₀, hm₀hash⟩ := hstep.1.revoke_some
    have hpk : entry.clientPubkey = pk := by
      have hpair₀ := storedPairs_run hrun₀ pk m₀ hm₀
      rw [hm₀hash, ← hhash] at hpair₀
      exact hM.pubkey_unique _ _ _ hpair hpair₀
    rw [Inner.removeMember_sessions, if_pos hpk] at hown
    simp at hown

/-! ## A failing run for every other manifest -/

def firstToken : String := b64urlNopad (Vector.replicate 32 0).toList

def secondToken : String := b64urlNopad (Vector.replicate 32 1).toList

theorem firstToken_ne_secondToken : firstToken ≠ secondToken := by decide

theorem exists_enrolls (hE : Enrollable P A M) {pk : Pubkey} {h : MemberHash}
    (hp : M.containsPair pk h = true) (random : Vector UInt8 32) :
    ∃ entry, Enrolls P A M entry ∧ entry.clientPubkey = pk ∧ entry.memberHash = h ∧
      entry.sessionToken = b64urlNopad random.toList := by
  obtain ⟨now, req, i, hc, rfl⟩ := hE pk h hp
  have hpk : i.clientPubkey = pk := (Option.some.inj (enrollChecks_pair P hc).1).symm
  subst hpk
  exact ⟨i.entry (b64urlNopad random.toList), enrolls_iff.mpr ⟨now, req, i, random, hc, rfl⟩, rfl, rfl, rfl⟩

theorem cohort_run_three {e₁ e₂ : MemberEntry} (h₁ : Enrolls P A M e₁) (h₂ : Enrolls P A M e₂)
    {hash : MemberHash} {found : Option Pubkey} {g : Inner}
    (hrev : Step ((Inner.empty.insert e₁).2.insert e₂).2 (.revokeByMemberHash hash found) g) :
    Run (CohortStep P A M) Inner.empty ([.insert e₁, .insert e₂] ++ [.revokeByMemberHash hash found]) g :=
  .cons ⟨.insert _ _, Or.inl ⟨_, rfl, h₁⟩⟩ (.cons ⟨.insert _ _, Or.inl ⟨_, rfl, h₂⟩⟩
    (.single ⟨hrev, Or.inr ⟨_, _, rfl⟩⟩))

theorem distinct_two {e₁ e₂ : MemberEntry} (h₁ : e₁.sessionToken = firstToken)
    (h₂ : e₂.sessionToken = secondToken) :
    (insertedTokens [StoreEvent.insert e₁, .insert e₂]).Nodup := by
  simp [insertedTokens, StoreEvent.token, h₁, h₂, firstToken_ne_secondToken]

/-- A re-enroll under another hash hides the first bearer from a revoke of its hash. -/
theorem hash_unique_of_complete (hE : Enrollable P A M) (hc : RevocationComplete P A M)
    {pk : Pubkey} {h h' : MemberHash} (hp : M.containsPair pk h = true)
    (hp' : M.containsPair pk h' = true) : h = h' := by
  by_contra hne
  obtain ⟨e₁, hen₁, rfl, rfl, ht₁⟩ := exists_enrolls hE hp (Vector.replicate 32 0)
  obtain ⟨e₂, hen₂, hpk₂, rfl, ht₂⟩ := exists_enrolls hE hp' (Vector.replicate 32 1)
  have hno : ∀ pk m, ((Inner.empty.insert e₁).2.insert e₂).2.byPubkey.lookup pk = some m →
      m.memberHash ≠ e₁.memberHash := by
    intro pk m hm
    rw [Inner.insert_byPubkey, Inner.insert_byPubkey] at hm
    split at hm
    · rw [← Option.some.inj hm]
      exact fun heq => hne heq.symm
    · rename_i hpk
      rw [if_neg (by rwa [← hpk₂])] at hm
      simp [Inner.empty] at hm
  have hdead := hc _ _ _ _ (cohort_run_three hen₁ hen₂ (Step.revoke_of_no_match hno))
    (distinct_two ht₁ ht₂) e₁ (by simp) rfl
  have hconsistent := consistent_of_distinct
    (Run.cons (.insert _ _) (.single (.insert _ _))) (distinct_two ht₁ ht₂)
  refine Consistent.not_mem_of_not_live hconsistent hdead e₁.clientPubkey ?_
  rw [Inner.insert_sessions, if_pos hpk₂.symm, hpk₂, Inner.insert_sessions, if_pos rfl]
  simp [deviceCap, List.rtake]

/-- Of two pubkeys that share a hash, a revoke removes only one. -/
theorem pubkey_unique_of_complete (hE : Enrollable P A M) (hc : RevocationComplete P A M)
    {pk pk' : Pubkey} {h : MemberHash} (hp : M.containsPair pk h = true)
    (hp' : M.containsPair pk' h = true) : pk = pk' := by
  by_contra hne
  obtain ⟨e₁, hen₁, rfl, rfl, ht₁⟩ := exists_enrolls hE hp (Vector.replicate 32 0)
  obtain ⟨e₂, hen₂, rfl, hh₂, ht₂⟩ := exists_enrolls hE hp' (Vector.replicate 32 1)
  have hm₂ : ((Inner.empty.insert e₁).2.insert e₂).2.byPubkey.lookup e₂.clientPubkey =
      some ⟨e₂.memberHash, e₂.originalTxId,
        ((Inner.empty.insert e₁).2.sessions e₂.clientPubkey ++ [e₂.sessionToken]).rtake deviceCap⟩ := by
    rw [Inner.insert_byPubkey, if_pos rfl]
  have hdead := hc _ _ _ _ (cohort_run_three hen₁ hen₂ (Step.revoke_of_match hm₂ hh₂))
    (distinct_two ht₁ ht₂) e₁ (by simp) rfl
  have hconsistent := consistent_of_distinct
    (Run.cons (.insert _ _) (.single (.insert _ _))) (distinct_two ht₁ ht₂)
  refine Consistent.not_mem_of_not_live (hconsistent.removeMember e₂.clientPubkey) hdead e₁.clientPubkey ?_
  rw [Inner.removeMember_sessions, if_neg hne, Inner.insert_sessions, if_neg hne, Inner.insert_sessions,
    if_pos rfl]
  simp [deviceCap, List.rtake]

/-- Revocation is complete exactly on manifests that pair pubkeys and hashes one to one. -/
theorem revocation_complete_iff_oneToOne (hE : Enrollable P A M) :
    RevocationComplete P A M ↔ OneToOne M :=
  ⟨fun hc => ⟨fun _ _ _ => hash_unique_of_complete hE hc, fun _ _ _ => pubkey_unique_of_complete hE hc⟩,
    complete_of_oneToOne⟩

theorem containsPair_encoded {cohort : String} {pairs : List (Pubkey × MemberHash)} {pk : Pubkey} {h : MemberHash} :
    (Manifest.mk cohort (pairs.map fun q => ⟨hexEncode q.1.toList, hexEncode q.2.toList⟩)).containsPair pk h = true ↔
      (pk, h) ∈ pairs := by
  rw [Manifest.containsPair_iff]
  constructor
  · rintro ⟨m, hm, hpk, hh⟩
    obtain ⟨⟨pk', h'⟩, hq, rfl⟩ := List.mem_map.mp hm
    have hkey := Vector.toList_inj.mp (eqIgnoreAsciiCase_hexEncode_inj (eqIgnoreAsciiCase_self _) hpk)
    have hhash := Vector.toList_inj.mp (eqIgnoreAsciiCase_hexEncode_inj (eqIgnoreAsciiCase_self _) hh)
    rwa [← hkey, ← hhash]
  · intro hq
    exact ⟨_, List.mem_map.mpr ⟨_, hq, rfl⟩, eqIgnoreAsciiCase_self _, eqIgnoreAsciiCase_self _⟩

namespace Synthetic

theorem containsPair_iff {pk : Pubkey} {h : MemberHash} :
    manifest.containsPair pk h = true ↔ pk = pubkey ∧ h = memberHash :=
  (@containsPair_encoded "cohort" [(pubkey, memberHash)] pk h).trans (by simp)

theorem containsPair_self : manifest.containsPair pubkey memberHash = true := containsPair_iff.mpr ⟨rfl, rfl⟩

theorem oneToOne : OneToOne manifest where
  hash_unique _ _ _ h h' := (containsPair_iff.mp h).2.trans (containsPair_iff.mp h').2.symm
  pubkey_unique _ _ _ h h' := (containsPair_iff.mp h).1.trans (containsPair_iff.mp h').1.symm

def otherPubkey : Pubkey := Vector.replicate 65 5

/-- Two keys with one member hash. -/
def sharedManifest : Manifest :=
  ⟨"cohort", [(pubkey, memberHash), (otherPubkey, memberHash)].map fun q =>
    ⟨hexEncode q.1.toList, hexEncode q.2.toList⟩⟩

/-- Whoever carries the hash of the credentials can enroll with them. -/
theorem enrollable {M : Manifest} (hM : ∀ pk h, M.containsPair pk h = true → h = memberHash) :
    Enrollable primitives anchors M := by
  intro pk h hp
  obtain rfl := hM pk h hp
  exact ⟨now, request, _, checks_eq hp, rfl⟩

end Synthetic

theorem revocation_complete_single_not_shared :
    RevocationComplete Synthetic.primitives Synthetic.anchors Synthetic.manifest ∧
      ¬ RevocationComplete Synthetic.primitives Synthetic.anchors Synthetic.sharedManifest := by
  constructor
  · refine (revocation_complete_iff_oneToOne (Synthetic.enrollable fun _ _ h => ?_)).mpr Synthetic.oneToOne
    exact (Synthetic.containsPair_iff.mp h).2
  · have hcarry : ∀ pk h, Synthetic.sharedManifest.containsPair pk h = true → h = Synthetic.memberHash := by
      intro pk h hp
      have hmem := containsPair_encoded.mp hp
      simp only [List.mem_cons, Prod.mk.injEq, List.not_mem_nil, or_false] at hmem
      rcases hmem with ⟨-, rfl⟩ | ⟨-, rfl⟩ <;> rfl
    intro hcomplete
    have hone := (revocation_complete_iff_oneToOne (Synthetic.enrollable hcarry)).mp hcomplete
    have hsame : Synthetic.pubkey = Synthetic.otherPubkey :=
      hone.pubkey_unique _ _ Synthetic.memberHash (containsPair_encoded.mpr (by simp))
        (containsPair_encoded.mpr (by simp))
    exact absurd hsame (by decide)

end IronInstance
