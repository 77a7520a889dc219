import IronInstance.StoreRuns

/-!
# Which bearers are live after a run

The abstract side is a log: each pubkey has its own sequence of inserts and
removals, and its bearers are the newest `deviceCap` tokens inserted since its
last removal. The store refines that log for every interleaving of the pubkeys,
so liveness of a token depends on its own pubkey's events only.
-/

namespace IronInstance
open FiniteMap Newest Runs
set_option autoImplicit false

/-- What one event means for the sessions of one pubkey. -/
inductive KeyEvent where
  | inserted (token : String)
  | removed
  deriving DecidableEq

def StoreEvent.forKey (pk : Pubkey) : StoreEvent → Option KeyEvent
  | .insert entry => if entry.clientPubkey = pk then some (.inserted entry.sessionToken) else none
  | .revokeByMemberHash _ (some pk') => if pk' = pk then some .removed else none
  | _ => none

def StoreEvent.token : StoreEvent → Option String
  | .insert entry => some entry.sessionToken
  | _ => none

def keyEvents (pk : Pubkey) (es : List StoreEvent) : List KeyEvent := es.filterMap (StoreEvent.forKey pk)

def insertedTokens (es : List StoreEvent) : List String := es.filterMap StoreEvent.token

def KeyEvent.apply (tokens : List String) : KeyEvent → List String
  | .inserted token => tokens ++ [token]
  | .removed => []

/-- The tokens inserted since the last removal. -/
def sinceRemoval (ks : List KeyEvent) : List String := ks.foldl KeyEvent.apply []

theorem keyEvents_append (pk : Pubkey) (es fs : List StoreEvent) :
    keyEvents pk (es ++ fs) = keyEvents pk es ++ keyEvents pk fs := List.filterMap_append

theorem insertedTokens_append (es fs : List StoreEvent) :
    insertedTokens (es ++ fs) = insertedTokens es ++ insertedTokens fs := List.filterMap_append

theorem token_mem_insertedTokens {es : List StoreEvent} {entry : MemberEntry} (h : .insert entry ∈ es) :
    entry.sessionToken ∈ insertedTokens es :=
  List.mem_filterMap.mpr ⟨_, h, rfl⟩

theorem insertedTokens_split (pre post : List StoreEvent) (entry : MemberEntry) :
    insertedTokens (pre ++ .insert entry :: post) =
      insertedTokens pre ++ entry.sessionToken :: insertedTokens post := by
  simp [insertedTokens, StoreEvent.token]

theorem sinceRemoval_snoc (ks : List KeyEvent) (k : KeyEvent) :
    sinceRemoval (ks ++ [k]) = k.apply (sinceRemoval ks) := by
  simp [sinceRemoval]

theorem Step.sessions {g g' : Inner} {e : StoreEvent} (h : Step g e g') (pk : Pubkey) :
    g'.sessions pk = (e.forKey pk).elim (g.sessions pk)
      fun k => (k.apply (g.sessions pk)).rtake deviceCap := by
  cases e with
  | insert entry =>
    rw [h.insert_eq, Inner.insert_sessions]
    by_cases hpk : entry.clientPubkey = pk
    · subst hpk
      simp [StoreEvent.forKey, KeyEvent.apply]
    · simp [StoreEvent.forKey, hpk, Ne.symm hpk]
  | revokeByMemberHash hash found =>
    cases found with
    | none => rw [h.revoke_none.1]; rfl
    | some pk' =>
      rw [h.revoke_some.1, Inner.removeMember_sessions]
      by_cases hpk : pk' = pk
      · subst hpk
        simp [StoreEvent.forKey, KeyEvent.apply]
      · simp [StoreEvent.forKey, hpk, Ne.symm hpk]
  | noteNonce nonce fresh =>
    cases h
    simp [StoreEvent.forKey, Inner.sessions]
  | allowAttestation pk' now allowed =>
    cases h
    simp [StoreEvent.forKey, Inner.sessions]

/-- The store refines the log: only the pubkey's own events count. -/
theorem sessions_eq_log {es : List StoreEvent} {g : Inner} (h : Run Step Inner.empty es g) (pk : Pubkey) :
    g.sessions pk = (sinceRemoval (keyEvents pk es)).rtake deviceCap := by
  refine h.reverseInduction (P := fun es g => g.sessions pk = (sinceRemoval (keyEvents pk es)).rtake deviceCap)
    ?_ ?_
  · simp [keyEvents, sinceRemoval]
  · intro es g e g' _ hstep ih
    rw [keyEvents_append, hstep.sessions pk]
    cases hk : e.forKey pk with
    | none => simpa [keyEvents, hk] using ih
    | some k =>
      have hone : keyEvents pk [e] = [k] := by simp [keyEvents, hk]
      rw [hone, sinceRemoval_snoc, Option.elim_some, ih]
      cases k with
      | inserted token => exact rtake_push _ token deviceCap
      | removed => rfl

/-- Only an insert makes a token live. -/
theorem Step.live {g g' : Inner} {e : StoreEvent} (h : Step g e g') {t : String} (ht : g'.containsToken t = true) :
    g.containsToken t = true ∨ t ∈ insertedTokens [e] := by
  cases e with
  | insert entry =>
    rw [h.insert_eq, Inner.containsToken, Inner.insert_byToken] at ht
    by_cases hte : t = entry.sessionToken
    · rw [hte]
      exact .inr (token_mem_insertedTokens List.mem_cons_self)
    · rw [if_neg hte] at ht
      split at ht
      · simp at ht
      · exact .inl ht
  | revokeByMemberHash hash found =>
    cases found with
    | none => exact .inl (h.revoke_none.1 ▸ ht)
    | some pk =>
      rw [h.revoke_some.1, Inner.containsToken, Inner.removeMember_byToken] at ht
      split at ht
      · simp at ht
      · exact .inl ht
  | noteNonce nonce fresh =>
    cases h
    exact .inl ht
  | allowAttestation pk now allowed =>
    cases h
    exact .inl (by simpa [Inner.containsToken] using ht)

theorem live_inserted {es : List StoreEvent} {g : Inner} (h : Run Step Inner.empty es g) {t : String}
    (ht : g.containsToken t = true) : t ∈ insertedTokens es := by
  revert ht
  refine h.reverseInduction (P := fun es g => g.containsToken t = true → t ∈ insertedTokens es) ?_ ?_
  · simp
  · intro es g e g' _ hstep ih ht
    rw [insertedTokens_append, List.mem_append]
    exact (hstep.live ht).imp_left ih

theorem fresh_of_distinct {es : List StoreEvent} {g : Inner} (h : Run Step Inner.empty es g)
    (hd : (insertedTokens es).Nodup) : Run FreshStep Inner.empty es g := by
  revert hd
  refine h.reverseInduction (P := fun es g => (insertedTokens es).Nodup → Run FreshStep Inner.empty es g) ?_ ?_
  · intro _
    exact .nil _
  · intro es g e g' hrun hstep ih hd
    rw [insertedTokens_append] at hd
    refine (ih (List.nodup_append.mp hd).1).snoc ⟨hstep, ?_⟩
    rintro entry rfl
    by_contra hlive
    have hin := live_inserted hrun (by simpa using hlive)
    exact (List.nodup_append.mp hd).2.2 _ hin entry.sessionToken
      (token_mem_insertedTokens List.mem_cons_self) rfl

theorem consistent_of_distinct {es : List StoreEvent} {g : Inner} (h : Run Step Inner.empty es g)
    (hd : (insertedTokens es).Nodup) : Consistent g := Consistent.of_run (fresh_of_distinct h hd)

/-! ## Liveness of one token -/

def KeyEvent.token : KeyEvent → Option String
  | .inserted token => some token
  | .removed => none

def insertsFor (pk : Pubkey) (es : List StoreEvent) : List String :=
  (keyEvents pk es).filterMap KeyEvent.token

theorem foldl_apply_eq {ks : List KeyEvent} (h : .removed ∉ ks) (tokens : List String) :
    ks.foldl KeyEvent.apply tokens = tokens ++ ks.filterMap KeyEvent.token := by
  induction ks generalizing tokens with
  | nil => simp
  | cons k ks ih =>
    cases k with
    | inserted token => simp [KeyEvent.apply, KeyEvent.token, ih (by simpa using h)]
    | removed => simp at h

theorem sinceRemoval_split {pre post : List KeyEvent} {t : String} (h : .removed ∉ post) :
    sinceRemoval (pre ++ .inserted t :: post) =
      sinceRemoval pre ++ t :: post.filterMap KeyEvent.token := by
  simp [sinceRemoval, KeyEvent.apply, foldl_apply_eq h]

theorem split_of_mem_sinceRemoval {ks : List KeyEvent} {t : String} (h : t ∈ sinceRemoval ks) :
    ∃ pre post, ks = pre ++ .inserted t :: post ∧ .removed ∉ post := by
  induction ks using List.reverseRecOn with
  | nil => simp [sinceRemoval] at h
  | append_singleton ks k ih =>
    rw [sinceRemoval_snoc] at h
    cases k with
    | removed => simp [KeyEvent.apply] at h
    | inserted token =>
      rcases List.mem_append.mp h with hold | hnew
      · obtain ⟨pre, post, rfl, hpost⟩ := ih hold
        exact ⟨pre, post ++ [.inserted token], by simp, by simp [hpost]⟩
      · rw [List.mem_singleton] at hnew
        subst hnew
        exact ⟨ks, [], rfl, by simp⟩

theorem foldl_apply_of_removed {ks : List KeyEvent} (h : .removed ∈ ks) (tokens : List String) :
    ks.foldl KeyEvent.apply tokens = sinceRemoval ks := by
  induction ks using List.reverseRecOn with
  | nil => simp at h
  | append_singleton ks k ih =>
    cases k with
    | removed => simp [sinceRemoval, KeyEvent.apply]
    | inserted token =>
      rw [List.foldl_append, sinceRemoval_snoc, ih (by simpa using h)]
      rfl

theorem sinceRemoval_subset {ks : List KeyEvent} {t : String} (h : t ∈ sinceRemoval ks) :
    t ∈ ks.filterMap KeyEvent.token := by
  obtain ⟨pre, post, rfl, -⟩ := split_of_mem_sinceRemoval h
  simp [KeyEvent.token]

theorem forKey_eq_inserted {pk : Pubkey} {e : StoreEvent} {t : String} :
    e.forKey pk = some (.inserted t) ↔
      ∃ entry, e = .insert entry ∧ entry.clientPubkey = pk ∧ entry.sessionToken = t := by
  rcases e with entry | ⟨hash, _ | pk'⟩ | _ | _ <;> simp [StoreEvent.forKey]

theorem removed_mem_keyEvents {pk : Pubkey} {es : List StoreEvent} :
    .removed ∈ keyEvents pk es ↔ ∃ hash, .revokeByMemberHash hash (some pk) ∈ es := by
  simp only [keyEvents, List.mem_filterMap]
  constructor
  · rintro ⟨e, he, hk⟩
    rcases e with entry | ⟨hash, _ | pk'⟩ | _ | _ <;> simp [StoreEvent.forKey] at hk
    subst hk
    exact ⟨hash, he⟩
  · rintro ⟨hash, he⟩
    exact ⟨_, he, by simp [StoreEvent.forKey]⟩

theorem insertsFor_subset {pk : Pubkey} {es : List StoreEvent} {t : String} (h : t ∈ insertsFor pk es) :
    t ∈ insertedTokens es := by
  simp only [insertsFor, keyEvents, List.mem_filterMap] at h
  obtain ⟨k, ⟨e, he, hk⟩, hkt⟩ := h
  cases k with
  | removed => simp [KeyEvent.token] at hkt
  | inserted token =>
    obtain ⟨entry, rfl, -, rfl⟩ := forKey_eq_inserted.mp hk
    rw [insertedTokens, List.mem_filterMap]
    exact ⟨_, he, hkt⟩

/-- The token at a given insert is still held exactly when fewer than `deviceCap`
inserts for the same pubkey and no removal of it came later. -/
theorem mem_sessions_split {pre post : List StoreEvent} {entry : MemberEntry} {g : Inner}
    (h : Run Step Inner.empty (pre ++ .insert entry :: post) g)
    (hd : (insertedTokens (pre ++ .insert entry :: post)).Nodup) :
    entry.sessionToken ∈ g.sessions entry.clientPubkey ↔
      (insertsFor entry.clientPubkey post).length < deviceCap ∧
        ∀ hash, .revokeByMemberHash hash (some entry.clientPubkey) ∉ post := by
  have hkeys : keyEvents entry.clientPubkey (pre ++ .insert entry :: post) =
      keyEvents entry.clientPubkey pre ++ .inserted entry.sessionToken :: keyEvents entry.clientPubkey post := by
    simp [keyEvents, StoreEvent.forKey]
  rw [insertedTokens_split, List.nodup_append, List.nodup_cons] at hd
  have hlater : entry.sessionToken ∉ insertsFor entry.clientPubkey post :=
    fun hin => hd.2.1.1 (insertsFor_subset hin)
  rw [sessions_eq_log h, hkeys]
  by_cases hrem : .removed ∈ keyEvents entry.clientPubkey post
  · -- everything kept was inserted after the removal, so `entry` is not
    have hgone : ¬ ∀ hash, .revokeByMemberHash hash (some entry.clientPubkey) ∉ post := by
      simpa using removed_mem_keyEvents.mp hrem
    refine iff_of_false ?_ (fun hc => hgone hc.2)
    intro hmem
    have hkept := (rtake_suffix _ _).subset hmem
    rw [sinceRemoval, List.foldl_append, List.foldl_cons, foldl_apply_of_removed hrem] at hkept
    exact hlater (sinceRemoval_subset hkept)
  · have hno : ∀ hash, .revokeByMemberHash hash (some entry.clientPubkey) ∉ post := by
      intro hash hin
      exact hrem (removed_mem_keyEvents.mpr ⟨hash, hin⟩)
    rw [sinceRemoval_split hrem, ← insertsFor, mem_rtake_split deviceCap hlater]
    exact ⟨fun hlt => ⟨hlt, hno⟩, fun hc => hc.1⟩

theorem containsToken_iff_split {es : List StoreEvent} {g : Inner} (h : Run Step Inner.empty es g)
    (hd : (insertedTokens es).Nodup) (t : String) :
    g.containsToken t = true ↔
      ∃ pre entry post, es = pre ++ .insert entry :: post ∧ entry.sessionToken = t ∧
        (insertsFor entry.clientPubkey post).length < deviceCap ∧
        ∀ hash, .revokeByMemberHash hash (some entry.clientPubkey) ∉ post := by
  have hc := consistent_of_distinct h hd
  constructor
  · intro ht
    obtain ⟨pk, hpk⟩ := hc.containsToken_iff.mp ht
    have hlog := hpk
    rw [sessions_eq_log h] at hlog
    obtain ⟨kpre, kpost, hks, -⟩ := split_of_mem_sinceRemoval ((rtake_suffix _ _).subset hlog)
    obtain ⟨pre, rest, rfl, -, hrest⟩ := List.filterMap_eq_append_iff.mp hks
    obtain ⟨skip, e, post, rfl, -, he, -⟩ := List.filterMap_eq_cons_iff.mp hrest
    obtain ⟨entry, rfl, rfl, rfl⟩ := forKey_eq_inserted.mp he
    rw [← List.append_assoc] at h hd
    exact ⟨pre ++ skip, entry, post, by simp, rfl, (mem_sessions_split h hd).mp hpk⟩
  · rintro ⟨pre, entry, post, rfl, rfl, hlive⟩
    exact hc.containsToken_iff.mpr ⟨_, (mem_sessions_split h hd).mpr hlive⟩

theorem live_owner {es : List StoreEvent} {g : Inner} (h : Run Step Inner.empty es g)
    (hd : (insertedTokens es).Nodup) {entry : MemberEntry} (hin : .insert entry ∈ es)
    (hlive : g.containsToken entry.sessionToken = true) :
    entry.sessionToken ∈ g.sessions entry.clientPubkey := by
  obtain ⟨pre, entry', post, rfl, htok, hkeep⟩ := (containsToken_iff_split h hd _).mp hlive
  have hmem := (mem_sessions_split h hd).mpr hkeep
  rw [insertedTokens_split, List.nodup_append, List.nodup_cons] at hd
  -- a token is inserted once, so both inserts are the same event
  rcases List.mem_append.mp hin with hpre | hrest
  · exact absurd htok.symm (hd.2.2 _ (token_mem_insertedTokens hpre) _ List.mem_cons_self)
  · rcases List.mem_cons.mp hrest with heq | hpost
    · cases heq
      exact hmem
    · rw [htok] at hd
      exact absurd (token_mem_insertedTokens hpost) hd.2.1.1

/-- Once dead, a token stays dead: it would have to be inserted again. -/
theorem dead_stays_dead {es fs : List StoreEvent} {g g' : Inner} (h : Run Step Inner.empty es g)
    (h' : Run Step g fs g') (hd : (insertedTokens (es ++ fs)).Nodup) {t : String}
    (hin : t ∈ insertedTokens es) (hdead : g.containsToken t = false) : g'.containsToken t = false := by
  by_contra hlive
  have hlive' : g'.containsToken t = true := by simpa using hlive
  have hnd := hd
  rw [insertedTokens_append, List.nodup_append] at hnd
  obtain ⟨pre, entry, post, heq, rfl, hlt, hno⟩ :=
    (containsToken_iff_split (h.append h') hd t).mp hlive'
  have hfs : entry.sessionToken ∉ insertedTokens fs := fun hlater => hnd.2.2 _ hin _ hlater rfl
  -- the only insert of the token lies in `es`, so it was live there already
  rcases List.append_eq_append_iff.mp heq with ⟨mid, -, hmid⟩ | ⟨mid, hes, hmid⟩
  · exact hfs (by rw [hmid]; exact token_mem_insertedTokens (by simp))
  · cases mid with
    | nil => exact hfs (by rw [← List.nil_append fs, ← hmid]; exact token_mem_insertedTokens (by simp))
    | cons e mid =>
      obtain ⟨rfl, rfl⟩ := List.cons.inj hmid
      subst hes
      have hcount : (insertsFor entry.clientPubkey mid).length ≤
          (insertsFor entry.clientPubkey (mid ++ fs)).length := by
        simp [insertsFor, keyEvents_append]
      have hwas := (containsToken_iff_split h hnd.1 _).mpr
        ⟨pre, entry, mid, rfl, rfl, Nat.lt_of_le_of_lt hcount hlt, fun hash hm => hno hash (List.mem_append_left _ hm)⟩
      rw [hdead] at hwas
      exact Bool.false_ne_true hwas

/-- The store after a run with pairwise distinct tokens: the sessions of every
pubkey are the newest ones of its own log, a token is accepted exactly while it is
among them, and the interleaving of the pubkeys does not matter. -/
theorem sessions_follow_own_log {es : List StoreEvent} {g : Inner} (h : Run Step Inner.empty es g)
    (hd : (insertedTokens es).Nodup) :
    (∀ pk, g.sessions pk = (sinceRemoval (keyEvents pk es)).rtake
      (min deviceCap (sinceRemoval (keyEvents pk es)).length)) ∧
    (∀ t, g.containsToken t = true ↔
      ∃ pre entry post, es = pre ++ .insert entry :: post ∧ entry.sessionToken = t ∧
        (insertsFor entry.clientPubkey post).length < deviceCap ∧
        ∀ hash, .revokeByMemberHash hash (some entry.clientPubkey) ∉ post) ∧
    (∀ es₀ es₁ es₂ g₀ g₁, es = es₀ ++ es₁ ++ es₂ → Run Step Inner.empty es₀ g₀ →
      Run Step g₀ es₁ g₁ → Run Step g₁ es₂ g →
      ∀ t, g₀.containsToken t = true → g₁.containsToken t = false → g.containsToken t = false) ∧
    (∀ es' g', Run Step Inner.empty es' g' → (insertedTokens es').Nodup →
      (∀ pk, keyEvents pk es = keyEvents pk es') →
      (∀ pk, g.sessions pk = g'.sessions pk) ∧ ∀ t, g.containsToken t = g'.containsToken t) := by
  refine ⟨?_, containsToken_iff_split h hd, ?_, ?_⟩
  · intro pk
    rw [sessions_eq_log h pk, List.rtake, List.rtake]
    congr 1
    omega
  · intro es₀ es₁ es₂ g₀ g₁ heq h₀ h₁ h₂ t hlive hdead
    subst heq
    have hin := live_inserted h₀ hlive
    exact dead_stays_dead (h₀.append h₁) h₂ hd
      (by rw [insertedTokens_append]; exact List.mem_append_left _ hin) hdead
  · intro es' g' h' hd' hkeys
    have hsess : ∀ pk, g.sessions pk = g'.sessions pk := by
      intro pk
      rw [sessions_eq_log h pk, sessions_eq_log h' pk, hkeys pk]
    refine ⟨hsess, fun t => ?_⟩
    rw [Bool.eq_iff_iff, (consistent_of_distinct h hd).containsToken_iff,
      (consistent_of_distinct h' hd').containsToken_iff]
    simp only [hsess]

theorem sessions_follow_own_log_four_devices :
    let pk : Pubkey := Vector.replicate 65 4
    let entry (t : String) : MemberEntry := ⟨pk, Vector.replicate 32 7, t, "tx-1"⟩
    let g := ((((Inner.empty.insert (entry "b0")).2.insert (entry "b1")).2.insert (entry "b2")).2.insert
      (entry "b3")).2
    g.sessions pk = ["b1", "b2", "b3"] ∧ g.containsToken "b0" = false := by
  intro pk entry g
  have hrun : Run Step Inner.empty
      [.insert (entry "b0"), .insert (entry "b1"), .insert (entry "b2"), .insert (entry "b3")] g :=
    .cons (.insert _ _) (.cons (.insert _ _) (.cons (.insert _ _) (.single (.insert _ _))))
  refine ⟨?_, by decide +kernel⟩
  rw [(sessions_follow_own_log hrun (by decide)).1 pk]
  decide +kernel

end IronInstance
