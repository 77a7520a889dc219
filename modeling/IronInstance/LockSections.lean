import IronInstance.Membership
import IronInstance.Library.Sections

/-!
# Inside the lock of the member store

The operations of the store are not single steps in the program: each takes a guard of
one `RwLock`, goes through its hash maps access by access, and drops the guard. Here the
accesses are the steps, interleaved with everything that needs no guard and, under read
guards, with each other. Half-way through an insert the two indexes disagree; no other
task can see it, and the service in which every operation is one step has exactly the
same runs.
-/

namespace IronInstance
open FiniteMap Programs Runs
set_option autoImplicit false

/-- The accesses to the maps behind the lock. -/
inductive MapOp where
  | memberEntry (entry : MemberEntry)
  | pushSession (entry : MemberEntry)
  | removeToken (token : String)
  | insertToken (token : String) (pk : Pubkey)
  | containsKey (token : String)
  | findMember (hash : MemberHash)
  | removeMember (pk : Pubkey)
  | insertNonce (nonce : String)
  | bucketEntry (pk : Pubkey) (now : Instant)
  | takeToken (pk : Pubkey) (now : Instant)

@[reducible] def MapAns : MapOp → Type
  | .memberEntry _ => Unit
  | .pushSession _ => List String
  | .removeToken _ => Unit
  | .insertToken _ _ => Unit
  | .containsKey _ => Bool
  | .findMember _ => Option Pubkey
  | .removeMember _ => Option Member
  | .insertNonce _ => Bool
  | .bucketEntry _ _ => Unit
  | .takeToken _ _ => Bool

namespace Inner

/-- `entry(pk).or_insert_with(..)` -/
def memberEntry (g : Inner) (entry : MemberEntry) : Inner :=
  match g.byPubkey.lookup entry.clientPubkey with
  | some _ => g
  | none => { g with
      byPubkey := g.byPubkey.insert entry.clientPubkey ⟨entry.memberHash, entry.originalTxId, []⟩ }

/-- `entry(pk).or_insert((ATTEST_BURST, now))` -/
def bucketEntry (g : Inner) (pk : Pubkey) (now : Instant) : Inner :=
  match g.attestBuckets.lookup pk with
  | some _ => g
  | none => { g with attestBuckets := g.attestBuckets.insert pk ⟨attestBurst, now⟩ }

def setMember (g : Inner) (pk : Pubkey) (m : Member) : Inner := { g with byPubkey := g.byPubkey.insert pk m }

def setBucket (g : Inner) (pk : Pubkey) (b : Bucket) : Inner :=
  { g with attestBuckets := g.attestBuckets.insert pk b }

end Inner

/-- What goes on through the borrowed `member` of `insert`: the evicted bearers and the
member left behind. -/
def Member.push (m : Member) (entry : MemberEntry) : List String × Member :=
  let (out, sessions) := Inner.evictOldest [] (m.sessions ++ [entry.sessionToken])
  (out, ⟨entry.memberHash, entry.originalTxId, sessions⟩)

/-- What goes on through the borrowed `bucket` of `allow_attestation`. -/
def Bucket.take (b : Bucket) (now : Instant) : Bool × Bucket :=
  let tokens := min (b.tokens + Inner.asSecs (Inner.durationSince now b.last) * attestRefillPerSec) attestBurst
  if 1 ≤ tokens then (true, ⟨tokens - 1, now⟩) else (false, ⟨tokens, now⟩)

inductive MapStep : Inner → (m : MapOp) → MapAns m → Inner → Prop where
  | memberEntry (g : Inner) (entry : MemberEntry) : MapStep g (.memberEntry entry) () (g.memberEntry entry)
  | pushSession {g : Inner} {entry : MemberEntry} {m : Member} (hm : g.byPubkey.lookup entry.clientPubkey = some m) :
      MapStep g (.pushSession entry) (m.push entry).1 (g.setMember entry.clientPubkey (m.push entry).2)
  | removeToken (g : Inner) (token : String) :
      MapStep g (.removeToken token) () { g with byToken := g.byToken.erase token }
  | insertToken (g : Inner) (token : String) (pk : Pubkey) :
      MapStep g (.insertToken token pk) () { g with byToken := g.byToken.insert token pk }
  | containsKey (g : Inner) (token : String) : MapStep g (.containsKey token) (g.byToken.lookup token).isSome g
  | findMember (g : Inner) (it : Iteration g.byPubkey) (hash : MemberHash) :
      MapStep g (.findMember hash) (it.find fun m => m.memberHash == hash) g
  | removeMember (g : Inner) (pk : Pubkey) :
      MapStep g (.removeMember pk) (g.byPubkey.lookup pk) { g with byPubkey := g.byPubkey.erase pk }
  | insertNonce (g : Inner) (nonce : String) :
      MapStep g (.insertNonce nonce) (decide (nonce ∉ g.seenNonces))
        { g with seenNonces := insert nonce g.seenNonces }
  | bucketEntry (g : Inner) (pk : Pubkey) (now : Instant) : MapStep g (.bucketEntry pk now) () (g.bucketEntry pk now)
  | takeToken {g : Inner} {pk : Pubkey} {b : Bucket} (now : Instant) (hb : g.attestBuckets.lookup pk = some b) :
      MapStep g (.takeToken pk now) (b.take now).1 (g.setBucket pk (b.take now).2)

/-! ## The bodies -/

abbrev LockBody := Prog MapOp MapAns

/-- `for token in tokens { g.by_token.remove(&token); }` -/
def removeTokens {α : Type} : List String → LockBody α → LockBody α
  | [], next => next
  | token :: tokens, next => .call (.removeToken token) fun _ => removeTokens tokens next

def insertBody (entry : MemberEntry) : LockBody Bool :=
  .call (.memberEntry entry) fun _ =>
    .call (.pushSession entry) fun evicted =>
      removeTokens evicted (.call (.insertToken entry.sessionToken entry.clientPubkey) fun _ => .pure true)

/-- `if let Some(m) = removed { for token in m.sessions { .. } }` -/
def dropSessions : Option Member → LockBody Bool
  | some m => removeTokens m.sessions (.pure true)
  | none => .pure true

def dropMember : Option Pubkey → LockBody Bool
  | some pk => .call (.removeMember pk) dropSessions
  | none => .pure false

def revokeBody (hash : MemberHash) : LockBody Bool := .call (.findMember hash) dropMember

def allowBody (pk : Pubkey) (now : Instant) : LockBody Bool :=
  .call (.bucketEntry pk now) fun _ => .call (.takeToken pk now) .pure

/-- The guard each operation of the store takes and what it does under it. -/
def lockSections : Sections Op Ans MapOp MapAns
  | .insert entry => some (.write, insertBody entry)
  | .containsToken token => some (.read, .call (.containsKey token) .pure)
  | .revokeByMemberHash hash => some (.write, revokeBody hash)
  | .noteNonce nonce => some (.write, .call (.insertNonce nonce) .pure)
  | .allowAttestation pk now => some (.write, allowBody pk now)
  | _ => none

def storePart : Part Shared Inner where
  get s := s.store
  set s g := { s with store := g }
  get_set := fun _ _ => rfl
  set_get := fun _ => rfl
  set_set := fun _ _ _ => rfl

abbrev LockedState := Locked Shared Request Op Ans Response MapOp MapAns

abbrev LockedEvent := LockEvent Request Op Ans EnvEvent

abbrev LockedStep {P : Primitives} (C : Config P) : LockedState → LockedEvent → LockedState → Prop :=
  LockStep (machine C) storePart lockSections MapStep

def bootLocked : LockedState := Locked.initial Shared.boot

/-! ## Every body computes its operation -/

section Accesses
variable {g g' : Inner} {entry : MemberEntry} {pk : Pubkey} {now : Instant}

theorem MapStep.memberEntry_iff {b : Unit} :
    MapStep g (.memberEntry entry) b g' ↔ b = () ∧ g' = g.memberEntry entry := by
  constructor
  · rintro ⟨⟩
    exact ⟨rfl, rfl⟩
  · rintro ⟨rfl, rfl⟩
    exact .memberEntry g entry

theorem MapStep.pushSession_iff {m : Member} (hm : g.byPubkey.lookup entry.clientPubkey = some m)
    {evicted : List String} : MapStep g (.pushSession entry) evicted g' ↔
      evicted = (m.push entry).1 ∧ g' = g.setMember entry.clientPubkey (m.push entry).2 := by
  constructor
  · intro h
    cases h with
    | pushSession hm' =>
      rw [hm] at hm'
      cases hm'
      exact ⟨rfl, rfl⟩
  · rintro ⟨rfl, rfl⟩
    exact .pushSession hm

theorem MapStep.removeToken_iff {token : String} {b : Unit} :
    MapStep g (.removeToken token) b g' ↔ b = () ∧ g' = { g with byToken := g.byToken.erase token } := by
  constructor
  · rintro ⟨⟩
    exact ⟨rfl, rfl⟩
  · rintro ⟨rfl, rfl⟩
    exact .removeToken g token

theorem MapStep.insertToken_iff {token : String} {b : Unit} :
    MapStep g (.insertToken token pk) b g' ↔ b = () ∧ g' = { g with byToken := g.byToken.insert token pk } := by
  constructor
  · rintro ⟨⟩
    exact ⟨rfl, rfl⟩
  · rintro ⟨rfl, rfl⟩
    exact .insertToken g token pk

theorem MapStep.removeMember_iff {removed : Option Member} :
    MapStep g (.removeMember pk) removed g' ↔
      removed = g.byPubkey.lookup pk ∧ g' = { g with byPubkey := g.byPubkey.erase pk } := by
  constructor
  · rintro ⟨⟩
    exact ⟨rfl, rfl⟩
  · rintro ⟨rfl, rfl⟩
    exact .removeMember g pk

theorem MapStep.insertNonce_iff {nonce : String} {new : Bool} :
    MapStep g (.insertNonce nonce) new g' ↔ new = (g.noteNonce nonce).1 ∧ g' = (g.noteNonce nonce).2 := by
  constructor
  · rintro ⟨⟩
    exact ⟨rfl, rfl⟩
  · rintro ⟨rfl, rfl⟩
    exact .insertNonce g nonce

theorem MapStep.containsKey_iff {token : String} {found : Bool} :
    MapStep g (.containsKey token) found g' ↔ found = g.containsToken token ∧ g' = g := by
  constructor
  · rintro ⟨⟩
    exact ⟨rfl, rfl⟩
  · rintro ⟨rfl, rfl⟩
    exact .containsKey _ token

theorem MapStep.bucketEntry_iff {b : Unit} :
    MapStep g (.bucketEntry pk now) b g' ↔ b = () ∧ g' = g.bucketEntry pk now := by
  constructor
  · rintro ⟨⟩
    exact ⟨rfl, rfl⟩
  · rintro ⟨rfl, rfl⟩
    exact .bucketEntry g pk now

theorem MapStep.takeToken_iff {b : Bucket} (hb : g.attestBuckets.lookup pk = some b) {allowed : Bool} :
    MapStep g (.takeToken pk now) allowed g' ↔ allowed = (b.take now).1 ∧ g' = g.setBucket pk (b.take now).2 := by
  constructor
  · intro h
    cases h with
    | takeToken _ hb' =>
      rw [hb] at hb'
      cases hb'
      exact ⟨rfl, rfl⟩
  · rintro ⟨rfl, rfl⟩
    exact .takeToken now hb

/-- The entry is there, and writing it again hides whether it was new. -/
theorem Inner.memberEntry_lookup (g : Inner) (entry : MemberEntry) :
    (g.memberEntry entry).byPubkey.lookup entry.clientPubkey = some (g.memberOrNew entry) := by
  unfold memberEntry memberOrNew
  cases h : g.byPubkey.lookup entry.clientPubkey with
  | none => simp
  | some m => simp [h]

theorem Inner.memberEntry_setMember (g : Inner) (entry : MemberEntry) (m : Member) :
    (g.memberEntry entry).setMember entry.clientPubkey m = g.setMember entry.clientPubkey m := by
  unfold memberEntry
  cases g.byPubkey.lookup entry.clientPubkey with
  | none => simp [setMember, Finmap.insert_insert]
  | some m => rfl

theorem Inner.bucketEntry_lookup (g : Inner) (pk : Pubkey) (now : Instant) :
    (g.bucketEntry pk now).attestBuckets.lookup pk = some ((g.attestBuckets.lookup pk).getD ⟨attestBurst, now⟩) := by
  unfold bucketEntry
  cases h : g.attestBuckets.lookup pk with
  | none => simp
  | some b => simp [h]

theorem Inner.bucketEntry_setBucket (g : Inner) (pk : Pubkey) (now : Instant) (b : Bucket) :
    (g.bucketEntry pk now).setBucket pk b = g.setBucket pk b := by
  unfold bucketEntry
  cases g.attestBuckets.lookup pk with
  | none => simp [setBucket, Finmap.insert_insert]
  | some b => rfl

theorem Inner.allowAttestation_eq_take (g : Inner) (pk : Pubkey) (now : Instant) :
    g.allowAttestation pk now = ((((g.attestBuckets.lookup pk).getD ⟨attestBurst, now⟩).take now).1,
      g.setBucket pk (((g.attestBuckets.lookup pk).getD ⟨attestBurst, now⟩).take now).2) := by
  simp only [allowAttestation, Bucket.take]
  split <;> rfl

end Accesses

section Bodies
variable {g g' : Inner} {b : Bool}

theorem removeTokens_iff {tokens : List String} {next : LockBody Bool} :
    Reaches MapStep g (removeTokens tokens next) g' (.pure b) ↔
      Reaches MapStep { g with byToken := eraseAll g.byToken tokens } next g' (.pure b) := by
  induction tokens generalizing g with
  | nil => rfl
  | cons token tokens ih => exact (Reaches.call_det fun _ _ => MapStep.removeToken_iff).trans ih

theorem insertBody_iff {entry : MemberEntry} :
    Reaches MapStep g (insertBody entry) g' (.pure b) ↔ b = (g.insert entry).1 ∧ g' = (g.insert entry).2 := by
  rw [insertBody, Reaches.call_det fun _ _ => MapStep.memberEntry_iff,
    Reaches.call_det fun _ _ => MapStep.pushSession_iff (g.memberEntry_lookup entry), removeTokens_iff,
    Reaches.call_det fun _ _ => MapStep.insertToken_iff, Reaches.pure_iff, Inner.memberEntry_setMember]
  rfl

theorem containsBody_iff (token : String) :
    Reaches MapStep g (.call (.containsKey token) .pure : LockBody Bool) g' (.pure b) ↔
      b = g.containsToken token ∧ g' = g :=
  (Reaches.call_det fun _ _ => MapStep.containsKey_iff).trans Reaches.pure_iff

theorem nonceBody_iff (nonce : String) :
    Reaches MapStep g (.call (.insertNonce nonce) .pure : LockBody Bool) g' (.pure b) ↔
      b = (g.noteNonce nonce).1 ∧ g' = (g.noteNonce nonce).2 :=
  (Reaches.call_det fun _ _ => MapStep.insertNonce_iff).trans Reaches.pure_iff

theorem dropMember_iff {pk : Pubkey} :
    Reaches MapStep g (dropMember (some pk)) g' (.pure b) ↔ b = true ∧ g' = g.removeMember pk := by
  refine (Reaches.call_det fun _ _ => MapStep.removeMember_iff).trans ?_
  unfold Inner.removeMember
  cases g.byPubkey.lookup pk with
  | none => exact Reaches.pure_iff
  | some m => exact removeTokens_iff.trans Reaches.pure_iff

theorem revokeBody_iff {hash : MemberHash} :
    Reaches MapStep g (revokeBody hash) g' (.pure b) ↔
      ∃ it : Iteration g.byPubkey, b = (g.revokeByMemberHash it hash).1 ∧
        g' = (g.revokeByMemberHash it hash).2 := by
  -- once the walk has ended, the rest has one outcome
  have hrest : ∀ it : Iteration g.byPubkey,
      Reaches MapStep g (dropMember (g.findMember it hash)) g' (.pure b) ↔
        b = (g.revokeByMemberHash it hash).1 ∧ g' = (g.revokeByMemberHash it hash).2 := by
    intro it
    unfold Inner.revokeByMemberHash
    cases g.findMember it hash with
    | none => exact Reaches.pure_iff
    | some pk => exact dropMember_iff
  rw [revokeBody, Reaches.call_iff]
  constructor
  · rintro ⟨_, _, hstep, h⟩
    cases hstep with
    | findMember it => exact ⟨it, (hrest it).mp h⟩
  · rintro ⟨it, h⟩
    exact ⟨_, _, .findMember g it hash, (hrest it).mpr h⟩

theorem allowBody_iff {pk : Pubkey} {now : Instant} :
    Reaches MapStep g (allowBody pk now) g' (.pure b) ↔
      b = (g.allowAttestation pk now).1 ∧ g' = (g.allowAttestation pk now).2 := by
  rw [allowBody, Reaches.call_det fun _ _ => MapStep.bucketEntry_iff,
    Reaches.call_det fun _ _ => MapStep.takeToken_iff (g.bucketEntry_lookup pk now), Reaches.pure_iff,
    Inner.bucketEntry_setBucket, Inner.allowAttestation_eq_take]

end Bodies

section Refinement
variable {P : Primitives} (C : Config P)

theorem lockSections_sound : lockSections.Sound (machine C) storePart MapStep where
  accepts := fun _ _ _ h => h
  env := by
    intro s e s' a h
    cases h with
    | handshake hfree hok => exact ⟨rfl, .handshake (s := { s with store := a }) hfree hok⟩
    | close conn => exact ⟨rfl, .close { s with store := a } conn⟩
    | tick h => exact ⟨rfl, .tick (s := { s with store := a }) h⟩
  direct := by
    intro o hsec s b s' a h
    cases h with
    | instantNow => exact ⟨rfl, .instantNow { s with store := a }⟩
    | outside _ ho => exact ⟨rfl, .outside { s with store := a } b ho⟩
    | _ => cases hsec
  write := by
    intro o body hsec s b g h
    cases o with
    | insert entry =>
      cases hsec
      obtain ⟨rfl, rfl⟩ := insertBody_iff.mp h
      exact .insert s entry
    | revokeByMemberHash hash =>
      cases hsec
      obtain ⟨it, rfl, rfl⟩ := revokeBody_iff.mp h
      exact .revokeByMemberHash s it hash
    | noteNonce nonce =>
      cases hsec
      obtain ⟨rfl, rfl⟩ := (nonceBody_iff nonce).mp h
      exact .noteNonce s nonce
    | allowAttestation pk now =>
      cases hsec
      obtain ⟨rfl, rfl⟩ := allowBody_iff.mp h
      exact .allowAttestation s pk now
    | _ => cases hsec
  read := by
    intro o body hsec s b h
    cases o with
    | containsToken token =>
      cases hsec
      obtain ⟨rfl, -⟩ := (containsBody_iff token).mp h
      exact .containsToken s token
    | _ => cases hsec
  readOnly := by
    intro o body hsec
    cases o with
    | containsToken token =>
      cases hsec
      exact ⟨fun g b g' h => (MapStep.containsKey_iff.mp h).2, fun _ => trivial⟩
    | _ => cases hsec

theorem lockSections_complete : lockSections.Complete (machine C) storePart MapStep := by
  intro o g body hsec s b s' h
  cases h with
  | insert entry =>
    cases hsec
    exact ⟨_, rfl, insertBody_iff.mpr ⟨rfl, rfl⟩⟩
  | containsToken token =>
    cases hsec
    exact ⟨s.store, rfl, (containsBody_iff token).mpr ⟨rfl, rfl⟩⟩
  | revokeByMemberHash it hash =>
    cases hsec
    exact ⟨_, rfl, revokeBody_iff.mpr ⟨it, rfl, rfl⟩⟩
  | noteNonce nonce =>
    cases hsec
    exact ⟨_, rfl, (nonceBody_iff nonce).mpr ⟨rfl, rfl⟩⟩
  | allowAttestation pk now =>
    cases hsec
    exact ⟨_, rfl, allowBody_iff.mpr ⟨rfl, rfl⟩⟩
  | instantNow => cases hsec
  | outside _ ho =>
    cases o with
    | random32 => cases hsec
    | tdxQuote _ => cases hsec
    | gpuHelper _ => cases hsec
    | upstreamRequest _ => cases hsec
    | frame => cases hsec
    | send _ => cases hsec
    | _ => cases ho

end Refinement

/-! ## No body blocks -/

theorem removeTokens_canEnd {tokens : List String} {next : LockBody Bool} (hnext : ∀ g, CanEnd MapStep next g)
    (g : Inner) : CanEnd MapStep (removeTokens tokens next) g := by
  induction tokens generalizing g with
  | nil => exact hnext g
  | cons token tokens ih => exact ⟨⟨_, _, .removeToken g token⟩, fun _ _ _ => ih _⟩

theorem insertBody_canEnd (entry : MemberEntry) (g : Inner) : CanEnd MapStep (insertBody entry) g := by
  refine ⟨⟨_, _, .memberEntry g entry⟩, fun _ g₁ h₁ => ?_⟩
  obtain ⟨-, rfl⟩ := MapStep.memberEntry_iff.mp h₁
  -- the entry that was just made is the one borrowed
  refine ⟨⟨_, _, .pushSession (g.memberEntry_lookup entry)⟩, fun evicted g₂ _ => ?_⟩
  refine removeTokens_canEnd (fun g₃ => ?_) g₂
  exact ⟨⟨_, _, .insertToken g₃ _ _⟩, fun _ _ _ => trivial⟩

theorem revokeBody_canEnd (hash : MemberHash) (g : Inner) : CanEnd MapStep (revokeBody hash) g := by
  obtain ⟨it⟩ : Nonempty (Iteration g.byPubkey) := inferInstance
  refine ⟨⟨_, _, .findMember g it hash⟩, fun found g₁ _ => ?_⟩
  cases found with
  | none => trivial
  | some pk =>
    refine ⟨⟨_, _, .removeMember g₁ pk⟩, fun removed g₂ _ => ?_⟩
    cases removed with
    | none => trivial
    | some m =>
      refine removeTokens_canEnd (fun _ => ?_) g₂
      trivial

theorem allowBody_canEnd (pk : Pubkey) (now : Instant) (g : Inner) : CanEnd MapStep (allowBody pk now) g := by
  refine ⟨⟨_, _, .bucketEntry g pk now⟩, fun _ g₁ h₁ => ?_⟩
  obtain ⟨-, rfl⟩ := MapStep.bucketEntry_iff.mp h₁
  exact ⟨⟨_, _, .takeToken now (g.bucketEntry_lookup pk now)⟩, fun _ _ _ => trivial⟩

theorem lockSections_canEnd (o : Op) (guard : Guard) (body : LockBody (Ans o))
    (hsec : lockSections o = some (guard, body)) (g : Inner) : CanEnd MapStep body g := by
  cases o with
  | insert entry =>
    cases hsec
    exact insertBody_canEnd entry g
  | containsToken token =>
    cases hsec
    exact ⟨⟨_, _, .containsKey g token⟩, fun _ _ _ => trivial⟩
  | revokeByMemberHash hash =>
    cases hsec
    exact revokeBody_canEnd hash g
  | noteNonce nonce =>
    cases hsec
    exact ⟨⟨_, _, .insertNonce g nonce⟩, fun _ _ _ => trivial⟩
  | allowAttestation pk now =>
    cases hsec
    exact allowBody_canEnd pk now g
  | _ => cases hsec

/-! ## The service above the lock -/

theorem lock_sections_atomic {P : Primitives} {C : Config P} :
    (∀ es c, Run (LockedStep C) bootLocked es c →
      ∃ p, Run (ServiceStep C) bootState (visible es) p ∧ p.task = c.pool.task ∧
        p.shared = { c.pool.shared with store := p.shared.store } ∧
        ((∀ id n, c.inside id = some n → n.guard = .read) → p = c.pool)) ∧
    (∀ vs p, Run (ServiceStep C) bootState vs p →
      ∃ es, Run (LockedStep C) bootLocked es ⟨p, fun _ => none⟩ ∧ visible es = vs) := by
  constructor
  · intro es c h
    obtain ⟨p, hrun, hat⟩ := Atomic.of_run (lockSections_sound C) h
    refine ⟨p, hrun, hat.tasks, hat.shared, fun hread => ?_⟩
    calc p = ⟨p.shared, p.task⟩ := rfl
      _ = c.pool := by rw [hat.clean hread, hat.tasks]
  · intro vs p h
    exact lock_run_of_run (lockSections_complete C) h

namespace Synthetic

theorem serve_until (id : Nat) (endpoint : Endpoint) {cs : List (Performed Op Ans)} {prog : Handler Response}
    {s : Shared} (hf : Follows (route config ⟨some pubkey, endpoint⟩) cs prog) (hx : Performs connected.shared cs s) :
    ∃ es q, Run (ServiceStep config) connected es q ∧ q.shared = s ∧
      q.task id = some ⟨⟨some pubkey, endpoint⟩, cs, prog⟩ := by
  obtain ⟨q, hrun, hs, ht⟩ := Pool.serve_until (M := machine config) id rfl ⟨0, connected_conns⟩ hf hx
  refine ⟨_, q, hrun, hs, ?_⟩
  rw [ht]
  exact Function.update_self _ _ _

theorem follows_minted (random : Vector UInt8 32) :
    ∃ k, Follows (route config ⟨some pubkey, .enroll now request⟩) [⟨.random32, random⟩]
      (.call (.insert (entry random)) k) := by
  have hchecks : enrollChecks primitives config.anchors config.manifest now (some pubkey) request =
      .ok ⟨pubkey, memberHash, originalTx⟩ := checks_eq containsPair_self
  rw [route_enroll hchecks, issueBearer_eq]
  exact ⟨_, .cons (.nil _)⟩

def pushed (random : Vector UInt8 32) : Inner :=
  (Inner.empty.memberEntry (entry random)).setMember pubkey
    ((Inner.empty.memberOrNew (entry random)).push (entry random)).2

theorem pushed_inconsistent (random : Vector UInt8 32) : ¬ Consistent (pushed random) := by
  intro h
  have hmem : (entry random).sessionToken ∈ (pushed random).sessions pubkey := by
    simp [pushed, Inner.sessions, Inner.setMember, Member.push, Inner.memberOrNew, Inner.empty, Inner.evictOldest_eq,
      List.rtake, deviceCap]
  have hindexed := (h.byToken_iff _ _).mpr hmem
  simp [pushed, Inner.setMember, Inner.memberEntry, Inner.empty] at hindexed

/-- The first enrolment, seen after the session was pushed and before the bearer index
has it. -/
theorem half_inserted (random : Vector UInt8 32) : ∃ es c t, Run (LockedStep config) bootLocked es c ∧
    c.pool.task 1 = some t ∧ c.pool.shared.store = pushed random := by
  obtain ⟨k, hf⟩ := follows_minted random
  have hmint : Performs connected.shared [⟨.random32, random⟩] connected.shared :=
    .single (Exec.outside connected.shared (o := .random32) random rfl)
  obtain ⟨vs, p, hrun, hs, ht⟩ := serve_until 1 (.enroll now request) hf hmint
  obtain ⟨es, hlock, -⟩ := lock_run_of_run (lockSections_complete config) (run_connected.append hrun)
  have hstore : p.shared.store = Inner.empty := congrArg Shared.store hs
  have henter : LockedStep config ⟨p, fun _ => none⟩ (.enter 1 (.insert (entry random)))
      (Locked.alone p 1 ⟨.insert (entry random), .write, insertBody (entry random)⟩) :=
    .enter (c := ⟨p, fun _ => none⟩) rfl ht rfl (by simp)
  let body : Prog MapOp MapAns (Ans (.insert (entry random))) := insertBody (entry random)
  obtain ⟨rest, hreach⟩ : ∃ rest, Reaches MapStep p.shared.store body (pushed random) rest := by
    rw [hstore]
    exact ⟨_, .step (.memberEntry _ _) (.step (.pushSession (Inner.memberEntry_lookup _ _)) (.refl _ _))⟩
  obtain ⟨fs, hinside, -⟩ : ∃ fs, Run (LockedStep config) (Locked.alone p 1 ⟨.insert (entry random), .write, body⟩) fs
      (Locked.alone { p with shared := storePart.set p.shared (pushed random) } 1
        ⟨.insert (entry random), .write, rest⟩) ∧ visible fs = [] :=
    hreach.run_alone (machine config) lockSections 1 .write rfl
  exact ⟨_, _, _, hlock.append (.cons henter hinside), ht, rfl⟩

end Synthetic

theorem lock_sections_atomic_half_inserted : ∃ es c p, Run (LockedStep Synthetic.config) bootLocked es c ∧
    ¬ Consistent c.pool.shared.store ∧ Run (ServiceStep Synthetic.config) bootState (visible es) p ∧
    p.task = c.pool.task := by
  obtain ⟨es, c, t, hrun, -, hstore⟩ := Synthetic.half_inserted (Vector.replicate 32 0)
  obtain ⟨p, hp, htask, -⟩ := (lock_sections_atomic (C := Synthetic.config)).1 es c hrun
  refine ⟨es, c, p, hrun, ?_, hp, htask⟩
  rw [hstore]
  exact Synthetic.pushed_inconsistent _

theorem lock_never_wedges {P : Primitives} {C : Config P} {es : List LockedEvent} {c : LockedState}
    (h : Run (LockedStep C) bootLocked es c) {id : Nat} {t : Task Request Op Ans Response}
    (ht : c.pool.task id = some t) :
    ∃ fs d done r, Run (LockedStep C) c fs d ∧ d.pool.task id = some ⟨t.req, done, .pure r⟩ :=
  Locked.can_finish (lockSections_sound C) (lockSections_complete C) lockSections_canEnd Exec.total h ht

theorem lock_never_wedges_half_inserted : ∃ es c fs d t r, Run (LockedStep Synthetic.config) bootLocked es c ∧
    ¬ Consistent c.pool.shared.store ∧ Run (LockedStep Synthetic.config) c fs d ∧ d.pool.task 1 = some t ∧
    t.prog = .pure r := by
  obtain ⟨es, c, t, hrun, ht, hstore⟩ := Synthetic.half_inserted (Vector.replicate 32 0)
  obtain ⟨fs, d, done, r, hrest, hd⟩ := lock_never_wedges hrun ht
  refine ⟨es, c, fs, d, _, r, hrun, ?_, hrest, hd, rfl⟩
  rw [hstore]
  exact Synthetic.pushed_inconsistent _

end IronInstance
