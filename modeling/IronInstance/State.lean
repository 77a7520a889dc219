import Mathlib.Data.Rat.Defs
import Mathlib.Algebra.Order.Field.Rat
import IronInstance.Library.FiniteMap
import IronInstance.Library.Newest

/-!
# The RAM-only member store

The state behind the lock of `MemberStore` and its operations, one definition for
each lock section. Hash maps are finite maps without an order; the one operation
that walks a map, `revokeByMemberHash`, takes the iteration it walks along. The
token bucket computes with exact rationals where the source has `f64`, and an
`Instant` counts nanoseconds of the monotonic clock.
-/

namespace IronInstance
open FiniteMap
set_option autoImplicit false

/-- X9.63 uncompressed P-256 point. -/
abbrev Pubkey := Vector UInt8 65

/-- `sha256(sub || originalTransactionId)`. -/
abbrev MemberHash := Vector UInt8 32

abbrev Instant := Nat

def deviceCap : Nat := 3

def attestBurst : Rat := 5

def attestRefillPerSec : Rat := 1 / 10

structure MemberEntry where
  clientPubkey : Pubkey
  memberHash : MemberHash
  sessionToken : String
  originalTxId : String
  deriving DecidableEq

/-- The stored form; `sessions` is oldest first. -/
structure Member where
  memberHash : MemberHash
  originalTxId : String
  sessions : List String
  deriving DecidableEq

structure Bucket where
  tokens : Rat
  last : Instant
  deriving DecidableEq

@[ext] structure Inner where
  byPubkey : Finmap fun _ : Pubkey => Member
  byToken : Finmap fun _ : String => Pubkey
  seenNonces : Finset String
  attestBuckets : Finmap fun _ : Pubkey => Bucket

namespace Inner

def empty : Inner := ⟨∅, ∅, ∅, ∅⟩

def sessionCount (g : Inner) (pubkey : Pubkey) : Nat :=
  ((g.byPubkey.lookup pubkey).map fun m => m.sessions.length).getD 0

/-- `duration_since` saturates at zero, as subtraction of naturals does. -/
def durationSince (now earlier : Instant) : Nat := now - earlier

def asSecs (nanos : Nat) : Rat := (nanos : Rat) / 1000000000

/-- The lock section of `allow_attestation`; `now` was read before the lock. -/
def allowAttestation (g : Inner) (pubkey : Pubkey) (now : Instant) : Bool × Inner :=
  let bucket := (g.attestBuckets.lookup pubkey).getD ⟨attestBurst, now⟩
  let tokens := min (bucket.tokens + asSecs (durationSince now bucket.last) * attestRefillPerSec) attestBurst
  if 1 ≤ tokens then
    (true, { g with attestBuckets := g.attestBuckets.insert pubkey ⟨tokens - 1, now⟩ })
  else
    (false, { g with attestBuckets := g.attestBuckets.insert pubkey ⟨tokens, now⟩ })

/-- `while sessions.len() > DEVICE_CAP { out.push(sessions.pop_front()) }` -/
def evictOldest (out : List String) : List String → List String × List String
  | [] => (out, [])
  | old :: sessions =>
    if deviceCap < (old :: sessions).length then evictOldest (out ++ [old]) sessions
    else (out, old :: sessions)

/-- The entry of `pk`, or the fresh member `or_insert_with` makes. -/
def memberOrNew (g : Inner) (entry : MemberEntry) : Member :=
  (g.byPubkey.lookup entry.clientPubkey).getD ⟨entry.memberHash, entry.originalTxId, []⟩

def insert (g : Inner) (entry : MemberEntry) : Bool × Inner :=
  let pk := entry.clientPubkey
  let member := g.memberOrNew entry
  -- the fresh identity wins over the stored one
  let member := { member with memberHash := entry.memberHash, originalTxId := entry.originalTxId }
  let sessions := member.sessions ++ [entry.sessionToken]
  let (evicted, sessions) := evictOldest [] sessions
  let byToken := evicted.foldl (fun m token => m.erase token) g.byToken
  (true, { g with
    byPubkey := g.byPubkey.insert pk { member with sessions := sessions }
    byToken := byToken.insert entry.sessionToken pk })

def getByToken (g : Inner) (token : String) : Option MemberEntry := do
  let pk ← g.byToken.lookup token
  let member ← g.byPubkey.lookup pk
  some { clientPubkey := pk
         memberHash := member.memberHash
         sessionToken := token
         originalTxId := member.originalTxId }

def containsToken (g : Inner) (token : String) : Bool := (g.byToken.lookup token).isSome

/-- The pubkey `iter().find(..)` stops at when the map is walked along `it`. -/
def findMember (g : Inner) (it : Iteration g.byPubkey) (hash : MemberHash) : Option Pubkey :=
  it.find fun m => m.memberHash == hash

def removeMember (g : Inner) (pk : Pubkey) : Inner :=
  match g.byPubkey.lookup pk with
  | some m => { g with
      byPubkey := g.byPubkey.erase pk
      byToken := m.sessions.foldl (fun t token => t.erase token) g.byToken }
  | none => { g with byPubkey := g.byPubkey.erase pk }

def revokeByMemberHash (g : Inner) (it : Iteration g.byPubkey) (hash : MemberHash) : Bool × Inner :=
  match g.findMember it hash with
  | some pk => (true, g.removeMember pk)
  | none => (false, g)

/-- `HashSet::insert` answers whether the value was new. -/
def noteNonce (g : Inner) (nonce : String) : Bool × Inner :=
  (decide (nonce ∉ g.seenNonces), { g with seenNonces := Insert.insert nonce g.seenNonces })

/-! ## What the operations do to each field -/

def sessions (g : Inner) (pk : Pubkey) : List String :=
  ((g.byPubkey.lookup pk).map fun m => m.sessions).getD []

theorem sessionCount_eq (g : Inner) (pk : Pubkey) : g.sessionCount pk = (g.sessions pk).length := by
  unfold sessionCount sessions
  cases g.byPubkey.lookup pk <;> rfl

theorem sessions_of_lookup {g : Inner} {pk : Pubkey} {m : Member} (h : g.byPubkey.lookup pk = some m) :
    g.sessions pk = m.sessions := by
  simp [sessions, h]

theorem mem_sessions_iff {g : Inner} {pk : Pubkey} {t : String} :
    t ∈ g.sessions pk ↔ ∃ m, g.byPubkey.lookup pk = some m ∧ t ∈ m.sessions := by
  unfold sessions
  cases g.byPubkey.lookup pk <;> simp

theorem containsToken_iff {g : Inner} {t : String} :
    g.containsToken t = true ↔ ∃ pk, g.byToken.lookup t = some pk := by
  simp [containsToken, Option.isSome_iff_exists]

@[simp] theorem sessions_empty (pk : Pubkey) : empty.sessions pk = [] := by
  simp [sessions, empty]

@[simp] theorem containsToken_empty (t : String) : empty.containsToken t = false := by
  simp [containsToken, empty]

theorem evictOldest_eq (out l : List String) :
    evictOldest out l = (out ++ l.rdrop deviceCap, l.rtake deviceCap) := by
  induction l generalizing out with
  | nil => simp [evictOldest]
  | cons old l ih =>
    rw [evictOldest]
    split
    · rename_i h
      have hlen : (old :: l).length - deviceCap = l.length - deviceCap + 1 := by
        simp only [List.length_cons] at h ⊢
        omega
      rw [ih, List.rtake, List.rtake, List.rdrop, List.rdrop, hlen]
      simp
    · rename_i h
      have hlen : (old :: l).length - deviceCap = 0 := by omega
      rw [List.rtake, List.rdrop, hlen]
      simp

theorem memberOrNew_sessions (g : Inner) (entry : MemberEntry) :
    (g.memberOrNew entry).sessions = g.sessions entry.clientPubkey := by
  unfold memberOrNew sessions
  cases g.byPubkey.lookup entry.clientPubkey <;> rfl

theorem insert_byPubkey (g : Inner) (entry : MemberEntry) (pk : Pubkey) :
    (g.insert entry).2.byPubkey.lookup pk =
      if pk = entry.clientPubkey then
        some ⟨entry.memberHash, entry.originalTxId,
          (g.sessions entry.clientPubkey ++ [entry.sessionToken]).rtake deviceCap⟩
      else g.byPubkey.lookup pk := by
  simp only [insert, evictOldest_eq, memberOrNew_sessions, lookup_insert_eq]

theorem insert_sessions (g : Inner) (entry : MemberEntry) (pk : Pubkey) :
    (g.insert entry).2.sessions pk =
      if pk = entry.clientPubkey then
        (g.sessions entry.clientPubkey ++ [entry.sessionToken]).rtake deviceCap
      else g.sessions pk := by
  simp only [sessions, insert_byPubkey]
  split <;> rfl

def evicted (g : Inner) (entry : MemberEntry) : List String :=
  (g.sessions entry.clientPubkey ++ [entry.sessionToken]).rdrop deviceCap

theorem insert_byToken (g : Inner) (entry : MemberEntry) (t : String) :
    (g.insert entry).2.byToken.lookup t =
      if t = entry.sessionToken then some entry.clientPubkey
      else if t ∈ g.evicted entry then none
      else g.byToken.lookup t := by
  simp only [insert, evictOldest_eq, memberOrNew_sessions, lookup_insert_eq, List.nil_append]
  congr 1
  exact lookup_eraseAll _ _ _

theorem member_of_getByToken {g : Inner} {token : String} {entry : MemberEntry} (h : g.getByToken token = some entry) :
    g.byToken.lookup token = some entry.clientPubkey ∧
      ∃ m, g.byPubkey.lookup entry.clientPubkey = some m ∧ m.memberHash = entry.memberHash := by
  obtain ⟨pk, hpk, hmember⟩ := Option.bind_eq_some_iff.mp h
  obtain ⟨m, hm, heq⟩ := Option.bind_eq_some_iff.mp hmember
  cases heq
  exact ⟨hpk, m, hm, rfl⟩

theorem getByToken_insert (g : Inner) (entry : MemberEntry) :
    (g.insert entry).2.getByToken entry.sessionToken = some entry := by
  simp [getByToken, insert_byToken, insert_byPubkey]

theorem containsToken_insert (g : Inner) (entry : MemberEntry) :
    (g.insert entry).2.containsToken entry.sessionToken = true := by
  simp [containsToken, insert_byToken]

@[simp] theorem insert_fst (g : Inner) (entry : MemberEntry) : (g.insert entry).1 = true := rfl

@[simp] theorem insert_seenNonces (g : Inner) (entry : MemberEntry) :
    (g.insert entry).2.seenNonces = g.seenNonces := rfl

@[simp] theorem insert_attestBuckets (g : Inner) (entry : MemberEntry) :
    (g.insert entry).2.attestBuckets = g.attestBuckets := rfl

theorem removeMember_byPubkey (g : Inner) (pk pk' : Pubkey) :
    (g.removeMember pk).byPubkey.lookup pk' = if pk' = pk then none else g.byPubkey.lookup pk' := by
  unfold removeMember
  cases g.byPubkey.lookup pk <;> exact lookup_erase_eq _ _ _

theorem removeMember_sessions (g : Inner) (pk pk' : Pubkey) :
    (g.removeMember pk).sessions pk' = if pk' = pk then [] else g.sessions pk' := by
  simp only [sessions, removeMember_byPubkey]
  split <;> rfl

theorem removeMember_byToken (g : Inner) (pk : Pubkey) (t : String) :
    (g.removeMember pk).byToken.lookup t = if t ∈ g.sessions pk then none else g.byToken.lookup t := by
  unfold removeMember sessions
  cases g.byPubkey.lookup pk with
  | none => simp
  | some m => exact lookup_eraseAll _ _ _

@[simp] theorem removeMember_seenNonces (g : Inner) (pk : Pubkey) :
    (g.removeMember pk).seenNonces = g.seenNonces := by
  unfold removeMember
  cases g.byPubkey.lookup pk <;> rfl

@[simp] theorem removeMember_attestBuckets (g : Inner) (pk : Pubkey) :
    (g.removeMember pk).attestBuckets = g.attestBuckets := by
  unfold removeMember
  cases g.byPubkey.lookup pk <;> rfl

@[simp] theorem revokeByMemberHash_seenNonces (g : Inner) (it : Iteration g.byPubkey) (hash : MemberHash) :
    (g.revokeByMemberHash it hash).2.seenNonces = g.seenNonces := by
  unfold revokeByMemberHash
  cases g.findMember it hash <;> simp

@[simp] theorem revokeByMemberHash_attestBuckets (g : Inner) (it : Iteration g.byPubkey) (hash : MemberHash) :
    (g.revokeByMemberHash it hash).2.attestBuckets = g.attestBuckets := by
  unfold revokeByMemberHash
  cases g.findMember it hash <;> simp

@[simp] theorem noteNonce_byPubkey (g : Inner) (nonce : String) :
    (g.noteNonce nonce).2.byPubkey = g.byPubkey := rfl

@[simp] theorem noteNonce_byToken (g : Inner) (nonce : String) :
    (g.noteNonce nonce).2.byToken = g.byToken := rfl

@[simp] theorem noteNonce_attestBuckets (g : Inner) (nonce : String) :
    (g.noteNonce nonce).2.attestBuckets = g.attestBuckets := rfl

theorem mem_allowAttestation_iff {g : Inner} {pk pk' : Pubkey} {now : Instant} :
    pk' ∈ (g.allowAttestation pk now).2.attestBuckets ↔ pk' = pk ∨ pk' ∈ g.attestBuckets := by
  simp only [allowAttestation]
  split <;> exact Finmap.mem_insert

@[simp] theorem allowAttestation_byPubkey (g : Inner) (pk : Pubkey) (now : Instant) :
    (g.allowAttestation pk now).2.byPubkey = g.byPubkey := by
  simp only [allowAttestation]
  split <;> rfl

@[simp] theorem allowAttestation_byToken (g : Inner) (pk : Pubkey) (now : Instant) :
    (g.allowAttestation pk now).2.byToken = g.byToken := by
  simp only [allowAttestation]
  split <;> rfl

@[simp] theorem allowAttestation_seenNonces (g : Inner) (pk : Pubkey) (now : Instant) :
    (g.allowAttestation pk now).2.seenNonces = g.seenNonces := by
  simp only [allowAttestation]
  split <;> rfl

end Inner

end IronInstance
