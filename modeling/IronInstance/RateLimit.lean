import IronInstance.StoreRuns
import IronInstance.Library.TokenBucket

/-!
# The /attestation limiter

One bucket for each pubkey. A call reads and writes the caller's own bucket and
nothing else writes a bucket, so what a pubkey is answered depends on its own calls
alone, whatever the other members do.
-/

namespace IronInstance
open FiniteMap Runs TokenBucket
set_option autoImplicit false

/-! ## One call -/

namespace Inner

def bucket (g : Inner) (pk : Pubkey) (now : Instant) : Bucket := (g.attestBuckets.lookup pk).getD ⟨attestBurst, now⟩

def available (g : Inner) (pk : Pubkey) (now : Instant) : Rat :=
  refill attestBurst attestRefillPerSec (g.bucket pk now).tokens (asSecs (durationSince now (g.bucket pk now).last))

/-- A call is a refill and a spend of the caller's own bucket. -/
theorem allowAttestation_eq (g : Inner) (pk : Pubkey) (now : Instant) :
    g.allowAttestation pk now = ((spend (g.available pk now)).1,
      { g with attestBuckets := g.attestBuckets.insert pk ⟨(spend (g.available pk now)).2, now⟩ }) := by
  have hcall : g.allowAttestation pk now = if 1 ≤ g.available pk now
      then (true, { g with attestBuckets := g.attestBuckets.insert pk ⟨g.available pk now - 1, now⟩ })
      else (false, { g with attestBuckets := g.attestBuckets.insert pk ⟨g.available pk now, now⟩ }) := rfl
  rw [hcall, spend]
  split <;> rfl

theorem allowAttestation_bucket (g : Inner) (pk pk' : Pubkey) (now : Instant) :
    (g.allowAttestation pk now).2.attestBuckets.lookup pk' =
      if pk' = pk then some ⟨(spend (g.available pk now)).2, now⟩ else g.attestBuckets.lookup pk' := by
  rw [allowAttestation_eq]
  exact lookup_insert_eq _ _ _ _

theorem allowAttestation_congr {g g' : Inner} {pk : Pubkey}
    (h : g.attestBuckets.lookup pk = g'.attestBuckets.lookup pk) (now : Instant) :
    (g.allowAttestation pk now).1 = (g'.allowAttestation pk now).1 ∧
      (g.allowAttestation pk now).2.attestBuckets.lookup pk =
        (g'.allowAttestation pk now).2.attestBuckets.lookup pk := by
  have havail : g.available pk now = g'.available pk now := by
    simp only [available, bucket, h]
  rw [allowAttestation_bucket, allowAttestation_bucket, if_pos rfl, if_pos rfl, allowAttestation_eq,
    allowAttestation_eq, havail]
  exact ⟨rfl, rfl⟩

end Inner

theorem attestBurst_pos : 1 ≤ attestBurst := by norm_num [attestBurst]

theorem attestRefillPerSec_pos : 0 < attestRefillPerSec := by norm_num [attestRefillPerSec]

theorem asSecs_nonneg (n : Nat) : 0 ≤ Inner.asSecs n := by
  unfold Inner.asSecs
  positivity

/-! ## The calls of one pubkey -/

def StoreEvent.call : StoreEvent → Option (Pubkey × Instant)
  | .allowAttestation pk now _ => some (pk, now)
  | _ => none

def StoreEvent.isCallOf (pk : Pubkey) (e : StoreEvent) : Bool := decide (e.call.map Prod.fst = some pk)

def StoreEvent.answerTo (pk : Pubkey) : StoreEvent → Option Bool
  | .allowAttestation pk' _ allowed => if pk' = pk then some allowed else none
  | _ => none

/-- The run with everything but the calls of `pk` deleted. -/
def ownCalls (pk : Pubkey) (es : List StoreEvent) : List StoreEvent := es.filter (StoreEvent.isCallOf pk)

def answers (pk : Pubkey) (es : List StoreEvent) : List Bool := es.filterMap (StoreEvent.answerTo pk)

theorem isCallOf_iff {pk : Pubkey} {e : StoreEvent} :
    e.isCallOf pk = true ↔ ∃ now allowed, e = .allowAttestation pk now allowed := by
  cases e <;> simp [StoreEvent.isCallOf, StoreEvent.call]

theorem ownCalls_of_own {pk : Pubkey} {e : StoreEvent} (h : e.isCallOf pk = true) : ownCalls pk [e] = [e] := by
  simp [ownCalls, h]

theorem ownCalls_of_other {pk : Pubkey} {e : StoreEvent} (h : e.isCallOf pk = false) : ownCalls pk [e] = [] := by
  simp [ownCalls, h]

theorem answers_ownCalls (pk : Pubkey) (es : List StoreEvent) : answers pk (ownCalls pk es) = answers pk es := by
  unfold answers ownCalls
  rw [List.filterMap_filter]
  congr 1
  funext e
  cases e with
  | allowAttestation pk' now allowed => simp [StoreEvent.isCallOf, StoreEvent.call, StoreEvent.answerTo]
  | _ => simp [StoreEvent.isCallOf, StoreEvent.call, StoreEvent.answerTo]

theorem Step.bucket_eq {g g' : Inner} {e : StoreEvent} {pk : Pubkey} (h : Step g e g')
    (he : e.isCallOf pk = false) : g'.attestBuckets.lookup pk = g.attestBuckets.lookup pk := by
  cases h with
  | insert entry => rfl
  | revoke it hash => simp
  | noteNonce nonce => rfl
  | allowAttestation pk' now =>
    have hne : pk ≠ pk' := by
      rintro rfl
      simp [StoreEvent.isCallOf, StoreEvent.call] at he
    rw [Inner.allowAttestation_bucket, if_neg hne]

/-- Deleting everything else leaves a run in which `pk` gets the same answers and ends
with the same bucket. -/
theorem run_ownCalls {es : List StoreEvent} {g : Inner} (h : Run Step Inner.empty es g) (pk : Pubkey) :
    ∃ g', Run Step Inner.empty (ownCalls pk es) g' ∧
      g'.attestBuckets.lookup pk = g.attestBuckets.lookup pk := by
  refine h.reverseInduction (P := fun es g => ∃ g', Run Step Inner.empty (ownCalls pk es) g' ∧
    g'.attestBuckets.lookup pk = g.attestBuckets.lookup pk) ⟨_, .nil _, rfl⟩ ?_
  rintro es g e g₁ - hstep ⟨g', hrun, hsame⟩
  have hsplit : ownCalls pk (es ++ [e]) = ownCalls pk es ++ ownCalls pk [e] := List.filter_append es [e]
  cases he : e.isCallOf pk with
  | false =>
    refine ⟨g', ?_, hsame.trans (hstep.bucket_eq he).symm⟩
    rwa [hsplit, ownCalls_of_other he, List.append_nil]
  | true =>
    obtain ⟨now, allowed, rfl⟩ := isCallOf_iff.mp he
    obtain ⟨hanswer, hbucket⟩ := Inner.allowAttestation_congr hsame now
    have heq := hstep.allowAttestation_eq
    have hallowed : (g'.allowAttestation pk now).1 = allowed := by rw [hanswer, ← heq]
    refine ⟨(g'.allowAttestation pk now).2, ?_, by rw [hbucket, ← heq]⟩
    rw [hsplit, ownCalls_of_own he]
    have hown := Step.allowAttestation g' pk now
    rw [hallowed] at hown
    exact hrun.snoc hown

theorem answers_determined {es es' : List StoreEvent} {g g₁ g₂ : Inner} (h : Run Step g es g₁)
    (h' : Run Step g es' g₂) (hcalls : es'.map StoreEvent.call = es.map StoreEvent.call)
    (hall : ∀ e ∈ es, e.call ≠ none) : es' = es := by
  induction h generalizing es' with
  | nil => simpa using hcalls
  | @cons g a g₁ e es hstep _ ih =>
    cases es' with
    | nil => cases hcalls
    | cons e' es' =>
      obtain ⟨b, hstep', hrest⟩ := Run.cons_iff.mp h'
      simp only [List.map_cons, List.cons.injEq] at hcalls
      cases e with
      | allowAttestation pk now allowed =>
        cases e' with
        | allowAttestation pk' now' allowed' =>
          obtain ⟨hcall, htail⟩ := hcalls
          cases hcall
          have heq := hstep.allowAttestation_eq
          rw [← hstep'.allowAttestation_eq] at heq
          obtain ⟨rfl, rfl⟩ := Prod.mk.inj heq
          rw [ih hrest htail fun e he => hall e (List.mem_cons_of_mem _ he)]
        | _ => cases hcalls.1
      | _ => exact absurd rfl (hall _ List.mem_cons_self)

/-! ## The bucket itself -/

def BucketsBounded (g : Inner) : Prop :=
  ∀ pk b, g.attestBuckets.lookup pk = some b → 0 ≤ b.tokens ∧ b.tokens ≤ attestBurst

theorem bucketsBounded_empty : BucketsBounded Inner.empty := by
  intro pk b hb
  simp [Inner.empty] at hb

theorem BucketsBounded.tokens_nonneg {g : Inner} (h : BucketsBounded g) (pk : Pubkey) (now : Instant) :
    0 ≤ (g.bucket pk now).tokens := by
  unfold Inner.bucket
  cases hb : g.attestBuckets.lookup pk with
  | none => exact zero_le_one.trans attestBurst_pos
  | some b => exact (h pk b hb).1

theorem bucketsBounded_step {g g' : Inner} {e : StoreEvent} (hs : Step g e g') (h : BucketsBounded g) :
    BucketsBounded g' := by
  intro pk b hb
  cases he : e.isCallOf pk with
  | false =>
    rw [hs.bucket_eq he] at hb
    exact h pk b hb
  | true =>
    obtain ⟨now, allowed, rfl⟩ := isCallOf_iff.mp he
    rw [show g' = (g.allowAttestation pk now).2 by rw [← hs.allowAttestation_eq],
      Inner.allowAttestation_bucket, if_pos rfl] at hb
    cases hb
    refine ⟨spend_nonneg (refill_nonneg (zero_le_one.trans attestBurst_pos) attestRefillPerSec_pos.le
      (h.tokens_nonneg pk now) (asSecs_nonneg _)), ?_⟩
    exact spend_le.trans refill_le

theorem bucketsBounded_run {es : List StoreEvent} {g : Inner} (h : Run Step Inner.empty es g) :
    BucketsBounded g :=
  h.invariant bucketsBounded_step bucketsBounded_empty

theorem bucket_after_last_call {es : List StoreEvent} {g : Inner} (h : Run Step Inner.empty es g) (pk : Pubkey) :
    (ownCalls pk es = [] ∧ g.attestBuckets.lookup pk = none) ∨
      ∃ prev b, ((ownCalls pk es).getLast?.bind StoreEvent.call = some (pk, prev)) ∧
        g.attestBuckets.lookup pk = some b ∧ b.last = prev := by
  refine h.reverseInduction (P := fun es g => (ownCalls pk es = [] ∧ g.attestBuckets.lookup pk = none) ∨
      ∃ prev b, ((ownCalls pk es).getLast?.bind StoreEvent.call = some (pk, prev)) ∧
        g.attestBuckets.lookup pk = some b ∧ b.last = prev) (.inl ⟨rfl, by simp [Inner.empty]⟩) ?_
  intro es g e g' _ hstep ih
  have hsplit : ownCalls pk (es ++ [e]) = ownCalls pk es ++ ownCalls pk [e] := List.filter_append es [e]
  cases he : e.isCallOf pk with
  | false =>
    rwa [hsplit, hstep.bucket_eq he, ownCalls_of_other he, List.append_nil]
  | true =>
    obtain ⟨now, allowed, rfl⟩ := isCallOf_iff.mp he
    refine .inr ⟨now, ⟨(spend (g.available pk now)).2, now⟩, ?_, ?_, rfl⟩
    · rw [hsplit, ownCalls_of_own he]
      simp [StoreEvent.call]
    · rw [show g' = (g.allowAttestation pk now).2 by rw [← hstep.allowAttestation_eq],
        Inner.allowAttestation_bucket, if_pos rfl]

theorem one_le_available {es : List StoreEvent} {g : Inner} {pk : Pubkey} {now : Instant}
    (h : Run Step Inner.empty es g)
    (hprev : ∀ prev allowed, (ownCalls pk es).getLast? = some (.allowAttestation pk prev allowed) →
      prev ≤ now ∧ 1 / attestRefillPerSec ≤ Inner.asSecs (now - prev)) : 1 ≤ g.available pk now := by
  rcases bucket_after_last_call h pk with ⟨-, hnone⟩ | ⟨prev, b, hlast, hb, rfl⟩
  · have hfull : g.bucket pk now = ⟨attestBurst, now⟩ := by simp [Inner.bucket, hnone]
    have hsecs : Inner.asSecs (Inner.durationSince now now) = 0 := by
      simp [Inner.asSecs, Inner.durationSince]
    rw [Inner.available, hfull, hsecs, refill, zero_mul, add_zero, min_self]
    exact attestBurst_pos
  · have hbucket : g.bucket pk now = b := by simp [Inner.bucket, hb]
    obtain ⟨e, he, hcall⟩ := Option.bind_eq_some_iff.mp hlast
    have helapsed : 1 / attestRefillPerSec ≤ Inner.asSecs (Inner.durationSince now b.last) := by
      cases e with
      | allowAttestation pk' prev' allowed =>
        cases hcall
        exact (hprev _ _ he).2
      | _ => cases hcall
    rw [Inner.available, hbucket]
    refine one_le_refill attestBurst_pos (bucketsBounded_run h pk b hb).1 ?_
    rwa [div_le_iff₀ attestRefillPerSec_pos] at helapsed

/-- The limiter over every run of the store, with exact rationals for its tokens. -/
theorem limiter_isolates_pubkeys {es : List StoreEvent} {g : Inner} (h : Run Step Inner.empty es g) (pk : Pubkey) :
    -- the answers to `pk` are those of the run with everything else deleted
    ((∃ g', Run Step Inner.empty (ownCalls pk es) g') ∧
      ∀ es' g', Run Step Inner.empty es' g' → es'.map StoreEvent.call = (ownCalls pk es).map StoreEvent.call →
        answers pk es' = answers pk es) ∧
    -- its bucket is never below zero nor above the burst
    (∀ b, g.attestBuckets.lookup pk = some b → 0 ≤ b.tokens ∧ b.tokens ≤ attestBurst) ∧
    -- the first call, and any call a refill period after the one before, is admitted
    (∀ pre now allowed post, es = pre ++ .allowAttestation pk now allowed :: post →
      (∀ prev allowed', (ownCalls pk pre).getLast? = some (.allowAttestation pk prev allowed') →
        prev ≤ now ∧ 1 / attestRefillPerSec ≤ Inner.asSecs (now - prev)) →
      allowed = true) := by
  refine ⟨⟨?_, ?_⟩, bucketsBounded_run h pk, ?_⟩
  · obtain ⟨g', hrun, -⟩ := run_ownCalls h pk
    exact ⟨g', hrun⟩
  · intro es' g' h' hcalls
    obtain ⟨g₀, hrun, -⟩ := run_ownCalls h pk
    have heq := answers_determined hrun h' hcalls ?_
    · rw [heq, answers_ownCalls]
    · intro e he
      obtain ⟨now, allowed, rfl⟩ := isCallOf_iff.mp (List.mem_filter.mp he).2
      simp [StoreEvent.call]
  · rintro pre now allowed post rfl hprev
    obtain ⟨a, hpre, hrest⟩ := Run.append_iff.mp h
    obtain ⟨b, hstep, -⟩ := Run.cons_iff.mp hrest
    have hone : 1 ≤ a.available pk now := one_le_available hpre hprev
    have hanswer := congrArg Prod.fst hstep.allowAttestation_eq
    rw [Inner.allowAttestation_eq, spend_of_one_le hone] at hanswer
    exact hanswer

theorem limiter_isolates_pubkeys_two_members :
    let pk : Pubkey := Vector.replicate 65 4
    let other : Pubkey := Vector.replicate 65 5
    let es : List StoreEvent := [.allowAttestation pk 0 true, .allowAttestation other 0 true,
      .allowAttestation pk 10000000000 true]
    ∃ g, Run Step Inner.empty es g ∧ (∃ g', Run Step Inner.empty (ownCalls pk es) g') ∧
      ∀ b, g.attestBuckets.lookup pk = some b → 0 ≤ b.tokens ∧ b.tokens ≤ attestBurst := by
  intro pk other es
  let g₁ := (Inner.empty.allowAttestation pk 0).2
  let g₂ := (g₁.allowAttestation other 0).2
  have h₁ : (Inner.empty.allowAttestation pk 0).1 = true := by decide +kernel
  have h₂ : (g₁.allowAttestation other 0).1 = true := by decide +kernel
  have h₃ : (g₂.allowAttestation pk 10000000000).1 = true := by decide +kernel
  have s₁ := Step.allowAttestation Inner.empty pk 0
  have s₂ := Step.allowAttestation g₁ other 0
  have s₃ := Step.allowAttestation g₂ pk 10000000000
  rw [h₁] at s₁
  rw [h₂] at s₂
  rw [h₃] at s₃
  have hrun : Run Step Inner.empty es _ := .cons s₁ (.cons s₂ (.single s₃))
  exact ⟨_, hrun, (limiter_isolates_pubkeys hrun pk).1.1, (limiter_isolates_pubkeys hrun pk).2.1⟩

end IronInstance
