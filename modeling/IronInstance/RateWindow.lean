import IronInstance.RateLimit
import IronInstance.Service

/-!
# How often one member is attested

A call of `allow_attestation` reads the clock and then waits for the lock, so calls
may enter in another order than they read. The window bound of a token bucket needs
the bucket's own time to move forward; a call that enters late sets it back, and the
time between is then earned twice.
-/

namespace IronInstance
open FiniteMap Programs Runs TokenBucket
set_option autoImplicit false

/-- A call on `pk` that read the clock in `[s, e]` and was answered true. -/
def ServiceEvent.admits (pk : Pubkey) (s e : Instant) : ServiceEvent → Bool
  | .perform _ (.allowAttestation pk' now) allowed => allowed && decide (pk' = pk ∧ s ≤ now ∧ now ≤ e)
  | _ => false

def admitted (pk : Pubkey) (s e : Instant) (es : List ServiceEvent) : Nat := es.countP (ServiceEvent.admits pk s e)

def WindowBounded (pk : Pubkey) (es : List ServiceEvent) : Prop :=
  ∀ s e, s ≤ e → (admitted pk s e es : Rat) ≤ attestBurst + attestRefillPerSec * Inner.asSecs (e - s)

/-- A call on `pk` enters the lock with a reading no older than the bucket's last refill. -/
def InOrder (pk : Pubkey) (p : ServiceState) : ServiceEvent → Prop
  | .perform _ (.allowAttestation pk' now) _ =>
      pk' = pk → ∀ b, p.shared.store.attestBuckets.lookup pk = some b → b.last ≤ now
  | _ => True

/-! ## The clock in seconds -/

theorem asSecs_le_iff {m n : Nat} : Inner.asSecs m ≤ Inner.asSecs n ↔ m ≤ n := by
  unfold Inner.asSecs
  rw [div_le_div_iff_of_pos_right (by norm_num), Nat.cast_le]

theorem asSecs_sub {m n : Nat} (h : m ≤ n) : Inner.asSecs (n - m) = Inner.asSecs n - Inner.asSecs m := by
  unfold Inner.asSecs
  rw [Nat.cast_sub h, sub_div]

/-! ## One step -/

section Step
variable {P : Primitives} {C : Config P} {pk : Pubkey} {s e : Instant}

theorem admitted_append (es fs : List ServiceEvent) : admitted pk s e (es ++ fs) = admitted pk s e es + admitted pk s e fs :=
  List.countP_append

theorem Exec.bucket_eq {s s' : Shared} {o : Op} {a : Ans o} (h : Exec s o a s')
    (ho : ∀ now, o ≠ .allowAttestation pk now) :
    s'.store.attestBuckets.lookup pk = s.store.attestBuckets.lookup pk := by
  cases h with
  | revokeByMemberHash it hash => simp
  | allowAttestation pk' now =>
    have hne : pk ≠ pk' := by
      rintro rfl
      exact ho now rfl
    rw [Inner.allowAttestation_bucket, if_neg hne]
  | _ => rfl

theorem Exec.allowAttestation_eq {s s' : Shared} {now : Instant} {allowed : Bool}
    (h : Exec s (.allowAttestation pk now) allowed s') :
    allowed = (spend (s.store.available pk now)).1 ∧
      s'.store.attestBuckets.lookup pk = some ⟨(spend (s.store.available pk now)).2, now⟩ := by
  cases h with
  | allowAttestation =>
    rw [Inner.allowAttestation_bucket, if_pos rfl, Inner.allowAttestation_eq]
    exact ⟨rfl, rfl⟩
  | outside _ ho => cases ho

/-- The bucket of `pk` as the ledger sees it. -/
def Inner.held (g : Inner) (pk : Pubkey) : Option (Rat × Rat) :=
  (g.attestBuckets.lookup pk).map fun b => (b.tokens, Inner.asSecs b.last)

def Tracks (pk : Pubkey) (s e : Instant) (es : List ServiceEvent) (p : ServiceState) : Prop :=
  Ledger attestBurst attestRefillPerSec (Inner.asSecs s) (Inner.asSecs e) (admitted pk s e es) (p.shared.store.held pk)

theorem available_eq {g : Inner} {now : Instant} (hnow : ∀ b, g.attestBuckets.lookup pk = some b → b.last ≤ now) :
    g.available pk now = refill attestBurst attestRefillPerSec ((g.held pk).getD (attestBurst, Inner.asSecs now)).1
      (Inner.asSecs now - ((g.held pk).getD (attestBurst, Inner.asSecs now)).2) := by
  unfold Inner.available Inner.bucket Inner.held Inner.durationSince
  cases hb : g.attestBuckets.lookup pk with
  | none => simp [Inner.asSecs]
  | some b => simp [asSecs_sub (hnow b hb)]

theorem admitted_call (id : Nat) (now : Instant) (allowed : Bool) :
    ((admitted pk s e [.perform id (.allowAttestation pk now) allowed] : Nat) : Rat) =
      if allowed = true ∧ Inner.asSecs s ≤ Inner.asSecs now ∧ Inner.asSecs now ≤ Inner.asSecs e then 1 else 0 := by
  simp only [asSecs_le_iff]
  cases allowed <;> by_cases hin : s ≤ now ∧ now ≤ e <;> simp [admitted, ServiceEvent.admits, hin]

theorem tracks_of_quiet {es : List ServiceEvent} {p q : ServiceState} {ev : ServiceEvent}
    (hquiet : ev.admits pk s e = false)
    (hbucket : q.shared.store.attestBuckets.lookup pk = p.shared.store.attestBuckets.lookup pk)
    (h : Tracks pk s e es p) : Tracks pk s e (es ++ [ev]) q := by
  have hcount : admitted pk s e (es ++ [ev]) = admitted pk s e es := by
    rw [admitted_append]
    simp [admitted, hquiet]
  unfold Tracks Inner.held at h ⊢
  rwa [hcount, hbucket]

theorem tracks_call {es : List ServiceEvent} {p q : ServiceState} {id : Nat} {now : Instant} {allowed : Bool}
    (hse : s ≤ e) (hexec : Exec p.shared (.allowAttestation pk now) allowed q.shared)
    (horder : ∀ b, p.shared.store.attestBuckets.lookup pk = some b → b.last ≤ now) (h : Tracks pk s e es p) :
    Tracks pk s e (es ++ [.perform id (.allowAttestation pk now) allowed]) q := by
  obtain ⟨hallowed, hbucket⟩ := Exec.allowAttestation_eq hexec
  have hnow : ∀ c ∈ p.shared.store.held pk, c.2 ≤ Inner.asSecs now := by
    intro c hc
    obtain ⟨b, hb, rfl⟩ := Option.map_eq_some_iff.mp hc
    exact asSecs_le_iff.mpr (horder b hb)
  have hheld : q.shared.store.held pk =
      some ((spend (p.shared.store.available pk now)).2, Inner.asSecs now) := by
    simp [Inner.held, hbucket]
  have hcall := Ledger.call (zero_le_one.trans attestBurst_pos) attestRefillPerSec_pos.le (asSecs_le_iff.mpr hse)
    h hnow (available_eq horder)
  unfold Tracks
  rwa [admitted_append, Nat.cast_add, admitted_call, hallowed, hheld]

theorem tracks_step {es : List ServiceEvent} {p q : ServiceState} {ev : ServiceEvent} (hse : s ≤ e)
    (hstep : ServiceStep C p ev q) (horder : InOrder pk p ev) (h : Tracks pk s e es p) :
    Tracks pk s e (es ++ [ev]) q := by
  cases hstep with
  | spawn _ _ => exact tracks_of_quiet rfl rfl h
  | env henv => exact tracks_of_quiet rfl (by rw [EnvStep.store_eq henv]) h
  | @perform id req done o k a shared hsome hexec =>
    by_cases hown : ∃ now, o = .allowAttestation pk now
    · obtain ⟨now, rfl⟩ := hown
      exact tracks_call hse hexec (horder rfl) h
    · refine tracks_of_quiet ?_ (Exec.bucket_eq hexec (not_exists.mp hown)) h
      cases o with
      | allowAttestation pk' now =>
        have hne : pk' ≠ pk := by
          rintro rfl
          exact hown ⟨now, rfl⟩
        simp [ServiceEvent.admits, hne]
      | _ => rfl

end Step

/-! ## Runs -/

/-- The window bound in every run, whatever the order in which calls enter the lock. -/
def RateHolds {P : Primitives} (C : Config P) : Prop :=
  ∀ es p, Run (ServiceStep C) bootState es p → ∀ pk, WindowBounded pk es

/-- The steps of the service in which no call on `pk` enters the lock late. -/
def OrderedStep {P : Primitives} (C : Config P) (pk : Pubkey) (p : ServiceState) (ev : ServiceEvent)
    (q : ServiceState) : Prop :=
  ServiceStep C p ev q ∧ InOrder pk p ev

theorem windowBounded_of_inOrder {P : Primitives} (C : Config P) (pk : Pubkey) {es : List ServiceEvent}
    {p : ServiceState} (h : Run (OrderedStep C pk) bootState es p) :
    WindowBounded pk es := by
  intro s e hse
  have htracks : Tracks pk s e es p := by
    refine h.reverseInduction (P := fun es p => Tracks pk s e es p) ?_ ?_
    · exact Ledger.fresh
    · intro es p ev q _ hstep htracks
      exact tracks_step hse hstep.1 hstep.2 htracks
  have hcount := Ledger.count_le (zero_le_one.trans attestBurst_pos) attestRefillPerSec_pos.le
    (asSecs_le_iff.mpr hse) htracks
  rwa [← asSecs_sub hse] at hcount

/-! ## A late call -/

theorem bucket_after_call (g : Inner) (pk : Pubkey) (now now' : Instant) :
    (g.allowAttestation pk now).2.bucket pk now' = ⟨(spend (g.available pk now)).2, now⟩ := by
  rw [Inner.bucket, Inner.allowAttestation_bucket, if_pos rfl, Option.getD_some]

theorem allowed_eq (g : Inner) (pk : Pubkey) (now : Instant) :
    (g.allowAttestation pk now).1 = (spend (g.available pk now)).1 := by
  rw [Inner.allowAttestation_eq]

theorem bucket_eq_of_spent {g : Inner} {pk : Pubkey} {now : Instant} (h : (g.bucket pk now).tokens ≠ attestBurst)
    (now' : Instant) : g.bucket pk now' = g.bucket pk now := by
  unfold Inner.bucket at h ⊢
  cases hb : g.attestBuckets.lookup pk with
  | none => simp [hb] at h
  | some b => rfl

/-- A bucket that was refilled at `now` or later has earned nothing. -/
theorem available_of_le {g : Inner} {pk : Pubkey} {now : Instant} (h : now ≤ (g.bucket pk now).last) :
    g.available pk now = min (g.bucket pk now).tokens attestBurst := by
  rw [Inner.available, Inner.durationSince, Nat.sub_eq_zero_of_le h]
  simp [Inner.asSecs, refill]

namespace Synthetic

def ask : Request := ⟨some pubkey, .attestation ⟨none⟩⟩

/-- Tasks from `next` on have not been started, and the member is connected. -/
structure Idle (next : Nat) (p : ServiceState) : Prop where
  free : ∀ id, next ≤ id → p.task id = none
  conn : p.shared.conns 0 = some (some pubkey)

/-- Task `id` has read the clock and waits for the lock. -/
def Waiting (id : Nat) (now : Instant) (p : ServiceState) : Prop :=
  ∃ done k, p.task id = some ⟨ask, done, .call (.allowAttestation pubkey now) k⟩

theorem ask_begins {p : ServiceState} {next : Nat} (h : Idle next p) :
    ∃ q, Run (OrderedStep config pubkey) p [.spawn next ask, .perform next .instantNow p.shared.clock] q ∧
      q.shared = p.shared ∧ Idle (next + 1) q ∧ Waiting next p.shared.clock q ∧
      ∀ id, id < next → q.task id = p.task id := by
  let started : ServiceState :=
    { p with task := Function.update p.task next (some ⟨ask, [], route config ask⟩) }
  have hspawn : ServiceStep config p (.spawn next ask) started := .spawn (h.free next le_rfl) ⟨0, h.conn⟩
  have hstarted : started.task next = some ⟨ask, [], .call .instantNow _⟩ := update_some_iff.mpr (.inl ⟨rfl, rfl⟩)
  have hread : ServiceStep config started (.perform next .instantNow p.shared.clock) _ :=
    .perform hstarted (.instantNow p.shared)
  refine ⟨_, .cons ⟨hspawn, trivial⟩ (.single ⟨hread, trivial⟩), rfl, ⟨?_, h.conn⟩, ?_, ?_⟩
  · intro id hid
    have hne : id ≠ next := by omega
    simp [started, hne, h.free id (by omega)]
  · exact ⟨_, _, update_some_iff.mpr (.inl ⟨rfl, rfl⟩)⟩
  · intro id hid
    have hne : id ≠ next := by omega
    simp [started, hne]

theorem ask_enters {p : ServiceState} {next id : Nat} {now : Instant} (h : Idle next p) (hw : Waiting id now p)
    (hid : id < next) :
    ∃ q, ServiceStep config p
        (.perform id (.allowAttestation pubkey now) (p.shared.store.allowAttestation pubkey now).1) q ∧
      q.shared = { p.shared with store := (p.shared.store.allowAttestation pubkey now).2 } ∧ Idle next q ∧
      ∀ other, other ≠ id → q.task other = p.task other := by
  obtain ⟨done, k, htask⟩ := hw
  refine ⟨_, .perform htask (.allowAttestation p.shared pubkey now), rfl, ⟨?_, h.conn⟩, ?_⟩
  · intro other hother
    have hne : other ≠ id := by omega
    simp [hne, h.free other hother]
  · intro other hne
    simp [hne]

/-- The member's calls of one moment, one after the other, while tokens are left. -/
theorem burst (n : Nat) : ∀ {p : ServiceState} {next : Nat}, (n : Rat) ≤ attestBurst → Idle next p →
    p.shared.store.bucket pubkey p.shared.clock = ⟨n, p.shared.clock⟩ →
    ∃ es q, Run (OrderedStep config pubkey) p es q ∧
      admitted pubkey p.shared.clock p.shared.clock es = n ∧ Idle (next + n) q ∧
      q.shared.clock = p.shared.clock ∧
      q.shared.store.bucket pubkey p.shared.clock = ⟨0, p.shared.clock⟩ ∧
      ∀ id, id < next → q.task id = p.task id := by
  induction n with
  | zero =>
    intro p next _ h hbucket
    exact ⟨[], p, .nil p, rfl, h, rfl, by simpa using hbucket, fun _ _ => rfl⟩
  | succ n ih =>
    intro p next hn h hbucket
    obtain ⟨q, hbegin, hshared, hidle, hwait, hkeep⟩ := ask_begins h
    obtain ⟨r, henter, hshared', hidle', hkeep'⟩ := ask_enters hidle hwait (Nat.lt_succ_self next)
    have havail : p.shared.store.available pubkey p.shared.clock = ((n + 1 : Nat) : Rat) := by
      rw [available_of_le (by rw [hbucket]), hbucket, min_eq_left hn]
    have hspend : spend (p.shared.store.available pubkey p.shared.clock) = (true, (n : Rat)) := by
      rw [havail, spend_of_one_le (by simp)]
      simp
    have hclock : r.shared.clock = p.shared.clock := by rw [hshared', hshared]
    have hbucket' : r.shared.store.bucket pubkey p.shared.clock = ⟨n, p.shared.clock⟩ := by
      rw [hshared', hshared, bucket_after_call, hspend]
    have hn' : (n : Rat) ≤ attestBurst := le_trans (by simp) hn
    obtain ⟨es, s, hrun, hcount, hidle'', hclock', hend, hkeep''⟩ := ih hn' hidle' (by rw [hclock, hbucket'])
    rw [hclock] at hcount hclock' hend
    have horder : InOrder pubkey q (.perform next (.allowAttestation pubkey p.shared.clock)
        (q.shared.store.allowAttestation pubkey p.shared.clock).1) := by
      intro _ b hb
      have hlast : b = ⟨((n + 1 : Nat) : Rat), p.shared.clock⟩ := by
        rw [← hbucket, ← hshared, Inner.bucket, hb, Option.getD_some]
      rw [hlast]
    refine ⟨_, s, hbegin.append (.cons ⟨henter, horder⟩ hrun), ?_, ?_, hclock', hend, ?_⟩
    · have hallowed : (q.shared.store.allowAttestation pubkey p.shared.clock).1 = true := by
        rw [hshared, allowed_eq, hspend]
      rw [hallowed]
      simp only [admitted] at hcount ⊢
      simp [ServiceEvent.admits, hcount]
    · rwa [Nat.add_assoc, Nat.add_comm 1 n] at hidle''
    · intro id hid
      rw [hkeep'' id (by omega), hkeep' id (by omega), hkeep id hid]

theorem idle_connected : Idle 0 connected := ⟨fun _ _ => rfl, connected_conns⟩

end Synthetic

theorem windowBounded_of_inOrder_burst : ∃ es p, Run (OrderedStep Synthetic.config Synthetic.pubkey) bootState es p ∧
    admitted Synthetic.pubkey 0 0 es = 5 ∧ WindowBounded Synthetic.pubkey es := by
  have hconn : Run (OrderedStep Synthetic.config Synthetic.pubkey) bootState _ Synthetic.connected :=
    .single ⟨.env (.handshake rfl Synthetic.verifyClientCert_eq), trivial⟩
  obtain ⟨es, p, hrun, hcount, -⟩ := Synthetic.burst 5 (by norm_num [attestBurst]) Synthetic.idle_connected
    (by decide +kernel)
  have hall := hconn.append hrun
  refine ⟨_, p, hall, ?_, windowBounded_of_inOrder Synthetic.config Synthetic.pubkey hall⟩
  rw [admitted_append]
  exact congrArg (0 + ·) hcount |>.trans (by simp)

namespace Synthetic

def moment : Instant := 100000000000

/-- The first request reads the clock and stalls; a hundred seconds later the member
spends its burst. -/
theorem stalled_run : ∃ es p, Run (ServiceStep config) bootState es p ∧ admitted pubkey moment moment es = 5 ∧
    Idle 6 p ∧ Waiting 0 0 p ∧ p.shared.clock = moment ∧ p.shared.store.bucket pubkey moment = ⟨0, moment⟩ := by
  obtain ⟨p, hbegin, hshared, hidle, ⟨done, k, hwait⟩, -⟩ := ask_begins idle_connected
  let ticked : ServiceState := { p with shared := { p.shared with clock := moment } }
  have htick : ServiceStep config p (.env (.tick moment)) ticked := by
    refine .env (.tick ?_)
    rw [hshared]
    exact Nat.zero_le moment
  have hbucket : ticked.shared.store.bucket pubkey moment = ⟨((5 : Nat) : Rat), moment⟩ := by
    have hstore : ticked.shared.store = Inner.empty := congrArg Shared.store hshared
    rw [hstore]
    decide +kernel
  obtain ⟨es, q, hrun, hcount, hidle', hclock, hend, hkeep⟩ :=
    burst 5 (by norm_num [attestBurst]) (⟨hidle.free, hidle.conn⟩ : Idle 1 ticked) hbucket
  refine ⟨_, q, run_connected.append ((hbegin.mono And.left).append (.cons htick (hrun.mono And.left))), ?_, hidle',
    ⟨done, k, (hkeep 0 Nat.one_pos).trans hwait⟩, hclock, hend⟩
  change admitted pubkey moment moment es = 5 at hcount
  rw [admitted_append, admitted_append]
  simp only [admitted] at hcount ⊢
  simp [ServiceEvent.admits, hcount]

/-- The stalled call enters, is refused, and sets the bucket back. -/
theorem late_run : ∃ es p, Run (ServiceStep config) bootState es p ∧ admitted pubkey moment moment es = 5 ∧
    Idle 6 p ∧ p.shared.clock = moment ∧ p.shared.store.bucket pubkey moment = ⟨0, 0⟩ := by
  obtain ⟨es, p, hrun, hcount, hidle, hwait, hclock, hbucket⟩ := stalled_run
  obtain ⟨q, henter, hshared, hidle', -⟩ := ask_enters hidle hwait (by decide)
  have hsame : p.shared.store.bucket pubkey 0 = ⟨0, moment⟩ := by
    rw [← hbucket]
    exact bucket_eq_of_spent (by norm_num [hbucket, attestBurst]) 0
  have havail : p.shared.store.available pubkey 0 = 0 := by
    rw [available_of_le (Nat.zero_le _), hsame]
    exact min_eq_left (zero_le_one.trans attestBurst_pos)
  refine ⟨_, q, hrun.snoc henter, ?_, hidle', by rw [hshared, hclock], ?_⟩
  · rw [admitted_append, hcount]
    simp [admitted, ServiceEvent.admits, moment]
  · rw [hshared, bucket_after_call, havail]
    rfl

end Synthetic

/-- One more call of that moment is admitted. -/
theorem not_rateHolds : ¬ RateHolds Synthetic.config := by
  obtain ⟨es, p, hrun, hcount, hidle, hclock, hbucket⟩ := Synthetic.late_run
  obtain ⟨q, hbegin, hshared, hidle', hwait, -⟩ := Synthetic.ask_begins hidle
  obtain ⟨r, henter, -⟩ := Synthetic.ask_enters hidle' hwait (Nat.lt_succ_self _)
  have havail : p.shared.store.available Synthetic.pubkey p.shared.clock = 5 := by
    rw [hclock, Inner.available, hbucket]
    norm_num [refill, Inner.durationSince, Inner.asSecs, Synthetic.moment, attestBurst, attestRefillPerSec]
  have hallowed : (q.shared.store.allowAttestation Synthetic.pubkey p.shared.clock).1 = true := by
    rw [hshared, allowed_eq, havail, spend_of_one_le (by norm_num)]
  rw [hallowed] at henter
  have hlast := (hrun.append (hbegin.mono And.left)).snoc henter
  intro hholds
  have hbound := hholds _ r hlast Synthetic.pubkey Synthetic.moment Synthetic.moment le_rfl
  rw [admitted_append, admitted_append, hcount, hclock, Nat.sub_self] at hbound
  norm_num [admitted, ServiceEvent.admits, attestBurst, attestRefillPerSec, Inner.asSecs] at hbound

end IronInstance
