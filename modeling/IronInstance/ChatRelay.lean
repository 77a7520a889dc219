import IronInstance.Chat
import IronInstance.Liveness

/-!
# The relay task of a chat stream

The task runs beside every other request. Its three kinds of steps (receive a
frame, look the bearer up, send) are separate, and between any two of them the
store may change, the client may read a chunk or hang up. `relay_path` lists once
what the task can have done so far; each guarantee of the relay is read off it.
-/

namespace IronInstance
open Programs Runs
set_option autoImplicit false

def channelCapacity : Nat := 16

structure RelayShared where
  store : Inner
  buffered : Nat
  connected : Bool

inductive RelayEnv where
  | store (e : StoreEvent)
  | read
  | hangUp

/-- A send waits for room in the channel and fails once the receiver is gone. -/
inductive RelayExec : RelayShared → (o : Op) → Ans o → RelayShared → Prop where
  | frame (s : RelayShared) : RelayExec s .frame () s
  | containsToken (s : RelayShared) (token : String) :
      RelayExec s (.containsToken token) (s.store.containsToken token) s
  | sent {s : RelayShared} (chunk : Chunk) (hc : s.connected = true) (hb : s.buffered < channelCapacity) :
      RelayExec s (.send chunk) true { s with buffered := s.buffered + 1 }
  | closed {s : RelayShared} (chunk : Chunk) (hc : s.connected = false) : RelayExec s (.send chunk) false s

inductive RelayMove : RelayShared → RelayEnv → RelayShared → Prop where
  | store {s : RelayShared} {e : StoreEvent} {g : Inner} (h : Step s.store e g) :
      RelayMove s (.store e) { s with store := g }
  | read {s : RelayShared} (h : 0 < s.buffered) : RelayMove s .read { s with buffered := s.buffered - 1 }
  | hangUp (s : RelayShared) : RelayMove s .hangUp { s with connected := false }

abbrev RelayState := Solo RelayShared Op Ans Unit

abbrev RelayEvent := SoloEvent Op Ans RelayEnv

abbrev RelayStep : RelayState → RelayEvent → RelayState → Prop := SoloStep RelayExec RelayMove

def RelayState.start (g : Inner) (token : String) (events : List BodyEvent) : RelayState :=
  ⟨⟨g, 0, true⟩, relay token events⟩

def RelayEvent.storeEvent? : RelayEvent → Option StoreEvent
  | .env (.store e) => some e
  | _ => none

def storeEvents (es : List RelayEvent) : List StoreEvent := es.filterMap RelayEvent.storeEvent?

theorem storeEvents_append (es fs : List RelayEvent) :
    storeEvents (es ++ fs) = storeEvents es ++ storeEvents fs :=
  List.filterMap_append

/-! ## What was sent -/

def sentChunk : Performed Op Ans → Option Chunk
  | ⟨.send chunk, true⟩ => some chunk
  | _ => none

def sent (cs : List (Performed Op Ans)) : List Chunk := cs.filterMap sentChunk

def Chunk.relayed? : Chunk → Option (List UInt8)
  | .relayed bytes => some bytes
  | .revoked => none

def BodyEvent.data? : BodyEvent → Option (List UInt8)
  | .data bytes => some bytes
  | _ => none

def dataFrames (events : List BodyEvent) : List (List UInt8) := events.filterMap BodyEvent.data?

def received (cs : List (Performed Op Ans)) : Nat := cs.countP fun c => decide (c.1 = .frame)

theorem sent_append (cs ds : List (Performed Op Ans)) : sent (cs ++ ds) = sent cs ++ sent ds :=
  List.filterMap_append

theorem received_append (cs ds : List (Performed Op Ans)) :
    received (cs ++ ds) = received cs + received ds :=
  List.countP_append

/-! ## The paths of the relay -/

section Paths
variable (token : String)

def cutStream : Handler Unit := .call (.send .revoked) fun _ => .pure ()

def relaySend (bytes : List UInt8) (rest : List BodyEvent) : Handler Unit :=
  .call (.send (.relayed bytes)) fun ok => if ok then relay token rest else .pure ()

def relayCheck (bytes : List UInt8) (rest : List BodyEvent) : Handler Unit :=
  .call (.containsToken token) fun live => if live then relaySend token bytes rest else cutStream

theorem relay_nil : relay token [] = .call .frame fun _ => .pure () := rfl

theorem relay_error (rest : List BodyEvent) : relay token (.error :: rest) = .call .frame fun _ => .pure () := rfl

theorem relay_nonData (rest : List BodyEvent) :
    relay token (.nonData :: rest) = .call .frame fun _ => relay token rest := rfl

theorem relay_data (bytes : List UInt8) (rest : List BodyEvent) :
    relay token (.data bytes :: rest) = .call .frame fun _ => relayCheck token bytes rest := by
  unfold relay relayCheck relaySend cutStream Handler.frame Handler.containsToken Handler.send
  simp only [Prog.call_bind, Prog.pure_bind]
  congr 1
  funext _
  congr 1
  funext live
  cases live
  · rfl
  · simp only [Bool.not_true, Bool.false_eq_true, if_false, if_true]
    congr 1
    funext ok
    cases ok <;> rfl

/-- What the task does for an event that it gets past. -/
def passed : BodyEvent → List (Performed Op Ans)
  | .data bytes => [⟨.frame, ()⟩, ⟨.containsToken token, true⟩, ⟨.send (.relayed bytes), true⟩]
  | .nonData => [⟨.frame, ()⟩]
  | .error => []

/-- The events `rest` are still to come, `cs` was done on the first of them, and
`q` is left to do. -/
inductive RelayTail : (rest : List BodyEvent) → (cs : List (Performed Op Ans)) → (q : Handler Unit) → Prop where
  | waiting (rest : List BodyEvent) : RelayTail rest [] (relay token rest)
  | ended : RelayTail [] [⟨.frame, ()⟩] (.pure ())
  | errored (rest : List BodyEvent) : RelayTail (.error :: rest) [⟨.frame, ()⟩] (.pure ())
  | checking (bytes : List UInt8) (rest : List BodyEvent) :
      RelayTail (.data bytes :: rest) [⟨.frame, ()⟩] (relayCheck token bytes rest)
  | sending (bytes : List UInt8) (rest : List BodyEvent) :
      RelayTail (.data bytes :: rest) [⟨.frame, ()⟩, ⟨.containsToken token, true⟩] (relaySend token bytes rest)
  | hungUp (bytes : List UInt8) (rest : List BodyEvent) :
      RelayTail (.data bytes :: rest)
        [⟨.frame, ()⟩, ⟨.containsToken token, true⟩, ⟨.send (.relayed bytes), false⟩] (.pure ())
  | cutting (bytes : List UInt8) (rest : List BodyEvent) :
      RelayTail (.data bytes :: rest) [⟨.frame, ()⟩, ⟨.containsToken token, false⟩] cutStream
  | cut (bytes : List UInt8) (rest : List BodyEvent) (ok : Bool) :
      RelayTail (.data bytes :: rest)
        [⟨.frame, ()⟩, ⟨.containsToken token, false⟩, ⟨.send .revoked, ok⟩] (.pure ())

theorem relay_cases {event : BodyEvent} {rest : List BodyEvent} {cs : List (Performed Op Ans)}
    {q : Handler Unit} (h : Follows (relay token (event :: rest)) cs q) :
    RelayTail token (event :: rest) cs q ∨
      event ≠ .error ∧ ∃ ds, cs = passed token event ++ ds ∧ Follows (relay token rest) ds q := by
  cases event with
  | error =>
    rw [relay_error, Follows.call_iff] at h
    rcases h with ⟨rfl, rfl⟩ | ⟨_, ds, rfl, h⟩
    · exact .inl (relay_error token rest ▸ .waiting _)
    · obtain ⟨rfl, rfl⟩ := Follows.pure_iff.mp h
      exact .inl (.errored rest)
  | nonData =>
    rw [relay_nonData, Follows.call_iff] at h
    rcases h with ⟨rfl, rfl⟩ | ⟨_, ds, rfl, h⟩
    · exact .inl (relay_nonData token rest ▸ .waiting _)
    · exact .inr ⟨by simp, ds, rfl, h⟩
  | data bytes =>
    rw [relay_data, Follows.call_iff] at h
    rcases h with ⟨rfl, rfl⟩ | ⟨_, ds, rfl, h⟩
    · exact .inl (relay_data token bytes rest ▸ .waiting _)
    rw [relayCheck, Follows.call_iff] at h
    rcases h with ⟨rfl, rfl⟩ | ⟨live, ds, rfl, h⟩
    · exact .inl (.checking bytes rest)
    cases live with
    | false =>
      rw [if_neg (by simp), cutStream, Follows.call_iff] at h
      rcases h with ⟨rfl, rfl⟩ | ⟨ok, ds, rfl, h⟩
      · exact .inl (.cutting bytes rest)
      · obtain ⟨rfl, rfl⟩ := Follows.pure_iff.mp h
        exact .inl (.cut bytes rest ok)
    | true =>
      rw [if_pos rfl, relaySend, Follows.call_iff] at h
      rcases h with ⟨rfl, rfl⟩ | ⟨ok, ds, rfl, h⟩
      · exact .inl (.sending bytes rest)
      cases ok with
      | false =>
        obtain ⟨rfl, rfl⟩ := Follows.pure_iff.mp h
        exact .inl (.hungUp bytes rest)
      | true => exact .inr ⟨by simp, ds, rfl, h⟩

theorem relay_path {events : List BodyEvent} {cs : List (Performed Op Ans)} {q : Handler Unit}
    (h : Follows (relay token events) cs q) :
    ∃ past rest tail, events = past ++ rest ∧ .error ∉ past ∧ cs = past.flatMap (passed token) ++ tail ∧
      RelayTail token rest tail q := by
  induction events generalizing cs with
  | nil =>
    rw [relay_nil, Follows.call_iff] at h
    rcases h with ⟨rfl, rfl⟩ | ⟨_, ds, rfl, h⟩
    · exact ⟨[], [], [], rfl, by simp, rfl, .waiting []⟩
    · obtain ⟨rfl, rfl⟩ := Follows.pure_iff.mp h
      exact ⟨[], [], _, rfl, by simp, rfl, .ended⟩
  | cons event rest ih =>
    rcases relay_cases token h with htail | ⟨hne, ds, rfl, hds⟩
    · exact ⟨[], event :: rest, cs, rfl, by simp, rfl, htail⟩
    · obtain ⟨past, rest', tail, rfl, hpast, rfl, htail⟩ := ih hds
      refine ⟨event :: past, rest', tail, rfl, ?_, by simp, htail⟩
      simp only [List.mem_cons, not_or]
      exact ⟨hne.symm, hpast⟩

/-! ## Reading a path -/

theorem sent_passed {past : List BodyEvent} :
    sent (past.flatMap (passed token)) = (dataFrames past).map .relayed := by
  induction past with
  | nil => rfl
  | cons event past ih =>
    rw [List.flatMap_cons, sent_append, ih]
    cases event <;> rfl

theorem received_passed {past : List BodyEvent} (h : .error ∉ past) :
    received (past.flatMap (passed token)) = past.length := by
  induction past with
  | nil => rfl
  | cons event past ih =>
    rw [List.flatMap_cons, received_append, ih fun hm => h (List.mem_cons_of_mem _ hm), List.length_cons,
      Nat.add_comm]
    cases event with
    | error => exact absurd List.mem_cons_self h
    | nonData => rfl
    | data bytes => rfl

theorem passed_of_mem {past : List BodyEvent} {c : Performed Op Ans} (h : c ∈ past.flatMap (passed token)) :
    c = ⟨.frame, ()⟩ ∨ c = ⟨.containsToken token, true⟩ ∨ ∃ bytes, c = ⟨.send (.relayed bytes), true⟩ := by
  obtain ⟨event, -, hc⟩ := List.mem_flatMap.mp h
  cases event with
  | error => cases hc
  | nonData => exact .inl (List.mem_singleton.mp hc)
  | data bytes =>
    simp only [passed, List.mem_cons, List.not_mem_nil, or_false] at hc
    rcases hc with hc | hc | hc
    · exact .inl hc
    · exact .inr (.inl hc)
    · exact .inr (.inr ⟨bytes, hc⟩)

theorem dataFrames_append (past rest : List BodyEvent) :
    dataFrames (past ++ rest) = dataFrames past ++ dataFrames rest :=
  List.filterMap_append

/-- Frames go out unaltered and in order, and a cut is the last thing sent. -/
theorem sent_of_follows {events : List BodyEvent} {cs : List (Performed Op Ans)} {q : Handler Unit}
    (h : Follows (relay token events) cs q) :
    ∃ n, sent cs = ((dataFrames events).take n).map .relayed ∨
      sent cs = ((dataFrames events).take n).map .relayed ++ [.revoked] ∧ q = .pure () := by
  obtain ⟨past, rest, tail, rfl, -, rfl, htail⟩ := relay_path token h
  refine ⟨(dataFrames past).length, ?_⟩
  rw [dataFrames_append, List.take_left, sent_append, sent_passed]
  cases htail with
  | cut bytes rest ok =>
    cases ok with
    | false => exact .inl (by simp [sent, sentChunk])
    | true => exact .inr ⟨rfl, rfl⟩
  | _ => exact .inl (by simp [sent, sentChunk])

/-- The cut mark has been handed over, or is what the task is about to hand over. -/
def Produced (cs : List (Performed Op Ans)) (q : Handler Unit) : Prop :=
  (∃ ok, ⟨.send .revoked, ok⟩ ∈ cs) ∨ ∃ k, q = .call (.send .revoked) k

theorem not_produced_passed {past : List BodyEvent} {ok : Bool} :
    ⟨.send .revoked, ok⟩ ∉ past.flatMap (passed token) := by
  intro h
  rcases passed_of_mem token h with h | h | ⟨bytes, h⟩ <;> cases h

theorem not_dead_passed {past : List BodyEvent} : ⟨.containsToken token, false⟩ ∉ past.flatMap (passed token) := by
  intro h
  rcases passed_of_mem token h with h | h | ⟨bytes, h⟩ <;> cases h

theorem relay_ne_send (rest : List BodyEvent) (chunk : Chunk) (k : Bool → Handler Unit) :
    relay token rest ≠ .call (.send chunk) k := by
  rcases rest with _ | ⟨_ | _ | _, rest⟩
  all_goals
    intro h
    injection h with ho
    cases ho

theorem produced_iff {events : List BodyEvent} {cs : List (Performed Op Ans)} {q : Handler Unit}
    (h : Follows (relay token events) cs q) : Produced cs q ↔ ⟨.containsToken token, false⟩ ∈ cs := by
  obtain ⟨past, rest, tail, rfl, -, rfl, htail⟩ := relay_path token h
  simp only [Produced, List.mem_append, not_produced_passed, not_dead_passed, false_or]
  cases htail with
  | waiting rest => simpa using relay_ne_send token rest .revoked
  | cutting bytes rest => exact iff_of_true (.inr ⟨_, rfl⟩) (by simp)
  | cut bytes rest ok => exact iff_of_true (.inl ⟨ok, by simp⟩) (by simp)
  | _ => simp [relayCheck, relaySend]

theorem frame_before_check {events : List BodyEvent} {cs : List (Performed Op Ans)} {k : Bool → Handler Unit}
    {t : String} (h : Follows (relay token events) cs (.call (.containsToken t) k)) :
    ∃ bytes, (events.take (received cs)).getLast? = some (.data bytes) := by
  generalize hq : (Prog.call (.containsToken t) k : Handler Unit) = q at h
  obtain ⟨past, rest, tail, rfl, hpast, rfl, htail⟩ := relay_path token h
  rw [received_append, received_passed token hpast]
  cases htail with
  | waiting rest =>
    rcases rest with _ | ⟨_ | _ | _, rest⟩
    all_goals
      injection hq with ho
      cases ho
  | checking bytes rest =>
    refine ⟨bytes, ?_⟩
    have htake : (past ++ .data bytes :: rest).take (past.length + 1) = past ++ [.data bytes] := by
      simp [List.take_append]
    rw [show received [⟨.frame, ()⟩] = 1 from rfl, htake]
    simp
  | sending bytes rest =>
    injection hq with ho
    cases ho
  | cutting bytes rest =>
    injection hq with ho
    cases ho
  | _ => cases hq

theorem nothing_relayed_of_dead {events : List BodyEvent} {cs : List (Performed Op Ans)} {q : Handler Unit}
    (h : Follows (relay token events) cs q) (hdead : ⟨.containsToken token, true⟩ ∉ cs) :
    (sent cs).filterMap Chunk.relayed? = [] := by
  obtain ⟨past, rest, tail, rfl, -, rfl, htail⟩ := relay_path token h
  have hpast : dataFrames past = [] := by
    rw [dataFrames, List.filterMap_eq_nil_iff]
    intro event hmem
    cases event with
    | data bytes =>
      refine absurd (List.mem_append_left _ (List.mem_flatMap.mpr ⟨_, hmem, ?_⟩)) hdead
      simp [passed]
    | _ => rfl
  rw [sent_append, sent_passed, hpast]
  cases htail with
  | cut bytes rest ok => cases ok <;> rfl
  | _ => rfl

theorem nothing_relayed_of_cut {cs : List (Performed Op Ans)} {q : Handler Unit} (h : Follows cutStream cs q) :
    (sent cs).filterMap Chunk.relayed? = [] := by
  rw [cutStream, Follows.call_iff] at h
  rcases h with ⟨rfl, -⟩ | ⟨ok, ds, rfl, h⟩
  · rfl
  · obtain ⟨rfl, -⟩ := Follows.pure_iff.mp h
    cases ok <;> rfl

/-- From any point of a path on which every later lookup fails, only the frame already
checked can still be relayed. -/
theorem relayed_after_dead {rest : List BodyEvent} {tail cs : List (Performed Op Ans)} {q q' : Handler Unit}
    (htail : RelayTail token rest tail q) (h : Follows q cs q') (hdead : ⟨.containsToken token, true⟩ ∉ cs) :
    (sent cs).filterMap Chunk.relayed? = [] ∨
      ∃ bytes k, q = .call (.send (.relayed bytes)) k ∧ (sent cs).filterMap Chunk.relayed? = [bytes] := by
  cases htail with
  | waiting rest => exact .inl (nothing_relayed_of_dead token h hdead)
  | checking bytes rest =>
    rw [relayCheck, Follows.call_iff] at h
    rcases h with ⟨rfl, -⟩ | ⟨live, ds, rfl, h⟩
    · exact .inl rfl
    cases live with
    | true => exact absurd List.mem_cons_self hdead
    | false =>
      rw [if_neg (by simp)] at h
      have hcut := nothing_relayed_of_cut h
      exact .inl hcut
  | sending bytes rest =>
    rw [relaySend, Follows.call_iff] at h
    rcases h with ⟨rfl, -⟩ | ⟨ok, ds, rfl, h⟩
    · exact .inl rfl
    cases ok with
    | false =>
      obtain ⟨rfl, -⟩ := Follows.pure_iff.mp h
      exact .inl rfl
    | true =>
      have hlater := nothing_relayed_of_dead token h fun hm => hdead (List.mem_cons_of_mem _ hm)
      refine .inr ⟨bytes, _, rfl, ?_⟩
      rw [← List.singleton_append, sent_append, List.filterMap_append, hlater]
      rfl
  | cutting bytes rest => exact .inl (nothing_relayed_of_cut h)
  | _ =>
    obtain ⟨rfl, -⟩ := Follows.pure_iff.mp h
    exact .inl rfl

/-- A task that is done, was never cut, never met an error and never lost its
client has relayed everything. -/
theorem sent_all_of_done {events : List BodyEvent} {cs : List (Performed Op Ans)}
    (h : Follows (relay token events) cs (.pure ())) (herror : .error ∉ events)
    (hlive : ⟨.containsToken token, false⟩ ∉ cs) (hconn : ∀ chunk, ⟨.send chunk, false⟩ ∉ cs) :
    sent cs = (dataFrames events).map .relayed := by
  generalize hq : (Prog.pure () : Handler Unit) = q at h
  obtain ⟨past, rest, tail, rfl, -, rfl, htail⟩ := relay_path token h
  cases htail with
  | waiting rest => rcases rest with _ | ⟨_ | _ | _, rest⟩ <;> cases hq
  | ended =>
    rw [sent_append, sent_passed, List.append_nil]
    exact List.append_nil _
  | errored rest => exact absurd (by simp) herror
  | checking bytes rest => cases hq
  | sending bytes rest => cases hq
  | hungUp bytes rest => exact absurd (by simp) (hconn (.relayed bytes))
  | cutting bytes rest => cases hq
  | cut bytes rest ok => exact absurd (by simp) hlive

end Paths

/-! ## The relay in its surroundings -/

section Runs
variable {token : String} {s t : RelayState} {es : List RelayEvent}

theorem storeRun_of_run (h : Run RelayStep s es t) : Run Step s.shared.store (storeEvents es) t.shared.store := by
  induction h with
  | nil s => exact .nil _
  | cons hstep _ ih =>
    cases hstep with
    | perform hexec => cases hexec <;> exact ih
    | env hmove =>
      cases hmove with
      | store hs => exact .cons hs ih
      | read _ => exact ih
      | hangUp => exact ih

theorem answer_of_check {live : Bool} (h : RelayStep s (.perform (.containsToken token) live) t) :
    s.shared.store.containsToken token = live := by
  cases h with
  | perform hexec => cases hexec; rfl

theorem closed_of_failed_send {chunk : Chunk} (h : RelayStep s (.perform (.send chunk) false) t) :
    t.shared.connected = false := by
  cases h with
  | perform hexec =>
    cases hexec with
    | closed _ hc => exact hc

theorem stays_closed (h : Run RelayStep s es t) (hs : s.shared.connected = false) :
    t.shared.connected = false := by
  refine h.invariant (P := fun s => s.shared.connected = false) ?_ hs
  intro a e b hstep ha
  cases hstep with
  | perform hexec =>
    cases hexec with
    | sent _ hc _ => exact ha
    | _ => exact ha
  | env hmove =>
    cases hmove with
    | hangUp => rfl
    | _ => exact ha

theorem no_failed_send (h : Run RelayStep s es t) (ht : t.shared.connected = true) (chunk : Chunk) :
    ⟨.send chunk, false⟩ ∉ Solo.performed es := by
  intro hm
  obtain ⟨pre, post, a, b, rfl, -, hstep, hpost⟩ := h.split_at (Solo.mem_performed.mp hm)
  have hclosed := stays_closed hpost (closed_of_failed_send hstep)
  rw [ht] at hclosed
  exact Bool.noConfusion hclosed

theorem lookups_fail {hist : List StoreEvent} {pre post : List RelayEvent} {g : Inner}
    (hg : Run Step Inner.empty hist g) (hs : Run Step g (storeEvents pre) s.shared.store)
    (h : Run RelayStep s post t) (hd : (insertedTokens (hist ++ storeEvents (pre ++ post))).Nodup)
    (hin : token ∈ insertedTokens (hist ++ storeEvents pre))
    (hdead : s.shared.store.containsToken token = false) :
    ⟨.containsToken token, true⟩ ∉ Solo.performed post := by
  intro hm
  obtain ⟨mid, rest, a, b, rfl, hmid, hstep, -⟩ := h.split_at (Solo.mem_performed.mp hm)
  rw [storeEvents_append, storeEvents_append, ← List.append_assoc, ← List.append_assoc,
    insertedTokens_append, List.nodup_append] at hd
  have hlater := dead_stays_dead (hg.append hs) (storeRun_of_run hmid) hd.1 hin hdead
  rw [answer_of_check hstep] at hlater
  exact Bool.noConfusion hlater

theorem no_dead_lookup (h : Run RelayStep s es t)
    (hlive : ∀ pre post a, es = pre ++ post → Run RelayStep s pre a → Run RelayStep a post t →
      a.shared.store.containsToken token = true) :
    ⟨.containsToken token, false⟩ ∉ Solo.performed es := by
  intro hm
  obtain ⟨pre, post, a, b, heq, hpre, hstep, hpost⟩ := h.split_at (Solo.mem_performed.mp hm)
  have hhere := hlive pre _ a heq hpre (.cons hstep hpost)
  rw [answer_of_check hstep] at hhere
  exact Bool.noConfusion hhere

theorem no_dead_lookup_of_still (h : Run RelayStep s es t) (hstill : storeEvents es = [])
    (hlive : s.shared.store.containsToken token = true) :
    ⟨.containsToken token, false⟩ ∉ Solo.performed es := by
  refine no_dead_lookup h ?_
  rintro pre post a rfl hpre -
  rw [storeEvents_append, List.append_eq_nil_iff] at hstill
  have hstore := storeRun_of_run hpre
  rw [hstill.1, Run.nil_iff] at hstore
  rwa [← hstore]

/-! ### Progress -/

theorem buffered_le (h : Run RelayStep s es t) (hs : s.shared.buffered ≤ channelCapacity) :
    t.shared.buffered ≤ channelCapacity := by
  refine h.invariant (P := fun s => s.shared.buffered ≤ channelCapacity) ?_ hs
  intro a e b hstep ha
  cases hstep with
  | perform hexec =>
    cases hexec with
    | sent _ _ hb => exact hb
    | _ => exact ha
  | env hmove =>
    cases hmove with
    | read _ => exact (Nat.sub_le _ _).trans ha
    | _ => exact ha

def CanFinish (s : RelayState) : Prop :=
  ∃ es t, Run RelayStep s es t ∧ t.prog = .pure () ∧ t.shared.connected = true ∧ storeEvents es = []

theorem CanFinish.after {e : RelayEvent} (hstep : RelayStep s e t) (he : e.storeEvent? = none)
    (h : CanFinish t) : CanFinish s := by
  obtain ⟨es, u, hrun, hdone, hconn, hes⟩ := h
  exact ⟨e :: es, u, .cons hstep hrun, hdone, hconn, by simp [storeEvents, he, ← hes]⟩

structure Undisturbed (token : String) (sh : RelayShared) : Prop where
  live : sh.store.containsToken token = true
  connected : sh.connected = true
  room : sh.buffered ≤ channelCapacity

section Finishing
variable {rest : List BodyEvent} {sh : RelayShared} {bytes : List UInt8}

theorem canFinish_send (hrest : ∀ {sh}, Undisturbed token sh → CanFinish ⟨sh, relay token rest⟩)
    (h : Undisturbed token sh) : CanFinish ⟨sh, relaySend token bytes rest⟩ := by
  have hsend : ∀ {sh : RelayShared}, Undisturbed token sh → sh.buffered < channelCapacity →
      CanFinish ⟨sh, relaySend token bytes rest⟩ := by
    intro sh h hb
    exact .after (.perform (.sent _ h.connected hb)) rfl (hrest ⟨h.live, h.connected, hb⟩)
  by_cases hb : sh.buffered < channelCapacity
  · exact hsend h hb
  · -- the channel is full: the client has to take a chunk out first
    have hpos : 0 < sh.buffered := by
      simp only [channelCapacity] at hb
      omega
    have hroom : sh.buffered - 1 < channelCapacity := by
      have := h.room
      omega
    exact .after (.env (.read hpos)) rfl (hsend ⟨h.live, h.connected, hroom.le⟩ hroom)

theorem canFinish_check (hrest : ∀ {sh}, Undisturbed token sh → CanFinish ⟨sh, relay token rest⟩)
    (h : Undisturbed token sh) : CanFinish ⟨sh, relayCheck token bytes rest⟩ := by
  have hexec := RelayExec.containsToken sh token
  rw [h.live] at hexec
  exact .after (.perform hexec) rfl (canFinish_send hrest h)

theorem canFinish_relay (h : Undisturbed token sh) : CanFinish ⟨sh, relay token rest⟩ := by
  have hdone : CanFinish ⟨sh, .pure ()⟩ := ⟨[], _, .nil _, rfl, h.connected, rfl⟩
  induction rest generalizing sh with
  | nil => exact .after (.perform (.frame sh)) rfl hdone
  | cons event rest ih =>
    have hrest : ∀ {sh}, Undisturbed token sh → CanFinish ⟨sh, relay token rest⟩ :=
      fun h => ih h ⟨[], _, .nil _, rfl, h.connected, rfl⟩
    cases event with
    | error => exact .after (.perform (.frame sh)) rfl hdone
    | nonData => exact .after (.perform (.frame sh)) rfl (hrest h)
    | data bytes =>
      rw [relay_data]
      exact .after (.perform (.frame sh)) rfl (canFinish_check hrest h)

end Finishing

theorem canFinish_of_tail {rest : List BodyEvent} {tail : List (Performed Op Ans)} {q : Handler Unit}
    {sh : RelayShared} (htail : RelayTail token rest tail q) (hlive : ⟨.containsToken token, false⟩ ∉ tail)
    (h : Undisturbed token sh) : CanFinish ⟨sh, q⟩ := by
  cases htail with
  | waiting rest => exact canFinish_relay h
  | checking bytes rest => exact canFinish_check canFinish_relay h
  | sending bytes rest => exact canFinish_send canFinish_relay h
  | cutting bytes rest => exact absurd (by simp) hlive
  | _ => exact ⟨[], _, .nil _, rfl, h.connected, rfl⟩

section Started
variable {g : Inner} {events : List BodyEvent}

theorem produced_iff_dead_lookup (h : Run RelayStep (.start g token events) es s) :
    Produced (Solo.performed es) s.prog ↔
      ∃ pre live post a bytes, es = pre ++ .perform (.containsToken token) live :: post ∧
        Run RelayStep (.start g token events) pre a ∧
        Run RelayStep a (.perform (.containsToken token) live :: post) s ∧
        (events.take (received (Solo.performed pre))).getLast? = some (.data bytes) ∧
        a.shared.store.containsToken token = false := by
  rw [produced_iff token (Solo.follows h), Solo.mem_performed]
  constructor
  · intro hm
    obtain ⟨pre, post, a, b, heq, hpre, hstep, hpost⟩ := h.split_at hm
    have hdead := answer_of_check hstep
    obtain ⟨bytes, hbytes⟩ : ∃ bytes, (events.take (received (Solo.performed pre))).getLast? = some (.data bytes) := by
      cases hstep with
      | perform _ => exact frame_before_check token (Solo.follows hpre)
    exact ⟨pre, false, post, a, bytes, heq, hpre, .cons hstep hpost, hbytes, hdead⟩
  · rintro ⟨pre, live, post, a, bytes, rfl, -, hrest, -, hdead⟩
    obtain ⟨b, hstep, -⟩ := Run.cons_iff.mp hrest
    rw [answer_of_check hstep] at hdead
    subst hdead
    simp

theorem sent_all_undisturbed (h : Run RelayStep (.start g token events) es s)
    (hnever : ⟨.containsToken token, false⟩ ∉ Solo.performed es)
    (hlive : s.shared.store.containsToken token = true) (hconn : s.shared.connected = true)
    (herror : .error ∉ events) :
    ∃ more t, Run RelayStep s more t ∧ t.prog = .pure () ∧ storeEvents more = [] ∧ t.shared.connected = true ∧
      sent (Solo.performed (es ++ more)) = (dataFrames events).map .relayed := by
  obtain ⟨past, rest, tail, -, -, hcs, htail⟩ := relay_path token (Solo.follows h)
  have hfin : CanFinish s := canFinish_of_tail htail
    (fun hm => hnever (hcs ▸ List.mem_append_right _ hm)) ⟨hlive, hconn, buffered_le h (Nat.zero_le _)⟩
  obtain ⟨more, t, hmore, hdone, hconn', hstore⟩ := hfin
  refine ⟨more, t, hmore, hdone, hstore, hconn', ?_⟩
  have hall : Follows (relay token events) (Solo.performed (es ++ more)) t.prog := Solo.follows (h.append hmore)
  rw [hdone] at hall
  refine sent_all_of_done token hall herror ?_ (no_failed_send (h.append hmore) hconn')
  rw [Solo.performed_append, List.mem_append, not_or]
  exact ⟨hnever, no_dead_lookup_of_still hmore hstore hlive⟩

end Started

end Runs

/-- What a relay that starts over any store reached by a run can do, whatever the
other requests and the client do meanwhile. -/
theorem relay_cut_by_revocation {hist : List StoreEvent} {g : Inner} {token : String}
    {events : List BodyEvent} {es : List RelayEvent} {s : RelayState}
    (hg : Run Step Inner.empty hist g) (h : Run RelayStep (.start g token events) es s)
    (hd : (insertedTokens (hist ++ storeEvents es)).Nodup) :
    -- a prefix of the data frames, then possibly one cut mark and nothing more
    (∃ n, sent (Solo.performed es) = ((dataFrames events).take n).map .relayed ∨
      sent (Solo.performed es) = ((dataFrames events).take n).map .relayed ++ [.revoked] ∧
        s.prog = .pure ()) ∧
    -- the mark is produced exactly when a data frame arrived and its lookup found no live bearer
    (Produced (Solo.performed es) s.prog ↔
      ∃ pre live post a bytes, es = pre ++ .perform (.containsToken token) live :: post ∧
        Run RelayStep (.start g token events) pre a ∧
        Run RelayStep a (.perform (.containsToken token) live :: post) s ∧
        (events.take (received (Solo.performed pre))).getLast? = some (.data bytes) ∧
        a.shared.store.containsToken token = false) ∧
    -- a bearer that was inserted and is gone lets at most the frame already checked through
    (∀ pre post a, es = pre ++ post → Run RelayStep (.start g token events) pre a → Run RelayStep a post s →
      token ∈ insertedTokens (hist ++ storeEvents pre) → a.shared.store.containsToken token = false →
      (sent (Solo.performed post)).filterMap Chunk.relayed? = [] ∨
        ∃ bytes k, a.prog = .call (.send (.relayed bytes)) k ∧
          (sent (Solo.performed post)).filterMap Chunk.relayed? = [bytes]) ∧
    -- undisturbed, the task gets to its end, and then every data frame was sent
    ((∀ pre post a, es = pre ++ post → Run RelayStep (.start g token events) pre a →
        Run RelayStep a post s → a.shared.store.containsToken token = true) →
      s.shared.connected = true → .error ∉ events →
      (s.prog = .pure () → sent (Solo.performed es) = (dataFrames events).map .relayed) ∧
      ∃ more t, Run RelayStep s more t ∧ t.prog = .pure () ∧ storeEvents more = [] ∧
        t.shared.connected = true ∧
        sent (Solo.performed (es ++ more)) = (dataFrames events).map .relayed) := by
  have hpath : Follows (relay token events) (Solo.performed es) s.prog := Solo.follows h
  refine ⟨sent_of_follows token hpath, produced_iff_dead_lookup h, ?_, ?_⟩
  · rintro pre post a rfl hpre hpost hin hdead
    obtain ⟨past, rest, tail, -, -, -, htail⟩ := relay_path token (Solo.follows hpre)
    exact relayed_after_dead token htail (Solo.follows hpost)
      (lookups_fail hg (storeRun_of_run hpre) hpost hd hin hdead)
  · intro hlive hconn herror
    have hnever := no_dead_lookup h hlive
    have hhere : s.shared.store.containsToken token = true := hlive es [] s (by simp) h (.nil s)
    refine ⟨fun hdone => ?_, sent_all_undisturbed h hnever hhere hconn herror⟩
    rw [hdone] at hpath
    exact sent_all_of_done token hpath herror hnever (no_failed_send h hconn)

/-- A revoke between the lookup and the send of the first frame: that frame still
goes out, the second one is replaced by the cut mark. -/
theorem relay_cut_by_revocation_mid_stream :
    let entry : MemberEntry := ⟨Vector.replicate 65 4, Vector.replicate 32 7, "b0", "tx-1"⟩
    let g := (Inner.empty.insert entry).2
    let events : List BodyEvent := [.data [1], .data [2]]
    let es : List RelayEvent := [.perform .frame (), .perform (.containsToken "b0") true,
      .env (.store (.revokeByMemberHash entry.memberHash (some entry.clientPubkey))),
      .perform (.send (.relayed [1])) true, .perform .frame (), .perform (.containsToken "b0") false,
      .perform (.send .revoked) true]
    ∃ s, Run RelayStep (.start g "b0" events) es s ∧
      sent (Solo.performed es) = [.relayed [1], .revoked] ∧
      ∃ n, sent (Solo.performed es) = ((dataFrames events).take n).map .relayed ∨
        sent (Solo.performed es) = ((dataFrames events).take n).map .relayed ++ [.revoked] ∧
          s.prog = .pure () := by
  intro entry g events es
  have hg : Run Step Inner.empty [.insert entry] g := .single (.insert _ _)
  have hrevoke : Step g (.revokeByMemberHash entry.memberHash (some entry.clientPubkey))
      (g.removeMember entry.clientPubkey) :=
    Step.revoke_of_match (m := ⟨entry.memberHash, entry.originalTxId, ["b0"]⟩) (by decide +kernel) rfl
  have hlive : g.containsToken "b0" = true := by decide +kernel
  have hdead : (g.removeMember entry.clientPubkey).containsToken "b0" = false := by decide +kernel
  have hlookup : RelayExec ⟨g, 0, true⟩ (.containsToken "b0") true ⟨g, 0, true⟩ :=
    hlive ▸ RelayExec.containsToken _ "b0"
  have hmiss : RelayExec ⟨g.removeMember entry.clientPubkey, 1, true⟩ (.containsToken "b0") false
      ⟨g.removeMember entry.clientPubkey, 1, true⟩ :=
    hdead ▸ RelayExec.containsToken _ "b0"
  have hrun : Run RelayStep (.start g "b0" events) es ⟨⟨g.removeMember entry.clientPubkey, 2, true⟩, .pure ()⟩ :=
    .cons (.perform (.frame _)) (.cons (.perform hlookup) (.cons (.env (.store hrevoke))
      (.cons (.perform (.sent _ rfl (by decide))) (.cons (.perform (.frame _)) (.cons (.perform hmiss)
        (.single (.perform (.sent _ rfl (by decide)))))))))
  exact ⟨_, hrun, rfl, (relay_cut_by_revocation hg hrun (by decide)).1⟩

end IronInstance
