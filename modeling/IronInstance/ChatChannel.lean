import IronInstance.ChatRelay

/-!
# What the client of a chat stream receives

The relay task and the response body are joined by a bounded channel. Here the channel
holds the chunks themselves, in order, and the client takes them out one by one or hangs
up. Every run of it is a run of the relay with a buffer that is only counted, so what is
known of the chunks sent says what the client receives: a prefix, in order, and after
its bearer has died at most what the channel held and the one frame already checked.
-/

namespace IronInstance
open Programs Runs
set_option autoImplicit false

/-- `delivered` is what the client has taken out so far. -/
structure ChannelShared where
  store : Inner
  queue : List Chunk
  delivered : List Chunk
  connected : Bool

inductive ChannelExec : ChannelShared → (o : Op) → Ans o → ChannelShared → Prop where
  | frame (s : ChannelShared) : ChannelExec s .frame () s
  | containsToken (s : ChannelShared) (token : String) :
      ChannelExec s (.containsToken token) (s.store.containsToken token) s
  | sent {s : ChannelShared} (chunk : Chunk) (hc : s.connected = true) (hb : s.queue.length < channelCapacity) :
      ChannelExec s (.send chunk) true { s with queue := s.queue ++ [chunk] }
  | closed {s : ChannelShared} (chunk : Chunk) (hc : s.connected = false) : ChannelExec s (.send chunk) false s

/-- What is still in the channel when the client hangs up is never taken out. -/
inductive ChannelMove : ChannelShared → RelayEnv → ChannelShared → Prop where
  | store {s : ChannelShared} {e : StoreEvent} {g : Inner} (h : Step s.store e g) :
      ChannelMove s (.store e) { s with store := g }
  | read {s : ChannelShared} {chunk : Chunk} {rest : List Chunk} (hc : s.connected = true)
      (hq : s.queue = chunk :: rest) :
      ChannelMove s .read { s with queue := rest, delivered := s.delivered ++ [chunk] }
  | hangUp (s : ChannelShared) : ChannelMove s .hangUp { s with connected := false }

abbrev ChannelState := Solo ChannelShared Op Ans Unit

abbrev ChannelStep : ChannelState → RelayEvent → ChannelState → Prop := SoloStep ChannelExec ChannelMove

def ChannelState.start (g : Inner) (token : String) (events : List BodyEvent) : ChannelState :=
  ⟨⟨g, [], [], true⟩, relay token events⟩

/-! ## The counted buffer above it -/

def ChannelShared.counted (s : ChannelShared) : RelayShared := ⟨s.store, s.queue.length, s.connected⟩

def ChannelState.counted (s : ChannelState) : RelayState := ⟨s.shared.counted, s.prog⟩

theorem ChannelShared.counted_push (s : ChannelShared) (chunk : Chunk) :
    ({ s with queue := s.queue ++ [chunk] } : ChannelShared).counted =
      { s.counted with buffered := s.counted.buffered + 1 } := by
  simp [counted]

theorem ChannelShared.counted_pop {s : ChannelShared} {chunk : Chunk} {rest : List Chunk}
    (hq : s.queue = chunk :: rest) :
    ({ s with queue := rest, delivered := s.delivered ++ [chunk] } : ChannelShared).counted =
      { s.counted with buffered := s.counted.buffered - 1 } := by
  simp [counted, hq]

section Runs
variable {s t u : ChannelState} {es : List RelayEvent}

theorem counted_step {e : RelayEvent} (h : ChannelStep s e t) : RelayStep s.counted e t.counted := by
  unfold ChannelState.counted
  cases h with
  | perform hexec =>
    cases hexec with
    | frame => exact .perform (.frame _)
    | containsToken token => exact .perform (.containsToken _ token)
    | sent chunk hc hb =>
      rw [ChannelShared.counted_push]
      exact .perform (.sent chunk hc hb)
    | closed chunk hc => exact .perform (.closed chunk hc)
  | env hmove =>
    cases hmove with
    | store hs => exact .env (.store hs)
    | read _ hq =>
      rw [ChannelShared.counted_pop hq]
      exact .env (.read (by simp [ChannelShared.counted, hq]))
    | hangUp => exact .env (.hangUp _)

theorem counted_run (h : Run ChannelStep s es t) : Run RelayStep s.counted es t.counted := by
  induction h with
  | nil s => exact .nil _
  | cons hstep _ ih => exact .cons (counted_step hstep) ih

/-! ## First in, first out -/

theorem sent_step {e : RelayEvent} (h : ChannelStep s e t) :
    t.shared.delivered ++ t.shared.queue = s.shared.delivered ++ s.shared.queue ++ sent (Solo.performed [e]) ∧
      s.shared.delivered <+: t.shared.delivered := by
  cases h with
  | perform hexec =>
    cases hexec with
    | sent chunk hc hb => exact ⟨by simp [sent, sentChunk, Solo.performed, SoloEvent.performed?], List.prefix_rfl⟩
    | _ => exact ⟨by simp [sent, sentChunk, Solo.performed, SoloEvent.performed?], List.prefix_rfl⟩
  | env hmove =>
    cases hmove with
    | read _ hq => exact ⟨by simp [sent, Solo.performed, SoloEvent.performed?, hq], List.prefix_append _ _⟩
    | _ => exact ⟨by simp [sent, Solo.performed, SoloEvent.performed?], List.prefix_rfl⟩

/-- Nothing is lost, repeated or reordered between the task and the client. -/
theorem delivered_run (h : Run ChannelStep s es t) :
    t.shared.delivered ++ t.shared.queue = s.shared.delivered ++ s.shared.queue ++ sent (Solo.performed es) ∧
      s.shared.delivered <+: t.shared.delivered := by
  induction h with
  | nil s => exact ⟨by simp [sent, Solo.performed], List.prefix_rfl⟩
  | @cons s r t e es hstep _ ih =>
    obtain ⟨hfirst, hhead⟩ := sent_step hstep
    refine ⟨?_, hhead.trans ih.2⟩
    rw [ih.1, hfirst, ← List.singleton_append (l := es), Solo.performed_append, sent_append]
    simp

theorem queue_le {g : Inner} {token : String} {events : List BodyEvent}
    (h : Run ChannelStep (.start g token events) es s) : s.shared.queue.length ≤ channelCapacity :=
  buffered_le (counted_run h) (Nat.zero_le _)

/-- What is delivered after a point was in the channel at that point or was sent later. -/
theorem delivered_after (h : Run ChannelStep s es t) :
    ∃ new, t.shared.delivered = s.shared.delivered ++ new ∧ new <+: s.shared.queue ++ sent (Solo.performed es) := by
  obtain ⟨hall, new, hnew⟩ := delivered_run h
  refine ⟨new, hnew.symm, t.shared.queue, ?_⟩
  rw [← hnew, List.append_assoc, List.append_assoc] at hall
  exact List.append_cancel_left hall

end Runs

theorem take_of_prefix {frames : List (List UInt8)} {n : Nat} {chunks : List Chunk}
    (h : chunks <+: (frames.take n).map Chunk.relayed) : ∃ m, chunks = (frames.take m).map .relayed := by
  refine ⟨min chunks.length n, ?_⟩
  rw [← List.take_take, List.map_take]
  exact List.prefix_iff_eq_take.mp h

theorem length_relayed_le (chunks : List Chunk) : (chunks.filterMap Chunk.relayed?).length ≤ chunks.length :=
  List.length_filterMap_le _ _

/-- What the client of a chat stream receives, whatever the other requests do to the store
and whenever it reads. -/
theorem client_receives {hist : List StoreEvent} {g : Inner} {token : String} {events : List BodyEvent}
    {es : List RelayEvent} {s : ChannelState} (hg : Run Step Inner.empty hist g)
    (h : Run ChannelStep (.start g token events) es s) (hd : (insertedTokens (hist ++ storeEvents es)).Nodup) :
    -- the chunks sent, first in first out, with at most sixteen of them on the way
    s.shared.delivered ++ s.shared.queue = sent (Solo.performed es) ∧
    s.shared.queue.length ≤ channelCapacity ∧
    -- the client has a prefix of the data frames, and after a cut mark nothing more
    (∃ n, s.shared.delivered = ((dataFrames events).take n).map .relayed ∨
      s.shared.delivered = ((dataFrames events).take n).map .relayed ++ [.revoked] ∧
        s.prog = .pure () ∧ s.shared.queue = []) ∧
    -- of a bearer that was inserted and is gone, at most seventeen more frames
    (∀ pre post a, es = pre ++ post → Run ChannelStep (.start g token events) pre a → Run ChannelStep a post s →
      token ∈ insertedTokens (hist ++ storeEvents pre) → a.shared.store.containsToken token = false →
      ∃ new, s.shared.delivered = a.shared.delivered ++ new ∧
        (new.filterMap Chunk.relayed?).length ≤ channelCapacity + 1) := by
  have hall : s.shared.delivered ++ s.shared.queue = sent (Solo.performed es) := (delivered_run h).1
  have hpath : Follows (relay token events) (Solo.performed es) s.prog := Solo.follows h
  refine ⟨hall, queue_le h, ?_, ?_⟩
  · have hpre : s.shared.delivered <+: sent (Solo.performed es) := ⟨s.shared.queue, hall⟩
    obtain ⟨n, hsent | ⟨hsent, hdone⟩⟩ := sent_of_follows token hpath
    · obtain ⟨m, hm⟩ := take_of_prefix (hsent ▸ hpre)
      exact ⟨m, .inl hm⟩
    · rw [hsent] at hpre hall
      rcases List.prefix_concat_iff.mp hpre with hcut | hbefore
      · refine ⟨n, .inr ⟨hcut, hdone, ?_⟩⟩
        rw [hcut] at hall
        exact List.append_right_eq_self.mp hall
      · obtain ⟨m, hm⟩ := take_of_prefix hbefore
        exact ⟨m, .inl hm⟩
  · rintro pre post a rfl hpre hpost hin hdead
    obtain ⟨new, hnew, hhead⟩ := delivered_after hpost
    refine ⟨new, hnew, ?_⟩
    obtain ⟨past, rest, tail, -, -, -, htail⟩ := relay_path token (Solo.follows hpre)
    have hfail := lookups_fail hg (storeRun_of_run (counted_run hpre)) (counted_run hpost) hd hin hdead
    have hlate : ((sent (Solo.performed post)).filterMap Chunk.relayed?).length ≤ 1 := by
      rcases relayed_after_dead token htail (Solo.follows hpost) hfail with hnone | ⟨bytes, k, -, hone⟩
      · rw [hnone]
        exact Nat.zero_le 1
      · rw [hone]
        exact Nat.le_refl 1
    calc (new.filterMap Chunk.relayed?).length
        ≤ ((a.shared.queue ++ sent (Solo.performed post)).filterMap Chunk.relayed?).length :=
          (hhead.sublist.filterMap _).length_le
      _ = (a.shared.queue.filterMap Chunk.relayed?).length +
            ((sent (Solo.performed post)).filterMap Chunk.relayed?).length := by
          rw [List.filterMap_append, List.length_append]
      _ ≤ channelCapacity + 1 := Nat.add_le_add ((length_relayed_le _).trans (queue_le hpre)) hlate

/-- The revoke falls between the lookup and the send of the first frame, and the client
reads both chunks. -/
theorem client_receives_mid_stream :
    let entry : MemberEntry := ⟨Vector.replicate 65 4, Vector.replicate 32 7, "b0", "tx-1"⟩
    let g := (Inner.empty.insert entry).2
    let events : List BodyEvent := [.data [1], .data [2]]
    ∃ es s, Run ChannelStep (.start g "b0" events) es s ∧ s.shared.delivered = [.relayed [1], .revoked] ∧
      ∃ n, s.shared.delivered = ((dataFrames events).take n).map .relayed ∨
        s.shared.delivered = ((dataFrames events).take n).map .relayed ++ [.revoked] ∧
          s.prog = .pure () ∧ s.shared.queue = [] := by
  intro entry g events
  let gone := g.removeMember entry.clientPubkey
  have hg : Run Step Inner.empty [.insert entry] g := .single (.insert _ _)
  have hrevoke : Step g (.revokeByMemberHash entry.memberHash (some entry.clientPubkey)) gone :=
    Step.revoke_of_match (m := ⟨entry.memberHash, entry.originalTxId, ["b0"]⟩) (by decide +kernel) rfl
  have hlive : g.containsToken "b0" = true := by decide +kernel
  have hdead : gone.containsToken "b0" = false := by decide +kernel
  have hlookup : ChannelExec ⟨g, [], [], true⟩ (.containsToken "b0") true ⟨g, [], [], true⟩ :=
    hlive ▸ ChannelExec.containsToken _ "b0"
  have hmiss : ChannelExec ⟨gone, [], [.relayed [1]], true⟩ (.containsToken "b0") false
      ⟨gone, [], [.relayed [1]], true⟩ :=
    hdead ▸ ChannelExec.containsToken _ "b0"
  have hrun : Run ChannelStep (.start g "b0" events)
      [.perform .frame (), .perform (.containsToken "b0") true,
        .env (.store (.revokeByMemberHash entry.memberHash (some entry.clientPubkey))),
        .perform (.send (.relayed [1])) true, .env .read, .perform .frame (), .perform (.containsToken "b0") false,
        .perform (.send .revoked) true, .env .read]
      ⟨⟨gone, [], [.relayed [1], .revoked], true⟩, .pure ()⟩ :=
    .cons (.perform (.frame _)) (.cons (.perform hlookup) (.cons (.env (.store hrevoke))
      (.cons (.perform (.sent _ rfl (by decide))) (.cons (.env (.read rfl rfl)) (.cons (.perform (.frame _))
        (.cons (.perform hmiss) (.cons (.perform (.sent _ rfl (by decide))) (.single (.env (.read rfl rfl))))))))))
  exact ⟨_, _, hrun, rfl, (client_receives hg hrun (by decide)).2.2.1⟩

end IronInstance
