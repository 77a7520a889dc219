import IronInstance.TsmEntries

/-!
# A quote is bound to its own request

An envelope goes out with the quote that the TDX module made for the nonce of this
request and the key of this boot, whatever other requests did to the report entries
between the write of the report data and the read of the quote.
-/

namespace IronInstance
open Programs Runs
set_option autoImplicit false

/-! ## The path of an envelope -/

inductive EnvelopePath (P : Primitives) (n : Nat) (spki : Vector UInt8 32) (q : AttestationQuery) :
    List (Performed Op Ans) → Envelope → Prop where
  | intro {s : String} {nonce quote : List UInt8} {out : Option HelperRun} {gpus : List (List UInt8 × List (List UInt8))}
      (pre : List (Performed Op Ans)) (hs : q.nonce = some s) (hnonce : hexDecode s = some nonce)
      (hlen : nonce.length = 32) (hgpus : parseHelper n out = some gpus) :
      EnvelopePath P n spki q
        (pre ++ [⟨.tdxQuote (nonce ++ spki.toList), some quote⟩, ⟨.gpuHelper (helperArgs (gpuNonces P n nonce spki)), out⟩])
        (envelope quote (pckChainFromQuote quote) gpus)

section Paths
variable {P : Primitives} {n : Nat} {spki : Vector UInt8 32} {q : AttestationQuery} {cs : List (Performed Op Ans)}
  {e : Envelope}

theorem attest_envelope {s : String} {nonce : List UInt8} (hs : q.nonce = some s) (hnonce : hexDecode s = some nonce)
    (hlen : nonce.length = 32) (h : Follows (attest P n spki nonce) cs (.pure ⟨.ok, .envelope e⟩)) :
    EnvelopePath P n spki q cs e := by
  rw [attest_eq] at h
  obtain ⟨answer, cs₁, rfl, h₁⟩ := h.call_finished
  cases answer with
  | none => cases (Follows.pure_finished h₁).2
  | some quote =>
    obtain ⟨out, cs₂, rfl, h₂⟩ := Follows.call_finished h₁
    obtain ⟨rfl, hanswer⟩ := Follows.pure_finished h₂
    cases hgpus : parseHelper n out with
    | none =>
      rw [hgpus] at hanswer
      cases hanswer
    | some gpus =>
      rw [hgpus] at hanswer
      cases hanswer
      exact .intro [] hs hnonce hlen hgpus

theorem answerQuery_envelope (h : Follows (answerQuery P n spki q) cs (.pure ⟨.ok, .envelope e⟩)) :
    EnvelopePath P n spki q cs e := by
  unfold answerQuery at h
  cases hs : q.nonce with
  | none =>
    rw [hs] at h
    cases (Follows.pure_finished h).2
  | some s =>
    cases hnonce : hexDecode s with
    | none =>
      simp only [hs, hnonce] at h
      cases (Follows.pure_finished h).2
    | some nonce =>
      simp only [hs, hnonce] at h
      by_cases hlen : nonce.length = 32
      · rw [if_pos hlen] at h
        exact attest_envelope hs hnonce hlen h
      · rw [if_neg hlen] at h
        cases (Follows.pure_finished h).2

theorem EnvelopePath.after (c : Performed Op Ans) (h : EnvelopePath P n spki q cs e) :
    EnvelopePath P n spki q (c :: cs) e := by
  cases h with
  | intro pre hs hnonce hlen hgpus => exact .intro (c :: pre) hs hnonce hlen hgpus

theorem envelope_path {client : Option Pubkey}
    (h : Follows (attestationHandler P n spki client q) cs (.pure ⟨.ok, .envelope e⟩)) :
    EnvelopePath P n spki q cs e := by
  cases client with
  | none => exact answerQuery_envelope h
  | some pk =>
    obtain ⟨now, cs₁, rfl, h₁⟩ := Follows.call_finished h
    obtain ⟨allowed, cs₂, rfl, h₂⟩ := Follows.call_finished h₁
    apply EnvelopePath.after
    apply EnvelopePath.after
    cases allowed with
    | false => cases (Follows.pure_finished h₂).2
    | true => exact answerQuery_envelope h₂

end Paths

/-! ## The calls behind a quote -/

section Quotes
variable {P : Primitives} {C : Config P} {pid : UInt32} {quotes : List UInt8 → List UInt8 → Prop} {entries : Entries}
  {es : List HostEvent} {p : HostState}

/-- Every read of a quote was answered for what the reader had written. -/
theorem quoted_run (h : Run (HostStep C pid quotes) (hostBoot entries) es p) {id : Nat}
    {t : Task Request HostOp HostAns Response} (ht : p.task id = some t) {pre post : List (Performed HostOp HostAns)}
    {dir : String} {quote reportData : List UInt8} (hdone : t.done = pre ++ ⟨.readOutblob dir, some quote⟩ :: post)
    (hheld : heldAfter pid pre = .made dir (some reportData)) : quotes reportData quote := by
  obtain ⟨es₁, es₂, q, q', k, -, hq, hbefore, hstep, -⟩ := Pool.performed_at h ht hdone
  have hread := tsm_perform (fun _ _ => Pool.follows hq) hstep
  obtain ⟨v, hquote, -⟩ := Run.cons_iff.mp hread
  exact (owned_run (tsm_run hq)).quote_binds hquote ((held_eq hbefore).trans hheld)

/-- Whatever the other requests do, an envelope carries a non-empty quote that was made
for the nonce of its own request and the key of this boot. -/
theorem quote_bound_to_own_nonce (h : Run (HostStep C pid quotes) (hostBoot entries) es p) {id : Nat}
    {client : Option Pubkey} {q : AttestationQuery} {done : List (Performed HostOp HostAns)} {e : Envelope}
    (ht : p.task id = some ⟨⟨client, .attestation q⟩, done, .pure ⟨.ok, .envelope e⟩⟩) :
    ∃ s nonce quote, q.nonce = some s ∧ hexDecode s = some nonce ∧ nonce.length = 32 ∧ quote ≠ [] ∧
      quotes (nonce ++ C.spkiSha256.toList) quote ∧ e.cpuReport = b64Encode quote ∧
      e.cpuChain = (pckChainFromQuote quote).map b64Encode := by
  obtain ⟨cs, hpath, hcarried⟩ := follows_expand (Pool.follows h ht)
  obtain @⟨s, nonce, quote, out, gpus, pre, hs, hnonce, hlen, hgpus⟩ := envelope_path hpath
  obtain ⟨before, ds, after, hdone, hquote⟩ :=
    hcarried.segment (o := .tdxQuote (nonce ++ C.spkiSha256.toList)) (a := some quote) (by simp)
  obtain ⟨hne, seq, removed, rfl⟩ := tdxQuote_path hquote
  refine ⟨s, nonce, quote, hs, hnonce, hlen, hne, ?_, rfl, rfl⟩
  -- the outblob is read after the entry was numbered, made and written
  have hread : done = (before ++ (quoteCalls (entryDir pid seq) seq (nonce ++ C.spkiSha256.toList) quote
      removed).take 3) ++ ⟨.readOutblob (entryDir pid seq), some quote⟩ ::
        ⟨.removeDir (entryDir pid seq), removed⟩ :: after := by
    refine hdone.trans ?_
    simp [quoteCalls]
  refine quoted_run h ht hread ?_
  rw [heldAfter, history_append]
  rfl

end Quotes

theorem quote_bound_to_own_nonce_single : ∃ es p,
    Run (HostStep Synthetic.config 7 Synthetic.tdxModule) (hostBoot fun _ => none) es p ∧
    ∃ s nonce quote, Synthetic.askQuote.endpoint = .attestation ⟨some s⟩ ∧ hexDecode s = some nonce ∧ quote ≠ [] ∧
      quote = 1 :: (nonce ++ Synthetic.config.spkiSha256.toList) ∧
      Synthetic.quotedEnvelope.cpuReport = b64Encode quote := by
  obtain ⟨p, hrun, htask⟩ := Synthetic.quote_run 7
  have ht := congrFun htask 0
  rw [Function.update_self] at ht
  obtain ⟨s, nonce, quote, hs, hnonce, -, hne, hquote, hreport, -⟩ := quote_bound_to_own_nonce hrun ht
  cases hs
  exact ⟨_, p, hrun, _, nonce, quote, rfl, hnonce, hne, hquote, hreport⟩

end IronInstance
