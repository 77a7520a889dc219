import IronInstance.Endpoints
import IronInstance.RateWindow
import IronInstance.TsmReport

/-!
# Hardware work is charged

A TDX quote and a run of the GPU helper are the expensive parts of an attestation. Each
one is preceded by an admitted call on the bucket of the member who asks, and no request
does either twice, so the limiter bounds the work itself and not only its own answers.
-/

namespace IronInstance
open Programs Runs
set_option autoImplicit false

/-- The two kinds of work on the hardware. -/
inductive Work where
  | quote
  | helper
  deriving DecidableEq

def Op.work : Op → Option Work
  | .tdxQuote _ => some .quote
  | .gpuHelper _ => some .helper
  | _ => none

/-- The member of a request and what it read from the clock for the limiter. -/
def clockRead (p : ServiceState) (id : Nat) : Option (Pubkey × Instant) :=
  match p.task id with
  | some ⟨⟨some pk, _⟩, ⟨.instantNow, now⟩ :: _, _⟩ => some (pk, now)
  | _ => none

/-- The task of an event that does work `w` for a request of `pk` that read the clock in `[s, e]`. -/
def workEvent (w : Work) (p : ServiceState) (pk : Pubkey) (s e : Instant) : ServiceEvent → Option Nat
  | .perform id o _ =>
    if o.work = some w ∧ (clockRead p id).any fun c => decide (c.1 = pk ∧ s ≤ c.2 ∧ c.2 ≤ e) then some id else none
  | _ => none

def workRuns (w : Work) (p : ServiceState) (pk : Pubkey) (s e : Instant) (es : List ServiceEvent) : List Nat :=
  es.filterMap (workEvent w p pk s e)

/-! ## The calls of an attestation -/

section Paths
variable {P : Primitives} {n : Nat} {spki : Vector UInt8 32} {cs : List (Performed Op Ans)} {prog : Handler Response}

/-- At most one quote, then at most one run of the helper. -/
def WorkCalls (cs : List (Performed Op Ans)) : Prop :=
  ∃ reportData args, cs.map Sigma.fst <+: [.tdxQuote reportData, .gpuHelper args]

theorem workCalls_nil : WorkCalls [] := ⟨[], [], List.nil_prefix⟩

theorem attest_calls {nonce : List UInt8} (h : Follows (attest P n spki nonce) cs prog) : WorkCalls cs := by
  rw [attest_eq, Follows.call_iff] at h
  rcases h with ⟨rfl, -⟩ | ⟨answer, ds, rfl, hds⟩
  · exact workCalls_nil
  · cases answer with
    | none =>
      obtain ⟨rfl, -⟩ := Follows.pure_iff.mp hds
      exact ⟨_, [], [.gpuHelper []], rfl⟩
    | some quote =>
      rcases Follows.call_iff.mp hds with ⟨rfl, -⟩ | ⟨out, es, rfl, hes⟩
      · exact ⟨_, [], [.gpuHelper []], rfl⟩
      · obtain ⟨rfl, -⟩ := Follows.pure_iff.mp hes
        exact ⟨_, _, [], rfl⟩

theorem answerQuery_calls {q : AttestationQuery} (h : Follows (answerQuery P n spki q) cs prog) : WorkCalls cs := by
  have hrefused : ∀ r : Response, Follows (.pure r : Handler Response) cs prog → WorkCalls cs := by
    intro r hr
    obtain ⟨rfl, -⟩ := Follows.pure_iff.mp hr
    exact workCalls_nil
  unfold answerQuery at h
  repeat' split at h
  all_goals first | exact attest_calls h | exact hrefused _ h

theorem WorkCalls.count_le (h : WorkCalls cs) (w : Work) : cs.countP (fun c => decide (c.1.work = some w)) ≤ 1 := by
  obtain ⟨reportData, args, hpre⟩ := h
  have hmap : cs.countP (fun c => decide (c.1.work = some w)) =
      (cs.map Sigma.fst).countP (fun o => decide (o.work = some w)) := by
    rw [List.countP_map]
    rfl
  rw [hmap]
  refine hpre.sublist.countP_le.trans ?_
  cases w <;> rfl

/-- Nothing is done on the hardware before the limiter has said yes. -/
inductive BudgetPath (pk : Pubkey) : List (Performed Op Ans) → Prop where
  | unread : BudgetPath pk []
  | unasked (now : Instant) : BudgetPath pk [⟨.instantNow, now⟩]
  | refused (now : Instant) : BudgetPath pk [⟨.instantNow, now⟩, ⟨.allowAttestation pk now, false⟩]
  | allowed (now : Instant) {rest : List (Performed Op Ans)} (h : WorkCalls rest) :
      BudgetPath pk (⟨.instantNow, now⟩ :: ⟨.allowAttestation pk now, true⟩ :: rest)

theorem budget_path {pk : Pubkey} {q : AttestationQuery}
    (h : Follows (attestationHandler P n spki (some pk) q) cs prog) : BudgetPath pk cs := by
  rcases Follows.call_iff.mp h with ⟨rfl, -⟩ | ⟨now, ds, rfl, hds⟩
  · exact .unread
  · rcases Follows.call_iff.mp hds with ⟨rfl, -⟩ | ⟨allowed, es, rfl, hes⟩
    · exact .unasked now
    · cases allowed with
      | false =>
        obtain ⟨rfl, -⟩ := Follows.pure_iff.mp hes
        exact .refused now
      | true => exact .allowed now (answerQuery_calls hes)

theorem BudgetPath.of_work {pk : Pubkey} (h : BudgetPath pk cs) {w : Work} {c : Performed Op Ans} (hc : c ∈ cs)
    (hw : c.1.work = some w) :
    ∃ now rest, cs = ⟨.instantNow, now⟩ :: ⟨.allowAttestation pk now, true⟩ :: rest := by
  cases h with
  | unread => cases hc
  | unasked now =>
    cases List.mem_singleton.mp hc
    cases hw
  | refused now =>
    rcases List.mem_cons.mp hc with rfl | hc
    · cases hw
    · cases List.mem_singleton.mp hc
      cases hw
  | allowed now _ => exact ⟨now, _, rfl⟩

theorem BudgetPath.before_work {pk : Pubkey} {c : Performed Op Ans} (h : BudgetPath pk (cs ++ [c])) {w : Work}
    (hw : c.1.work = some w) :
    ∃ now more, cs = ⟨.instantNow, now⟩ :: ⟨.allowAttestation pk now, true⟩ :: more := by
  obtain ⟨now, rest, hcs⟩ := h.of_work (List.mem_append_right cs List.mem_cons_self) hw
  rcases cs with _ | ⟨x, _ | ⟨y, more⟩⟩
  · cases hcs
  · cases hcs
    cases hw
  · cases hcs
    exact ⟨now, more, rfl⟩

theorem BudgetPath.count_le {pk : Pubkey} (h : BudgetPath pk cs) (w : Work) :
    cs.countP (fun c => decide (c.1.work = some w)) ≤ 1 := by
  cases h with
  | allowed now hrest => simpa [Op.work] using hrest.count_le w
  | _ => simp [Op.work]

end Paths

/-! ## Across the service -/

theorem attestation_of_work {endpoint : Endpoint} {o : Op} {w : Work} (hmay : endpoint.May o)
    (hw : o.work = some w) : ∃ q, endpoint = .attestation q := by
  cases endpoint with
  | attestation q => exact ⟨q, rfl⟩
  | _ => cases o <;> first | exact hmay.elim | cases hw

section Service
variable {P : Primitives} {C : Config P} {es : List ServiceEvent} {p : ServiceState} {w : Work} {pk : Pubkey}
  {s e : Instant} {id : Nat}

/-- The one request that does the work is an attestation, and the limiter has admitted it. -/
theorem work_task (h : Run (ServiceStep C) bootState es p) {o : Op} {a : Ans o} (hev : .perform id o a ∈ es)
    (hw : o.work = some w) :
    ∃ t pk, p.task id = some t ∧ t.done = Pool.performedBy id es ∧ t.req.client = some pk ∧ BudgetPath pk t.done := by
  obtain ⟨t, ht, hc⟩ := Pool.task_of_performed h hev
  obtain ⟨pk, hpk, -⟩ := (authorised_run h).tasks id t ht
  refine ⟨t, pk, ht, Pool.done_eq h ht, hpk, ?_⟩
  have hfollows := Pool.follows h ht
  have hmay := (Prog.Only.of_follows hfollows (route_may C t.req)).2 _ hc
  obtain ⟨endpoint, hq⟩ := attestation_of_work hmay hw
  obtain ⟨⟨client, endpoint⟩, done, prog⟩ := t
  cases hpk
  cases hq
  exact budget_path hfollows

theorem work_clockRead (h : Run (ServiceStep C) bootState es p) {o : Op} {a : Ans o} (hev : .perform id o a ∈ es)
    (hw : o.work = some w) :
    ∃ pk now rest, clockRead p id = some (pk, now) ∧
      Pool.performedBy id es = ⟨.instantNow, now⟩ :: ⟨.allowAttestation pk now, true⟩ :: rest := by
  obtain ⟨t, pk, ht, hdone, hclient, hpath⟩ := work_task h hev hw
  have hc : (⟨o, a⟩ : Performed Op Ans) ∈ t.done := hdone ▸ Pool.mem_performedBy.mpr hev
  obtain ⟨now, rest, hcs⟩ := hpath.of_work hc hw
  refine ⟨pk, now, rest, ?_, hdone ▸ hcs⟩
  obtain ⟨⟨client, endpoint⟩, done, prog⟩ := t
  cases hclient
  cases hcs
  simp only [clockRead, ht]

/-- The work comes after the admission. -/
theorem admitted_before {pre post : List ServiceEvent} {o : Op} {a : Ans o}
    (h : Run (ServiceStep C) bootState (pre ++ .perform id o a :: post) p) (hw : o.work = some w) :
    ∃ pk now, clockRead p id = some (pk, now) ∧ .perform id .instantNow now ∈ pre ∧
      .perform id (.allowAttestation pk now) true ∈ pre := by
  have hev : .perform id o a ∈ pre ++ .perform id o a :: post := List.mem_append_right pre List.mem_cons_self
  obtain ⟨pk, now, rest, hread, hall⟩ := work_clockRead h hev hw
  refine ⟨pk, now, hread, ?_⟩
  -- the run up to the work has made the same two calls
  rw [List.append_cons] at h
  obtain ⟨q, hupto, -⟩ := Run.append_iff.mp h
  have hlast : .perform id o a ∈ pre ++ [.perform id o a] := List.mem_append_right pre List.mem_cons_self
  obtain ⟨t, pk', -, hdone, -, hpath⟩ := work_task hupto hlast hw
  rw [hdone, Pool.performedBy_append, Pool.performedBy_perform] at hpath
  obtain ⟨now', more, hpre⟩ := hpath.before_work hw
  rw [Pool.performedBy_append, hpre] at hall
  cases hall
  exact ⟨Pool.mem_performedBy.mp (by simp [hpre]), Pool.mem_performedBy.mp (by simp [hpre])⟩

theorem work_once (h : Run (ServiceStep C) bootState es p) (w : Work) (id : Nat) :
    (Pool.performedBy id es).countP (fun c => decide (c.1.work = some w)) ≤ 1 := by
  by_cases hwork : ∃ o a, .perform id o a ∈ es ∧ o.work = some w
  · obtain ⟨o, a, hev, hw⟩ := hwork
    obtain ⟨t, pk, -, hdone, -, hpath⟩ := work_task h hev hw
    rw [← hdone]
    exact hpath.count_le w
  · refine (List.countP_eq_zero.mpr fun c hc hw => ?_).trans_le (Nat.zero_le 1)
    exact hwork ⟨c.1, c.2, Pool.mem_performedBy.mp hc, of_decide_eq_true hw⟩

theorem mem_workRuns : id ∈ workRuns w p pk s e es ↔ (∃ o a, .perform id o a ∈ es ∧ o.work = some w) ∧
    ∃ now, clockRead p id = some (pk, now) ∧ s ≤ now ∧ now ≤ e := by
  have hread : ((clockRead p id).any fun c => decide (c.1 = pk ∧ s ≤ c.2 ∧ c.2 ≤ e)) = true ↔
      ∃ now, clockRead p id = some (pk, now) ∧ s ≤ now ∧ now ≤ e := by
    rw [Option.any_eq_true]
    constructor
    · rintro ⟨⟨pk', now⟩, hc, hdec⟩
      obtain ⟨rfl, hs, he⟩ := of_decide_eq_true hdec
      exact ⟨now, hc, hs, he⟩
    · rintro ⟨now, hc, hs, he⟩
      exact ⟨(pk, now), hc, decide_eq_true ⟨rfl, hs, he⟩⟩
  rw [← hread, workRuns, List.mem_filterMap]
  constructor
  · rintro ⟨ev, hev, hid⟩
    cases ev with
    | perform id' o a =>
      simp only [workEvent, Option.ite_none_right_eq_some, Option.some.injEq] at hid
      obtain ⟨⟨hw, hany⟩, rfl⟩ := hid
      exact ⟨⟨o, a, hev, hw⟩, hany⟩
    | _ => cases hid
  · rintro ⟨⟨o, a, hev, hw⟩, hany⟩
    exact ⟨_, hev, if_pos ⟨hw, hany⟩⟩

theorem count_workRuns_le (id : Nat) :
    (workRuns w p pk s e es).count id ≤ (Pool.performedBy id es).countP (fun c => decide (c.1.work = some w)) := by
  induction es with
  | nil => exact Nat.le_refl 0
  | cons ev es ih =>
    have hlater : (workRuns w p pk s e es).count id ≤
        (Pool.performedBy id (ev :: es)).countP (fun c => decide (c.1.work = some w)) := by
      rw [← List.singleton_append, Pool.performedBy_append, List.countP_append]
      exact ih.trans (Nat.le_add_left _ _)
    rw [workRuns, List.filterMap_cons, ← workRuns]
    cases hev : workEvent w p pk s e ev with
    | none => exact hlater
    | some j =>
      cases ev with
      | perform id' o a =>
        simp only [workEvent, Option.ite_none_right_eq_some, Option.some.injEq] at hev
        obtain ⟨⟨hw, -⟩, rfl⟩ := hev
        by_cases hid : id' = id
        · subst hid
          rw [Pool.performedBy_perform, List.count_cons_self, List.countP_cons_of_pos (by simpa using hw)]
          exact Nat.succ_le_succ ih
        · rw [List.count_cons_of_ne hid]
          exact hlater
      | _ => cases hev

theorem nodup_workRuns (h : Run (ServiceStep C) bootState es p) : (workRuns w p pk s e es).Nodup := by
  rw [List.nodup_iff_count_le_one]
  intro id
  exact (count_workRuns_le id).trans (work_once h w id)

theorem admitted_of_mem (h : Run (ServiceStep C) bootState es p) (hmem : id ∈ workRuns w p pk s e es) :
    ∃ now, .perform id (.allowAttestation pk now) true ∈ es ∧ s ≤ now ∧ now ≤ e := by
  obtain ⟨⟨o, a, hev, hw⟩, now, hread, hs, he⟩ := mem_workRuns.mp hmem
  obtain ⟨pk', now', rest, hread', hdone⟩ := work_clockRead h hev hw
  rw [hread] at hread'
  cases hread'
  exact ⟨now, Pool.mem_performedBy.mp (by simp [hdone]), hs, he⟩

theorem workRuns_le_admitted (h : Run (ServiceStep C) bootState es p) (w : Work) (pk : Pubkey) (s e : Instant) :
    (workRuns w p pk s e es).length ≤ admitted pk s e es := by
  let byTask : ServiceEvent → Option Nat := fun
    | .perform id _ _ => some id
    | _ => none
  have hsub : workRuns w p pk s e es ⊆ (es.filter (ServiceEvent.admits pk s e)).filterMap byTask := by
    intro id hid
    obtain ⟨now, hev, hs, he⟩ := admitted_of_mem h hid
    refine List.mem_filterMap.mpr ⟨_, List.mem_filter.mpr ⟨hev, ?_⟩, rfl⟩
    simp [ServiceEvent.admits, hs, he]
  calc (workRuns w p pk s e es).length
      ≤ ((es.filter (ServiceEvent.admits pk s e)).filterMap byTask).length :=
        (List.subperm_of_subset (nodup_workRuns h) hsub).length_le
    _ ≤ (es.filter (ServiceEvent.admits pk s e)).length := List.length_filterMap_le _ _
    _ = admitted pk s e es := by rw [admitted, List.countP_eq_length_filter]

/-- Every quote and every run of the GPU helper is paid for. -/
theorem hardware_work_charged (h : Run (ServiceStep C) bootState es p) (w : Work) :
    -- a request does the work only after its own call was admitted, on the reading it took for it
    (∀ pre id o a post, es = pre ++ .perform id o a :: post → o.work = some w →
      ∃ pk now, clockRead p id = some (pk, now) ∧ .perform id .instantNow now ∈ pre ∧
        .perform id (.allowAttestation pk now) true ∈ pre) ∧
    -- and at most once
    (∀ id, (Pool.performedBy id es).countP (fun c => decide (c.1.work = some w)) ≤ 1) ∧
    -- so in no window is there more work for a member than calls its bucket admitted there
    (∀ pk s e, (workRuns w p pk s e es).length ≤ admitted pk s e es) := by
  refine ⟨fun pre id o a post hes hw => ?_, work_once h w, workRuns_le_admitted h w⟩
  subst hes
  exact admitted_before h hw

end Service

theorem hardware_work_charged_single : ∃ es p, Run (ServiceStep Synthetic.config) bootState es p ∧
    0 ∈ workRuns .quote p Synthetic.pubkey 0 0 es ∧ 0 < admitted Synthetic.pubkey 0 0 es := by
  obtain ⟨es, p, hrun, -, -, htask⟩ := Synthetic.serve 0 Synthetic.askQuote.endpoint rfl Synthetic.connected_conns
    Synthetic.follows_attest Synthetic.performs_attest
  have hall := Synthetic.run_connected.append hrun
  have ht := congrFun htask 0
  rw [Function.update_self] at ht
  have hmem : 0 ∈ workRuns .quote p Synthetic.pubkey 0 0 ([.env (.handshake 0 [Synthetic.leaf])] ++ es) := by
    refine mem_workRuns.mpr ⟨⟨.tdxQuote Synthetic.reportData, some (1 :: Synthetic.reportData), ?_, rfl⟩, 0, ?_,
      Nat.le_refl 0, Nat.le_refl 0⟩
    · exact Pool.performed_of_done hall ht (by simp)
    · simp only [clockRead, ht]
  exact ⟨_, p, hall, hmem, (List.length_pos_of_mem hmem).trans_le
    ((hardware_work_charged hall .quote).2.2 Synthetic.pubkey 0 0)⟩

end IronInstance
