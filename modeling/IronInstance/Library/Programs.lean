import Mathlib.Logic.Function.Basic
import IronInstance.Library.Runs

/-!
# Concurrent programs whose only effects are atomic operations

A `Prog` is a finite tree of operations: each node performs one operation and goes
on with its answer. Tasks of a `Pool` run such programs against one shared state;
a step of the pool performs one operation of one task, so any two operations of
different tasks may be interleaved. Every task remembers the operations it has
performed, and `Pool.follows` says that they are a path of its program: what a
task may do is read off its program alone, whatever the other tasks do.
-/

namespace Programs
open Runs
set_option autoImplicit false

universe u v w x y

/-- A program over operations `Op`, answered in `Ans o`. -/
inductive Prog (Op : Type u) (Ans : Op → Type v) (α : Type w) : Type (max u v w) where
  | pure (a : α) : Prog Op Ans α
  | call (o : Op) (k : Ans o → Prog Op Ans α) : Prog Op Ans α

namespace Prog
variable {Op : Type u} {Ans : Op → Type v} {α β : Type w}

def bind : Prog Op Ans α → (α → Prog Op Ans β) → Prog Op Ans β
  | .pure a, f => f a
  | .call o k, f => .call o fun a => (k a).bind f

instance : Monad (Prog Op Ans) where
  pure := Prog.pure
  bind := Prog.bind

@[simp] theorem pure_bind (a : α) (f : α → Prog Op Ans β) : (Prog.pure a >>= f) = f a := rfl

@[simp] theorem call_bind (o : Op) (k : Ans o → Prog Op Ans α) (f : α → Prog Op Ans β) :
    (Prog.call o k >>= f) = .call o fun a => k a >>= f := rfl

@[simp] theorem pure_eq (a : α) : (Pure.pure a : Prog Op Ans α) = .pure a := rfl

end Prog

/-- One performed operation with its answer. -/
abbrev Performed (Op : Type u) (Ans : Op → Type v) := (o : Op) × Ans o

/-- `Follows p cs q`: performing `cs` leads from the program `p` to `q`. -/
inductive Follows {Op : Type u} {Ans : Op → Type v} {α : Type w} :
    Prog Op Ans α → List (Performed Op Ans) → Prog Op Ans α → Prop where
  | nil (p : Prog Op Ans α) : Follows p [] p
  | cons {o : Op} {k : Ans o → Prog Op Ans α} {a : Ans o} {cs : List (Performed Op Ans)}
      {q : Prog Op Ans α} : Follows (k a) cs q → Follows (.call o k) (⟨o, a⟩ :: cs) q

namespace Follows
variable {Op : Type u} {Ans : Op → Type v} {α : Type w} {p q : Prog Op Ans α}
  {cs : List (Performed Op Ans)}

theorem snoc {o : Op} {k : Ans o → Prog Op Ans α} (h : Follows p cs (.call o k)) (a : Ans o) :
    Follows p (cs ++ [⟨o, a⟩]) (k a) := by
  generalize hq : Prog.call o k = q at h
  induction h with
  | nil p =>
    subst hq
    exact .cons (.nil _)
  | cons _ ih => exact .cons (ih hq)

@[simp] theorem pure_iff {r : α} : Follows (.pure r) cs q ↔ cs = [] ∧ q = .pure r := by
  constructor
  · intro h
    cases h
    exact ⟨rfl, rfl⟩
  · rintro ⟨rfl, rfl⟩
    exact .nil _

theorem call_iff {o : Op} {k : Ans o → Prog Op Ans α} :
    Follows (.call o k) cs q ↔
      (cs = [] ∧ q = .call o k) ∨ ∃ a cs', cs = ⟨o, a⟩ :: cs' ∧ Follows (k a) cs' q := by
  constructor
  · intro h
    cases h with
    | nil => exact Or.inl ⟨rfl, rfl⟩
    | cons h => exact Or.inr ⟨_, _, rfl, h⟩
  · rintro (⟨rfl, rfl⟩ | ⟨a, cs', rfl, h⟩)
    · exact .nil _
    · exact .cons h

theorem call_finished {o : Op} {k : Ans o → Prog Op Ans α} {r : α} (h : Follows (.call o k) cs (.pure r)) :
    ∃ a cs', cs = ⟨o, a⟩ :: cs' ∧ Follows (k a) cs' (.pure r) := by
  rcases call_iff.mp h with ⟨-, hq⟩ | hstep
  · cases hq
  · exact hstep

theorem pure_finished {r r' : α} (h : Follows (.pure r) cs (.pure r')) : cs = [] ∧ r' = r := by
  obtain ⟨hcs, hr⟩ := pure_iff.mp h
  exact ⟨hcs, Prog.pure.inj hr⟩

theorem bind_left {β : Type w} (h : Follows p cs q) (f : α → Prog Op Ans β) :
    Follows (p.bind f) cs (q.bind f) := by
  induction h with
  | nil p => exact .nil _
  | cons _ ih => exact .cons ih

theorem of_map {β : Type w} {g : α → β} {r : Prog Op Ans β} (h : Follows (p.bind fun a => .pure (g a)) cs r) :
    ∃ p', Follows p cs p' ∧ r = p'.bind fun a => .pure (g a) := by
  induction p generalizing cs with
  | pure a =>
    obtain ⟨rfl, rfl⟩ := pure_iff.mp h
    exact ⟨.pure a, .nil _, rfl⟩
  | call o k ih =>
    rcases call_iff.mp h with ⟨rfl, rfl⟩ | ⟨a, cs', rfl, hrest⟩
    · exact ⟨.call o k, .nil _, rfl⟩
    · obtain ⟨p', hp', rfl⟩ := ih a hrest
      exact ⟨p', .cons hp', rfl⟩

end Follows

/-- Every operation the program can ever perform satisfies `Q`. -/
def Prog.Only {Op : Type u} {Ans : Op → Type v} {α : Type w} (Q : Op → Prop) : Prog Op Ans α → Prop
  | .pure _ => True
  | .call o k => Q o ∧ ∀ a, (k a).Only Q

namespace Prog.Only
variable {Op : Type u} {Ans : Op → Type v} {α β : Type w} {Q : Op → Prop}

@[simp] theorem pure (a : α) : Prog.Only Q (.pure a : Prog Op Ans α) := trivial

@[simp] theorem call_iff {o : Op} {k : Ans o → Prog Op Ans α} :
    Prog.Only Q (.call o k) ↔ Q o ∧ ∀ a, (k a).Only Q := Iff.rfl

theorem bind {p : Prog Op Ans α} {f : α → Prog Op Ans β} (hp : p.Only Q) (hf : ∀ a, (f a).Only Q) :
    (p >>= f).Only Q := by
  induction p with
  | pure a => exact hf a
  | call o k ih => exact ⟨hp.1, fun a => ih a (hp.2 a)⟩

theorem of_follows {p q : Prog Op Ans α} {cs : List (Performed Op Ans)} (h : Follows p cs q)
    (hp : p.Only Q) : q.Only Q ∧ ∀ c ∈ cs, Q c.1 := by
  induction h with
  | nil p => exact ⟨hp, by simp⟩
  | cons _ ih =>
    obtain ⟨hq, hcs⟩ := ih (hp.2 _)
    refine ⟨hq, ?_⟩
    intro c hc
    rcases List.mem_cons.mp hc with rfl | hc
    · exact hp.1
    · exact hcs c hc

end Prog.Only

/-- Every result of the program satisfies `Q`. -/
def Prog.Ends {Op : Type u} {Ans : Op → Type v} {α : Type w} (Q : α → Prop) : Prog Op Ans α → Prop
  | .pure a => Q a
  | .call _ k => ∀ a, (k a).Ends Q

namespace Prog.Ends
variable {Op : Type u} {Ans : Op → Type v} {α β : Type w} {Q : β → Prop}

theorem bind {f : α → Prog Op Ans β} (p : Prog Op Ans α) (hf : ∀ a, (f a).Ends Q) : (p >>= f).Ends Q := by
  induction p with
  | pure a => exact hf a
  | call o k ih => exact ih

theorem of_follows {p q : Prog Op Ans β} {cs : List (Performed Op Ans)} (h : Follows p cs q) (hp : p.Ends Q) :
    q.Ends Q := by
  induction h with
  | nil p => exact hp
  | cons _ ih => exact ih (hp _)

end Prog.Ends

/-- A task: what it was started with, what it has done, and what is left. -/
structure Task (Req : Type x) (Op : Type u) (Ans : Op → Type v) (α : Type w) where
  req : Req
  done : List (Performed Op Ans)
  prog : Prog Op Ans α

structure Pool (σ : Type y) (Req : Type x) (Op : Type u) (Ans : Op → Type v) (α : Type w) where
  shared : σ
  task : Nat → Option (Task Req Op Ans α)

inductive PoolEvent (Req : Type x) (Op : Type u) (Ans : Op → Type v) (ε : Type y) where
  | spawn (id : Nat) (req : Req)
  | perform (id : Nat) (o : Op) (a : Ans o)
  | env (e : ε)

/-- What a pool of tasks runs on: the program of a request, when a request may
arrive, the effect of an operation, and the moves of the surroundings. -/
structure Machine (σ : Type y) (Req : Type x) (Op : Type u) (Ans : Op → Type v) (α : Type w)
    (ε : Type y) where
  start : Req → Prog Op Ans α
  accepts : σ → Req → Prop
  exec : σ → (o : Op) → Ans o → σ → Prop
  env : σ → ε → σ → Prop

variable {σ : Type y} {Req : Type x} {Op : Type u} {Ans : Op → Type v} {α : Type w} {ε : Type y}

theorem update_some_iff {f : Nat → Option α} {i id : Nat} {a b : α} :
    Function.update f i (some a) id = some b ↔ (id = i ∧ a = b) ∨ (id ≠ i ∧ f id = some b) := by
  by_cases hid : id = i
  · subst hid
    simp
  · simp [hid]

def Pool.initial (s : σ) : Pool σ Req Op Ans α := ⟨s, fun _ => none⟩

inductive PoolStep (M : Machine σ Req Op Ans α ε) :
    Pool σ Req Op Ans α → PoolEvent Req Op Ans ε → Pool σ Req Op Ans α → Prop where
  | spawn {p : Pool σ Req Op Ans α} {id : Nat} {req : Req} :
      p.task id = none → M.accepts p.shared req →
      PoolStep M p (.spawn id req) { p with task := Function.update p.task id (some ⟨req, [], M.start req⟩) }
  | perform {p : Pool σ Req Op Ans α} {id : Nat} {req : Req} {done : List (Performed Op Ans)} {o : Op}
      {k : Ans o → Prog Op Ans α} {a : Ans o} {s : σ} :
      p.task id = some ⟨req, done, .call o k⟩ → M.exec p.shared o a s →
      PoolStep M p (.perform id o a) ⟨s, Function.update p.task id (some ⟨req, done ++ [⟨o, a⟩], k a⟩)⟩
  | env {p : Pool σ Req Op Ans α} {e : ε} {s : σ} :
      M.env p.shared e s → PoolStep M p (.env e) { p with shared := s }

namespace Pool
variable {M : Machine σ Req Op Ans α ε} {p q : Pool σ Req Op Ans α}

def Faithful (M : Machine σ Req Op Ans α ε) (p : Pool σ Req Op Ans α) : Prop :=
  ∀ id t, p.task id = some t → Follows (M.start t.req) t.done t.prog

theorem faithful_initial (s : σ) : Faithful M (Pool.initial s) := by
  intro id t ht
  simp [initial] at ht

theorem faithful_step {e : PoolEvent Req Op Ans ε} (hstep : PoolStep M p e q) (h : Faithful M p) :
    Faithful M q := by
  intro id t ht
  cases hstep with
  | spawn hnone _ =>
    rcases update_some_iff.mp ht with ⟨_, rfl⟩ | ⟨_, hold⟩
    · exact .nil _
    · exact h id t hold
  | perform hsome _ =>
    rcases update_some_iff.mp ht with ⟨rfl, rfl⟩ | ⟨_, hold⟩
    · exact (h id _ hsome).snoc _
    · exact h id t hold
  | env _ => exact h id t ht

/-- The run lemma: every task follows its own program. -/
theorem follows {s : σ} {es : List (PoolEvent Req Op Ans ε)} (h : Run (PoolStep M) (initial s) es p)
    {id : Nat} {t : Task Req Op Ans α} (ht : p.task id = some t) :
    Follows (M.start t.req) t.done t.prog := by
  have hf : Faithful M p := h.invariant faithful_step (faithful_initial s)
  exact hf id t ht

theorem task_step {e : PoolEvent Req Op Ans ε} (hstep : PoolStep M p e q) {id : Nat} {t : Task Req Op Ans α}
    (ht : p.task id = some t) : ∃ t', q.task id = some t' ∧ t'.req = t.req ∧ t.done <+: t'.done := by
  cases hstep with
  | @spawn id' req hnone _ =>
    have hne : id ≠ id' := by
      rintro rfl
      rw [ht] at hnone
      cases hnone
    exact ⟨t, update_some_iff.mpr (.inr ⟨hne, ht⟩), rfl, List.prefix_rfl⟩
  | @perform id' req done o k a s hsome _ =>
    by_cases hid : id = id'
    · subst hid
      rw [ht] at hsome
      cases hsome
      exact ⟨_, update_some_iff.mpr (.inl ⟨rfl, rfl⟩), rfl, List.prefix_append _ _⟩
    · exact ⟨t, update_some_iff.mpr (.inr ⟨hid, ht⟩), rfl, List.prefix_rfl⟩
  | env _ => exact ⟨t, ht, rfl, List.prefix_rfl⟩

theorem task_mono {es : List (PoolEvent Req Op Ans ε)} (h : Run (PoolStep M) p es q) {id : Nat}
    {t : Task Req Op Ans α} (ht : p.task id = some t) :
    ∃ t', q.task id = some t' ∧ t'.req = t.req ∧ t.done <+: t'.done := by
  induction h generalizing t with
  | nil _ => exact ⟨t, ht, rfl, List.prefix_rfl⟩
  | cons hstep _ ih =>
    obtain ⟨t₁, ht₁, hreq₁, hdone₁⟩ := task_step hstep ht
    obtain ⟨t₂, ht₂, hreq₂, hdone₂⟩ := ih ht₁
    exact ⟨t₂, ht₂, hreq₂.trans hreq₁, hdone₁.trans hdone₂⟩

theorem perform_inv {id : Nat} {o : Op} {a : Ans o} (h : PoolStep M p (.perform id o a) q) :
    ∃ req done k, p.task id = some ⟨req, done, .call o k⟩ ∧ M.exec p.shared o a q.shared ∧
      q.task = Function.update p.task id (some ⟨req, done ++ [⟨o, a⟩], k a⟩) := by
  cases h with
  | perform hsome hexec => exact ⟨_, _, _, hsome, hexec, rfl⟩

theorem mem_done {id : Nat} {o : Op} {a : Ans o} {r : Pool σ Req Op Ans α}
    {es : List (PoolEvent Req Op Ans ε)} (h : PoolStep M p (.perform id o a) q)
    (hr : Run (PoolStep M) q es r) {t : Task Req Op Ans α} (ht : r.task id = some t) : ⟨o, a⟩ ∈ t.done := by
  obtain ⟨req, done, k, -, -, htask⟩ := perform_inv h
  have hq : q.task id = some ⟨req, done ++ [⟨o, a⟩], k a⟩ := by
    rw [htask]
    simp
  obtain ⟨t', ht', -, hdone⟩ := task_mono hr hq
  rw [ht] at ht'
  cases ht'
  exact hdone.subset (by simp)

theorem task_of_performed {es : List (PoolEvent Req Op Ans ε)} (h : Run (PoolStep M) p es q) {id : Nat} {o : Op}
    {a : Ans o} (hev : .perform id o a ∈ es) : ∃ t, q.task id = some t ∧ ⟨o, a⟩ ∈ t.done := by
  obtain ⟨_, _, _, p', -, -, hstep, hpost⟩ := h.split_at hev
  obtain ⟨req, done, k, -, -, htask⟩ := perform_inv hstep
  have hp' : p'.task id = some ⟨req, done ++ [⟨o, a⟩], k a⟩ := by
    rw [htask]
    simp
  obtain ⟨t, ht, -, hdone⟩ := task_mono hpost hp'
  exact ⟨t, ht, hdone.subset (by simp)⟩

theorem performed_of_done {s : σ} {es : List (PoolEvent Req Op Ans ε)} (h : Run (PoolStep M) (initial s) es p)
    {id : Nat} {t : Task Req Op Ans α} (ht : p.task id = some t) {o : Op} {a : Ans o} (hm : ⟨o, a⟩ ∈ t.done) :
    .perform id o a ∈ es := by
  refine h.reverseInduction
    (P := fun es p => ∀ t, p.task id = some t → ⟨o, a⟩ ∈ t.done → .perform id o a ∈ es) ?_ ?_ t ht hm
  · intro t ht
    simp [initial] at ht
  · intro es p e q _ hstep ih t ht hm
    rw [List.mem_append, List.mem_singleton]
    cases hstep with
    | spawn _ _ =>
      rcases update_some_iff.mp ht with ⟨_, rfl⟩ | ⟨_, hold⟩
      · cases hm
      · exact .inl (ih t hold hm)
    | perform hsome _ =>
      rcases update_some_iff.mp ht with ⟨rfl, rfl⟩ | ⟨_, hold⟩
      · rcases List.mem_append.mp hm with hdone | hnew
        · exact .inl (ih _ hsome hdone)
        · cases List.mem_singleton.mp hnew
          exact .inr rfl
      · exact .inl (ih t hold hm)
    | env _ => exact .inl (ih t ht hm)

/-- The moment of an operation: the task had then done what stands before it. -/
theorem performed_at {s : σ} {es : List (PoolEvent Req Op Ans ε)} (h : Run (PoolStep M) (initial s) es p) {id : Nat}
    {t : Task Req Op Ans α} (ht : p.task id = some t) {o : Op} {a : Ans o} {pre post : List (Performed Op Ans)}
    (hdone : t.done = pre ++ ⟨o, a⟩ :: post) :
    ∃ es₁ es₂ q q' k, es = es₁ ++ .perform id o a :: es₂ ∧ Run (PoolStep M) (initial s) es₁ q ∧
      q.task id = some ⟨t.req, pre, .call o k⟩ ∧ PoolStep M q (.perform id o a) q' ∧ Run (PoolStep M) q' es₂ p := by
  refine h.reverseInduction
    (P := fun es p => ∀ t post, p.task id = some t → t.done = pre ++ ⟨o, a⟩ :: post →
      ∃ es₁ es₂ q q' k, es = es₁ ++ .perform id o a :: es₂ ∧ Run (PoolStep M) (initial s) es₁ q ∧
        q.task id = some ⟨t.req, pre, .call o k⟩ ∧ PoolStep M q (.perform id o a) q' ∧
        Run (PoolStep M) q' es₂ p) ?_ ?_ t post ht hdone
  · intro t _ ht
    simp [initial] at ht
  · intro es p e r hrun hstep ih t post ht hdone
    -- the operation is older than the last step
    have holder : ∀ t' post', p.task id = some t' → t'.req = t.req → t'.done = pre ++ ⟨o, a⟩ :: post' →
        ∃ es₁ es₂ q q' k, es ++ [e] = es₁ ++ .perform id o a :: es₂ ∧ Run (PoolStep M) (initial s) es₁ q ∧
          q.task id = some ⟨t.req, pre, .call o k⟩ ∧ PoolStep M q (.perform id o a) q' ∧
          Run (PoolStep M) q' es₂ r := by
      intro t' post' ht' hreq hd'
      obtain ⟨es₁, es₂, q, q', k, rfl, hq, htask, hop, hrest⟩ := ih t' post' ht' hd'
      exact ⟨es₁, es₂ ++ [e], q, q', k, by simp, hq, hreq ▸ htask, hop, hrest.snoc hstep⟩
    have hfull := hstep
    cases hstep with
    | spawn _ _ =>
      rcases update_some_iff.mp ht with ⟨_, rfl⟩ | ⟨_, hold⟩
      · simp at hdone
      · exact holder t post hold rfl hdone
    | perform hsome _ =>
      rcases update_some_iff.mp ht with ⟨rfl, rfl⟩ | ⟨_, hold⟩
      · rcases List.eq_nil_or_concat post with rfl | ⟨post', c, rfl⟩
        · obtain ⟨rfl, hlast⟩ := List.append_inj' hdone rfl
          cases List.singleton_inj.mp hlast
          exact ⟨es, [], _, _, _, rfl, hrun, hsome, hfull, .nil _⟩
        · rw [List.concat_eq_append, ← List.cons_append, ← List.append_assoc] at hdone
          exact holder _ post' hsome rfl (List.append_inj' hdone rfl).1
      · exact holder t post hold rfl hdone
    | env _ => exact holder t post ht rfl hdone

/-! ### What one task does along a run -/

def eventBy (id : Nat) : PoolEvent Req Op Ans ε → Option (Performed Op Ans)
  | .perform id' o a => if id' = id then some ⟨o, a⟩ else none
  | _ => none

def performedBy (id : Nat) (es : List (PoolEvent Req Op Ans ε)) : List (Performed Op Ans) := es.filterMap (eventBy id)

theorem performedBy_append (id : Nat) (es fs : List (PoolEvent Req Op Ans ε)) :
    performedBy id (es ++ fs) = performedBy id es ++ performedBy id fs :=
  List.filterMap_append

theorem mem_performedBy {id : Nat} {es : List (PoolEvent Req Op Ans ε)} {o : Op} {a : Ans o} :
    ⟨o, a⟩ ∈ performedBy id es ↔ .perform id o a ∈ es := by
  rw [performedBy, List.mem_filterMap]
  constructor
  · rintro ⟨e, he, heq⟩
    cases e with
    | perform id' o' a' =>
      obtain ⟨rfl, hc⟩ : id' = id ∧ (⟨o', a'⟩ : Performed Op Ans) = ⟨o, a⟩ := by
        simpa only [eventBy, Option.ite_none_right_eq_some, Option.some.injEq] using heq
      cases hc
      exact he
    | _ => cases heq
  · intro he
    exact ⟨_, he, if_pos rfl⟩

theorem performedBy_perform (id : Nat) (o : Op) (a : Ans o) (es : List (PoolEvent Req Op Ans ε)) :
    performedBy id (.perform id o a :: es) = ⟨o, a⟩ :: performedBy id es := by
  simp [performedBy, eventBy]

theorem performedBy_other {id id' : Nat} (hid : id' ≠ id) (o : Op) (a : Ans o) (es : List (PoolEvent Req Op Ans ε)) :
    performedBy id (.perform id' o a :: es) = performedBy id es := by
  simp [performedBy, eventBy, hid]

theorem progress {es : List (PoolEvent Req Op Ans ε)} (h : Run (PoolStep M) p es q) {id : Nat}
    {t : Task Req Op Ans α} (ht : p.task id = some t) :
    ∃ prog, q.task id = some ⟨t.req, t.done ++ performedBy id es, prog⟩ ∧ Follows t.prog (performedBy id es) prog := by
  induction h generalizing t with
  | nil p =>
    refine ⟨t.prog, ?_, .nil _⟩
    rw [ht, performedBy, List.filterMap_nil, List.append_nil]
  | @cons p r q e es hstep _ ih =>
    cases hstep with
    | @spawn id' req hnone _ =>
      have hne : id ≠ id' := by
        rintro rfl
        rw [ht] at hnone
        cases hnone
      exact ih (update_some_iff.mpr (.inr ⟨hne, ht⟩))
    | @perform id' req done o k a s hsome _ =>
      by_cases hid : id = id'
      · subst hid
        rw [ht] at hsome
        cases hsome
        obtain ⟨prog, hq, hf⟩ := ih (update_some_iff.mpr (.inl ⟨rfl, rfl⟩))
        refine ⟨prog, ?_, ?_⟩
        · rw [performedBy_perform]
          simpa using hq
        · rw [performedBy_perform]
          exact .cons hf
      · rw [performedBy_other (Ne.symm hid)]
        exact ih (update_some_iff.mpr (.inr ⟨hid, ht⟩))
    | env _ => exact ih ht

/-- A task that was not there before has done everything along the run. -/
theorem arrived {es : List (PoolEvent Req Op Ans ε)} (h : Run (PoolStep M) p es q) {id : Nat}
    {t : Task Req Op Ans α} (hnone : p.task id = none) (ht : q.task id = some t) :
    t.done = performedBy id es ∧ Follows (M.start t.req) t.done t.prog := by
  induction h with
  | nil p =>
    rw [hnone] at ht
    cases ht
  | @cons p r q e es hstep hrest ih =>
    cases hstep with
    | @spawn id' req hfree hok =>
      by_cases hid : id = id'
      · subst hid
        obtain ⟨prog, hq, hf⟩ := progress hrest (update_some_iff.mpr (.inl ⟨rfl, rfl⟩))
        rw [ht] at hq
        cases hq
        exact ⟨rfl, hf⟩
      · exact ih ((Function.update_of_ne hid _ _).trans hnone) ht
    | @perform id' req done o k a s hsome _ =>
      have hne : id ≠ id' := by
        rintro rfl
        rw [hnone] at hsome
        cases hsome
      rw [performedBy_other (Ne.symm hne)]
      exact ih ((Function.update_of_ne hne _ _).trans hnone) ht
    | env _ => exact ih hnone ht

theorem done_eq {s : σ} {es : List (PoolEvent Req Op Ans ε)} (h : Run (PoolStep M) (initial s) es p) {id : Nat}
    {t : Task Req Op Ans α} (ht : p.task id = some t) : t.done = performedBy id es :=
  (arrived h rfl ht).1

/-- Where no operation ever blocks, every task can be run to its answer. -/
theorem can_finish (total : ∀ s o, ∃ a s', M.exec s o a s') {id : Nat} {req : Req}
    {done : List (Performed Op Ans)} {prog : Prog Op Ans α} (ht : p.task id = some ⟨req, done, prog⟩) :
    ∃ es q done' r, Run (PoolStep M) p es q ∧ q.task id = some ⟨req, done', .pure r⟩ ∧
      ∀ e ∈ es, ∃ o a, e = .perform id o a := by
  induction prog generalizing p done with
  | pure r => exact ⟨[], p, done, r, .nil p, ht, by simp⟩
  | call o k ih =>
    obtain ⟨a, s', hexec⟩ := total p.shared o
    let next : Pool σ Req Op Ans α :=
      ⟨s', Function.update p.task id (some ⟨req, done ++ [⟨o, a⟩], k a⟩)⟩
    have hstep : PoolStep M p (.perform id o a) next := .perform ht hexec
    have hnext : next.task id = some ⟨req, done ++ [⟨o, a⟩], k a⟩ := update_some_iff.mpr (.inl ⟨rfl, rfl⟩)
    obtain ⟨es, q, done', r, hrun, hq, hown⟩ := ih a hnext
    refine ⟨.perform id o a :: es, q, done', r, .cons hstep hrun, hq, ?_⟩
    intro e he
    rcases List.mem_cons.mp he with rfl | he
    · exact ⟨o, a, rfl⟩
    · exact hown e he

theorem run_alone {id : Nat} {req : Req} {done cs : List (Performed Op Ans)} {prog prog' : Prog Op Ans α}
    {s : σ} (hf : Follows prog cs prog') (hx : Run (fun s c s' => M.exec s c.1 c.2 s') p.shared cs s)
    (ht : p.task id = some ⟨req, done, prog⟩) :
    ∃ q, Run (PoolStep M) p (cs.map fun c => .perform id c.1 c.2) q ∧ q.shared = s ∧
      q.task = Function.update p.task id (some ⟨req, done ++ cs, prog'⟩) := by
  induction hf generalizing p done with
  | nil prog =>
    refine ⟨p, .nil p, Run.nil_iff.mp hx, ?_⟩
    rw [List.append_nil, ← ht, Function.update_eq_self]
  | @cons o k a cs prog' _ ih =>
    obtain ⟨s₁, hexec, hrest⟩ := Run.cons_iff.mp hx
    let next : Pool σ Req Op Ans α :=
      ⟨s₁, Function.update p.task id (some ⟨req, done ++ [⟨o, a⟩], k a⟩)⟩
    have hstep : PoolStep M p (.perform id o a) next := .perform ht hexec
    have hnext : next.task id = some ⟨req, done ++ [⟨o, a⟩], k a⟩ := update_some_iff.mpr (.inl ⟨rfl, rfl⟩)
    obtain ⟨q, hrun, hs, htask⟩ := ih hrest hnext
    refine ⟨q, .cons hstep hrun, hs, ?_⟩
    rw [htask]
    simp [next]

theorem serve_until (id : Nat) {req : Req} {cs : List (Performed Op Ans)} {prog : Prog Op Ans α} {s : σ}
    (hfree : p.task id = none) (hok : M.accepts p.shared req) (hf : Follows (M.start req) cs prog)
    (hx : Run (fun s c s' => M.exec s c.1 c.2 s') p.shared cs s) :
    ∃ q, Run (PoolStep M) p (.spawn id req :: cs.map fun c => .perform id c.1 c.2) q ∧ q.shared = s ∧
      q.task = Function.update p.task id (some ⟨req, cs, prog⟩) := by
  let next : Pool σ Req Op Ans α := { p with task := Function.update p.task id (some ⟨req, [], M.start req⟩) }
  have hstep : PoolStep M p (.spawn id req) next := .spawn hfree hok
  have hnext : next.task id = some ⟨req, [], M.start req⟩ := update_some_iff.mpr (.inl ⟨rfl, rfl⟩)
  obtain ⟨q, hrun, hs, htask⟩ := run_alone (p := next) hf hx hnext
  refine ⟨q, .cons hstep hrun, hs, ?_⟩
  rw [htask]
  simp [next]

theorem serve (id : Nat) {req : Req} {cs : List (Performed Op Ans)} {r : α} {s : σ}
    (hfree : p.task id = none) (hok : M.accepts p.shared req) (hf : Follows (M.start req) cs (.pure r))
    (hx : Run (fun s c s' => M.exec s c.1 c.2 s') p.shared cs s) :
    ∃ q, Run (PoolStep M) p (.spawn id req :: cs.map fun c => .perform id c.1 c.2) q ∧ q.shared = s ∧
      q.task = Function.update p.task id (some ⟨req, cs, .pure r⟩) :=
  serve_until id hfree hok hf hx

end Pool

/-! ## One program among moving surroundings -/

structure Solo (σ : Type y) (Op : Type u) (Ans : Op → Type v) (α : Type w) where
  shared : σ
  prog : Prog Op Ans α

inductive SoloEvent (Op : Type u) (Ans : Op → Type v) (ε : Type y) where
  | perform (o : Op) (a : Ans o)
  | env (e : ε)

inductive SoloStep (exec : σ → (o : Op) → Ans o → σ → Prop) (env : σ → ε → σ → Prop) :
    Solo σ Op Ans α → SoloEvent Op Ans ε → Solo σ Op Ans α → Prop where
  | perform {s s' : σ} {o : Op} {k : Ans o → Prog Op Ans α} {a : Ans o} :
      exec s o a s' → SoloStep exec env ⟨s, .call o k⟩ (.perform o a) ⟨s', k a⟩
  | env {s s' : σ} {p : Prog Op Ans α} {e : ε} :
      env s e s' → SoloStep exec env ⟨s, p⟩ (.env e) ⟨s', p⟩

namespace SoloEvent

def performed? : SoloEvent Op Ans ε → Option (Performed Op Ans)
  | .perform o a => some ⟨o, a⟩
  | .env _ => none

end SoloEvent

namespace Solo
variable {exec : σ → (o : Op) → Ans o → σ → Prop} {env : σ → ε → σ → Prop}

def performed (es : List (SoloEvent Op Ans ε)) : List (Performed Op Ans) :=
  es.filterMap SoloEvent.performed?

@[simp] theorem performed_append (es fs : List (SoloEvent Op Ans ε)) :
    performed (es ++ fs) = performed es ++ performed fs :=
  List.filterMap_append

theorem mem_performed {es : List (SoloEvent Op Ans ε)} {o : Op} {a : Ans o} :
    ⟨o, a⟩ ∈ performed es ↔ .perform o a ∈ es := by
  rw [performed, List.mem_filterMap]
  constructor
  · rintro ⟨e, he, heq⟩
    cases e with
    | perform o' a' =>
      cases heq
      exact he
    | env _ => cases heq
  · intro he
    exact ⟨_, he, rfl⟩

theorem follows {s t : Solo σ Op Ans α} {es : List (SoloEvent Op Ans ε)}
    (h : Run (SoloStep exec env) s es t) : Follows s.prog (performed es) t.prog := by
  induction h with
  | nil s => exact .nil _
  | cons hstep _ ih =>
    cases hstep with
    | perform _ => exact .cons ih
    | env _ => exact ih

end Solo

end Programs
