import IronInstance.Library.Programs

/-!
# Operations that are programs themselves

What is one operation at one level may be a whole program one level below.
`Prog.expand` puts such programs in the place of the operations, and a pool of
expanded programs refines the pool of the original ones: the level above sees an
operation happen at the last step of its program and nothing before. The labels of
both levels agree, so what is known of the events of the upper level holds below.

`Prog.Keeps` is a discipline on programs: the operations a program has performed
determine a local state, and the next operation must be permitted in that state.
-/

namespace Programs
open Runs
set_option autoImplicit false

universe u v w x y z

/-! ## Disciplines -/

section Discipline
variable {Op : Type u} {Ans : Op → Type w} {α β : Type w} {χ : Type v}

/-- The local state after the operations `cs`. -/
def history (next : χ → (o : Op) → Ans o → χ) (s : χ) (cs : List (Performed Op Ans)) : χ :=
  cs.foldl (fun s c => next s c.1 c.2) s

@[simp] theorem history_nil (next : χ → (o : Op) → Ans o → χ) (s : χ) : history next s [] = s := rfl

theorem history_append (next : χ → (o : Op) → Ans o → χ) (s : χ) (cs ds : List (Performed Op Ans)) :
    history next s (cs ++ ds) = history next (history next s cs) ds :=
  List.foldl_append

theorem history_snoc (next : χ → (o : Op) → Ans o → χ) (s : χ) (cs : List (Performed Op Ans)) (o : Op) (a : Ans o) :
    history next s (cs ++ [⟨o, a⟩]) = next (history next s cs) o a :=
  history_append next s cs [⟨o, a⟩]

/-- On every path each operation is permitted in the state reached by the ones before,
and the path ends in `Q`. -/
def Prog.Keeps (next : χ → (o : Op) → Ans o → χ) (ok : χ → Op → Prop) (Q : χ → Prop) : χ → Prog Op Ans α → Prop
  | s, .pure _ => Q s
  | s, .call o k => ok s o ∧ ∀ a, (k a).Keeps next ok Q (next s o a)

variable {next : χ → (o : Op) → Ans o → χ} {ok : χ → Op → Prop} {Q R : χ → Prop} {s : χ}

theorem Prog.Keeps.bind {p : Prog Op Ans α} {f : α → Prog Op Ans β} (hp : p.Keeps next ok R s)
    (hf : ∀ s a, R s → (f a).Keeps next ok Q s) : (p.bind f).Keeps next ok Q s := by
  induction p generalizing s with
  | pure a => exact hf s a hp
  | call o k ih => exact ⟨hp.1, fun a => ih a (hp.2 a)⟩

theorem Prog.Keeps.of_follows {p q : Prog Op Ans α} {cs : List (Performed Op Ans)} (h : Follows p cs q)
    (hp : p.Keeps next ok Q s) : q.Keeps next ok Q (history next s cs) := by
  induction h generalizing s with
  | nil p => exact hp
  | cons _ ih => exact ih (hp.2 _)

end Discipline

/-! ## Expansion -/

section Expansion
variable {Op : Type u} {Ans : Op → Type w} {Op' : Type v} {Ans' : Op' → Type w} {α β : Type w}

def Prog.expand (f : (o : Op) → Prog Op' Ans' (Ans o)) : Prog Op Ans α → Prog Op' Ans' α
  | .pure a => .pure a
  | .call o k => (f o).bind fun a => (k a).expand f

/-- `cs` carried out one operation after the other by the programs of `f`. -/
inductive Carried (f : (o : Op) → Prog Op' Ans' (Ans o)) :
    List (Performed Op Ans) → List (Performed Op' Ans') → Prop where
  | nil : Carried f [] []
  | cons {o : Op} {a : Ans o} {cs : List (Performed Op Ans)} {ds es : List (Performed Op' Ans')} :
      Follows (f o) ds (.pure a) → Carried f cs es → Carried f (⟨o, a⟩ :: cs) (ds ++ es)

theorem Follows.of_bind {p : Prog Op Ans α} {f : α → Prog Op Ans β} {cs : List (Performed Op Ans)} {r : β}
    (h : Follows (p.bind f) cs (.pure r)) :
    ∃ a ds es, cs = ds ++ es ∧ Follows p ds (.pure a) ∧ Follows (f a) es (.pure r) := by
  induction p generalizing cs with
  | pure a => exact ⟨a, [], cs, rfl, .nil _, h⟩
  | call o k ih =>
    obtain ⟨b, cs', rfl, hrest⟩ := Follows.call_finished h
    obtain ⟨a, ds, es, rfl, hp, hf⟩ := ih b hrest
    exact ⟨a, ⟨o, b⟩ :: ds, es, rfl, .cons hp, hf⟩

theorem Follows.bind {p : Prog Op Ans α} {f : α → Prog Op Ans β} {cs ds : List (Performed Op Ans)} {a : α}
    {q : Prog Op Ans β} (hp : Follows p cs (.pure a)) (hf : Follows (f a) ds q) : Follows (p.bind f) (cs ++ ds) q := by
  induction p generalizing cs with
  | pure b =>
    obtain ⟨rfl, rfl⟩ := Follows.pure_finished hp
    exact hf
  | call o k ih =>
    obtain ⟨b, cs', rfl, hrest⟩ := Follows.call_finished hp
    exact .cons (ih b hrest)

variable {f : (o : Op) → Prog Op' Ans' (Ans o)}

theorem Carried.follows {p q : Prog Op Ans α} {cs : List (Performed Op Ans)} {es : List (Performed Op' Ans')}
    (h : Carried f cs es) (hp : Follows p cs q) : Follows (p.expand f) es (q.expand f) := by
  induction h generalizing p with
  | nil =>
    cases hp
    exact .nil _
  | cons hop _ ih =>
    cases hp with
    | cons hrest => exact hop.bind (ih hrest)

theorem follows_expand {p : Prog Op Ans α} {es : List (Performed Op' Ans')} {r : α}
    (h : Follows (p.expand f) es (.pure r)) : ∃ cs, Follows p cs (.pure r) ∧ Carried f cs es := by
  induction p generalizing es with
  | pure a =>
    obtain ⟨rfl, rfl⟩ := Follows.pure_finished h
    exact ⟨[], .nil _, .nil⟩
  | call o k ih =>
    obtain ⟨a, ds, es', rfl, hop, hrest⟩ := Follows.of_bind h
    obtain ⟨cs, hcs, hcarried⟩ := ih a hrest
    exact ⟨⟨o, a⟩ :: cs, .cons hcs, .cons hop hcarried⟩

theorem Carried.segment {cs : List (Performed Op Ans)} {es : List (Performed Op' Ans')} (h : Carried f cs es)
    {o : Op} {a : Ans o} (hm : ⟨o, a⟩ ∈ cs) : ∃ pre ds post, es = pre ++ ds ++ post ∧ Follows (f o) ds (.pure a) := by
  induction h with
  | nil => cases hm
  | @cons o' a' cs ds es hop _ ih =>
    rcases List.mem_cons.mp hm with heq | hm
    · cases heq
      exact ⟨[], ds, es, rfl, hop⟩
    · obtain ⟨pre, ds', post, rfl, hds⟩ := ih hm
      exact ⟨ds ++ pre, ds', post, by simp, hds⟩

theorem Prog.Keeps.expand {χ : Type x} {next : χ → (o : Op') → Ans' o → χ} {ok : χ → Op' → Prop} {Q : χ → Prop}
    (hf : ∀ o s, Q s → (f o).Keeps next ok Q s) (p : Prog Op Ans α) {s : χ} (hs : Q s) :
    (p.expand f).Keeps next ok Q s := by
  induction p generalizing s with
  | pure a => exact hs
  | call o k ih => exact .bind (hf o s hs) fun s a hs => ih a hs

end Expansion

/-! ## Refinement -/

section Refinement
variable {σ σ' ε ε' : Type y} {Req : Type x} {Op : Type u} {Ans : Op → Type w} {Op' : Type v} {Ans' : Op' → Type w}
  {α : Type w} {L : Type z}

/-- The program does `o` at its last step, with the same label, and shows nothing before. -/
def Prog.CarriesOut (abs : σ' → σ) (exec : σ → (o : Op) → Ans o → σ → Prop)
    (exec' : σ' → (o : Op') → Ans' o → σ' → Prop) (lab : Performed Op Ans → Option L)
    (lab' : Performed Op' Ans' → Option L) (o : Op) : Prog Op' Ans' (Ans o) → Prop
  | .pure _ => False
  | .call o' k => ∀ a',
      (∃ a, k a' = .pure a ∧ lab' ⟨o', a'⟩ = lab ⟨o, a⟩ ∧ ∀ s t, exec' s o' a' t → exec (abs s) o a (abs t)) ∨
      (lab' ⟨o', a'⟩ = none ∧ (∀ s t, exec' s o' a' t → abs t = abs s) ∧
        (k a').CarriesOut abs exec exec' lab lab' o)

/-- The machine `M'` runs the programs of `M` with every operation expanded by `f`. -/
structure Refines (M' : Machine σ' Req Op' Ans' α ε') (M : Machine σ Req Op Ans α ε)
    (f : (o : Op) → Prog Op' Ans' (Ans o)) (abs : σ' → σ) (lab : Performed Op Ans → Option L)
    (lab' : Performed Op' Ans' → Option L) : Prop where
  start : ∀ r, M'.start r = (M.start r).expand f
  accepts : ∀ s r, M'.accepts s r → M.accepts (abs s) r
  ops : ∀ o, (f o).CarriesOut abs M.exec M'.exec lab lab' o
  env : ∀ s e t, M'.env s e t → abs t = abs s ∨ ∃ e', M.env (abs s) e' (abs t)

section Labels
variable {Op : Type u} {Ans : Op → Type w} {ε : Type y} (lab : Performed Op Ans → Option L)

def PoolEvent.label : PoolEvent Req Op Ans ε → Option (Nat × L)
  | .perform id o a => (lab ⟨o, a⟩).map fun l => (id, l)
  | _ => none

/-- The labels of the operations of a run, with the task that performed each. -/
def labels (es : List (PoolEvent Req Op Ans ε)) : List (Nat × L) := es.filterMap (PoolEvent.label lab)

theorem labels_append (es fs : List (PoolEvent Req Op Ans ε)) :
    labels lab (es ++ fs) = labels lab es ++ labels lab fs :=
  List.filterMap_append

theorem labels_perform (id : Nat) (o : Op) (a : Ans o) :
    labels lab [(.perform id o a : PoolEvent Req Op Ans ε)] = ((lab ⟨o, a⟩).map fun l => (id, l)).toList := by
  simp only [labels, List.filterMap_cons, List.filterMap_nil, PoolEvent.label]
  cases lab ⟨o, a⟩ <;> rfl

end Labels

variable {M' : Machine σ' Req Op' Ans' α ε'} {M : Machine σ Req Op Ans α ε}
  {f : (o : Op) → Prog Op' Ans' (Ans o)} {abs : σ' → σ} {lab : Performed Op Ans → Option L}
  {lab' : Performed Op' Ans' → Option L}

/-- What is left below, and what is left above: at rest, or within an operation. -/
inductive Matches (M' : Machine σ' Req Op' Ans' α ε') (M : Machine σ Req Op Ans α ε)
    (f : (o : Op) → Prog Op' Ans' (Ans o)) (abs : σ' → σ) (lab : Performed Op Ans → Option L)
    (lab' : Performed Op' Ans' → Option L) : Prog Op' Ans' α → Prog Op Ans α → Prop where
  | pure (a : α) : Matches M' M f abs lab lab' (.pure a) (.pure a)
  | within {o : Op} {k : Ans o → Prog Op Ans α} {r : Prog Op' Ans' (Ans o)}
      (h : r.CarriesOut abs M.exec M'.exec lab lab' o) :
      Matches M' M f abs lab lab' (r.bind fun a => (k a).expand f) (.call o k)

theorem Refines.matches_expand (h : Refines M' M f abs lab lab') (p : Prog Op Ans α) :
    Matches M' M f abs lab lab' (p.expand f) p := by
  cases p with
  | pure a => exact .pure a
  | call o k => exact .within (h.ops o)

theorem Refines.matches_call (h : Refines M' M f abs lab lab') {o' : Op'} {k' : Ans' o' → Prog Op' Ans' α}
    {p : Prog Op Ans α} (hm : Matches M' M f abs lab lab' (.call o' k') p) {s t : σ'} {a' : Ans' o'}
    (hexec : M'.exec s o' a' t) :
    (lab' ⟨o', a'⟩ = none ∧ abs t = abs s ∧ Matches M' M f abs lab lab' (k' a') p) ∨
      ∃ o k a, p = .call o k ∧ lab' ⟨o', a'⟩ = lab ⟨o, a⟩ ∧ M.exec (abs s) o a (abs t) ∧
        Matches M' M f abs lab lab' (k' a') (k a) := by
  generalize hq : Prog.call o' k' = q at hm
  cases hm with
  | pure a => cases hq
  | @within o k r hr =>
    cases r with
    | pure a => exact hr.elim
    | call o₁ k₁ =>
      cases hq
      rcases hr a' with ⟨a, hk, hlab, hdo⟩ | ⟨hlab, hquiet, hrest⟩
      · have hrest : Matches M' M f abs lab lab' ((k₁ a').bind fun a => (k a).expand f) (k a) := by
          rw [hk]
          exact h.matches_expand (k a)
        exact .inr ⟨o, k, a, rfl, hlab, hdo s t hexec, hrest⟩
      · exact .inl ⟨hlab, hquiet s t hexec, .within hrest⟩

/-- The same request, served below and above. -/
structure Serves (M' : Machine σ' Req Op' Ans' α ε') (M : Machine σ Req Op Ans α ε)
    (f : (o : Op) → Prog Op' Ans' (Ans o)) (abs : σ' → σ) (lab : Performed Op Ans → Option L)
    (lab' : Performed Op' Ans' → Option L) (t' : Task Req Op' Ans' α) (t : Task Req Op Ans α) : Prop where
  req : t.req = t'.req
  prog : Matches M' M f abs lab lab' t'.prog t.prog

/-- The pool below and the pool above, task by task. -/
structure Abstracts (M' : Machine σ' Req Op' Ans' α ε') (M : Machine σ Req Op Ans α ε)
    (f : (o : Op) → Prog Op' Ans' (Ans o)) (abs : σ' → σ) (lab : Performed Op Ans → Option L)
    (lab' : Performed Op' Ans' → Option L) (p' : Pool σ' Req Op' Ans' α) (p : Pool σ Req Op Ans α) : Prop where
  shared : p.shared = abs p'.shared
  tasks : ∀ id, Option.Rel (Serves M' M f abs lab lab') (p'.task id) (p.task id)

theorem Abstracts.initial (s : σ') :
    Abstracts M' M f abs lab lab' (Pool.initial s) (Pool.initial (abs s)) :=
  ⟨rfl, fun _ => .none⟩

section Tasks
variable {p' : Pool σ' Req Op' Ans' α} {p : Pool σ Req Op Ans α}

theorem Abstracts.idle (h : Abstracts M' M f abs lab lab' p' p) {id : Nat} (ht : p'.task id = none) :
    p.task id = none := by
  have hrel := h.tasks id
  rw [ht] at hrel
  cases hs : p.task id with
  | none => rfl
  | some t =>
    rw [hs] at hrel
    cases hrel

theorem Abstracts.busy (h : Abstracts M' M f abs lab lab' p' p) {id : Nat} {t' : Task Req Op' Ans' α}
    (ht : p'.task id = some t') : ∃ t, p.task id = some t ∧ Serves M' M f abs lab lab' t' t := by
  have hrel := h.tasks id
  rw [ht] at hrel
  cases hs : p.task id with
  | none =>
    rw [hs] at hrel
    cases hrel
  | some t =>
    rw [hs] at hrel
    cases hrel with
    | some hserves => exact ⟨t, rfl, hserves⟩

theorem Abstracts.update (h : Abstracts M' M f abs lab lab' p' p) (id : Nat) {t' : Task Req Op' Ans' α}
    {t : Task Req Op Ans α} (ht : Serves M' M f abs lab lab' t' t) (id' : Nat) :
    Option.Rel (Serves M' M f abs lab lab') (Function.update p'.task id (some t') id')
      (Function.update p.task id (some t) id') := by
  by_cases hid : id' = id
  · subst hid
    simpa using Option.Rel.some ht
  · simpa [hid] using h.tasks id'

/-- The level above does not move: only what is left below does. -/
theorem Abstracts.update_left (h : Abstracts M' M f abs lab lab' p' p) {id : Nat} {t' : Task Req Op' Ans' α}
    {t : Task Req Op Ans α} (htask : p.task id = some t) (ht : Serves M' M f abs lab lab' t' t) (id' : Nat) :
    Option.Rel (Serves M' M f abs lab lab') (Function.update p'.task id (some t') id') (p.task id') := by
  have hupd := h.update id ht id'
  rwa [← htask, Function.update_eq_self] at hupd

theorem Abstracts.answered (h : Abstracts M' M f abs lab lab' p' p) {id : Nat} {req : Req}
    {done : List (Performed Op' Ans')} {r : α} (ht : p'.task id = some ⟨req, done, .pure r⟩) :
    ∃ done, p.task id = some ⟨req, done, .pure r⟩ := by
  obtain ⟨⟨_, done', prog⟩, hu, rfl, hm⟩ := h.busy ht
  generalize hq : Prog.pure r = q at hm
  cases hm with
  | pure a =>
    cases hq
    exact ⟨done', hu⟩
  | @within o k s hs =>
    cases s with
    | pure a => exact hs.elim
    | call o₁ k₁ => cases hq

/-- A label happens above at the very step that shows it below. -/
theorem Abstracts.step (h : Refines M' M f abs lab lab') {q' : Pool σ' Req Op' Ans' α}
    {e : PoolEvent Req Op' Ans' ε'} (hp : Abstracts M' M f abs lab lab' p' p) (hstep : PoolStep M' p' e q') :
    ∃ es q, Run (PoolStep M) p es q ∧ Abstracts M' M f abs lab lab' q' q ∧ labels lab es = labels lab' [e] := by
  cases hstep with
  | @spawn id req hfree hok =>
    refine ⟨[.spawn id req], _, .single (.spawn (hp.idle hfree) (hp.shared ▸ h.accepts _ _ hok)), ?_, rfl⟩
    exact ⟨hp.shared, hp.update id ⟨rfl, h.start req ▸ h.matches_expand _⟩⟩
  | @perform id req done o' k' a' s hsome hexec =>
    obtain ⟨⟨_, done', prog⟩, ht, rfl, hm⟩ := hp.busy hsome
    rcases h.matches_call hm hexec with ⟨hlab, hsame, hrest⟩ | ⟨o, k, a, rfl, hlab, hdo, hrest⟩
    · exact ⟨[], p, .nil p, ⟨hp.shared.trans hsame.symm, hp.update_left ht ⟨rfl, hrest⟩⟩, by rw [labels_perform, hlab]; rfl⟩
    · exact ⟨[.perform id o a], _, .single (.perform ht (hp.shared ▸ hdo)), ⟨rfl, hp.update id ⟨rfl, hrest⟩⟩,
        by rw [labels_perform, labels_perform, hlab]⟩
  | @env e s henv =>
    rcases h.env _ _ _ henv with hsame | ⟨e', hmove⟩
    · exact ⟨[], p, .nil p, ⟨hp.shared.trans hsame.symm, hp.tasks⟩, rfl⟩
    · exact ⟨[.env e'], _, .single (.env (hp.shared ▸ hmove)), ⟨rfl, hp.tasks⟩, rfl⟩

/-- The run lemma: every run below is a run above with the same labels. -/
theorem Refines.run (h : Refines M' M f abs lab lab') {s : σ'} {es' : List (PoolEvent Req Op' Ans' ε')}
    (hrun : Run (PoolStep M') (Pool.initial s) es' p') :
    ∃ es p, Run (PoolStep M) (Pool.initial (abs s)) es p ∧ Abstracts M' M f abs lab lab' p' p ∧
      labels lab es = labels lab' es' := by
  refine hrun.reverseInduction (P := fun es' p' => ∃ es p, Run (PoolStep M) (Pool.initial (abs s)) es p ∧
    Abstracts M' M f abs lab lab' p' p ∧ labels lab es = labels lab' es') ?_ ?_
  · exact ⟨[], _, .nil _, .initial s, rfl⟩
  · rintro es' p' e q' _ hstep ⟨es, p, hes, hp, hlab⟩
    obtain ⟨fs, q, hfs, hq, hfs'⟩ := hp.step h hstep
    exact ⟨es ++ fs, q, hes.append hfs, hq, by rw [labels_append, labels_append, hlab, hfs']⟩

end Tasks

end Refinement

end Programs
