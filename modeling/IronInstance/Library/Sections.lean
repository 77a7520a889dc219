import IronInstance.Library.Programs

/-!
# Lock sections as single operations

Below the operations of a pool: an operation may be a body of finer steps that a task
takes while it holds a guard of a readers-writer lock. Any number of readers, or one
writer, may be inside; the other tasks go on with whatever needs no guard, so the finer
steps of a section are interleaved with those of other sections and with the rest of the
pool. Where every body computes its operation and a reader's steps change nothing, a run
with sections is a run of the pool in which each section is one operation, performed
when its guard is dropped.
-/

namespace Programs
open Runs
set_option autoImplicit false

universe u v w x y z t

/-- The part of a state that the lock protects. -/
structure Part (σ : Type y) (S : Type z) where
  get : σ → S
  set : σ → S → σ
  get_set : ∀ s a, get (set s a) = a
  set_get : ∀ s, set s (get s) = s
  set_set : ∀ s a b, set (set s a) b = set s b

inductive Guard where
  | read
  | write
  deriving DecidableEq

section Bodies
variable {S : Type z} {Fine : Type u} {Out : Fine → Type v} {β : Type w}

/-- Finer steps lead from the program `p` in the state `s` to `q` in `s'`. -/
inductive Reaches (fine : S → (m : Fine) → Out m → S → Prop) : S → Prog Fine Out β → S → Prog Fine Out β → Prop where
  | refl (s : S) (p : Prog Fine Out β) : Reaches fine s p s p
  | step {s s' s'' : S} {m : Fine} {k : Out m → Prog Fine Out β} {b : Out m} {q : Prog Fine Out β} :
      fine s m b s' → Reaches fine s' (k b) s'' q → Reaches fine s (.call m k) s'' q

namespace Reaches
variable {fine : S → (m : Fine) → Out m → S → Prop} {s s' s'' : S} {p q : Prog Fine Out β}

theorem snoc {m : Fine} {k : Out m → Prog Fine Out β} {b : Out m} (h : Reaches fine s p s' (.call m k))
    (hstep : fine s' m b s'') : Reaches fine s p s'' (k b) := by
  generalize hq : Prog.call m k = q at h
  induction h with
  | refl s p =>
    subst hq
    exact .step hstep (.refl _ _)
  | step hfirst _ ih => exact .step hfirst (ih hstep hq)

theorem only {Q : Fine → Prop} (h : Reaches fine s p s' q) (hp : p.Only Q) : q.Only Q := by
  induction h with
  | refl s p => exact hp
  | step _ _ ih => exact ih (hp.2 _)

theorem pure_iff {a b : β} : Reaches fine s (.pure a) s' (.pure b) ↔ b = a ∧ s' = s := by
  constructor
  · intro h
    cases h
    exact ⟨rfl, rfl⟩
  · rintro ⟨rfl, rfl⟩
    exact .refl _ _

theorem call_iff {m : Fine} {k : Out m → Prog Fine Out β} {a : β} :
    Reaches fine s (.call m k) s' (.pure a) ↔ ∃ b s₁, fine s m b s₁ ∧ Reaches fine s₁ (k b) s' (.pure a) := by
  constructor
  · intro h
    cases h with
    | step hfirst hrest => exact ⟨_, _, hfirst, hrest⟩
  · rintro ⟨b, s₁, hfirst, hrest⟩
    exact .step hfirst hrest

/-- A step with one outcome can be taken at once. -/
theorem call_det {m : Fine} {k : Out m → Prog Fine Out β} {a : β} {b : Out m} {s₁ : S}
    (hdet : ∀ b' s₂, fine s m b' s₂ ↔ b' = b ∧ s₂ = s₁) :
    Reaches fine s (.call m k) s' (.pure a) ↔ Reaches fine s₁ (k b) s' (.pure a) := by
  rw [call_iff]
  constructor
  · rintro ⟨b', s₂, hstep, hrest⟩
    obtain ⟨rfl, rfl⟩ := (hdet b' s₂).mp hstep
    exact hrest
  · intro h
    exact ⟨b, s₁, (hdet b s₁).mpr ⟨rfl, rfl⟩, h⟩

end Reaches

/-- However the program goes on from `s`, it never blocks. -/
def CanEnd (fine : S → (m : Fine) → Out m → S → Prop) : Prog Fine Out β → S → Prop
  | .pure _, _ => True
  | .call m k, s => (∃ b s', fine s m b s') ∧ ∀ b s', fine s m b s' → CanEnd fine (k b) s'

theorem CanEnd.of_reaches {fine : S → (m : Fine) → Out m → S → Prop} {s s' : S} {p q : Prog Fine Out β}
    (h : CanEnd fine p s) (hr : Reaches fine s p s' q) : CanEnd fine q s' := by
  induction hr with
  | refl s p => exact h
  | step hfirst _ ih => exact ih (h.2 _ _ hfirst)

end Bodies

section System
variable {σ : Type y} {S : Type z} {Req : Type x} {Op : Type u} {Ans : Op → Type v} {α : Type w} {ε : Type y}
  {Fine : Type t} {Out : Fine → Type v}

/-- Which operations run under which guard, and their bodies. -/
abbrev Sections (Op : Type u) (Ans : Op → Type v) (Fine : Type t) (Out : Fine → Type v) :=
  (o : Op) → Option (Guard × Prog Fine Out (Ans o))

structure Inside (Op : Type u) (Ans : Op → Type v) (Fine : Type t) (Out : Fine → Type v) where
  op : Op
  guard : Guard
  rest : Prog Fine Out (Ans op)

structure Locked (σ : Type y) (Req : Type x) (Op : Type u) (Ans : Op → Type v) (α : Type w) (Fine : Type t)
    (Out : Fine → Type v) where
  pool : Pool σ Req Op Ans α
  inside : Nat → Option (Inside Op Ans Fine Out)

def Locked.initial (s : σ) : Locked σ Req Op Ans α Fine Out := ⟨Pool.initial s, fun _ => none⟩

inductive LockEvent (Req : Type x) (Op : Type u) (Ans : Op → Type v) (ε : Type y) where
  | pool (e : PoolEvent Req Op Ans ε)
  | enter (id : Nat) (o : Op)
  | fine (id : Nat)

def LockEvent.visible : LockEvent Req Op Ans ε → Option (PoolEvent Req Op Ans ε)
  | .pool e => some e
  | _ => none

/-- What a pool sees of a run with sections. -/
def visible (es : List (LockEvent Req Op Ans ε)) : List (PoolEvent Req Op Ans ε) := es.filterMap LockEvent.visible

theorem visible_append (es fs : List (LockEvent Req Op Ans ε)) : visible (es ++ fs) = visible es ++ visible fs :=
  List.filterMap_append

variable (M : Machine σ Req Op Ans α ε) (part : Part σ S) (sec : Sections Op Ans Fine Out)
  (fine : S → (m : Fine) → Out m → S → Prop)

inductive LockStep :
    Locked σ Req Op Ans α Fine Out → LockEvent Req Op Ans ε → Locked σ Req Op Ans α Fine Out → Prop where
  | spawn {c : Locked σ Req Op Ans α Fine Out} {id : Nat} {req : Req} (hfree : c.pool.task id = none)
      (hok : M.accepts c.pool.shared req) :
      LockStep c (.pool (.spawn id req))
        ⟨{ c.pool with task := Function.update c.pool.task id (some ⟨req, [], M.start req⟩) }, c.inside⟩
  | direct {c : Locked σ Req Op Ans α Fine Out} {id : Nat} {req : Req} {done : List (Performed Op Ans)} {o : Op}
      {k : Ans o → Prog Op Ans α} {a : Ans o} {s : σ} (hsec : sec o = none)
      (ht : c.pool.task id = some ⟨req, done, .call o k⟩) (hexec : M.exec c.pool.shared o a s) :
      LockStep c (.pool (.perform id o a))
        ⟨⟨s, Function.update c.pool.task id (some ⟨req, done ++ [⟨o, a⟩], k a⟩)⟩, c.inside⟩
  -- a reader waits for the writer, a writer for everyone
  | enter {c : Locked σ Req Op Ans α Fine Out} {id : Nat} {req : Req} {done : List (Performed Op Ans)} {o : Op}
      {k : Ans o → Prog Op Ans α} {g : Guard} {body : Prog Fine Out (Ans o)} (hsec : sec o = some (g, body))
      (ht : c.pool.task id = some ⟨req, done, .call o k⟩) (hout : c.inside id = none)
      (hlock : ∀ i n, c.inside i = some n → g = .read ∧ n.guard = .read) :
      LockStep c (.enter id o) ⟨c.pool, Function.update c.inside id (some ⟨o, g, body⟩)⟩
  | fine {c : Locked σ Req Op Ans α Fine Out} {id : Nat} {o : Op} {g : Guard} {m : Fine}
      {j : Out m → Prog Fine Out (Ans o)} {b : Out m} {a : S} (hin : c.inside id = some ⟨o, g, .call m j⟩)
      (hfine : fine (part.get c.pool.shared) m b a) :
      LockStep c (.fine id)
        ⟨{ c.pool with shared := part.set c.pool.shared a }, Function.update c.inside id (some ⟨o, g, j b⟩)⟩
  | leave {c : Locked σ Req Op Ans α Fine Out} {id : Nat} {req : Req} {done : List (Performed Op Ans)} {o : Op}
      {k : Ans o → Prog Op Ans α} {g : Guard} {a : Ans o} (hin : c.inside id = some ⟨o, g, .pure a⟩)
      (ht : c.pool.task id = some ⟨req, done, .call o k⟩) :
      LockStep c (.pool (.perform id o a))
        ⟨{ c.pool with task := Function.update c.pool.task id (some ⟨req, done ++ [⟨o, a⟩], k a⟩) },
          Function.update c.inside id none⟩
  | env {c : Locked σ Req Op Ans α Fine Out} {e : ε} {s : σ} (henv : M.env c.pool.shared e s) :
      LockStep c (.pool (.env e)) ⟨{ c.pool with shared := s }, c.inside⟩

/-- What makes sections invisible: outside of them nobody looks at the protected part,
and a body computes its operation. -/
structure Sections.Sound : Prop where
  accepts : ∀ s a r, M.accepts s r → M.accepts (part.set s a) r
  env : ∀ s e s' a, M.env s e s' → part.get s' = part.get s ∧ M.env (part.set s a) e (part.set s' a)
  direct : ∀ o, sec o = none → ∀ s b s' a, M.exec s o b s' →
    part.get s' = part.get s ∧ M.exec (part.set s a) o b (part.set s' a)
  write : ∀ o body, sec o = some (.write, body) → ∀ s b a, Reaches fine (part.get s) body a (.pure b) →
    M.exec s o b (part.set s a)
  read : ∀ o body, sec o = some (.read, body) → ∀ s b, Reaches fine (part.get s) body (part.get s) (.pure b) →
    M.exec s o b s
  readOnly : ∀ o body, sec o = some (.read, body) → body.Only fun m => ∀ a b a', fine a m b a' → a' = a

/-- The pool `p` is the state `c` with every section that is still open not begun. -/
structure Atomic (c : Locked σ Req Op Ans α Fine Out) (p : Pool σ Req Op Ans α) : Prop where
  tasks : p.task = c.pool.task
  shared : p.shared = part.set c.pool.shared (part.get p.shared)
  clean : (∀ id n, c.inside id = some n → n.guard = .read) → p.shared = c.pool.shared
  called : ∀ id n, c.inside id = some n → ∃ req done k, c.pool.task id = some ⟨req, done, .call n.op k⟩
  reading : ∀ id n, c.inside id = some n → n.guard = .read → ∃ body, sec n.op = some (.read, body) ∧
    Reaches fine (part.get p.shared) body (part.get p.shared) n.rest
  writing : ∀ id n, c.inside id = some n → n.guard = .write → (∀ i m, c.inside i = some m → i = id) ∧
    ∃ body, sec n.op = some (.write, body) ∧ Reaches fine (part.get p.shared) body (part.get c.pool.shared) n.rest

namespace Atomic
variable {M part sec fine} {c c' : Locked σ Req Op Ans α Fine Out} {p : Pool σ Req Op Ans α}
  {e : LockEvent Req Op Ans ε}

theorem initial (s : σ) : Atomic part sec fine (Locked.initial s) (Pool.initial s : Pool σ Req Op Ans α) where
  tasks := rfl
  shared := (part.set_get s).symm
  clean := fun _ => rfl
  called := by
    intro id n hin
    cases hin
  reading := by
    intro id n hin
    cases hin
  writing := by
    intro id n hin
    cases hin

theorem get_eq (h : Atomic part sec fine c p) (hread : ∀ id n, c.inside id = some n → n.guard = .read) :
    part.get p.shared = part.get c.pool.shared :=
  congrArg part.get (h.clean hread)

theorem section_of_inside (h : Atomic part sec fine c p) {id : Nat} {n : Inside Op Ans Fine Out}
    (hin : c.inside id = some n) : sec n.op ≠ none := by
  intro hnone
  cases hg : n.guard with
  | read =>
    obtain ⟨body, hsec, -⟩ := h.reading id n hin hg
    rw [hnone] at hsec
    cases hsec
  | write =>
    obtain ⟨-, body, hsec, -⟩ := h.writing id n hin hg
    rw [hnone] at hsec
    cases hsec

/-- Beside a reader there are only readers. -/
theorem readers (h : Atomic part sec fine c p) {id : Nat} {n : Inside Op Ans Fine Out}
    (hin : c.inside id = some n) (hg : n.guard = .read) (i : Nat) (m : Inside Op Ans Fine Out)
    (hm : c.inside i = some m) : m.guard = .read := by
  cases hw : m.guard with
  | read => rfl
  | write =>
    have hid : id = i := (h.writing i m hm hw).1 id n hin
    subst hid
    rw [hin] at hm
    cases hm
    rw [hg] at hw
    cases hw

theorem outside_of_called (h : Atomic part sec fine c p) {id : Nat} {req : Req} {done : List (Performed Op Ans)}
    {o : Op} {k : Ans o → Prog Op Ans α} (ht : c.pool.task id = some ⟨req, done, .call o k⟩) (hsec : sec o = none) :
    c.inside id = none := by
  cases hin : c.inside id with
  | none => rfl
  | some n =>
    obtain ⟨req', done', k', ht'⟩ := h.called id n hin
    rw [ht] at ht'
    have hop : o = n.op := by
      injection ht' with ht'
      injection ht' with _ _ hcall
      injection hcall
    exact (h.section_of_inside hin (hop ▸ hsec)).elim

/-- A task outside of every section goes on. -/
theorem retask (h : Atomic part sec fine c p) {id : Nat} (hout : c.inside id = none) (t : Task Req Op Ans α) :
    Atomic part sec fine ⟨{ c.pool with task := Function.update c.pool.task id (some t) }, c.inside⟩
      { p with task := Function.update p.task id (some t) } where
  tasks := by simp only [h.tasks]
  shared := h.shared
  clean := h.clean
  called := by
    intro i n hin
    have hne : i ≠ id := by
      rintro rfl
      rw [hout] at hin
      cases hin
    simp only [Function.update_of_ne hne]
    exact h.called i n hin
  reading := h.reading
  writing := h.writing

/-- Whatever changes outside of the protected part changes on both sides. -/
theorem frame (h : Atomic part sec fine c p) {s : σ} (hget : part.get s = part.get c.pool.shared) :
    Atomic part sec fine ⟨{ c.pool with shared := s }, c.inside⟩
      { p with shared := part.set s (part.get p.shared) } where
  tasks := h.tasks
  shared := by simp only [part.get_set]
  clean := by
    intro hread
    simp only [h.get_eq hread, ← hget, part.set_get]
  called := h.called
  reading := by simpa only [part.get_set] using h.reading
  writing := by simpa only [part.get_set, hget] using h.writing

/-- Among readers, one may go. -/
theorem drop (h : Atomic part sec fine c p) (id : Nat) (hread : ∀ i n, c.inside i = some n → n.guard = .read) :
    Atomic part sec fine ⟨c.pool, Function.update c.inside id none⟩ p := by
  have hold : ∀ i n, Function.update c.inside id none i = some n → c.inside i = some n := by
    intro i n hn
    by_cases hid : i = id
    · subst hid
      simp at hn
    · rwa [Function.update_of_ne hid] at hn
  refine ⟨h.tasks, h.shared, fun _ => h.clean hread, ?_, ?_, ?_⟩
  · intro i n hn
    exact h.called i n (hold i n hn)
  · intro i n hn hg
    exact h.reading i n (hold i n hn) hg
  · intro i n hn hg
    rw [hread i n (hold i n hn)] at hg
    cases hg

/-! ### One step -/

theorem spawn (hs : sec.Sound M part fine) (h : Atomic part sec fine c p) {id : Nat} {req : Req}
    (hfree : c.pool.task id = none) (hok : M.accepts c.pool.shared req) :
    ∃ p', PoolStep M p (.spawn id req) p' ∧ Atomic part sec fine
      ⟨{ c.pool with task := Function.update c.pool.task id (some ⟨req, [], M.start req⟩) }, c.inside⟩ p' := by
  have hout : c.inside id = none := by
    cases hin : c.inside id with
    | none => rfl
    | some n =>
      obtain ⟨req', done, k, ht⟩ := h.called id n hin
      rw [hfree] at ht
      cases ht
  have haccepts : M.accepts p.shared req := h.shared ▸ hs.accepts _ _ _ hok
  exact ⟨_, .spawn ((congrFun h.tasks id).trans hfree) haccepts, h.retask hout _⟩

theorem direct (hs : sec.Sound M part fine) (h : Atomic part sec fine c p) {id : Nat} {req : Req}
    {done : List (Performed Op Ans)} {o : Op} {k : Ans o → Prog Op Ans α} {a : Ans o} {s : σ} (hsec : sec o = none)
    (ht : c.pool.task id = some ⟨req, done, .call o k⟩) (hexec : M.exec c.pool.shared o a s) :
    ∃ p', PoolStep M p (.perform id o a) p' ∧ Atomic part sec fine
      ⟨⟨s, Function.update c.pool.task id (some ⟨req, done ++ [⟨o, a⟩], k a⟩)⟩, c.inside⟩ p' := by
  obtain ⟨hget, hexec'⟩ := hs.direct o hsec _ _ _ (part.get p.shared) hexec
  rw [← h.shared] at hexec'
  have hout : c.inside id = none := h.outside_of_called ht hsec
  exact ⟨_, .perform ((congrFun h.tasks id).trans ht) hexec', (h.frame hget).retask hout _⟩

theorem env (hs : sec.Sound M part fine) (h : Atomic part sec fine c p) {e : ε} {s : σ}
    (henv : M.env c.pool.shared e s) :
    ∃ p', PoolStep M p (.env e) p' ∧ Atomic part sec fine ⟨{ c.pool with shared := s }, c.inside⟩ p' := by
  obtain ⟨hget, henv'⟩ := hs.env _ _ _ (part.get p.shared) henv
  rw [← h.shared] at henv'
  exact ⟨_, .env henv', h.frame hget⟩

theorem enter (h : Atomic part sec fine c p) {id : Nat} {req : Req} {done : List (Performed Op Ans)} {o : Op}
    {k : Ans o → Prog Op Ans α} {g : Guard} {body : Prog Fine Out (Ans o)} (hsec : sec o = some (g, body))
    (ht : c.pool.task id = some ⟨req, done, .call o k⟩)
    (hlock : ∀ i n, c.inside i = some n → g = .read ∧ n.guard = .read) :
    Atomic part sec fine ⟨c.pool, Function.update c.inside id (some ⟨o, g, body⟩)⟩ p := by
  have hget := h.get_eq fun i n hin => (hlock i n hin).2
  refine ⟨h.tasks, h.shared, fun _ => h.clean fun i n hin => (hlock i n hin).2, ?_, ?_, ?_⟩
  · intro i n hin
    rcases update_some_iff.mp hin with ⟨rfl, rfl⟩ | ⟨-, hold⟩
    · exact ⟨req, done, k, ht⟩
    · exact h.called i n hold
  · intro i n hin hg
    rcases update_some_iff.mp hin with ⟨rfl, rfl⟩ | ⟨-, hold⟩
    · cases hg
      exact ⟨body, hsec, .refl _ _⟩
    · exact h.reading i n hold hg
  · intro i n hin hg
    rcases update_some_iff.mp hin with ⟨rfl, rfl⟩ | ⟨-, hold⟩
    · cases hg
      refine ⟨?_, body, hsec, hget ▸ .refl _ _⟩
      intro j m hm
      rcases update_some_iff.mp hm with ⟨rfl, -⟩ | ⟨-, hother⟩
      · rfl
      · cases (hlock j m hother).1
    · have := (hlock i n hold).2
      rw [hg] at this
      cases this

/-- A step under a read guard changes nothing. -/
theorem fine_read (hs : sec.Sound M part fine) (h : Atomic part sec fine c p) {id : Nat} {o : Op} {m : Fine}
    {j : Out m → Prog Fine Out (Ans o)} {b : Out m} {a : S} (hin : c.inside id = some ⟨o, .read, .call m j⟩)
    (hfine : fine (part.get c.pool.shared) m b a) :
    Atomic part sec fine ⟨{ c.pool with shared := part.set c.pool.shared a },
      Function.update c.inside id (some ⟨o, .read, j b⟩)⟩ p := by
  have hget := h.get_eq (h.readers hin rfl)
  obtain ⟨body, hsec, hreach⟩ := h.reading id _ hin rfl
  have hsame : a = part.get c.pool.shared := (hreach.only (hs.readOnly o body hsec)).1 _ _ _ hfine
  have hnext : Reaches fine (part.get p.shared) body (part.get p.shared) (j b) := by
    rw [hsame, ← hget] at hfine
    exact hreach.snoc hfine
  have hread : ∀ i n, Function.update c.inside id (some ⟨o, .read, j b⟩) i = some n → n.guard = .read := by
    intro i n hn
    rcases update_some_iff.mp hn with ⟨-, rfl⟩ | ⟨-, hold⟩
    · rfl
    · exact h.readers hin rfl i n hold
  rw [hsame, part.set_get]
  refine ⟨h.tasks, h.shared, fun _ => h.clean (h.readers hin rfl), ?_, ?_, ?_⟩
  · intro i n hn
    rcases update_some_iff.mp hn with ⟨rfl, rfl⟩ | ⟨-, hold⟩
    · exact h.called i ⟨o, .read, .call m j⟩ hin
    · exact h.called i n hold
  · intro i n hn hg
    rcases update_some_iff.mp hn with ⟨rfl, rfl⟩ | ⟨-, hold⟩
    · exact ⟨body, hsec, hnext⟩
    · exact h.reading i n hold hg
  · intro i n hn hg
    rw [hread i n hn] at hg
    cases hg

theorem fine_write (h : Atomic part sec fine c p) {id : Nat} {o : Op} {m : Fine}
    {j : Out m → Prog Fine Out (Ans o)} {b : Out m} {a : S} (hin : c.inside id = some ⟨o, .write, .call m j⟩)
    (hfine : fine (part.get c.pool.shared) m b a) :
    Atomic part sec fine ⟨{ c.pool with shared := part.set c.pool.shared a },
      Function.update c.inside id (some ⟨o, .write, j b⟩)⟩ p := by
  obtain ⟨honly, body, hsec, hreach⟩ := h.writing id _ hin rfl
  -- the writer is still the only one inside
  have halone : ∀ i n, Function.update c.inside id (some ⟨o, .write, j b⟩) i = some n →
      i = id ∧ n = ⟨o, .write, j b⟩ := by
    intro i n hn
    rcases update_some_iff.mp hn with ⟨rfl, rfl⟩ | ⟨hne, hold⟩
    · exact ⟨rfl, rfl⟩
    · exact (hne (honly i n hold)).elim
  refine ⟨h.tasks, ?_, ?_, ?_, ?_, ?_⟩
  · simp only [part.set_set]
    exact h.shared
  · intro hread
    cases hread id _ (Function.update_self _ _ _)
  · intro i n hn
    obtain ⟨rfl, rfl⟩ := halone i n hn
    exact h.called i ⟨o, .write, .call m j⟩ hin
  · intro i n hn hg
    obtain ⟨rfl, rfl⟩ := halone i n hn
    cases hg
  · intro i n hn hg
    obtain ⟨rfl, rfl⟩ := halone i n hn
    refine ⟨fun i' n' hn' => (halone i' n' hn').1, body, hsec, ?_⟩
    simp only [part.get_set]
    exact hreach.snoc hfine

theorem leave_read (hs : sec.Sound M part fine) (h : Atomic part sec fine c p) {id : Nat} {req : Req}
    {done : List (Performed Op Ans)} {o : Op} {k : Ans o → Prog Op Ans α} {a : Ans o}
    (hin : c.inside id = some ⟨o, .read, .pure a⟩) (ht : c.pool.task id = some ⟨req, done, .call o k⟩) :
    ∃ p', PoolStep M p (.perform id o a) p' ∧ Atomic part sec fine
      ⟨{ c.pool with task := Function.update c.pool.task id (some ⟨req, done ++ [⟨o, a⟩], k a⟩) },
        Function.update c.inside id none⟩ p' := by
  obtain ⟨body, hsec, hreach⟩ := h.reading id _ hin rfl
  have hexec : M.exec p.shared o a p.shared := hs.read o body hsec _ _ hreach
  exact ⟨_, .perform ((congrFun h.tasks id).trans ht) hexec, (h.drop id (h.readers hin rfl)).retask (by simp) _⟩

/-- Nobody is left inside, and the pool makes the writer's changes in one step. -/
theorem leave_write (hs : sec.Sound M part fine) (h : Atomic part sec fine c p) {id : Nat} {req : Req}
    {done : List (Performed Op Ans)} {o : Op} {k : Ans o → Prog Op Ans α} {a : Ans o}
    (hin : c.inside id = some ⟨o, .write, .pure a⟩) (ht : c.pool.task id = some ⟨req, done, .call o k⟩) :
    ∃ p', PoolStep M p (.perform id o a) p' ∧ Atomic part sec fine
      ⟨{ c.pool with task := Function.update c.pool.task id (some ⟨req, done ++ [⟨o, a⟩], k a⟩) },
        Function.update c.inside id none⟩ p' := by
  obtain ⟨honly, body, hsec, hreach⟩ := h.writing id _ hin rfl
  have hexec : M.exec p.shared o a c.pool.shared := by
    have hall := hs.write o body hsec p.shared a _ hreach
    rwa [h.shared, part.set_set, part.set_get, ← h.shared] at hall
  have hempty : ∀ i n, Function.update c.inside id none i ≠ some n := by
    intro i n hn
    by_cases hid : i = id
    · subst hid
      simp at hn
    · rw [Function.update_of_ne hid] at hn
      exact hid (honly i n hn)
  refine ⟨_, .perform ((congrFun h.tasks id).trans ht) hexec, ?_, (part.set_get _).symm, fun _ => rfl, ?_, ?_, ?_⟩
  · simp only [h.tasks]
  · intro i n hn
    exact (hempty i n hn).elim
  · intro i n hn
    exact (hempty i n hn).elim
  · intro i n hn
    exact (hempty i n hn).elim

theorem step (hs : sec.Sound M part fine) (h : Atomic part sec fine c p) (hstep : LockStep M part sec fine c e c') :
    ∃ p', Run (PoolStep M) p (visible [e]) p' ∧ Atomic part sec fine c' p' := by
  -- a pool event is one step of the pool, entering and the finer steps are none
  have hone : ∀ {v : PoolEvent Req Op Ans ε} {d : Locked σ Req Op Ans α Fine Out},
      (∃ p', PoolStep M p v p' ∧ Atomic part sec fine d p') →
        ∃ p', Run (PoolStep M) p (visible [.pool v]) p' ∧ Atomic part sec fine d p' := by
    rintro v d ⟨p', hp, hd⟩
    exact ⟨p', .single hp, hd⟩
  cases hstep with
  | spawn hfree hok => exact hone (h.spawn hs hfree hok)
  | direct hsec ht hexec => exact hone (h.direct hs hsec ht hexec)
  | enter hsec ht _ hlock => exact ⟨p, .nil p, h.enter hsec ht hlock⟩
  | @fine id o g m j b a hin hfine =>
    cases g with
    | read => exact ⟨p, .nil p, h.fine_read hs hin hfine⟩
    | write => exact ⟨p, .nil p, h.fine_write hin hfine⟩
  | @leave id req done o k g a hin ht =>
    cases g with
    | read => exact hone (h.leave_read hs hin ht)
    | write => exact hone (h.leave_write hs hin ht)
  | env henv => exact hone (h.env hs henv)

theorem run (hs : sec.Sound M part fine) {es : List (LockEvent Req Op Ans ε)}
    (hrun : Run (LockStep M part sec fine) c es c') (h : Atomic part sec fine c p) :
    ∃ p', Run (PoolStep M) p (visible es) p' ∧ Atomic part sec fine c' p' := by
  refine hrun.reverseInduction (P := fun es c' => ∃ p', Run (PoolStep M) p (visible es) p' ∧
    Atomic part sec fine c' p') ⟨p, .nil p, h⟩ ?_
  rintro es d e d' - hstep ⟨q, hq, hat⟩
  obtain ⟨q', hrest, hat'⟩ := hat.step hs hstep
  refine ⟨q', ?_, hat'⟩
  rw [visible_append]
  exact hq.append hrest

/-- The run lemma: a run with sections is a run of the pool. -/
theorem of_run (hs : sec.Sound M part fine) {s : σ} {es : List (LockEvent Req Op Ans ε)}
    (h : Run (LockStep M part sec fine) (Locked.initial s) es c) :
    ∃ p, Run (PoolStep M) (Pool.initial s) (visible es) p ∧ Atomic part sec fine c p :=
  run hs h (initial s)

end Atomic

/-! ## Every run of the pool has its sections -/

/-- Whatever an operation may do, its body can do under the guard. -/
def Sections.Complete : Prop :=
  ∀ o g body, sec o = some (g, body) → ∀ s b s', M.exec s o b s' →
    ∃ a, s' = part.set s a ∧ Reaches fine (part.get s) body a (.pure b)

section Converse
variable {M part sec fine} {p p' : Pool σ Req Op Ans α}

/-- The state in which the section `n` of the task `id` is the only open one. -/
def Locked.alone (p : Pool σ Req Op Ans α) (id : Nat) (n : Inside Op Ans Fine Out) :
    Locked σ Req Op Ans α Fine Out :=
  ⟨p, Function.update (fun _ => none) id (some n)⟩

theorem Locked.alone_inside (p : Pool σ Req Op Ans α) (id : Nat) (n : Inside Op Ans Fine Out) :
    (Locked.alone p id n).inside id = some n := by
  simp [alone]

theorem Locked.alone_replace (p : Pool σ Req Op Ans α) (id : Nat) (n : Inside Op Ans Fine Out)
    (x : Option (Inside Op Ans Fine Out)) :
    Function.update (Locked.alone p id n).inside id x = Function.update (fun _ => none) id x :=
  Function.update_idem _ _ _

variable (M sec) in
theorem Reaches.run_alone {s a : S} {o : Op} {q q' : Prog Fine Out (Ans o)} (h : Reaches fine s q a q') (id : Nat)
    (g : Guard) {p : Pool σ Req Op Ans α} (hget : part.get p.shared = s) :
    ∃ es, Run (LockStep M part sec fine) (Locked.alone p id ⟨o, g, q⟩) es
      (Locked.alone { p with shared := part.set p.shared a } id ⟨o, g, q'⟩) ∧ visible es = [] := by
  induction h generalizing p with
  | refl s q =>
    refine ⟨[], ?_, rfl⟩
    rw [← hget, part.set_get]
    exact .nil _
  | @step s s' s'' m k b q hfine _ ih =>
    subst hget
    let next : Pool σ Req Op Ans α := { p with shared := part.set p.shared s' }
    have hstep : LockStep M part sec fine (Locked.alone p id ⟨o, g, .call m k⟩) (.fine id)
        (Locked.alone next id ⟨o, g, k b⟩) := by
      have hone : LockStep M part sec fine (Locked.alone p id ⟨o, g, .call m k⟩) (.fine id) _ :=
        .fine (Locked.alone_inside p id ⟨o, g, .call m k⟩) hfine
      rwa [Locked.alone_replace] at hone
    obtain ⟨es, hrun, hvis⟩ := ih (p := next) (part.get_set _ _)
    simp only [next, part.set_set] at hrun
    exact ⟨.fine id :: es, .cons hstep hrun, hvis⟩

theorem lock_step_of_step (hc : sec.Complete M part fine) {v : PoolEvent Req Op Ans ε} (h : PoolStep M p v p') :
    ∃ es, Run (LockStep M part sec fine) ⟨p, fun _ => none⟩ es ⟨p', fun _ => none⟩ ∧ visible es = [v] := by
  cases h with
  | spawn hfree hok => exact ⟨[.pool (.spawn _ _)], .single (.spawn hfree hok), rfl⟩
  | env henv => exact ⟨[.pool (.env _)], .single (.env henv), rfl⟩
  | @perform id req done o k a s ht hexec =>
    cases hsec : sec o with
    | none => exact ⟨[.pool (.perform id o a)], .single (.direct hsec ht hexec), rfl⟩
    | some gb =>
      obtain ⟨g, body⟩ := gb
      obtain ⟨b, rfl, hreach⟩ := hc o g body hsec _ _ _ hexec
      obtain ⟨es, hrun, hvis⟩ := hreach.run_alone M sec id g rfl
      have henter : LockStep M part sec fine ⟨p, fun _ => none⟩ (.enter id o) (Locked.alone p id ⟨o, g, body⟩) :=
        .enter (c := ⟨p, fun _ => none⟩) hsec ht rfl (by simp)
      let last : Pool σ Req Op Ans α := { p with shared := part.set p.shared b }
      have hleave : LockStep M part sec fine (Locked.alone last id ⟨o, g, .pure a⟩) _ _ :=
        .leave (Locked.alone_inside last id ⟨o, g, .pure a⟩) ht
      rw [Locked.alone_replace, Function.update_eq_self id] at hleave
      refine ⟨.enter id o :: (es ++ [.pool (.perform id o a)]), .cons henter (hrun.snoc hleave), ?_⟩
      change visible (es ++ _) = _
      rw [visible_append, hvis]
      rfl

theorem lock_run_of_run (hc : sec.Complete M part fine) {vs : List (PoolEvent Req Op Ans ε)}
    (h : Run (PoolStep M) p vs p') :
    ∃ es, Run (LockStep M part sec fine) ⟨p, fun _ => none⟩ es ⟨p', fun _ => none⟩ ∧ visible es = vs := by
  induction h with
  | nil p => exact ⟨[], .nil _, rfl⟩
  | cons hstep _ ih =>
    obtain ⟨es, hfirst, hv⟩ := lock_step_of_step hc hstep
    obtain ⟨fs, hrest, rfl⟩ := ih
    exact ⟨es ++ fs, hfirst.append hrest, by rw [visible_append, hv, List.singleton_append]⟩

end Converse

/-! ## Nobody waits for ever -/

section Progress
variable {M part sec fine} {c d : Locked σ Req Op Ans α Fine Out} {p : Pool σ Req Op Ans α}

variable (M sec) in
/-- An open section can be run to its end, whoever else is inside. -/
theorem close_section {id : Nat} {o : Op} {g : Guard} {rest : Prog Fine Out (Ans o)}
    (hin : c.inside id = some ⟨o, g, rest⟩) (hend : CanEnd fine rest (part.get c.pool.shared)) {req : Req}
    {done : List (Performed Op Ans)} {k : Ans o → Prog Op Ans α}
    (ht : c.pool.task id = some ⟨req, done, .call o k⟩) :
    ∃ es d, Run (LockStep M part sec fine) c es d ∧ d.inside = Function.update c.inside id none := by
  induction rest generalizing c with
  | pure a => exact ⟨_, _, .single (.leave hin ht), rfl⟩
  | call m j ih =>
    obtain ⟨⟨b, s, hfine⟩, hnext⟩ := hend
    have hend' : CanEnd fine (j b) (part.get (part.set c.pool.shared s)) := by
      rw [part.get_set]
      exact hnext b s hfine
    obtain ⟨es, d, hrun, hd⟩ := ih b
      (c := ⟨{ c.pool with shared := part.set c.pool.shared s }, Function.update c.inside id (some ⟨o, g, j b⟩)⟩)
      (Function.update_self _ _ _) hend' ht
    refine ⟨_, d, .cons (.fine hin hfine) hrun, ?_⟩
    rw [hd, Function.update_idem]

theorem occupied_finite {s : σ} {es : List (LockEvent Req Op Ans ε)}
    (h : Run (LockStep M part sec fine) (Locked.initial s) es c) : ∃ l : List Nat, ∀ i, c.inside i ≠ none → i ∈ l := by
  refine h.reverseInduction (P := fun _ c => ∃ l : List Nat, ∀ i, c.inside i ≠ none → i ∈ l)
    ⟨[], fun i hi => (hi rfl).elim⟩ ?_
  rintro es c e c' - hstep ⟨l, hl⟩
  have hgrow : ∀ id x, ∃ l : List Nat, ∀ i, Function.update c.inside id x i ≠ none → i ∈ l := by
    intro id x
    refine ⟨id :: l, fun i hi => ?_⟩
    by_cases hid : i = id
    · exact List.mem_cons.mpr (.inl hid)
    · rw [Function.update_of_ne hid] at hi
      exact List.mem_cons.mpr (.inr (hl i hi))
  cases hstep with
  | spawn _ _ => exact ⟨l, hl⟩
  | direct _ _ _ => exact ⟨l, hl⟩
  | enter _ _ _ _ => exact hgrow _ _
  | fine _ _ => exact hgrow _ _
  | leave _ _ => exact hgrow _ _
  | env _ => exact ⟨l, hl⟩

theorem Atomic.canEnd (hl : ∀ o g body, sec o = some (g, body) → ∀ s, CanEnd fine body s)
    (h : Atomic part sec fine c p) {id : Nat} {n : Inside Op Ans Fine Out} (hin : c.inside id = some n) :
    CanEnd fine n.rest (part.get c.pool.shared) := by
  cases hg : n.guard with
  | read =>
    obtain ⟨body, hsec, hreach⟩ := h.reading id n hin hg
    rw [← h.get_eq (h.readers hin hg)]
    exact (hl _ _ _ hsec _).of_reaches hreach
  | write =>
    obtain ⟨-, body, hsec, hreach⟩ := h.writing id n hin hg
    exact (hl _ _ _ hsec _).of_reaches hreach

/-- One after the other, everybody inside leaves. -/
theorem drain (hs : sec.Sound M part fine) (hl : ∀ o g body, sec o = some (g, body) → ∀ s, CanEnd fine body s)
    (l : List Nat) (hall : ∀ i, c.inside i ≠ none → i ∈ l) (h : Atomic part sec fine c p) :
    ∃ es d, Run (LockStep M part sec fine) c es d ∧ d.inside = fun _ => none := by
  induction l generalizing c p with
  | nil =>
    refine ⟨[], c, .nil c, funext fun i => ?_⟩
    by_contra hi
    cases hall i hi
  | cons i l ih =>
    cases hin : c.inside i with
    | none =>
      refine ih (fun j hj => ?_) h
      rcases List.mem_cons.mp (hall j hj) with rfl | hmem
      · exact (hj hin).elim
      · exact hmem
    | some n =>
      obtain ⟨req, done, k, ht⟩ := h.called i n hin
      obtain ⟨es, d, hrun, hd⟩ := close_section M sec hin (h.canEnd hl hin) ht
      obtain ⟨p', -, hat⟩ := Atomic.run hs hrun h
      have hleft : ∀ j, d.inside j ≠ none → j ∈ l := by
        intro j hj
        rw [hd] at hj
        have hne : j ≠ i := by
          rintro rfl
          simp at hj
        rw [Function.update_of_ne hne] at hj
        exact (List.mem_cons.mp (hall j hj)).resolve_left hne
      obtain ⟨fs, d', hrest, hempty⟩ := ih hleft hat
      exact ⟨es ++ fs, d', hrun.append hrest, hempty⟩

/-- Where no operation and no body blocks, every task can be run to its answer, whoever
holds the lock now. -/
theorem Locked.can_finish (hs : sec.Sound M part fine) (hc : sec.Complete M part fine)
    (hl : ∀ o g body, sec o = some (g, body) → ∀ s, CanEnd fine body s)
    (total : ∀ s o, ∃ a s', M.exec s o a s') {s : σ} {es : List (LockEvent Req Op Ans ε)}
    (h : Run (LockStep M part sec fine) (Locked.initial s) es c) {id : Nat} {t : Task Req Op Ans α}
    (ht : c.pool.task id = some t) :
    ∃ fs d done r, Run (LockStep M part sec fine) c fs d ∧ d.pool.task id = some ⟨t.req, done, .pure r⟩ := by
  obtain ⟨p, -, hat⟩ := Atomic.of_run hs h
  obtain ⟨l, hall⟩ := occupied_finite h
  obtain ⟨fs, ⟨q₀, inside⟩, hdrain, rfl⟩ := drain hs hl l hall hat
  obtain ⟨q, hq, hat'⟩ := Atomic.run hs hdrain hat
  obtain ⟨t', ht', hreq, -⟩ := Pool.task_mono hq ((congrFun hat.tasks id).trans ht)
  obtain ⟨vs, q', done, r, hfinish, hdone, -⟩ := Pool.can_finish total ((congrFun hat'.tasks id).symm.trans ht')
  obtain ⟨gs, hrest, -⟩ := lock_run_of_run hc hfinish
  refine ⟨fs ++ gs, ⟨q', fun _ => none⟩, done, r, hdrain.append hrest, ?_⟩
  rw [← hreq]
  exact hdone

end Progress

end System

end Programs
