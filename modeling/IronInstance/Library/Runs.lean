import Mathlib.Data.List.DropRight

/-!
# Runs of a labelled transition system

`Run step s es t` says that the labels `es` lead from `s` to `t`. The labels are
kept, so a property may speak about the order of the events of a run. Invariants
of states use `Run.invariant`; facts about a state and the whole history that led
to it use `Run.reverseInduction`, which adds one event at the end.
-/

namespace Runs
set_option autoImplicit false

universe u v
variable {σ : Type u} {ε : Type v}

/-- A finite run; the labels are in the order in which they happen. -/
inductive Run (step : σ → ε → σ → Prop) : σ → List ε → σ → Prop where
  | nil (s : σ) : Run step s [] s
  | cons {s t u : σ} {e : ε} {es : List ε} : step s e t → Run step t es u → Run step s (e :: es) u

namespace Run
variable {step : σ → ε → σ → Prop} {s t u : σ} {e : ε} {es fs : List ε}

theorem single (h : step s e t) : Run step s [e] t := .cons h (.nil t)

theorem append (h₁ : Run step s es t) (h₂ : Run step t fs u) : Run step s (es ++ fs) u := by
  induction h₁ with
  | nil => exact h₂
  | cons h _ ih => exact .cons h (ih h₂)

theorem snoc (h₁ : Run step s es t) (h₂ : step t e u) : Run step s (es ++ [e]) u :=
  h₁.append (.single h₂)

@[simp] theorem nil_iff : Run step s [] t ↔ s = t := by
  constructor
  · intro h; cases h; rfl
  · rintro rfl; exact .nil s

theorem cons_iff : Run step s (e :: es) u ↔ ∃ t, step s e t ∧ Run step t es u := by
  constructor
  · intro h
    cases h with
    | cons h hs => exact ⟨_, h, hs⟩
  · rintro ⟨t, h, hs⟩
    exact .cons h hs

theorem append_iff : Run step s (es ++ fs) u ↔ ∃ t, Run step s es t ∧ Run step t fs u := by
  constructor
  · intro h
    induction es generalizing s with
    | nil => exact ⟨s, .nil s, h⟩
    | cons e es ih =>
      obtain ⟨t, hst, htu⟩ := cons_iff.mp h
      obtain ⟨r, hr, hru⟩ := ih htu
      exact ⟨r, .cons hst hr, hru⟩
  · rintro ⟨t, h₁, h₂⟩
    exact h₁.append h₂

theorem split_at (h : Run step s es t) (he : e ∈ es) :
    ∃ pre post a b, es = pre ++ e :: post ∧ Run step s pre a ∧ step a e b ∧ Run step b post t := by
  obtain ⟨pre, post, rfl⟩ := List.append_of_mem he
  obtain ⟨a, hpre, hrest⟩ := append_iff.mp h
  obtain ⟨b, hstep, hpost⟩ := cons_iff.mp hrest
  exact ⟨pre, post, a, b, rfl, hpre, hstep, hpost⟩

theorem invariant {P : σ → Prop} (keep : ∀ {a e b}, step a e b → P a → P b)
    (h : Run step s es t) (hs : P s) : P t := by
  induction h with
  | nil => exact hs
  | cons hab _ ih => exact ih (keep hab hs)

/-- Induction on the last event of a run from a fixed start. -/
theorem reverseInduction {P : List ε → σ → Prop} (base : P [] s)
    (next : ∀ {es t e u}, Run step s es t → step t e u → P es t → P (es ++ [e]) u)
    (h : Run step s es t) : P es t := by
  induction es using List.reverseRecOn generalizing t with
  | nil => rwa [← nil_iff.mp h]
  | append_singleton es e ih =>
    obtain ⟨r, hr, hrt⟩ := append_iff.mp h
    obtain ⟨r', hstep, hnil⟩ := cons_iff.mp hrt
    rw [← nil_iff.mp hnil]
    exact next hr hstep (ih hr)

theorem mono {step' : σ → ε → σ → Prop} (weaken : ∀ {a e b}, step a e b → step' a e b)
    (h : Run step s es t) : Run step' s es t := by
  induction h with
  | nil s => exact .nil s
  | cons hab _ ih => exact .cons (weaken hab) ih

end Run

end Runs
