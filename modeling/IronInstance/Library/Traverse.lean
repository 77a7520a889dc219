import Mathlib.Data.List.Forall2

/-!
# Fallible maps, element by element

`mapM` in `Option` or `Except` succeeds exactly when every element does, and then the
results stand in the order of the elements.
-/

namespace Traverse
set_option autoImplicit false

universe u v w

theorem mapM_eq_some_iff {α : Type u} {β : Type v} {f : α → Option β} {xs : List α} {ys : List β} :
    xs.mapM f = some ys ↔ List.Forall₂ (fun x y => f x = some y) xs ys := by
  induction xs generalizing ys with
  | nil => simp [eq_comm]
  | cons x xs ih =>
    rw [List.forall₂_cons_left_iff, List.mapM_cons]
    cases hx : f x with
    | none => simp
    | some y =>
      cases hxs : xs.mapM f with
      | none =>
        have hnone : ∀ ys, ¬ List.Forall₂ (fun x y => f x = some y) xs ys := fun ys h => by
          rw [ih.mpr h] at hxs
          cases hxs
        simp [hnone]
      | some zs =>
        have hsome : ∀ ys, List.Forall₂ (fun x y => f x = some y) xs ys ↔ zs = ys := fun ys => by
          rw [← ih, hxs, Option.some.injEq]
        simp [hsome, eq_comm]

theorem forall₂_getElem? {α : Type u} {β : Type v} {R : α → β → Prop} {xs : List α} {ys : List β}
    (h : List.Forall₂ R xs ys) {i : Nat} {x : α} (hx : xs[i]? = some x) : ∃ y, ys[i]? = some y ∧ R x y := by
  obtain ⟨hi, rfl⟩ := List.getElem?_eq_some_iff.mp hx
  have hi' : i < ys.length := h.length_eq ▸ hi
  exact ⟨ys[i], List.getElem?_eq_getElem hi', h.get hi hi'⟩

theorem forall_of_mapM {α : Type u} {β : Type v} {f : α → Option β} {xs : List α} {ys : List β}
    (h : xs.mapM f = some ys) : ∀ x ∈ xs, ∃ y, f x = some y := by
  intro x hx
  obtain ⟨i, hi⟩ := List.mem_iff_getElem?.mp hx
  obtain ⟨y, -, hy⟩ := forall₂_getElem? (mapM_eq_some_iff.mp h) hi
  exact ⟨y, hy⟩

theorem exists_of_mapM {α : Type u} {β : Type v} {f : α → Option β} {xs : List α} {ys : List β}
    (h : xs.mapM f = some ys) : ∀ y ∈ ys, ∃ x, f x = some y := by
  intro y hy
  obtain ⟨i, hi⟩ := List.mem_iff_getElem?.mp hy
  obtain ⟨x, -, hx⟩ := forall₂_getElem? (mapM_eq_some_iff.mp h).flip hi
  exact ⟨x, hx⟩

theorem mapM_eq_ok_iff {α : Type u} {β : Type v} {ε : Type w} {f : α → Except ε β} {xs : List α} {ys : List β} :
    xs.mapM f = .ok ys ↔ List.Forall₂ (fun x y => f x = .ok y) xs ys := by
  induction xs generalizing ys with
  | nil => simp [pure, Except.pure, eq_comm]
  | cons x xs ih =>
    rw [List.forall₂_cons_left_iff, List.mapM_cons]
    cases hx : f x with
    | error e => simp [bind, Except.bind]
    | ok y =>
      cases hxs : xs.mapM f with
      | error e =>
        have hnone : ∀ ys, ¬ List.Forall₂ (fun x y => f x = .ok y) xs ys := fun ys h => by
          rw [ih.mpr h] at hxs
          cases hxs
        simp [bind, Except.bind, hnone]
      | ok zs =>
        have hsome : ∀ ys, List.Forall₂ (fun x y => f x = .ok y) xs ys ↔ zs = ys := fun ys => by
          rw [← ih, hxs, Except.ok.injEq]
        simp [bind, Except.bind, pure, Except.pure, hsome, eq_comm]

theorem bind_eq_ok_iff {α β : Type u} {ε : Type w} {x : Except ε α} {f : α → Except ε β} {b : β} :
    (x >>= f) = .ok b ↔ ∃ a, x = .ok a ∧ f a = .ok b := by
  cases x <;> simp [bind, Except.bind]

end Traverse
