import Mathlib.Data.Finmap
import Mathlib.Data.Finset.Card
import Mathlib.Algebra.BigOperators.Group.Finset.Basic

/-!
# Finite maps with an unspecified iteration order

`Finmap` forgets the order of its entries, which is all a hash map promises. An
`Iteration` is one order in which such a map may be walked; searching along an
iteration finds some matching entry, and every matching entry is found by some
iteration.
-/

namespace FiniteMap
set_option autoImplicit false

universe u v
variable {α : Type u} {β : Type v} [DecidableEq α]

def eraseAll (m : Finmap fun _ : α => β) (ks : List α) : Finmap fun _ : α => β :=
  ks.foldl (fun m k => m.erase k) m

theorem lookup_erase_eq (m : Finmap fun _ : α => β) (a k : α) :
    (m.erase k).lookup a = if a = k then none else m.lookup a := by
  split
  · subst a
    exact Finmap.lookup_erase k m
  · rename_i h
    exact Finmap.lookup_erase_ne h

theorem lookup_insert_eq (m : Finmap fun _ : α => β) (a k : α) (b : β) :
    (m.insert k b).lookup a = if a = k then some b else m.lookup a := by
  split
  · subst a
    exact Finmap.lookup_insert m
  · rename_i h
    exact Finmap.lookup_insert_of_ne m h

theorem lookup_eraseAll (m : Finmap fun _ : α => β) (ks : List α) (a : α) :
    (eraseAll m ks).lookup a = if a ∈ ks then none else m.lookup a := by
  induction ks generalizing m with
  | nil => simp [eraseAll]
  | cons k ks ih =>
    change (eraseAll (m.erase k) ks).lookup a = _
    rw [ih, lookup_erase_eq]
    by_cases hk : a = k <;> by_cases ha : a ∈ ks <;> simp [hk, ha]

/-- One order in which the keys of `m` may be walked. -/
structure Iteration (m : Finmap fun _ : α => β) where
  order : List α
  nodup : order.Nodup
  mem_iff : ∀ a, a ∈ order ↔ a ∈ m

namespace Iteration
variable {m : Finmap fun _ : α => β}

def find (it : Iteration m) (p : β → Bool) : Option α :=
  it.order.find? fun a => (m.lookup a).any p

theorem find_some {it : Iteration m} {p : β → Bool} {a : α} (h : it.find p = some a) :
    ∃ b, m.lookup a = some b ∧ p b = true := by
  simpa [Option.any_eq_true] using List.find?_some h

theorem find_none {it : Iteration m} {p : β → Bool} (h : it.find p = none) {a : α} {b : β}
    (hab : m.lookup a = some b) : p b = false := by
  have ha : a ∈ it.order := (it.mem_iff a).mpr (Finmap.mem_of_lookup_eq_some hab)
  have := List.find?_eq_none.mp h a ha
  simpa [hab] using this

/-- The order that starts at a given key. -/
noncomputable def startingAt {a : α} (ha : a ∈ m) : Iteration m where
  order := a :: (m.erase a).keys.toList
  nodup := by
    simp [List.nodup_cons, Finmap.mem_keys, Finset.nodup_toList]
  mem_iff := by
    intro k
    by_cases hk : k = a <;> simp [hk, Finmap.mem_keys, ha]

theorem find_startingAt {a : α} {b : β} (hab : m.lookup a = some b) {p : β → Bool} (hb : p b = true) :
    (startingAt (Finmap.mem_of_lookup_eq_some hab)).find p = some a := by
  simp [find, startingAt, hab, hb]

noncomputable instance : Nonempty (Iteration m) :=
  ⟨{ order := m.keys.toList
     nodup := Finset.nodup_toList _
     mem_iff := fun a => by simp [Finmap.mem_keys] }⟩

end Iteration

end FiniteMap
