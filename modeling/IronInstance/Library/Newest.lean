import Mathlib.Data.List.DropRight
import Mathlib.Data.List.Nodup

/-!
# Keeping the newest entries of a list

A bounded queue that drops its oldest entries holds `l.rtake n`, and what it drops
is `l.rdrop n`. Pushing one entry at a time and cutting each time is the same as
cutting once at the end.
-/

namespace Newest
set_option autoImplicit false

universe u
variable {α : Type u}

theorem rdrop_append_rtake (l : List α) (n : Nat) : l.rdrop n ++ l.rtake n = l :=
  List.take_append_drop _ l

theorem length_rtake (l : List α) (n : Nat) : (l.rtake n).length = min n l.length := by
  simp only [List.rtake, List.length_drop]
  omega

theorem rtake_suffix (l : List α) (n : Nat) : l.rtake n <:+ l :=
  List.drop_suffix _ l

theorem rtake_rtake (l : List α) {m n : Nat} (h : m ≤ n) : (l.rtake n).rtake m = l.rtake m := by
  simp only [List.rtake, List.length_drop, List.drop_drop]
  congr 1
  omega

theorem rtake_push (l : List α) (x : α) (n : Nat) :
    (l.rtake n ++ [x]).rtake n = (l ++ [x]).rtake n := by
  cases n with
  | zero => simp
  | succ n =>
    rw [List.rtake_concat_succ, List.rtake_concat_succ, rtake_rtake l (Nat.le_succ n)]

theorem mem_rtake_push (l : List α) (x : α) {n : Nat} (h : 0 < n) : x ∈ (l ++ [x]).rtake n := by
  cases n with
  | zero => exact absurd h (Nat.lt_irrefl 0)
  | succ n => simp [List.rtake_concat_succ]

theorem mem_rtake_iff {l : List α} (hl : l.Nodup) (n : Nat) (x : α) :
    x ∈ l.rtake n ↔ x ∈ l ∧ x ∉ l.rdrop n := by
  have happ := rdrop_append_rtake l n
  constructor
  · intro hx
    refine ⟨(rtake_suffix l n).subset hx, fun hd => ?_⟩
    rw [← happ] at hl
    exact List.disjoint_of_nodup_append hl hd hx
  · rintro ⟨hx, hd⟩
    rw [← happ] at hx
    exact (List.mem_append.mp hx).resolve_left hd

/-- An entry is still kept exactly when fewer than `n` entries came after it. -/
theorem mem_rtake_split {pre post : List α} {x : α} (n : Nat) (hx : x ∉ post) :
    x ∈ (pre ++ x :: post).rtake n ↔ post.length < n := by
  have hlen : (pre ++ x :: post).length = pre.length + (post.length + 1) := by simp
  rw [List.rtake, hlen]
  constructor
  · intro h
    by_contra hn
    have hcut : pre.length + 1 ≤ pre.length + (post.length + 1) - n := by omega
    have hsub := (List.drop_suffix_drop_left (pre ++ x :: post) hcut).subset h
    rw [show pre ++ x :: post = (pre ++ [x]) ++ post by simp,
      List.drop_append_of_le_length (by simp)] at hsub
    simp [hx] at hsub
  · intro h
    have hcut : pre.length + (post.length + 1) - n ≤ pre.length := by omega
    rw [List.drop_append_of_le_length hcut]
    simp

end Newest
