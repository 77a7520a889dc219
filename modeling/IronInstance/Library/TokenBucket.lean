import Mathlib.Algebra.Order.Field.Basic
import Mathlib.Tactic.Linarith

/-!
# Token buckets

The arithmetic of one bucket over an ordered field: `refill` adds what time has
earned, up to the burst, and `spend` takes one token if there is one. `Ledger` is
what a bucket whose clock never goes back has admitted between two times.
-/

namespace TokenBucket
set_option autoImplicit false

universe u
variable {K : Type u} [Field K] [LinearOrder K] {burst rate tokens elapsed : K}

def refill (burst rate tokens elapsed : K) : K := min (tokens + elapsed * rate) burst

def spend (tokens : K) : Bool × K := if 1 ≤ tokens then (true, tokens - 1) else (false, tokens)

theorem refill_le : refill burst rate tokens elapsed ≤ burst := min_le_right _ _

theorem spend_of_one_le (h : 1 ≤ tokens) : spend tokens = (true, tokens - 1) := if_pos h

theorem spend_cases (tokens : K) :
    (spend tokens = (true, tokens - 1) ∧ 1 ≤ tokens) ∨ spend tokens = (false, tokens) := by
  unfold spend
  by_cases h : 1 ≤ tokens
  · exact .inl ⟨if_pos h, h⟩
  · exact .inr (if_neg h)

variable [IsStrictOrderedRing K]

theorem refill_nonneg (hb : 0 ≤ burst) (hr : 0 ≤ rate) (ht : 0 ≤ tokens) (he : 0 ≤ elapsed) :
    0 ≤ refill burst rate tokens elapsed :=
  le_min (add_nonneg ht (mul_nonneg he hr)) hb

/-- Enough time to earn one token is enough time for the next one to be there. -/
theorem one_le_refill (hb : 1 ≤ burst) (ht : 0 ≤ tokens) (he : 1 ≤ elapsed * rate) :
    1 ≤ refill burst rate tokens elapsed :=
  le_min (by linarith) hb

theorem spend_nonneg (h : 0 ≤ tokens) : 0 ≤ (spend tokens).2 := by
  unfold spend
  split
  · exact sub_nonneg.mpr ‹_›
  · exact h

theorem spend_le : (spend tokens).2 ≤ tokens := by
  unfold spend
  split
  · exact sub_le_self _ zero_le_one
  · exact le_refl _

/-! ## What a window of time admits -/

/-- `count` calls between `s` and `e` have been admitted, and the bucket holds `tokens`
since `last`. -/
inductive Ledger (burst rate s e : K) : (count : K) → Option (K × K) → Prop where
  | fresh : Ledger burst rate s e 0 none
  | early {tokens last : K} : 0 ≤ tokens → last < s → Ledger burst rate s e 0 (some (tokens, last))
  | inside {count tokens last : K} : 0 ≤ tokens → s ≤ last → last ≤ e →
      count + tokens ≤ burst + rate * (last - s) → Ledger burst rate s e count (some (tokens, last))
  | late {count tokens last : K} : 0 ≤ tokens → e < last → count ≤ burst + rate * (e - s) →
      Ledger burst rate s e count (some (tokens, last))

namespace Ledger
variable {s e count now : K} {b : Option (K × K)}

theorem count_le (hb : 0 ≤ burst) (hr : 0 ≤ rate) (hse : s ≤ e) (h : Ledger burst rate s e count b) :
    count ≤ burst + rate * (e - s) := by
  have hwindow : 0 ≤ rate * (e - s) := mul_nonneg hr (sub_nonneg.mpr hse)
  cases h with
  | fresh => exact add_nonneg hb hwindow
  | early _ _ => exact add_nonneg hb hwindow
  | @inside _ tokens last ht _ hlast hcount =>
    have hearned : rate * (last - s) ≤ rate * (e - s) := mul_le_mul_of_nonneg_left (by linarith) hr
    linarith
  | late _ _ hcount => exact hcount

/-- What is left to spend at `now`, and what was spent before, at a call that does not
go back in time. -/
theorem refill_le (hr : 0 ≤ rate) (h : Ledger burst rate s e count b)
    (hnow : ∀ c ∈ b, c.2 ≤ now) (hs : s ≤ now) (he : now ≤ e) :
    count + refill burst rate (b.getD (burst, now)).1 (now - (b.getD (burst, now)).2) ≤
      burst + rate * (now - s) := by
  have hearned : 0 ≤ rate * (now - s) := mul_nonneg hr (sub_nonneg.mpr hs)
  cases h with
  | fresh =>
    have hfull : refill burst rate burst (now - now) ≤ burst := TokenBucket.refill_le
    simp only [Option.getD_none]
    linarith
  | @early tokens last _ _ =>
    have hfull : refill burst rate tokens (now - last) ≤ burst := TokenBucket.refill_le
    simp only [Option.getD_some]
    linarith
  | @inside _ tokens last _ _ _ hcount =>
    have hpart : refill burst rate tokens (now - last) ≤ tokens + (now - last) * rate := min_le_left _ _
    simp only [Option.getD_some]
    linarith
  | @late _ tokens last _ hlast _ =>
    have hle : last ≤ now := hnow _ rfl
    linarith

theorem refilled_nonneg (hb : 0 ≤ burst) (hr : 0 ≤ rate) (h : Ledger burst rate s e count b)
    (hnow : ∀ c ∈ b, c.2 ≤ now) :
    0 ≤ refill burst rate (b.getD (burst, now)).1 (now - (b.getD (burst, now)).2) := by
  cases h with
  | fresh => exact refill_nonneg hb hr hb (sub_self now).ge
  | early ht _ => exact refill_nonneg hb hr ht (sub_nonneg.mpr (hnow _ rfl))
  | inside ht _ _ _ => exact refill_nonneg hb hr ht (sub_nonneg.mpr (hnow _ rfl))
  | late ht _ _ => exact refill_nonneg hb hr ht (sub_nonneg.mpr (hnow _ rfl))

theorem count_eq_zero (h : Ledger burst rate s e count b) (hnow : ∀ c ∈ b, c.2 ≤ now) (hs : now < s)
    (hse : s ≤ e) : count = 0 := by
  cases h with
  | fresh => rfl
  | early _ _ => rfl
  | @inside _ _ last _ hlast _ _ =>
    have hle : last ≤ now := hnow _ rfl
    linarith
  | @late _ _ last _ hlast _ =>
    have hle : last ≤ now := hnow _ rfl
    linarith

/-- One call whose reading is not older than the bucket's. -/
theorem call (hb : 0 ≤ burst) (hr : 0 ≤ rate) (hse : s ≤ e) (h : Ledger burst rate s e count b)
    (hnow : ∀ c ∈ b, c.2 ≤ now) {tokens : K}
    (htokens : tokens = refill burst rate (b.getD (burst, now)).1 (now - (b.getD (burst, now)).2)) :
    Ledger burst rate s e (count + if (spend tokens).1 = true ∧ s ≤ now ∧ now ≤ e then 1 else 0)
      (some ((spend tokens).2, now)) := by
  have hleft : 0 ≤ (spend tokens).2 := by
    rw [htokens]
    exact spend_nonneg (h.refilled_nonneg hb hr hnow)
  rcases lt_or_ge now s with hbefore | hs
  · rw [if_neg (fun hin => not_le.mpr hbefore hin.2.1), add_zero, h.count_eq_zero hnow hbefore hse]
    exact .early hleft hbefore
  rcases lt_or_ge e now with hafter | he
  · rw [if_neg (fun hin => not_le.mpr hafter hin.2.2), add_zero]
    exact .late hleft hafter (h.count_le hb hr hse)
  · have hbound := h.refill_le hr hnow hs he
    rw [← htokens] at hbound
    refine .inside hleft hs he ?_
    -- an admitted call moves one token from the bucket to the count
    rcases spend_cases tokens with ⟨hspend, -⟩ | hspend
    · rw [hspend, if_pos ⟨rfl, hs, he⟩]
      linarith
    · rw [hspend, if_neg (fun hin => Bool.false_ne_true hin.1), add_zero]
      exact hbound

end Ledger

end TokenBucket
