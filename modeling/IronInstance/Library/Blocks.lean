import Mathlib.Data.List.Infix
import IronInstance.Library.Text

/-!
# Blocks between markers

A text of blocks, each between an opening and a closing marker, with gaps around them.
The opening marker of a block is the first one from the end of the block before it as
long as it occurs in no gap, not even reaching over from a gap into a marker; decoding
from UTF-8 neither makes nor hides such an occurrence.
-/

namespace Text
set_option autoImplicit false

universe u

/-! ## First occurrences -/

section Occurrences
variable {α : Type u}

/-- In `gap ++ pat` the pattern occurs at the end and nowhere before. -/
def OnlyAtEnd (pat gap : List α) : Prop := ∀ pre post, gap ++ pat = pre ++ pat ++ post → post = []

theorem onlyAtEnd_of_notMem {c : α} {cs gap : List α} (h : c ∉ gap) : OnlyAtEnd (c :: cs) gap := by
  induction gap with
  | nil =>
    intro pre post heq
    have hlen := congrArg List.length heq
    simp only [List.length_append, List.length_nil] at hlen
    exact List.length_eq_zero_iff.mp (by omega)
  | cons g gap ih =>
    obtain ⟨hg, hgap⟩ := not_or.mp (fun hor => h (List.mem_cons.mpr hor))
    intro pre post heq
    cases pre with
    | nil => exact absurd (List.cons.inj heq).1.symm hg
    | cons p pre => exact ih hgap pre post (List.cons.inj heq).2

theorem eq_of_append_cons {c : α} {as bs s t : List α} (h : as ++ c :: s = bs ++ c :: t) (ha : c ∉ as) (hb : c ∉ bs) :
    as = bs := by
  induction as generalizing bs with
  | nil =>
    cases bs with
    | nil => rfl
    | cons b bs => exact absurd (List.mem_cons.mpr (.inl (List.cons.inj h).1)) hb
  | cons a as ih =>
    cases bs with
    | nil => exact absurd (List.mem_cons.mpr (.inl (List.cons.inj h).1.symm)) ha
    | cons b bs =>
      obtain ⟨rfl, hrest⟩ := List.cons.inj h
      rw [ih hrest (fun hm => ha (List.mem_cons_of_mem a hm)) (fun hm => hb (List.mem_cons_of_mem a hm))]

theorem OnlyAtEnd.tail {pat gap : List α} {c : α} (h : OnlyAtEnd pat (c :: gap)) : OnlyAtEnd pat gap :=
  fun pre post heq => h (c :: pre) post (congrArg (c :: ·) heq)

/-- Ruled out at the positions of a first part, and in the rest. -/
theorem OnlyAtEnd.append {pat first rest : List α} (hrest : OnlyAtEnd pat rest)
    (hfirst : ∀ k < first.length, ¬ pat <+: (first ++ rest ++ pat).drop k) : OnlyAtEnd pat (first ++ rest) := by
  intro pre post heq
  have hdrop : (first ++ rest ++ pat).drop pre.length = pat ++ post := by
    rw [heq, List.append_assoc, List.drop_left]
  rcases Nat.lt_or_ge pre.length first.length with hlt | hge
  · exact absurd ⟨post, hdrop.symm⟩ (hfirst _ hlt)
  · obtain ⟨mid, rfl⟩ : first <+: pre := by
      apply List.prefix_of_prefix_length_le ⟨rest ++ pat, rfl⟩ _ hge
      rw [← List.append_assoc, heq, List.append_assoc]
      exact List.prefix_append _ _
    rw [List.append_assoc, List.append_assoc, List.append_assoc, List.append_cancel_left_eq, ← List.append_assoc] at heq
    exact hrest mid post heq

theorem slice_append (a b c : List α) : slice (a ++ b ++ c) a.length (a ++ b).length = b := by
  rw [slice, List.take_left, List.drop_left]

variable [DecidableEq α]

theorem find_eq_none {pat text : List α} (h : ¬ pat <:+: text) : find pat text = none := by
  induction text with
  | nil =>
    have hne : pat ≠ [] := by
      rintro rfl
      exact h List.nil_infix
    rw [find, if_neg hne]
  | cons c text ih =>
    have hprefix : ¬ pat.isPrefixOf (c :: text) = true := by
      intro hp
      exact h (List.isPrefixOf_iff_prefix.mp hp).isInfix
    have hlater : ¬ pat <:+: text := fun hi => h (hi.trans (List.suffix_cons c text).isInfix)
    rw [find, if_neg hprefix, ih hlater]
    rfl

theorem find_append {pat : List α} (hne : pat ≠ []) {pre : List α} (h : OnlyAtEnd pat pre) (post : List α) :
    find pat (pre ++ pat ++ post) = some pre.length := by
  induction pre with
  | nil =>
    cases pat with
    | nil => exact absurd rfl hne
    | cons c pat =>
      have hprefix : (c :: pat).isPrefixOf (c :: (pat ++ post)) = true :=
        List.isPrefixOf_iff_prefix.mpr ⟨post, rfl⟩
      rw [List.nil_append, List.cons_append, find, if_pos hprefix]
      rfl
  | cons c pre ih =>
    have hprefix : ¬ pat.isPrefixOf (c :: (pre ++ pat ++ post)) = true := by
      intro hp
      have hshort : pat <+: c :: pre ++ pat := by
        apply List.prefix_of_prefix_length_le (List.isPrefixOf_iff_prefix.mp hp) ⟨post, rfl⟩
        simp only [List.length_append]
        omega
      obtain ⟨r, hr⟩ := hshort
      have hnil := h [] r hr.symm
      have hlen := congrArg List.length hr
      rw [hnil, List.append_nil, List.length_append, List.length_cons] at hlen
      omega
    rw [List.cons_append, List.cons_append, find, if_neg hprefix, ih h.tail]
    rfl

theorem findFrom_append (pat pre text : List α) :
    findFrom pat (pre ++ text) pre.length = (find pat text).map (· + pre.length) := by
  rw [findFrom, List.drop_left]

end Occurrences

/-! ## Decoding -/

section Decoded
variable {x : Char} (hx : 128 ≤ x.toNat) {cs : List Char} (hne : cs ≠ []) (hcs : ∀ c ∈ cs, c.toNat < 128)
include hx hne hcs

theorem OnlyAtEnd.decode {gap : List UInt8} (h : OnlyAtEnd (cs.map Char.toUInt8) gap) :
    OnlyAtEnd cs (decodeUtf8 [x] gap) := by
  intro pre post heq
  have happend := decodeUtf8_append_ascii [x] gap hne hcs []
  rw [List.append_nil] at happend
  have htext : decodeUtf8 [x] (gap ++ cs.map Char.toUInt8) = pre ++ cs ++ post := by
    rw [happend, ← heq]
    exact List.append_nil _
  obtain ⟨before, rest, hbytes, hrest⟩ := infix_of_decode hx hne hcs _ none (by simp) pre htext
  rw [h before rest hbytes] at hrest
  exact hrest.symm

theorem not_infix_decode {bytes : List UInt8} (h : ¬ cs.map Char.toUInt8 <:+: bytes) :
    ¬ cs <:+: decodeUtf8 [x] bytes := by
  rintro ⟨pre, post, heq⟩
  obtain ⟨before, rest, hbytes, -⟩ := infix_of_decode hx hne hcs bytes none (by simp) pre heq.symm
  exact h ⟨before, rest, hbytes.symm⟩

end Decoded

/-! ## Insertions -/

section Insertions
variable {α : Type u}

/-- `Inserted p xs ys`: pieces with `p` have been put into `xs`, anywhere. -/
inductive Inserted (p : List α → Prop) : List α → List α → Prop where
  | nil : Inserted p [] []
  | keep (a : α) {xs ys : List α} : Inserted p xs ys → Inserted p (a :: xs) (a :: ys)
  | insert {piece xs ys : List α} : p piece → Inserted p xs ys → Inserted p xs (piece ++ ys)

namespace Inserted
variable {p : List α → Prop} {xs ys : List α}

theorem mem (h : Inserted p xs ys) : ∀ y ∈ ys, y ∈ xs ∨ ∃ piece, p piece ∧ y ∈ piece := by
  induction h with
  | nil => simp
  | keep a _ ih =>
    intro y hy
    rcases List.mem_cons.mp hy with rfl | hy
    · exact .inl List.mem_cons_self
    · exact (ih y hy).imp_left (List.mem_cons_of_mem a)
  | insert hp _ ih =>
    intro y hy
    rcases List.mem_append.mp hy with hy | hy
    · exact .inr ⟨_, hp, hy⟩
    · exact ih y hy

theorem filter_eq (h : Inserted p xs ys) {f : α → Bool} (hpiece : ∀ piece, p piece → ∀ a ∈ piece, f a = false)
    (hxs : ∀ a ∈ xs, f a = true) : ys.filter f = xs := by
  induction h with
  | nil => rfl
  | keep a _ ih =>
    obtain ⟨ha, hxs⟩ := List.forall_mem_cons.mp hxs
    rw [List.filter_cons_of_pos ha, ih hxs]
  | @insert piece _ _ hp _ ih =>
    have hnone : ∀ a ∈ piece, ¬ f a = true := fun a ha => by simp [hpiece piece hp a ha]
    rw [List.filter_append, List.filter_eq_nil_iff.mpr hnone, List.nil_append, ih hxs]

end Inserted

end Insertions

/-! ## Blocks -/

section Blocks
variable {α : Type u}

/-- Blocks of a gap and a body, each body between the markers `b` and `e`. -/
def enclose (b e : List α) : List (List α × List α) → List α → List α
  | [], last => last
  | (gap, body) :: blocks, last => gap ++ b ++ (body ++ e ++ enclose b e blocks last)

theorem length_le_enclose (b e : List α) (hb : b ≠ []) (blocks : List (List α × List α)) (last : List α) :
    blocks.length ≤ (enclose b e blocks last).length := by
  have hpos : 0 < b.length := List.length_pos_iff.mpr hb
  induction blocks with
  | nil => exact Nat.zero_le _
  | cons block blocks ih =>
    obtain ⟨gap, body⟩ := block
    simp only [enclose, List.length_append, List.length_cons]
    omega

end Blocks

theorem decodeUtf8_enclose (bad : List Char) {b e : List Char} (hne : b ≠ []) (hb : ∀ c ∈ b, c.toNat < 128)
    (he : ∀ c ∈ e, c.toNat < 128) (blocks : List (List UInt8 × List Char)) (last : List UInt8)
    (hblocks : ∀ block ∈ blocks, ∀ c ∈ block.2, c.toNat < 128) :
    decodeUtf8 bad (enclose (b.map Char.toUInt8) (e.map Char.toUInt8)
        (blocks.map fun block => (block.1, block.2.map Char.toUInt8)) last) =
      enclose b e (blocks.map fun block => (decodeUtf8 bad block.1, block.2)) (decodeUtf8 bad last) := by
  induction blocks with
  | nil => rfl
  | cons block blocks ih =>
    obtain ⟨gap, body⟩ := block
    obtain ⟨hbody, hblocks⟩ := List.forall_mem_cons.mp hblocks
    have hascii : ∀ c ∈ b ++ body ++ e, c.toNat < 128 := by
      simp only [List.mem_append]
      rintro c ((hc | hc) | hc)
      · exact hb c hc
      · exact hbody c hc
      · exact he c hc
    have hmarked : ∀ rest, decodeUtf8 bad (gap ++ (b ++ body ++ e).map Char.toUInt8 ++ rest) =
        decodeUtf8 bad gap ++ (b ++ body ++ e) ++ decodeUtf8 bad rest :=
      decodeUtf8_append_ascii bad gap (by simp [hne]) hascii
    simp only [List.map_cons, enclose, ← ih hblocks]
    simpa using hmarked _

end Text
