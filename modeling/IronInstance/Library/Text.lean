import Mathlib.Data.List.Basic

/-!
# Lenient UTF-8 and substring search

`decodeUtf8 bad` reads bytes as UTF-8 and puts `bad` in the place of every maximal
ill-formed subsequence, the practice that `from_utf8_lossy` and Python's error
handlers share. ASCII text stands in the decoded text exactly where its bytes stand.
`find` is the position of the first occurrence of a pattern.
-/

namespace Text
set_option autoImplicit false

universe u

/-! ## UTF-8 -/

/-- A sequence that has begun: continuation bytes still owed, the bits so far, and
the range of the next byte. -/
structure Pending where
  owed : Nat
  acc : Nat
  lo : UInt8
  hi : UInt8
  deriving DecidableEq

inductive Lead where
  | char (c : Char)
  | pending (p : Pending)
  | invalid

def lead (b : UInt8) : Lead :=
  let n := b.toNat
  if n ≤ 0x7f then .char (Char.ofNat n)
  else if 0xc2 ≤ n ∧ n ≤ 0xdf then .pending ⟨1, n - 0xc0, 0x80, 0xbf⟩
  else if n = 0xe0 then .pending ⟨2, 0, 0xa0, 0xbf⟩
  else if n = 0xed then .pending ⟨2, 0xd, 0x80, 0x9f⟩
  else if 0xe1 ≤ n ∧ n ≤ 0xef then .pending ⟨2, n - 0xe0, 0x80, 0xbf⟩
  else if n = 0xf0 then .pending ⟨3, 0, 0x90, 0xbf⟩
  else if 0xf1 ≤ n ∧ n ≤ 0xf3 then .pending ⟨3, n - 0xf0, 0x80, 0xbf⟩
  else if n = 0xf4 then .pending ⟨3, 4, 0x80, 0x8f⟩
  else .invalid

/-- What a byte at the start of a sequence emits, and what it leaves pending. -/
def begin (bad : List Char) (b : UInt8) : List Char × Option Pending :=
  match lead b with
  | .char c => ([c], none)
  | .pending p => ([], some p)
  | .invalid => (bad, none)

def decodeFrom (bad : List Char) : Option Pending → List UInt8 → List Char
  | none, [] => []
  | some _, [] => bad
  | none, b :: rest => (begin bad b).1 ++ decodeFrom bad (begin bad b).2 rest
  | some p, b :: rest =>
    if p.lo ≤ b ∧ b ≤ p.hi then
      let acc := p.acc * 64 + (b.toNat - 0x80)
      if p.owed = 1 then Char.ofNat acc :: decodeFrom bad none rest
      else decodeFrom bad (some ⟨p.owed - 1, acc, 0x80, 0xbf⟩) rest
    else
      -- the byte does not belong to the sequence: it starts over
      bad ++ (begin bad b).1 ++ decodeFrom bad (begin bad b).2 rest

def decodeUtf8 (bad : List Char) (bytes : List UInt8) : List Char := decodeFrom bad none bytes

/-! ## ASCII in decoded text -/

/-- The code point is a scalar value outside ASCII. -/
def Beyond (n : Nat) : Prop := 0x80 ≤ n ∧ (n < 0xd800 ∨ (0xdfff < n ∧ n < 0x110000))

/-- Whatever continuation bytes follow, the sequence ends in a character outside ASCII. -/
def EndsBeyond : (owed : Nat) → (acc lo hi : Nat) → Prop
  | 0, _, _, _ => False
  | 1, acc, lo, hi => ∀ n, lo ≤ n → n ≤ hi → Beyond (acc * 64 + (n - 0x80))
  | owed + 2, acc, lo, hi => ∀ n, lo ≤ n → n ≤ hi → EndsBeyond (owed + 1) (acc * 64 + (n - 0x80)) 0x80 0xbf

structure Pending.Sound (p : Pending) : Prop where
  lo : 0x80 ≤ p.lo.toNat
  ends : EndsBeyond p.owed p.acc p.lo.toNat p.hi.toNat

theorem Pending.sound_mk {owed acc : Nat} {l u : UInt8} (lo hi : Nat) (hl : l.toNat = lo) (hu : u.toNat = hi)
    (hlo : 0x80 ≤ lo) (h : EndsBeyond owed acc lo hi) : (Pending.mk owed acc l u).Sound := by
  subst hl hu
  exact ⟨hlo, h⟩

theorem lead_sound {b : UInt8} {p : Pending} (h : lead b = .pending p) : p.Sound := by
  have hb := b.toNat_lt
  unfold lead at h
  simp only at h
  -- one case for each row of the table of well-formed sequences
  split at h
  · cases h
  split at h
  · cases h
    refine Pending.sound_mk 0x80 0xbf rfl rfl (by decide) fun n _ _ => ?_
    unfold Beyond
    omega
  split at h
  · cases h
    refine Pending.sound_mk 0xa0 0xbf rfl rfl (by decide) fun n _ _ m _ _ => ?_
    unfold Beyond
    omega
  split at h
  · cases h
    refine Pending.sound_mk 0x80 0x9f rfl rfl (by decide) fun n _ _ m _ _ => ?_
    unfold Beyond
    omega
  split at h
  · cases h
    refine Pending.sound_mk 0x80 0xbf rfl rfl (by decide) fun n _ _ m _ _ => ?_
    unfold Beyond
    omega
  split at h
  · cases h
    refine Pending.sound_mk 0x90 0xbf rfl rfl (by decide) fun n _ _ m _ _ k _ _ => ?_
    unfold Beyond
    omega
  split at h
  · cases h
    refine Pending.sound_mk 0x80 0xbf rfl rfl (by decide) fun n _ _ m _ _ k _ _ => ?_
    unfold Beyond
    omega
  split at h
  · cases h
    refine Pending.sound_mk 0x80 0x8f rfl rfl (by decide) fun n _ _ m _ _ k _ _ => ?_
    unfold Beyond
    omega
  · cases h

theorem toNat_ofNat {n : Nat} (h : n.isValidChar) : (Char.ofNat n).toNat = n := by
  rw [Char.ofNat, dif_pos h]
  rfl

theorem toNat_toUInt8 {c : Char} (hc : c.toNat < 128) : c.toUInt8.toNat = c.toNat :=
  Nat.mod_eq_of_lt (Nat.lt_trans hc (by decide))

theorem toUInt8_inj {c d : Char} (hc : c.toNat < 128) (hd : d.toNat < 128) (h : c.toUInt8 = d.toUInt8) : c = d := by
  apply Char.toNat_inj.mp
  rw [← toNat_toUInt8 hc, ← toNat_toUInt8 hd, h]

theorem map_toUInt8_inj {cs ds : List Char} (hcs : ∀ c ∈ cs, c.toNat < 128) (hds : ∀ d ∈ ds, d.toNat < 128)
    (h : cs.map Char.toUInt8 = ds.map Char.toUInt8) : cs = ds := by
  induction cs generalizing ds with
  | nil => exact (List.map_eq_nil_iff.mp h.symm).symm
  | cons c cs ih =>
    cases ds with
    | nil => cases h
    | cons d ds =>
      obtain ⟨hc, hcs⟩ := List.forall_mem_cons.mp hcs
      obtain ⟨hd, hds⟩ := List.forall_mem_cons.mp hds
      obtain ⟨hhead, htail⟩ := List.cons.inj h
      rw [toUInt8_inj hc hd hhead, ih hcs hds htail]

theorem lead_char {b : UInt8} {c : Char} (h : lead b = .char c) : c.toNat < 128 ∧ b = c.toUInt8 := by
  unfold lead at h
  simp only at h
  split at h
  · rename_i hb
    cases h
    have hnat : (Char.ofNat b.toNat).toNat = b.toNat := toNat_ofNat (Or.inl (by omega))
    have hlt : (Char.ofNat b.toNat).toNat < 128 := by omega
    refine ⟨hlt, ?_⟩
    rw [← UInt8.toNat_inj, toNat_toUInt8 hlt, hnat]
  · repeat' split at h
    all_goals cases h

theorem lead_ascii {c : Char} (hc : c.toNat < 128) : lead c.toUInt8 = .char c := by
  have hle : c.toNat ≤ 0x7f := Nat.le_of_lt_succ hc
  unfold lead
  simp only [toNat_toUInt8 hc, if_pos hle, Char.ofNat_toNat]

theorem begin_ascii (bad : List Char) {c : Char} (hc : c.toNat < 128) : begin bad c.toUInt8 = ([c], none) := by
  rw [begin, lead_ascii hc]

theorem begin_sound (bad : List Char) (b : UInt8) : ∀ q ∈ (begin bad b).2, q.Sound := by
  intro q hq
  unfold begin at hq
  cases hl : lead b with
  | char c =>
    rw [hl] at hq
    cases hq
  | pending p =>
    rw [hl] at hq
    cases hq
    exact lead_sound hl
  | invalid =>
    rw [hl] at hq
    cases hq

namespace Pending.Sound
variable {q : Pending} {b : UInt8}

theorem not_ascii (h : q.Sound) {c : Char} (hc : c.toNat < 128) : ¬ (q.lo ≤ c.toUInt8 ∧ c.toUInt8 ≤ q.hi) := by
  rintro ⟨hlo, -⟩
  have hnat := toNat_toUInt8 hc
  have hle := UInt8.le_iff_toNat_le.mp hlo
  have := h.lo
  omega

theorem next (h : q.Sound) (hb : q.lo ≤ b ∧ b ≤ q.hi) (howed : q.owed ≠ 1) :
    (Pending.mk (q.owed - 1) (q.acc * 64 + (b.toNat - 0x80)) 0x80 0xbf).Sound := by
  obtain ⟨owed, acc, lo, hi⟩ := q
  have hends := h.ends
  match owed, howed, hends with
  | 0, _, hends => exact absurd hends id
  | owed + 2, _, hends =>
    exact Pending.sound_mk 0x80 0xbf rfl rfl (by decide)
      (hends b.toNat (UInt8.le_iff_toNat_le.mp hb.1) (UInt8.le_iff_toNat_le.mp hb.2))

theorem last (h : q.Sound) (hb : q.lo ≤ b ∧ b ≤ q.hi) (howed : q.owed = 1) :
    128 ≤ (Char.ofNat (q.acc * 64 + (b.toNat - 0x80))).toNat := by
  obtain ⟨owed, acc, lo, hi⟩ := q
  cases howed
  obtain ⟨hge, hvalid⟩ := h.ends b.toNat (UInt8.le_iff_toNat_le.mp hb.1) (UInt8.le_iff_toNat_le.mp hb.2)
  rw [toNat_ofNat hvalid]
  exact hge

end Pending.Sound

theorem decodeFrom_cons (bad : List Char) (b : UInt8) (rest : List UInt8) :
    decodeFrom bad none (b :: rest) = (begin bad b).1 ++ decodeFrom bad (begin bad b).2 rest := rfl

theorem decodeFrom_ascii (bad : List Char) {c : Char} (hc : c.toNat < 128) (rest : List UInt8) :
    decodeFrom bad none (c.toUInt8 :: rest) = c :: decodeFrom bad none rest := by
  rw [decodeFrom_cons, begin_ascii bad hc, List.singleton_append]

theorem decodeFrom_last {bad : List Char} {q : Pending} {b : UInt8} (rest : List UInt8) (h : q.lo ≤ b ∧ b ≤ q.hi)
    (howed : q.owed = 1) : decodeFrom bad (some q) (b :: rest) =
      Char.ofNat (q.acc * 64 + (b.toNat - 0x80)) :: decodeFrom bad none rest := by
  simp only [decodeFrom, if_pos h, if_pos howed]

theorem decodeFrom_next {bad : List Char} {q : Pending} {b : UInt8} (rest : List UInt8) (h : q.lo ≤ b ∧ b ≤ q.hi)
    (howed : q.owed ≠ 1) : decodeFrom bad (some q) (b :: rest) =
      decodeFrom bad (some ⟨q.owed - 1, q.acc * 64 + (b.toNat - 0x80), 0x80, 0xbf⟩) rest := by
  simp only [decodeFrom, if_pos h, if_neg howed]

theorem decodeFrom_restart {bad : List Char} {q : Pending} {b : UInt8} (rest : List UInt8)
    (h : ¬ (q.lo ≤ b ∧ b ≤ q.hi)) : decodeFrom bad (some q) (b :: rest) = bad ++ decodeFrom bad none (b :: rest) := by
  rw [decodeFrom_cons, ← List.append_assoc]
  exact if_neg h

/-- An ASCII byte ends whatever sequence was pending. -/
theorem decodeFrom_append_ascii {bad : List Char} {c : Char} (hc : c.toNat < 128) (rest : List UInt8) :
    ∀ (bytes : List UInt8) (p : Option Pending), (∀ q ∈ p, q.Sound) →
      decodeFrom bad p (bytes ++ c.toUInt8 :: rest) = decodeFrom bad p bytes ++ c :: decodeFrom bad none rest
  | [], none, _ => decodeFrom_ascii bad hc rest
  | [], some q, hp => by
    rw [List.nil_append, decodeFrom_restart rest ((hp q rfl).not_ascii hc), decodeFrom_ascii bad hc]
    rfl
  | b :: bytes, none, _ => by
    rw [List.cons_append, decodeFrom_cons, decodeFrom_cons, decodeFrom_append_ascii hc rest bytes _ (begin_sound bad b),
      List.append_assoc]
  | b :: bytes, some q, hp => by
    rw [List.cons_append]
    by_cases hb : q.lo ≤ b ∧ b ≤ q.hi
    · by_cases howed : q.owed = 1
      · rw [decodeFrom_last _ hb howed, decodeFrom_last _ hb howed, decodeFrom_append_ascii hc rest bytes none (by simp),
          List.cons_append]
      · rw [decodeFrom_next _ hb howed, decodeFrom_next _ hb howed]
        refine decodeFrom_append_ascii hc rest bytes _ ?_
        intro r hr
        cases hr
        exact (hp q rfl).next hb howed
    · rw [decodeFrom_restart _ hb, decodeFrom_restart _ hb, decodeFrom_cons, decodeFrom_cons,
        decodeFrom_append_ascii hc rest bytes _ (begin_sound bad b), List.append_assoc, List.append_assoc]

theorem decodeUtf8_append_ascii (bad : List Char) (bytes : List UInt8) {cs : List Char} (hne : cs ≠ [])
    (hcs : ∀ c ∈ cs, c.toNat < 128) (rest : List UInt8) :
    decodeUtf8 bad (bytes ++ cs.map Char.toUInt8 ++ rest) = decodeUtf8 bad bytes ++ cs ++ decodeUtf8 bad rest := by
  have hascii : ∀ cs : List Char, (∀ c ∈ cs, c.toNat < 128) →
      decodeFrom bad none (cs.map Char.toUInt8 ++ rest) = cs ++ decodeFrom bad none rest := by
    intro cs hcs
    induction cs with
    | nil => rfl
    | cons c cs ih =>
      obtain ⟨hc, hcs⟩ := List.forall_mem_cons.mp hcs
      rw [List.map_cons, List.cons_append, decodeFrom_ascii bad hc, ih hcs, List.cons_append]
  cases cs with
  | nil => exact absurd rfl hne
  | cons c cs =>
    obtain ⟨hc, hcs⟩ := List.forall_mem_cons.mp hcs
    unfold decodeUtf8
    rw [List.map_cons, List.append_assoc, List.cons_append, decodeFrom_append_ascii hc _ _ none (by simp), hascii cs hcs,
      List.append_assoc, List.cons_append]

example : decodeUtf8 ['?'] ([0xe2, 0x82, 0xac, 0xe2, 0x82] ++ [0x41]) = ['€', '?'] ++ ['A'] := by decide

/-! ASCII text is found in the decoded text only where its bytes are, as long as what is
put for ill-formed bytes is not ASCII itself. -/

section Found
variable {x : Char} (hx : 128 ≤ x.toNat)
include hx

theorem decodeFrom_pending_head {q : Pending} (hq : q.Sound) (bytes : List UInt8) :
    ∃ d ds, decodeFrom [x] (some q) bytes = d :: ds ∧ 128 ≤ d.toNat := by
  induction bytes generalizing q with
  | nil => exact ⟨x, [], rfl, hx⟩
  | cons b bytes ih =>
    by_cases hb : q.lo ≤ b ∧ b ≤ q.hi
    · by_cases howed : q.owed = 1
      · exact ⟨_, _, decodeFrom_last bytes hb howed, hq.last hb howed⟩
      · rw [decodeFrom_next bytes hb howed]
        exact ih (hq.next hb howed)
    · exact ⟨x, _, decodeFrom_restart bytes hb, hx⟩

theorem prefix_of_decode {cs : List Char} (hcs : ∀ c ∈ cs, c.toNat < 128) {bytes : List UInt8} {post : List Char}
    (h : decodeFrom [x] none bytes = cs ++ post) :
    ∃ rest, bytes = cs.map Char.toUInt8 ++ rest ∧ decodeFrom [x] none rest = post := by
  induction cs generalizing bytes with
  | nil => exact ⟨bytes, rfl, h⟩
  | cons c cs ih =>
    obtain ⟨hc, htail⟩ := List.forall_mem_cons.mp hcs
    cases bytes with
    | nil => cases h
    | cons b bytes =>
      rw [decodeFrom_cons, begin] at h
      cases hl : lead b with
      | char d =>
        rw [hl] at h
        obtain ⟨rfl, hrest⟩ := List.cons.inj h
        obtain ⟨rest, rfl, hpost⟩ := ih htail hrest
        rw [(lead_char hl).2]
        exact ⟨rest, rfl, hpost⟩
      | pending q =>
        rw [hl] at h
        obtain ⟨d, ds, hd, hbeyond⟩ := decodeFrom_pending_head hx (lead_sound hl) bytes
        rw [List.nil_append, hd] at h
        obtain ⟨rfl, -⟩ := List.cons.inj h
        omega
      | invalid =>
        rw [hl] at h
        obtain ⟨rfl, -⟩ := List.cons.inj h
        omega

/-- The bytes of `cs` stand in `bytes`, and what follows them decodes to `post`. -/
def StandsIn (x : Char) (cs post : List Char) (bytes : List UInt8) : Prop :=
  ∃ before rest, bytes = before ++ cs.map Char.toUInt8 ++ rest ∧ decodeFrom [x] none rest = post

omit hx in
theorem StandsIn.cons {cs post : List Char} {bytes : List UInt8} (b : UInt8) (h : StandsIn x cs post bytes) :
    StandsIn x cs post (b :: bytes) := by
  obtain ⟨before, rest, rfl, hrest⟩ := h
  exact ⟨b :: before, rest, rfl, hrest⟩

section Infix
variable {cs post : List Char} (hne : cs ≠ []) (hcs : ∀ c ∈ cs, c.toNat < 128)

include hne hcs in
omit hx in
/-- A character outside ASCII in front of ASCII text belongs to what precedes it. -/
theorem exists_pre_of_beyond {d : Char} {ds pre : List Char} (hd : 128 ≤ d.toNat) (h : d :: ds = pre ++ cs ++ post) :
    ∃ pre', ds = pre' ++ cs ++ post := by
  cases pre with
  | nil =>
    cases cs with
    | nil => exact absurd rfl hne
    | cons c cs =>
      obtain ⟨rfl, -⟩ := List.cons.inj h
      have := hcs d List.mem_cons_self
      omega
  | cons e pre => exact ⟨pre, (List.cons.inj h).2⟩

include hcs in
/-- Between sequences the text begins here or further on. -/
theorem standsIn_of_start {b : UInt8} {bytes : List UInt8}
    (ih : ∀ p : Option Pending, (∀ q ∈ p, q.Sound) → ∀ pre, decodeFrom [x] p bytes = pre ++ cs ++ post →
      StandsIn x cs post bytes)
    {pre : List Char} (h : decodeFrom [x] none (b :: bytes) = pre ++ cs ++ post) : StandsIn x cs post (b :: bytes) := by
  cases pre with
  | nil =>
    obtain ⟨rest, hbytes, hrest⟩ := prefix_of_decode hx hcs h
    exact ⟨[], rest, hbytes, hrest⟩
  | cons e pre =>
    rw [decodeFrom_cons, begin] at h
    cases hl : lead b with
    | char d =>
      rw [hl] at h
      exact (ih none (by simp) pre (List.cons.inj h).2).cons b
    | pending q =>
      rw [hl] at h
      refine (ih (some q) ?_ (e :: pre) h).cons b
      intro r hr
      cases hr
      exact lead_sound hl
    | invalid =>
      rw [hl] at h
      exact (ih none (by simp) pre (List.cons.inj h).2).cons b

include hne hcs in
theorem infix_of_decode (bytes : List UInt8) : ∀ p : Option Pending, (∀ q ∈ p, q.Sound) → ∀ pre : List Char,
    decodeFrom [x] p bytes = pre ++ cs ++ post → StandsIn x cs post bytes := by
  induction bytes with
  | nil =>
    intro p _ pre h
    cases p with
    | none => simp [decodeFrom, hne] at h
    | some q =>
      obtain ⟨pre', hnil⟩ := exists_pre_of_beyond hne hcs hx h
      simp [hne] at hnil
  | cons b bytes ih =>
    intro p hp pre h
    cases p with
    | none => exact standsIn_of_start hx hcs ih h
    | some q =>
      by_cases hb : q.lo ≤ b ∧ b ≤ q.hi
      · by_cases howed : q.owed = 1
        · rw [decodeFrom_last bytes hb howed] at h
          obtain ⟨pre', hpre⟩ := exists_pre_of_beyond hne hcs ((hp q rfl).last hb howed) h
          exact (ih none (by simp) pre' hpre).cons b
        · rw [decodeFrom_next bytes hb howed] at h
          refine (ih (some _) ?_ pre h).cons b
          intro r hr
          cases hr
          exact (hp q rfl).next hb howed
      · rw [decodeFrom_restart bytes hb] at h
        obtain ⟨pre', hpre⟩ := exists_pre_of_beyond hne hcs hx h
        exact standsIn_of_start hx hcs ih hpre

end Infix

end Found

theorem decodeUtf8_of_ascii {bytes : List UInt8} (h : ∀ b ∈ bytes, b.toNat < 128) (bad bad' : List Char) :
    decodeUtf8 bad bytes = decodeUtf8 bad' bytes := by
  unfold decodeUtf8
  induction bytes with
  | nil => rfl
  | cons b bytes ih =>
    obtain ⟨hb, hbytes⟩ := List.forall_mem_cons.mp h
    have hle : b.toNat ≤ 0x7f := Nat.le_of_lt_succ hb
    have hlead : lead b = .char (Char.ofNat b.toNat) := if_pos hle
    have hbegin : ∀ bad, begin bad b = ([Char.ofNat b.toNat], none) := fun bad => by rw [begin, hlead]
    rw [decodeFrom_cons, decodeFrom_cons, hbegin, hbegin, ih hbytes]

/-! ## Search -/

section Search
variable {α : Type u} [DecidableEq α]

def find (pat : List α) : List α → Option Nat
  | [] => if pat = [] then some 0 else none
  | c :: cs => if pat.isPrefixOf (c :: cs) then some 0 else (find pat cs).map (· + 1)

/-- Search from a position on; the answer counts from the start of the text. -/
def findFrom (pat text : List α) (start : Nat) : Option Nat := (find pat (text.drop start)).map (· + start)

theorem le_of_findFrom {pat text : List α} {start i : Nat} (h : findFrom pat text start = some i) : start ≤ i := by
  obtain ⟨j, -, rfl⟩ := Option.map_eq_some_iff.mp h
  exact Nat.le_add_left start j

theorem findFrom_of_length_le {pat text : List α} {start : Nat} (hpat : pat ≠ []) (h : text.length ≤ start) :
    findFrom pat text start = none := by
  rw [findFrom, List.drop_eq_nil_of_le h, find, if_neg hpat]
  rfl

def slice (text : List α) (i j : Nat) : List α := (text.take j).drop i

end Search

end Text
