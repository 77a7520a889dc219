import Mathlib.Data.List.Basic
import Mathlib.Data.Nat.Bitwise

/-!
# Base64 as a regrouping of bits

The encoding of RFC 4648 without any machine arithmetic: a byte string is its bits,
most significant first, the bits are filled up with zeros and cut into groups of six,
and each group is a digit of an alphabet. `flatMap_sextets` says that the digits hold
the bytes' bits followed by the fill, so that a decoder which drops fewer than eight
trailing bits gets the bytes back.
-/

namespace Base64
set_option autoImplicit false

/-! ## Bits of a number -/

/-- The low `w` bits, most significant first. -/
def bits : Nat → Nat → List Bool
  | 0, _ => []
  | w + 1, n => n.testBit w :: bits w n

@[simp] theorem length_bits (w n : Nat) : (bits w n).length = w := by
  induction w with
  | zero => rfl
  | succ w ih => rw [bits, List.length_cons, ih]

theorem bits_congr {w m n : Nat} (h : ∀ i < w, m.testBit i = n.testBit i) : bits w m = bits w n := by
  induction w with
  | zero => rfl
  | succ w ih => rw [bits, bits, h w (Nat.lt_succ_self w), ih fun i hi => h i (Nat.lt_succ_of_lt hi)]

theorem testBit_eq_of_bits_eq {w m n : Nat} (h : bits w m = bits w n) : ∀ i < w, m.testBit i = n.testBit i := by
  induction w with
  | zero => exact fun i hi => absurd hi (Nat.not_lt_zero i)
  | succ w ih =>
    intro i hi
    obtain ⟨htop, hrest⟩ := List.cons.inj h
    rcases Nat.lt_succ_iff_lt_or_eq.mp hi with hi | rfl
    · exact ih hrest i hi
    · exact htop

theorem bits_injective {w m n : Nat} (hm : m < 2 ^ w) (hn : n < 2 ^ w) (h : bits w m = bits w n) : m = n := by
  apply Nat.eq_of_testBit_eq
  intro i
  rcases Nat.lt_or_ge i w with hi | hi
  · exact testBit_eq_of_bits_eq h i hi
  · have hpow : 2 ^ w ≤ 2 ^ i := Nat.pow_le_pow_right Nat.two_pos hi
    rw [Nat.testBit_lt_two_pow (Nat.lt_of_lt_of_le hm hpow), Nat.testBit_lt_two_pow (Nat.lt_of_lt_of_le hn hpow)]

theorem bits_mod (w n : Nat) : bits w (n % 2 ^ w) = bits w n := by
  apply bits_congr
  intro i hi
  simp [hi]

theorem bits_add (a b n : Nat) : bits (a + b) n = bits a (n >>> b) ++ bits b n := by
  induction a with
  | zero => rw [Nat.zero_add, bits, List.nil_append]
  | succ a ih => rw [Nat.add_right_comm, bits, bits, ih, List.cons_append, Nat.testBit_shiftRight, Nat.add_comm b]

theorem bits_high {a b n : Nat} {l r : List Bool} (h : bits (a + b) n = l ++ r) (hl : l.length = a) :
    l = bits a (n >>> b) := by
  rw [bits_add] at h
  exact (List.append_inj h.symm (by rw [hl, length_bits])).1

theorem bits_push (a b n : Nat) {v : Nat} (hv : v < 2 ^ b) :
    bits (a + b) (n <<< b ||| v) = bits a n ++ bits b v := by
  rw [bits_add]
  congr 1
  · apply bits_congr
    intro i _
    have hhigh : v.testBit (b + i) = false :=
      Nat.testBit_lt_two_pow (Nat.lt_of_lt_of_le hv (Nat.pow_le_pow_right Nat.two_pos (Nat.le_add_right b i)))
    simp [Nat.testBit_or, hhigh]
  · apply bits_congr
    intro i hi
    simp [Nat.testBit_or, Nat.not_le.mpr hi]

/-- The number a list of bits spells. -/
def value : List Bool → Nat
  | [] => 0
  | b :: l => 2 ^ l.length * b.toNat + value l

theorem value_lt (l : List Bool) : value l < 2 ^ l.length := by
  induction l with
  | nil => decide
  | cons b l ih =>
    have hb : b.toNat ≤ 1 := Bool.toNat_le b
    have hmul : 2 ^ l.length * b.toNat ≤ 2 ^ l.length * 1 := Nat.mul_le_mul_left _ hb
    rw [value, List.length_cons, Nat.pow_succ]
    omega

theorem bits_value (l : List Bool) : bits l.length (value l) = l := by
  induction l with
  | nil => rfl
  | cons b l ih =>
    have hb : b.toNat < 2 ^ 1 := Bool.toNat_lt b
    have hshift : value (b :: l) = b.toNat <<< l.length ||| value l := by
      rw [value, Nat.mul_comm, ← Nat.shiftLeft_eq, Nat.shiftLeft_add_eq_or_of_lt (value_lt l)]
    rw [hshift, List.length_cons, Nat.add_comm, bits_push _ _ _ (value_lt l), ih]
    cases b <;> rfl

theorem value_bits (w n : Nat) : value (bits w n) = n % 2 ^ w := by
  have hlt := value_lt (bits w n)
  have hback := bits_value (bits w n)
  rw [length_bits] at hlt hback
  apply bits_injective hlt (Nat.mod_lt n (Nat.two_pow_pos w))
  rw [hback, bits_mod]

/-! ## Bytes -/

def byteBits (bytes : List UInt8) : List Bool := bytes.flatMap fun b => bits 8 b.toNat

@[simp] theorem byteBits_nil : byteBits [] = [] := rfl

@[simp] theorem byteBits_cons (b : UInt8) (bytes : List UInt8) :
    byteBits (b :: bytes) = bits 8 b.toNat ++ byteBits bytes := rfl

@[simp] theorem byteBits_append (x y : List UInt8) : byteBits (x ++ y) = byteBits x ++ byteBits y :=
  List.flatMap_append

@[simp] theorem length_byteBits (bytes : List UInt8) : (byteBits bytes).length = 8 * bytes.length := by
  induction bytes with
  | nil => rfl
  | cons b bytes ih =>
    rw [byteBits_cons, List.length_append, length_bits, ih, List.length_cons]
    omega

theorem take_byteBits (bytes : List UInt8) (n : Nat) : (byteBits bytes).take (8 * n) = byteBits (bytes.take n) := by
  induction bytes generalizing n with
  | nil => simp
  | cons b bytes ih =>
    cases n with
    | zero => simp
    | succ n =>
      have hlen : 8 * (n + 1) = (bits 8 b.toNat).length + 8 * n := by
        rw [length_bits]
        omega
      rw [byteBits_cons, hlen, List.take_length_add_append, ih, List.take_succ_cons, byteBits_cons]

theorem drop_byteBits (bytes : List UInt8) (n : Nat) : (byteBits bytes).drop (8 * n) = byteBits (bytes.drop n) := by
  induction bytes generalizing n with
  | nil => simp
  | cons b bytes ih =>
    cases n with
    | zero => simp
    | succ n =>
      have hlen : 8 * (n + 1) = (bits 8 b.toNat).length + 8 * n := by
        rw [length_bits]
        omega
      rw [byteBits_cons, hlen, List.drop_length_add_append, ih, List.drop_succ_cons]

theorem byteBits_injective {x y : List UInt8} (h : byteBits x = byteBits y) : x = y := by
  have hlen : x.length = y.length := by
    have := congrArg List.length h
    rw [length_byteBits, length_byteBits] at this
    omega
  induction x generalizing y with
  | nil => exact (List.length_eq_zero_iff.mp hlen.symm).symm
  | cons a x ih =>
    cases y with
    | nil => cases hlen
    | cons b y =>
      obtain ⟨hhead, htail⟩ := List.append_inj h (by rw [length_bits, length_bits])
      have hab : a.toNat = b.toNat := bits_injective a.toNat_lt b.toNat_lt hhead
      rw [UInt8.toNat_inj.mp hab, ih htail (Nat.succ.inj hlen)]

/-- A prefix of whole bytes is fixed by the bits up to fewer than eight. -/
theorem byteBits_append_inj {x y : List UInt8} {s t : List Bool} (h : byteBits x ++ s = byteBits y ++ t)
    (hs : s.length < 8) (ht : t.length < 8) : x = y := by
  have hlen := congrArg List.length h
  simp only [List.length_append, length_byteBits] at hlen
  have hbits : (byteBits x).length = (byteBits y).length := by
    rw [length_byteBits, length_byteBits]
    omega
  exact byteBits_injective (List.append_inj h hbits).1

/-! ## Groups of six -/

def groups : List Bool → List Nat
  | a :: b :: c :: d :: e :: f :: rest => value [a, b, c, d, e, f] :: groups rest
  | _ => []

@[simp] theorem groups_nil : groups [] = [] := rfl

theorem groups_bits (n : Nat) (rest : List Bool) : groups (bits 6 n ++ rest) = n % 64 :: groups rest := by
  have hcons : groups (bits 6 n ++ rest) = value (bits 6 n) :: groups rest := rfl
  rw [hcons, value_bits]
  rfl

theorem groups_bits_nil (n : Nat) : groups (bits 6 n) = [n % 64] := by
  rw [← List.append_nil (bits 6 n), groups_bits, groups_nil]

theorem groups_word (n : Nat) (rest : List Bool) :
    groups (bits 24 n ++ rest) =
      (n >>> 18) % 64 :: (n >>> 12) % 64 :: (n >>> 6) % 64 :: n % 64 :: groups rest := by
  rw [bits_add 18 6, bits_add 12 6, bits_add 6 6]
  simp only [List.append_assoc, groups_bits, ← Nat.shiftRight_add]

theorem groups_word_nil (n : Nat) :
    groups (bits 24 n) = [(n >>> 18) % 64, (n >>> 12) % 64, (n >>> 6) % 64, n % 64] := by
  rw [← List.append_nil (bits 24 n), groups_word, groups_nil]

theorem flatMap_groups : ∀ l : List Bool, 6 ∣ l.length → (groups l).flatMap (bits 6) = l
  | [], _ => rfl
  | a :: b :: c :: d :: e :: f :: rest, h => by
    have hrest : 6 ∣ rest.length := (Nat.dvd_add_left (Nat.dvd_refl 6)).mp h
    rw [groups, List.flatMap_cons, flatMap_groups rest hrest]
    exact congrArg (· ++ rest) (bits_value [a, b, c, d, e, f])
  | [_], h | [_, _], h | [_, _, _], h | [_, _, _, _], h | [_, _, _, _, _], h => by
    simp only [List.length_cons, List.length_nil] at h
    omega

def fill (n : Nat) : Nat := (6 - n % 6) % 6

theorem six_dvd_add_fill (n : Nat) : 6 ∣ n + fill n := by
  unfold fill
  omega

def sextets (x : List UInt8) : List Nat :=
  groups (byteBits x ++ List.replicate (fill (byteBits x).length) false)

theorem flatMap_sextets (x : List UInt8) :
    (sextets x).flatMap (bits 6) = byteBits x ++ List.replicate (fill (byteBits x).length) false := by
  apply flatMap_groups
  rw [List.length_append, List.length_replicate]
  exact six_dvd_add_fill _

theorem groups_lt (l : List Bool) : ∀ v ∈ groups l, v < 64 := by
  fun_induction groups l with
  | case1 a b c d e f rest ih =>
    intro v hv
    rcases List.mem_cons.mp hv with rfl | hv
    · exact value_lt [a, b, c, d, e, f]
    · exact ih v hv
  | case2 => simp

theorem sextets_lt (x : List UInt8) : ∀ v ∈ sextets x, v < 64 := groups_lt _

/-! ## The encoding -/

def alphabet : List Char := "ABCDEFGHIJKLMNOPQRSTUVWXYZabcdefghijklmnopqrstuvwxyz0123456789+/".toList

def digit (v : Nat) : Char := alphabet.getD v 'A'

def pad (cs : List Char) : List Char := cs ++ List.replicate ((4 - cs.length % 4) % 4) '='

theorem mem_pad {cs : List Char} {c : Char} (h : c ∈ pad cs) : c ∈ cs ∨ c = '=' := by
  rw [pad, List.mem_append, List.mem_replicate] at h
  exact h.imp_right And.right

theorem pad_four (a b c d : Char) (cs : List Char) : pad (a :: b :: c :: d :: cs) = a :: b :: c :: d :: pad cs := by
  have hlen : (cs.length + 1 + 1 + 1 + 1) % 4 = cs.length % 4 := by omega
  simp only [pad, List.length_cons, List.cons_append, hlen]

/-- The padded encoding in the standard alphabet. -/
def encode (x : List UInt8) : String := String.ofList (pad ((sextets x).map digit))

theorem mem_alphabet_of_encode {x : List UInt8} {c : Char} (h : c ∈ (encode x).toList) : c = '=' ∨ c ∈ alphabet := by
  rw [encode, String.toList_ofList] at h
  rcases mem_pad h with h | h
  · obtain ⟨v, hv, rfl⟩ := List.mem_map.mp h
    have hlt : v < alphabet.length := sextets_lt x v hv
    rw [digit, List.getD_eq_getElem _ _ hlt]
    exact .inr (List.getElem_mem hlt)
  · exact .inl h

def urlAlphabet : List Char := "ABCDEFGHIJKLMNOPQRSTUVWXYZabcdefghijklmnopqrstuvwxyz0123456789-_".toList

def urlDigit (v : Nat) : Char := urlAlphabet.getD v 'A'

/-- The encoding in the alphabet for URLs and file names, without padding. -/
def encodeUrl (x : List UInt8) : String := String.ofList ((sextets x).map urlDigit)

end Base64
