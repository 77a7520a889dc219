import Mathlib.Data.Nat.Find
import IronInstance.Library.Base64

/-!
# SHA-1 of FIPS 180-4

The standard's own words: a message is a string of bits of any length, the padding is
the least number of zeros that reaches 448 modulo 512, the schedule is a recursion on
its index, and the functions are given with exclusive or. Nothing here is about bytes.
-/

namespace Fips180
open Base64
set_option autoImplicit false

abbrev Word := BitVec 32

/-! ## Padding and parsing (5.1.1, 5.2.1) -/

theorem exists_zeros (l : Nat) : ∃ k, (l + 1 + k) % 512 = 448 := ⟨(960 - (l + 1) % 512) % 512, by omega⟩

/-- The least number of zero bits after the one bit. -/
def zeros (l : Nat) : Nat := Nat.find (exists_zeros l)

def pad (m : List Bool) : List Bool :=
  m ++ [true] ++ List.replicate (zeros m.length) false ++ bits 64 m.length

def blocks (m : List Bool) : List (List Bool) :=
  (List.range (m.length / 512)).map fun i => (m.drop (512 * i)).take 512

def word (block : List Bool) (t : Nat) : Word := BitVec.ofNat 32 (value ((block.drop (32 * t)).take 32))

/-! ## Functions and constants (4.1.1, 4.2.1) -/

def ch (x y z : Word) : Word := (x &&& y) ^^^ (~~~x &&& z)

def parity (x y z : Word) : Word := x ^^^ y ^^^ z

def maj (x y z : Word) : Word := (x &&& y) ^^^ (x &&& z) ^^^ (y &&& z)

def f (t : Nat) : Word → Word → Word → Word :=
  if t ≤ 19 then ch else if t ≤ 39 then parity else if t ≤ 59 then maj else parity

def K (t : Nat) : Word :=
  if t ≤ 19 then 0x5a827999 else if t ≤ 39 then 0x6ed9eba1 else if t ≤ 59 then 0x8f1bbcdc else 0xca62c1d6

/-! ## The computation (6.1.2) -/

def W (block : List Bool) (t : Nat) : Word :=
  if t < 16 then word block t
  else (W block (t - 3) ^^^ W block (t - 8) ^^^ W block (t - 14) ^^^ W block (t - 16)).rotateLeft 1
termination_by t

structure Variables where
  a : Word
  b : Word
  c : Word
  d : Word
  e : Word

/-- The working variables after the first `t` rounds. -/
def rounds (block : List Bool) (h : Variables) : Nat → Variables
  | 0 => h
  | t + 1 =>
    let v := rounds block h t
    { a := v.a.rotateLeft 5 + f t v.b v.c v.d + v.e + K t + W block t
      b := v.a
      c := v.b.rotateLeft 30
      d := v.c
      e := v.d }

def next (h : Variables) (block : List Bool) : Variables :=
  let v := rounds block h 80
  ⟨v.a + h.a, v.b + h.b, v.c + h.c, v.d + h.d, v.e + h.e⟩

def initial : Variables := ⟨0x67452301, 0xefcdab89, 0x98badcfe, 0x10325476, 0xc3d2e1f0⟩

def digest (h : Variables) : List Bool := [h.a, h.b, h.c, h.d, h.e].flatMap fun x => bits 32 x.toNat

def sha1 (m : List Bool) : List Bool := digest ((blocks (pad m)).foldl next initial)

/-! ## Lemmas -/

theorem zeros_eq {l k : Nat} (hk : k < 512) (h : (l + 1 + k) % 512 = 448) : zeros l = k := by
  refine (Nat.find_eq_iff _).mpr ⟨h, ?_⟩
  intro m hm
  omega

theorem ch_eq_or (x y z : Word) : ch x y z = (x &&& y) ||| (~~~x &&& z) := by
  unfold ch
  ext i hi
  simp only [BitVec.getElem_xor, BitVec.getElem_or, BitVec.getElem_and, BitVec.getElem_not]
  cases x[i] <;> cases y[i] <;> cases z[i] <;> rfl

theorem maj_eq_or (x y z : Word) : maj x y z = (x &&& y) ||| (x &&& z) ||| (y &&& z) := by
  unfold maj
  ext i hi
  simp only [BitVec.getElem_xor, BitVec.getElem_or, BitVec.getElem_and]
  cases x[i] <;> cases y[i] <;> cases z[i] <;> rfl

theorem W_of_lt {block : List Bool} {t : Nat} (h : t < 16) : W block t = word block t := by
  rw [W, if_pos h]

theorem W_of_le {block : List Bool} {t : Nat} (h : 16 ≤ t) : W block t =
    (W block (t - 3) ^^^ W block (t - 8) ^^^ W block (t - 14) ^^^ W block (t - 16)).rotateLeft 1 := by
  rw [W, if_neg (Nat.not_lt.mpr h)]

end Fips180
