import IronInstance.Codec

/-!
# Hex by text and by bytes

The manifest is matched by comparing hex text without regard to case; `/manage`
and the store work on decoded bytes. The two agree: a string equals the encoding
of `b` up to ASCII case exactly when it decodes to `b`.
-/

namespace IronInstance
set_option autoImplicit false

theorem asBytes_ofList_ascii {l : List Char} (h : ∀ c ∈ l, c.toNat < 128) :
    asBytes (String.ofList l) = l.map Char.toUInt8 := by
  rw [asBytes, String.toByteArray_ofList, List.utf8Encode, List.toList_data_toByteArray]
  induction l with
  | nil => rfl
  | cons c l ih =>
    have hc : c.utf8Size = 1 := Char.utf8Size_eq_one_iff.mpr (by
      have := h c List.mem_cons_self
      rw [UInt32.le_iff_toNat_le]
      exact Nat.le_of_lt_succ this)
    rw [List.flatMap_cons, String.utf8EncodeChar_eq_singleton hc, List.map_cons, ih]
    · rfl
    · exact fun d hd => h d (List.mem_cons_of_mem c hd)

/-- A statement about all bytes is one about the naturals below 256. -/
theorem forall_byte {p : UInt8 → Prop} (h : ∀ n < 256, p (UInt8.ofNat n)) (c : UInt8) : p c := by
  have hc := h c.toNat c.toNat_lt
  simpa using hc

def hexByte (n : UInt8) : UInt8 := (hexDigit n).toUInt8

def hexPair (x : UInt8) : List UInt8 := [hexByte (x >>> 4), hexByte (x &&& 0x0f)]

theorem hexDigit_ascii (n : UInt8) : (hexDigit n).toNat < 128 := by
  revert n
  exact forall_byte (by decide +kernel)

theorem hexVal_toAsciiLowercase (c : UInt8) : hexVal (toAsciiLowercase c) = hexVal c := by
  revert c
  exact forall_byte (by decide +kernel)

theorem hexVal_hexByte {n : UInt8} (hn : n < 16) : hexVal (hexByte n) = some n := by
  have hall : ∀ m < 16, hexVal (hexByte (UInt8.ofNat m)) = some (UInt8.ofNat m) := by decide +kernel
  have hn' : n.toNat < 16 := hn
  simpa using hall n.toNat hn'

theorem toAsciiLowercase_of_hexVal {c n : UInt8} (h : hexVal c = some n) :
    toAsciiLowercase c = toAsciiLowercase (hexByte n) := by
  have hall : ∀ c, (hexVal c).all (fun n => toAsciiLowercase c == toAsciiLowercase (hexByte n)) = true :=
    forall_byte (by decide +kernel)
  have hc := hall c
  rw [h] at hc
  exact eq_of_beq hc

/-- One digit: the same letter up to case is the same value. -/
theorem hexVal_iff (c n : UInt8) (hn : n < 16) :
    toAsciiLowercase c = toAsciiLowercase (hexByte n) ↔ hexVal c = some n := by
  refine ⟨fun h => ?_, toAsciiLowercase_of_hexVal⟩
  calc hexVal c = hexVal (toAsciiLowercase c) := (hexVal_toAsciiLowercase c).symm
    _ = hexVal (toAsciiLowercase (hexByte n)) := by rw [h]
    _ = hexVal (hexByte n) := hexVal_toAsciiLowercase _
    _ = some n := hexVal_hexByte hn

theorem hexVal_lt {c n : UInt8} (h : hexVal c = some n) : n < 16 := by
  have hall : ∀ c, (hexVal c).all (fun n => n < 16) = true := forall_byte (by decide +kernel)
  have hn := hall c
  rw [h] at hn
  exact of_decide_eq_true hn

theorem nibbles_lt (x : UInt8) : x >>> 4 < 16 ∧ x &&& 0x0f < 16 := by
  revert x
  exact forall_byte (by decide +kernel)

theorem nibbles_join (x : UInt8) : (x >>> 4) <<< 4 ||| (x &&& 0x0f) = x := by
  revert x
  exact forall_byte (by decide +kernel)

theorem nibbles_split {hi lo : UInt8} (hhi : hi < 16) (hlo : lo < 16) :
    (hi <<< 4 ||| lo) >>> 4 = hi ∧ (hi <<< 4 ||| lo) &&& 0x0f = lo := by
  have hall : ∀ a < 16, ∀ b < 16,
      (UInt8.ofNat a <<< 4 ||| UInt8.ofNat b) >>> 4 = UInt8.ofNat a ∧
        (UInt8.ofNat a <<< 4 ||| UInt8.ofNat b) &&& 0x0f = UInt8.ofNat b := by decide +kernel
  simpa using hall hi.toNat hhi lo.toNat hlo

theorem asBytes_hexEncode (b : List UInt8) : asBytes (hexEncode b) = b.flatMap hexPair := by
  rw [hexEncode, asBytes_ofList_ascii]
  · rw [hexEncodeChars, List.map_flatMap]
    rfl
  · intro c hc
    simp only [hexEncodeChars, List.mem_flatMap, List.mem_cons, List.not_mem_nil, or_false] at hc
    obtain ⟨x, -, rfl | rfl⟩ := hc <;> exact hexDigit_ascii _

theorem length_flatMap_hexPair (b : List UInt8) : (b.flatMap hexPair).length = 2 * b.length := by
  induction b with
  | nil => rfl
  | cons x b ih =>
    rw [List.flatMap_cons, List.length_append, ih, List.length_cons]
    simp only [hexPair, List.length_cons, List.length_nil]
    omega

theorem map_hexPair_iff (c d x : UInt8) :
    [c, d].map toAsciiLowercase = (hexPair x).map toAsciiLowercase ↔
      ∃ hi lo, hexVal c = some hi ∧ hexVal d = some lo ∧ hi <<< 4 ||| lo = x := by
  obtain ⟨hhi, hlo⟩ := nibbles_lt x
  simp only [hexPair, List.map_cons, List.map_nil, List.cons.injEq, and_true]
  rw [hexVal_iff c _ hhi, hexVal_iff d _ hlo]
  constructor
  · rintro ⟨hc, hd⟩
    exact ⟨_, _, hc, hd, nibbles_join x⟩
  · rintro ⟨hi, lo, hc, hd, rfl⟩
    obtain ⟨h₁, h₂⟩ := nibbles_split (hexVal_lt hc) (hexVal_lt hd)
    rw [h₁, h₂]
    exact ⟨hc, hd⟩

/-- The text `s` spells the encoding of `b` in some letter case. -/
def Spells (s b : List UInt8) : Prop := s.map toAsciiLowercase = (b.flatMap hexPair).map toAsciiLowercase

theorem spells_nil (b : List UInt8) : Spells [] b ↔ b = [] := by
  cases b <;> simp [Spells, hexPair]

theorem not_spells_nil (c : UInt8) (s : List UInt8) : ¬ Spells (c :: s) [] := by
  simp [Spells]

theorem spells_cons (c d : UInt8) (s : List UInt8) (x : UInt8) (b : List UInt8) :
    Spells (c :: d :: s) (x :: b) ↔
      (∃ hi lo, hexVal c = some hi ∧ hexVal d = some lo ∧ hi <<< 4 ||| lo = x) ∧ Spells s b := by
  rw [← map_hexPair_iff]
  simp [Spells, hexPair, and_assoc]

/-- On an even number of bytes the loop stays in bounds, and it decodes exactly the
texts that spell an encoding. -/
theorem hexDecodeLoop_even : ∀ (s out : List UInt8), s.length % 2 = 0 →
    ∃ r : Option (List UInt8), hexDecodeLoop out s = .value (r.map (out ++ ·)) ∧
      ∀ b, r = some b ↔ Spells s b
  | [], out, _ => ⟨some [], by simp [hexDecodeLoop], fun b => by simp [spells_nil, eq_comm]⟩
  | [c], out, h => by simp at h
  | c :: d :: rest, out, h => by
    have hrest : rest.length % 2 = 0 := by
      simp only [List.length_cons] at h
      omega
    cases hc : hexVal c with
    | none =>
      refine ⟨none, by simp [hexDecodeLoop, hc], fun b => ?_⟩
      cases b with
      | nil => simp [not_spells_nil]
      | cons x b => simp [spells_cons, hc]
    | some hi =>
      cases hd : hexVal d with
      | none =>
        refine ⟨none, by simp [hexDecodeLoop, hc, hd], fun b => ?_⟩
        cases b with
        | nil => simp [not_spells_nil]
        | cons x b => simp [spells_cons, hd]
      | some lo =>
        obtain ⟨r, hr, hiff⟩ := hexDecodeLoop_even rest (out ++ [hi <<< 4 ||| lo]) hrest
        refine ⟨r.map ((hi <<< 4 ||| lo) :: ·), ?_, fun b => ?_⟩
        · rw [hexDecodeLoop, hc, hd]
          simp only [hr, Option.map_map]
          congr 2
          funext b
          simp
        · cases b with
          | nil => simp [not_spells_nil]
          | cons x b =>
            rw [spells_cons, ← hiff b]
            simp [hc, hd, and_comm]

theorem eqIgnoreAsciiCase_hexEncode_iff (s : String) (b : List UInt8) :
    eqIgnoreAsciiCase s (hexEncode b) = true ↔ Spells (asBytes s) b := by
  rw [eqIgnoreAsciiCase, asBytes_hexEncode, beq_iff_eq, Spells]

/-- Text matching and decoding agree. -/
theorem hexDecode_eq_some_iff (s : String) (b : List UInt8) :
    hexDecode s = some b ↔ eqIgnoreAsciiCase s (hexEncode b) = true := by
  rw [eqIgnoreAsciiCase_hexEncode_iff, hexDecode, hexDecodeIndexed]
  by_cases hs : (asBytes s).length % 2 = 0
  · obtain ⟨r, hr, hiff⟩ := hexDecodeLoop_even (asBytes s) [] hs
    rw [if_neg (by simpa using hs), hr]
    simpa using hiff b
  · rw [if_pos hs]
    refine iff_of_false (by simp) fun hsp => hs ?_
    have hlen := congrArg List.length hsp
    simp only [List.length_map, length_flatMap_hexPair] at hlen
    omega

example : hexDecode "00FF1a" = some [0x00, 0xff, 0x1a] := by decide

/-! ## What decodes at all -/

def IsHexDigit (c : UInt8) : Prop := (48 ≤ c ∧ c ≤ 57) ∨ (97 ≤ c ∧ c ≤ 102) ∨ (65 ≤ c ∧ c ≤ 70)

theorem hexVal_isSome_iff (c : UInt8) : (∃ n, hexVal c = some n) ↔ IsHexDigit c := by
  unfold hexVal IsHexDigit
  split
  · simp [*]
  · split
    · simp [*]
    · split <;> simp [*]

theorem exists_spells_iff : ∀ s : List UInt8,
    (∃ b, Spells s b) ↔ s.length % 2 = 0 ∧ ∀ c ∈ s, IsHexDigit c
  | [] => by simp [spells_nil]
  | [c] => by
    refine iff_of_false ?_ (by simp)
    rintro ⟨b, hb⟩
    have hlen := congrArg List.length hb
    simp only [List.length_map, length_flatMap_hexPair, List.length_singleton] at hlen
    omega
  | c :: d :: rest => by
    have hrest := exists_spells_iff rest
    have heven : (c :: d :: rest).length % 2 = 0 ↔ rest.length % 2 = 0 := by
      simp only [List.length_cons]
      omega
    rw [heven, List.forall_mem_cons, List.forall_mem_cons, ← hexVal_isSome_iff, ← hexVal_isSome_iff]
    constructor
    · rintro ⟨b, hb⟩
      cases b with
      | nil => exact absurd hb (not_spells_nil c _)
      | cons x b =>
        obtain ⟨⟨hi, lo, hhi, hlo, -⟩, hb⟩ := (spells_cons c d rest x b).mp hb
        obtain ⟨hlen, hdigits⟩ := hrest.mp ⟨b, hb⟩
        exact ⟨hlen, ⟨hi, hhi⟩, ⟨lo, hlo⟩, hdigits⟩
    · rintro ⟨hlen, ⟨hi, hhi⟩, ⟨lo, hlo⟩, hdigits⟩
      obtain ⟨b, hb⟩ := hrest.mpr ⟨hlen, hdigits⟩
      exact ⟨(hi <<< 4 ||| lo) :: b, (spells_cons c d rest _ b).mpr ⟨⟨hi, lo, hhi, hlo, rfl⟩, hb⟩⟩

theorem hexDecode_isSome_iff (s : String) :
    (hexDecode s).isSome = true ↔ (asBytes s).length % 2 = 0 ∧ ∀ c ∈ asBytes s, IsHexDigit c := by
  rw [Option.isSome_iff_exists, ← exists_spells_iff]
  exact exists_congr fun b => by rw [hexDecode_eq_some_iff, eqIgnoreAsciiCase_hexEncode_iff]

/-- The length is checked before the loop, so the second index is always in bounds. -/
theorem hexDecodeIndexed_inBounds (s : String) : hexDecodeIndexed s ≠ .outOfBounds := by
  unfold hexDecodeIndexed
  split
  · simp
  · rename_i hs
    obtain ⟨r, hr, -⟩ := hexDecodeLoop_even (asBytes s) [] (by simpa using hs)
    simp [hr]

theorem eqIgnoreAsciiCase_hexEncode_inj {s : String} {a b : List UInt8}
    (ha : eqIgnoreAsciiCase s (hexEncode a) = true) (hb : eqIgnoreAsciiCase s (hexEncode b) = true) :
    a = b := by
  rw [← hexDecode_eq_some_iff] at ha hb
  rw [ha] at hb
  exact Option.some.inj hb

theorem eqIgnoreAsciiCase_trans {a b c : String} (hab : eqIgnoreAsciiCase a b = true) :
    eqIgnoreAsciiCase a c = eqIgnoreAsciiCase b c := by
  unfold eqIgnoreAsciiCase at hab ⊢
  rw [beq_iff_eq.mp hab]

theorem eqIgnoreAsciiCase_self (s : String) : eqIgnoreAsciiCase s s = true := by
  simp [eqIgnoreAsciiCase]

end IronInstance
