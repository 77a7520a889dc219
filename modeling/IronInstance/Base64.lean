import IronInstance.Hex
import IronInstance.Library.Base64
import IronInstance.Library.Traverse

/-!
# The crate's base64 and RFC 4648

`b64_encode` works on chunks of three bytes in a 32-bit word, `b64_decode_any` on an
accumulator that is never masked. Both are the regrouping of bits of the library: the
encoder yields the padded standard encoding, and the decoder's bytes and pending bits
together are the bits of the digits it has read.
-/

namespace IronInstance
open Base64 Traverse
set_option autoImplicit false

/-! ## The encoder -/

def chunkWord (a b c : UInt8) : UInt32 := a.toUInt32 <<< 16 ||| b.toUInt32 <<< 8 ||| c.toUInt32

theorem bits_chunkWord (a b c : UInt8) :
    bits 24 (chunkWord a b c).toNat = bits 8 a.toNat ++ bits 8 b.toNat ++ bits 8 c.toNat := by
  have hword : (chunkWord a b c).toNat = (a.toNat <<< 8 ||| b.toNat) <<< 8 ||| c.toNat := by
    have ha : a.toNat <<< 16 < 4294967296 := by
      have := a.toNat_lt
      rw [Nat.shiftLeft_eq]
      omega
    have hb : b.toNat <<< 8 < 4294967296 := by
      have := b.toNat_lt
      rw [Nat.shiftLeft_eq]
      omega
    simp [chunkWord, UInt32.toNat_or, UInt32.toNat_shiftLeft, Nat.mod_eq_of_lt ha, Nat.mod_eq_of_lt hb,
      Nat.shiftLeft_or_distrib, ← Nat.shiftLeft_add]
  rw [hword, bits_push 16 8 _ c.toNat_lt, bits_push 8 8 _ b.toNat_lt]

theorem toNat_sextet (n shift : UInt32) (h : shift.toNat < 32) :
    (n >>> shift &&& 63).toNat = (n.toNat >>> shift.toNat) % 64 := by
  rw [UInt32.toNat_and, UInt32.toNat_shiftRight, Nat.mod_eq_of_lt h]
  exact Nat.and_two_pow_sub_one_eq_mod _ 6

theorem sextetChar_eq (n shift : UInt32) (h : shift.toNat < 32) :
    sextetChar b64Table n shift = digit ((n.toNat >>> shift.toNat) % 64) := by
  rw [sextetChar, toNat_sextet n shift h]
  rfl

theorem sextets_three (a b c : UInt8) (rest : List UInt8) :
    sextets (a :: b :: c :: rest) = groups (bits 24 (chunkWord a b c).toNat) ++ sextets rest := by
  have hfill : fill (byteBits (a :: b :: c :: rest)).length = fill (byteBits rest).length := by
    simp only [fill, length_byteBits, List.length_cons]
    omega
  have hbits : byteBits (a :: b :: c :: rest) = bits 24 (chunkWord a b c).toNat ++ byteBits rest := by
    rw [bits_chunkWord]
    simp
  rw [sextets, hfill, hbits, List.append_assoc, groups_word, groups_word_nil]
  rfl

theorem sextets_one (a : UInt8) :
    sextets [a] = [((chunkWord a 0 0).toNat >>> 18) % 64, ((chunkWord a 0 0).toNat >>> 12) % 64] := by
  have hword : bits (12 + 12) (chunkWord a 0 0).toNat =
      (bits 8 a.toNat ++ List.replicate 4 false) ++ List.replicate 12 false := by
    rw [bits_chunkWord]
    simp only [List.append_assoc]
    rfl
  have hsplit := bits_high hword (by simp)
  have hgroups : sextets [a] = groups (bits 8 a.toNat ++ List.replicate 4 false) := by simp [sextets, fill]
  rw [hgroups, hsplit, bits_add 6 6, groups_bits, groups_bits_nil, ← Nat.shiftRight_add]

theorem sextets_two (a b : UInt8) :
    sextets [a, b] = [((chunkWord a b 0).toNat >>> 18) % 64, ((chunkWord a b 0).toNat >>> 12) % 64,
      ((chunkWord a b 0).toNat >>> 6) % 64] := by
  have hword : bits (18 + 6) (chunkWord a b 0).toNat =
      (bits 8 a.toNat ++ bits 8 b.toNat ++ List.replicate 2 false) ++ List.replicate 6 false := by
    rw [bits_chunkWord]
    simp only [List.append_assoc]
    rfl
  have hsplit := bits_high hword (by simp)
  have hgroups : sextets [a, b] = groups (bits 8 a.toNat ++ bits 8 b.toNat ++ List.replicate 2 false) := by
    simp [sextets, fill]
  rw [hgroups, hsplit, bits_add 12 6, bits_add 6 6]
  simp only [List.append_assoc, groups_bits, groups_bits_nil, ← Nat.shiftRight_add]

theorem b64EncodeChars_eq : ∀ x : List UInt8, b64EncodeChars x = pad ((sextets x).map digit)
  | [] => rfl
  | [a] => by
    have hchunk : b64EncodeChars [a] = [sextetChar b64Table (chunkWord a 0 0) 18,
      sextetChar b64Table (chunkWord a 0 0) 12, '=', '='] := rfl
    rw [hchunk, sextets_one, sextetChar_eq _ _ (by decide), sextetChar_eq _ _ (by decide)]
    rfl
  | [a, b] => by
    have hchunk : b64EncodeChars [a, b] = [sextetChar b64Table (chunkWord a b 0) 18,
      sextetChar b64Table (chunkWord a b 0) 12, sextetChar b64Table (chunkWord a b 0) 6, '='] := rfl
    rw [hchunk, sextets_two, sextetChar_eq _ _ (by decide), sextetChar_eq _ _ (by decide),
      sextetChar_eq _ _ (by decide)]
    rfl
  | a :: b :: c :: rest => by
    have hchunk : b64EncodeChars (a :: b :: c :: rest) =
      sextetChar b64Table (chunkWord a b c) 18 :: sextetChar b64Table (chunkWord a b c) 12 ::
        sextetChar b64Table (chunkWord a b c) 6 :: sextetChar b64Table (chunkWord a b c) 0 ::
          b64EncodeChars rest := rfl
    rw [hchunk, b64EncodeChars_eq rest, sextets_three, groups_word_nil]
    simp only [List.cons_append, List.nil_append, List.map_cons, pad_four]
    rw [sextetChar_eq _ _ (by decide), sextetChar_eq _ _ (by decide), sextetChar_eq _ _ (by decide),
      sextetChar_eq _ _ (by decide)]
    rfl

theorem b64Encode_eq (x : List UInt8) : b64Encode x = encode x := by
  rw [b64Encode, b64EncodeChars_eq, encode]

example : b64Encode [0x66, 0x6f, 0x6f, 0x62] = "Zm9vYg==" := by decide

/-! ## The decoder -/

def b64Digits (cs : List UInt8) : Option (List UInt32) := (cs.filter fun c => !b64Skip c).mapM b64Val

theorem b64DecodeLoop_eq (st : B64State) (cs : List UInt8) :
    b64DecodeLoop st cs = (b64Digits cs).map fun vs => vs.foldl B64State.push st := by
  induction cs generalizing st with
  | nil => rfl
  | cons c cs ih =>
    rw [b64DecodeLoop]
    cases hskip : b64Skip c with
    | true => simp [ih, b64Digits, hskip]
    | false =>
      cases hval : b64Val c with
      | none => simp [b64Digits, hskip, hval]
      | some v =>
        simp only [Bool.false_eq_true, if_false, ih]
        simp only [b64Digits, hskip, Bool.not_false, List.filter_cons_of_pos, List.mapM_cons, hval]
        cases (cs.filter fun c => !b64Skip c).mapM b64Val <;> rfl

theorem b64Val_lt {c : UInt8} {v : UInt32} (h : b64Val c = some v) : v.toNat < 64 := by
  have hall : ∀ c, (b64Val c).all (fun v => v.toNat < 64) = true := forall_byte (by decide +kernel)
  have hv := hall c
  rw [h] at hv
  exact of_decide_eq_true hv

/-- What the accumulator holds after the values `vs`: the bytes put out and the pending
bits are the bits of `vs`. Nothing is said of the accumulator above the pending bits. -/
def B64State.Holds (st : B64State) (vs : List Nat) : Prop :=
  st.nbits.toNat < 8 ∧ byteBits st.out ++ bits st.nbits.toNat st.acc.toNat = vs.flatMap (bits 6)

theorem B64State.holds_start : B64State.Holds ⟨0, 0, []⟩ [] := ⟨by decide, rfl⟩

/-- The bits that are shifted out of the word lie above the pending ones. -/
theorem bits_shiftIn (acc v : UInt32) {k : Nat} (hk : k < 8) (hv : v.toNat < 64) :
    bits (k + 6) (acc <<< 6 ||| v).toNat = bits k acc.toNat ++ bits 6 v.toNat := by
  rw [← bits_push k 6 acc.toNat hv]
  apply bits_congr
  intro i hi
  have hword : i < 32 := by omega
  have hsix : (6 : UInt32).toNat % 32 = 6 := by decide
  rw [UInt32.toNat_or, UInt32.toNat_shiftLeft, hsix, Nat.testBit_or, Nat.testBit_or, Nat.testBit_mod_two_pow]
  simp [hword]

theorem B64State.Holds.push {st : B64State} {vs : List Nat} (h : st.Holds vs) {v : UInt32} (hv : v.toNat < 64) :
    (st.push v).Holds (vs ++ [v.toNat]) := by
  obtain ⟨hlt, hbits⟩ := h
  have hsum : (st.nbits + 6).toNat = st.nbits.toNat + 6 := by
    rw [UInt32.toNat_add]
    exact Nat.mod_eq_of_lt (by simp; omega)
  have hall : byteBits st.out ++ bits (st.nbits.toNat + 6) (st.acc <<< 6 ||| v).toNat =
      (vs ++ [v.toNat]).flatMap (bits 6) := by
    rw [bits_shiftIn _ _ hlt hv, ← List.append_assoc, hbits]
    simp
  unfold B64State.push
  by_cases hfull : 8 ≤ st.nbits + 6
  · have hle : 8 ≤ st.nbits.toNat + 6 := by
      have := UInt32.le_iff_toNat_le.mp hfull
      rwa [hsum] at this
    have hrest : (st.nbits + 6 - 8).toNat = st.nbits.toNat + 6 - 8 := by
      rw [UInt32.toNat_sub_of_le _ _ hfull, hsum]
      rfl
    have hbyte : ((st.acc <<< 6 ||| v) >>> (st.nbits + 6 - 8)).toUInt8.toNat =
        ((st.acc <<< 6 ||| v).toNat >>> (st.nbits.toNat + 6 - 8)) % 2 ^ 8 := by
      rw [UInt32.toNat_toUInt8, UInt32.toNat_shiftRight, hrest, Nat.mod_eq_of_lt (b := 32) (by omega)]
    rw [if_pos hfull]
    refine ⟨?_, ?_⟩
    · rw [hrest]
      omega
    · rw [← hall, byteBits_append, byteBits_cons, byteBits_nil, List.append_nil, hbyte, bits_mod, hrest,
        List.append_assoc, ← bits_add]
      congr 2
      omega
  · rw [if_neg hfull]
    refine ⟨?_, ?_⟩
    · have := UInt32.not_le.mp hfull
      have := UInt32.lt_iff_toNat_lt.mp this
      rwa [hsum] at this
    · rwa [hsum]

theorem B64State.Holds.foldl_push {st : B64State} {vs : List Nat} (h : st.Holds vs) {ws : List UInt32}
    (hws : ∀ w ∈ ws, w.toNat < 64) : (ws.foldl B64State.push st).Holds (vs ++ ws.map UInt32.toNat) := by
  induction ws generalizing st vs with
  | nil => simpa using h
  | cons w ws ih =>
    have := ih (h.push (hws w List.mem_cons_self)) fun w' hw' => hws w' (List.mem_cons_of_mem w hw')
    simpa using this

theorem b64Digits_lt {cs : List UInt8} {vs : List UInt32} (h : b64Digits cs = some vs) : ∀ v ∈ vs, v.toNat < 64 := by
  intro v hv
  obtain ⟨c, hc⟩ := exists_of_mapM h v hv
  exact b64Val_lt hc

/-- The decoder puts out the leading whole bytes of the digits' bits. -/
theorem b64DecodeAny_bits {s : String} {vs : List UInt32} (h : b64Digits (asBytes s) = some vs) :
    ∃ out tail, b64DecodeAny s = some out ∧ tail.length < 8 ∧
      byteBits out ++ tail = (vs.map UInt32.toNat).flatMap (bits 6) := by
  obtain ⟨hlt, hbits⟩ := B64State.holds_start.foldl_push (b64Digits_lt h)
  refine ⟨_, _, ?_, ?_, hbits⟩
  · rw [b64DecodeAny, b64DecodeLoop_eq, h]
    rfl
  · rwa [length_bits]

/-! ## The round trip -/

theorem digit_ascii (v : Nat) : (digit v).toNat < 128 := by
  rcases Nat.lt_or_ge v 64 with hv | hv
  · have hall : ∀ v < 64, (digit v).toNat < 128 := by decide +kernel
    exact hall v hv
  · have hlen : alphabet.length = 64 := by decide
    have hnone : alphabet[v]? = none := List.getElem?_eq_none (hlen ▸ hv)
    rw [digit, List.getD_eq_getElem?_getD, hnone]
    decide

theorem b64Val_digit {v : Nat} (hv : v < 64) :
    b64Skip (digit v).toUInt8 = false ∧ b64Val (digit v).toUInt8 = some (UInt32.ofNat v) := by
  have hall : ∀ v < 64, b64Skip (digit v).toUInt8 = false ∧
      b64Val (digit v).toUInt8 = some (UInt32.ofNat v) := by decide +kernel
  exact hall v hv

theorem encode_ascii (x : List UInt8) : ∀ c ∈ (encode x).toList, c.toNat < 128 := by
  intro c hc
  rw [encode, String.toList_ofList] at hc
  rcases mem_pad hc with hc | rfl
  · obtain ⟨v, -, rfl⟩ := List.mem_map.mp hc
    exact digit_ascii v
  · decide

theorem asBytes_encode (x : List UInt8) :
    asBytes (encode x) = (pad ((sextets x).map digit)).map Char.toUInt8 := by
  have hascii := encode_ascii x
  rw [encode, String.toList_ofList] at hascii
  exact asBytes_ofList_ascii hascii

theorem b64Digits_encode (x : List UInt8) :
    b64Digits (asBytes (encode x)) = some ((sextets x).map UInt32.ofNat) := by
  have hkept : ((sextets x).map fun v => (digit v).toUInt8).filter (fun c => !b64Skip c) =
      (sextets x).map fun v => (digit v).toUInt8 := by
    apply List.filter_eq_self.mpr
    intro c hc
    obtain ⟨v, hv, rfl⟩ := List.mem_map.mp hc
    rw [(b64Val_digit (sextets_lt x v hv)).1]
    rfl
  rw [b64Digits, asBytes_encode, pad, List.map_append, List.filter_append, List.map_map, Function.comp_def, hkept,
    List.map_replicate, List.filter_replicate_of_neg (by decide), List.append_nil, mapM_eq_some_iff,
    List.forall₂_map_left_iff, List.forall₂_map_right_iff, List.forall₂_same]
  exact fun v hv => (b64Val_digit (sextets_lt x v hv)).2

theorem map_toNat_ofNat {vs : List Nat} (h : ∀ v ∈ vs, v < 64) :
    (vs.map UInt32.ofNat).map UInt32.toNat = vs := by
  rw [List.map_map]
  refine (List.map_congr_left fun v hv => ?_).trans (List.map_id vs)
  exact UInt32.toNat_ofNat_of_lt (Nat.lt_trans (h v hv) (by decide))

theorem b64DecodeAny_encode (x : List UInt8) : b64DecodeAny (encode x) = some x := by
  obtain ⟨out, tail, hout, htail, hbits⟩ := b64DecodeAny_bits (b64Digits_encode x)
  rw [map_toNat_ofNat (sextets_lt x), flatMap_sextets] at hbits
  have hfill : (List.replicate (fill (byteBits x).length) false).length < 8 := by
    rw [List.length_replicate, fill]
    omega
  rw [hout, byteBits_append_inj hbits htail hfill]

example : b64DecodeAny "SGVsbG8=" = some [72, 101, 108, 108, 111] := by decide

end IronInstance
