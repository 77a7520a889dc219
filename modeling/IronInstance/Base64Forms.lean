import IronInstance.Base64

/-!
# Every spelling of a byte string in base64

The url encoder against the same regrouping of bits as the padded one, the spellings
that the decoder reads as the same bytes, and what it makes of inputs that no encoder
writes.
-/

namespace IronInstance
open Base64 Traverse
set_option autoImplicit false

/-! ## The url encoder -/

def toUrl (c : Char) : Char := if c = '+' then '-' else if c = '/' then '_' else c

theorem toUrl_digit {v : Nat} (hv : v < 64) : toUrl (digit v) = urlDigit v ∧ digit v ≠ '=' := by
  have hall : ∀ v < 64, toUrl (digit v) = urlDigit v ∧ digit v ≠ '=' := by decide +kernel
  exact hall v hv

theorem sextetChar_url (n shift : UInt32) (h : shift.toNat < 32) :
    sextetChar b64urlTable n shift = urlDigit ((n.toNat >>> shift.toNat) % 64) := by
  rw [sextetChar, toNat_sextet n shift h]
  rfl

theorem b64urlNopadChars_eq : ∀ x : List UInt8, b64urlNopadChars x = (sextets x).map urlDigit
  | [] => rfl
  | [a] => by
    have hword : a.toUInt32 <<< 16 = chunkWord a 0 0 := by simp [chunkWord]
    rw [b64urlNopadChars, hword, sextets_one, sextetChar_url _ _ (by decide), sextetChar_url _ _ (by decide)]
    rfl
  | [a, b] => by
    have hword : a.toUInt32 <<< 16 ||| b.toUInt32 <<< 8 = chunkWord a b 0 := by simp [chunkWord]
    rw [b64urlNopadChars, hword, sextets_two, sextetChar_url _ _ (by decide), sextetChar_url _ _ (by decide),
      sextetChar_url _ _ (by decide)]
    rfl
  | a :: b :: c :: rest => by
    have hchunk : b64urlNopadChars (a :: b :: c :: rest) =
      sextetChar b64urlTable (chunkWord a b c) 18 :: sextetChar b64urlTable (chunkWord a b c) 12 ::
        sextetChar b64urlTable (chunkWord a b c) 6 :: sextetChar b64urlTable (chunkWord a b c) 0 ::
          b64urlNopadChars rest := rfl
    rw [hchunk, b64urlNopadChars_eq rest, sextets_three, groups_word_nil]
    simp only [List.cons_append, List.nil_append, List.map_cons]
    rw [sextetChar_url _ _ (by decide), sextetChar_url _ _ (by decide), sextetChar_url _ _ (by decide),
      sextetChar_url _ _ (by decide)]
    rfl

theorem b64urlNopad_eq (x : List UInt8) : b64urlNopad x = encodeUrl x := by
  rw [b64urlNopad, b64urlNopadChars_eq, encodeUrl]

theorem filter_pad {cs : List Char} (h : ∀ c ∈ cs, c ≠ '=') : (pad cs).filter (· ≠ '=') = cs := by
  rw [pad, List.filter_append, List.filter_replicate_of_neg (by decide), List.append_nil, List.filter_eq_self]
  simpa using h

/-- The url form is the padded one with `=` taken out and two digits exchanged. -/
theorem encodeUrl_eq (x : List UInt8) :
    encodeUrl x = String.ofList (((encode x).toList.filter (· ≠ '=')).map toUrl) := by
  have hdigits : ∀ c ∈ (sextets x).map digit, c ≠ '=' := by
    intro c hc
    obtain ⟨v, hv, rfl⟩ := List.mem_map.mp hc
    exact (toUrl_digit (sextets_lt x v hv)).2
  rw [encodeUrl, encode, String.toList_ofList, filter_pad hdigits, List.map_map]
  congr 1
  exact List.map_congr_left fun v hv => (toUrl_digit (sextets_lt x v hv)).1.symm

/-! ## Spellings -/

/-- `Respells cs ds`: in `ds` some `+` and `/` of `cs` are written `-` and `_`, some `=`
are left out, and `=` and line ends are put in anywhere. -/
inductive Respells : List Char → List Char → Prop where
  | nil : Respells [] []
  | keep (c : Char) {cs ds : List Char} : Respells cs ds → Respells (c :: cs) (c :: ds)
  | plus {cs ds : List Char} : Respells cs ds → Respells ('+' :: cs) ('-' :: ds)
  | slash {cs ds : List Char} : Respells cs ds → Respells ('/' :: cs) ('_' :: ds)
  | unpad {cs ds : List Char} : Respells cs ds → Respells ('=' :: cs) ds
  | insert {c : Char} {cs ds : List Char} : c = '=' ∨ c = '\r' ∨ c = '\n' → Respells cs ds → Respells cs (c :: ds)

theorem b64Digits_cons (c : UInt8) (cs : List UInt8) :
    b64Digits (c :: cs) =
      if b64Skip c then b64Digits cs else (b64Val c).bind fun v => (b64Digits cs).map (v :: ·) := by
  unfold b64Digits
  cases hskip : b64Skip c with
  | true => simp [hskip]
  | false =>
    rw [List.filter_cons_of_pos (by simp [hskip]), List.mapM_cons]
    cases b64Val c with
    | none => rfl
    | some v => cases (cs.filter fun c => !b64Skip c).mapM b64Val <;> rfl

theorem b64DecodeAny_congr {s t : String} (h : b64Digits (asBytes s) = b64Digits (asBytes t)) :
    b64DecodeAny s = b64DecodeAny t := by
  rw [b64DecodeAny, b64DecodeAny, b64DecodeLoop_eq, b64DecodeLoop_eq, h]

namespace Respells
variable {cs ds : List Char}

theorem ascii (h : Respells cs ds) (hcs : ∀ c ∈ cs, c.toNat < 128) : ∀ d ∈ ds, d.toNat < 128 := by
  induction h with
  | nil => exact hcs
  | keep c _ ih =>
    obtain ⟨hc, hrest⟩ := List.forall_mem_cons.mp hcs
    exact List.forall_mem_cons.mpr ⟨hc, ih hrest⟩
  | plus _ ih => exact List.forall_mem_cons.mpr ⟨by decide, ih (List.forall_mem_cons.mp hcs).2⟩
  | slash _ ih => exact List.forall_mem_cons.mpr ⟨by decide, ih (List.forall_mem_cons.mp hcs).2⟩
  | unpad _ ih => exact ih (List.forall_mem_cons.mp hcs).2
  | insert hc _ ih =>
    refine List.forall_mem_cons.mpr ⟨?_, ih hcs⟩
    rcases hc with rfl | rfl | rfl <;> decide

theorem digits_eq (h : Respells cs ds) :
    b64Digits (ds.map Char.toUInt8) = b64Digits (cs.map Char.toUInt8) := by
  induction h with
  | nil => rfl
  | keep c _ ih => rw [List.map_cons, List.map_cons, b64Digits_cons, b64Digits_cons, ih]
  | plus _ ih =>
    rw [List.map_cons, List.map_cons, b64Digits_cons, b64Digits_cons, ih]
    rfl
  | slash _ ih =>
    rw [List.map_cons, List.map_cons, b64Digits_cons, b64Digits_cons, ih]
    rfl
  | unpad _ ih =>
    rw [List.map_cons, b64Digits_cons, ih]
    rfl
  | insert hc _ ih =>
    rw [List.map_cons, b64Digits_cons, ih, if_pos]
    rcases hc with rfl | rfl | rfl <;> rfl

theorem insertAll (h : Respells cs ds) {piece : List Char} (hpiece : ∀ c ∈ piece, c = '=' ∨ c = '\r' ∨ c = '\n') :
    Respells cs (piece ++ ds) := by
  induction piece with
  | nil => exact h
  | cons c piece ih =>
    obtain ⟨hc, hrest⟩ := List.forall_mem_cons.mp hpiece
    exact .insert hc (ih hrest)

theorem decode {x : List UInt8} {s : String} (h : Respells (encode x).toList s.toList) : b64DecodeAny s = some x := by
  have hascii := encode_ascii x
  rw [← b64DecodeAny_encode x]
  apply b64DecodeAny_congr
  have hs := asBytes_ofList_ascii (h.ascii hascii)
  have hx := asBytes_ofList_ascii hascii
  rw [String.ofList_toList] at hs hx
  rw [hs, hx, h.digits_eq]

theorem toUrl_right (cs : List Char) : Respells cs ((cs.filter (· ≠ '=')).map toUrl) := by
  induction cs with
  | nil => exact .nil
  | cons c cs ih =>
    by_cases hpad : c = '='
    · subst hpad
      exact .unpad ih
    rw [List.filter_cons_of_pos (by simpa using hpad), List.map_cons]
    by_cases hplus : c = '+'
    · subst hplus
      exact .plus ih
    by_cases hslash : c = '/'
    · subst hslash
      exact .slash ih
    have hsame : toUrl c = c := by rw [toUrl, if_neg hplus, if_neg hslash]
    rw [hsame]
    exact .keep c ih

end Respells

theorem b64DecodeAny_encodeUrl (x : List UInt8) : b64DecodeAny (encodeUrl x) = some x := by
  apply Respells.decode
  rw [encodeUrl_eq, String.toList_ofList]
  exact Respells.toUrl_right _

/-- Both encoders are RFC 4648, and the decoder reads every respelling. -/
theorem base64_round_trip (x : List UInt8) :
    (b64urlNopad x = String.ofList (((b64Encode x).toList.filter (· ≠ '=')).map toUrl) ∧
      b64Encode x = encode x ∧ b64urlNopad x = encodeUrl x) ∧
    (∀ s : String, Respells (b64Encode x).toList s.toList → b64DecodeAny s = some x) ∧
    (∀ y, b64Encode x = b64Encode y → x = y) ∧ (∀ y, b64urlNopad x = b64urlNopad y → x = y) ∧
    (∀ token token' : Vector UInt8 32, token ≠ token' → b64urlNopad token.toList ≠ b64urlNopad token'.toList) := by
  have hinj : ∀ x y, b64urlNopad x = b64urlNopad y → x = y := by
    intro x y h
    rw [b64urlNopad_eq, b64urlNopad_eq] at h
    apply Option.some.inj
    rw [← b64DecodeAny_encodeUrl x, h, b64DecodeAny_encodeUrl y]
  refine ⟨⟨?_, b64Encode_eq x, b64urlNopad_eq x⟩, ?_, ?_, hinj x, ?_⟩
  · rw [b64urlNopad_eq, b64Encode_eq, encodeUrl_eq]
  · intro s hs
    rw [b64Encode_eq] at hs
    exact hs.decode
  · intro y h
    rw [b64Encode_eq, b64Encode_eq] at h
    apply Option.some.inj
    rw [← b64DecodeAny_encode x, h, b64DecodeAny_encode y]
  · intro token token' hne h
    exact hne (Vector.toList_inj.mp (hinj _ _ h))

/-! ## Inputs that no encoder writes -/

theorem b64Digits_of_some {s : String} {out : List UInt8} (h : b64DecodeAny s = some out) :
    ∃ vs, b64Digits (asBytes s) = some vs := by
  rw [b64DecodeAny, b64DecodeLoop_eq, Option.map_map] at h
  obtain ⟨vs, hvs, -⟩ := Option.map_eq_some_iff.mp h
  exact ⟨vs, hvs⟩

theorem forall₂_of_b64Digits {cs : List UInt8} {vs : List UInt32} (h : b64Digits cs = some vs) :
    List.Forall₂ (fun c v => b64Val c = some v) (cs.filter fun c => c ≠ 61 ∧ c ≠ 10 ∧ c ≠ 13) vs := by
  have hfilter : (fun c => decide (c ≠ 61 ∧ c ≠ 10 ∧ c ≠ 13)) = fun c => !b64Skip c := by
    funext c
    rw [Bool.eq_iff_iff]
    simp [b64Skip, and_assoc]
  rw [hfilter]
  exact mapM_eq_some_iff.mp h

theorem length_flatMap_bits (vs : List Nat) : (vs.flatMap (bits 6)).length = 6 * vs.length := by
  induction vs with
  | nil => rfl
  | cons v vs ih =>
    rw [List.flatMap_cons, List.length_append, length_bits, ih, List.length_cons]
    omega

theorem b64DecodeLoop_prefix {pre post : List UInt8} {st : B64State}
    (h : (b64DecodeLoop st (pre ++ post)).isSome = true) : ∃ st', b64DecodeLoop st pre = some st' := by
  induction pre generalizing st with
  | nil => exact ⟨st, rfl⟩
  | cons c pre ih =>
    rw [List.cons_append, b64DecodeLoop] at h
    rw [b64DecodeLoop]
    cases hskip : b64Skip c with
    | true =>
      rw [hskip] at h
      exact ih h
    | false =>
      rw [hskip] at h
      cases hval : b64Val c with
      | none =>
        rw [hval] at h
        cases h
      | some v =>
        rw [hval] at h
        exact ih h

theorem nbits_lt {pre : List UInt8} {st : B64State} (h : b64DecodeLoop ⟨0, 0, []⟩ pre = some st) :
    st.nbits.toNat < 8 := by
  rw [b64DecodeLoop_eq] at h
  obtain ⟨vs, hvs, rfl⟩ := Option.map_eq_some_iff.mp h
  exact (B64State.holds_start.foldl_push (b64Digits_lt hvs)).1

/-- The decoder on every input it accepts, and the amounts by which it shifts. -/
theorem b64DecodeAny_leading_bytes {s : String} {out : List UInt8} (h : b64DecodeAny s = some out) :
    (∃ vs : List UInt32,
      List.Forall₂ (fun c v => b64Val c = some v) ((asBytes s).filter fun c => c ≠ 61 ∧ c ≠ 10 ∧ c ≠ 13) vs ∧
      (∀ v ∈ vs, v.toNat < 64) ∧ out.length = 6 * vs.length / 8 ∧
      byteBits out = ((vs.map UInt32.toNat).flatMap (bits 6)).take (8 * (6 * vs.length / 8))) ∧
    ∀ pre post, asBytes s = pre ++ post → ∃ st, b64DecodeLoop ⟨0, 0, []⟩ pre = some st ∧ st.nbits.toNat < 8 ∧
      -- on the next character the count does not wrap, and the shift out is by less than a word
      (st.nbits + 6).toNat = st.nbits.toNat + 6 ∧ (8 ≤ st.nbits + 6 → (st.nbits + 6 - 8).toNat < 32) := by
  obtain ⟨vs, hvs⟩ := b64Digits_of_some h
  refine ⟨⟨vs, forall₂_of_b64Digits hvs, b64Digits_lt hvs, ?_⟩, ?_⟩
  · obtain ⟨out', tail, hout, htail, hbits⟩ := b64DecodeAny_bits hvs
    rw [h] at hout
    cases hout
    have hlen := congrArg List.length hbits
    rw [List.length_append, length_byteBits, length_flatMap_bits, List.length_map] at hlen
    have hcount : out.length = 6 * vs.length / 8 := by omega
    refine ⟨hcount, ?_⟩
    rw [← hbits, ← hcount, ← length_byteBits, List.take_left]
  · intro pre post hsplit
    have hsome : (b64DecodeLoop ⟨0, 0, []⟩ (pre ++ post)).isSome = true := by
      rw [← hsplit, ← Option.isSome_map, ← b64DecodeAny, h]
      rfl
    obtain ⟨st, hst⟩ := b64DecodeLoop_prefix hsome
    have hlt := nbits_lt hst
    have hsum : (st.nbits + 6).toNat = st.nbits.toNat + 6 := by
      rw [UInt32.toNat_add]
      exact Nat.mod_eq_of_lt (by simp; omega)
    refine ⟨st, hst, hlt, hsum, fun hfull => ?_⟩
    rw [UInt32.toNat_sub_of_le _ _ hfull, hsum]
    exact Nat.lt_of_le_of_lt (Nat.sub_le _ _) (by omega)

theorem b64DecodeAny_leading_bytes_noncanonical : b64DecodeAny "/=9\n-_/" = some [255, 223, 191] ∧
    ∃ vs : List UInt32,
      List.Forall₂ (fun c v => b64Val c = some v) ((asBytes "/=9\n-_/").filter fun c => c ≠ 61 ∧ c ≠ 10 ∧ c ≠ 13) vs ∧
      (∀ v ∈ vs, v.toNat < 64) ∧ 3 = 6 * vs.length / 8 ∧
      byteBits [255, 223, 191] = ((vs.map UInt32.toNat).flatMap (bits 6)).take (8 * (6 * vs.length / 8)) := by
  have hdecode : b64DecodeAny "/=9\n-_/" = some [255, 223, 191] := by decide
  exact ⟨hdecode, (b64DecodeAny_leading_bytes hdecode).1⟩

end IronInstance
