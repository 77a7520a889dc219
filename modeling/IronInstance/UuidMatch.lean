import IronInstance.Hex
import IronInstance.Uuid
import IronInstance.Library.Text

/-!
# Which account tokens match a UUIDv5

`uuid_eq` drops hyphens and lowercases both sides. Against a derived UUID it accepts
exactly the 32 hex digits of its sixteen bytes, whatever else the other string holds:
no character outside the hex digits lowercases into them.
-/

namespace IronInstance
set_option autoImplicit false

def IsHexChar (c : Char) : Prop := c ∈ "0123456789abcdefABCDEF".toList

/-- What is used of `char::to_lowercase`. -/
structure LowercaseLaws (toLowercase : Char → List Char) : Prop where
  ascii : ∀ c, c.toNat < 128 → toLowercase c = [c.toLower]
  nonempty : ∀ c, toLowercase c ≠ []
  nonAscii : ∀ c, 128 ≤ c.toNat → toLowercase c ≠ [] → ∃ d ∈ toLowercase c, ¬ IsHexChar d

/-! ## ASCII characters -/

theorem forall_ascii {p : Char → Prop} (h : ∀ n < 128, p (Char.ofNat n)) (c : Char) (hc : c.toNat < 128) : p c := by
  have hn := h c.toNat hc
  rwa [Char.ofNat_toNat] at hn

instance (c : Char) : Decidable (IsHexChar c) := inferInstanceAs (Decidable (c ∈ _))

theorem toLower_ascii (c : Char) (hc : c.toNat < 128) :
    toAsciiLowercase c.toUInt8 = c.toLower.toUInt8 ∧ c.toLower.toNat < 128 ∧ (IsHexChar c.toLower → IsHexChar c) := by
  revert c
  exact forall_ascii (by decide +kernel)

theorem isHexChar_ascii {c : Char} (h : IsHexChar c) : c.toNat < 128 := by
  have hall : "0123456789abcdefABCDEF".toList.all (fun c => c.toNat < 128) = true := by decide
  exact of_decide_eq_true (List.all_eq_true.mp hall c h)

theorem hexDigit_lower {n : UInt8} (hn : n < 16) :
    IsHexChar (hexDigit n) ∧ (hexDigit n).toLower = hexDigit n ∧ hexDigit n ≠ '-' := by
  have hall : ∀ m < 16, IsHexChar (hexDigit (UInt8.ofNat m)) ∧
      (hexDigit (UInt8.ofNat m)).toLower = hexDigit (UInt8.ofNat m) ∧ hexDigit (UInt8.ofNat m) ≠ '-' := by
    decide +kernel
  simpa using hall n.toNat hn

theorem mem_hexEncodeChars {b : List UInt8} {c : Char} (h : c ∈ hexEncodeChars b) :
    IsHexChar c ∧ c.toLower = c ∧ c ≠ '-' := by
  simp only [hexEncodeChars, List.mem_flatMap, List.mem_cons, List.not_mem_nil, or_false] at h
  obtain ⟨x, -, rfl | rfl⟩ := h
  · exact hexDigit_lower (nibbles_lt x).1
  · exact hexDigit_lower (nibbles_lt x).2

/-! ## The derived UUID -/

/-- Byte `i` of the UUID: the digest's, but for the version in byte 6 and the variant in
byte 8. -/
def uuidByte (digest : List UInt8) (i : Nat) : UInt8 :=
  if i = 6 then 0x50 + digest.getD 6 0 % 16 else if i = 8 then 0x80 + digest.getD 8 0 % 64 else digest.getD i 0

theorem length_sha1 (data : List UInt8) : (sha1 data).length = 20 := rfl

theorem versionBits (x : UInt8) : x &&& 0x0f ||| 0x50 = 0x50 + x % 16 ∧ x &&& 0x3f ||| 0x80 = 0x80 + x % 64 := by
  revert x
  exact forall_byte (by decide +kernel)

theorem uuidV5Bytes_eq (namespaceBytes : Vector UInt8 16) (name : List UInt8) :
    uuidV5Bytes namespaceBytes name = (List.range 16).map (uuidByte (sha1 (namespaceBytes.toList ++ name))) := by
  have hlen := length_sha1 (namespaceBytes.toList ++ name)
  unfold uuidV5Bytes
  generalize sha1 (namespaceBytes.toList ++ name) = d at hlen
  have hget : ∀ i, i < 16 → (d.take 16).getD i 0 = d.getD i 0 := by
    intro i hi
    rw [List.getD_eq_getElem?_getD, List.getD_eq_getElem?_getD, List.getElem?_take_of_lt hi]
  apply List.ext_getElem
  · simp [hlen]
  · intro i hi _
    have hi : i < 16 := by simpa [hlen] using hi
    have hd : d.getD i 0 = d[i] := by
      rw [List.getD_eq_getElem?_getD, List.getElem?_eq_getElem (by omega), Option.getD_some]
    simp only [List.getElem_set, List.getElem_map, List.getElem_range, List.getElem_take, uuidByte, hget 6 (by decide),
      (versionBits _).1]
    by_cases h8 : i = 8
    · subst h8
      rw [if_pos rfl, if_neg (by decide), if_pos rfl, ← (versionBits _).2]
      simp [hlen]
    · rw [if_neg (Ne.symm h8), if_neg h8, hd]
      by_cases h6 : i = 6
      · rw [if_pos h6.symm, if_pos h6]
      · rw [if_neg (Ne.symm h6), if_neg h6]

theorem length_hexEncodeChars (b : List UInt8) : (hexEncodeChars b).length = 2 * b.length := by
  induction b with
  | nil => rfl
  | cons x b ih =>
    rw [hexEncodeChars, List.flatMap_cons, List.length_append, ← hexEncodeChars, ih, List.length_cons]
    simp only [List.length_cons, List.length_nil]
    omega

theorem filter_hyphenated {h : List Char} (hlen : h.length = 32) (hno : ∀ c ∈ h, c ≠ '-') :
    (h.take 8 ++ '-' :: (h.drop 8).take 4 ++ '-' :: (h.drop 12).take 4 ++ '-' :: (h.drop 16).take 4 ++
      '-' :: (h.drop 20).take 12).filter (fun c => c ≠ '-') = h := by
  have hkeep : ∀ {l : List Char}, (∀ c ∈ l, c ∈ h) → l.filter (fun c => c ≠ '-') = l := by
    intro l hl
    rw [List.filter_eq_self]
    intro c hc
    simpa using hno c (hl c hc)
  have hhyphen : ∀ l : List Char, ('-' :: l).filter (fun c => c ≠ '-') = l.filter (fun c => c ≠ '-') :=
    fun l => List.filter_cons_of_neg (by decide)
  rw [List.filter_append, List.filter_append, List.filter_append, List.filter_append, hhyphen, hhyphen, hhyphen, hhyphen,
    hkeep fun c hc => List.mem_of_mem_take hc, hkeep fun c hc => List.mem_of_mem_drop (List.mem_of_mem_take hc),
    hkeep fun c hc => List.mem_of_mem_drop (List.mem_of_mem_take hc),
    hkeep fun c hc => List.mem_of_mem_drop (List.mem_of_mem_take hc),
    hkeep fun c hc => List.mem_of_mem_drop (List.mem_of_mem_take hc)]
  rw [← List.take_add, ← List.take_add, ← List.take_add, ← List.take_add]
  exact List.take_of_length_le (Nat.le_of_eq hlen)

section Norm
variable {toLowercase : Char → List Char} (hlower : LowercaseLaws toLowercase)
include hlower

theorem flatMap_toLowercase_ascii {cs : List Char} (h : ∀ c ∈ cs, IsHexChar c) :
    cs.flatMap toLowercase = cs.map Char.toLower := by
  induction cs with
  | nil => rfl
  | cons c cs ih =>
    obtain ⟨hc, hcs⟩ := List.forall_mem_cons.mp h
    rw [List.flatMap_cons, hlower.ascii c (isHexChar_ascii hc), ih hcs]
    rfl

theorem uuidNorm_uuidV5 (namespaceBytes : Vector UInt8 16) (name : List UInt8) :
    uuidNorm toLowercase (uuidV5 namespaceBytes name) = hexEncodeChars (uuidV5Bytes namespaceBytes name) := by
  have hlen : (hexEncodeChars (uuidV5Bytes namespaceBytes name)).length = 32 := by
    rw [length_hexEncodeChars, uuidV5Bytes_eq]
    rfl
  rw [uuidNorm, uuidV5, String.toList_ofList, filter_hyphenated hlen fun c hc => (mem_hexEncodeChars hc).2.2,
    flatMap_toLowercase_ascii hlower fun c hc => (mem_hexEncodeChars hc).1]
  exact (List.map_congr_left fun c hc => (mem_hexEncodeChars hc).2.1).trans (List.map_id _)

/-- Lowercasing reaches hex digits from hex digits only. -/
theorem isHexChar_of_toLowercase {c : Char} (h : ∀ d ∈ toLowercase c, IsHexChar d) : IsHexChar c := by
  rcases Nat.lt_or_ge c.toNat 128 with hc | hc
  · rw [hlower.ascii c hc] at h
    exact (toLower_ascii c hc).2.2 (h _ (List.mem_singleton.mpr rfl))
  · obtain ⟨d, hd, hno⟩ := hlower.nonAscii c hc (hlower.nonempty c)
    exact absurd (h d hd) hno

theorem flatMap_toLowercase_eq_iff {cs : List Char} {b : List UInt8} :
    cs.flatMap toLowercase = hexEncodeChars b ↔ (∀ c ∈ cs, IsHexChar c) ∧ cs.map Char.toLower = hexEncodeChars b := by
  constructor
  · intro h
    have hhex : ∀ c ∈ cs, IsHexChar c := by
      intro c hc
      apply isHexChar_of_toLowercase hlower
      intro d hd
      apply And.left
      apply mem_hexEncodeChars (b := b)
      rw [← h]
      exact List.mem_flatMap.mpr ⟨c, hc, hd⟩
    exact ⟨hhex, by rw [← flatMap_toLowercase_ascii hlower hhex, h]⟩
  · rintro ⟨hhex, h⟩
    rw [flatMap_toLowercase_ascii hlower hhex, h]

end Norm

theorem map_toAsciiLowercase {cs : List Char} (hcs : ∀ c ∈ cs, IsHexChar c) :
    (asBytes (String.ofList cs)).map toAsciiLowercase = (cs.map Char.toLower).map Char.toUInt8 := by
  rw [asBytes_ofList_ascii fun c hc => isHexChar_ascii (hcs c hc), List.map_map, List.map_map]
  exact List.map_congr_left fun c hc => (toLower_ascii c (isHexChar_ascii (hcs c hc))).1

theorem hexDecode_iff_toLower {cs : List Char} (hcs : ∀ c ∈ cs, IsHexChar c) (b : List UInt8) :
    hexDecode (String.ofList cs) = some b ↔ cs.map Char.toLower = hexEncodeChars b := by
  have hlower : (hexEncodeChars b).map Char.toLower = hexEncodeChars b :=
    (List.map_congr_left fun c hc => (mem_hexEncodeChars hc).2.1).trans (List.map_id _)
  rw [hexDecode_eq_some_iff, eqIgnoreAsciiCase, beq_iff_eq, hexEncode, map_toAsciiLowercase hcs,
    map_toAsciiLowercase fun c hc => (mem_hexEncodeChars hc).1, hlower]
  refine ⟨fun h => Text.map_toUInt8_inj ?_ ?_ h, fun h => by rw [h]⟩
  · intro c hc
    obtain ⟨d, hd, rfl⟩ := List.mem_map.mp hc
    exact (toLower_ascii d (isHexChar_ascii (hcs d hd))).2.1
  · intro c hc
    exact isHexChar_ascii (mem_hexEncodeChars hc).1

/-- The account token check accepts the spellings of one sixteen-byte value. -/
theorem uuidEq_uuidV5_iff {toLowercase : Char → List Char} (hlower : LowercaseLaws toLowercase)
    (namespaceBytes : Vector UInt8 16) (name : List UInt8) (got : String) :
    uuidEq toLowercase (uuidV5 namespaceBytes name) got = true ↔
      (got.toList.filter (· ≠ '-')).length = 32 ∧ (∀ c ∈ got.toList.filter (· ≠ '-'), IsHexChar c) ∧
      hexDecode (String.ofList (got.toList.filter (· ≠ '-'))) =
        some ((List.range 16).map (uuidByte (sha1 (namespaceBytes.toList ++ name)))) := by
  rw [uuidEq, beq_iff_eq, uuidNorm_uuidV5 hlower, uuidNorm, eq_comm, flatMap_toLowercase_eq_iff hlower, ← uuidV5Bytes_eq]
  constructor
  · rintro ⟨hhex, h⟩
    refine ⟨?_, hhex, (hexDecode_iff_toLower hhex _).mpr h⟩
    rw [← List.length_map Char.toLower, h, length_hexEncodeChars, uuidV5Bytes_eq]
    rfl
  · rintro ⟨-, hhex, h⟩
    exact ⟨hhex, (hexDecode_iff_toLower hhex _).mp h⟩

theorem lowercaseLaws_toLower : LowercaseLaws fun c => [c.toLower] where
  ascii c _ := rfl
  nonempty c := List.cons_ne_nil _ _
  nonAscii c hc _ := by
    have hupper : ¬ (c.val ≥ 'A'.val ∧ c.val ≤ 'Z'.val) := by
      rintro ⟨-, hle⟩
      exact absurd (UInt32.le_iff_toNat_le.mp hle) (Nat.not_le.mpr (Nat.lt_of_lt_of_le (by decide) hc))
    have hsame : c.toLower = c := dif_neg hupper
    refine ⟨c, by simp [hsame], fun hhex => ?_⟩
    exact absurd (isHexChar_ascii hhex) (Nat.not_lt.mpr hc)

theorem uuidEq_uuidV5_iff_golden :
    uuidEq (fun c => [c.toLower])
      (uuidV5 #v[0xda, 0xfb, 0x6e, 0x23, 0x9c, 0x4d, 0x5d, 0x27, 0xaa, 0x05, 0x3f, 0x6c, 0x2e, 0x9e, 0x7b, 0x14]
        (asBytes "test-sub-000")) "0DD14662-856C-5F35-9AE5-34CEA39F5D13" = true := by
  refine (uuidEq_uuidV5_iff lowercaseLaws_toLower _ _ _).mpr ⟨by decide +kernel, ?_, by decide +kernel⟩
  have hall : ("0DD14662-856C-5F35-9AE5-34CEA39F5D13".toList.filter (· ≠ '-')).all (fun c => decide (IsHexChar c)) =
      true := by decide +kernel
  simpa only [List.all_eq_true, decide_eq_true_eq] using hall

end IronInstance
