import IronInstance.Pem

/-!
# Bundles of certificates

A bundle is written with its certificates' standard base64 in any wrapping, between
gaps that do not open a block themselves. Over line ends the two splitters agree with
it and with each other; over blanks the service loses the block and the script does
not.
-/

namespace IronInstance
open Base64 Text Traverse
set_option autoImplicit false

def LineEnd (piece : List Char) : Prop := piece = ['\n'] ∨ piece = ['\r', '\n']

theorem lineEnd_lf : LineEnd ['\n'] := .inl rfl

theorem lineEnd_crlf : LineEnd ['\r', '\n'] := .inr rfl

def Blank (piece : List Char) : Prop := piece = [' '] ∨ piece = ['\t'] ∨ piece = ['\r'] ∨ piece = ['\n']

theorem blank_space : Blank [' '] := .inl rfl

theorem blank_lf : Blank ['\n'] := .inr (.inr (.inr rfl))

/-- A certificate in a bundle: the gap before it, and its base64 with pieces put in. -/
structure PemEntry (piece : List Char → Prop) where
  gap : List UInt8
  der : List UInt8
  body : List Char
  nonempty : der ≠ []
  wrapped : Inserted piece (encode der).toList body
  opens : OnlyAtEnd (pemBegin.map Char.toUInt8) gap

def pemBundle {piece : List Char → Prop} (entries : List (PemEntry piece)) (last : List UInt8) : List UInt8 :=
  enclose (pemBegin.map Char.toUInt8) (pemEnd.map Char.toUInt8)
    (entries.map fun e => (e.gap, e.body.map Char.toUInt8)) last

/-! ## Bodies -/

theorem mem_encode {x : List UInt8} {c : Char} (h : c ∈ (encode x).toList) : isSpace c = false ∧ c ≠ '-' := by
  have hall : ('=' :: alphabet).all (fun c => !isSpace c && c != '-') = true := by decide +kernel
  have hc := List.all_eq_true.mp hall c (List.mem_cons.mpr (mem_alphabet_of_encode h))
  simpa using hc

theorem length_encode (x : List UInt8) : (encode x).toList.length % 4 = 0 := by
  rw [encode, String.toList_ofList, pad, List.length_append, List.length_replicate]
  omega

theorem encode_ne_nil {x : List UInt8} (h : x ≠ []) : (encode x).toList ≠ [] := by
  intro hnil
  apply h
  have hempty : encode x = encode [] := String.toList_inj.mp hnil
  apply Option.some.inj
  rw [← b64DecodeAny_encode x, hempty, b64DecodeAny_encode]

/-- The pieces hold only what both languages call white space. -/
def Spacing (piece : List Char → Prop) : Prop :=
  ∀ cs, piece cs → ∀ c ∈ cs, c = ' ' ∨ c = '\t' ∨ c = '\r' ∨ c = '\n'

theorem spacing_lineEnd : Spacing LineEnd := by
  rintro cs (rfl | rfl) c hc <;> simp at hc ⊢ <;> tauto

theorem spacing_blank : Spacing Blank := by
  rintro cs (rfl | rfl | rfl | rfl) c hc <;> simp at hc ⊢ <;> tauto

namespace PemEntry
variable {piece : List Char → Prop} (hp : Spacing piece) (e : PemEntry piece)
include hp

theorem mem_body {c : Char} (h : c ∈ e.body) : c ≠ '-' ∧ c.toNat < 128 := by
  rcases e.wrapped.mem c h with hc | ⟨cs, hcs, hc⟩
  · exact ⟨(mem_encode hc).2, encode_ascii e.der c hc⟩
  · rcases hp cs hcs c hc with rfl | rfl | rfl | rfl <;> decide

theorem joinSplit_body : joinSplit e.body = (encode e.der).toList := by
  apply e.wrapped.filter_eq
  · intro cs hcs c hc
    rcases hp cs hcs c hc with rfl | rfl | rfl | rfl <;> decide
  · intro c hc
    rw [(mem_encode hc).1]
    rfl

theorem body_ne_nil : e.body ≠ [] := by
  intro hnil
  apply encode_ne_nil e.nonempty
  rw [← e.joinSplit_body hp, hnil]
  rfl

theorem body_ne_endLabel : e.body ≠ endLabel := by
  intro hlabel
  have hlen := length_encode e.der
  rw [← e.joinSplit_body hp, hlabel] at hlen
  exact absurd hlen (by decide)

end PemEntry

/-! ## Whole bundles -/

section Bundles
variable {piece : List Char → Prop} (hp : Spacing piece) (entries : List (PemEntry piece)) {last : List UInt8}
  (hlast : ¬ pemBegin.map Char.toUInt8 <:+: last)

/-- The blocks of a bundle as the decoded text shows them. -/
def textBlocks (bad : List Char) : List (List Char × List Char) :=
  entries.map fun e => (decodeUtf8 bad e.gap, e.body)

include hp in
theorem decodeUtf8_pemBundle (bad : List Char) : decodeUtf8 bad (pemBundle entries last) =
    enclose pemBegin pemEnd (textBlocks entries bad) (decodeUtf8 bad last) := by
  have hbodies : ∀ block ∈ entries.map (fun e => (e.gap, e.body)), ∀ c ∈ block.2, c.toNat < 128 := by
    intro block hblock c hc
    obtain ⟨e, -, rfl⟩ := List.mem_map.mp hblock
    exact (e.mem_body hp hc).2
  have hdecode := decodeUtf8_enclose bad (by decide) pemBegin_ascii pemEnd_ascii _ last hbodies
  rw [List.map_map, List.map_map] at hdecode
  exact hdecode

theorem replacement_beyond : 128 ≤ (Char.ofNat 0xfffd).toNat := by decide

include hp in
theorem textBlocks_open : ∀ block ∈ textBlocks entries [Char.ofNat 0xfffd],
    OnlyAtEnd pemBegin block.1 ∧ '-' ∉ block.2 ∧ block.2 ≠ [] ∧ block.2 ≠ endLabel := by
  intro block hblock
  obtain ⟨e, -, rfl⟩ := List.mem_map.mp hblock
  exact ⟨e.opens.decode replacement_beyond (by decide) pemBegin_ascii, fun hdash => (e.mem_body hp hdash).1 rfl,
    e.body_ne_nil hp, e.body_ne_endLabel hp⟩

include hp hlast in
theorem pckLoop_pemBundle {fuel : Nat} (hfuel : entries.length < fuel) :
    pckLoop [] fuel (decodeUtf8 [Char.ofNat 0xfffd] (pemBundle entries last)) =
      entries.filterMap fun e => blockDer e.body := by
  have hopen := textBlocks_open hp entries
  rw [decodeUtf8_pemBundle hp, pckLoop_enclose (fun block hblock => ⟨(hopen block hblock).1, (hopen block hblock).2.1⟩)
    (not_infix_decode replacement_beyond (by decide) pemBegin_ascii hlast) (by simpa [textBlocks] using hfuel),
    List.nil_append, textBlocks, List.filterMap_map]
  rfl

include hp in
theorem length_lt_text : entries.length < (decodeUtf8 [Char.ofNat 0xfffd] (pemBundle entries last)).length + 1 := by
  have hle := length_le_enclose pemBegin pemEnd (by decide) (textBlocks entries [Char.ofNat 0xfffd])
    (decodeUtf8 [Char.ofNat 0xfffd] last)
  rw [decodeUtf8_pemBundle hp]
  simp only [textBlocks, List.length_map] at hle ⊢
  omega

include hp hlast in
theorem pckChainFromQuote_pemBundle :
    pckChainFromQuote (pemBundle entries last) = entries.filterMap fun e => blockDer e.body :=
  pckLoop_pemBundle hp entries hlast (length_lt_text hp entries)

include hp hlast in
/-- The script gets every certificate of an ASCII bundle. -/
theorem derCertsFromPemBundle_pemBundle (hgaps : ∀ e ∈ entries, ∀ b ∈ e.gap, b.toNat < 128)
    (hascii : ∀ b ∈ last, b.toNat < 128) :
    derCertsFromPemBundle (pemBundle entries last) = some (entries.map fun e => encode e.der) := by
  have hblocks : textBlocks entries [] = textBlocks entries [Char.ofNat 0xfffd] :=
    List.map_congr_left fun e he => by rw [decodeUtf8_of_ascii (hgaps e he) [] [Char.ofNat 0xfffd]]
  have htext : decodeUtf8 [] (pemBundle entries last) = decodeUtf8 [Char.ofNat 0xfffd] (pemBundle entries last) := by
    rw [decodeUtf8_pemBundle hp, decodeUtf8_pemBundle hp, hblocks, decodeUtf8_of_ascii hascii [] [Char.ofNat 0xfffd]]
  have hders : ((textBlocks entries [Char.ofNat 0xfffd]).mapM fun block => b64decode (joinSplit block.2)) =
      some (entries.map PemEntry.der) := by
    rw [mapM_eq_some_iff, textBlocks, List.forall₂_map_left_iff, List.forall₂_map_right_iff, List.forall₂_same]
    intro e _
    rw [e.joinSplit_body hp, b64decode_encode]
  have hfuel : (textBlocks entries [Char.ofNat 0xfffd]).length <
      (decodeUtf8 [Char.ofNat 0xfffd] (pemBundle entries last)).length + 1 := by
    rw [textBlocks, List.length_map]
    exact length_lt_text hp entries
  have hloop := derCertsLoop_enclose (textBlocks_open hp entries)
    (not_infix_decode replacement_beyond (by decide) pemBegin_ascii hlast) hfuel [] []
  rw [List.nil_append, ← decodeUtf8_pemBundle hp, hders] at hloop
  rw [Option.map_some, List.nil_append, List.map_map] at hloop
  rw [derCertsFromPemBundle, htext]
  exact hloop

end Bundles

/-! ## Line ends -/

/-- Without a space or a tab nothing but line ends was put in. -/
theorem respells_of_inserted {piece : List Char → Prop} (hp : Spacing piece) {cs ds : List Char}
    (h : Inserted piece cs ds) (hspace : ' ' ∉ ds) (htab : '\t' ∉ ds) : Respells cs ds := by
  induction h with
  | nil => exact .nil
  | keep c _ ih =>
    exact .keep c (ih (fun hm => hspace (List.mem_cons_of_mem c hm)) (fun hm => htab (List.mem_cons_of_mem c hm)))
  | @insert put _ _ hput _ ih =>
    have hrest := ih (fun hm => hspace (List.mem_append_right _ hm)) (fun hm => htab (List.mem_append_right _ hm))
    apply hrest.insertAll
    intro c hc
    rcases hp put hput c hc with rfl | rfl | h
    · exact absurd (List.mem_append_left _ hc) hspace
    · exact absurd (List.mem_append_left _ hc) htab
    · exact .inr h

theorem PemEntry.blockDer_body {piece : List Char → Prop} (hp : Spacing piece) (e : PemEntry piece)
    (hspace : ' ' ∉ e.body) (htab : '\t' ∉ e.body) : blockDer e.body = some e.der := by
  have hspells : Respells (encode e.der).toList (String.ofList e.body).toList := by
    rw [String.toList_ofList]
    exact respells_of_inserted hp e.wrapped hspace htab
  rw [blockDer, hspells.decode, Option.filter_some, if_pos]
  simpa using e.nonempty

theorem eq_of_isSpace (e : PemEntry LineEnd) {c : Char} (hc : c ∈ e.body) (hspace : isSpace c = true) :
    c = '\r' ∨ c = '\n' := by
  rcases e.wrapped.mem c hc with hc | ⟨cs, rfl | rfl, hc⟩
  · rw [(mem_encode hc).1] at hspace
    cases hspace
  · exact .inr (List.mem_singleton.mp hc)
  · simpa using hc

theorem blockDer_lineEnds (e : PemEntry LineEnd) : blockDer e.body = some e.der :=
  e.blockDer_body spacing_lineEnd (fun hc => absurd (eq_of_isSpace e hc (by decide)) (by decide))
    (fun hc => absurd (eq_of_isSpace e hc (by decide)) (by decide))

/-- Both splitters return exactly the certificates of a bundle, in order. -/
theorem pem_splitters_exact (entries : List (PemEntry LineEnd)) {last : List UInt8}
    (hlast : ¬ pemBegin.map Char.toUInt8 <:+: last) :
    pckChainFromQuote (pemBundle entries last) = entries.map PemEntry.der ∧
    -- the loop of the service stops by itself, whatever further turns it is given
    (∀ extra, pckLoop [] ((decodeUtf8 [Char.ofNat 0xfffd] (pemBundle entries last)).length + 1 + extra)
      (decodeUtf8 [Char.ofNat 0xfffd] (pemBundle entries last)) = entries.map PemEntry.der) ∧
    ((∀ e ∈ entries, ∀ b ∈ e.gap, b.toNat < 128) → (∀ b ∈ last, b.toNat < 128) →
      derCertsFromPemBundle (pemBundle entries last) = some (entries.map fun e => encode e.der) ∧
      derCertsFromPemBundle (pemBundle entries last) =
        some ((pckChainFromQuote (pemBundle entries last)).map b64Encode)) := by
  have hders : (entries.filterMap fun e => blockDer e.body) = entries.map PemEntry.der := by
    rw [← List.filterMap_eq_map]
    exact List.filterMap_congr fun e _ => blockDer_lineEnds e
  have hchain : pckChainFromQuote (pemBundle entries last) = entries.map PemEntry.der := by
    rw [pckChainFromQuote_pemBundle spacing_lineEnd entries hlast, hders]
  refine ⟨hchain, ?_, ?_⟩
  · intro extra
    rw [pckLoop_pemBundle spacing_lineEnd entries hlast
      (Nat.lt_of_lt_of_le (length_lt_text spacing_lineEnd entries) (Nat.le_add_right _ extra)), hders]
  · intro hgaps hascii
    have hscript := derCertsFromPemBundle_pemBundle spacing_lineEnd entries hlast hgaps hascii
    refine ⟨hscript, ?_⟩
    rw [hscript, hchain, List.map_map]
    congr 1
    exact List.map_congr_left fun e _ => (b64Encode_eq e.der).symm

theorem encode_one : (encode [0x41]).toList = ['Q', 'Q', '=', '='] := by decide

theorem encode_two : (encode [0x30, 0x82]).toList = ['M', 'I', 'I', '='] := by decide

/-- A certificate after a byte that is no UTF-8, wrapped inside its padding. -/
def wrappedEntry : PemEntry LineEnd where
  gap := [0xff]
  der := [0x41]
  body := ['Q', 'Q', '=', '\r', '\n', '=']
  nonempty := by decide
  wrapped := by
    rw [encode_one]
    exact .keep 'Q' (.keep 'Q' (.keep '=' (.insert lineEnd_crlf (.keep '=' .nil))))
  opens := onlyAtEnd_of_notMem (by decide)

/-- A certificate after a line end, wrapped inside a group and at its end. -/
def foldedEntry : PemEntry LineEnd where
  gap := [0x0a]
  der := [0x30, 0x82]
  body := ['M', 'I', '\n', 'I', '=', '\n']
  nonempty := by decide
  wrapped := by
    rw [encode_two]
    exact .keep 'M' (.keep 'I' (.insert lineEnd_lf (.keep 'I' (.keep '=' (.insert lineEnd_lf .nil)))))
  opens := onlyAtEnd_of_notMem (by decide)

theorem pem_splitters_exact_folded :
    pckChainFromQuote (pemBundle [wrappedEntry, foldedEntry] [0x0a]) = [[0x41], [0x30, 0x82]] ∧
    derCertsFromPemBundle (pemBundle [foldedEntry] [0x0a]) = some [encode [0x30, 0x82]] := by
  have hlast : ¬ pemBegin.map Char.toUInt8 <:+: [0x0a] := fun h => absurd h.length_le (by decide)
  have hgap : ∀ e ∈ [foldedEntry], ∀ b ∈ e.gap, b.toNat < 128 := by simp [foldedEntry]
  exact ⟨(pem_splitters_exact [wrappedEntry, foldedEntry] hlast).1,
    ((pem_splitters_exact [foldedEntry] hlast).2.2 hgap (by simp)).1⟩

/-! ## Blanks -/

/-- A character of either alphabet, or padding. -/
def B64Char (c : Char) : Prop := c = '=' ∨ c ∈ alphabet ∨ c ∈ urlAlphabet

theorem b64Char_cases {c : Char} (h : B64Char c) :
    c.toNat < 128 ∧ (b64Skip c.toUInt8 = true ∨ ∃ v, b64Val c.toUInt8 = some v) := by
  have hall : ('=' :: alphabet ++ urlAlphabet).all (fun c => decide (c.toNat < 128) &&
      (b64Skip c.toUInt8 || (b64Val c.toUInt8).isSome)) = true := by decide +kernel
  have hmem : c ∈ '=' :: alphabet ++ urlAlphabet := by
    rcases h with rfl | h | h
    · simp
    · simp [h]
    · simp [h]
  have hc := List.all_eq_true.mp hall c hmem
  simp only [Bool.and_eq_true, decide_eq_true_eq, Bool.or_eq_true, Option.isSome_iff_exists] at hc
  exact hc

theorem b64Char_of_mem_encode {x : List UInt8} {c : Char} (h : c ∈ (encode x).toList) : B64Char c :=
  (mem_alphabet_of_encode h).imp_right .inl

theorem b64Digits_of_chars {cs : List Char} (h : ∀ c ∈ cs, B64Char c) :
    ∃ vs, b64Digits (cs.map Char.toUInt8) = some vs := by
  induction cs with
  | nil => exact ⟨[], rfl⟩
  | cons c cs ih =>
    obtain ⟨hc, hcs⟩ := List.forall_mem_cons.mp h
    obtain ⟨vs, hvs⟩ := ih hcs
    rw [List.map_cons, b64Digits_cons, hvs]
    rcases (b64Char_cases hc).2 with hskip | ⟨v, hv⟩
    · exact ⟨vs, if_pos hskip⟩
    · cases hskip : b64Skip c.toUInt8 with
      | true => exact ⟨vs, rfl⟩
      | false => exact ⟨v :: vs, by simp [hv]⟩

theorem b64Digits_eq_none {cs : List UInt8} {c : UInt8} (hc : c ∈ cs) (hskip : b64Skip c = false)
    (hval : b64Val c = none) : b64Digits cs = none := by
  rw [Option.eq_none_iff_forall_ne_some]
  intro vs hvs
  obtain ⟨v, hv⟩ := forall_of_mapM hvs c (List.mem_filter.mpr ⟨hc, by simp [hskip]⟩)
  rw [hval] at hv
  cases hv

/-- One space or tab and the whole text is refused. -/
theorem b64DecodeAny_blank {cs : List Char} (hascii : ∀ c ∈ cs, c.toNat < 128) (h : ¬ (' ' ∉ cs ∧ '\t' ∉ cs)) :
    b64DecodeAny (String.ofList cs) = none := by
  have hnone : b64Digits (cs.map Char.toUInt8) = none := by
    rw [not_and_or, not_not, not_not] at h
    rcases h with h | h
    · exact b64Digits_eq_none (List.mem_map_of_mem h) (by decide) (by decide)
    · exact b64Digits_eq_none (List.mem_map_of_mem h) (by decide) (by decide)
  rw [b64DecodeAny, b64DecodeLoop_eq, asBytes_ofList_ascii hascii, hnone]
  rfl

theorem ascii_of_blanks {cs ds : List Char} (h : Inserted Blank cs ds) (hcs : ∀ c ∈ cs, c.toNat < 128) :
    ∀ d ∈ ds, d.toNat < 128 := by
  intro d hd
  rcases h.mem d hd with hd | ⟨piece, hpiece, hd⟩
  · exact hcs d hd
  · rcases spacing_blank piece hpiece d hd with rfl | rfl | rfl | rfl <;> decide

theorem b64DecodeAny_blanks_iff {s s' : String} (hs : ∀ c ∈ s.toList, B64Char c)
    (h : Inserted Blank s.toList s'.toList) :
    b64DecodeAny s' = b64DecodeAny s ↔ ' ' ∉ s'.toList ∧ '\t' ∉ s'.toList := by
  have hascii : ∀ c ∈ s.toList, c.toNat < 128 := fun c hc => (b64Char_cases (hs c hc)).1
  have hascii' := ascii_of_blanks h hascii
  have hbytes := asBytes_ofList_ascii hascii
  have hbytes' := asBytes_ofList_ascii hascii'
  rw [String.ofList_toList] at hbytes hbytes'
  constructor
  · intro heq
    by_contra hblank
    have hnone := b64DecodeAny_blank hascii' hblank
    obtain ⟨vs, hvs⟩ := b64Digits_of_chars hs
    rw [← hbytes] at hvs
    obtain ⟨out, tail, hout, -⟩ := b64DecodeAny_bits hvs
    rw [String.ofList_toList, heq, hout] at hnone
    cases hnone
  · rintro ⟨hspace, htab⟩
    apply b64DecodeAny_congr
    rw [hbytes, hbytes', (respells_of_inserted spacing_blank h hspace htab).digits_eq]

def PemEntry.Unblanked (e : PemEntry Blank) : Prop := ' ' ∉ e.body ∧ '\t' ∉ e.body

instance (e : PemEntry Blank) : Decidable e.Unblanked := inferInstanceAs (Decidable (_ ∧ _))

theorem blockDer_blank (e : PemEntry Blank) : blockDer e.body = if e.Unblanked then some e.der else none := by
  split
  · next h => exact e.blockDer_body spacing_blank h.1 h.2
  · next h =>
    rw [blockDer, b64DecodeAny_blank (fun c hc => (e.mem_body spacing_blank hc).2) h]
    rfl

/-- The service keeps the blocks without a space or a tab and drops the others. -/
theorem pckChainFromQuote_blanks (entries : List (PemEntry Blank)) {last : List UInt8}
    (hlast : ¬ pemBegin.map Char.toUInt8 <:+: last) :
    pckChainFromQuote (pemBundle entries last) = (entries.filter fun e => e.Unblanked).map PemEntry.der := by
  rw [pckChainFromQuote_pemBundle spacing_blank entries hlast, ← List.filterMap_eq_map, List.filterMap_filter]
  apply List.filterMap_congr
  intro e _
  rw [blockDer_blank]
  simp only [decide_eq_true_eq, Function.comp_apply]

theorem pckChainFromQuote_blanks_iff (entries : List (PemEntry Blank)) {last : List UInt8}
    (hlast : ¬ pemBegin.map Char.toUInt8 <:+: last) :
    pckChainFromQuote (pemBundle entries last) = entries.map PemEntry.der ↔ ∀ e ∈ entries, e.Unblanked := by
  rw [pckChainFromQuote_pemBundle spacing_blank entries hlast, List.filterMap_eq_map_iff_forall_eq_some]
  apply forall₂_congr
  intro e _
  rw [blockDer_blank, ite_eq_left_iff]
  simp

/-- The decoder as its documentation has it, and its caller on bundles with blanks. -/
def WhitespaceIgnored : Prop :=
  (∀ s s' : String, (∀ c ∈ s.toList, B64Char c) → Inserted Blank s.toList s'.toList →
    b64DecodeAny s' = b64DecodeAny s) ∧
  ∀ (entries : List (PemEntry Blank)) (last : List UInt8), ¬ pemBegin.map Char.toUInt8 <:+: last →
    pckChainFromQuote (pemBundle entries last) = entries.map PemEntry.der

/-- White space is ignored exactly where no space and no tab is put in. -/
theorem whitespace_ignored_iff {s s' : String} (hs : ∀ c ∈ s.toList, B64Char c)
    (hput : Inserted Blank s.toList s'.toList) (entries : List (PemEntry Blank)) {last : List UInt8}
    (hlast : ¬ pemBegin.map Char.toUInt8 <:+: last) :
    (b64DecodeAny s' = b64DecodeAny s ↔ ' ' ∉ s'.toList ∧ '\t' ∉ s'.toList) ∧
    (pckChainFromQuote (pemBundle entries last) = entries.map PemEntry.der ↔ ∀ e ∈ entries, e.Unblanked) ∧
    pckChainFromQuote (pemBundle entries last) = (entries.filter fun e => e.Unblanked).map PemEntry.der ∧
    ((∀ e ∈ entries, ∀ b ∈ e.gap, b.toNat < 128) → (∀ b ∈ last, b.toNat < 128) →
      derCertsFromPemBundle (pemBundle entries last) = some (entries.map fun e => encode e.der)) :=
  ⟨b64DecodeAny_blanks_iff hs hput, pckChainFromQuote_blanks_iff entries hlast,
    pckChainFromQuote_blanks entries hlast, derCertsFromPemBundle_pemBundle spacing_blank entries hlast⟩

/-- A certificate whose only line carries a trailing blank. -/
def trailingBlank : PemEntry Blank where
  gap := []
  der := [0x41]
  body := ['Q', 'Q', '=', '=', ' ', '\n']
  nonempty := by decide
  wrapped := by
    rw [encode_one]
    exact .keep 'Q' (.keep 'Q' (.keep '=' (.keep '=' (.insert blank_space (.insert blank_lf .nil)))))
  opens := onlyAtEnd_of_notMem (by decide)

theorem encode_one_eq : encode [0x41] = "QQ==" := String.toList_inj.mp encode_one

theorem plain_chars : ∀ c ∈ "QQ==".toList, B64Char c := by
  rw [← encode_one_eq]
  exact fun c hc => b64Char_of_mem_encode hc

theorem not_pemBegin_infix_nil : ¬ pemBegin.map Char.toUInt8 <:+: [] := fun h => absurd h.length_le (by decide)

/-- Of one certificate with a trailing blank the service gets nothing and the script
gets it. -/
theorem whitespace_ignored_iff_trailing :
    b64DecodeAny "QQ==\n" = b64DecodeAny "QQ==" ∧
    pckChainFromQuote (pemBundle [trailingBlank] []) ≠ [[0x41]] ∧
    derCertsFromPemBundle (pemBundle [trailingBlank] []) = some [encode [0x41]] := by
  have hput : Inserted Blank "QQ==".toList "QQ==\n".toList :=
    .keep 'Q' (.keep 'Q' (.keep '=' (.keep '=' (.insert blank_lf .nil))))
  obtain ⟨hdecode, hchain, -, hscript⟩ :=
    whitespace_ignored_iff plain_chars hput [trailingBlank] not_pemBegin_infix_nil
  refine ⟨hdecode.mpr (by decide), ?_, hscript (by simp [trailingBlank]) (by simp)⟩
  intro heq
  exact (hchain.mp heq trailingBlank List.mem_cons_self).1 (by decide)

/-- `QQ==` is the byte `A`; with a blank after it the decoder refuses it, and the
service loses the certificate. -/
theorem not_whitespaceIgnored :
    ¬ WhitespaceIgnored ∧ b64DecodeAny "QQ==" = some [0x41] ∧ b64DecodeAny "QQ== " = none ∧
    pckChainFromQuote (pemBundle [trailingBlank] []) = [] := by
  have hplain : b64DecodeAny "QQ==" = some [0x41] := by rw [← encode_one_eq, b64DecodeAny_encode]
  have hblank : b64DecodeAny "QQ== " = none := by
    have hascii : ∀ c ∈ ['Q', 'Q', '=', '=', ' '], c.toNat < 128 := by simp
    have hspace : ¬ (' ' ∉ ['Q', 'Q', '=', '=', ' '] ∧ '\t' ∉ ['Q', 'Q', '=', '=', ' ']) := by simp
    exact b64DecodeAny_blank hascii hspace
  refine ⟨?_, hplain, hblank, ?_⟩
  · rintro ⟨hdecoder, -⟩
    have hput : Inserted Blank "QQ==".toList "QQ== ".toList :=
      .keep 'Q' (.keep 'Q' (.keep '=' (.keep '=' (.insert blank_space .nil))))
    have heq := hdecoder "QQ==" "QQ== " plain_chars hput
    rw [hplain, hblank] at heq
    cases heq
  · have hblanked : ¬ trailingBlank.Unblanked := fun h => h.1 (by decide)
    rw [pckChainFromQuote_blanks [trailingBlank] not_pemBegin_infix_nil,
      List.filter_cons_of_neg (by simpa using hblanked)]
    rfl

end IronInstance
