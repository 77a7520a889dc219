import IronInstance.Base64Forms
import IronInstance.GpuReport
import IronInstance.Library.Blocks

/-!
# The two PEM splitters

`pck_chain_from_quote` searches the lossy text of a binary quote and looks for an END
marker after the BEGIN marker; `der_certs_from_pem_bundle` looks for it from the start
of the BEGIN marker. On well-formed bundles both cut out exactly the bodies. They
differ in what they decode: the service skips padding and line ends only, the script
skips whatever Python takes for a space.
-/

namespace IronInstance
open Base64 Text Traverse
set_option autoImplicit false

/-! ## The markers -/

theorem pemBegin_ascii : ∀ c ∈ pemBegin, c.toNat < 128 := by
  have hall : pemBegin.all (fun c => c.toNat < 128) = true := by decide
  simpa using hall

theorem pemEnd_ascii : ∀ c ∈ pemEnd, c.toNat < 128 := by
  have hall : pemEnd.all (fun c => c.toNat < 128) = true := by decide
  simpa using hall

theorem onlyAtEnd_pemEnd {body : List Char} (h : '-' ∉ body) : OnlyAtEnd pemEnd body := onlyAtEnd_of_notMem h

/-- The text of the END marker between its dashes. -/
def endLabel : List Char := "END CERTIFICATE".toList

/-- Searched for from the BEGIN marker on, the END marker is still first found after the
body: reaching over from the dashes of BEGIN it would spell the body. -/
theorem onlyAtEnd_pemEnd_from_begin {body : List Char} (h : '-' ∉ body) (hne : body ≠ []) (hlabel : body ≠ endLabel) :
    OnlyAtEnd pemEnd (pemBegin ++ body) := by
  refine (onlyAtEnd_pemEnd h).append ?_
  intro k hk ⟨r, hr⟩
  have hat : ∀ i < pemEnd.length, (pemBegin ++ body ++ pemEnd)[k + i]? = pemEnd[i]? := by
    intro i hi
    rw [← List.getElem?_drop, ← hr, List.getElem?_append_left hi]
  -- inside BEGIN a character differs, before its last dashes or right after them
  have htable : ∀ k < 22, ∃ i < pemEnd.length, k + i < pemBegin.length ∧ pemBegin[k + i]? ≠ pemEnd[i]? := by decide
  have hdashes : ∀ k < 27, 22 < k → pemEnd[27 - k]? = some '-' ∧ 27 - k < pemEnd.length := by decide
  rcases Nat.lt_trichotomy k 22 with hlt | rfl | hgt
  · obtain ⟨i, hi, hin, hdiff⟩ := htable k hlt
    apply hdiff
    rw [← hat i hi, List.append_assoc, List.getElem?_append_left hin]
  · have hlabelled : pemEnd = "-----".toList ++ (endLabel ++ '-' :: "----".toList) := by decide
    have htext : (pemBegin ++ body ++ pemEnd).drop 22 = "-----".toList ++ (body ++ '-' :: pemEnd.tail) := rfl
    rw [htext, hlabelled, List.append_assoc, List.append_cancel_left_eq, List.append_assoc, List.cons_append] at hr
    exact hlabel (eq_of_append_cons hr.symm h (by decide))
  · obtain ⟨hdash, hin⟩ := hdashes k hk hgt
    have hfirst : k + (27 - k) = pemBegin.length := Nat.add_sub_of_le (Nat.le_of_lt hk)
    have hnext := hat (27 - k) hin
    rw [hdash, hfirst, List.append_assoc, List.getElem?_append_right (Nat.le_refl _), Nat.sub_self] at hnext
    cases body with
    | nil => exact hne rfl
    | cons c body =>
      cases hnext
      exact h List.mem_cons_self

/-! ## The service -/

/-- What the service makes of one body. -/
def blockDer (body : List Char) : Option (List UInt8) :=
  (b64DecodeAny (String.ofList body)).filter fun der => !der.isEmpty

theorem pckLoop_enclose {blocks : List (List Char × List Char)} {last : List Char}
    (hblocks : ∀ block ∈ blocks, OnlyAtEnd pemBegin block.1 ∧ '-' ∉ block.2) (hlast : ¬ pemBegin <:+: last)
    {fuel : Nat} (hfuel : blocks.length < fuel) (out : List (List UInt8)) :
    pckLoop out fuel (enclose pemBegin pemEnd blocks last) = out ++ blocks.filterMap fun block => blockDer block.2 := by
  induction blocks generalizing fuel out with
  | nil =>
    cases fuel with
    | zero => exact absurd hfuel (Nat.lt_irrefl 0)
    | succ fuel =>
      rw [enclose, pckLoop, find_eq_none hlast, List.filterMap_nil, List.append_nil]
  | cons block blocks ih =>
    obtain ⟨gap, body⟩ := block
    obtain ⟨⟨hgap, hbody⟩, hrest⟩ := List.forall_mem_cons.mp hblocks
    cases fuel with
    | zero => exact absurd hfuel (Nat.not_lt_zero _)
    | succ fuel =>
      have hcut : (gap ++ pemBegin ++ (body ++ pemEnd ++ enclose pemBegin pemEnd blocks last)).drop
          (gap.length + pemBegin.length) = body ++ pemEnd ++ enclose pemBegin pemEnd blocks last := by
        rw [← List.length_append, List.drop_left]
      have hnext : (body ++ pemEnd ++ enclose pemBegin pemEnd blocks last).drop (body.length + pemEnd.length) =
          enclose pemBegin pemEnd blocks last := by
        rw [← List.length_append, List.drop_left]
      have htake : (body ++ pemEnd ++ enclose pemBegin pemEnd blocks last).take body.length = body := by
        rw [List.append_assoc, List.take_left]
      rw [enclose, pckLoop, find_append (by decide) hgap]
      simp only [hcut, find_append (show pemEnd ≠ [] by decide) (onlyAtEnd_pemEnd hbody), hnext, htake]
      rw [ih hrest (Nat.lt_of_succ_lt_succ hfuel), List.filterMap_cons, blockDer]
      cases b64DecodeAny (String.ofList body) with
      | none => rfl
      | some der =>
        cases der with
        | nil => rfl
        | cons b der => exact List.append_assoc _ _ _

example : pckChainFromQuote ([0, 1] ++ asBytes "prefix-----BEGIN CERTIFICATE-----\nQQ==\n-----END CERTIFICATE-----\n") =
    [[0x41]] := by decide +kernel

/-! ## The script -/

/-- Where the script finds the two markers of the next block, and what it cuts out. -/
theorem script_cut {gap body : List Char} (hgap : OnlyAtEnd pemBegin gap) (hbody : '-' ∉ body) (hne : body ≠ [])
    (hlabel : body ≠ endLabel) (pre rest : List Char) :
    findFrom pemBegin (pre ++ (gap ++ pemBegin ++ (body ++ pemEnd ++ rest))) pre.length = some (pre ++ gap).length ∧
    findFrom pemEnd (pre ++ (gap ++ pemBegin ++ (body ++ pemEnd ++ rest))) (pre ++ gap).length =
      some (pre ++ gap ++ pemBegin ++ body).length ∧
    slice (pre ++ (gap ++ pemBegin ++ (body ++ pemEnd ++ rest))) ((pre ++ gap).length + pemBegin.length)
      (pre ++ gap ++ pemBegin ++ body).length = body := by
  refine ⟨?_, ?_, ?_⟩
  · rw [findFrom_append, find_append (by decide) hgap, List.length_append, Nat.add_comm pre.length]
    rfl
  · have htext : pre ++ (gap ++ pemBegin ++ (body ++ pemEnd ++ rest)) =
        pre ++ gap ++ (pemBegin ++ body ++ pemEnd ++ rest) := by
      simp only [List.append_assoc]
    rw [htext, findFrom_append, find_append (by decide) (onlyAtEnd_pemEnd_from_begin hbody hne hlabel)]
    simp only [Option.map_some, List.length_append]
    congr 1
    omega
  · have htext : pre ++ (gap ++ pemBegin ++ (body ++ pemEnd ++ rest)) =
        pre ++ gap ++ pemBegin ++ body ++ (pemEnd ++ rest) := by
      simp only [List.append_assoc]
    rw [htext, ← List.length_append, slice_append]

theorem derCertsLoop_enclose {blocks : List (List Char × List Char)} {last : List Char}
    (hblocks : ∀ block ∈ blocks, OnlyAtEnd pemBegin block.1 ∧ '-' ∉ block.2 ∧ block.2 ≠ [] ∧ block.2 ≠ endLabel)
    (hlast : ¬ pemBegin <:+: last) {fuel : Nat} (hfuel : blocks.length < fuel) (pre : List Char) (out : List String) :
    derCertsLoop (pre ++ enclose pemBegin pemEnd blocks last) out fuel pre.length =
      (blocks.mapM fun block => b64decode (joinSplit block.2)).map fun ders => out ++ ders.map encode := by
  induction blocks generalizing fuel pre out with
  | nil =>
    cases fuel with
    | zero => exact absurd hfuel (Nat.lt_irrefl 0)
    | succ fuel =>
      rw [enclose, derCertsLoop, findFrom_append, find_eq_none hlast]
      simp
  | cons block blocks ih =>
    obtain ⟨gap, body⟩ := block
    obtain ⟨⟨hgap, hbody, hne, hlabel⟩, hrest⟩ := List.forall_mem_cons.mp hblocks
    cases fuel with
    | zero => exact absurd hfuel (Nat.not_lt_zero _)
    | succ fuel =>
      obtain ⟨hbegin, hend, hslice⟩ := script_cut hgap hbody hne hlabel pre (enclose pemBegin pemEnd blocks last)
      rw [enclose, derCertsLoop, hbegin]
      simp only [hend, hslice, List.mapM_cons]
      cases b64decode (joinSplit body) with
      | none => rfl
      | some der =>
        have hnext := ih hrest (Nat.lt_of_succ_lt_succ hfuel) (pre ++ gap ++ pemBegin ++ body ++ pemEnd)
          (out ++ [encode der])
        have hlen : (pre ++ gap ++ pemBegin ++ body ++ pemEnd).length =
            (pre ++ gap ++ pemBegin ++ body).length + pemEnd.length := List.length_append
        rw [hlen] at hnext
        simp only [List.append_assoc] at hnext ⊢
        simp only [hnext]
        cases blocks.mapM fun block => b64decode (joinSplit block.2) with
        | none => rfl
        | some ders => simp

/-! ## Python's decoder -/

/-- How many bits of `leftchar` are pending at a position of the quad. -/
def pendingBits : Nat → Nat
  | 0 => 0
  | 1 => 6
  | 2 => 4
  | _ => 2

theorem pendingBits_lt (q : Nat) : pendingBits q < 8 := by
  unfold pendingBits
  split <;> decide

/-- What the state of `a2b_base64` holds after the values `vs`. -/
structure A2bState.Holds (st : A2bState) (vs : List Nat) : Prop where
  quadPos : st.quadPos = vs.length % 4
  pads : st.pads = 0
  leftchar : st.leftchar.toNat < 2 ^ pendingBits st.quadPos
  bits : byteBits st.out ++ bits (pendingBits st.quadPos) st.leftchar.toNat = vs.flatMap (bits 6)

/-- A byte made of `a` pending bits and the first `b` of the next value leaves `k`. -/
theorem byteBits_joined (out : List UInt8) {a b k : Nat} {left v mask : UInt8} (hbyte : a + b = 8)
    (hleft : left.toNat < 2 ^ a) (hv : v.toNat < 2 ^ (b + k)) (hb : b < 8) (hk : k < 8)
    (hmask : mask.toNat = 2 ^ k - 1) :
    byteBits (out ++ [left <<< UInt8.ofNat b ||| v >>> UInt8.ofNat k]) ++ bits k (v &&& mask).toNat =
      byteBits out ++ (bits a left.toNat ++ bits (b + k) v.toNat) := by
  have hmod : ∀ n, n < 8 → (UInt8.ofNat n).toNat % 8 = n := by
    intro n hn
    rw [UInt8.toNat_ofNat_of_lt' (Nat.lt_trans hn (by decide)), Nat.mod_eq_of_lt hn]
  have hhigh : v.toNat >>> k < 2 ^ b := by
    rw [Nat.shiftRight_eq_div_pow, Nat.div_lt_iff_lt_mul (Nat.two_pow_pos k), ← Nat.pow_add]
    exact hv
  have hfit : left.toNat <<< b < 2 ^ 8 := by
    rw [Nat.shiftLeft_eq, ← hbyte, Nat.pow_add]
    exact Nat.mul_lt_mul_of_pos_right hleft (Nat.two_pow_pos b)
  have hjoin : bits 8 (left <<< UInt8.ofNat b ||| v >>> UInt8.ofNat k).toNat =
      bits a left.toNat ++ bits b (v.toNat >>> k) := by
    rw [UInt8.toNat_or, UInt8.toNat_shiftLeft, UInt8.toNat_shiftRight, hmod b hb, hmod k hk, Nat.mod_eq_of_lt hfit,
      ← hbyte, bits_push a b _ hhigh]
  have hlow : bits k (v &&& mask).toNat = bits k v.toNat := by
    rw [UInt8.toNat_and, hmask, Nat.and_two_pow_sub_one_eq_mod, bits_mod]
  rw [byteBits_append, byteBits_cons, byteBits_nil, List.append_nil, hjoin, hlow, bits_add b k]
  simp only [List.append_assoc]

theorem toNat_and_lt {v mask : UInt8} {k : Nat} (h : mask.toNat < 2 ^ k) : (v &&& mask).toNat < 2 ^ k := by
  rw [UInt8.toNat_and]
  exact Nat.lt_of_le_of_lt Nat.and_le_right h

theorem A2bState.Holds.push {st : A2bState} {vs : List Nat} (h : st.Holds vs) {v : UInt8} (hv : v.toNat < 64) :
    (st.push v).Holds (vs ++ [v.toNat]) := by
  obtain ⟨q, left, pads, out⟩ := st
  have hq : q = vs.length % 4 := h.quadPos
  have hleft : left.toNat < 2 ^ pendingBits q := h.leftchar
  have hlt : q < 4 := hq ▸ Nat.mod_lt _ (by decide)
  have hlen : ∀ r, (q + 1) % 4 = r → r = (vs ++ [v.toNat]).length % 4 := by
    intro r hr
    rw [List.length_append, List.length_singleton, ← hr, hq]
    omega
  have hall : (vs ++ [v.toNat]).flatMap (Base64.bits 6) =
      byteBits out ++ (Base64.bits (pendingBits q) left.toNat ++ Base64.bits 6 v.toNat) := by
    rw [List.flatMap_append, ← h.bits]
    simp
  match q, hlt with
  | 0, _ => exact ⟨hlen 1 rfl, rfl, hv, hall.symm⟩
  | 1, _ =>
    refine ⟨hlen 2 rfl, rfl, toNat_and_lt (k := 4) (by decide), ?_⟩
    rw [hall]
    exact byteBits_joined out (a := 6) (b := 2) (k := 4) rfl hleft hv (by decide) (by decide) (by decide)
  | 2, _ =>
    refine ⟨hlen 3 rfl, rfl, toNat_and_lt (k := 2) (by decide), ?_⟩
    rw [hall]
    exact byteBits_joined out (a := 4) (b := 4) (k := 2) rfl hleft hv (by decide) (by decide) (by decide)
  | 3, _ =>
    have hjoin : byteBits (out ++ [left <<< UInt8.ofNat 6 ||| v >>> UInt8.ofNat 0]) ++ Base64.bits 0 (v &&& 0).toNat =
        byteBits out ++ (Base64.bits 2 left.toNat ++ Base64.bits 6 v.toNat) :=
      byteBits_joined out rfl hleft hv (by decide) (by decide) (by decide)
    refine ⟨hlen 0 rfl, rfl, Nat.one_pos, ?_⟩
    rw [hall]
    refine Eq.trans ?_ hjoin
    simp [A2bState.push, pendingBits, Base64.bits]

theorem a2bTable_digit {v : Nat} (hv : v < 64) : digit v ≠ '=' ∧ a2bTable (digit v).toNat = some (UInt8.ofNat v) := by
  have hall : ∀ v < 64, digit v ≠ '=' ∧ a2bTable (digit v).toNat = some (UInt8.ofNat v) := by decide +kernel
  exact hall v hv

theorem a2bLoop_digits {ws : List Nat} (hws : ∀ w ∈ ws, w < 64) (rest : List Char) :
    ∀ {st : A2bState} {vs : List Nat}, st.Holds vs →
      ∃ st', a2bLoop st (ws.map digit ++ rest) = a2bLoop st' rest ∧ st'.Holds (vs ++ ws) := by
  induction ws with
  | nil =>
    intro st vs h
    exact ⟨st, rfl, by rwa [List.append_nil]⟩
  | cons w ws ih =>
    intro st vs h
    obtain ⟨hw, hws⟩ := List.forall_mem_cons.mp hws
    obtain ⟨hpad, hval⟩ := a2bTable_digit hw
    have hnat : (UInt8.ofNat w).toNat = w := UInt8.toNat_ofNat_of_lt' (Nat.lt_trans hw (by decide))
    obtain ⟨st', hloop, hst'⟩ := ih hws (h.push (v := UInt8.ofNat w) (by rwa [hnat]))
    refine ⟨st', ?_, ?_⟩
    · rw [← hloop, List.map_cons, List.cons_append, a2bLoop, if_neg hpad, hval]
    · rwa [hnat, List.append_assoc] at hst'

theorem length_sextets (x : List UInt8) : (sextets x).length % 4 ≠ 1 := by
  have hlen := congrArg List.length (flatMap_sextets x)
  rw [length_flatMap_bits, List.length_append, List.length_replicate, length_byteBits, fill] at hlen
  omega

theorem a2bLoop_pad {st : A2bState} {vs : List Nat} (h : st.Holds vs) (hvs : vs.length % 4 ≠ 1) :
    a2bLoop st (List.replicate ((4 - vs.length % 4) % 4) '=') = some st.out := by
  obtain ⟨q, left, pads, out⟩ := st
  have hq : q = vs.length % 4 := h.quadPos
  have hpads : pads = 0 := h.pads
  have hlt : q < 4 := hq ▸ Nat.mod_lt _ (by decide)
  rw [← hq] at hvs ⊢
  subst hpads
  match q, hlt, hvs with
  | 0, _, _ => rfl
  | 2, _, _ => rfl
  | 3, _, _ => rfl

theorem b64decode_encode (x : List UInt8) : b64decode (encode x).toList = some x := by
  have hascii : ((encode x).toList.all fun c => c.toNat < 128) = true := by
    rw [List.all_eq_true]
    intro c hc
    exact decide_eq_true (encode_ascii x c hc)
  have hstart : A2bState.Holds ⟨0, 0, 0, []⟩ [] := ⟨rfl, rfl, Nat.one_pos, rfl⟩
  obtain ⟨st, hloop, hst⟩ := a2bLoop_digits (sextets_lt x)
    (List.replicate ((4 - (sextets x).length % 4) % 4) '=') hstart
  rw [List.nil_append] at hst
  have hbits := hst.bits
  rw [flatMap_sextets] at hbits
  have hpending : (bits (pendingBits st.quadPos) st.leftchar.toNat).length < 8 := by
    rw [length_bits]
    exact pendingBits_lt _
  have hfill : (List.replicate (fill (byteBits x).length) false).length < 8 := by
    rw [List.length_replicate, fill]
    omega
  rw [b64decode, if_pos hascii, encode, String.toList_ofList, pad, List.length_map, hloop,
    a2bLoop_pad hst (length_sextets x), byteBits_append_inj hbits hpending hfill]

end IronInstance
