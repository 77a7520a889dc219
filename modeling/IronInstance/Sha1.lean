import IronInstance.Uuid
import IronInstance.Library.Sha1

/-!
# The crate's SHA-1 and FIPS 180-4

The source pads byte by byte, fills an array of 80 words and rotates five registers in
place, with or-forms of the round functions. Each of these is the standard's own
definition read through `byteBits`: the loop stops after the least number of zeros,
the array holds the schedule, and the registers after `t` rounds are the standard's
working variables.
-/

namespace IronInstance
open Base64
set_option autoImplicit false

namespace Sha1

/-! ## Words -/

theorem toBitVec_rotateLeft (x r : UInt32) (hpos : 0 < r.toNat) (hr : r.toNat < 32) :
    (rotateLeft x r).toBitVec = x.toBitVec.rotateLeft r.toNat := by
  have hle : r ≤ 32 := UInt32.le_iff_toNat_le.mpr (Nat.le_of_lt hr)
  have hsub : (32 - r).toNat = 32 - r.toNat := UInt32.toNat_sub_of_le _ _ hle
  have hlt : 32 - r.toNat < 32 := by omega
  apply BitVec.eq_of_toNat_eq
  rw [BitVec.rotateLeft_def, Nat.mod_eq_of_lt hr]
  simp only [rotateLeft, UInt32.toNat_toBitVec, UInt32.toNat_or, UInt32.toNat_shiftLeft, UInt32.toNat_shiftRight,
    BitVec.toNat_or, BitVec.toNat_shiftLeft, BitVec.toNat_ushiftRight, hsub, Nat.mod_eq_of_lt hr, Nat.mod_eq_of_lt hlt]

theorem toBitVec_mix (t : Nat) (b c d : UInt32) :
    (mix t b c d).1.toBitVec = Fips180.f t b.toBitVec c.toBitVec d.toBitVec ∧
      (mix t b c d).2.toBitVec = Fips180.K t := by
  unfold mix Fips180.f Fips180.K
  split
  · exact ⟨(Fips180.ch_eq_or _ _ _).symm, rfl⟩
  · split
    · exact ⟨rfl, rfl⟩
    · split
      · exact ⟨(Fips180.maj_eq_or _ _ _).symm, rfl⟩
      · exact ⟨rfl, rfl⟩

theorem bits_fromBeBytes (a b c d : UInt8) : bits 32 (fromBeBytes a b c d).toNat = byteBits [a, b, c, d] := by
  have hword : (fromBeBytes a b c d).toNat = ((a.toNat <<< 8 ||| b.toNat) <<< 8 ||| c.toNat) <<< 8 ||| d.toNat := by
    have ha : a.toNat <<< 24 < 4294967296 := by
      have := a.toNat_lt
      rw [Nat.shiftLeft_eq]
      omega
    have hb : b.toNat <<< 16 < 4294967296 := by
      have := b.toNat_lt
      rw [Nat.shiftLeft_eq]
      omega
    have hc : c.toNat <<< 8 < 4294967296 := by
      have := c.toNat_lt
      rw [Nat.shiftLeft_eq]
      omega
    simp [fromBeBytes, UInt32.toNat_or, UInt32.toNat_shiftLeft, Nat.mod_eq_of_lt ha, Nat.mod_eq_of_lt hb,
      Nat.mod_eq_of_lt hc, Nat.shiftLeft_or_distrib, ← Nat.shiftLeft_add]
  rw [hword, bits_push 24 8 _ d.toNat_lt, bits_push 16 8 _ c.toNat_lt, bits_push 8 8 _ b.toNat_lt]
  simp

theorem bits_mod_byte (n : Nat) : bits 8 (n % 256) = bits 8 n := bits_mod 8 n

theorem byteBits_u32ToBeBytes (x : UInt32) : byteBits (u32ToBeBytes x) = bits 32 x.toNat := by
  rw [bits_add 24 8, bits_add 16 8, bits_add 8 8]
  simp [u32ToBeBytes, UInt32.toNat_shiftRight, bits_mod_byte, ← Nat.shiftRight_add]

theorem byteBits_u64ToBeBytes (x : UInt64) : byteBits (u64ToBeBytes x) = bits 64 x.toNat := by
  rw [bits_add 56 8, bits_add 48 8, bits_add 40 8, bits_add 32 8, bits_add 24 8, bits_add 16 8, bits_add 8 8]
  simp [u64ToBeBytes, UInt64.toNat_shiftRight, bits_mod_byte, ← Nat.shiftRight_add]

/-! ## The schedule -/

theorem take_four {l : List UInt8} {n : Nat} (h : n + 3 < l.length) :
    (l.drop n).take 4 = [l.getD n 0, l.getD (n + 1) 0, l.getD (n + 2) 0, l.getD (n + 3) 0] := by
  have hget : ∀ i, i < 4 → (l.drop n)[i]? = some (l.getD (n + i) 0) := by
    intro i hi
    have hlt : n + i < l.length := by omega
    rw [List.getElem?_drop, List.getD_eq_getElem?_getD, List.getElem?_eq_getElem hlt, Option.getD_some]
  rw [List.take_add_one, List.take_add_one, List.take_add_one, List.take_add_one, List.take_zero, hget 0 (by decide),
    hget 1 (by decide), hget 2 (by decide), hget 3 (by decide)]
  rfl

theorem toBitVec_firstWord {block : List UInt8} (hlen : block.length = 64) {t : Nat} (ht : t < 16) :
    (fromBeBytes (block.getD (t * 4) 0) (block.getD (t * 4 + 1) 0) (block.getD (t * 4 + 2) 0)
      (block.getD (t * 4 + 3) 0)).toBitVec = Fips180.word (byteBits block) t := by
  have hbits : ((byteBits block).drop (32 * t)).take 32 = bits 32 (fromBeBytes (block.getD (t * 4) 0)
      (block.getD (t * 4 + 1) 0) (block.getD (t * 4 + 2) 0) (block.getD (t * 4 + 3) 0)).toNat := by
    have hpos : 32 * t = 8 * (t * 4) := by omega
    rw [bits_fromBeBytes, hpos, drop_byteBits, take_byteBits _ 4, take_four (by omega)]
  rw [Fips180.word, hbits, value_bits]
  apply BitVec.eq_of_toNat_eq
  simp

/-- The first `n` words of the standard's schedule for the block. -/
def scheduleWords (block : List UInt8) (n : Nat) : List UInt32 :=
  (List.range n).map fun t => UInt32.ofBitVec (Fips180.W (byteBits block) t)

theorem scheduleWords_getD (block : List UInt8) {n t : Nat} (ht : t < n) :
    ((scheduleWords block n).getD t 0).toBitVec = Fips180.W (byteBits block) t := by
  rw [scheduleWords, List.getD_eq_getElem?_getD, List.getElem?_map, List.getElem?_range ht]
  rfl

theorem scheduleWords_succ (block : List UInt8) (n : Nat) : scheduleWords block (n + 1) =
    scheduleWords block n ++ [UInt32.ofBitVec (Fips180.W (byteBits block) n)] := by
  simp [scheduleWords, List.range_succ]

theorem firstWords_eq {block : List UInt8} (hlen : block.length = 64) : firstWords block = scheduleWords block 16 := by
  refine List.map_congr_left fun t ht => ?_
  rw [List.mem_range] at ht
  rw [← UInt32.toBitVec_inj, toBitVec_firstWord hlen ht, UInt32.toBitVec_ofBitVec, Fips180.W_of_lt ht]

theorem extend_scheduleWords (block : List UInt8) {n : Nat} (hn : 16 ≤ n) :
    extend (scheduleWords block n) = scheduleWords block (n + 1) := by
  have hlen : (scheduleWords block n).length = n := by simp [scheduleWords]
  rw [extend, hlen, scheduleWords_succ]
  congr 2
  rw [← UInt32.toBitVec_inj, toBitVec_rotateLeft _ 1 (by decide) (by decide), UInt32.toBitVec_ofBitVec,
    Fips180.W_of_le hn]
  simp only [UInt32.toBitVec_xor]
  rw [scheduleWords_getD block (by omega), scheduleWords_getD block (by omega), scheduleWords_getD block (by omega),
    scheduleWords_getD block (by omega)]
  rfl

theorem schedule_eq {block : List UInt8} (hlen : block.length = 64) : schedule block = scheduleWords block 80 := by
  have hall : ∀ n, Nat.repeat extend n (firstWords block) = scheduleWords block (16 + n) := by
    intro n
    induction n with
    | zero => exact firstWords_eq hlen
    | succ n ih => rw [Nat.repeat, ih, extend_scheduleWords block (Nat.le_add_right 16 n), Nat.add_assoc]
  exact hall 64

/-! ## The rounds -/

def Registers.toVariables (r : Registers) : Fips180.Variables :=
  ⟨r.a.toBitVec, r.b.toBitVec, r.c.toBitVec, r.d.toBitVec, r.e.toBitVec⟩

theorem round_toVariables (r : Registers) (block : List Bool) (h : Fips180.Variables) (t : Nat)
    (hr : r.toVariables = Fips180.rounds block h t) :
    (round r (UInt32.ofBitVec (Fips180.W block t)) t).toVariables = Fips180.rounds block h (t + 1) := by
  obtain ⟨hf, hk⟩ := toBitVec_mix t r.b r.c r.d
  rw [Fips180.rounds, ← hr]
  simp only [round, Registers.toVariables, UInt32.toBitVec_add, hf, hk,
    toBitVec_rotateLeft _ 5 (by decide) (by decide), toBitVec_rotateLeft _ 30 (by decide) (by decide)]
  rfl

theorem rounds_eq (block : List UInt8) (h : Registers) (n : Nat) :
    ((scheduleWords block n).zipIdx.foldl (fun r (wi, i) => round r wi i) h).toVariables =
      Fips180.rounds (byteBits block) h.toVariables n := by
  induction n with
  | zero => rfl
  | succ n ih =>
    have hlen : (scheduleWords block n).length = n := by simp [scheduleWords]
    rw [scheduleWords_succ, List.zipIdx_append, List.foldl_append, hlen, Nat.zero_add]
    exact round_toVariables _ _ _ n ih

theorem compress_eq {block : List UInt8} (hlen : block.length = 64) (h : Registers) :
    (compress h block).toVariables = Fips180.next h.toVariables (byteBits block) := by
  have hrounds := rounds_eq block h 80
  rw [← schedule_eq hlen] at hrounds
  rw [Fips180.next, ← hrounds]
  simp only [compress, Registers.toVariables, UInt32.toBitVec_add, BitVec.add_comm]

/-! ## Padding and parsing -/

/-- How many zero bytes bring `n` bytes to 56 modulo 64. -/
def padding (n : Nat) : Nat := (120 - n % 64) % 64

theorem padLoop_eq {fuel : Nat} : ∀ {msg : List UInt8}, padding msg.length ≤ fuel →
    padLoop fuel msg = msg ++ List.replicate (padding msg.length) 0 := by
  induction fuel with
  | zero =>
    intro msg h
    rw [Nat.le_zero.mp h, padLoop, List.replicate_zero, List.append_nil]
  | succ fuel ih =>
    intro msg h
    rw [padLoop]
    by_cases hfull : msg.length % 64 = 56
    · have hzero : padding msg.length = 0 := by simp [padding, hfull]
      rw [if_neg (by simpa using hfull), hzero, List.replicate_zero, List.append_nil]
    · have hnext : padding msg.length = padding (msg ++ [0]).length + 1 := by
        simp only [padding, List.length_append, List.length_singleton]
        omega
      rw [if_pos hfull, ih (by omega), hnext, List.replicate_succ, List.append_assoc]
      rfl

theorem padding_le (n : Nat) : padding n ≤ 64 := Nat.le_of_lt (Nat.mod_lt _ (by decide))

theorem byteBits_replicate_zero (n : Nat) : byteBits (List.replicate n 0) = List.replicate (8 * n) false := by
  induction n with
  | zero => rfl
  | succ n ih =>
    rw [List.replicate_succ, byteBits_cons, ih, Nat.mul_succ, Nat.add_comm, List.replicate_add]
    rfl

section Pad
variable (data : List UInt8)

theorem pad_eq : pad data = data ++ [0x80] ++ List.replicate (padding (data.length + 1)) 0 ++
    u64ToBeBytes (data.length.toUInt64 * 8) := by
  have hlen : (data ++ [0x80]).length = data.length + 1 := by simp
  rw [pad, padLoop_eq (by rw [hlen]; exact padding_le _), hlen]

theorem length_pad : (pad data).length = data.length + 1 + padding (data.length + 1) + 8 := by
  rw [pad_eq]
  simp only [u64ToBeBytes, List.length_append, List.length_replicate, List.length_cons, List.length_nil]

theorem length_pad_mod : (pad data).length % 64 = 0 := by
  rw [length_pad, padding]
  omega

variable {data}

theorem toNat_bitLen (h : data.length < 2 ^ 61) : (data.length.toUInt64 * 8).toNat = data.length * 8 := by
  rw [UInt64.toNat_mul, Nat.toUInt64_eq, UInt64.toNat_ofNat_of_lt' (by
    show data.length < 2 ^ 64
    omega)]
  exact Nat.mod_eq_of_lt (by
    show data.length * 8 < 2 ^ 64
    omega)

theorem byteBits_pad (h : data.length < 2 ^ 61) : byteBits (pad data) = Fips180.pad (byteBits data) := by
  have hzeros : Fips180.zeros (byteBits data).length = 7 + 8 * padding (data.length + 1) := by
    rw [length_byteBits]
    apply Fips180.zeros_eq
    · simp only [padding]
      omega
    · simp only [padding]
      omega
  have hone : bits 8 (0x80 : UInt8).toNat = [true] ++ List.replicate 7 false := rfl
  rw [pad_eq, Fips180.pad, hzeros, List.replicate_add, length_byteBits, byteBits_append, byteBits_append, byteBits_append,
    byteBits_replicate_zero, byteBits_u64ToBeBytes, toNat_bitLen h, Nat.mul_comm data.length, byteBits_cons, byteBits_nil,
    List.append_nil, hone]
  simp

end Pad

theorem length_of_mem_chunksExact {l chunk : List UInt8} (h : chunk ∈ chunksExact 64 l) : chunk.length = 64 := by
  obtain ⟨k, hk, rfl⟩ := List.mem_map.mp h
  rw [List.mem_range] at hk
  rw [List.length_take, List.length_drop]
  omega

/-- `chunks_exact` of a whole number of chunks leaves no remainder. -/
theorem flatten_chunksExact {l : List UInt8} (h : l.length % 64 = 0) : (chunksExact 64 l).flatten = l := by
  have hall : ∀ n, n * 64 ≤ l.length →
      ((List.range n).map fun k => (l.drop (k * 64)).take 64).flatten = l.take (n * 64) := by
    intro n
    induction n with
    | zero => simp
    | succ n ih =>
      intro hn
      rw [List.range_succ, List.map_append, List.flatten_append, ih (by omega), Nat.succ_mul, List.take_add]
      simp
  rw [chunksExact, hall _ (Nat.div_mul_le_self _ _), Nat.div_mul_cancel (Nat.dvd_of_mod_eq_zero h), List.take_length]

theorem map_byteBits_chunksExact (l : List UInt8) :
    (chunksExact 64 l).map byteBits = Fips180.blocks (byteBits l) := by
  have hcount : (byteBits l).length / 512 = l.length / 64 := by
    rw [length_byteBits]
    omega
  rw [chunksExact, Fips180.blocks, hcount, List.map_map]
  refine List.map_congr_left fun k _ => ?_
  have hpos : 512 * k = 8 * (k * 64) := by omega
  rw [hpos, drop_byteBits]
  exact (take_byteBits _ 64).symm

theorem foldl_compress (chunks : List (List UInt8)) (h : Registers) (hlen : ∀ chunk ∈ chunks, chunk.length = 64) :
    (chunks.foldl compress h).toVariables = (chunks.map byteBits).foldl Fips180.next h.toVariables := by
  induction chunks generalizing h with
  | nil => rfl
  | cons chunk chunks ih =>
    obtain ⟨hchunk, hrest⟩ := List.forall_mem_cons.mp hlen
    rw [List.foldl_cons, List.map_cons, List.foldl_cons, ← compress_eq hchunk, ih _ hrest]

end Sha1

theorem byteBits_digest (h : Sha1.Registers) :
    byteBits ([h.a, h.b, h.c, h.d, h.e].flatMap Sha1.u32ToBeBytes) = Fips180.digest h.toVariables := by
  simp [Fips180.digest, Sha1.Registers.toVariables, Sha1.byteBits_u32ToBeBytes]

/-- The digest is the standard's, and no step of the computation loses a byte or a bit. -/
theorem sha1_is_fips_180 {data : List UInt8} (h : data.length < 2 ^ 61) :
    byteBits (sha1 data) = Fips180.sha1 (byteBits data) ∧
    -- the padding loop stops by its own condition, whatever further rounds it is given
    (∀ fuel, Sha1.padLoop (64 + fuel) (data ++ [0x80]) = Sha1.padLoop 64 (data ++ [0x80])) ∧
    (Sha1.padLoop 64 (data ++ [0x80])).length % 64 = 56 ∧
    0 < (Sha1.pad data).length ∧ (Sha1.pad data).length % 64 = 0 ∧
    (Sha1.chunksExact 64 (Sha1.pad data)).flatten = Sha1.pad data ∧
    (data.length.toUInt64 * 8).toNat = data.length * 8 := by
  have hpad : ∀ fuel, Sha1.padLoop (64 + fuel) (data ++ [0x80]) =
      data ++ [0x80] ++ List.replicate (Sha1.padding (data ++ [0x80]).length) 0 := by
    intro fuel
    exact Sha1.padLoop_eq ((Sha1.padding_le _).trans (Nat.le_add_right 64 fuel))
  refine ⟨?_, fun fuel => by rw [hpad, ← hpad 0], ?_, ?_, Sha1.length_pad_mod data,
    Sha1.flatten_chunksExact (Sha1.length_pad_mod data), Sha1.toNat_bitLen h⟩
  · rw [sha1, byteBits_digest, Sha1.foldl_compress _ _ fun _ => Sha1.length_of_mem_chunksExact,
      Sha1.map_byteBits_chunksExact, Sha1.byteBits_pad h]
    rfl
  · rw [← Nat.add_zero 64, hpad 0]
    simp only [List.length_append, List.length_singleton, List.length_replicate, Sha1.padding]
    omega
  · rw [Sha1.length_pad]
    omega

theorem sha1_is_fips_180_abc : ([0x61, 0x62, 0x63] : List UInt8).length < 2 ^ 61 ∧
    byteBits (sha1 [0x61, 0x62, 0x63]) = Fips180.sha1 (byteBits [0x61, 0x62, 0x63]) :=
  ⟨by decide, (sha1_is_fips_180 (by decide)).1⟩

example : sha1 (asBytes "abc") = [0xa9, 0x99, 0x3e, 0x36, 0x47, 0x06, 0x81, 0x6a, 0xba, 0x3e, 0x25, 0x71, 0x78, 0x50,
    0xc2, 0x6c, 0x9c, 0xd0, 0xd8, 0x9d] := by decide +kernel

end IronInstance
