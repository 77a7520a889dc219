import Mathlib.Data.List.Basic

/-!
# Hex and base64 helpers of the crate root

The hand-written codecs of `lib.rs` and the padded encoder of `attestation.rs`,
on byte lists. A string is read through its UTF-8 bytes, as `as_bytes` does, and
the accumulator of the base64 decoder is a 32-bit word that is never masked.
-/

namespace IronInstance
set_option autoImplicit false

/-- `str::as_bytes`. -/
def asBytes (s : String) : List UInt8 := s.toByteArray.data.toList

def toAsciiLowercase (c : UInt8) : UInt8 := if 65 ≤ c ∧ c ≤ 90 then c + 32 else c

def eqIgnoreAsciiCase (a b : String) : Bool :=
  (asBytes a).map toAsciiLowercase == (asBytes b).map toAsciiLowercase

/-! ## Hex -/

def hexTable : List Char := "0123456789abcdef".toList

def hexDigit (n : UInt8) : Char := hexTable.getD n.toNat '0'

def hexEncodeChars (bytes : List UInt8) : List Char :=
  bytes.flatMap fun (b : UInt8) => [hexDigit (b >>> 4), hexDigit (b &&& 0x0f)]

def hexEncode (bytes : List UInt8) : String := String.ofList (hexEncodeChars bytes)

/-- The closure `val` of `hex_decode`. -/
def hexVal (c : UInt8) : Option UInt8 :=
  if 48 ≤ c ∧ c ≤ 57 then some (c - 48)
  else if 97 ≤ c ∧ c ≤ 102 then some (c - 97 + 10)
  else if 65 ≤ c ∧ c ≤ 70 then some (c - 65 + 10)
  else none

inductive Indexed (α : Type) where
  | outOfBounds
  | value (a : α)
  deriving DecidableEq

/-- The `while i < b.len()` loop; it reads `b[i]` and `b[i + 1]`. -/
def hexDecodeLoop (out : List UInt8) : List UInt8 → Indexed (Option (List UInt8))
  | [] => .value (some out)
  | [c] =>
    match hexVal c with
    | none => .value none
    | some _ => .outOfBounds
  | c :: d :: rest =>
    match hexVal c, hexVal d with
    | some hi, some lo => hexDecodeLoop (out ++ [(hi <<< 4) ||| lo]) rest
    | _, _ => .value none

def hexDecodeIndexed (s : String) : Indexed (Option (List UInt8)) :=
  if (asBytes s).length % 2 ≠ 0 then .value none else hexDecodeLoop [] (asBytes s)

def hexDecode (s : String) : Option (List UInt8) :=
  match hexDecodeIndexed s with
  | .outOfBounds => none
  | .value r => r

/-! ## Base64 -/

def b64urlTable : List Char :=
  "ABCDEFGHIJKLMNOPQRSTUVWXYZabcdefghijklmnopqrstuvwxyz0123456789-_".toList

def b64Table : List Char :=
  "ABCDEFGHIJKLMNOPQRSTUVWXYZabcdefghijklmnopqrstuvwxyz0123456789+/".toList

def sextetChar (table : List Char) (n shift : UInt32) : Char :=
  table.getD (n >>> shift &&& 63).toNat 'A'

/-- `chunks_exact(3)`, then the remainder. -/
def b64urlNopadChars : List UInt8 → List Char
  | [] => []
  | [a] =>
    let n := a.toUInt32 <<< 16
    [sextetChar b64urlTable n 18, sextetChar b64urlTable n 12]
  | [a, b] =>
    let n := a.toUInt32 <<< 16 ||| b.toUInt32 <<< 8
    [sextetChar b64urlTable n 18, sextetChar b64urlTable n 12, sextetChar b64urlTable n 6]
  | a :: b :: c :: rest =>
    let n := a.toUInt32 <<< 16 ||| b.toUInt32 <<< 8 ||| c.toUInt32
    [sextetChar b64urlTable n 18, sextetChar b64urlTable n 12, sextetChar b64urlTable n 6,
      sextetChar b64urlTable n 0] ++ b64urlNopadChars rest

def b64urlNopad (bytes : List UInt8) : String := String.ofList (b64urlNopadChars bytes)

/-- One chunk of `chunks(3)`: missing bytes count as zero, missing characters are `=`. -/
def b64EncodeChunk (a : UInt8) (b c : Option UInt8) : List Char :=
  let n := a.toUInt32 <<< 16 ||| (b.getD 0).toUInt32 <<< 8 ||| (c.getD 0).toUInt32
  [sextetChar b64Table n 18, sextetChar b64Table n 12,
    if b.isSome then sextetChar b64Table n 6 else '=',
    if c.isSome then sextetChar b64Table n 0 else '=']

def b64EncodeChars : List UInt8 → List Char
  | [] => []
  | [a] => b64EncodeChunk a none none
  | [a, b] => b64EncodeChunk a (some b) none
  | a :: b :: c :: rest => b64EncodeChunk a (some b) (some c) ++ b64EncodeChars rest

def b64Encode (bytes : List UInt8) : String := String.ofList (b64EncodeChars bytes)

/-- The closure `val` of `b64_decode_any`. -/
def b64Val (c : UInt8) : Option UInt32 :=
  if 65 ≤ c ∧ c ≤ 90 then some (c - 65).toUInt32
  else if 97 ≤ c ∧ c ≤ 122 then some (c - 97 + 26).toUInt32
  else if 48 ≤ c ∧ c ≤ 57 then some (c - 48 + 52).toUInt32
  else if c = 43 ∨ c = 45 then some 62
  else if c = 47 ∨ c = 95 then some 63
  else none

def b64Skip (c : UInt8) : Bool := c == 61 || c == 10 || c == 13

structure B64State where
  acc : UInt32
  nbits : UInt32
  out : List UInt8
  deriving DecidableEq

def B64State.push (st : B64State) (v : UInt32) : B64State :=
  let acc := (st.acc <<< 6) ||| v
  let nbits := st.nbits + 6
  if 8 ≤ nbits then
    { acc := acc, nbits := nbits - 8, out := st.out ++ [(acc >>> (nbits - 8)).toUInt8] }
  else { acc := acc, nbits := nbits, out := st.out }

def b64DecodeLoop (st : B64State) : List UInt8 → Option B64State
  | [] => some st
  | c :: rest =>
    if b64Skip c then b64DecodeLoop st rest
    else
      match b64Val c with
      | none => none
      | some v => b64DecodeLoop (st.push v) rest

def b64DecodeAny (s : String) : Option (List UInt8) :=
  (b64DecodeLoop ⟨0, 0, []⟩ (asBytes s)).map fun st => st.out

end IronInstance
