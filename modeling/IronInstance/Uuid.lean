import IronInstance.Codec

/-!
# SHA-1 and the UUIDv5 derivation of appAccountToken

`sha1` follows the loops of the source: byte-wise padding, an 80-word schedule
filled in place, and five registers rotated once a round. `uuid_eq` lowercases
through Unicode, which is not ASCII-only, so `char::to_lowercase` is a parameter.
-/

namespace IronInstance
set_option autoImplicit false

namespace Sha1

def rotateLeft (x r : UInt32) : UInt32 := (x <<< r) ||| (x >>> (32 - r))

def fromBeBytes (a b c d : UInt8) : UInt32 :=
  a.toUInt32 <<< 24 ||| b.toUInt32 <<< 16 ||| c.toUInt32 <<< 8 ||| d.toUInt32

def u32ToBeBytes (x : UInt32) : List UInt8 :=
  [(x >>> 24).toUInt8, (x >>> 16).toUInt8, (x >>> 8).toUInt8, x.toUInt8]

def u64ToBeBytes (x : UInt64) : List UInt8 :=
  [(x >>> 56).toUInt8, (x >>> 48).toUInt8, (x >>> 40).toUInt8, (x >>> 32).toUInt8,
    (x >>> 24).toUInt8, (x >>> 16).toUInt8, (x >>> 8).toUInt8, x.toUInt8]

/-- `while msg.len() % 64 != 56 { msg.push(0) }`, for at most `fuel` rounds. -/
def padLoop : Nat → List UInt8 → List UInt8
  | 0, msg => msg
  | fuel + 1, msg => if msg.length % 64 ≠ 56 then padLoop fuel (msg ++ [0]) else msg

def pad (data : List UInt8) : List UInt8 :=
  let bitLen : UInt64 := data.length.toUInt64 * 8
  padLoop 64 (data ++ [0x80]) ++ u64ToBeBytes bitLen

def chunksExact (n : Nat) (l : List UInt8) : List (List UInt8) :=
  (List.range (l.length / n)).map fun k => (l.drop (k * n)).take n

def firstWords (block : List UInt8) : List UInt32 :=
  (List.range 16).map fun i =>
    fromBeBytes (block.getD (i * 4) 0) (block.getD (i * 4 + 1) 0) (block.getD (i * 4 + 2) 0)
      (block.getD (i * 4 + 3) 0)

def extend (w : List UInt32) : List UInt32 :=
  let i := w.length
  w ++ [rotateLeft (w.getD (i - 3) 0 ^^^ w.getD (i - 8) 0 ^^^ w.getD (i - 14) 0 ^^^ w.getD (i - 16) 0) 1]

def schedule (block : List UInt8) : List UInt32 := Nat.repeat extend 64 (firstWords block)

structure Registers where
  a : UInt32
  b : UInt32
  c : UInt32
  d : UInt32
  e : UInt32
  deriving DecidableEq

def mix (i : Nat) (b c d : UInt32) : UInt32 × UInt32 :=
  if i ≤ 19 then ((b &&& c) ||| (~~~b &&& d), 0x5A827999)
  else if i ≤ 39 then (b ^^^ c ^^^ d, 0x6ED9EBA1)
  else if i ≤ 59 then ((b &&& c) ||| (b &&& d) ||| (c &&& d), 0x8F1BBCDC)
  else (b ^^^ c ^^^ d, 0xCA62C1D6)

def round (r : Registers) (wi : UInt32) (i : Nat) : Registers :=
  let (f, k) := mix i r.b r.c r.d
  let tmp := rotateLeft r.a 5 + f + r.e + k + wi
  { a := tmp, b := r.a, c := rotateLeft r.b 30, d := r.c, e := r.d }

def compress (h : Registers) (block : List UInt8) : Registers :=
  let r := (schedule block).zipIdx.foldl (fun r (wi, i) => round r wi i) h
  ⟨h.a + r.a, h.b + r.b, h.c + r.c, h.d + r.d, h.e + r.e⟩

def initial : Registers := ⟨0x67452301, 0xEFCDAB89, 0x98BADCFE, 0x10325476, 0xC3D2E1F0⟩

end Sha1

def sha1 (data : List UInt8) : List UInt8 :=
  let h := (Sha1.chunksExact 64 (Sha1.pad data)).foldl Sha1.compress Sha1.initial
  [h.a, h.b, h.c, h.d, h.e].flatMap Sha1.u32ToBeBytes

/-- The 16 bytes of the UUID: version 5, RFC 4122 variant. -/
def uuidV5Bytes (namespaceBytes : Vector UInt8 16) (name : List UInt8) : List UInt8 :=
  let b := (sha1 (namespaceBytes.toList ++ name)).take 16
  let b := b.set 6 ((b.getD 6 0 &&& 0x0f) ||| 0x50)
  b.set 8 ((b.getD 8 0 &&& 0x3f) ||| 0x80)

def uuidV5 (namespaceBytes : Vector UInt8 16) (name : List UInt8) : String :=
  let h := hexEncodeChars (uuidV5Bytes namespaceBytes name)
  String.ofList (h.take 8 ++ '-' :: (h.drop 8).take 4 ++ '-' :: (h.drop 12).take 4 ++
    '-' :: (h.drop 16).take 4 ++ '-' :: (h.drop 20).take 12)

/-- The closure `norm` of `uuid_eq`. -/
def uuidNorm (toLowercase : Char → List Char) (s : String) : List Char :=
  (s.toList.filter fun c => c ≠ '-').flatMap toLowercase

def uuidEq (toLowercase : Char → List Char) (a b : String) : Bool :=
  uuidNorm toLowercase a == uuidNorm toLowercase b

end IronInstance
