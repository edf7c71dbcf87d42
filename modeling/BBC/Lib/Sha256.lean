/-
# `Sha256` — the hash function of FIPS 180-4, executable

Words are naturals below `2^32`, which the kernel evaluates with machine
arithmetic, so that the digest of a short message can be computed inside a proof.
-/
import Mathlib.Data.Vector.Basic

namespace Sha256

/-- The round constants. -/
def roundConstants : List Nat := [
  0x428a2f98, 0x71374491, 0xb5c0fbcf, 0xe9b5dba5, 0x3956c25b, 0x59f111f1, 0x923f82a4, 0xab1c5ed5,
  0xd807aa98, 0x12835b01, 0x243185be, 0x550c7dc3, 0x72be5d74, 0x80deb1fe, 0x9bdc06a7, 0xc19bf174,
  0xe49b69c1, 0xefbe4786, 0x0fc19dc6, 0x240ca1cc, 0x2de92c6f, 0x4a7484aa, 0x5cb0a9dc, 0x76f988da,
  0x983e5152, 0xa831c66d, 0xb00327c8, 0xbf597fc7, 0xc6e00bf3, 0xd5a79147, 0x06ca6351, 0x14292967,
  0x27b70a85, 0x2e1b2138, 0x4d2c6dfc, 0x53380d13, 0x650a7354, 0x766a0abb, 0x81c2c92e, 0x92722c85,
  0xa2bfe8a1, 0xa81a664b, 0xc24b8b70, 0xc76c51a3, 0xd192e819, 0xd6990624, 0xf40e3585, 0x106aa070,
  0x19a4c116, 0x1e376c08, 0x2748774c, 0x34b0bcb5, 0x391c0cb3, 0x4ed8aa4a, 0x5b9cca4f, 0x682e6ff3,
  0x748f82ee, 0x78a5636f, 0x84c87814, 0x8cc70208, 0x90befffa, 0xa4506ceb, 0xbef9a3f7, 0xc67178f2]

/-! ## Words -/

def add (x y : Nat) : Nat := (x + y) % 4294967296

def rotateRight (x n : Nat) : Nat := (x >>> n) ||| ((x <<< (32 - n)) % 4294967296)

def complement (x : Nat) : Nat := 4294967295 - x

/-- The eight working words. -/
structure State where
  a : Nat
  b : Nat
  c : Nat
  d : Nat
  e : Nat
  f : Nat
  g : Nat
  h : Nat

def initial : State :=
  ⟨0x6a09e667, 0xbb67ae85, 0x3c6ef372, 0xa54ff53a, 0x510e527f, 0x9b05688c, 0x1f83d9ab, 0x5be0cd19⟩

/-! ## The compression function -/

def round (s : State) (constant word : Nat) : State :=
  let s1 := rotateRight s.e 6 ^^^ rotateRight s.e 11 ^^^ rotateRight s.e 25
  let choice := (s.e &&& s.f) ^^^ (complement s.e &&& s.g)
  let t1 := (s.h + s1 + choice + constant + word) % 4294967296
  let s0 := rotateRight s.a 2 ^^^ rotateRight s.a 13 ^^^ rotateRight s.a 22
  let majority := (s.a &&& s.b) ^^^ (s.a &&& s.c) ^^^ (s.b &&& s.c)
  let t2 := (s0 + majority) % 4294967296
  ⟨add t1 t2, s.a, s.b, s.c, add s.d t1, s.e, s.f, s.g⟩

/-- The rounds, with the message schedule as a window of sixteen words. -/
def rounds : List Nat → List Nat → State → State
  | constant :: constants, [w0, w1, w2, w3, w4, w5, w6, w7, w8, w9, w10, w11, w12, w13, w14, w15],
      s =>
      let g0 := rotateRight w1 7 ^^^ rotateRight w1 18 ^^^ (w1 >>> 3)
      let g1 := rotateRight w14 17 ^^^ rotateRight w14 19 ^^^ (w14 >>> 10)
      let w16 := (g1 + w9 + g0 + w0) % 4294967296
      rounds constants [w1, w2, w3, w4, w5, w6, w7, w8, w9, w10, w11, w12, w13, w14, w15, w16]
        (round s constant w0)
  | _, _, s => s

def compress (s : State) (window : List Nat) : State :=
  let r := rounds roundConstants window s
  ⟨add s.a r.a, add s.b r.b, add s.c r.c, add s.d r.d, add s.e r.e, add s.f r.f, add s.g r.g,
    add s.h r.h⟩

/-! ## Messages -/

/-- The padded message: a one bit, zeros, and the bit length in eight bytes. -/
def pad (message : List UInt8) : List UInt8 :=
  message ++ (0x80 :: List.replicate ((119 - message.length % 64) % 64) (0 : UInt8)) ++
    (List.range 8).map fun i => UInt8.ofNat ((message.length * 8) >>> (8 * (7 - i)))

/-- Big-endian words. -/
def words : List UInt8 → List Nat
  | a :: b :: c :: d :: rest =>
      (a.toNat * 16777216 + b.toNat * 65536 + c.toNat * 256 + d.toNat) :: words rest
  | _ => []

def wordBytes (x : Nat) : List UInt8 :=
  [UInt8.ofNat (x >>> 24), UInt8.ofNat (x >>> 16), UInt8.ofNat (x >>> 8), UInt8.ofNat x]

/-- The message, sixteen words at a time; its own length is fuel enough. -/
def absorb : Nat → List Nat → State → State
  | 0, _, s => s
  | _ + 1, [], s => s
  | fuel + 1, ws, s => absorb fuel (ws.drop 16) (compress s (ws.take 16))

def finish (s : State) : List UInt8 :=
  [s.a, s.b, s.c, s.d, s.e, s.f, s.g, s.h].flatMap wordBytes

/-- The digest. -/
def digest (message : List UInt8) : List UInt8 :=
  let ws := words (pad message)
  finish (absorb ws.length ws initial)

@[simp] theorem length_digest (message : List UInt8) : (digest message).length = 32 := rfl

/-- The test vector of the standard for the message `abc`. -/
example : digest [0x61, 0x62, 0x63] =
    [0xba, 0x78, 0x16, 0xbf, 0x8f, 0x01, 0xcf, 0xea, 0x41, 0x41, 0x40, 0xde, 0x5d, 0xae, 0x22, 0x23,
     0xb0, 0x03, 0x61, 0xa3, 0x96, 0x17, 0x7a, 0x9c, 0xb4, 0x10, 0xff, 0x61, 0xf2,
     0x00, 0x15, 0xad] := by
  decide +kernel

end Sha256
