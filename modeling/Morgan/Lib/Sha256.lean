import Mathlib

/-!
# SHA-256

The hash of FIPS 180-4 over a list of bytes.  The message is padded to whole 64-byte blocks with
a one bit, zeros and its length in bits; each block is expanded to a schedule of sixty-four words
and compressed into the eight-word state; the digest is the final state's words, big-endian.
-/

namespace Sha256

/-- The round constants `K`. -/
def roundConstants : List UInt32 :=
  [0x428a2f98, 0x71374491, 0xb5c0fbcf, 0xe9b5dba5, 0x3956c25b, 0x59f111f1, 0x923f82a4, 0xab1c5ed5,
   0xd807aa98, 0x12835b01, 0x243185be, 0x550c7dc3, 0x72be5d74, 0x80deb1fe, 0x9bdc06a7, 0xc19bf174,
   0xe49b69c1, 0xefbe4786, 0x0fc19dc6, 0x240ca1cc, 0x2de92c6f, 0x4a7484aa, 0x5cb0a9dc, 0x76f988da,
   0x983e5152, 0xa831c66d, 0xb00327c8, 0xbf597fc7, 0xc6e00bf3, 0xd5a79147, 0x06ca6351, 0x14292967,
   0x27b70a85, 0x2e1b2138, 0x4d2c6dfc, 0x53380d13, 0x650a7354, 0x766a0abb, 0x81c2c92e, 0x92722c85,
   0xa2bfe8a1, 0xa81a664b, 0xc24b8b70, 0xc76c51a3, 0xd192e819, 0xd6990624, 0xf40e3585, 0x106aa070,
   0x19a4c116, 0x1e376c08, 0x2748774c, 0x34b0bcb5, 0x391c0cb3, 0x4ed8aa4a, 0x5b9cca4f, 0x682e6ff3,
   0x748f82ee, 0x78a5636f, 0x84c87814, 0x8cc70208, 0x90befffa, 0xa4506ceb, 0xbef9a3f7, 0xc67178f2]

/-- The initial hash value `H(0)`. -/
def initialState : Vector UInt32 8 :=
  #v[0x6a09e667, 0xbb67ae85, 0x3c6ef372, 0xa54ff53a, 0x510e527f, 0x9b05688c, 0x1f83d9ab, 0x5be0cd19]

/-- Rotation right by `n` bits, `0 < n < 32`. -/
def rotr (x : UInt32) (n : Nat) : UInt32 := (x >>> n.toUInt32) ||| (x <<< (32 - n).toUInt32)

def ch (x y z : UInt32) : UInt32 := (x &&& y) ^^^ (~~~x &&& z)

def maj (x y z : UInt32) : UInt32 := (x &&& y) ^^^ (x &&& z) ^^^ (y &&& z)

def bigSigma0 (x : UInt32) : UInt32 := rotr x 2 ^^^ rotr x 13 ^^^ rotr x 22

def bigSigma1 (x : UInt32) : UInt32 := rotr x 6 ^^^ rotr x 11 ^^^ rotr x 25

def smallSigma0 (x : UInt32) : UInt32 := rotr x 7 ^^^ rotr x 18 ^^^ (x >>> 3)

def smallSigma1 (x : UInt32) : UInt32 := rotr x 17 ^^^ rotr x 19 ^^^ (x >>> 10)

/-- `n` as `width` big-endian bytes, modulo `256 ^ width`. -/
def bigEndian (width n : Nat) : List UInt8 :=
  (List.range width).reverse.map fun i => UInt8.ofNat (n / 256 ^ i)

/-- The message, a one bit, zeros up to 56 bytes modulo 64, and the length in bits as a 64-bit
big-endian number. -/
def pad (msg : List UInt8) : List UInt8 :=
  msg ++ 0x80 :: List.replicate ((119 - msg.length % 64) % 64) 0 ++ bigEndian 8 (8 * msg.length)

/-- A big-endian word. -/
def word (bs : List UInt8) : UInt32 := bs.foldl (fun w b => (w <<< 8) ||| b.toUInt32) 0

/-- The schedule of a block: its sixteen words, then forty-eight words each from four before it. -/
def schedule (block : List UInt8) : List UInt32 :=
  (List.range 48).foldl
    (fun w _ => w ++ [smallSigma1 (w.getD (w.length - 2) 0) + w.getD (w.length - 7) 0 +
      smallSigma0 (w.getD (w.length - 15) 0) + w.getD (w.length - 16) 0])
    ((block.toChunks 4).map word)

/-- One round on the working variables `a, …, h`, with its constant and schedule word. -/
def round (v : Vector UInt32 8) (kw : UInt32 × UInt32) : Vector UInt32 8 :=
  let t₁ := v[7] + bigSigma1 v[4] + ch v[4] v[5] v[6] + kw.1 + kw.2
  let t₂ := bigSigma0 v[0] + maj v[0] v[1] v[2]
  #v[t₁ + t₂, v[0], v[1], v[2], v[3] + t₁, v[4], v[5], v[6]]

/-- The compression of one block into the state. -/
def compress (state : Vector UInt32 8) (block : List UInt8) : Vector UInt32 8 :=
  Vector.zipWith (· + ·) state ((roundConstants.zip (schedule block)).foldl round state)

/-- The digest of a message. -/
def hash (msg : List UInt8) : Vector UInt8 32 :=
  let state := ((pad msg).toChunks 64).foldl compress initialState
  Vector.ofFn fun i : Fin 32 =>
    (state.get ⟨i.val / 4, by omega⟩ >>> (8 * (3 - i.val % 4)).toUInt32).toUInt8

/-- The digest of the empty message, as FIPS 180-4 gives it. -/
example : hash [] = #v[0xe3, 0xb0, 0xc4, 0x42, 0x98, 0xfc, 0x1c, 0x14, 0x9a, 0xfb, 0xf4, 0xc8,
    0x99, 0x6f, 0xb9, 0x24, 0x27, 0xae, 0x41, 0xe4, 0x64, 0x9b, 0x93, 0x4c, 0xa4, 0x95, 0x99, 0x1b,
    0x78, 0x52, 0xb8, 0x55] := by
  decide +kernel

end Sha256
