import Ssz.Chunk

/-! SHA-256 as total functions over fixed-size vectors of 32-bit words. -/

namespace Ssz.Sha256

/-- The first thirty-two fractional bits of the cube roots of the first sixty-four primes. -/
def roundConstants : Vector UInt32 64 := #v[
  0x428a2f98, 0x71374491, 0xb5c0fbcf, 0xe9b5dba5, 0x3956c25b, 0x59f111f1, 0x923f82a4, 0xab1c5ed5,
  0xd807aa98, 0x12835b01, 0x243185be, 0x550c7dc3, 0x72be5d74, 0x80deb1fe, 0x9bdc06a7, 0xc19bf174,
  0xe49b69c1, 0xefbe4786, 0x0fc19dc6, 0x240ca1cc, 0x2de92c6f, 0x4a7484aa, 0x5cb0a9dc, 0x76f988da,
  0x983e5152, 0xa831c66d, 0xb00327c8, 0xbf597fc7, 0xc6e00bf3, 0xd5a79147, 0x06ca6351, 0x14292967,
  0x27b70a85, 0x2e1b2138, 0x4d2c6dfc, 0x53380d13, 0x650a7354, 0x766a0abb, 0x81c2c92e, 0x92722c85,
  0xa2bfe8a1, 0xa81a664b, 0xc24b8b70, 0xc76c51a3, 0xd192e819, 0xd6990624, 0xf40e3585, 0x106aa070,
  0x19a4c116, 0x1e376c08, 0x2748774c, 0x34b0bcb5, 0x391c0cb3, 0x4ed8aa4a, 0x5b9cca4f, 0x682e6ff3,
  0x748f82ee, 0x78a5636f, 0x84c87814, 0x8cc70208, 0x90befffa, 0xa4506ceb, 0xbef9a3f7, 0xc67178f2]

/-- The eight chaining words between blocks. -/
structure State where
  a : UInt32
  b : UInt32
  c : UInt32
  d : UInt32
  e : UInt32
  f : UInt32
  g : UInt32
  h : UInt32

/-- The chaining words before the first block: square roots of the first eight primes. -/
def State.initial : State :=
  ⟨0x6a09e667, 0xbb67ae85, 0x3c6ef372, 0xa54ff53a, 0x510e527f, 0x9b05688c, 0x1f83d9ab, 0x5be0cd19⟩

/-- Word-by-word sums of two states. -/
def State.add (s t : State) : State :=
  ⟨s.a + t.a, s.b + t.b, s.c + t.c, s.d + t.d, s.e + t.e, s.f + t.f, s.g + t.g, s.h + t.h⟩

/-- A word rotated to the right by fewer than thirty-two places. -/
@[inline] def rotateRight (word count : UInt32) : UInt32 :=
  (word >>> count) ||| (word <<< (32 - count))

/-- The first mixing function of the message schedule. -/
@[inline] def smallSigma0 (word : UInt32) : UInt32 :=
  rotateRight word 7 ^^^ rotateRight word 18 ^^^ (word >>> 3)

/-- The second mixing function of the message schedule. -/
@[inline] def smallSigma1 (word : UInt32) : UInt32 :=
  rotateRight word 17 ^^^ rotateRight word 19 ^^^ (word >>> 10)

/-- The mixing function of the first chaining word. -/
@[inline] def bigSigma0 (word : UInt32) : UInt32 :=
  rotateRight word 2 ^^^ rotateRight word 13 ^^^ rotateRight word 22

/-- The mixing function of the fifth chaining word. -/
@[inline] def bigSigma1 (word : UInt32) : UInt32 :=
  rotateRight word 6 ^^^ rotateRight word 11 ^^^ rotateRight word 25

/-- Bitwise selection of the second or third word by the first. -/
@[inline] def choose (x y z : UInt32) : UInt32 :=
  (x &&& y) ^^^ (~~~x &&& z)

/-- Bitwise majority of three words. -/
@[inline] def majority (x y z : UInt32) : UInt32 :=
  (x &&& y) ^^^ (x &&& z) ^^^ (y &&& z)

/-- One round on the working words, with the sum of its constant and schedule word. -/
@[inline] def State.round (s : State) (word : UInt32) : State :=
  let first := s.h + bigSigma1 s.e + choose s.e s.f s.g + word
  let second := bigSigma0 s.a + majority s.a s.b s.c
  ⟨first + second, s.a, s.b, s.c, s.d + first, s.e, s.f, s.g⟩

/-- The big-endian word at a byte position; bytes past the end read as zero. -/
def wordAt (message : Array UInt8) (position : Nat) : UInt32 :=
  ((message.getD position 0).toUInt32 <<< 24) ||| ((message.getD (position + 1) 0).toUInt32 <<< 16)
    ||| ((message.getD (position + 2) 0).toUInt32 <<< 8)
    ||| (message.getD (position + 3) 0).toUInt32

/-- The sixteen input words of a block followed by `count` words of the recurrence. -/
def extend (block : Vector UInt32 16) : (count : Nat) → Vector UInt32 (16 + count)
  | 0 => block
  | count + 1 =>
    -- Each new word reads four of the sixteen words before it.
    let words := extend block count
    words.push (smallSigma1 words[count + 14] + words[count + 9] + smallSigma0 words[count + 1]
      + words[count])

/-- The state after absorbing the block that starts at a byte position. -/
def compress (state : State) (message : Array UInt8) (start : Nat) : State :=
  let words : Vector UInt32 64 := extend (Vector.ofFn fun i => wordAt message (start + 4 * i)) 48
  state.add (Fin.foldl 64 (fun working i => working.round (roundConstants[i] + words[i])) state)

/-- The zero bytes that complete the last block after the delimiter and before the length. -/
def paddingZeros (size : Nat) : Nat :=
  (119 - size % 64) % 64

/-- The message, a one bit, zeros, and the length in bits as eight big-endian bytes. -/
def pad (message : Array UInt8) : Array UInt8 :=
  (message.push 0x80) ++ Array.replicate (paddingZeros message.size) 0
    ++ (littleEndian 8 (8 * message.size)).reverse.toArray

/-- The four big-endian bytes of a word. -/
def wordBytes (word : UInt32) : Vector UInt8 4 :=
  #v[(word >>> 24).toUInt8, (word >>> 16).toUInt8, (word >>> 8).toUInt8, word.toUInt8]

/-- The chaining words as thirty-two big-endian bytes. -/
def State.digest (s : State) : Chunk :=
  wordBytes s.a ++ wordBytes s.b ++ wordBytes s.c ++ wordBytes s.d
    ++ wordBytes s.e ++ wordBytes s.f ++ wordBytes s.g ++ wordBytes s.h

/-- The SHA-256 digest of a message. -/
def hash (message : Array UInt8) : Chunk :=
  let padded := pad message
  let final :=
    Nat.fold (padded.size / 64) (fun i _ state => compress state padded (64 * i)) State.initial
  final.digest

end Ssz.Sha256

namespace Ssz

/-- The parent hash of two children: SHA-256 of the left chunk followed by the right. -/
def hashPair (left right : Chunk) : Chunk :=
  Sha256.hash (left.toArray ++ right.toArray)

end Ssz
