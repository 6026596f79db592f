import Ssz.Bytes

/-! Chunks of thirty-two bytes, and how byte and bit strings are packed into them. -/

namespace Ssz

/-- A leaf or a hash of a Merkle tree: thirty-two bytes. -/
abbrev Chunk := Vector UInt8 32

/-- The serialized width of a chunk. -/
def bytesPerChunk : Nat := 32

namespace Chunk

/-- The chunk of zero bytes. -/
def zero : Chunk := Vector.replicate 32 0

/-- Up to thirty-two bytes, left-aligned and followed by zeros. -/
def padded (bytes : Bytes) : Chunk :=
  -- Thirty-two zeros are enough for any input, and the cut drops those not needed.
  ⟨((bytes ++ List.replicate 32 0).take 32).toArray, by simp⟩

/-- The bytes from position `start` up to, but not including, position `stop`. -/
def slice (chunk : Chunk) (start stop : Nat) : Bytes :=
  Bytes.slice chunk.toList start stop

/-- The chunk with `bytes` written over the positions that start at `offset`. -/
def patch (chunk : Chunk) (offset : Nat) (bytes : Bytes) : Chunk :=
  padded (chunk.toList.take offset ++ bytes ++ chunk.toList.drop (offset + bytes.length))

/-- A 64-bit length as eight little-endian bytes followed by zeros. -/
def ofLength (length : UInt64) : Chunk :=
  padded (littleEndian 8 length.toNat)

/-- The 64-bit length in the first eight bytes. -/
def length (chunk : Chunk) : UInt64 :=
  UInt64.ofNat (ofLittleEndian (chunk.slice 0 8))

/-- A 32-bit selector as four little-endian bytes followed by zeros. -/
def ofSelector (selector : UInt32) : Chunk :=
  padded (littleEndian 4 selector.toNat)

/-- The 32-bit selector in the first four bytes. -/
def selector (chunk : Chunk) : UInt32 :=
  UInt32.ofNat (ofLittleEndian (chunk.slice 0 4))

/-- The bit at a position, counting from the least significant bit of the first byte. -/
def getBit (chunk : Chunk) (position : Nat) : Bool :=
  (chunk.toList.getD (position / 8) 0).toNat.testBit (position % 8)

/-- The chunk with the bit at a position set or cleared. -/
def setBit (chunk : Chunk) (position : Nat) (bit : Bool) : Chunk :=
  let byte := chunk.toList.getD (position / 8) 0
  let mask := (1 : UInt8) <<< UInt8.ofNat (position % 8)
  chunk.patch (position / 8) [if bit then byte ||| mask else byte &&& ~~~mask]

/-- Lowercase hexadecimal text, without a leading marker. -/
def toHex (chunk : Chunk) : String :=
  Bytes.toHex chunk.toList

end Chunk

/-- Bytes cut into chunks, the last one padded with zeros. -/
def packBytes (bytes : Bytes) : List Chunk :=
  match bytes with
  | [] => []
  | byte :: rest =>
    -- A nonempty rest of the input always gives up at least one byte.
    Chunk.padded ((byte :: rest).take 32) :: packBytes (rest.drop 31)
termination_by bytes.length

/-- The bytes of chunks, in order. -/
def unpackBytes (chunks : List Chunk) : Bytes :=
  chunks.flatMap Vector.toList

/-- Up to eight bits as a byte, least significant bit first. -/
def byteOfBits : List Bool → UInt8
  | [] => 0
  | bit :: rest => (if bit then 1 else 0) + 2 * byteOfBits rest

/-- The eight bits of a byte, least significant bit first. -/
def bitsOfByte (byte : UInt8) : List Bool :=
  (List.range 8).map byte.toNat.testBit

/-- Bits packed into bytes least significant first, the last byte padded with zero bits. -/
def packBits (bits : List Bool) : Bytes :=
  match bits with
  | [] => []
  | bit :: rest =>
    -- A nonempty rest of the input always gives up at least one bit.
    byteOfBits ((bit :: rest).take 8) :: packBits (rest.drop 7)
termination_by bits.length

/-- The bits of bytes, least significant first within each byte. -/
def unpackBits (bytes : Bytes) : List Bool :=
  bytes.flatMap bitsOfByte

end Ssz
