/-!
# SHA-256

The message is padded to whole blocks of 64 bytes (`padded`); each block gives a schedule of 64
words (`schedule`) that is mixed into the eight words of the chaining value (`compress`).  Digests
are `Digest`s, byte strings of length 32.
-/

namespace CommitChain.Hash

/-- A byte string of length 32. -/
structure Digest where
  bytes : ByteArray
  size_eq : bytes.size = 32

theorem Digest.ext {a b : Digest} (h : a.bytes = b.bytes) : a = b := by
  cases a; cases b; cases h; rfl

instance : DecidableEq Digest := fun a b =>
  decidable_of_iff (a.bytes.data = b.bytes.data)
    ⟨fun h => Digest.ext (ByteArray.ext h), fun h => h ▸ rfl⟩

namespace Sha256

/-- The first 32 bits of the fractional parts of the cube roots of the first 64 primes. -/
def roundConstants : Array UInt32 := #[
  0x428a2f98, 0x71374491, 0xb5c0fbcf, 0xe9b5dba5, 0x3956c25b, 0x59f111f1, 0x923f82a4, 0xab1c5ed5,
  0xd807aa98, 0x12835b01, 0x243185be, 0x550c7dc3, 0x72be5d74, 0x80deb1fe, 0x9bdc06a7, 0xc19bf174,
  0xe49b69c1, 0xefbe4786, 0x0fc19dc6, 0x240ca1cc, 0x2de92c6f, 0x4a7484aa, 0x5cb0a9dc, 0x76f988da,
  0x983e5152, 0xa831c66d, 0xb00327c8, 0xbf597fc7, 0xc6e00bf3, 0xd5a79147, 0x06ca6351, 0x14292967,
  0x27b70a85, 0x2e1b2138, 0x4d2c6dfc, 0x53380d13, 0x650a7354, 0x766a0abb, 0x81c2c92e, 0x92722c85,
  0xa2bfe8a1, 0xa81a664b, 0xc24b8b70, 0xc76c51a3, 0xd192e819, 0xd6990624, 0xf40e3585, 0x106aa070,
  0x19a4c116, 0x1e376c08, 0x2748774c, 0x34b0bcb5, 0x391c0cb3, 0x4ed8aa4a, 0x5b9cca4f, 0x682e6ff3,
  0x748f82ee, 0x78a5636f, 0x84c87814, 0x8cc70208, 0x90befffa, 0xa4506ceb, 0xbef9a3f7, 0xc67178f2]

/-- The eight working words, also the chaining value between blocks. -/
structure Words where
  a : UInt32
  b : UInt32
  c : UInt32
  d : UInt32
  e : UInt32
  f : UInt32
  g : UInt32
  h : UInt32

/-- The first 32 bits of the fractional parts of the square roots of the first eight primes. -/
def initial : Words :=
  ⟨0x6a09e667, 0xbb67ae85, 0x3c6ef372, 0xa54ff53a, 0x510e527f, 0x9b05688c, 0x1f83d9ab, 0x5be0cd19⟩

/-- Rotation to the right by fewer than 32 places. -/
def rotate (x : UInt32) (n : UInt32) : UInt32 :=
  (x >>> n) ||| (x <<< (32 - n))

/-- `n` as `width` bytes, the most significant first. -/
def bigEndian (width n : Nat) : List UInt8 :=
  (List.range width).map fun i => UInt8.ofNat (n / Nat.pow 256 (width - 1 - i))

/-- The message, a one bit, zeros to fill the last block, and the length in bits in eight bytes. -/
def padded (message : ByteArray) : ByteArray :=
  let zeros := (119 - message.size % 64) % 64
  message ++ (0x80 :: List.replicate zeros 0 ++ bigEndian 8 (8 * message.size)).toByteArray

/-- The byte at a position, zero behind the end. -/
def byteAt (bytes : ByteArray) (i : Nat) : UInt32 :=
  if h : i < bytes.size then (bytes[i]).toUInt32 else 0

/-- The word that starts at a position. -/
def wordAt (bytes : ByteArray) (i : Nat) : UInt32 :=
  (byteAt bytes i <<< 24) ||| (byteAt bytes (i + 1) <<< 16) ||| (byteAt bytes (i + 2) <<< 8)
    ||| byteAt bytes (i + 3)

/-- Extends a schedule of at least 16 words by `n` more. -/
def extend : Nat → Array UInt32 → Array UInt32
  | 0, w => w
  | n + 1, w =>
    let t := w.size
    let x := w.getD (t - 15) 0
    let y := w.getD (t - 2) 0
    let s0 := rotate x 7 ^^^ rotate x 18 ^^^ (x >>> 3)
    let s1 := rotate y 17 ^^^ rotate y 19 ^^^ (y >>> 10)
    extend n (w.push (w.getD (t - 16) 0 + s0 + w.getD (t - 7) 0 + s1))

/-- The 64 words of the block that starts at a position. -/
def schedule (bytes : ByteArray) (start : Nat) : Array UInt32 :=
  extend 48 ((Array.range 16).map fun i => wordAt bytes (start + 4 * i))

/-- One round with its constant plus word. -/
def round (s : Words) (k : UInt32) : Words :=
  let s1 := rotate s.e 6 ^^^ rotate s.e 11 ^^^ rotate s.e 25
  let choice := (s.e &&& s.f) ^^^ (~~~s.e &&& s.g)
  let t1 := s.h + s1 + choice + k
  let s0 := rotate s.a 2 ^^^ rotate s.a 13 ^^^ rotate s.a 22
  let majority := (s.a &&& s.b) ^^^ (s.a &&& s.c) ^^^ (s.b &&& s.c)
  ⟨t1 + (s0 + majority), s.a, s.b, s.c, s.d + t1, s.e, s.f, s.g⟩

/-- The rounds from number `64 - n` on. -/
def rounds (w : Array UInt32) : Nat → Words → Words
  | 0, s => s
  | n + 1, s => rounds w n (round s (roundConstants.getD (63 - n) 0 + w.getD (63 - n) 0))

/-- Mixes the block that starts at a position into the chaining value. -/
def compress (bytes : ByteArray) (start : Nat) (s : Words) : Words :=
  let t := rounds (schedule bytes start) 64 s
  ⟨s.a + t.a, s.b + t.b, s.c + t.c, s.d + t.d, s.e + t.e, s.f + t.f, s.g + t.g, s.h + t.h⟩

/-- The chaining value behind the `n` blocks that start at a position. -/
def absorb (bytes : ByteArray) : Nat → Nat → Words → Words
  | 0, _, s => s
  | n + 1, start, s => absorb bytes n (start + 64) (compress bytes start s)

/-- The bytes of a word, the most significant first. -/
def wordBytes (w : UInt32) : Array UInt8 :=
  #[(w >>> 24).toUInt8, (w >>> 16).toUInt8, (w >>> 8).toUInt8, w.toUInt8]

/-- The chaining value as a digest. -/
def Words.digest (s : Words) : Digest where
  bytes := ⟨wordBytes s.a ++ wordBytes s.b ++ wordBytes s.c ++ wordBytes s.d
    ++ wordBytes s.e ++ wordBytes s.f ++ wordBytes s.g ++ wordBytes s.h⟩
  size_eq := by simp [ByteArray.size, wordBytes]

end Sha256

/-- The SHA-256 digest of a byte string. -/
def sha256 (message : ByteArray) : Digest :=
  let bytes := Sha256.padded message
  (Sha256.absorb bytes (bytes.size / 64) 0 Sha256.initial).digest

end CommitChain.Hash
