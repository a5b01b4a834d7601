import FilterQuery.Text.Hex

/-!
# MD5

The digest of a byte string in 128 bits. A message is padded with a one bit, zeros and its length
in bits to whole blocks of 64 bytes; each block stirs a state of four words in 64 steps.
`Md5.hexDigest` gives the digest of a text, in UTF-8, as 32 hexadecimal digits.
-/

set_option autoImplicit false

namespace FilterQuery.Md5

/-- The four words that are stirred. -/
structure State where
  a : UInt32
  b : UInt32
  c : UInt32
  d : UInt32
  deriving DecidableEq, Repr

/-- The state before the first block. -/
def start : State := ⟨0x67452301, 0xefcdab89, 0x98badcfe, 0x10325476⟩

/-- The summand of each step: the whole part of `2 ^ 32 * |sin (i + 1)|`. -/
def summands : List UInt32 :=
  [0xd76aa478, 0xe8c7b756, 0x242070db, 0xc1bdceee, 0xf57c0faf, 0x4787c62a,
    0xa8304613, 0xfd469501, 0x698098d8, 0x8b44f7af, 0xffff5bb1, 0x895cd7be,
    0x6b901122, 0xfd987193, 0xa679438e, 0x49b40821, 0xf61e2562, 0xc040b340,
    0x265e5a51, 0xe9b6c7aa, 0xd62f105d, 0x02441453, 0xd8a1e681, 0xe7d3fbc8,
    0x21e1cde6, 0xc33707d6, 0xf4d50d87, 0x455a14ed, 0xa9e3e905, 0xfcefa3f8,
    0x676f02d9, 0x8d2a4c8a, 0xfffa3942, 0x8771f681, 0x6d9d6122, 0xfde5380c,
    0xa4beea44, 0x4bdecfa9, 0xf6bb4b60, 0xbebfbc70, 0x289b7ec6, 0xeaa127fa,
    0xd4ef3085, 0x04881d05, 0xd9d4d039, 0xe6db99e5, 0x1fa27cf8, 0xc4ac5665,
    0xf4292244, 0x432aff97, 0xab9423a7, 0xfc93a039, 0x655b59c3, 0x8f0ccc92,
    0xffeff47d, 0x85845dd1, 0x6fa87e4f, 0xfe2ce6e0, 0xa3014314, 0x4e0811a1,
    0xf7537e82, 0xbd3af235, 0x2ad7d2bb, 0xeb86d391]

/-- By how many bits each step rotates; every round of 16 steps repeats four amounts. -/
def rotations : List UInt32 :=
  [[7, 12, 17, 22], [5, 9, 14, 20], [4, 11, 16, 23], [6, 10, 15, 21]].flatMap
    fun round => round ++ round ++ round ++ round

/-- The word rotated to the left. -/
def rotate (x n : UInt32) : UInt32 := (x <<< n) ||| (x >>> (32 - n))

/-- How step `i` mixes the words, and which word of the block it takes. -/
def mix (s : State) (i : Nat) : UInt32 × Nat :=
  if i < 16 then ((s.b &&& s.c) ||| (~~~s.b &&& s.d), i)
  else if i < 32 then ((s.d &&& s.b) ||| (~~~s.d &&& s.c), (5 * i + 1) % 16)
  else if i < 48 then (s.b ^^^ s.c ^^^ s.d, (3 * i + 5) % 16)
  else (s.c ^^^ (s.b ||| ~~~s.d), 7 * i % 16)

/-- Step `i` on a block of words. -/
def step (words : Array UInt32) (s : State) (i : Nat) (summand rotation : UInt32) : State :=
  let (f, k) := mix s i
  ⟨s.d, s.b + rotate (f + s.a + summand + words.getD k 0) rotation, s.b, s.c⟩

/-- The steps from number `i` on. -/
def steps (words : Array UInt32) (s : State) (i : Nat) : List (UInt32 × UInt32) → State
  | [] => s
  | (summand, rotation) :: rest => steps words (step words s i summand rotation) (i + 1) rest

/-- The state after one more block. -/
def addBlock (s : State) (words : Array UInt32) : State :=
  let t := steps words s 0 (summands.zip rotations)
  ⟨s.a + t.a, s.b + t.b, s.c + t.c, s.d + t.d⟩

/-- The words of some bytes, the lowest byte first. -/
def wordsOf : List UInt8 → List UInt32
  | a :: b :: c :: d :: rest =>
      (a.toUInt32 ||| (b.toUInt32 <<< 8) ||| (c.toUInt32 <<< 16) ||| (d.toUInt32 <<< 24)) ::
        wordsOf rest
  | _ => []

/-- The `n` lowest bytes of a natural, the lowest first. -/
def bytesOf (n : Nat) (x : Nat) : List UInt8 :=
  (List.range n).map fun i => (x / Nat.pow 256 i % 256).toUInt8

/-- The message filled up to whole blocks. -/
def padded (message : List UInt8) : List UInt8 :=
  let n := message.length
  message ++ 0x80 :: List.replicate ((119 - n % 64) % 64) 0 ++ bytesOf 8 (8 * n)

/-- The state after all blocks of some words. -/
def addBlocks (s : State) : List UInt32 → State
  | [] => s
  | w :: ws => addBlocks (addBlock s (w :: ws.take 15).toArray) (ws.drop 15)
termination_by words => words.length
decreasing_by simp only [List.length_drop, List.length_cons]; omega

/-- The digest of a message. -/
def digest (message : List UInt8) : List UInt8 :=
  let s := addBlocks start (wordsOf (padded message))
  [s.a, s.b, s.c, s.d].flatMap fun w => bytesOf 4 w.toNat

/-- The two hexadecimal digits of a byte. -/
def hexByte (b : UInt8) : List Char := [Text.hexDigit (b.toNat / 16), Text.hexDigit (b.toNat % 16)]

/-- The digest of a text as 32 hexadecimal digits. -/
def hexDigest (s : String) : String := String.ofList ((digest s.toUTF8.toList).flatMap hexByte)

end FilterQuery.Md5
