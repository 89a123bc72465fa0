/-
The MD5 message digest.

A message is padded to whole blocks of 64 bytes with its length in bits at the end; four words of
state are mixed with every block in 64 rounds.
-/
import MutationAnalysis.Text.Hex

namespace MutationAnalysis.Digest.Md5

/-- The constants of the rounds: the fractional parts of the sines of 1 to 64. -/
def constants : List UInt32 :=
  [0xd76aa478, 0xe8c7b756, 0x242070db, 0xc1bdceee, 0xf57c0faf, 0x4787c62a, 0xa8304613, 0xfd469501,
   0x698098d8, 0x8b44f7af, 0xffff5bb1, 0x895cd7be, 0x6b901122, 0xfd987193, 0xa679438e, 0x49b40821,
   0xf61e2562, 0xc040b340, 0x265e5a51, 0xe9b6c7aa, 0xd62f105d, 0x02441453, 0xd8a1e681, 0xe7d3fbc8,
   0x21e1cde6, 0xc33707d6, 0xf4d50d87, 0x455a14ed, 0xa9e3e905, 0xfcefa3f8, 0x676f02d9, 0x8d2a4c8a,
   0xfffa3942, 0x8771f681, 0x6d9d6122, 0xfde5380c, 0xa4beea44, 0x4bdecfa9, 0xf6bb4b60, 0xbebfbc70,
   0x289b7ec6, 0xeaa127fa, 0xd4ef3085, 0x04881d05, 0xd9d4d039, 0xe6db99e5, 0x1fa27cf8, 0xc4ac5665,
   0xf4292244, 0x432aff97, 0xab9423a7, 0xfc93a039, 0x655b59c3, 0x8f0ccc92, 0xffeff47d, 0x85845dd1,
   0x6fa87e4f, 0xfe2ce6e0, 0xa3014314, 0x4e0811a1, 0xf7537e82, 0xbd3af235, 0x2ad7d2bb, 0xeb86d391]

/-- How far each step of the four rounds rotates. -/
def shifts : List (List UInt32) :=
  [[7, 12, 17, 22], [5, 9, 14, 20], [4, 11, 16, 23], [6, 10, 15, 21]]

/-- Round constants with the rotation of their step, in order. -/
def steps : List (UInt32 × UInt32) :=
  constants.zip (shifts.flatMap fun row => row ++ row ++ row ++ row)

structure State where
  a : UInt32
  b : UInt32
  c : UInt32
  d : UInt32

def initialState : State := ⟨0x67452301, 0xefcdab89, 0x98badcfe, 0x10325476⟩

def rotateLeft (x n : UInt32) : UInt32 := (x <<< n) ||| (x >>> (32 - n))

/-- One step: the mixing function and the word of the block depend on the step's number. -/
def step (block : Array UInt32) (s : State) (i : Nat) (k r : UInt32) : State :=
  let (f, g) :=
    if i < 16 then ((s.b &&& s.c) ||| (~~~s.b &&& s.d), i)
    else if i < 32 then ((s.d &&& s.b) ||| (~~~s.d &&& s.c), (5 * i + 1) % 16)
    else if i < 48 then (s.b ^^^ s.c ^^^ s.d, (3 * i + 5) % 16)
    else (s.c ^^^ (s.b ||| ~~~s.d), 7 * i % 16)
  let mixed := s.a + f + k + block.getD g 0
  ⟨s.d, s.b + rotateLeft mixed r, s.b, s.c⟩

def runSteps (block : Array UInt32) (s : State) : Nat → List (UInt32 × UInt32) → State
  | _, [] => s
  | i, (k, r) :: rest => runSteps block (step block s i k r) (i + 1) rest

/-- Little-endian words of a list of bytes. -/
def words : List UInt8 → List UInt32
  | b0 :: b1 :: b2 :: b3 :: rest =>
    (b0.toUInt32 ||| (b1.toUInt32 <<< 8) ||| (b2.toUInt32 <<< 16) ||| (b3.toUInt32 <<< 24))
      :: words rest
  | _ => []

def addBlock (s : State) (block : List UInt32) : State :=
  let t := runSteps block.toArray s 0 steps
  ⟨s.a + t.a, s.b + t.b, s.c + t.c, s.d + t.d⟩

/-- Takes blocks of sixteen words off a list, at most `count` of them. -/
def addBlocks (s : State) : Nat → List UInt32 → State
  | 0, _ => s
  | count + 1, ws => addBlocks (addBlock s (ws.take 16)) count (ws.drop 16)

/-- The message with its padding: a one bit, zeros, and its length in bits as 64 bits. -/
def pad (message : List UInt8) : List UInt8 :=
  let size := message.length
  let zeros := (119 - size % 64) % 64
  message ++ 0x80 :: List.replicate zeros (0 : UInt8)
    ++ (List.range 8).map fun i => ((8 * size) >>> (8 * i)).toUInt8

def bytesOfWord (w : UInt32) : List UInt8 :=
  [w.toUInt8, (w >>> 8).toUInt8, (w >>> 16).toUInt8, (w >>> 24).toUInt8]

/-- The sixteen bytes of the digest. -/
def digest (message : List UInt8) : List UInt8 :=
  let ws := words (pad message)
  let s := addBlocks initialState (ws.length / 16) ws
  bytesOfWord s.a ++ bytesOfWord s.b ++ bytesOfWord s.c ++ bytesOfWord s.d

/-- The digest as hexadecimal text. -/
def hexDigest (message : List UInt8) : String :=
  Text.Hex.encode (digest message)

end MutationAnalysis.Digest.Md5
