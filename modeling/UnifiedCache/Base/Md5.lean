/-
  UnifiedCache.Base.Md5 — the MD5 digest of a list of bytes.
-/

namespace UnifiedCache.Base.Md5

/-- A number in `n` bytes, the low byte first. -/
def littleEndian (n x : Nat) : List UInt8 := (List.range n).map fun i => UInt8.ofNat (x >>> (8 * i))

def sines : List UInt32 :=
  [
    0xd76aa478, 0xe8c7b756, 0x242070db, 0xc1bdceee, 0xf57c0faf, 0x4787c62a, 0xa8304613, 0xfd469501,
    0x698098d8, 0x8b44f7af, 0xffff5bb1, 0x895cd7be, 0x6b901122, 0xfd987193, 0xa679438e, 0x49b40821,
    0xf61e2562, 0xc040b340, 0x265e5a51, 0xe9b6c7aa, 0xd62f105d, 0x02441453, 0xd8a1e681, 0xe7d3fbc8,
    0x21e1cde6, 0xc33707d6, 0xf4d50d87, 0x455a14ed, 0xa9e3e905, 0xfcefa3f8, 0x676f02d9, 0x8d2a4c8a,
    0xfffa3942, 0x8771f681, 0x6d9d6122, 0xfde5380c, 0xa4beea44, 0x4bdecfa9, 0xf6bb4b60, 0xbebfbc70,
    0x289b7ec6, 0xeaa127fa, 0xd4ef3085, 0x04881d05, 0xd9d4d039, 0xe6db99e5, 0x1fa27cf8, 0xc4ac5665,
    0xf4292244, 0x432aff97, 0xab9423a7, 0xfc93a039, 0x655b59c3, 0x8f0ccc92, 0xffeff47d, 0x85845dd1,
    0x6fa87e4f, 0xfe2ce6e0, 0xa3014314, 0x4e0811a1, 0xf7537e82, 0xbd3af235, 0x2ad7d2bb, 0xeb86d391
  ]

/-- How far each of the four rounds rotates. -/
def shifts : List (List UInt32) := [[7, 12, 17, 22], [5, 9, 14, 20], [4, 11, 16, 23], [6, 10, 15, 21]]

structure State where
  a : UInt32
  b : UInt32
  c : UInt32
  d : UInt32

def rotateLeft (x s : UInt32) : UInt32 := (x <<< s) ||| (x >>> (32 - s))

/-- One of the 64 operations on a block of 16 words. -/
def operation (block : List UInt32) (s : State) (i : Nat) : State :=
  let (f, g) :=
    match i / 16 with
    | 0 => ((s.b &&& s.c) ||| (~~~s.b &&& s.d), i)
    | 1 => ((s.d &&& s.b) ||| (~~~s.d &&& s.c), 5 * i + 1)
    | 2 => (s.b ^^^ s.c ^^^ s.d, 3 * i + 5)
    | _ => (s.c ^^^ (s.b ||| ~~~s.d), 7 * i)
  let sum := f + s.a + sines.getD i 0 + block.getD (g % 16) 0
  ⟨s.d, s.b + rotateLeft sum ((shifts.getD (i / 16) []).getD (i % 4) 0), s.b, s.c⟩

def compress (s : State) (block : List UInt32) : State :=
  let t := (List.range 64).foldl (operation block) s
  ⟨s.a + t.a, s.b + t.b, s.c + t.c, s.d + t.d⟩

/-- A one, zeros, and the length in bits. -/
def pad (message : List UInt8) : List UInt8 :=
  message ++ 0x80 :: List.replicate ((119 - message.length % 64) % 64) 0 ++ littleEndian 8 (8 * message.length)

def word (bytes : List UInt8) (i : Nat) : UInt32 :=
  UInt32.ofNat (((bytes.drop (4 * i)).take 4).foldr (fun b n => b.toNat + 256 * n) 0)

def md5 (message : List UInt8) : List UInt8 :=
  let bytes := pad message
  let s := (List.range (bytes.length / 64)).foldl
    (fun s k => compress s ((List.range 16).map fun i => word bytes (16 * k + i))) ⟨0x67452301, 0xefcdab89,
      0x98badcfe, 0x10325476⟩
  [s.a, s.b, s.c, s.d].flatMap fun w => littleEndian 4 w.toNat

example : md5 [] = [0xd4, 0x1d, 0x8c, 0xd9, 0x8f, 0x00, 0xb2, 0x04, 0xe9, 0x80, 0x09, 0x98, 0xec, 0xf8, 0x42, 0x7e] := by
  decide +kernel

end UnifiedCache.Base.Md5
