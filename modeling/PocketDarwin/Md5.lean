/-
  The MD5 digest of a text, as `hashlib.md5(text.encode()).hexdigest()` gives
  it: the digest of the UTF-8 bytes, printed as 32 lower case hexadecimal digits.

  Words are `UInt32`, so that addition wraps as the algorithm asks; a message is
  a list of bytes.
-/
import PocketDarwin.Text

namespace PocketDarwin.Md5

/-- The additive constants `⌊2³² |sin (i + 1)|⌋`. -/
def constants : List UInt32 :=
  [0xd76aa478, 0xe8c7b756, 0x242070db, 0xc1bdceee, 0xf57c0faf, 0x4787c62a, 0xa8304613, 0xfd469501,
   0x698098d8, 0x8b44f7af, 0xffff5bb1, 0x895cd7be, 0x6b901122, 0xfd987193, 0xa679438e, 0x49b40821,
   0xf61e2562, 0xc040b340, 0x265e5a51, 0xe9b6c7aa, 0xd62f105d, 0x02441453, 0xd8a1e681, 0xe7d3fbc8,
   0x21e1cde6, 0xc33707d6, 0xf4d50d87, 0x455a14ed, 0xa9e3e905, 0xfcefa3f8, 0x676f02d9, 0x8d2a4c8a,
   0xfffa3942, 0x8771f681, 0x6d9d6122, 0xfde5380c, 0xa4beea44, 0x4bdecfa9, 0xf6bb4b60, 0xbebfbc70,
   0x289b7ec6, 0xeaa127fa, 0xd4ef3085, 0x04881d05, 0xd9d4d039, 0xe6db99e5, 0x1fa27cf8, 0xc4ac5665,
   0xf4292244, 0x432aff97, 0xab9423a7, 0xfc93a039, 0x655b59c3, 0x8f0ccc92, 0xffeff47d, 0x85845dd1,
   0x6fa87e4f, 0xfe2ce6e0, 0xa3014314, 0x4e0811a1, 0xf7537e82, 0xbd3af235, 0x2ad7d2bb, 0xeb86d391]

/-- The rotation amounts of the four rounds. -/
def rotations : List (List UInt32) :=
  [[7, 12, 17, 22], [5, 9, 14, 20], [4, 11, 16, 23], [6, 10, 15, 21]]

def rotl (x s : UInt32) : UInt32 := (x <<< s) ||| (x >>> (32 - s))

/-- The chaining state. -/
structure State where
  a : UInt32 := 0x67452301
  b : UInt32 := 0xefcdab89
  c : UInt32 := 0x98badcfe
  d : UInt32 := 0x10325476

/-- Step `i` on the block of sixteen words `m`. -/
def step (m : List UInt32) (s : State) (i : ℕ) : State :=
  let (f, g) :=
    if i < 16 then ((s.b &&& s.c) ||| (~~~s.b &&& s.d), i)
    else if i < 32 then ((s.d &&& s.b) ||| (~~~s.d &&& s.c), (5 * i + 1) % 16)
    else if i < 48 then (s.b ^^^ s.c ^^^ s.d, (3 * i + 5) % 16)
    else (s.c ^^^ (s.b ||| ~~~s.d), (7 * i) % 16)
  let r := ((rotations.getD (i / 16) []).getD (i % 4) 0)
  ⟨s.d, s.b + rotl (f + s.a + constants.getD i 0 + m.getD g 0) r, s.b, s.c⟩

/-- The compression of one block. -/
def block (s : State) (m : List UInt32) : State :=
  let t := (List.range 64).foldl (step m) s
  ⟨s.a + t.a, s.b + t.b, s.c + t.c, s.d + t.d⟩

/-- The bytes of a number, least significant first. -/
def bytesOf : (count : ℕ) → ℕ → List ℕ
  | 0, _ => []
  | k + 1, x => x % 256 :: bytesOf k (x / 256)

/-- The words of a list of bytes. -/
def wordsOf : List ℕ → List UInt32
  | w :: x :: y :: z :: bs => UInt32.ofNat (w + 256 * (x + 256 * (y + 256 * z))) :: wordsOf bs
  | _ => []

/-- The padded message: a `1` bit, zeros, and the length in bits. -/
def pad (bs : List ℕ) : List ℕ :=
  bs ++ 0x80 :: List.replicate ((119 - bs.length % 64) % 64) 0 ++ bytesOf 8 (8 * bs.length)

/-- The blocks of a message of `k` blocks. -/
def blocksOf : (k : ℕ) → List UInt32 → List (List UInt32)
  | 0, _ => []
  | k + 1, ws => ws.take 16 :: blocksOf k (ws.drop 16)

/-- The sixteen bytes of the digest. -/
def digest (bs : List ℕ) : List ℕ :=
  let ws := wordsOf (pad bs)
  let s := (blocksOf (ws.length / 16) ws).foldl block {}
  bytesOf 4 s.a.toNat ++ bytesOf 4 s.b.toNat ++ bytesOf 4 s.c.toNat ++ bytesOf 4 s.d.toNat

/-- A lower case hexadecimal digit. -/
def hexDigit (k : ℕ) : Char := "0123456789abcdef".toList.getD k '0'

/-- The UTF-8 bytes of a character. -/
def utf8 (c : Char) : List ℕ :=
  let v := c.toNat
  if v < 0x80 then [v]
  else if v < 0x800 then [0xc0 + v / 64, 0x80 + v % 64]
  else if v < 0x10000 then [0xe0 + v / 4096, 0x80 + v / 64 % 64, 0x80 + v % 64]
  else [0xf0 + v / 262144, 0x80 + v / 4096 % 64, 0x80 + v / 64 % 64, 0x80 + v % 64]

/-- `hashlib.md5(text.encode()).hexdigest()` -/
def hexdigest (text : Text) : Text :=
  (digest (text.flatMap utf8)).flatMap fun b => [hexDigit (b / 16), hexDigit (b % 16)]

example : hexdigest "abc".toList = "900150983cd24fb0d6963f7d28e17f72".toList := by decide +kernel

/-! ## Digests are hexadecimal -/

/-- `[0-9a-f]` -/
def isHex (c : Char) : Bool := c.isDigit || ('a' ≤ c && c ≤ 'f')

theorem isHex_hexDigit (k : ℕ) : isHex (hexDigit k) := by
  by_cases h : k < 16
  · exact (show ∀ k < 16, isHex (hexDigit k) by decide) k h
  · have hk : "0123456789abcdef".toList[k]? = none := List.getElem?_eq_none (by simpa using h)
    rw [hexDigit, List.getD_eq_getElem?_getD, hk]
    decide

theorem isHex_of_mem_hexdigest {text : Text} {c : Char} (h : c ∈ hexdigest text) : isHex c := by
  simp only [hexdigest, List.mem_flatMap, List.mem_cons, List.not_mem_nil, or_false] at h
  obtain ⟨b, -, rfl | rfl⟩ := h <;> exact isHex_hexDigit _

theorem hexdigest_ne_nil (text : Text) : hexdigest text ≠ [] := by
  simp [hexdigest, digest, bytesOf]

end PocketDarwin.Md5
