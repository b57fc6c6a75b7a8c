/-!
# Texts

Three things that are done with a text. Its blanks are trimmed: a character is blank when Unicode
gives it the property White_Space, which is wider than the blanks of a JSON text. It is cut to a
number of bytes of its UTF-8 form, between two characters. And it is read as a whole number, as
settings and file names write it: decimal digits, leading zeros and one leading plus sign allowed,
nothing else, and the value must fit 64 bits.
-/

namespace AgentMemory.Text

/-! ## Blanks -/

/-- The characters with the Unicode property White_Space. -/
def isBlank (c : Char) : Bool :=
  let n := c.toNat
  (9 ≤ n && n ≤ 13) || n = 0x20 || n = 0x85 || n = 0xa0 || n = 0x1680 ||
    (0x2000 ≤ n && n ≤ 0x200a) || n = 0x2028 || n = 0x2029 || n = 0x202f || n = 0x205f || n = 0x3000

def trimStart (cs : List Char) : List Char := cs.dropWhile isBlank

def trim (s : String) : String :=
  String.ofList (trimStart (trimStart s.toList).reverse).reverse

/-! ## Bytes -/

/-- The UTF-8 size of a run of characters. -/
def byteSize : List Char → Nat
  | [] => 0
  | c :: cs => c.utf8Size + byteSize cs

/-- The longest run of whole characters at the front that fits in `room` bytes. -/
def takeBytes : Nat → List Char → List Char
  | _, [] => []
  | room, c :: cs => if c.utf8Size ≤ room then c :: takeBytes (room - c.utf8Size) cs else []

/-- The marker that ends a text cut short. -/
def ellipsis : String := "..."

/-- A text of at most `limit` bytes: unchanged if it fits, otherwise its longest start that leaves
room for the ellipsis, followed by the ellipsis. -/
def shorten (limit : Nat) (s : String) : String :=
  if s.utf8ByteSize ≤ limit then s
  else String.ofList (takeBytes (limit - ellipsis.utf8ByteSize) s.toList) ++ ellipsis

/-! ## Numbers -/

/-- The number of values of a 64-bit word. -/
def wordSize : Nat := Nat.pow 2 64

/-- The value of a run of decimal digits; nothing when it is empty or holds anything else. -/
def digits? (cs : List Char) : Option Nat :=
  if cs.isEmpty then none
  else cs.foldl (fun acc c => acc.bind fun n =>
    if c.isDigit then some (10 * n + (c.toNat - 48)) else none) (some 0)

def dropPlus : List Char → List Char
  | '+' :: cs => cs
  | cs => cs

/-- Reads an unsigned 64-bit number. -/
def unsigned? (s : String) : Option Nat :=
  (digits? (dropPlus s.toList)).filter (· < wordSize)

/-- The decimal digits of a number, padded with zeros on the left to at least `width`. -/
def padded (width n : Nat) : String :=
  let ds := Nat.toDigits 10 n
  String.ofList (List.replicate (width - ds.length) '0' ++ ds)

end AgentMemory.Text
