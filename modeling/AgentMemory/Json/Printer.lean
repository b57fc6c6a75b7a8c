import AgentMemory.Json.Value
import AgentMemory.Number.Decimal

/-!
# JSON text

One printer, two layouts: `compact` puts nothing between the tokens, `pretty` puts each entry on a
line of its own, two blanks deeper than its container. A layout can only add blanks, so both texts
read back alike.
-/

namespace AgentMemory.Json

/-! ## Strings -/

def hexDigit (n : Nat) : Char := Nat.digitChar n

/-- A character inside quotes. Quotes, backslashes and control characters are escaped, all else
stands for itself. -/
def escapeChar (c : Char) : List Char :=
  if c = '"' then ['\\', '"']
  else if c = '\\' then ['\\', '\\']
  else if c = '\n' then ['\\', 'n']
  else if c = '\r' then ['\\', 'r']
  else if c = '\t' then ['\\', 't']
  else if c = '\x08' then ['\\', 'b']
  else if c = '\x0c' then ['\\', 'f']
  else if c.toNat < 0x20 then
    ['\\', 'u', '0', '0', hexDigit (c.toNat / 16), hexDigit (c.toNat % 16)]
  else [c]

def quote (s : String) : List Char := '"' :: s.toList.flatMap escapeChar ++ ['"']

/-! ## Numbers -/

def writeInt : Int → List Char
  | .ofNat n => Nat.toDigits 10 n
  | .negSucc n => '-' :: Nat.toDigits 10 (n + 1)

def Number.write : Number → List Char
  | .int n => writeInt n
  | .float x => x.write

/-! ## Values -/

/-- What stands between the tokens: the blanks before an entry or a closing bracket at a depth, and
the text between a key and its value. -/
structure Layout where
  lead : Nat → List Char
  colon : List Char

def Layout.compact : Layout := ⟨fun _ => [], [':']⟩

def Layout.pretty : Layout := ⟨fun depth => '\n' :: List.replicate (2 * depth) ' ', [':', ' ']⟩

def writeBool : Bool → List Char
  | true => ['t', 'r', 'u', 'e']
  | false => ['f', 'a', 'l', 's', 'e']

mutual
/-- The text of a value whose container is at the given depth. -/
def write (l : Layout) (depth : Nat) : Json → List Char
  | .null => ['n', 'u', 'l', 'l']
  | .bool b => writeBool b
  | .number n => n.write
  | .string s => quote s
  | .array [] => ['[', ']']
  | .array (j :: js) =>
    '[' :: l.lead (depth + 1) ++ write l (depth + 1) j ++ writeItems l (depth + 1) js ++
      l.lead depth ++ [']']
  | .object [] => ['{', '}']
  | .object ((k, j) :: ms) =>
    '{' :: l.lead (depth + 1) ++ quote k ++ l.colon ++ write l (depth + 1) j ++
      writeMembers l (depth + 1) ms ++ l.lead depth ++ ['}']
def writeItems (l : Layout) (depth : Nat) : List Json → List Char
  | [] => []
  | j :: js => ',' :: l.lead depth ++ write l depth j ++ writeItems l depth js
def writeMembers (l : Layout) (depth : Nat) : List (String × Json) → List Char
  | [] => []
  | (k, j) :: ms =>
    ',' :: l.lead depth ++ quote k ++ l.colon ++ write l depth j ++ writeMembers l depth ms
end

def compact (j : Json) : String := String.ofList (write .compact 0 j)

def pretty (j : Json) : String := String.ofList (write .pretty 0 j)

end AgentMemory.Json
