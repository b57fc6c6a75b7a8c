import AgentMemory.Number.Binary64

/-!
# JSON values

A value as it is stored and exchanged. Whole numbers of 64 bits keep their exact value and are apart
from floating-point ones. A value is **canonical** when the keys of every object stand in strictly
increasing order: free JSON is always held in this form, records keep the order of their fields.

Objects are laid over each other member by member, at every depth; a member that is null leaves what
is below it. Anything else takes the place of what is below.
-/

namespace AgentMemory

/-- A number: a whole one, or a finite floating-point one. -/
inductive Json.Number where
  | int (value : Int)
  | float (value : Binary64)
  deriving DecidableEq

/-- A JSON value. -/
inductive Json where
  | null
  | bool (value : Bool)
  | number (value : Json.Number)
  | string (value : String)
  | array (items : List Json)
  | object (members : List (String × Json))
  deriving Inhabited

namespace Json

def int (n : Int) : Json := .number (.int n)

def nat (n : Nat) : Json := .number (.int n)

def strings (l : List String) : Json := .array (l.map .string)

/-! ## Objects -/

/-- The value of a key, the first one when it is repeated. -/
def get? (key : String) : Json → Option Json
  | .object members => (members.find? (·.1 == key)).map (·.2)
  | _ => none

/-- Puts a member in key order, replacing the value of an equal key. -/
def insertMember (key : String) (value : Json) : List (String × Json) → List (String × Json)
  | [] => [(key, value)]
  | (k, v) :: rest =>
    if key < k then (key, value) :: (k, v) :: rest
    else if k < key then (k, v) :: insertMember key value rest
    else (key, value) :: rest

/-- Members in key order, the last value of a repeated key. -/
def ordered (members : List (String × Json)) : List (String × Json) :=
  members.foldl (fun acc m => insertMember m.1 m.2 acc) []

mutual
/-- The canonical form: object members in key order at every depth. -/
def canonical : Json → Json
  | .array items => .array (canonicalItems items)
  | .object members => .object (ordered (canonicalMembers members))
  | .null => .null
  | .bool b => .bool b
  | .number n => .number n
  | .string s => .string s
def canonicalItems : List Json → List Json
  | [] => []
  | j :: js => j.canonical :: canonicalItems js
def canonicalMembers : List (String × Json) → List (String × Json)
  | [] => []
  | (k, j) :: ms => (k, j.canonical) :: canonicalMembers ms
end

/-! ## Equality -/

/-- Equality of numbers: a whole number differs from a floating-point one, and the two
floating-point zeros are equal. -/
def Number.same : Number → Number → Bool
  | .int a, .int b => a == b
  | .float x, .float y => x.same y
  | _, _ => false

mutual
/-- Equality of values, up to the sign of a floating-point zero. -/
def same : Json → Json → Bool
  | .null, .null => true
  | .bool a, .bool b => a == b
  | .number m, .number n => m.same n
  | .string s, .string t => s == t
  | .array xs, .array ys => sameItems xs ys
  | .object ms, .object ns => sameMembers ms ns
  | _, _ => false
def sameItems : List Json → List Json → Bool
  | [], [] => true
  | x :: xs, y :: ys => x.same y && sameItems xs ys
  | _, _ => false
def sameMembers : List (String × Json) → List (String × Json) → Bool
  | [], [] => true
  | (k, x) :: ms, (l, y) :: ns => k == l && x.same y && sameMembers ms ns
  | _, _ => false
end

instance : BEq Json := ⟨same⟩


/-! ## Laying one value over another -/

def isNull : Json → Bool
  | .null => true
  | _ => false

mutual
/-- The second value laid over the first. -/
def overlay (below : Json) : Json → Json
  | .object above =>
    match below with
    | .object members => .object (overlayMembers members above)
    | _ => .object above
  | above => above
/-- Members laid over those of an object, one after the other. -/
def overlayMembers (below : List (String × Json)) :
    List (String × Json) → List (String × Json)
  | [] => below
  | (key, j) :: above =>
    let laid :=
      if j.isNull then below
      else match (Json.object below).get? key with
        | some old => insertMember key (overlay old j) below
        | none => insertMember key j below
    overlayMembers laid above
end

end Json
end AgentMemory
