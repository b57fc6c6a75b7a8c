import AgentMemory.Json.Token

/-!
# Documents: the shape of a JSON text, faults included

A document is the tree of a text as far as it can be read. Where the text is at fault the tree holds
the fault in its place, and nothing follows it. A decoder walks the tree in the order of the text,
so of two faults it always reports the one that comes first, whether it is a fault of the text or a
value of the wrong shape.

`Doc.parse` reads the tree of a text, one token after another, with the open containers on a stack;
`Doc.ofJson` is the tree of a value, which has no fault.
-/

namespace AgentMemory.Json

/-- How the reading of a container ends: at its closing bracket, or at a fault. -/
inductive Ending where
  | closed
  | cut (fault : Fault)
  deriving DecidableEq

/-- Passes if the container was closed. -/
def Ending.check : Ending → Except Fault Unit
  | .closed => .ok ()
  | .cut f => .error f

/-- The tree of a text. A container is `deep` when more than `maxDepth` containers are open at it. A
number out of range and a text with a lone surrogate have no value; the key of a member is the text
or what is at fault with it. -/
inductive Doc where
  | null
  | bool (value : Bool)
  | number (value : Option Number)
  | text (value : Option String)
  | array (deep : Bool) (items : List Doc) (ending : Ending)
  | object (deep : Bool) (members : List (Except Breakage String × Doc)) (ending : Ending)
  | broken (breakage : Breakage)
  deriving Inhabited

namespace Doc

/-- The number of containers that may be open at once where a value is read. -/
def maxDepth : Nat := 127

/-! ## Reading a text -/

/-- The key of a member, or what is at fault with it. -/
abbrev Key := Except Breakage String

/-- The key of a member of an object. -/
def keyText (key : Key) : Except Fault String := key.mapError (·.asValue)

def keyName (key : Key) : Except Fault String := key.mapError (·.asName)

/-- A container that is still open, its entries in reverse. -/
inductive Frame where
  | array (deep : Bool) (items : List Doc)
  | object (deep : Bool) (members : List (Key × Doc))
  /-- An object whose last member has its key but no value yet. -/
  | member (deep : Bool) (members : List (Key × Doc)) (key : Key)

/-- What may come next in the innermost open container. -/
inductive Phase where
  /-- It has just been opened: an entry or the closing bracket. -/
  | opening
  /-- A comma has been read: an entry. -/
  | entry
  /-- An entry has been read: a comma or the closing bracket. -/
  | separator
  /-- A key has been read: a colon. -/
  | colon
  /-- A value. -/
  | value
  deriving DecidableEq

/-- A step of the reading: it goes on, or the document is complete, or it stops at a fault. -/
inductive Step where
  | next (phase : Phase) (frames : List Frame)
  | complete (doc : Doc)
  | stop (doc : Doc)

def Frame.put (doc : Doc) : Frame → Frame
  | .array deep items => .array deep (doc :: items)
  | .object deep members => .object deep members
  | .member deep members key => .object deep ((key, doc) :: members)

def Frame.close (ending : Ending) : Frame → Doc
  | .array deep items => .array deep items.reverse ending
  | .object deep members => .object deep members.reverse ending
  | .member deep members _ => .object deep members.reverse ending

/-- The document of a reading that stops inside the open containers. -/
def unwind (f : Fault) : List Frame → Doc → Doc
  | [], doc => doc
  | frame :: frames, doc => unwind f frames ((frame.put doc).close (.cut f))

/-- A value has been read. -/
def finish (doc : Doc) : List Frame → Step
  | [] => .complete doc
  | frame :: frames => .next .separator (frame.put doc :: frames)

/-- The reading stops where a value was expected. -/
def failValue (b : Breakage) (frames : List Frame) : Step :=
  .stop (unwind b.asValue frames (.broken b))

/-- The reading stops inside the innermost container, between its entries. -/
def failEntry (f : Fault) : List Frame → Step
  | [] => .stop (.broken (.plain f))
  | frame :: frames => .stop (unwind f frames (frame.close (.cut f)))

/-- The reading stops where a key was expected. -/
def failKey (b : Breakage) (deep : Bool) (members : List (Key × Doc)) (frames : List Frame) :
    Step :=
  let members := (.error b, .broken b) :: members
  .stop (unwind b.asValue frames ((Frame.object deep members).close (.cut b.asValue)))

/-- A token where a value is expected. -/
def stepValue (frames : List Frame) : Token → Step
  | .null => finish .null frames
  | .bool b => finish (.bool b) frames
  | .number n => finish (.number n) frames
  | .text s => finish (.text s) frames
  | .openArray => .next .opening (.array (decide (maxDepth ≤ frames.length)) [] :: frames)
  | .openObject => .next .opening (.object (decide (maxDepth ≤ frames.length)) [] :: frames)
  | .bad b | .badText b => failValue b frames
  | .closeArray | .closeObject | .comma | .colon => failValue (.plain .malformed) frames

/-- How anything but a quoted text is at fault as a key. Where the key names a choice it is taken
for a value, which is of the wrong kind if it is one. -/
def misplacedKey : Token → Breakage
  | .null | .bool _ | .number (some _) | .openArray | .openObject =>
    ⟨.malformed, .malformed, .mismatch⟩
  | .bad b => ⟨.malformed, .malformed, b.asValue⟩
  | _ => .plain .malformed

/-- A token where the key of a member is expected. -/
def stepKey (deep : Bool) (members : List (Key × Doc)) (frames : List Frame) : Token → Step
  | .text (some s) => .next .colon (.member deep members (.ok s) :: frames)
  | .text none => .next .colon (.member deep members (.error (.plain .malformed)) :: frames)
  | .badText b => failKey b deep members frames
  | t => failKey (misplacedKey t) deep members frames

/-- A token where an entry of the innermost container is expected. -/
def stepEntry (frames : List Frame) (t : Token) : Step :=
  match frames with
  | .object deep members :: rest => stepKey deep members rest t
  | frames => stepValue frames t

/-- Whether a token closes a container. -/
def closes : Token → Frame → Bool
  | .closeArray, .array .. => true
  | .closeObject, .object .. => true
  | _, _ => false

/-- One token. -/
def step (phase : Phase) (frames : List Frame) (t : Token) : Step :=
  match phase, frames with
  | .opening, frame :: rest =>
    if closes t frame then finish (frame.close .closed) rest else stepEntry frames t
  | .separator, frame :: rest =>
    if closes t frame then finish (frame.close .closed) rest
    else match t with
      | .comma => .next .entry frames
      | _ => failEntry .malformed frames
  | .colon, .member deep members key :: rest =>
    match t with
    | .colon => .next .value frames
    | _ => failValue (.plain .malformed) (.member deep members key :: rest)
  | .entry, frames => stepEntry frames t
  | _, frames => stepValue frames t

def stepEnd (phase : Phase) (frames : List Frame) : Step :=
  match phase, frames with
  | .opening, .object deep members :: rest
  | .entry, .object deep members :: rest => failKey (.plain .truncated) deep members rest
  | .separator, frames => failEntry .truncated frames
  | _, frames => failValue (.plain .truncated) frames

/-- Reads the tokens of a text. The flag tells whether anything but blanks follows the document. -/
def run (phase : Phase) (frames : List Frame) (cs : List Char) : Doc × Bool :=
  match nextToken cs with
  | none =>
    match stepEnd phase frames with
    | .next .. => (.broken (.plain .truncated), false)
    | .complete doc | .stop doc => (doc, false)
  | some (t, ⟨rest, _⟩) =>
    match step phase frames t with
    | .next phase frames => run phase frames rest
    | .complete doc => (doc, !(skipBlanks rest).isEmpty)
    | .stop doc => (doc, false)
termination_by cs.length

/-- The document of a text, and whether anything but blanks follows it. -/
def parse (s : String) : Doc × Bool := run .value [] s.toList

/-! ## The document of a value -/

mutual
def ofJson : Json → Doc
  | .null => .null
  | .bool b => .bool b
  | .number n => .number (some n)
  | .string s => .text (some s)
  | .array items => .array false (ofItems items) .closed
  | .object members => .object false (ofMembers members) .closed
def ofItems : List Json → List Doc
  | [] => []
  | j :: js => ofJson j :: ofItems js
def ofMembers : List (String × Json) → List (Key × Doc)
  | [] => []
  | (k, j) :: ms => (.ok k, ofJson j) :: ofMembers ms
end

/-! ## Reading a document as a value -/

mutual
/-- The value of a document, members of objects in the order of the text. -/
def content : Doc → Except Fault Json
  | .null => .ok .null
  | .bool b => .ok (.bool b)
  | .number (some n) => .ok (.number n)
  | .number none => .error .malformed
  | .text (some s) => .ok (.string s)
  | .text none => .error .malformed
  | .array true _ _ => .error .malformed
  | .array false items ending => do
    let js ← contentItems items
    ending.check
    return .array js
  | .object true _ _ => .error .malformed
  | .object false members ending => do
    let ms ← contentMembers members
    ending.check
    return .object ms
  | .broken b => .error b.asValue
def contentItems : List Doc → Except Fault (List Json)
  | [] => .ok []
  | d :: ds => do
    let j ← content d
    let js ← contentItems ds
    return j :: js
def contentMembers : List (Key × Doc) → Except Fault (List (String × Json))
  | [] => .ok []
  | (k, d) :: ms => do
    let k ← keyText k
    let j ← content d
    let rest ← contentMembers ms
    return (k, j) :: rest
end

mutual
/-- Passes over a document that nobody reads. Neither the range of numbers, the pairing of
surrogates nor the depth is looked at. -/
def skip : Doc → Except Fault Unit
  | .null | .bool _ | .number _ | .text _ => .ok ()
  | .array _ items ending => do
    skipItems items
    ending.check
  | .object _ members ending => do
    skipMembers members
    ending.check
  | .broken b => .error b.asSkipped
def skipItems : List Doc → Except Fault Unit
  | [] => .ok ()
  | d :: ds => do
    skip d
    skipItems ds
def skipMembers : List (Key × Doc) → Except Fault Unit
  | [] => .ok ()
  | (_, d) :: ms => do
    skip d
    skipMembers ms
end

end Doc

/-- The value of a text, members of objects in the order of the text. -/
def ofText (s : String) : Except Fault Json :=
  match Doc.parse s with
  | (doc, trailing) => do
    let j ← doc.content
    if trailing then .error .malformed else .ok j

end AgentMemory.Json
