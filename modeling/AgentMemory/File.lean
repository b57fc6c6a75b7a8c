/-!
# Files

What an entry of a directory can hold, as far as reading it as text goes. Whether there is an entry
at all is for the directory to say.
-/

namespace AgentMemory

/-- An entry of a directory. -/
inductive File where
  /-- A file whose bytes are the UTF-8 form of a text. -/
  | text (content : String)
  /-- A file whose bytes are no text. -/
  | binary
  | folder
  deriving DecidableEq

def File.ofBytes (bytes : ByteArray) : File :=
  match String.fromUTF8? bytes with
  | some content => text content
  | none => binary

/-- Why a file cannot be read or written. -/
inductive FileFault where
  | notFound
  | isADirectory
  | invalidData
  deriving DecidableEq

def FileFault.name : FileFault → String
  | notFound => "NotFound"
  | isADirectory => "IsADirectory"
  | invalidData => "InvalidData"

def File.read : File → Except FileFault String
  | text content => .ok content
  | binary => .error .invalidData
  | folder => .error .isADirectory

/-- The path of a name in a directory; an absolute name is a path already. -/
def joinPath (dir name : String) : String :=
  if name.startsWith "/" then name
  else if dir.isEmpty || dir.endsWith "/" then dir ++ name
  else dir ++ "/" ++ name

end AgentMemory
