import PropertyList.Buffer.Writing
import PropertyList.Command.Arguments
import PropertyList.File.Document
import PropertyList.Heap.View

/-!
# The command

The command parses the document in a file and writes it back, indented and followed by a line feed.
It writes either the whole document or nothing. It gives back every object it has made.

## Main definitions

* `Outcome`, and `Breakdown` where there is none
* `run`, the command with given settings
* `execute`, the command with given arguments
-/

namespace PropertyList.Command

/-- What the command leaves behind. -/
structure Outcome where
  /-- The exit status: 0 for success, 1 for a document that cannot be read or written, 2 for
  arguments that are refused. -/
  status : Nat
  output : Bytes
  message : Text
  deriving DecidableEq, Repr

/-- Why the command ends without an outcome. -/
inductive Breakdown where
  /-- The name of the file contains a zero character, which no name does. -/
  | zeroInPath
  /-- An option that needs a number is left without one. -/
  | noNumber (s : Switch)
  /-- The output cannot be written. -/
  | buffer (e : BufferError)
  /-- A destroyed object was referred to. -/
  | misuse (m : Misuse)
  deriving DecidableEq, Repr

/-- How messages call the comparison that a number is tested by. -/
def Switch.comparison : Switch → Text
  | .maxSize => "<="
  | .indentation | .help | .verbose => "<"

/-- The message of a breakdown. -/
def Breakdown.message : Breakdown → Text
  | zeroInPath => FileError.zeroInPath.message
  | noNumber s => "'" ++ s.comparison ++ "' not supported between instances of 'list' and 'int'"
  | buffer e => e.message
  | misuse m => m.message

/-- The command's name. -/
def name : Text := "stepplist-parse"

/-- The capacity that the output buffer starts with, unless its maximum is less. -/
def initialCapacity : Int := 0x10000

/-- The outcome for arguments that are refused. -/
def refused (message : Text) : Outcome :=
  ⟨2, [], name ++ ": error: " ++ message⟩

/-- The outcome for a document that cannot be parsed. -/
def unparsed (path : Text) (e : FileError) : Outcome :=
  ⟨1, [], "Failed to parse " ++ path.display ++ ": " ++ e.message⟩

/-- The outcome for a document that cannot be written. -/
def unwritten (path : Text) (maxSize : Int) : Outcome :=
  ⟨1, [], "Failed to write " ++ path.display ++ ": output exceeds " ++ .ofInt maxSize ++ " bytes"⟩

/-- Writes a tree with an indentation into a buffer of a limited size. -/
def write (path : Text) (indentation maxSize : Int) (t : Tree) : Except Breakdown Outcome :=
  match t.dump indentation 0 (min initialCapacity maxSize) maxSize with
  | .ok bytes => .ok ⟨0, bytes ++ [0x0A], []⟩
  | .error (.full _) => .ok (unwritten path maxSize)
  | .error (.buffer e) => .error (.buffer e)

/-- Runs the command on a file. -/
def run (read : FileReader) (path : Text) (indentation maxSize : Int) :
    EStateM Breakdown Heap Outcome := fun h =>
  match Document.parseFile read path h with
  | .error .zeroInPath h => .error .zeroInPath h
  | .error e h => .ok (unparsed path e) h
  | .ok root h =>
    let written := write path indentation maxSize (h.tree root)
    match Heap.release root h, written with
    | .error misuse h, _ => .error (.misuse misuse) h
    | .ok () h, .ok outcome => .ok outcome h
    | .ok () h, .error breakdown => .error breakdown h

/-- The number that an option is given. -/
def numberFor (s : Switch) : Option Int → EStateM Breakdown Heap Int
  | some n => return n
  | none => throw (.noNumber s)

/-- Runs the command on a file with settings, of which the numbers have to be in range. -/
def runWith (read : FileReader) (path : Text) (settings : Settings) :
    EStateM Breakdown Heap Outcome := do
  let indentation ← numberFor .indentation settings.indentation
  if indentation < 0 then return refused "--indentation must not be negative"
  let maxSize ← numberFor .maxSize settings.maxSize
  if maxSize ≤ 0 then return refused "--max-size must be positive"
  run read path indentation maxSize

/-- Runs the command with arguments. -/
def execute (read : FileReader) (arguments : List Text) : EStateM Breakdown Heap Outcome := do
  match Settings.ofArguments arguments with
  | .error e => return refused e.message
  | .ok settings =>
    match settings.help, settings.file with
    | false, some path => runWith read path settings
    | _, _ => return ⟨0, [], []⟩

end PropertyList.Command
