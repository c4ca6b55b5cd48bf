import PropertyList.Document.Parse

/-!
# Documents in files

A document is read from a file as a whole and then parsed. A file that cannot be read is reported
with the number and the text that the system gives for the reason.

## Main definitions

* `SystemError`, `FileError`
* `Document.parseFile`
-/

namespace PropertyList

/-- The reason of the system for refusing to read a file. -/
structure SystemError where
  number : Nat
  text : Text
  deriving DecidableEq, Repr

namespace SystemError

/-- A name on the path that does not exist. -/
def noEntry : SystemError := ⟨2, "No such file or directory"⟩

/-- A file on the path where there has to be a folder. -/
def notDirectory : SystemError := ⟨20, "Not a directory"⟩

/-- A folder at the end of the path. -/
def isDirectory : SystemError := ⟨21, "Is a directory"⟩

/-- A path, or a name on it, that is too long. -/
def nameTooLong : SystemError := ⟨36, "File name too long"⟩

end SystemError

/-- Why there is no document in a file. -/
inductive FileError where
  /-- The name of the file contains a zero character, which no name does. -/
  | zeroInPath
  | unreadable (path : Text) (reason : SystemError)
  | parse (e : ParseError)
  deriving DecidableEq, Repr

/-- The message of a file error. -/
def FileError.message : FileError → Text
  | zeroInPath => "embedded null byte"
  | unreadable path reason =>
    "cannot read " ++ path.display ++ ": [Errno " ++ .ofNat reason.number ++ "] " ++ reason.text
      ++ ": " ++ path.display
  | parse e => e.message

/-- What reading files gives: the bytes of the file with a given name. -/
abbrev FileReader := Text → Except SystemError Bytes

/-- The root object of the document in a file. -/
def Document.parseFile (read : FileReader) (path : Text) : EStateM FileError Heap ObjectId :=
  fun h =>
    if .char '\x00' ∈ path then .error .zeroInPath h
    else
      match read path with
      | .error reason => .error (.unreadable path reason) h
      | .ok bytes =>
        match Document.parseBytes bytes h with
        | .ok root h => .ok root h
        | .error e h => .error (.parse e) h

end PropertyList
