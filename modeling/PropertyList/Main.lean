import PropertyList.Command.Run

/-!
# The command line program

Hands the arguments of the process to the command, with the file system to read from, and gives
out what the command leaves behind.
-/

namespace PropertyList.Command

/-- The reason with a number, which may be given negated. -/
def reason (number : UInt32) (details : String) : SystemError :=
  let n := number.toNat
  let n := if n < 0x80000000 then n else 0x100000000 - n
  let known : List SystemError := [.noEntry, .notDirectory, .isDirectory, .nameTooLong]
  (known.find? (·.number == n)).getD ⟨n, .ofString details⟩

/-- The reason for which the system refuses to read a file. -/
def systemError : IO.Error → SystemError
  | .noFileOrDirectory _ number details | .inappropriateType _ number details
  | .permissionDenied _ number details | .resourceExhausted _ number details
  | .invalidArgument _ number details | .otherError number details => reason number details
  | e => ⟨5, .ofString e.toString⟩

/-- Reads the file that the arguments name, as far as they name one. -/
def readNamedFile (arguments : List Text) : IO FileReader := do
  match Settings.ofArguments arguments with
  | .error _ => return fun _ => .error .noEntry
  | .ok settings =>
    match settings.file.bind fun path => String.fromUTF8? path.encode.toByteArray with
    | none => return fun _ => .error .noEntry
    | some name =>
      try
        let bytes ← IO.FS.readBinFile name
        return fun _ => .ok bytes.toList
      catch e => return fun _ => .error (systemError e)

end PropertyList.Command

open PropertyList in
/-- Runs the command on the arguments of the process. -/
def main (arguments : List String) : IO UInt32 := do
  let arguments := arguments.map Text.ofString
  let read ← Command.readNamedFile arguments
  let outcome : Command.Outcome :=
    match Command.execute read arguments .empty with
    | .ok outcome _ => outcome
    | .error e _ => ⟨1, [], e.message⟩
  (← IO.getStdout).write outcome.output.toByteArray
  unless outcome.message.isEmpty do
    let stderr ← IO.getStderr
    stderr.write (outcome.message ++ [.char '\n'] : Text).encode.toByteArray
  return outcome.status.toUInt32
