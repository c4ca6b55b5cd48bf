import PropertyList.Number.Typed
import PropertyList.Record.Failure

/-!
# Command line arguments

The command takes the name of a file and options. An option may be shortened as long as it is not
ambiguous, and its argument follows it, or is joined to it by an equals sign. Short options without
arguments may be run together. After two dashes nothing is an option any more. Anything that looks
like a negative number or contains a blank is no option unless it is one of those known. The last
one of repeated options counts.

Two dashes that stand where an argument is expected are dropped. An option to which they are joined
is left without a number.

First every argument is classified, and then they are taken from left to right.

## Main definitions

* `Settings`, `UsageError`
* `Settings.ofArguments`
-/

namespace PropertyList.Command

/-- The options of the command. -/
inductive Switch where
  | help
  | indentation
  | maxSize
  | verbose
  deriving DecidableEq, Repr

namespace Switch

/-- The spellings of the options. -/
def spellings : List (Text × Switch) :=
  [("-h", help), ("--help", help), ("--indentation", indentation), ("--max-size", maxSize),
    ("-v", verbose), ("--verbose", verbose)]

/-- Whether an option has an argument. -/
def takesArgument : Switch → Bool
  | indentation | maxSize => true
  | help | verbose => false

/-- An option as messages name it. -/
def label (s : Switch) : Text :=
  Text.join "/" ((spellings.filter fun entry => entry.2 == s).map (·.1))

end Switch

/-- Why arguments are refused. -/
inductive UsageError where
  | ambiguous (argument : Text) (candidates : List Text)
  | missingArgument (s : Switch)
  /-- An argument joined to an option that takes none. -/
  | needlessArgument (s : Switch) (argument : Text)
  | notAnInteger (s : Switch) (argument : Text)
  | missingFile
  | unrecognized (arguments : List Text)
  deriving DecidableEq, Repr

/-- The wording of a usage error. -/
def UsageError.message : UsageError → Text
  | ambiguous argument candidates =>
    "ambiguous option: " ++ argument ++ " could match " ++ Text.join ", " candidates
  | missingArgument s => "argument " ++ s.label ++ ": expected one argument"
  | needlessArgument s argument =>
    "argument " ++ s.label ++ ": ignored explicit argument " ++ argument.display
  | notAnInteger s argument =>
    "argument " ++ s.label ++ ": invalid int value: " ++ argument.display
  | missingFile => "the following arguments are required: PLIST_FILE"
  | unrecognized arguments => "unrecognized arguments: " ++ Text.join " " arguments

/-- What an argument is taken for. -/
inductive Class where
  /-- An option in the spelling `spelling`, with what is joined to it. -/
  | option (s : Switch) (spelling : Text) (joined : Option Text)
  /-- Something that could be an option, but is none of those known. -/
  | unknown
  /-- The two dashes after which nothing is an option. -/
  | separator
  | plain
  deriving DecidableEq, Repr

/-- Splits a text at its first equals sign. -/
def splitEquals (t : Text) : Text × Option Text :=
  match t.dropWhile (· ≠ .char '=') with
  | [] => (t, none)
  | _ :: joined => (t.takeWhile (· ≠ .char '='), some joined)

/-- Whether a text looks like a negative number. -/
def isNegativeNumber (t : Text) : Bool :=
  match t with
  | .char '-' :: rest =>
    let rest := if rest.getLast? = some (.char '\n') then rest.dropLast else rest
    let isDigit (p : Point) : Bool := p.digit?.isSome
    match rest.dropWhile isDigit with
    | [] => !rest.isEmpty
    | p :: fraction => p == .char '.' && !fraction.isEmpty && fraction.all isDigit
  | _ => false

/-- The options that an argument may be short for. -/
def candidates (t : Text) : List (Text × Class) :=
  if List.isPrefixOf ("--" : Text) t then
    let (short, joined) := splitEquals t
    (Switch.spellings.filter fun entry => short.isPrefixOf entry.1).map fun (spelling, s) =>
      (spelling, .option s spelling joined)
  else
    Switch.spellings.filterMap fun (spelling, s) =>
      if spelling = t.take 2 then some (spelling, .option s spelling (some (t.drop 2)))
      else if t.isPrefixOf spelling then some (spelling, .option s spelling none)
      else none

/-- What an argument in front of two dashes is taken for. -/
def classify (t : Text) : Except UsageError Class :=
  let (front, joined) := splitEquals t
  match t, Switch.spellings.lookup t, joined.bind fun _ => Switch.spellings.lookup front with
  | .char '-' :: _ :: _, some s, _ => .ok (.option s t none)
  | .char '-' :: _ :: _, none, some s => .ok (.option s front joined)
  | .char '-' :: _ :: _, none, none =>
    match candidates t with
    | [(_, c)] => .ok c
    | [] =>
      if isNegativeNumber t || .char ' ' ∈ t then .ok .plain else .ok .unknown
    | several => .error (.ambiguous t (several.map (·.1)))
  | _, _, _ => .ok .plain

/-- What arguments are taken for. -/
def classifyAll : List Text → Except UsageError (List (Text × Class))
  | [] => .ok []
  | t :: ts =>
    if t = "--" then .ok ((t, .separator) :: ts.map fun u => (u, .plain))
    else do
      let c ← classify t
      return (t, c) :: (← classifyAll ts)

/-- What the arguments ask for. -/
structure Settings where
  file : Option Text
  /-- The indentation, unless the option is left without a number. -/
  indentation : Option Int
  /-- The greatest size of the output, unless the option is left without a number. -/
  maxSize : Option Int
  verbose : Bool
  help : Bool
  /-- Arguments that mean nothing. -/
  extras : List Text
  deriving DecidableEq, Repr

namespace Settings

/-- The settings without any argument. -/
def initial : Settings := ⟨none, some 4, some 0x7FFFFFFFFFFFFFFF, false, false, []⟩

/-- The integer that an argument spells. Two dashes are dropped and leave none. -/
def integer (s : Switch) (t : Text) : Except UsageError (Option Int) :=
  if t = "--" then .ok none
  else
    match Numeral.typedInteger? t with
    | some (negative, digits) =>
      if digitLimit < digits.length then .error (.notAnInteger s t)
      else .ok (some (Numeral.integerOf negative digits))
    | none => .error (.notAnInteger s t)

/-- The settings after an option without an argument. -/
def turnOn (settings : Settings) : Switch → Settings
  | .help => { settings with help := true }
  | .verbose => { settings with verbose := true }
  | .indentation | .maxSize => settings

/-- The settings after an option with an argument. -/
def assign (settings : Settings) (s : Switch) (t : Text) : Except UsageError Settings := do
  match s with
  | .indentation => return { settings with indentation := ← integer s t }
  | .maxSize => return { settings with maxSize := ← integer s t }
  | .help | .verbose => return settings

/-- The settings after the option `s`, to which the letters of further options are joined. An error
names the last option in front of the letter that is none. -/
def turnOnAll (settings : Settings) (s : Switch) : Text → Except UsageError Settings
  | [] => .ok (settings.turnOn s)
  | p :: rest =>
    match Switch.spellings.lookup [.char '-', p] with
    | none => .error (.needlessArgument s (p :: rest))
    | some next => (settings.turnOn s).turnOnAll next rest

/-- Takes arguments from left to right. The first that is no option is the file, and two dashes next
to it are passed over. Asking for help ends it. -/
def take (settings : Settings) : List (Text × Class) → Except UsageError Settings
  | [] => .ok settings
  | (_, .option s spelling joined) :: rest => do
    match s.takesArgument, joined, rest with
    | true, some joined, rest => (← settings.assign s joined).take rest
    | true, none, (t, .plain) :: rest => (← settings.assign s t).take rest
    | true, none, _ => throw (.missingArgument s)
    | false, none, rest =>
      let settings := settings.turnOn s
      if settings.help then return settings else settings.take rest
    | false, some joined, rest =>
      if spelling.length = 2 ∧ joined ≠ [] then
        let settings ← settings.turnOnAll s joined
        if settings.help then return settings else settings.take rest
      else throw (.needlessArgument s joined)
  | (t, .unknown) :: rest => { settings with extras := settings.extras ++ [t] }.take rest
  | (t, c) :: rest =>
    if settings.file.isSome then { settings with extras := settings.extras ++ [t] }.take rest
    else
      match c, rest with
      | .separator, (u, .plain) :: rest => { settings with file := some u }.take rest
      | .separator, rest => { settings with extras := settings.extras ++ [t] }.take rest
      | _, (_, .separator) :: rest => { settings with file := some t }.take rest
      | _, rest => { settings with file := some t }.take rest
  termination_by arguments => arguments.length

/-- Refuses settings without a file or with arguments that mean nothing. -/
def check (settings : Settings) : Except UsageError Settings :=
  if settings.help then .ok settings
  else if settings.file.isNone then .error .missingFile
  else if settings.extras ≠ [] then .error (.unrecognized settings.extras)
  else .ok settings

/-- The settings that arguments ask for. -/
def ofArguments (arguments : List Text) : Except UsageError Settings := do
  (← initial.take (← classifyAll arguments)).check

end Settings

end PropertyList.Command
