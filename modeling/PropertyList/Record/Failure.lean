import PropertyList.Heap.Basic
import PropertyList.Text.Display

/-!
# Failures of decoding and encoding

A failure is a fault of the data that is decoded, a fault of the record that is encoded, or
something that the record or its callbacks have no business to do. The first two name the field at
fault as soon as it is known.

## Main definitions

* `DecodeFault`, `EncodeFault`, `Failure`
* `Failure.message`
-/

namespace PropertyList

/-- What is wrong with the data for a field. -/
inductive DecodeFault where
  /-- An object of the wrong variant. -/
  | wrongKind (expected actual : ObjectKind)
  /-- A text that does not spell a value of its type. -/
  | malformed (type : Text) (text : Text)
  /-- A text that spells a number its type has no room for. -/
  | outOfRange (type : Text) (text : Text)
  /-- A value that a callback turns down. -/
  | refused (message : Text) (text : Option Text)
  /-- A required key that is missing. -/
  | missingKey (key : Text)
  /-- A name that is not in the table of its type. -/
  | unknownName (name : Option Text)
  /-- A number that is not in the table of its type, as messages show it. -/
  | unknownValue (value : Text)
  /-- A text too long for a buffer of `length` bytes. -/
  | tooLong (length : Int) (text : Text)
  deriving DecidableEq, Repr

/-- The wording of a fault. -/
def DecodeFault.message : DecodeFault → Text
  | wrongKind expected actual => "expected " ++ expected.word ++ ", got " ++ actual.word
  | malformed type text => "not a valid " ++ type ++ ": " ++ text.display
  | outOfRange type text => type ++ " out of range: " ++ text.display
  | refused message _ => message
  | missingKey key => "required key " ++ key.display ++ " not found"
  | unknownName name => "enum name " ++ Text.displayOption name ++ " not in table"
  | unknownValue value => "enum value " ++ value ++ " not in table"
  | tooLong length text =>
    "charbuf size " ++ .ofInt length ++ " too small for " ++ text.display ++ " ("
      ++ .ofNat text.encode.length ++ " + 1 bytes)"

/-- What is wrong with the value of an attribute. -/
inductive EncodeFault where
  /-- A number that the type of the field has no room for, as messages show it. -/
  | outOfRange (type : Text) (value : Text)
  /-- Null where there has to be a value of the kind `what`. -/
  | missing (what : Text)
  /-- A field without a way to be encoded. -/
  | noEncoder (key : Text)
  /-- A key that the dictionary has already. -/
  | duplicateKey (key : Text)
  /-- A value that a callback turns down. -/
  | refused (message : Text)
  deriving DecidableEq, Repr

/-- The wording of a fault. -/
def EncodeFault.message : EncodeFault → Text
  | outOfRange type value => type ++ " out of range: " ++ value
  | missing what => "cannot encode a missing " ++ what
  | noEncoder key => "no encoder for field " ++ key.display
  | duplicateKey key => "duplicate key " ++ key.display
  | refused message => message

/-- A value of a kind that an operation has no use for. `kind` is the name of that kind. -/
inductive KindFault where
  | notText (kind : Text)
  | notComparable (kind : Text)
  | notReal (kind : Text)
  | notIterable (kind : Text)
  /-- A value of which no part can be taken. -/
  | notSubscriptable (kind : Text)
  /-- A value to which no text can be appended. -/
  | notAppendable (kind : Text)
  /-- A text that is to be appended to a list. -/
  | textToList
  deriving DecidableEq, Repr

/-- The wording of a fault. -/
def KindFault.message : KindFault → Text
  | notText kind => "string value must be str or bytes, not " ++ kind
  | notComparable kind =>
    "'<=' not supported between instances of 'int' and '" ++ kind ++ "'"
  | notReal kind => "float() argument must be a string or a real number, not '" ++ kind ++ "'"
  | notIterable kind => "'" ++ kind ++ "' object is not iterable"
  | notSubscriptable kind => "'" ++ kind ++ "' object is not subscriptable"
  | notAppendable kind => "unsupported operand type(s) for +: '" ++ kind ++ "' and 'str'"
  | textToList => "can only concatenate list (not \"str\") to list"

/-- A number or a numeral that is not to be converted. -/
inductive NumberFault where
  /-- An integer numeral with more digits than are converted. -/
  | tooManyDigits (count : Nat)
  /-- A text that does not spell a real number. -/
  | notReal (text : Text)
  /-- A real number that is to be written in hexadecimal digits. -/
  | notHexadecimal
  deriving DecidableEq, Repr

/-- The greatest number of digits in an integer numeral that is converted. -/
def digitLimit : Nat := 4300

/-- The wording of a fault. -/
def NumberFault.message : NumberFault → Text
  | tooManyDigits count =>
    "Exceeds the limit (" ++ .ofNat digitLimit ++ " digits) for integer string conversion: "
      ++ "value has " ++ .ofNat count ++ " digits; "
      ++ "use sys.set_int_max_str_digits() to increase the limit"
  | notReal text => "could not convert string to float: " ++ text.display
  | notHexadecimal => "Unknown format code 'x' for object of type 'float'"

/-- Why decoding or encoding fails. -/
inductive Failure where
  /-- The data is at fault, under `key` if that is known. -/
  | decode (fault : DecodeFault) (key : Option Text)
  /-- The record is at fault, in the field for `key` if that is known. -/
  | encode (fault : EncodeFault) (key : Option Text)
  /-- A destroyed object was referred to. -/
  | misuse (m : Misuse)
  | kind (fault : KindFault)
  | number (fault : NumberFault)
  /-- An integer is too large for a double-precision number. -/
  | overflow
  /-- An attribute does not exist. -/
  | missingAttribute
  /-- A callback broke down. -/
  | crash (message : Text)
  deriving DecidableEq, Repr

namespace Failure

/-- The message of a failure. That of a missing attribute is empty. -/
def message : Failure → Text
  | decode fault _ => fault.message
  | encode fault _ => fault.message
  | misuse m => m.message
  | kind fault => fault.message
  | number fault => fault.message
  | overflow => "int too large to convert to float"
  | missingAttribute => []
  | crash message => message

/-- Names the field at fault, unless one is named already. -/
def blame (key : Text) : Failure → Failure
  | decode fault none => .decode fault (some key)
  | encode fault none => .encode fault (some key)
  | failure => failure

/-- Whether a failure is a fault of the data. -/
def isDecodeFault : Failure → Bool
  | decode _ _ => true
  | _ => false

end Failure

end PropertyList
