import PackagePlanner.Toml.Reader
import PackagePlanner.Version

/-!
What can be wrong with a TOML file, and reading plain values.

* A `Fault` is a text that is no TOML document or does not have the expected form. Only some faults
  are worded; of the others just the fact is reported.
* `Toml.parse` reads a document, and `Value.asText` and its like read a value of an expected kind.
-/

namespace PackagePlanner.Toml

/-- Why a text is not accepted. -/
inductive Fault where
  /-- The text is no document, or a value is not of the expected kind. -/
  | unexpected
  | malformed (cause : Malformed)
  | missingField (name : String)
  | unknownField (name : String) (expected : List String)
deriving DecidableEq, Repr

/-- A field name as messages show it. -/
def fieldName (name : String) : String := "`" ++ name ++ "`"

/-- The expected field names of a message. -/
def expectation : List String → String
  | [a, b] => fieldName a ++ " or " ++ fieldName b
  | names => "one of " ++ ", ".intercalate (names.map fieldName)

/-- The message of a fault that has one. -/
def Fault.message? : Fault → Option String
  | .unexpected => none
  | .malformed cause => some cause.message
  | .missingField name => some ("missing field " ++ fieldName name)
  | .unknownField name expected =>
    some ("unknown field " ++ fieldName name ++ ", expected " ++ expectation expected)

/-- A fault as a report shows it. -/
def Fault.text (fault : Fault) : String :=
  "TOML parse error" ++
    match fault.message? with
    | some message => "\n" ++ message ++ "\n"
    | none => "\n"

/-- The tables of a document. -/
def parse (text : String) : Except Fault Members :=
  match read? text.toList with
  | some members => .ok members
  | none => .error .unexpected

/-- A text. -/
def Value.asText : Value → Except Fault String
  | .text s => .ok s
  | _ => .error .unexpected

/-- A truth value. -/
def Value.asBoolean : Value → Except Fault Bool
  | .boolean b => .ok b
  | _ => .error .unexpected

end PackagePlanner.Toml
