import ChunkLedger.Json.Doc
import ChunkLedger.Hex
import ChunkLedger.Text.Quoted
import ChunkLedger.Time.Rfc3339

/-!
# What can be wrong with a JSON text

Either the text is no JSON (`Problem.form`), or it says something else than what was expected
(`Problem.content`).
-/

namespace ChunkLedger.Json

/-- what stands in the place of what was expected -/
inductive Seen where
  | null
  | bool (b : Bool)
  | number (n : Number)
  | text (s : String)
  | sequence
  | map
deriving DecidableEq, Repr

def Seen.describe : Seen → String
  | .null => "null"
  | .bool b => "boolean `" ++ (if b then "true" else "false") ++ "`"
  | .number (.double x) => "floating point `" ++ x.render ++ "`"
  | .number n => "integer `" ++ n.render ++ "`"
  | .text s => "string " ++ Text.quotedText s
  | .sequence => "sequence"
  | .map => "map"

inductive Mismatch where
  | wrongType (seen : Seen) (expected : String)
  | wrongValue (seen : Seen) (expected : String)
  /-- an array of `length` items -/
  | wrongLength (length : Nat) (expected : String)
  | unknownVariant (name : String) (known : List String)
  | missingField (name : String)
  | duplicateField (name : String)
  | hex (f : Hex.Fault)
  | instant (f : Rfc3339.Fault)
deriving DecidableEq, Repr

def inTicks (s : String) : String := "`" ++ s ++ "`"

def Mismatch.message : Mismatch → String
  | .wrongType s e => "invalid type: " ++ s.describe ++ ", expected " ++ e
  | .wrongValue s e => "invalid value: " ++ s.describe ++ ", expected " ++ e
  | .wrongLength n e => "invalid length " ++ toString n ++ ", expected " ++ e
  | .unknownVariant n known =>
    "unknown variant " ++ inTicks n ++ ", expected one of " ++ ", ".intercalate (known.map inTicks)
  | .missingField n => "missing field " ++ inTicks n
  | .duplicateField n => "duplicate field " ++ inTicks n
  | .hex f => f.message
  | .instant f => f.message

inductive Problem where
  | form (e : Break)
  | content (m : Mismatch)
deriving DecidableEq, Repr

def Break.message : Break → String
  | .ended => "EOF while parsing a value"
  | .malformed => "expected value"

def Problem.message : Problem → String
  | .form e => e.message
  | .content m => m.message

/-- a fault of the form, as a problem -/
def ofForm {α : Type} : Except Break α → Except Problem α
  | .ok a => .ok a
  | .error e => .error (.form e)

@[simp] theorem ofForm_ok {α : Type} (a : α) : ofForm (.ok a) = .ok a := rfl
@[simp] theorem ofForm_error {α : Type} (e : Break) :
    ofForm (.error e : Except Break α) = .error (.form e) := rfl

end ChunkLedger.Json
