import PageQuery.Field.Definition
import PageQuery.Field.NumberRange
import PageQuery.Field.ValuesList
import PageQuery.Query.Translation

/-!
Where the candidate values of a field come from: a list of its own, a query, or a note.
-/

namespace PageQuery

inductive Projection where
  /-- each row of the result is a candidate -/
  | values
  /-- each row is a page, whose path is the candidate -/
  | filePaths
deriving DecidableEq

inductive OptionSource where
  | values (values : List String)
  | query (query : String) (projection : Projection)
  | notePath (path : String)
  | unsupported
deriving DecidableEq

inductive FieldErrorCause where
  | missingOptions
  | missingSourceType
  | unknownSourceType (sourceType : String)
  | missingOption (key : String)
  | untranslatable (error : QueryError)
  | invalidNumberRange (fault : NumberRange.Fault)
deriving DecidableEq

/-- why the candidates of a field are not known -/
structure FieldError where
  field : String
  cause : FieldErrorCause
deriving DecidableEq

namespace FieldError

/-- the message; none where it would be the grammar's -/
def message? (e : FieldError) : Option String :=
  match e.cause with
  | .missingOptions => some s!"field '{e.field}' has no options"
  | .missingSourceType => some s!"field '{e.field}' has no sourceType"
  | .unknownSourceType sourceType =>
    some s!"field '{e.field}' has unknown sourceType '{sourceType}'"
  | .missingOption key => some s!"field '{e.field}' is missing option '{key}'"
  | .untranslatable error =>
    error.message?.map fun m => s!"field '{e.field}' query could not be translated: {m}"
  | .invalidNumberRange fault =>
    some s!"field '{e.field}' has an invalid number range: {fault.message}"

end FieldError

namespace Field

/-- the option with this key, which is a text with at least one character -/
def requiredText (f : Field) (key : String) : Except FieldErrorCause String :=
  match f.text? key with
  | some s => if s.isEmpty then .error (.missingOption key) else .ok s
  | none => .error (.missingOption key)

/-- the query that an option holds, lowered -/
def optionQuery (f : Field) (key : String) (d : Dialect) (projection : Projection) :
    Except FieldErrorCause OptionSource := do
  let text ← f.requiredText key
  match Translation.ofText text d with
  | .ok t => .ok (.query t.query projection)
  | .error e => .error (.untranslatable e)

/-- the candidates that the option `valuesList` lists -/
def listedValues (f : Field) : List String :=
  match (f.options.get? "valuesList").bind Json.object? with
  | some members => ValuesList.candidates members
  | none => []

/-- where a field with a source type takes its candidates from -/
def selectSource (f : Field) (d : Dialect) : Except FieldErrorCause OptionSource :=
  match f.options.object? with
  | none => .error .missingOptions
  | some _ =>
    match f.text? "sourceType" with
    | none => .error .missingSourceType
    | some "ValuesList" => .ok (.values f.listedValues)
    | some "ValuesFromDVQuery" => f.optionQuery "valuesFromDVQuery" d .values
    | some "ValuesListNotePath" => (f.requiredText "valuesListNotePath").map .notePath
    | some other => .error (.unknownSourceType other)

/-- the numbers that a field's options enumerate -/
def rangeSource (f : Field) : Except FieldErrorCause OptionSource :=
  match NumberRange.texts (f.double? "min") (f.double? "max") (f.double? "step") with
  | .ok ts => .ok (.values ts)
  | .error fault => .error (.invalidNumberRange fault)

/-- where a field takes its candidates from -/
def sourceCause (f : Field) (d : Dialect) : Except FieldErrorCause OptionSource :=
  match f.type with
  | .select => f.selectSource d
  | .cycle => f.selectSource d
  | .multi => f.selectSource d
  | .number => f.rangeSource
  | .file => f.optionQuery "dvQueryString" d .filePaths
  | .multiFile => f.optionQuery "dvQueryString" d .filePaths
  | _ => .ok .unsupported

/-- where a field takes its candidates from -/
def optionSource (f : Field) (d : Dialect) : Except FieldError OptionSource :=
  match f.sourceCause d with
  | .ok s => .ok s
  | .error cause => .error ⟨f.name, cause⟩

/-- the candidates of the field can be listed without a query -/
def isSupported (f : Field) : Bool :=
  (f.type == .select || f.type == .multi) &&
    match f.text? "sourceType" with
    | some t => t == "ValuesList" || t == "ValuesListNotePath"
    | none => false

end Field

/-- the lines of a note, each a candidate -/
def noteValues (content : String) : List String :=
  (content.toList.splitOn '\n').map String.ofList

namespace OptionSource

def projectionName : Projection → String
  | .values => "values"
  | .filePaths => "filePaths"

/-- the source as a JSON value -/
def toJson : OptionSource → Json
  | values vs => .object [("kind", .string "values"), ("values", .array (vs.map .string))]
  | query q p => .object
    [("kind", .string "query"), ("query", .string q), ("projection", .string (projectionName p))]
  | notePath path => .object [("kind", .string "notePath"), ("path", .string path)]
  | unsupported => .object [("kind", .string "unsupported")]

end OptionSource

end PageQuery
