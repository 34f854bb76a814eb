import PageQuery.Field.OptionSource

/-!
Requests whose field and dialect are texts that hold JSON.
-/

namespace PageQuery.Request

inductive Fault where
  | invalidField
  | invalidDialect
  | unresolved (error : FieldError)

/-- the dialect that a text sets, the usual one if there is none -/
def dialectOf? : Option String → Option Dialect
  | none => some {}
  | some text => (Document.read text).bind Dialect.ofDocument?

/-- the text of the query, or none for an error in the query; no answer if the dialect is invalid -/
def translate (text : String) (dialect : Option String) : Except Fault (Option String) :=
  match dialectOf? dialect with
  | some d => .ok (Translation.query? text d)
  | none => .error .invalidDialect

/-- the JSON text of where a field takes its candidates from -/
def resolve (field : String) (dialect : Option String) : Except Fault String :=
  match (Document.read field).bind Field.ofDocument? with
  | none => .error .invalidField
  | some f =>
    match dialectOf? dialect with
    | none => .error .invalidDialect
    | some d =>
      match f.optionSource d with
      | .ok s => .ok s.toJson.compact
      | .error e => .error (.unresolved e)

end PageQuery.Request
