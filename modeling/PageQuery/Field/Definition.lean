import PageQuery.Json.Record

/-!
Metadata fields as they are defined: a name, a type, and options of any shape.
-/

namespace PageQuery

inductive FieldType where
  | input | number | select | cycle | boolean | date | dateTime | time | multi | file | multiFile
  | media | multiMedia | canvas | canvasGroup | canvasGroupLink | formula | lookup | json | yaml
  | object | objectList
deriving DecidableEq

/-- the type with this name -/
def FieldType.ofName? : String → Option FieldType
  | "Input" => some input
  | "Number" => some number
  | "Select" => some select
  | "Cycle" => some cycle
  | "Boolean" => some boolean
  | "Date" => some date
  | "DateTime" => some dateTime
  | "Time" => some time
  | "Multi" => some multi
  | "File" => some file
  | "MultiFile" => some multiFile
  | "Media" => some media
  | "MultiMedia" => some multiMedia
  | "Canvas" => some canvas
  | "CanvasGroup" => some canvasGroup
  | "CanvasGroupLink" => some canvasGroupLink
  | "Formula" => some formula
  | "Lookup" => some lookup
  | "JSON" => some json
  | "YAML" => some yaml
  | "Object" => some object
  | "ObjectList" => some objectList
  | _ => none

structure Field where
  name : String
  type : FieldType
  options : Json := .null

namespace Field

/-- how deep options may nest -/
def maxOptionsDepth : Nat := 126

/-- the options that a document writes, within the depth they may have -/
def optionsOf? (d : Document) : Option Json :=
  if d.depth ≤ maxOptionsDepth then d.value? else none

/-- the field that a document defines -/
def ofDocument? (d : Document) : Option Field := do
  let r ← Record.ofDocument? ["name", "type", "options"] d
  let name ← (← r.field? 0).text?
  let type ← (← (← r.field? 1).choice?) |> FieldType.ofName?
  let options ← match r.field? 2 with
    | none => some .null
    | some v => optionsOf? v
  pure ⟨name, type, options⟩

/-- the text of an option, if it is one -/
def text? (f : Field) (key : String) : Option String := (f.options.get? key).bind Json.string?

/-- the double nearest to an option, if it is a number -/
def double? (f : Field) (key : String) : Option Binary64 :=
  ((f.options.get? key).bind Json.number?).map JsonNumber.toDouble

end Field

end PageQuery
