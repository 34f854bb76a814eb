import PageQuery.Proofs.Meaning
import PageQuery.Proofs.Positional
import PageQuery.Proofs.Quoting

/-!
# Telling operands apart

Operands of conditions are known by their texts, but for one thing: the names of a field are not
held against the words of the query language, so a field can be spelled like a boolean, like null or
like a number that is not below zero (`Literal.Spelled`).  Beyond that, operands with one text are the
same: `operandOf_render_eq_iff`.
-/

namespace PageQuery

open Where

/-! ### Paths -/

theorem point_not_mem_of_isPathName {n : String} (h : Script.Expr.IsPathName n) :
    '.' ∉ n.toList := by
  intro hpoint
  have hchar := h.2 '.' hpoint
  revert hchar
  decide

theorem splitOn_path {path : List String} (hne : path ≠ [])
    (hnames : ∀ n ∈ path, Script.Expr.IsPathName n) :
    (String.intercalate "." path).toList.splitOn '.' = path.map String.toList := by
  rw [String.toList_intercalate]
  refine List.splitOn_intercalate '.' ?_ (by simpa using hne)
  intro n hn
  obtain ⟨name, hname, rfl⟩ := List.mem_map.1 hn
  exact point_not_mem_of_isPathName (hnames name hname)

/-- the text of a field has the names of its path -/
theorem Operand.Readable.path_eq {path path' : List String} (h : (Operand.field path).Readable)
    (h' : (Operand.field path').Readable)
    (htext : String.intercalate "." path = String.intercalate "." path') : path = path' := by
  have hmap : path.map String.toList = path'.map String.toList := by
    rw [← splitOn_path h.1 h.2, ← splitOn_path h'.1 h'.2, htext]
  exact List.map_injective_iff.2 (fun _ _ => String.toList_inj.1) hmap

/-! ### What operands have in common -/

namespace Literal

/-- the literals denote one value; the two zeros are one number, and what is none of a number is one
value -/
def Same : Literal → Literal → Prop
  | .text s, .text t => s = t
  | .number x, .number y =>
    x = y ∨ x.isZero = true ∧ y.isZero = true ∨ x.isNaN = true ∧ y.isNaN = true
  | .bool b, .bool c => b = c
  | .null, .null => True
  | _, _ => False

/-- the names, with dots between them, are how the literal is written: one word, or the digits of a
number that is not below zero -/
inductive Spelled : Literal → List String → Prop
  | ofTrue : Spelled (.bool true) ["true"]
  | ofFalse : Spelled (.bool false) ["false"]
  | null : Spelled .null ["null"]
  | infinity {x : Binary64} :
    x.isInfinite = true → x.negative = false → Spelled (.number x) ["Infinity"]
  | nan {x : Binary64} : x.isNaN = true → Spelled (.number x) ["NaN"]
  | whole {x : Binary64} {w : String} : isDigits w.toList = true →
    Number.queryText x = w → Spelled (.number x) [w]
  | fraction {x : Binary64} {w f : String} : isDigits w.toList = true → isDigits f.toList = true →
    Number.queryText x = w ++ "." ++ f → Spelled (.number x) [w, f]

end Literal

namespace Operand

/-- the operands are one field or denote one value -/
def Same : Operand → Operand → Prop
  | .field path, .field path' => path = path'
  | .literal l, .literal m => l.Same m
  | _, _ => False

/-- one is a field and the other a literal that the names of the field spell -/
def Clashes : Operand → Operand → Prop
  | .field path, .literal l => l.Spelled path
  | .literal l, .field path => l.Spelled path
  | _, _ => False

end Operand

/-! ### Words of literals -/

theorem isPathName_of_isDigits {w : String} (h : isDigits w.toList = true) :
    Script.Expr.IsPathName w := by
  obtain ⟨hne, hdigit⟩ := isDigits_iff.1 h
  refine ⟨by simpa using hne, fun c hc => ?_⟩
  simpa [isNameChar] using isNameChar_of_isDigit (hdigit c hc)

theorem not_isWord_quote (s : String) : isWord (Text.quote s).toList = false := by
  by_contra h
  rw [Bool.not_eq_false] at h
  have hquote : isWordChar '"' = true := isWordChar_of_mem_word h _ (by simp [Text.quote])
  revert hquote
  decide

/-- a number with a sign is no word -/
theorem not_isWord_signed (cs : List Char) : isWord (Number.signed true cs).toList = false := by
  by_contra h
  rw [Bool.not_eq_false] at h
  have hminus : isWordChar '-' = true := isWordChar_of_mem_word h _ (by simp [Number.signed])
  revert hminus
  decide

namespace Literal

theorem Spelled.readable {l : Literal} {path : List String} (h : l.Spelled path) :
    (Operand.field path).Readable := by
  have hword : ∀ w, Script.Expr.isPathName w = true → (Operand.field [w]).Readable := by
    intro w hw
    refine ⟨by simp, fun n hn => ?_⟩
    rw [List.mem_singleton.1 hn]
    exact Script.Expr.isPathName_iff.1 hw
  cases h with
  | ofTrue => exact hword _ (by decide)
  | ofFalse => exact hword _ (by decide)
  | null => exact hword _ (by decide)
  | infinity _ _ => exact hword _ (by decide)
  | nan _ => exact hword _ (by decide)
  | whole hw _ => exact hword _ (Script.Expr.isPathName_iff.2 (isPathName_of_isDigits hw))
  | fraction hw hf _ =>
    refine ⟨by simp, fun n hn => ?_⟩
    rcases List.mem_cons.1 hn with rfl | hn
    · exact isPathName_of_isDigits hw
    · rw [List.mem_singleton.1 hn]
      exact isPathName_of_isDigits hf

theorem Spelled.render {l : Literal} {path : List String} (h : l.Spelled path) :
    String.intercalate "." path = l.render := by
  cases h with
  | ofTrue => rfl
  | ofFalse => rfl
  | null => rfl
  | infinity hx hsign =>
    show _ = Number.queryText _
    rw [Number.queryText_of_isInfinite hx, hsign]
    rfl
  | nan hx => exact (Number.queryText_of_isNaN hx).symm
  | whole _ hw => exact hw.symm
  | fraction _ _ hw => exact hw.symm

theorem exists_spelled_number {x : Binary64}
    (h : isWord (Number.queryText x).toList = true) : ∃ path, (number x).Spelled path := by
  have hunsigned : ∀ {negative : Bool} {cs : List Char},
      Number.queryText x = Number.signed negative cs → negative = false := by
    intro negative cs htext
    cases negative with
    | false => rfl
    | true =>
      rw [htext, not_isWord_signed] at h
      cases h
  rcases Number.finite_or_infinite_or_nan x with hx | hx | hx
  · obtain ⟨cs, hcs, htext⟩ := Number.isDecimal_queryText hx
    rw [hunsigned htext] at htext
    rcases hcs with hw | ⟨w, f, hw, hf, rfl⟩
    · have hw : isDigits (String.ofList cs).toList = true := by
        rwa [String.toList_ofList]
      exact ⟨_, .whole hw htext⟩
    · have hw : isDigits (String.ofList w).toList = true := by
        rwa [String.toList_ofList]
      have hf : isDigits (String.ofList f).toList = true := by
        rwa [String.toList_ofList]
      have hjoin : Number.signed false (w ++ '.' :: f) =
          String.ofList w ++ "." ++ String.ofList f := by
        simp [Number.signed, ← String.toList_inj]
      exact ⟨_, .fraction hw hf (htext.trans hjoin)⟩
  · exact ⟨_, .infinity hx (hunsigned (Number.queryText_of_isInfinite hx))⟩
  · exact ⟨_, .nan hx⟩

/-- a literal whose text is a word is spelled by names -/
theorem exists_spelled {l : Literal} (h : isWord l.render.toList = true) :
    ∃ path, l.Spelled path := by
  cases l with
  | text s =>
    have hquote : isWord (Text.quote s).toList = true := h
    rw [not_isWord_quote] at hquote
    cases hquote
  | number x => exact exists_spelled_number h
  | bool b =>
    cases b with
    | true => exact ⟨_, .ofTrue⟩
    | false => exact ⟨_, .ofFalse⟩
  | null => exact ⟨_, .null⟩

/-- the texts of booleans and of null -/
def words : List String := ["true", "false", "null"]

theorem bool_render_mem_words (b : Bool) : (bool b).render ∈ words := by
  cases b <;> decide

theorem null_render_mem_words : null.render ∈ words := by
  decide

theorem text_render_not_mem_words (s : String) : (text s).render ∉ words := by
  intro h
  simp [words, render, Text.quote, ← String.toList_inj] at h

theorem number_render_not_mem_words (x : Binary64) : (number x).render ∉ words := by
  show Number.queryText x ∉ words
  intro h
  simp only [words, List.mem_cons, List.not_mem_nil, or_false] at h
  rcases Number.queryText_cases x with ⟨-, n, hn⟩ | ⟨-, hword⟩
  · rcases h with h | h | h <;> simp [h, Number.decimalNumeral?, Number.splitSign] at hn
  · rcases h with h | h | h <;> simp [h] at hword

theorem number_render_ne_text (x : Binary64) (s : String) :
    (number x).render ≠ (text s).render := by
  intro (h : Number.queryText x = Text.quote s)
  rcases Number.queryText_cases x with ⟨-, n, hn⟩ | ⟨-, hword⟩
  · simp [h, Text.quote, Number.decimalNumeral?, Number.splitSign] at hn
  · simp [h, Text.quote, ← String.toList_inj] at hword

theorem same_of_render_eq {l m : Literal} (h : l.render = m.render) : l.Same m := by
  cases l with
  | text s =>
    cases m with
    | text t => exact Text.quote_injective h
    | number y => exact number_render_ne_text y s h.symm
    | bool c => exact text_render_not_mem_words s (h ▸ bool_render_mem_words c)
    | null => exact text_render_not_mem_words s (h ▸ null_render_mem_words)
  | number x =>
    cases m with
    | text t => exact number_render_ne_text x t h
    | number y => exact Number.queryText_eq_iff.1 h
    | bool c => exact number_render_not_mem_words x (h ▸ bool_render_mem_words c)
    | null => exact number_render_not_mem_words x (h ▸ null_render_mem_words)
  | bool b =>
    cases m with
    | text t => exact text_render_not_mem_words t (h ▸ bool_render_mem_words b)
    | number y => exact number_render_not_mem_words y (h ▸ bool_render_mem_words b)
    | bool c =>
      show b = c
      revert h
      cases b <;> cases c <;> decide
    | null =>
      show False
      revert h
      cases b <;> decide
  | null =>
    cases m with
    | text t => exact text_render_not_mem_words t (h ▸ null_render_mem_words)
    | number y => exact number_render_not_mem_words y (h ▸ null_render_mem_words)
    | bool c =>
      show False
      revert h
      cases c <;> decide
    | null => exact trivial

theorem Same.render_eq {l m : Literal} (h : l.Same m) : l.render = m.render := by
  cases l with
  | text s =>
    cases m with
    | text t => exact congrArg Text.quote h
    | _ => cases h
  | number x =>
    cases m with
    | number y => exact Number.queryText_eq_iff.2 h
    | _ => cases h
  | bool b =>
    cases m with
    | bool c => exact congrArg (fun b => render (bool b)) h
    | _ => cases h
  | null =>
    cases m with
    | null => rfl
    | _ => cases h

/-- **Literals.**  The texts of two literals are equal exactly if they denote one value. -/
theorem render_eq_iff {l m : Literal} : l.render = m.render ↔ l.Same m :=
  ⟨same_of_render_eq, Same.render_eq⟩

end Literal

/-! ### Operands -/

namespace Operand

/-- the text of a field is that of a literal exactly if its names spell the literal -/
theorem field_render_eq_iff {path : List String} {l : Literal} (h : (field path).Readable) :
    (field path).render = l.render ↔ l.Spelled path := by
  constructor
  · intro htext
    have hword : isWord l.render.toList = true := htext ▸ isWord_path h.1 h.2
    obtain ⟨names, hnames⟩ := Literal.exists_spelled hword
    have hpath : path = names := h.path_eq hnames.readable (htext.trans hnames.render.symm)
    exact hpath ▸ hnames
  · exact fun hspelled => hspelled.render

theorem Readable.render_eq_iff {o o' : Operand} (h : o.Readable) (h' : o'.Readable) :
    o.render = o'.render ↔ o.Same o' ∨ o.Clashes o' := by
  cases o with
  | field path =>
    cases o' with
    | field path' =>
      have hpaths : (field path).render = (field path').render ↔ path = path' :=
        ⟨h.path_eq h', congrArg (String.intercalate ".")⟩
      exact hpaths.trans (iff_of_eq (or_false _)).symm
    | literal m => exact (field_render_eq_iff h).trans (iff_of_eq (false_or _)).symm
  | literal l =>
    cases o' with
    | field path' => exact (eq_comm.trans (field_render_eq_iff h')).trans (iff_of_eq (false_or _)).symm
    | literal m => exact Literal.render_eq_iff.trans (iff_of_eq (or_false _)).symm

end Operand

namespace Condition

/-- **Telling operands apart.**  Two operands have one text exactly if they are one field or denote
one value, or if one is a field whose names spell the other. -/
theorem operandOf_render_eq_iff {p q : String} {e f : Script.Expr} {o o' : Operand}
    (h : operandOf p e = .ok o) (h' : operandOf q f = .ok o') :
    o.render = o'.render ↔ o.Same o' ∨ o.Clashes o' :=
  (readable_of_isOperand (operandOf_eq_ok.1 h)).render_eq_iff
    (readable_of_isOperand (operandOf_eq_ok.1 h'))

/-- a field called true is spelled like the boolean -/
theorem field_called_true_not_told_apart :
    operandOf "p" (.field (.identifier "p") "true") = .ok (.field ["true"]) ∧
      operandOf "p" (.bool true) = .ok (.literal (.bool true)) ∧
      (Operand.field ["true"]).render = (Operand.literal (.bool true)).render ∧
      ¬ (Operand.field ["true"]).Same (.literal (.bool true)) :=
  ⟨by rfl, rfl, rfl, id⟩

/-- the number one and a half -/
def oneAndHalf : Binary64 := ⟨false, 4609434218613702656⟩

/-- the fifth of the first is spelled like one and a half -/
theorem fifth_of_first_spelled :
    ∃ o o', operandOf "p" (.index (.index (.identifier "p") (.string "1")) (.string "5")) = .ok o ∧
      operandOf "p" (.number oneAndHalf) = .ok o' ∧ o.render = "1.5" ∧ ¬ o.Same o' ∧
      o.Clashes o' := by
  have hfield : operandOf "p" (.index (.index (.identifier "p") (.string "1")) (.string "5")) =
      .ok (.field ["1", "5"]) := by
    rfl
  have hnumber : operandOf "p" (.number oneAndHalf) = .ok (.literal (.number oneAndHalf)) := rfl
  have htext : Number.queryText oneAndHalf = "1.5" := by
    decide +kernel
  have hrender : (Operand.field ["1", "5"]).render = (Operand.literal (.number oneAndHalf)).render :=
    htext.symm
  refine ⟨_, _, hfield, hnumber, by decide, id, ?_⟩
  exact ((operandOf_render_eq_iff hfield hnumber).1 hrender).resolve_left id

end Condition

end PageQuery
