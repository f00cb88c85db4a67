import TaggedScript.Proofs.SyntaxInduction
import TaggedScript.Proofs.Syntax.JsonText
import TaggedScript.Syntax.Json

/-!
The JSON form of a script says all of it but its text and the places in it. What is read back from
the text of the form is the script without these, whatever library writes and reads the text. Only
how deep a script may be nested is up to the reader.
-/
namespace TaggedScript

open TaggedScript.Expr

namespace Json

theorem literal?_toJson (v : Literal) : literal? v.toJson = some v := by
  cases v with
  | undefined | bool | str => rfl
  | int n =>
    have low : -2147483648 ≤ n.toInt := n.minValue_le_toInt
    have high : n.toInt ≤ 2147483647 := n.toInt_le
    simp only [Literal.toJson, literal?, int32?, if_pos (And.intro low high), Int32.ofInt_toInt,
      Option.map_some]

theorem name?_ofName (name : Option String) : (ofName name).name? = some name := by
  cases name <;> rfl

theorem strings?_ofNames (names : List String) : (ofNames names).strings? = some names := by
  simp only [ofNames, strings?]
  induction names with
  | nil => rfl
  | cons x names ih => simp [string?, ih]

/-- What is read back from the form of a tree is the tree without its places. -/
theorem expr?_inductive : Expr.Inductive
    (fun e => expr? e.toJson = some e.eraseSpans)
    (fun es => items? (toJsonAll es) = some (eraseSpansAll es))
    (fun fs => fieldItems? (toJsonFields fs) = some (eraseSpansFields fs)) where
  literal s v := by simp [toJson, expr?, literal?_toJson, eraseSpans]
  var s x := by simp [toJson, node, expr?, member, string?, eraseSpans]
  assign s x d e h := by simp [toJson, node, expr?, member, string?, bool?, h, eraseSpans]
  field s r x h := by simp [toJson, node, expr?, member, string?, h, eraseSpans]
  setField s r x e hr he := by simp [toJson, node, expr?, member, string?, hr, he, eraseSpans]
  call s f args hf hargs := by
    simp [toJson, node, expr?, member, exprs?, hf, hargs, eraseSpans]
  methodCall s r x args hr hargs := by
    simp [toJson, node, expr?, member, string?, exprs?, hr, hargs, eraseSpans]
  function s name params body h := by
    simp [toJson, node, expr?, member, name?_ofName, strings?_ofNames, block?, exprs?, h, eraseSpans]
  object s fields h := by simp [toJson, node, expr?, member, fields?, h, eraseSpans]
  cond s c t e hc ht he := by
    simp [toJson, node, expr?, member, block?, exprs?, hc, ht, he, eraseSpans]
  ret s e h := by simp [toJson, node, expr?, member, h, eraseSpans]
  block s body h := by simp [toJson, node, expr?, member, block?, exprs?, h, eraseSpans]
  nil := by simp [toJsonAll, items?, eraseSpansAll]
  cons e es he hes := by simp [toJsonAll, items?, he, hes, eraseSpansAll]
  noFields := by simp [toJsonFields, fieldItems?, eraseSpansFields]
  consField x e fs he hfs := by simp [toJsonFields, fieldItems?, he, hfs, eraseSpansFields]

theorem block?_toJson (es : List Expr) :
    block? (.obj [("exprs", .arr (toJsonAll es))]) = some (eraseSpansAll es) := by
  simp [block?, member, exprs?, expr?_inductive.list es]

theorem script?_toJson (s : Script) : script? s.toJson = some s.eraseSpans := by
  simp [Script.toJson, script?, member, block?_toJson, Script.eraseSpans]

theorem standard_ofName (name : Option String) : (ofName name).Standard := by
  cases name <;> trivial

theorem standard_ofNames (names : List String) : (ofNames names).Standard := by
  induction names with
  | nil => trivial
  | cons x names ih => exact ⟨trivial, ih⟩

end Json

namespace Expr

/-- The form of a tree does not show where the tree was read. -/
theorem toJson_inductive : Expr.Inductive
    (fun e => e.eraseSpans.toJson = e.toJson)
    (fun es => toJsonAll (eraseSpansAll es) = toJsonAll es)
    (fun fs => toJsonFields (eraseSpansFields fs) = toJsonFields fs) where
  literal s v := rfl
  var s x := rfl
  assign s x d e h := by simp only [eraseSpans, toJson, h]
  field s r x h := by simp only [eraseSpans, toJson, h]
  setField s r x e hr he := by simp only [eraseSpans, toJson, hr, he]
  call s f args hf hargs := by simp only [eraseSpans, toJson, hf, hargs]
  methodCall s r x args hr hargs := by simp only [eraseSpans, toJson, hr, hargs]
  function s name params body h := by simp only [eraseSpans, toJson, h]
  object s fields h := by simp only [eraseSpans, toJson, h]
  cond s c t e hc ht he := by simp only [eraseSpans, toJson, hc, ht, he]
  ret s e h := by simp only [eraseSpans, toJson, h]
  block s body h := by simp only [eraseSpans, toJson, h]
  nil := rfl
  cons e es he hes := by simp only [eraseSpansAll, toJsonAll, he, hes]
  noFields := rfl
  consField x e fs he hfs := by simp only [eraseSpansFields, toJsonFields, he, hfs]

/-- No place is left at any depth. -/
theorem spans_inductive : Expr.Inductive
    (fun e => ∀ place ∈ e.eraseSpans.spans, place = .none)
    (fun es => ∀ place ∈ spansAll (eraseSpansAll es), place = .none)
    (fun fs => ∀ place ∈ spansFields (eraseSpansFields fs), place = .none) where
  literal s v := by simp [eraseSpans, spans]
  var s x := by simp [eraseSpans, spans]
  assign s x d e h := by simpa [eraseSpans, spans] using h
  field s r x h := by simpa [eraseSpans, spans] using h
  setField s r x e hr he := by simpa [eraseSpans, spans, or_imp, forall_and] using ⟨hr, he⟩
  call s f args hf hargs := by simpa [eraseSpans, spans, or_imp, forall_and] using ⟨hf, hargs⟩
  methodCall s r x args hr hargs := by
    simpa [eraseSpans, spans, or_imp, forall_and] using ⟨hr, hargs⟩
  function s name params body h := by simpa [eraseSpans, spans] using h
  object s fields h := by simpa [eraseSpans, spans] using h
  cond s c t e hc ht he := by
    simpa [eraseSpans, spans, or_imp, forall_and] using ⟨hc, ht, he⟩
  ret s e h := by simpa [eraseSpans, spans] using h
  block s body h := by simpa [eraseSpans, spans] using h
  nil := by simp [eraseSpansAll, spansAll]
  cons e es he hes := by simpa [eraseSpansAll, spansAll, or_imp, forall_and] using ⟨he, hes⟩
  noFields := by simp [eraseSpansFields, spansFields]
  consField x e fs he hfs := by
    simpa [eraseSpansFields, spansFields, or_imp, forall_and] using ⟨he, hfs⟩

/-- The form of a tree has integers of 32 bits and no object with two members of one name. -/
theorem standard_inductive : Expr.Inductive
    (fun e => e.toJson.Standard)
    (fun es => Json.StandardItems (toJsonAll es))
    (fun fs => Json.StandardItems (toJsonFields fs)) where
  literal s v := by
    cases v with
    | int n =>
      have low : -2147483648 ≤ n.toInt := n.minValue_le_toInt
      have high : n.toInt ≤ 2147483647 := n.toInt_le
      simp [toJson, Literal.toJson, Json.Standard, Json.StandardMembers]
      omega
    | undefined | bool | str => simp [toJson, Literal.toJson, Json.Standard, Json.StandardMembers]
  var s x := by simp [toJson, Json.node, Json.Standard, Json.StandardMembers]
  assign s x d e h := by simp [toJson, Json.node, Json.Standard, Json.StandardMembers, h]
  field s r x h := by simp [toJson, Json.node, Json.Standard, Json.StandardMembers, h]
  setField s r x e hr he := by
    simp [toJson, Json.node, Json.Standard, Json.StandardMembers, hr, he]
  call s f args hf hargs := by
    simp [toJson, Json.node, Json.Standard, Json.StandardMembers, hf, hargs]
  methodCall s r x args hr hargs := by
    simp [toJson, Json.node, Json.Standard, Json.StandardMembers, hr, hargs]
  function s name params body h := by
    have name := Json.standard_ofName name
    have params := Json.standard_ofNames params
    simp [toJson, Json.node, Json.Standard, Json.StandardMembers, name, params, h]
  object s fields h := by simp [toJson, Json.node, Json.Standard, Json.StandardMembers, h]
  cond s c t e hc ht he := by
    simp [toJson, Json.node, Json.Standard, Json.StandardMembers, hc, ht, he]
  ret s e h := by simp [toJson, Json.node, Json.Standard, Json.StandardMembers, h]
  block s body h := by simp [toJson, Json.node, Json.Standard, Json.StandardMembers, h]
  nil := trivial
  cons e es he hes := ⟨he, hes⟩
  noFields := trivial
  consField x e fs he hfs := by
    simp [toJsonFields, Json.Standard, Json.StandardItems, he, hfs]

end Expr

namespace Script

theorem toJson_eraseSpans (s : Script) : s.eraseSpans.toJson = s.toJson := by
  simp only [toJson, eraseSpans, toJson_inductive.list s.body]

theorem standard_toJson (s : Script) : s.toJson.Standard := by
  simp [toJson, Json.Standard, Json.StandardMembers, standard_inductive.list s.body]

theorem toJson_inj {s t : Script} : s.toJson = t.toJson ↔ s.eraseSpans = t.eraseSpans := by
  refine ⟨fun same => ?_, fun same => ?_⟩
  · have back := Json.script?_toJson s
    rw [same, Json.script?_toJson t] at back
    exact (Option.some_inj.mp back).symm
  · rw [← toJson_eraseSpans s, same, toJson_eraseSpans]

/-- The text of a script in some format of JSON. -/
def jsonText (f : Json.Format) (s : Script) : String := f.write s.toJson

/-- The script that a text in some format of JSON is read as. -/
def ofJsonText? (f : Json.Format) (limit : Option Nat) (text : String) : Option Script := do
  Json.script? (← f.read limit text)

/-- A script is read back from its JSON text as it was, but without its own text and with no place
left in it. A reader with a limit does so exactly for the scripts that are not nested beyond it, and
refuses the others. So two scripts have one JSON text exactly if they differ in their own texts and
their places alone. -/
theorem toJson_faithful {f : Json.Format} (lawful : f.Lawful) :
    (∀ s : Script, ∃ t, ofJsonText? f none (s.jsonText f) = some t ∧
      t = s.eraseSpans ∧ t.source = none ∧ ∀ place ∈ spansAll t.body, place = ⟨0, 0⟩) ∧
    (∀ (s : Script) (limit : Nat), ofJsonText? f (some limit) (s.jsonText f) =
      if s.toJson.nesting ≤ limit then some s.eraseSpans else none) ∧
    ∀ s t : Script, s.jsonText f = t.jsonText f ↔ s.eraseSpans = t.eraseSpans := by
  have read_back {s : Script} {limit : Option Nat} (fits : ∀ n ∈ limit, s.toJson.nesting ≤ n) :
      ofJsonText? f limit (s.jsonText f) = some s.eraseSpans := by
    rw [ofJsonText?, jsonText, lawful.reads_back s.standard_toJson fits]
    exact Json.script?_toJson s
  refine ⟨fun s => ?_, fun s limit => ?_, fun s t => ?_⟩
  · exact ⟨s.eraseSpans, read_back (by simp), rfl, rfl, spans_inductive.list s.body⟩
  · split
    · exact read_back (by simpa)
    · rw [ofJsonText?, jsonText, lawful.refuses s.standard_toJson (by omega)]
      rfl
  · exact (lawful.write_inj s.standard_toJson t.standard_toJson).trans toJson_inj

/-- A call whose argument is such a call, so many times. -/
def nestedCalls : Nat → Expr
  | 0 => .var ⟨0, 1⟩ "x"
  | n + 1 => .call ⟨0, 1⟩ (.var ⟨0, 1⟩ "f") [nestedCalls n]

theorem nesting_nestedCalls (n : Nat) : (nestedCalls n).toJson.nesting = 3 * n + 2 := by
  induction n with
  | zero => rfl
  | succ n ih =>
    simp only [nestedCalls, Expr.toJson, Expr.toJsonAll, Json.node, Json.nesting,
      Json.nestingItems, Json.nestingMembers, ih]
    omega

theorem nesting_of_calls (n : Nat) (source : Option String) :
    (Script.mk [nestedCalls n] source).toJson.nesting = 3 * n + 5 := by
  simp only [toJson, Expr.toJsonAll, Json.nesting, Json.nestingItems, Json.nestingMembers,
    nesting_nestedCalls]
  omega

/-- The reader that is not told any other limit reads forty calls inside one another and refuses
forty-one, which the one without a limit reads. -/
theorem toJson_faithful_nestedCalls :
    let script (n : Nat) : Script := ⟨[nestedCalls n], some "f(x)"⟩
    (script 0).jsonText Json.compact =
      "\x7b\"body\":\x7b\"exprs\":[\x7b\"Var\":\x7b\"name\":\"x\"\x7d\x7d]\x7d\x7d" ∧
    ofJsonText? Json.compact (some Json.Format.usualLimit) ((script 40).jsonText Json.compact) =
      some (script 40).eraseSpans ∧
    ofJsonText? Json.compact (some Json.Format.usualLimit) ((script 41).jsonText Json.compact) =
      none ∧
    ofJsonText? Json.compact none ((script 41).jsonText Json.compact) =
      some (script 41).eraseSpans := by
  intro script
  obtain ⟨lifted, limited, -⟩ := toJson_faithful Json.compact_lawful
  refine ⟨by rfl, ?_, ?_, ?_⟩
  · refine (limited (script 40) Json.Format.usualLimit).trans (if_pos ?_)
    rw [nesting_of_calls]
    decide
  · refine (limited (script 41) Json.Format.usualLimit).trans (if_neg ?_)
    rw [nesting_of_calls]
    decide
  · obtain ⟨t, read, rfl, -⟩ := lifted (script 41)
    exact read

end Script
end TaggedScript
