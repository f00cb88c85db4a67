import TaggedScript.Proofs.Agreement.Flat
import TaggedScript.Proofs.Syntax.Parsed

/-!
What is read from a text. Nothing in it gives a value to `this`, and the parameters of a function
differ.
-/
namespace TaggedScript

namespace Expr

/-- An expression itself gives no value to `this`, and its parameters differ if it is a function. -/
structure Written (e : Expr) : Prop where
  this : thisName ∉ e.bound
  params : ∀ f, e.definition? = some f → f.params.Nodup

/-- An expression could have been read from a text. -/
def Readable (e : Expr) : Prop := ∀ p ∈ e.parts, p.Written

def AllReadable (es : List Expr) : Prop := ∀ p ∈ partsAll es, p.Written

def FieldsReadable (fs : List (String × Expr)) : Prop := ∀ p ∈ partsFields fs, p.Written

/-- What binds no name and is no function. -/
theorem written_of_bound {e : Expr} (names : e.bound = []) (no : e.definition? = none) :
    e.Written where
  this := by simp [names]
  params f h := by simp [no] at h

theorem readable_literal (s : Span) (v : Literal) : (literal s v).Readable := by
  intro p mem
  rw [parts, List.mem_singleton] at mem
  exact mem ▸ written_of_bound rfl rfl

theorem readable_var (s : Span) (x : String) : (var s x).Readable := by
  intro p mem
  rw [parts, List.mem_singleton] at mem
  exact mem ▸ written_of_bound rfl rfl

theorem readable_assign {s : Span} {x : String} {declare : Bool} {e : Expr} (name : x ≠ thisName)
    (h : e.Readable) : (assign s x declare e).Readable := by
  rw [Readable, parts, List.forall_mem_cons]
  exact ⟨⟨by simpa [bound] using name.symm, fun f h => by cases h⟩, h⟩

theorem readable_field {s : Span} {r : Expr} {x : String} (h : r.Readable) :
    (field s r x).Readable := by
  rw [Readable, parts, List.forall_mem_cons]
  exact ⟨written_of_bound rfl rfl, h⟩

theorem readable_setField {s : Span} {r e : Expr} {x : String} (hr : r.Readable)
    (he : e.Readable) : (setField s r x e).Readable := by
  rw [Readable, parts, List.forall_mem_cons, List.forall_mem_append]
  exact ⟨written_of_bound rfl rfl, he, hr⟩

theorem readable_call {s : Span} {f : Expr} {args : List Expr} (hf : f.Readable)
    (hargs : AllReadable args) : (call s f args).Readable := by
  rw [Readable, parts, List.forall_mem_cons, List.forall_mem_append]
  exact ⟨written_of_bound rfl rfl, hf, hargs⟩

theorem readable_methodCall {s : Span} {r : Expr} {x : String} {args : List Expr}
    (hr : r.Readable) (hargs : AllReadable args) : (methodCall s r x args).Readable := by
  rw [Readable, parts, List.forall_mem_cons, List.forall_mem_append]
  exact ⟨written_of_bound rfl rfl, hr, hargs⟩

theorem readable_function {s : Span} {name : Option String} {params : List String}
    {body : List Expr} (named : thisName ∉ name.toList) (differ : params.Nodup)
    (fresh : thisName ∉ params) (h : AllReadable body) :
    (function s name params body).Readable := by
  rw [Readable, parts, List.forall_mem_cons]
  refine ⟨⟨?_, ?_⟩, h⟩
  · rw [bound, List.mem_append]
    exact fun mem => mem.elim named fresh
  · rintro f ⟨⟩
    exact differ

theorem readable_object {s : Span} {fields : List (String × Expr)} (h : FieldsReadable fields) :
    (object s fields).Readable := by
  rw [Readable, parts, List.forall_mem_cons]
  exact ⟨written_of_bound rfl rfl, h⟩

theorem readable_cond {s : Span} {c : Expr} {t e : List Expr} (hc : c.Readable)
    (ht : AllReadable t) (he : AllReadable e) : (cond s c t e).Readable := by
  rw [Readable, parts, List.forall_mem_cons, List.forall_mem_append, List.forall_mem_append]
  exact ⟨written_of_bound rfl rfl, ⟨hc, ht⟩, he⟩

theorem readable_ret {s : Span} {e : Expr} (h : e.Readable) : (ret s e).Readable := by
  rw [Readable, parts, List.forall_mem_cons]
  exact ⟨written_of_bound rfl rfl, h⟩

theorem allReadable_nil : AllReadable [] := fun p mem => by cases mem

theorem allReadable_cons {e : Expr} {es : List Expr} (he : e.Readable) (hes : AllReadable es) :
    AllReadable (e :: es) := by
  rw [AllReadable, partsAll, List.forall_mem_append]
  exact ⟨he, hes⟩

theorem allReadable_append {es fs : List Expr} (hes : AllReadable es) (hfs : AllReadable fs) :
    AllReadable (es ++ fs) := by
  induction es with
  | nil => exact hfs
  | cons e es ih =>
    rw [AllReadable, partsAll, List.forall_mem_append] at hes
    exact allReadable_cons hes.1 (ih hes.2)

theorem fieldsReadable_cons {x : String} {e : Expr} {fs : List (String × Expr)} (he : e.Readable)
    (hfs : FieldsReadable fs) : FieldsReadable ((x, e) :: fs) := by
  rw [FieldsReadable, partsFields, List.forall_mem_append]
  exact ⟨he, hfs⟩

end Expr

open TaggedScript.Expr

theorem bound_of_isName {names : List String} (h : ∀ x ∈ names, isName x = true) :
    thisName ∉ names := fun mem => isName_ne_this (h _ mem) rfl

/-- What a text can say gives no value to `this`, and the parameters of each function differ. -/
theorem Expr.readable_inductive : Expr.Inductive
    (fun e => ∀ direct, e.isExpressible direct = true → e.Readable)
    (fun es => ∀ direct, allExpressible direct es = true → AllReadable es)
    (fun fs => fieldsExpressible fs = true → FieldsReadable fs) where
  literal s v direct h := readable_literal s v
  var s x direct h := readable_var s x
  assign s x declare e ih direct h := by
    simp only [isExpressible, Bool.and_eq_true] at h
    exact readable_assign (isName_ne_this h.1.2) (ih false h.2)
  field s r x ih direct h := by
    simp only [isExpressible, Bool.and_eq_true] at h
    exact readable_field (ih false h.1)
  setField s r x e ihr ihe direct h := by
    simp only [isExpressible, Bool.and_eq_true] at h
    exact readable_setField (ihr false h.1.1) (ihe false h.2)
  call s f args ihf ihargs direct h := by
    simp only [isExpressible, Bool.and_eq_true, Bool.or_eq_true] at h
    refine readable_call ?_ (ihargs false h.2)
    obtain callee | operator := h.1
    · exact ihf false callee
    · -- The callee is a variable, which need not be a name.
      cases f with
      | var s x => exact readable_var s x
      | _ => simp [operator?] at operator
  methodCall s r x args ihr ihargs direct h := by
    simp only [isExpressible, Bool.and_eq_true] at h
    exact readable_methodCall (ihr false h.1.1) (ihargs false h.2)
  function s name params body ih direct h := by
    simp only [isExpressible, Bool.and_eq_true, decide_eq_true_eq] at h
    refine readable_function (bound_of_isName ?_) h.1.2 (bound_of_isName ?_) (ih true h.2)
    · intro x mem
      obtain rfl := Option.mem_toList.mp mem
      exact h.1.1.1
    · exact List.all_eq_true.mp h.1.1.2
  object s fields ih direct h := by
    simp only [isExpressible, Bool.and_eq_true] at h
    exact readable_object (ih h.2)
  cond s c t e ihc iht ihe direct h := by
    simp only [isExpressible, Bool.and_eq_true] at h
    exact readable_cond (ihc false h.1.1.2) (iht true h.1.2) (ihe true h.2)
  ret s e ih direct h := by
    simp only [isExpressible, Bool.and_eq_true] at h
    exact readable_ret (ih false h.2)
  block s body ih direct h := by cases h
  nil direct h := allReadable_nil
  cons e es ihe ihes direct h := by
    simp only [allExpressible, Bool.and_eq_true] at h
    exact allReadable_cons (ihe direct h.1) (ihes direct h.2)
  noFields h := fun _ mem => absurd mem List.not_mem_nil
  consField x e fs ihe ihfs h := by
    simp only [fieldsExpressible, Bool.and_eq_true] at h
    exact fieldsReadable_cons (ihe false h.1.2) (ihfs h.2)

/-- What was read from a text gives no value to `this`, and the parameters of each function
differ. -/
theorem allReadable_of_parseSource {source : String} {s : Script}
    (h : parseSource source = .ok s) : AllReadable s.body :=
  readable_inductive.list s.body true (isExpressible_of_parseSource h)

/-- What is read from a text, if that is a script. -/
def Script.ofText (source : String) : Script :=
  match parseSource source with
  | .ok s => s
  | .error _ => ⟨[], none⟩

theorem Script.parse_ofText {source : String} (read : (parseSource source).isOk = true) :
    parseSource source = .ok (ofText source) := by
  unfold ofText
  cases parsed : parseSource source with
  | ok s => rfl
  | error e =>
    rw [parsed] at read
    cases read

end TaggedScript
