import TaggedScript.Proofs.Agreement.Compiles
import TaggedScript.Proofs.Compilation.Histories

/-!
Which sources the compiler rejects, and for what. It comes upon the functions of a source in the
order of their code, checks the parameters of each before it goes into the body, and stops at the
first fault.
-/
namespace TaggedScript

open TaggedScript.Expr

/-- The parameters of a function differ from the receiver and from each other. -/
structure FunDef.Distinct (f : FunDef) : Prop where
  this : thisName ∉ f.params
  params : f.params.Nodup

/-- The fault of the first parameter that has one. -/
inductive FirstFault (function : String) (params : List String) : CompileFault → Prop
  | receiver {before after : List String} (place : params = before ++ thisName :: after)
    (this : thisName ∉ before) (differ : before.Nodup) :
    FirstFault function params (.thisParameter function)
  | repeated {before after : List String} {x : String} (place : params = before ++ x :: after)
    (this : thisName ∉ before) (differ : before.Nodup) (again : x ∈ before) :
    FirstFault function params (.duplicateParameter function x)

/-- The check goes on from parameters that have passed it, and finds the first that does not. -/
theorem checkParameters_spec (function : String) (span : Span) {before : List String}
    (params : List String) (c : Compiling) (this : thisName ∉ before) (differ : before.Nodup) :
    match Compile.checkParameters function span (thisName :: before) params c with
    | .ok _ _ => thisName ∉ before ++ params ∧ (before ++ params).Nodup
    | .error e _ => e.span = span ∧ FirstFault function (before ++ params) e.fault := by
  induction params generalizing before with
  | nil =>
    rw [List.append_nil]
    exact ⟨this, differ⟩
  | cons x params ih =>
    rw [Compile.checkParameters]
    by_cases receiver : x = thisName
    · subst receiver
      rw [if_pos rfl]
      exact ⟨rfl, .receiver rfl this differ⟩
    rw [if_neg receiver]
    by_cases known : x ∈ thisName :: before
    · rw [if_pos known]
      exact ⟨rfl, .repeated rfl this differ ((List.mem_cons.mp known).resolve_left receiver)⟩
    rw [if_neg known]
    have new : x ∉ before := fun mem => known (List.mem_cons_of_mem _ mem)
    have this' : thisName ∉ before ++ [x] := by simpa using ⟨this, Ne.symm receiver⟩
    have rest := ih this' (nodup_concat_of_notMem differ new)
    rwa [List.append_assoc, List.singleton_append] at rest

namespace FirstFault
variable {function : String} {params : List String} {fault : CompileFault}

theorem not_distinct {f : FunDef} (h : FirstFault function f.params fault) : ¬ f.Distinct := by
  rintro ⟨this, differ⟩
  cases h with
  | receiver place =>
    rw [place] at this
    exact this (by simp)
  | repeated place _ _ again =>
    rw [place] at differ
    exact (List.nodup_append.mp differ).2.2 _ again _ List.mem_cons_self rfl

end FirstFault

namespace Expr

/-- If the expression itself is a function, its parameters are distinct. -/
def Distinct (p : Expr) : Prop := ∀ f, p.definition? = some f → f.Distinct

/-- The error is about this function: it has its place and its name, and names the first of its
parameters with a fault. -/
def Blamed (p : Expr) (e : CompileError) : Prop :=
  ∃ f, p.definition? = some f ∧ e.span = p.span ∧ FirstFault f.displayName f.params e.fault

/-- The error is about the first function with a fault among the expressions. -/
def FirstBlamed (ps : List Expr) (e : CompileError) : Prop :=
  ∃ before p after, ps = before ++ p :: after ∧ (∀ q ∈ before, q.Distinct) ∧ p.Blamed e

theorem Blamed.not_distinct {p : Expr} {e : CompileError} (h : p.Blamed e) : ¬ p.Distinct := by
  obtain ⟨f, function, -, fault⟩ := h
  exact fun distinct => fault.not_distinct (distinct f function)

theorem FirstBlamed.append {ps : List Expr} {e : CompileError} (h : FirstBlamed ps e)
    (qs : List Expr) : FirstBlamed (ps ++ qs) e := by
  obtain ⟨before, p, after, rfl, distinct, blamed⟩ := h
  exact ⟨before, p, after ++ qs, by simp, distinct, blamed⟩

theorem FirstBlamed.after {ps qs : List Expr} {e : CompileError} (h : FirstBlamed qs e)
    (distinct : ∀ p ∈ ps, p.Distinct) : FirstBlamed (ps ++ qs) e := by
  obtain ⟨before, p, after, rfl, distinct', blamed⟩ := h
  exact ⟨ps ++ before, p, after, by simp, List.forall_mem_append.mpr ⟨distinct, distinct'⟩, blamed⟩

end Expr

/-- A part of the compiler checks the functions among the expressions in their order, up to the
first with a fault. -/
def Checks {α : Type} (x : Compile α) (ps : List Expr) : Prop := ∀ c,
  match x c with
  | .ok _ _ => ∀ p ∈ ps, p.Distinct
  | .error e _ => FirstBlamed ps e

namespace Checks
variable {α β : Type} {x : Compile α} {f : α → Compile β} {ps qs : List Expr}

/-- What finds no fault has nothing to check. -/
theorem of_succeeds [h : Succeeds x] : Checks x [] := by
  intro c
  obtain ⟨a, d, result⟩ := h.result c
  rw [result]
  exact fun p mem => by cases mem

theorem bind (hx : Checks x ps) (hf : ∀ a, Checks (f a) qs) : Checks (x >>= f) (ps ++ qs) := by
  intro c
  have first := hx c
  rw [bind_eq]
  cases result : x c with
  | error e d =>
    rw [result] at first
    exact first.append qs
  | ok a d =>
    rw [result] at first
    have second := hf a d
    simp only
    cases last : f a d with
    | error e d' =>
      rw [last] at second
      exact second.after first
    | ok b d' =>
      rw [last] at second
      exact List.forall_mem_append.mpr ⟨first, second⟩

/-- What comes after the checks finds no fault. -/
theorem done (hx : Checks x ps) [∀ a, Succeeds (f a)] : Checks (x >>= f) ps := by
  have whole := hx.bind fun a => of_succeeds (x := f a)
  rwa [List.append_nil] at whole

/-- What comes before the checks finds no fault. -/
theorem later [Succeeds x] (hf : ∀ a, Checks (f a) ps) : Checks (x >>= f) ps :=
  (of_succeeds (x := x)).bind hf

/-- An expression that is no function has nothing to check itself. -/
theorem plain (h : Checks x ps) {p : Expr} (no : p.definition? = none) : Checks x (p :: ps) := by
  have distinct : ∀ q ∈ [p], q.Distinct := by
    intro q mem f function
    rw [List.mem_singleton.mp mem, no] at function
    cases function
  intro c
  have checked := h c
  cases result : x c with
  | ok a d =>
    rw [result] at checked
    exact List.forall_mem_append.mpr ⟨distinct, checked⟩
  | error e d =>
    rw [result] at checked
    exact checked.after distinct

/-- The parameters of a function are checked before its body. -/
theorem functionWith {compileBody : List String → Compile (List Instr)} {body : List Expr}
    (h : ∀ slots, Checks (compileBody slots) ps) (span : Span) (name? : Option String)
    (params : List String) :
    Checks (Compile.functionWith compileBody span name? params body)
      (.function span name? params body :: ps) := by
  have parameters : Checks
      (Compile.checkParameters (name?.getD lambdaName) span [thisName] params)
      [.function span name? params body] := by
    intro c
    have checked := checkParameters_spec (name?.getD lambdaName) span params c
      List.not_mem_nil List.nodup_nil
    split at checked <;> rename_i result <;> rw [result]
    · intro p mem f function
      rw [List.mem_singleton.mp mem] at function
      cases function
      exact ⟨checked.1, checked.2⟩
    · refine ⟨[], _, [], rfl, ?_, _, rfl, checked.1, checked.2⟩
      exact fun q mem => absurd mem List.not_mem_nil
  unfold Compile.functionWith
  exact parameters.bind fun _ => (h _).done

end Checks

theorem checks_inductive : Expr.Inductive
    (fun e => ∀ slots base, Checks (Compile.expr slots base e) e.parts)
    (fun es => ∀ slots base, Checks (Compile.all slots base es) (partsAll es) ∧
      Checks (Compile.block slots base es) (partsAll es))
    (fun fs => ∀ slots base, Checks (Compile.fields slots base fs) (partsFields fs)) where
  literal s v slots base := by
    rw [Compile.expr, parts]
    exact Checks.plain .of_succeeds rfl
  var s x slots base := by
    rw [Compile.expr, parts]
    exact Checks.plain .of_succeeds rfl
  assign s x declare e ih slots base := by
    rw [Compile.expr, parts]
    exact (ih slots base).done.plain rfl
  field s r x ih slots base := by
    rw [Compile.expr, parts]
    exact (ih slots base).done.plain rfl
  setField s r x e ihr ihe slots base := by
    rw [Compile.expr, parts]
    exact ((ihe slots base).bind fun value => (ihr slots _).done).plain rfl
  call s f args ihf ihargs slots base := by
    rw [Compile.expr, parts]
    by_cases printed : Compile.printed? slots f args = true
    · rw [if_pos printed]
      obtain ⟨t, arg, rfl, rfl, -⟩ := eq_of_printed printed
      exact ((ihargs slots base).1.done.plain rfl).plain rfl
    · rw [if_neg printed]
      exact ((ihf slots base).bind fun callee => (ihargs slots _).1.done).plain rfl
  methodCall s r x args ihr ihargs slots base := by
    rw [Compile.expr, parts]
    exact ((ihr slots base).bind fun receiver =>
      .later fun name => (ihargs slots _).1.done).plain rfl
  function s name? params body ih slots base := by
    have made : Checks
        (Compile.functionWith (fun slots => Compile.block slots 0 body) s name? params body)
        (.function s name? params body :: partsAll body) :=
      .functionWith (fun slots => (ih slots 0).2) s name? params
    rw [Compile.expr, parts]
    cases name? with
    | none => exact made.done
    | some x => exact made.done
  object s fields ih slots base := by
    rw [Compile.expr, parts]
    exact (Checks.later fun shape => (ih slots base).done).plain rfl
  cond s c t e ihc iht ihe slots base := by
    rw [Compile.expr, parts, List.append_assoc]
    exact ((ihc slots base).bind fun test => (iht slots _).2.bind fun first =>
      (ihe slots _).2.done).plain rfl
  ret s e ih slots base := by
    rw [Compile.expr, parts]
    exact (ih slots base).done.plain rfl
  block s body ih slots base := by
    rw [Compile.expr, parts]
    exact (ih slots base).2.plain rfl
  nil slots base := by
    rw [Compile.all, Compile.block, partsAll]
    exact ⟨.of_succeeds, .of_succeeds⟩
  cons e es ihe ihes slots base := by
    rw [Compile.all, Compile.block, partsAll]
    exact ⟨(ihe slots base).bind fun first => (ihes slots _).1.done,
      (ihe slots base).bind fun first => (ihes slots _).2.done⟩
  noFields slots base := by
    rw [Compile.fields, partsFields]
    exact .of_succeeds
  consField x e fields ihe ihfields slots base := by
    rw [Compile.fields, partsFields]
    exact (ihe slots base).bind fun first => (ihfields slots _).done

namespace Source

/-- The expressions of a source, in the order in which their code is made. -/
def parts : Source → List Expr
  | script s => partsAll s.body
  | function f span => (Expr.function span f.name f.params f.body).parts

theorem checks (s : Source) : Checks s.compile s.parts := by
  cases s with
  | script s =>
    rw [compile, compileScript_eq]
    exact (checks_inductive.list s.body [thisName] 0).2.done
  | function f span =>
    rw [compile, compileFunction_eq]
    exact Checks.functionWith (fun slots => (checks_inductive.list f.body slots 0).2) _ _ _

/-- A source is rejected exactly if one of its functions has a parameter that is the receiver or
another parameter. The error is about the first of these functions and the first of its parameters
with a fault. Whatever happens, no entry of the dictionary is moved or changed; and no source that
was read from a text is rejected. -/
theorem compile_rejects (s : Source) (c : Compiling) :
    ((∃ e d, s.compile c = .error e d) ↔ ∃ p ∈ s.parts, ¬ p.Distinct) ∧
      (∀ e d, s.compile c = .error e d → FirstBlamed s.parts e) ∧
      (∀ (i : Nat) (v : Value), c.dictionary.entries[i]? = some v →
        (stateOf (s.compile c)).dictionary.entries[i]? = some v) ∧
      ∀ text t, parseSource text = .ok t → ∃ main d, (script t).compile c = .ok main d := by
  have checked := s.checks c
  obtain ⟨ps, -, adds⟩ := s.adds c
  refine ⟨⟨?_, ?_⟩, ?_, ?_, ?_⟩
  · rintro ⟨e, d, result⟩
    rw [result] at checked
    obtain ⟨before, p, after, all, -, blamed⟩ := checked
    exact ⟨p, all ▸ by simp, blamed.not_distinct⟩
  · rintro ⟨p, mem, fault⟩
    cases result : s.compile c with
    | error e d => exact ⟨e, d, rfl⟩
    | ok main d =>
      rw [result] at checked
      exact absurd (checked p mem) fault
  · intro e d result
    rw [result] at checked
    exact checked
  · intro i v found
    have bound : i < c.dictionary.size := (Array.getElem?_eq_some_iff.mp found).1
    rw [Dictionary.getElem?_of_extends adds.later.dictionary bound, found]
  · intro text t parsed
    exact compileScript_succeeds (allReadable_of_parseSource parsed) c

/-- The receiver and the value of `o.f = …` are functions with a fault each. -/
def twiceFaulty : Script where
  body := [.setField ⟨0, 40⟩ (.function ⟨0, 18⟩ none ["a", "a"] []) "f"
    (.function ⟨23, 40⟩ (some "g") ["a", "this", "a"] [])]
  source := none

/-- The error is about the value, whose code comes first, and about its second parameter. -/
theorem compile_rejects_twiceFaulty :
    let c : Compiling := ⟨.initial false, .internAll .empty [.str "kept"]⟩
    ∃ e d, (script twiceFaulty).compile c = .error e d ∧ e = ⟨.thisParameter "g", ⟨23, 40⟩⟩ ∧
      FirstBlamed (script twiceFaulty).parts e ∧ d.dictionary.entries[0]? = some (.str "kept") ∧
      ∃ main d, (script (.ofText "return function(a) \x7b \x7d;")).compile c = .ok main d := by
  intro c
  obtain ⟨-, blames, keeps, accepts⟩ := compile_rejects (script twiceFaulty) c
  have kept := keeps 0 (.str "kept") rfl
  have read : (parseSource "return function(a) \x7b \x7d;").isOk = true := by decide +kernel
  have failed : outcome ((script twiceFaulty).compile c) =
      .error ⟨.thisParameter "g", ⟨23, 40⟩⟩ := by decide +kernel
  cases result : (script twiceFaulty).compile c with
  | ok main d =>
    rw [result] at failed
    cases failed
  | error e d =>
    rw [result] at failed kept
    exact ⟨e, d, rfl, Except.error.inj failed, blames e d result, kept,
      accepts _ _ (Script.parse_ofText read)⟩

end Source
end TaggedScript
