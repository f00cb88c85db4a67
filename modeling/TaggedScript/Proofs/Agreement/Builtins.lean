import TaggedScript.Proofs.Agreement.Operations

/-!
The functions that every world begins with go together on both sides.
-/
namespace TaggedScript

section
variable {w : World} {id : ObjectId}

theorem callValue_native {n : Native} (body : (w.object id).body = .native n) (receiver : Value)
    (args : List Value) :
    callValue invoke (.object id) receiver args w =
      invokeWithin (callLimit w) id receiver args w := by
  have callable : (w.object id).isCallable = true := by simp [HostObject.isCallable, body]
  simp only [callValue, bind_eq, get_eq, callable, ↓reduceIte, invoke]

theorem callValue_print (body : (w.object id).body = .native .print) (receiver : Value)
    (args : List Value) : callValue invoke (.object id) receiver args w = printValues args w := by
  rw [callValue_native body]
  unfold invokeWithin
  simp only [bind_eq, get_eq, body]

theorem callValue_operator {op : Operator} (body : (w.object id).body = .native (.operator op))
    (receiver : Value) (args : List Value) :
    callValue invoke (.object id) receiver args w = callOperator op args w := by
  rw [callValue_native body, invokeWithin_operator body]

/-- The line that shows values. -/
def World.line (w : World) (args : List Value) : String :=
  String.intercalate " " (args.map w.text) ++ "\n"

theorem printValues_eq (args : List Value) (w : World) :
    printValues args w =
      if w.closed then .error .sinkClosed w
      else .ok .undefined { w with output := w.output ++ w.line args } := by
  simp only [printValues, bind_eq, get_eq, writeLine, World.line]
  cases w.closed <;> rfl

end

section
variable {program : Program} {p : Place} {pairs : List Value} {w : World} {σ : Memory}
  {args args' : List Value}

/-- Values that may be shown make the same line. -/
theorem line_eq (h : SameObjects program p.made pairs w σ)
    (same : List.Forall₂ (Same pairs) args args') (shown : args.any w.isPlain = false) :
    w.line args = σ.world.line args' := by
  have texts : args.map w.text = args'.map σ.world.text := by
    induction same with
    | nil => rfl
    | cons first _ ih =>
      rw [List.any_cons, Bool.or_eq_false_iff] at shown
      rw [List.map_cons, List.map_cons, first.text_eq h shown.1, ih shown.2]
  rw [World.line, World.line, texts]

theorem EndsAlike.print (here : p.Here program pairs w σ)
    (same : List.Forall₂ (Same pairs) args args') :
    EndsAlike program p Same pairs w (Watched.printValues args w)
      (Meaning.outside (printValues args') σ) := by
  simp only [Watched.printValues, bind_eq, get_eq]
  by_cases plain : args.any w.isPlain = true
  · rw [if_pos plain]
    exact .excused .exposed
  · rw [if_neg plain, Watched.act, Meaning.outside, printValues_eq, printValues_eq,
      ← line_eq here.agree.objects same (by simpa using plain), ← here.agree.output]
    by_cases closed : w.closed = true
    · rw [if_pos closed, if_pos (here.agree.closed ▸ closed)]
      exact .failed here.agree.output
    · rw [if_neg closed, if_neg (here.agree.closed ▸ closed)]
      have agree := here.agree.setOutput (w.output ++ w.line args)
      exact .ok (List.prefix_refl _) (here.withObjects agree (List.prefix_refl _) rfl rfl)
        (.of_scopes (by rfl) _) .undefined

theorem EndsAlike.operator (here : p.Here program pairs w σ)
    (same : List.Forall₂ (Same pairs) args args') (op : Operator) :
    EndsAlike program p Same pairs w (Watched.act (callOperator op args) w)
      (Meaning.outside (callOperator op args') σ) := by
  have count := same.length_eq
  have wrong (args args' : List Value) (count : args.length = args'.length) :
      EndsAlike program p Same pairs w
        (.error (.failed (.wrongArity op.symbol 2 args.length)) w)
        (.error (.failed (.wrongArity op.symbol 2 args'.length)) σ) := by
    rw [count]
    exact .failed here.agree.output
  cases same with
  | nil => exact wrong [] [] rfl
  | cons first rest =>
    cases rest with
    | nil => exact wrong [_] [_] rfl
    | cons second rest =>
      cases rest with
      | cons third rest => exact wrong _ _ count
      | nil =>
        have result := here.agree.objects.apply_eq op first second
        simp only [Watched.act, Meaning.outside, callOperator, bind_eq, get_eq, ← result]
        cases value : op.apply w _ _ with
        | ok v =>
          obtain ⟨plain, noReference⟩ := Operator.apply_plain value
          exact .ok (List.prefix_refl _) here (.refl _ w) (same_of_plain plain noReference)
        | error e => exact .failed here.agree.output

/-- What stands for the function that prints prints. -/
theorem Agree.print_body {made : Nat} (h : Agree program made pairs w σ) :
    ∃ id, σ.world.global printName = .object id ∧ (σ.world.object id).body = .native .print := by
  obtain ⟨bound, body⟩ := h.globals.print
  have same := h.globals.values printName
  rw [bound] at same
  generalize σ.world.global printName = v at same ⊢
  cases same with
  | object found =>
    cases h.objects.stands printId v found with
    | @function id twins =>
      refine ⟨id, rfl, ?_⟩
      cases twins with
      | builtin _ body' there =>
        cases body.symm.trans body'
        exact there
      | closure body' => cases body.symm.trans body'
    | record body' => cases body.symm.trans body'

/-- The shortcut for a call of `print` with one argument is that call. -/
theorem together_print {v v' : Value} (same : Same pairs v v') (depth : Nat) :
    Together program p p Same pairs
      (Watched.callValue (Watched.invokeWithin depth) (.object printId) .undefined [v])
      (Meaning.print v') := by
  intro more grows w σ here
  have body := here.agree.globals.print.2
  have callable : (w.object printId).isCallable = true := by simp [HostObject.isCallable, body]
  have left : Watched.callValue (Watched.invokeWithin depth) (.object printId) .undefined [v] w =
      Watched.printValues [v] w := by
    simp only [Watched.callValue, bind_eq, get_eq, callable, ↓reduceIte]
    unfold Watched.invokeWithin
    simp only [bind_eq, get_eq, body]
  obtain ⟨id, bound, body'⟩ := here.agree.print_body
  have right : Meaning.print v' σ = Meaning.outside (printValues [v']) σ := by
    simp only [Meaning.print, bind_eq, get_eq, bound, Meaning.outside, callValue_print body',
      printValues_eq]
    cases σ.world.closed <;> rfl
  rw [left, right]
  exact .print here (.cons (same.mono grows) .nil)

theorem together_printed {q : Place} {argument : Watched (List Value)}
    {argument' : Meaning (List Value)}
    (h : Together program p q (sameValues 1) pairs argument argument') (depth : Nat) :
    Together program p q Same pairs
      (do
        let values ← argument
        Watched.callValue (Watched.invokeWithin depth) (.object printId) .undefined values)
      (do
        let values ← argument'
        Meaning.print (values.headD .undefined)) := by
  refine h.bind (.refl _) ?_
  rintro more - values values' ⟨count, same⟩
  obtain ⟨v, rfl⟩ := List.length_eq_one_iff.mp count
  cases same with
  | cons first rest =>
    cases rest
    exact together_print first depth

end
end TaggedScript
