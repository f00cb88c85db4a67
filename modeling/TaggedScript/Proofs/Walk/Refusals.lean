import TaggedScript.Proofs.Walk.Counts

/-!
A call is refused for the calls that are active only where as many are as may be.
-/
namespace TaggedScript

theorem Operator.apply_ne_tooManyCalls (op : Operator) (w : World) (a b : Value) (name : String) :
    op.apply w a b ≠ .error (.tooManyCalls name) := by
  intro refused
  have integers (x y : Int32) : op.arithmetic x y ≠ .error (.tooManyCalls name) := by
    unfold Operator.arithmetic
    split
    · rintro ⟨⟩
    · split <;> rintro ⟨⟩
  unfold Operator.apply at refused
  split at refused
  · cases refused
  · cases refused
  all_goals
    split at refused
    all_goals first | cases refused | exact integers _ _ refused

/-- An action does not fail for the calls that are active. -/
def Spares {α : Type} (x : Action α) : Prop :=
  ∀ w name v, x w ≠ .error (.tooManyCalls name) v

namespace Spares
variable {α β : Type}

theorem pure (a : α) : Spares (Pure.pure a) := by
  rintro w name v ⟨⟩

theorem get : Spares get := by
  rintro w name v ⟨⟩

theorem change (f : World → World) : Spares (modify f) := by
  rintro w name v ⟨⟩

theorem set (w : World) : Spares (MonadStateOf.set w) := by
  rintro w name v ⟨⟩

theorem throw {e : Failure} (other : ∀ name, e ≠ .tooManyCalls name) :
    Spares (throw e : Action α) := by
  intro w name v refused
  injection refused with same
  exact other name same

theorem bind {x : Action α} {f : α → Action β} (hx : Spares x) (hf : ∀ a, Spares (f a)) :
    Spares (x >>= f) := by
  intro w name v refused
  rw [bind_eq] at refused
  split at refused
  · exact hf _ _ name v refused
  · rename_i first
    injection refused with failure
    exact hx _ name _ (failure ▸ first)

theorem fieldOwner (x : String) (receiver : Value) : Spares (TaggedScript.fieldOwner x receiver) := by
  unfold TaggedScript.fieldOwner
  split
  · exact pure _
  · exact get.bind fun w => throw fun name same => by cases same

theorem readField (x : String) (receiver : Value) : Spares (Walk.readField x receiver) :=
  (fieldOwner x receiver).bind fun _ => get.bind fun _ => pure _

theorem writeField (x : String) (stored receiver : Value) :
    Spares (Walk.writeField x stored receiver) :=
  (fieldOwner x receiver).bind fun _ => (change _).bind fun _ => pure _

theorem bindName (scope : ScopeId) (x : String) (declare : Bool) (v : Value) :
    Spares (Walk.bind scope x declare v) := by
  have declared : Spares (declareVariable scope x v) := by
    refine get.bind fun w => ?_
    split
    · exact throw fun name same => by cases same
    · exact set _
  unfold Walk.bind
  split
  · exact declared.bind fun _ => pure v
  · exact (change _).bind fun _ => pure v

theorem newObject (table : Table) : Spares (Walk.newObject table) :=
  get.bind fun _ => (set _).bind fun _ => pure _

theorem makeClosure (scope : ScopeId) (run : RunId) (definition : FunDef) :
    Spares (TaggedScript.makeClosure scope run definition) := by
  refine get.bind fun w => ?_
  cases definition.name with
  | some name => exact (set _).bind fun _ => pure _
  | none => exact (set _).bind fun _ => pure _

theorem printValues (args : List Value) : Spares (TaggedScript.printValues args) := by
  refine get.bind fun w => bind (fun w name v refused => ?_) fun _ => pure _
  unfold writeLine at refused
  split at refused
  · cases refused
  · cases refused

theorem callOperator (op : Operator) (args : List Value) :
    Spares (TaggedScript.callOperator op args) := by
  unfold TaggedScript.callOperator
  split
  · rename_i a b
    refine get.bind fun w => ?_
    cases result : op.apply w a b with
    | ok v => exact pure v
    | error e => exact throw fun name same => op.apply_ne_tooManyCalls w a b name (same ▸ result)
  · exact throw fun name same => by cases same

theorem callHost (respond : View → Value → List Value → List Effect × Except String Value)
    (receiver : Value) (args : List Value) :
    Spares (TaggedScript.callHost respond receiver args) := by
  refine get.bind fun w => (change _).bind fun _ => ?_
  split
  · exact pure _
  · exact throw fun name same => by cases same

end Spares

namespace Walk

/-- A closure is called with as many arguments as it takes, and as many functions of its run are
active as may be. -/
def CallsTooMany (m : Walk) (name : String) : Prop :=
  ∃ id receiver args scope run definition, m.control = .apply (.object id) receiver args ∧
    (m.world.object id).body = .native (.closure scope run definition) ∧
    (m.world.object id).name = name ∧ args.length = definition.params.length ∧
    m.active.count run = maxActiveCalls

/-- What comes next is not that a call is refused. -/
def Goes (m : Walk) : Prop := ∀ name, m.control ≠ .failed (.tooManyCalls name)

variable {m : Walk}

theorem goes_perform {α : Type} {x : Action α} (spares : Spares x) {c : α → Control}
    (value : ∀ a, (m.goto (c a)).Goes) : (m.perform x c).Goes := by
  intro name
  unfold perform
  split
  · exact value _ name
  · rename_i result
    rintro ⟨⟩
    exact spares _ name _ result

theorem goes_start (e : Expr) : (m.start e).Goes := by
  cases e with
  | function => exact goes_perform (.makeClosure _ _ _) fun a name refused => by cases refused
  | _ =>
    intro name refused
    cases refused

theorem goes_hand (v : Value) (p : Pending) : (m.hand v p).Goes := by
  cases p with
  | assign => exact goes_perform (.bindName _ _ _ _) fun a name refused => by cases refused
  | field => exact goes_perform (.readField _ _) fun a name refused => by cases refused
  | setField => exact goes_perform (.writeField _ _ _) fun a name refused => by cases refused
  | receiver => exact goes_perform (.readField _ _) fun a name refused => by cases refused
  | _ =>
    intro name refused
    cases refused

theorem notAFunction_ne_tooManyCalls (w : World) (v : Value) (name : String) :
    w.notAFunction v ≠ .tooManyCalls name := by
  cases v with
  | _ => rintro ⟨⟩

theorem callsTooMany_of_apply {runs : Nat} (sound : m.Sound runs) {callee receiver : Value}
    {args : List Value} (calls : m.control = .apply callee receiver args) {name : String}
    (refused : (m.apply callee receiver args).control = .failed (.tooManyCalls name)) :
    m.CallsTooMany name := by
  have value (v : Value) : (m.goto (.value v)).Goes := by
    rintro name ⟨⟩
  unfold Walk.apply at refused
  split at refused
  · rename_i id
    simp only at refused
    split at refused
    · injection refused with same
      exact absurd same (notAFunction_ne_tooManyCalls _ _ _)
    · cases refused
    · exact absurd refused (goes_perform (.printValues args) value name)
    · exact absurd refused (goes_perform (.callOperator _ args) value name)
    · exact absurd refused (goes_perform (.callHost _ receiver args) value name)
    · rename_i scope run definition body
      split at refused
      · cases refused
      · rename_i arity
        split at refused
        · rename_i full
          injection refused with same
          injection same with same
          rw [sound.counts] at full
          exact ⟨id, receiver, args, scope, run, definition, calls, body, same,
            not_not.mp arity, Nat.le_antisymm (sound.bounded run) full⟩
        · cases refused
  · injection refused with same
    exact absurd same (notAFunction_ne_tooManyCalls _ _ _)

theorem next_of_callsTooMany {runs : Nat} (sound : m.Sound runs) {name : String}
    (calls : m.CallsTooMany name) : m.next.control = .failed (.tooManyCalls name) := by
  obtain ⟨id, receiver, args, scope, run, definition, calls, body, rfl, arity, full⟩ := calls
  rw [← sound.counts] at full
  unfold next
  rw [calls]
  simp only [Walk.apply]
  rw [body]
  simp only
  rw [if_neg (not_not.mpr arity), full, if_pos (Nat.le_refl _)]
  rfl

/-- A moment leads to a refusal of a call just where too many functions are active. -/
theorem Sound.next_refuses_iff {runs : Nat} (sound : m.Sound runs)
    (running : ∀ e, m.control ≠ .failed e) (name : String) :
    m.next.control = .failed (.tooManyCalls name) ↔ m.CallsTooMany name := by
  refine ⟨fun refused => ?_, next_of_callsTooMany sound⟩
  unfold Walk.next at refused
  split at refused
  · exact absurd refused (goes_start _ name)
  · cases refused
  · cases refused
  · cases refused
  · cases refused
  · refine absurd refused (goes_perform (.newObject _) (fun v => ?_) name)
    rintro name ⟨⟩
  · cases refused
  · rename_i here
    exact callsTooMany_of_apply sound here refused
  · rename_i v here
    split at refused
    · rw [here] at refused
      cases refused
    · exact absurd refused (goes_hand v _ name)
  · rename_i v here
    split at refused
    · rw [here] at refused
      cases refused
    · rename_i p rest first
      cases p with
      | activation => cases refused
      | _ =>
        simp only [unwind, here] at refused
        cases refused
  · rename_i e here
    exact absurd here (running e)

end Walk
end TaggedScript
