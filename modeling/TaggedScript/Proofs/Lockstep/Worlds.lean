import TaggedScript.Evaluation
import TaggedScript.Proofs.Effects
import TaggedScript.Proofs.Lockstep.Code
import TaggedScript.Proofs.WorldLaws

/-!
Worlds that differ in no more than how they number their objects and classes. What is done in one of
them shows in the same way in the other.
-/
namespace TaggedScript

/-- Calls of the functions come to the same. -/
inductive Body.Alike {R : Renumbering} (L : Lockstep R) : Body → Body → Prop
  | print : Alike L (.native .print) (.native .print)
  | operator (op : Operator) : Alike L (.native (.operator op)) (.native (.operator op))
  | compiled {parameterCount slotCount : Nat} {is js : List Instr} (alike : Alikes L 0 0 is js) :
    Alike L (.compiled (.ofInstrs parameterCount slotCount (is ++ [.ret])))
      (.compiled (.ofInstrs parameterCount slotCount (js ++ [.ret])))

theorem Body.Alike.map {R R' : Renumbering} {L : Lockstep R} {L' : Lockstep R'} {b b' : Body}
    (h : b.Alike L b') (carries : L.Carries L') : b.Alike L' b' := by
  cases h with
  | print => exact .print
  | operator op => exact .operator op
  | compiled alike => exact .compiled (alike.map carries)

namespace Lockstep
variable {R : Renumbering}

/-- An object is a function, and its counterpart the same one. -/
structure Counterparts (L : Lockstep R) (o o' : HostObject) : Prop where
  name : o.name = o'.name
  body : o.body.Alike L o'.body

/-- The functions and classes with a counterpart are the same as that. -/
structure Programs (L : Lockstep R) (w w' : World) : Prop where
  functions : ∀ id, id.index < L.objects →
    L.Counterparts (w.object (R.object id)) (w'.object id)
  shapes : ∀ id, id.index < L.shapes → w.shape (R.shape id) = w'.shape id

/-- What can be read from the worlds is the same. -/
structure Worlds (L : Lockstep R) (w w' : World) : Prop extends L.Programs w w' where
  globals : ∀ x, L.Knows (w'.global x) ∧ w.global x = R.value (w'.global x)
  fields : ∀ id, id.index < L.objects → ∀ x,
    L.Knows (w'.field id x) ∧ w.field (R.object id) x = R.value (w'.field id x)
  output : w.output = w'.output
  closed : w.closed = w'.closed
  scopes : 0 < w.scopes.size ∧ 0 < w'.scopes.size

variable {L L' : Lockstep R} {w w' : World}

/-- A value of the left side is the counterpart of one of the right side. -/
structure Matches (L : Lockstep R) (v u : Value) : Prop where
  known : L.Knows u
  moved : v = R.value u

namespace Counterparts
variable {o o' : HostObject}

theorem map {R' : Renumbering} {L' : Lockstep R'} (h : L.Counterparts o o')
    (carries : L.Carries L') : L'.Counterparts o o' := ⟨h.name, h.body.map carries⟩

theorem isCallable (h : L.Counterparts o o') : o.isCallable = true ∧ o'.isCallable = true := by
  obtain ⟨-, body⟩ := h
  unfold HostObject.isCallable
  generalize o.body = b, o'.body = b' at body
  cases body <;> exact ⟨rfl, rfl⟩

end Counterparts

namespace Programs

theorem grow (h : L.Programs w w') (grows : L.Grows L') (objects : L'.objects = L.objects)
    (shapes : L'.shapes = L.shapes) : L'.Programs w w' where
  functions id known := (h.functions id (objects ▸ known)).map grows.carries
  shapes id known := h.shapes id (shapes ▸ known)

theorem change (h : L.Programs w w') {v v' : World} (left : w.Fixed v) (right : w'.Fixed v') :
    L.Programs v v' where
  functions id known := by
    obtain ⟨name, body⟩ := h.functions id known
    exact ⟨by rw [left.name, right.name, name], by rw [left.body, right.body]; exact body⟩
  shapes id known := by rw [left.shape, right.shape, h.shapes id known]

/-- Objects that have a counterpart are there. -/
theorem inside (h : L.Programs w w') {id : ObjectId} (known : id.index < L.objects) :
    (R.object id).index < w.objects.size ∧ id.index < w'.objects.size := by
  obtain ⟨left, right⟩ := (h.functions id known).isCallable
  exact ⟨World.lt_of_isCallable left, World.lt_of_isCallable right⟩

/-- Values show alike. All objects among them are functions. -/
theorem text (h : L.Programs w w') {v : Value} (known : L.Knows v) :
    w.text (R.value v) = w'.text v := by
  unfold World.text
  cases v with
  | object id =>
    have same := h.functions id known
    obtain ⟨left, right⟩ := same.isCallable
    simp only [Renumbering.value_object, World.textWithin, left, right, ↓reduceIte, same.name]
  | shape id => simp only [Renumbering.value_shape, World.textWithin, h.shapes id known]
  | undefined | bool | int | str | ref => rfl

theorem typeOf (h : L.Programs w w') {v : Value} (known : L.Knows v) :
    w.typeOf (R.value v) = w'.typeOf v := by
  cases v with
  | object id =>
    obtain ⟨left, right⟩ := (h.functions id known).isCallable
    simp only [Renumbering.value_object, World.typeOf, left, right, ↓reduceIte]
  | undefined | bool | int | str | shape | ref => rfl

theorem notAFunction (h : L.Programs w w') {v : Value} (known : L.Knows v) :
    w.notAFunction (R.value v) = w'.notAFunction v := by
  have text := h.text known
  cases v <;> first | rfl | exact congrArg Failure.notAFunction text

theorem noFields (h : L.Programs w w') (x : String) {v : Value} (known : L.Knows v) :
    w.noFields x (R.value v) = w'.noFields x v := congrArg (Failure.noFields x) (h.text known)

end Programs

namespace Worlds

theorem grow (h : L.Worlds w w') (grows : L.Grows L') (objects : L'.objects = L.objects)
    (shapes : L'.shapes = L.shapes) : L'.Worlds w w' where
  toPrograms := h.toPrograms.grow grows objects shapes
  globals x := ⟨grows.knows (h.globals x).1, (h.globals x).2⟩
  fields id known x :=
    have same := h.fields id (objects ▸ known) x
    ⟨grows.knows same.1, same.2⟩
  output := h.output
  closed := h.closed
  scopes := h.scopes

theorem globals_of_scopes (h : L.Worlds w w') {v v' : World} (left : v.scopes = w.scopes)
    (right : v'.scopes = w'.scopes) (x : String) :
    L.Knows (v'.global x) ∧ v.global x = R.value (v'.global x) := by
  rw [World.global_of_scopes left, World.global_of_scopes right]
  exact h.globals x

theorem setGlobal (h : L.Worlds w w') (x : String) {v : Value} (known : L.Knows v) :
    L.Worlds (w.setGlobal x (R.value v)) (w'.setGlobal x v) where
  toPrograms := h.toPrograms.change (.of_objects rfl rfl) (.of_objects rfl rfl)
  globals y := by
    rw [World.global_setGlobal, World.global_setGlobal]
    by_cases here : y = x
    · simp [here, h.scopes, known]
    · simpa [here] using h.globals y
  fields id known y := h.fields id known y
  output := h.output
  closed := h.closed
  scopes := by simpa [World.setGlobal, World.scopes_size_register] using h.scopes

theorem setField (h : L.Worlds w w') {id : ObjectId} (there : id.index < L.objects) (x : String)
    {v : Value} (known : L.Knows v) :
    L.Worlds (w.setField (R.object id) x (R.value v)) (w'.setField id x v) where
  toPrograms := h.toPrograms.change (.setField w _ x _) (.setField w' id x v)
  globals := h.globals_of_scopes rfl rfl
  fields other known' y := by
    obtain ⟨left, right⟩ := h.inside there
    simp only [World.field_setField, R.object_injective.eq_iff, left, right, and_true]
    by_cases here : other = id ∧ y = x
    · simp only [if_pos here]
      exact ⟨known, trivial⟩
    · simp only [if_neg here]
      exact h.fields other known' y
  output := h.output
  closed := h.closed
  scopes := h.scopes

theorem withOutput (h : L.Worlds w w') (line : String) :
    L.Worlds { w with output := w.output ++ line } { w' with output := w'.output ++ line } where
  toPrograms := h.toPrograms.change (.of_objects rfl rfl) (.of_objects rfl rfl)
  globals := h.globals_of_scopes rfl rfl
  fields := h.fields
  output := congrArg (· ++ line) h.output
  closed := h.closed
  scopes := h.scopes

end Worlds

/-- What two actions leave of two worlds. -/
structure Leave (L : Lockstep R) (w w' v v' : World) : Prop where
  worlds : L.Worlds v v'
  left : w.Fixed v
  right : w'.Fixed v'

theorem Worlds.leave (h : L.Worlds w w') : L.Leave w w' w w' := ⟨h, .refl w, .refl w'⟩

/-- Two actions outside of the machines come to the same. -/
def Acts (L : Lockstep R) (w w' : World) :
    EStateM.Result Failure World Value → EStateM.Result Failure World Value → Prop
  | .ok a v, .ok a' v' => L.Matches a a' ∧ L.Leave w w' v v'
  | .error e v, .error e' v' => e = e' ∧ L.Leave w w' v v'
  | _, _ => False

/-- An operator compares values of any kind and computes with plain ones. -/
theorem apply_moved (h : L.Programs w w') (op : Operator) {a b : Value} (left : L.Knows a)
    (right : L.Knows b) : op.apply w (R.value a) (R.value b) = op.apply w' a b := by
  have order : Operator.order? (R.value a) (R.value b) = Operator.order? a b := by
    cases a <;> cases b <;> rfl
  cases op with
  | eq | ne => simp only [Operator.apply, R.value_injective.eq_iff, ne_eq]
  | lt | le | gt | ge => simp only [Operator.apply, order, h.typeOf left, h.typeOf right]
  | add | sub | mul | div | rem =>
    simp only [Operator.apply, h.typeOf left, h.typeOf right]
    cases a <;> cases b <;> rfl

theorem matches_plain (L : Lockstep R) {v : Value} (plain : v.isInterned = false)
    (other : ∀ offset, v ≠ .ref offset) : L.Matches v v := by
  cases v with
  | undefined | bool | int => exact ⟨trivial, rfl⟩
  | ref offset => exact absurd rfl (other offset)
  | str | object | shape => cases plain

theorem acts_operator (h : L.Worlds w w') (op : Operator) {args : List Value}
    (known : ∀ v ∈ args, L.Knows v) :
    L.Acts w w' (callOperator op (args.map R.value) w) (callOperator op args w') := by
  match args with
  | [a, b] =>
    have same := apply_moved h.toPrograms op (known a (by simp)) (known b (by simp))
    simp only [callOperator, List.map_cons, List.map_nil, bind_eq, get_eq, same]
    cases result : op.apply w' a b with
    | ok v =>
      obtain ⟨plain, other⟩ := Operator.apply_plain result
      exact ⟨L.matches_plain plain other, h.leave⟩
    | error e => exact ⟨rfl, h.leave⟩
  | [] | [_] | a :: b :: c :: rest =>
    exact ⟨by simp, h.leave⟩

theorem acts_print (h : L.Worlds w w') {args : List Value} (known : ∀ v ∈ args, L.Knows v) :
    L.Acts w w' (printValues (args.map R.value) w) (printValues args w') := by
  have texts : (args.map R.value).map w.text = args.map w'.text := by
    rw [List.map_map]
    exact List.map_congr_left fun v mem => h.text (known v mem)
  simp only [printValues, bind_eq, get_eq, texts, writeLine]
  by_cases closed : w'.closed = true
  · rw [if_pos closed, if_pos (h.closed.trans closed)]
    exact ⟨rfl, h.leave⟩
  · rw [if_neg closed, if_neg (h.closed ▸ closed)]
    exact ⟨⟨trivial, rfl⟩, h.withOutput _, .of_objects rfl rfl, .of_objects rfl rfl⟩

/-- A call of a function outside of the machines. -/
theorem acts_invoke (h : L.Worlds w w') {id : ObjectId} (there : id.index < L.objects)
    (receiver : Value) {args : List Value} (known : ∀ v ∈ args, L.Knows v) :
    L.Acts w w' (invoke (R.object id) (R.value receiver) (args.map R.value) w)
      (invoke id receiver args w') := by
  obtain ⟨name, body⟩ := h.functions id there
  simp only [invoke, bind_eq, get_eq]
  generalize callLimit w = limit, callLimit w' = limit'
  unfold invokeWithin
  simp only [bind_eq, get_eq, name]
  generalize (w.object (R.object id)).body = b, (w'.object id).body = b' at body
  cases body with
  | print => exact acts_print h known
  | operator op => exact acts_operator h op known
  | compiled => exact ⟨rfl, h.leave⟩

end Lockstep
end TaggedScript
