import TaggedScript.Builtin
import TaggedScript.Proofs.WordMeaning

/-!
What is read from a world after it was changed, and what operators make.
-/
namespace TaggedScript

theorem Table.get?_set (t : Table) (x : String) (v : Value) (y : String) :
    (t.set x v).get? y = if y = x then some v else t.get? y := by
  induction t with
  | nil =>
    simp only [set, get?]
    by_cases same : x = y
    · rw [if_pos same, if_pos same.symm]
    · rw [if_neg same, if_neg (Ne.symm same)]
  | cons p t ih =>
    obtain ⟨k, u⟩ := p
    simp only [set]
    by_cases here : k = x
    · rw [if_pos here]
      simp only [get?, here]
      by_cases same : x = y
      · rw [if_pos same, if_pos same.symm]
      · rw [if_neg same, if_neg (Ne.symm same), if_neg same]
    · rw [if_neg here]
      simp only [get?, ih]
      by_cases same : k = y
      · have apart : y ≠ x := fun e => here (same.trans e)
        rw [if_pos same, if_neg apart, if_pos same]
      · rw [if_neg same, if_neg same]

theorem Table.length_set {t : Table} {x : String} (h : (t.get? x).isSome = true) (v : Value) :
    (t.set x v).length = t.length := by
  induction t with
  | nil => cases h
  | cons p t ih =>
    obtain ⟨k, u⟩ := p
    simp only [get?] at h
    simp only [set]
    split
    · rfl
    · rename_i other
      rw [if_neg other] at h
      rw [List.length_cons, List.length_cons, ih h]

namespace World

theorem global_eq (w : World) (x : String) :
    w.global x = ((w.scope globalScope).bindings.get? x).getD .undefined := by
  have root : w.resolve globalScope x = globalScope := by
    rw [resolve]
    split
    · exact if_neg (Nat.not_lt_zero _)
    · rfl
  rw [global, lookup, root, lookupLocal?]

theorem global_of_scopes {w v : World} (h : v.scopes = w.scopes) (x : String) :
    v.global x = w.global x := by
  rw [global_eq, global_eq, scope, scope, h]

/-- Reading globals after one was set. -/
theorem global_setGlobal (w : World) (x : String) (v : Value) (y : String) :
    (w.setGlobal x v).global y = if y = x ∧ 0 < w.scopes.size then v else w.global y := by
  rw [global_eq, global_eq]
  simp only [scope, setGlobal, register, globalScope, Array.getD_eq_getD_getElem?,
    Array.getElem?_modify]
  by_cases some : 0 < w.scopes.size
  · rw [Array.getElem?_eq_getElem some]
    simp only [↓reduceIte, Option.map_some, Option.getD_some, Table.get?_set, some, and_true]
    split <;> rfl
  · rw [Array.getElem?_eq_none (by omega)]
    simp [some]

/-- What has code is there. -/
theorem getElem?_of_code {w : World} {id : ObjectId} {code : Code}
    (found : (w.object id).code? = some code) : w.objects[id.index]? = some (w.object id) := by
  cases there : w.objects[id.index]? with
  | none =>
    rw [object, Array.getD_eq_getD_getElem?, there] at found
    cases found
  | some o => rw [object, Array.getD_eq_getD_getElem?, there, Option.getD_some]

theorem lt_of_code {w : World} {id : ObjectId} {code : Code}
    (found : (w.object id).code? = some code) : id.index < w.objects.size :=
  (Array.getElem?_eq_some_iff.mp (getElem?_of_code found)).1

theorem object_addObject (w : World) (o : HostObject) (id : ObjectId) :
    (w.addObject o).2.object id = if id.index = w.objects.size then o else w.object id := by
  simp only [object, addObject, Array.getD_eq_getD_getElem?, Array.getElem?_push]
  split <;> rfl

/-- An object is still there when there are more. -/
theorem object_of_prefix {w v : World} (longer : w.objects.toList <+: v.objects.toList)
    {id : ObjectId} (inside : id.index < w.objects.size) : v.object id = w.object id := by
  obtain ⟨later, all⟩ := longer
  simp only [object, Array.getD_eq_getD_getElem?, ← Array.getElem?_toList, ← all]
  rw [List.getElem?_append_left (by simpa using inside)]

theorem shape_of_prefix {w v : World} (longer : w.shapes.toList <+: v.shapes.toList) {id : ShapeId}
    (inside : id.index < w.shapes.size) : v.shape id = w.shape id := by
  obtain ⟨later, all⟩ := longer
  simp only [shape, Array.getD_eq_getD_getElem?, ← Array.getElem?_toList, ← all]
  rw [List.getElem?_append_left (by simpa using inside)]

/-- An object after a field of one was set. -/
theorem object_setField (w : World) (id : ObjectId) (x : String) (v : Value) (other : ObjectId) :
    (w.setField id x v).object other =
      if other = id ∧ id.index < w.objects.size then
        { w.object id with fields := (w.object id).fields.set x v }
      else w.object other := by
  simp only [object, setField, Array.getD_eq_getD_getElem?, Array.getElem?_modify]
  by_cases there : other.index < w.objects.size
  · rw [Array.getElem?_eq_getElem there]
    by_cases same : other = id
    · subst same
      simp [there]
    · have apart : id.index ≠ other.index := fun e => same (congrArg ObjectId.mk e.symm)
      simp [apart, same]
  · rw [Array.getElem?_eq_none (by omega)]
    by_cases same : other = id
    · subst same
      simp [there]
    · simp [same]

theorem body_setField (w : World) (id : ObjectId) (x : String) (v : Value) (other : ObjectId) :
    ((w.setField id x v).object other).body = (w.object other).body ∧
    ((w.setField id x v).object other).name = (w.object other).name := by
  rw [object_setField]
  split
  · rename_i same
    rw [same.1]
    exact ⟨rfl, rfl⟩
  · exact ⟨rfl, rfl⟩

/-- Reading fields after one was set. -/
theorem field_setField (w : World) (id : ObjectId) (x : String) (v : Value) (other : ObjectId)
    (y : String) :
    (w.setField id x v).field other y =
      if (other = id ∧ id.index < w.objects.size) ∧ y = x then v else w.field other y := by
  rw [field, object_setField]
  by_cases same : other = id ∧ id.index < w.objects.size
  · rw [if_pos same, Table.get?_set]
    by_cases field : y = x
    · rw [if_pos field, if_pos ⟨same, field⟩]
      rfl
    · rw [if_neg field, if_neg (fun h => field h.2), same.1]
      rfl
  · rw [if_neg same, if_neg (fun h => same h.1)]
    rfl

theorem scopes_size_register (w : World) (scope : ScopeId) (x : String) (v : Value) :
    (w.register scope x v).scopes.size = w.scopes.size := by
  simp [register]

theorem lookupLocal?_register (w : World) (scope : ScopeId) (x : String) (v : Value)
    (other : ScopeId) (y : String) :
    (w.register scope x v).lookupLocal? other y =
      if (other = scope ∧ scope.index < w.scopes.size) ∧ y = x then some v
      else w.lookupLocal? other y := by
  simp only [lookupLocal?, World.scope, register, Array.getD_eq_getD_getElem?,
    Array.getElem?_modify]
  by_cases same : other = scope
  · subst same
    by_cases inside : other.index < w.scopes.size
    · rw [Array.getElem?_eq_getElem inside]
      simp [inside, Table.get?_set]
    · simp [inside]
  · have apart : scope.index ≠ other.index := fun e => same (congrArg ScopeId.mk e.symm)
    simp [apart, same]

theorem scope_register_of_ne {w : World} {scope other : ScopeId} (apart : other ≠ scope)
    (x : String) (v : Value) : (w.register scope x v).scope other = w.scope other := by
  have places : scope.index ≠ other.index := fun e => apart (congrArg ScopeId.mk e.symm)
  simp [World.scope, register, Array.getD_eq_getD_getElem?, Array.getElem?_modify, places]

theorem objects_size_setField (w : World) (id : ObjectId) (x : String) (v : Value) :
    (w.setField id x v).objects.size = w.objects.size := by
  simp [setField]

theorem object_install (w : World) (name : String) (native : Native) (id : ObjectId) :
    (w.install name native).object id =
      if id.index = w.objects.size then .ofNative name native else w.object id :=
  w.object_addObject (.ofNative name native) id

theorem objects_size_install (w : World) (name : String) (native : Native) :
    (w.install name native).objects.size = w.objects.size + 1 := by
  simp [install, addObject, setGlobal, register]

theorem scopes_size_install (w : World) (name : String) (native : Native) :
    (w.install name native).scopes.size = w.scopes.size :=
  scopes_size_register (w.addObject (.ofNative name native)).2 _ _ _

theorem global_install (w : World) (name : String) (native : Native) (x : String) :
    (w.install name native).global x =
      if x = name ∧ 0 < w.scopes.size then .object ⟨w.objects.size⟩ else w.global x := by
  rw [install, global_setGlobal, global_of_scopes (w := w) (v := (w.addObject _).2) rfl]
  rfl

/-- What holds of the world without names, and still when a builtin is added, holds of the world
that programs start in. -/
theorem initial_induction {P : World → Prop} {closed : Bool} (empty : P (empty closed))
    (install : ∀ w name native, (native = .print ∨ ∃ op, native = .operator op) → P w →
      P (w.install name native)) : P (initial closed) := by
  have print := install _ printName .print (.inl rfl) empty
  rw [initial]
  generalize Operator.all = ops
  generalize (World.empty closed).install printName .print = w at print
  induction ops generalizing w with
  | nil => exact print
  | cons op ops ih => exact ih _ (install w op.symbol _ (.inr ⟨op, rfl⟩) print)

/-- There are the same functions and the same classes. -/
structure Fixed (w v : World) : Prop where
  size : v.objects.size = w.objects.size
  body : ∀ id, (v.object id).body = (w.object id).body
  name : ∀ id, (v.object id).name = (w.object id).name
  shapes : v.shapes = w.shapes

namespace Fixed
variable {w v u : World}

theorem of_objects (objects : v.objects = w.objects) (shapes : v.shapes = w.shapes) :
    w.Fixed v where
  size := by rw [objects]
  body id := by rw [object, object, objects]
  name id := by rw [object, object, objects]
  shapes := shapes

theorem refl (w : World) : w.Fixed w := of_objects rfl rfl

theorem trans (h : w.Fixed v) (g : v.Fixed u) : w.Fixed u where
  size := g.size.trans h.size
  body id := (g.body id).trans (h.body id)
  name id := (g.name id).trans (h.name id)
  shapes := g.shapes.trans h.shapes

theorem setField (w : World) (id : ObjectId) (x : String) (v : Value) :
    w.Fixed (w.setField id x v) where
  size := objects_size_setField w id x v
  body other := (w.body_setField id x v other).1
  name other := (w.body_setField id x v other).2
  shapes := rfl

/-- Functions of the host change no more of an object than its fields. -/
theorem change (w : World) (e : Effect) : w.Fixed (w.change e) := by
  cases e with
  | setGlobal x v => exact of_objects rfl rfl
  | setField id x v => exact setField w id x v
  | write text =>
    rw [World.change]
    split
    · exact refl w
    · exact of_objects rfl rfl

theorem changeAll (w : World) (effects : List Effect) : w.Fixed (w.changeAll effects) := by
  induction effects generalizing w with
  | nil => exact refl w
  | cons e effects ih => exact (change w e).trans (ih _)

theorem shape (h : w.Fixed v) (id : ShapeId) : v.shape id = w.shape id := by
  rw [World.shape, World.shape, h.shapes]

theorem code? (h : w.Fixed v) (id : ObjectId) : (v.object id).code? = (w.object id).code? := by
  rw [HostObject.code?, HostObject.code?, h.body id]

end Fixed

theorem activeCalls_changeAll (w : World) (effects : List Effect) :
    (w.changeAll effects).activeCalls = w.activeCalls := by
  induction effects generalizing w with
  | nil => rfl
  | cons e effects ih =>
    refine (ih _).trans ?_
    cases e with
    | setGlobal x v => rfl
    | setField id x v => rfl
    | write text =>
      rw [change]
      split <;> rfl

/-- What is callable is there. -/
theorem lt_of_isCallable {w : World} {id : ObjectId} (h : (w.object id).isCallable = true) :
    id.index < w.objects.size := by
  by_cases inside : id.index < w.objects.size
  · exact inside
  · rw [object, Array.getD_eq_getD_getElem?, Array.getElem?_eq_none (by omega)] at h
    cases h

/-- A field that no object has is not set. -/
theorem field_of_all {w : World} {x : String}
    (h : w.objects.all (fun o => o.fields.get? x = none) = true) (id : ObjectId) :
    w.field id x = .undefined := by
  rw [field, object, Array.getD_eq_getD_getElem?]
  cases there : w.objects[id.index]? with
  | none => rfl
  | some o =>
    have known := Array.all_eq_true'.mp h o (Array.mem_of_getElem? there)
    rw [Option.getD_some, of_decide_eq_true known]
    rfl

end World

/-- An operator makes values that words hold themselves. -/
theorem Operator.apply_plain {op : Operator} {w : World} {a b v : Value}
    (h : op.apply w a b = .ok v) : v.isInterned = false ∧ ∀ offset, v ≠ .ref offset := by
  cases op <;> simp only [apply] at h
  all_goals try split at h
  all_goals try simp only [arithmetic] at h
  all_goals try split at h
  all_goals try split at h
  all_goals cases h
  all_goals exact ⟨rfl, by simp⟩

end TaggedScript
