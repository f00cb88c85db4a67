import TaggedScript.Proofs.Agreement.Together

/-!
Names, fields and functions of the host go together on both sides.
-/
namespace TaggedScript

/-- Nothing is said of the values. -/
def anyValues {α β : Type} (_ : List Value) (_ : α) (_ : β) : Prop := True

/-- So many values are the same. -/
def sameValues (n : Nat) (pairs : List Value) (vs us : List Value) : Prop :=
  vs.length = n ∧ List.Forall₂ (Same pairs) vs us

theorem Meaning.read_eq (locals : List String) (x : String) (σ : Memory) :
    Meaning.read locals x σ = .ok (σ.valueOf locals x) σ := by
  rw [Meaning.read_slotOf?]
  rfl

theorem Meaning.write_eq (locals : List String) (x : String) (v : Value) (σ : Memory) :
    Meaning.write locals x v σ = .ok () (σ.write locals x v) :=
  Meaning.write_slotOf? locals x v σ

section
variable {program : Program} {p : Place} {pairs : List Value}

theorem together_read {x : String} (now : x ∉ p.later) :
    Together program p p Same pairs (do return (← get).lookup p.scope x)
      (Meaning.read p.locals x) := by
  intro more grows w σ here
  rw [Meaning.read_eq]
  exact .ok (List.prefix_refl _) here (.refl _ w) (here.read now)

theorem together_write {x : String} (now : x ∉ p.later) (this : x ≠ thisName)
    (print : x ≠ printName) {a b : Value} (same : Same pairs a b) :
    Together program p p anyValues pairs (modify (·.assign p.scope x a))
      (Meaning.write p.locals x b) := by
  intro more grows w σ here
  rw [Meaning.write_eq]
  obtain ⟨after, kept⟩ := here.write now this print (same.mono grows)
  exact .ok (List.prefix_refl _) after kept trivial

/-- Outside of functions, a declaration is an assignment, unless the variable is there. -/
theorem together_declare_top {made : Nat} {x : String} (this : x ≠ thisName)
    (print : x ≠ printName) {a b : Value} (same : Same pairs a b) :
    Together program (.top made) (.top made) anyValues pairs
      (Watched.act (declareVariable World.globalScope x a)) (Meaning.write [thisName] x b) := by
  intro more grows w σ here
  simp only [Watched.act, declareVariable, bind_eq, get_eq]
  cases there : w.lookupLocal? World.globalScope x with
  | some v =>
    simp only [Option.isSome_some, ↓reduceIte]
    exact .excused (.declared x)
  | none =>
    simp only [Option.isSome_none, Bool.false_eq_true, ↓reduceIte, Meaning.write_eq]
    obtain ⟨after, kept⟩ := here.write List.not_mem_nil this print (same.mono grows)
    simp only [Place.scope, World.assign_root] at after kept
    exact .ok (List.prefix_refl _) after kept trivial

/-- In a function, a declaration is an assignment. -/
theorem together_declare_inner {scope : ScopeId} {locals later : List String} {made : Nat}
    {x : String} (once : x ∉ later) {a b : Value} (same : Same pairs a b) :
    Together program (.inner scope locals (x :: later) made) (.inner scope locals later made)
      anyValues pairs (Watched.act (declareVariable scope x a)) (Meaning.write locals x b) := by
  intro more grows w σ here
  obtain ⟨unbound, after⟩ := here.declare once (same.mono grows)
  simp only [Watched.act, declareVariable, bind_eq, get_eq, unbound, Option.isSome_none,
    Bool.false_eq_true, ↓reduceIte, Meaning.write_eq]
  exact .ok (List.prefix_refl _) after (.register w scope x a) trivial

/-- An access to a field of what has none fails in the same way on both sides. -/
theorem EndsAlike.noFields {α β : Type} {R : List Value → α → β → Prop} {w : World} {σ : Memory}
    (here : p.Here program pairs w σ) {r r' : Value} (same : Same pairs r r')
    (none : ∀ id, r ≠ .object id) (x : String) :
    EndsAlike program p R pairs w (.error (.failed (w.noFields x r)) w)
      (.error (.failed (σ.world.noFields x r')) σ) := by
  have shown : w.isPlain r = false := by
    cases r with
    | object id => exact absurd rfl (none id)
    | undefined | bool | int | str | shape | ref => rfl
  rw [World.noFields, World.noFields, same.text_eq here.agree.objects shown]
  exact .failed here.agree.output

theorem together_getField {r r' : Value} (same : Same pairs r r') (x : String) :
    Together program p p Same pairs
      (do
        let id ← Watched.act (fieldOwner x r)
        return (← get).field id x)
      (Meaning.getField r' x) := by
  intro more grows w σ here
  have same := same.mono grows
  cases same with
  | undefined | bool | int | str => exact .noFields here (by constructor) (by simp) x
  | @object id _ found =>
    have fields := (here.agree.objects.fields id r' found).getD x
    have related : EndsAlike program p Same more w (.ok (w.field id x) w)
        (.ok (((σ.fieldsOf r').get? x).getD .undefined) σ) :=
      .ok (List.prefix_refl _) here (.refl _ w) fields
    cases here.agree.objects.stands id r' found with
    | function | record => exact related

theorem together_setField {r r' a b : Value} (owners : Same pairs r r') (x : String)
    (same : Same pairs a b) :
    Together program p p Same pairs
      (do
        let id ← Watched.act (fieldOwner x r)
        Watched.setField id x a
        return a)
      (do
        Meaning.setField r' x b
        return b) := by
  intro more grows w σ here
  have owners := owners.mono grows
  have same := same.mono grows
  cases owners with
  | undefined | bool | int | str =>
    exact .noFields here (by constructor) (by simp) x
  | @object id _ found =>
    have objects := here.agree.objects
    have callable := objects.callable_iff found
    have kept : w.Kept p.scope (w.setField id x a) := .of_scopes (by rfl) _
    have act : Watched.act (fieldOwner x (.object id)) w = .ok id w := rfl
    simp only [bind_eq, act, Watched.setField, get_eq, World.isPlain]
    cases objects.stands id r' found with
    | @function g twins callable' name =>
      simp only [callable.mpr ⟨g, rfl⟩, Bool.not_true, Bool.false_and, Bool.false_eq_true,
        ↓reduceIte]
      have agree := here.agree.withObjects (objects.setFunctionField found x same)
        (List.prefix_refl _) rfl rfl ⟨rfl, rfl⟩ ⟨rfl, rfl⟩
        fun id' n native => (World.body_setField w id x a id').1.trans native
      exact .ok (List.prefix_refl _) (here.withObjects agree (List.prefix_refl _) rfl rfl)
        kept same
    | @record offset body there =>
      have plain : (w.object id).isCallable = false := by simp [HostObject.isCallable, body]
      by_cases has : ((w.object id).fields.get? x).isSome = true
      · obtain ⟨had, changed⟩ := objects.setRecordField found same has
        have old : ((w.object id).fields.get? x).isNone = false := by
          rwa [← Option.not_isSome, Bool.not_eq_false']
        simp only [old, Bool.and_false, Bool.false_eq_true, ↓reduceIte, Meaning.setField, bind_eq,
          get_eq, had]
        have agree := here.agree.withObjects changed (List.prefix_refl _) rfl rfl ⟨rfl, rfl⟩
          ⟨rfl, rfl⟩ fun id' n native => (World.body_setField w id x a id').1.trans native
        exact .ok (List.prefix_refl _) (here.withObjects agree (List.prefix_refl _) rfl rfl)
          kept same
      · have new : ((w.object id).fields.get? x).isNone = true := by
          rwa [← Option.not_isSome, Bool.not_eq_true', Bool.eq_false_iff]
        simp only [plain, new, Bool.not_false, Bool.and_self, ↓reduceIte]
        exact .excused .exposed

/-- A plain object is made, and a record. -/
theorem together_newRecord {t u : Table} (fields : SameFields pairs t u) :
    Together program p p Same pairs
      (do
        let (id, w) := (← get).addObject (.plain t)
        set w
        return .object id)
      (Meaning.newRecord u) := by
  intro more grows w σ here
  rw [Meaning.newRecord_eq]
  split
  · exact .noRoom
  · rename_i fits
    have fits : roomOf σ.records < 2 ^ 32 := by omega
    have objects := here.agree.objects.addRecord (fields.mono grows) fits
    have longer := List.prefix_append more [.ref (UInt32.ofNat (roomOf σ.records))]
    have kept : w.Kept p.scope (w.addObject (.plain t)).2 := .of_scopes (by rfl) _
    have agree := here.agree.withObjects objects longer rfl rfl ⟨rfl, rfl⟩ ⟨rfl, rfl⟩
      fun id n => World.native_addObject _
    have related : Same (more ++ [.ref (UInt32.ofNat (roomOf σ.records))])
        (.object ⟨w.objects.size⟩) (.ref (UInt32.ofNat (roomOf σ.records))) := by
      apply Same.object
      rw [← here.agree.objects.size, List.getElem?_concat_length]
    exact .ok longer (here.withObjects agree longer rfl rfl) kept related

/-- A function that stands outside of all others is made. -/
theorem together_function {f : FunDef} (sound : f.Sound)
    (named : ∀ x ∈ f.name, x ≠ thisName ∧ x ≠ printName) (run : RunId) {id : ObjectId}
    {first made : Nat} (known : program id = some (f.procedure first)) (later : made ≤ id.index) :
    Together program (.top made) (.top (id.index + 1)) Same pairs
      (Watched.act (makeClosure World.globalScope run f))
      (do
        match f.name with
        | some x => modify fun σ => { σ with world := σ.world.setGlobal x (.object id) }
        | none => pure ()
        return .object id) := by
  intro more grows w σ here
  have objects := here.agree.objects.addClosure sound run known later
  have longer := List.prefix_append more [.object id]
  have agree := here.agree.withObjects objects longer rfl rfl ⟨rfl, rfl⟩ ⟨rfl, rfl⟩
    fun id n => World.native_addObject _
  have related : Same (more ++ [.object id]) (.object ⟨w.objects.size⟩) (.object id) := by
    apply Same.object
    rw [← here.agree.objects.size, List.getElem?_concat_length]
  have kept : w.Kept World.globalScope
      (w.addObject (.ofNative f.displayName (.closure World.globalScope run f))).2 :=
    .of_scopes (by rfl) _
  cases name : f.name with
  | none =>
    have made : Watched.act (makeClosure World.globalScope run f) w =
        .ok (.object ⟨w.objects.size⟩)
          (w.addObject (.ofNative f.displayName (.closure World.globalScope run f))).2 := by
      simp only [Watched.act, makeClosure, bind_eq, get_eq, name]
      rfl
    rw [made]
    exact .ok longer ⟨agree, here.settled⟩ kept related
  | some x =>
    obtain ⟨this, print⟩ := named x (by rw [name]; rfl)
    have made : Watched.act (makeClosure World.globalScope run f) w =
        .ok (.object ⟨w.objects.size⟩)
          ((w.addObject (.ofNative f.displayName (.closure World.globalScope run f))).2.setGlobal x
            (.object ⟨w.objects.size⟩)) := by
      simp only [Watched.act, makeClosure, bind_eq, get_eq, name]
      rfl
    rw [made]
    exact .ok longer ⟨agree.setGlobal this print related, here.settled⟩
      (kept.trans (.register _ _ _ _)) related

end
end TaggedScript
