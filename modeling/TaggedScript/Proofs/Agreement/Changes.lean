import TaggedScript.Proofs.Agreement.Twins

/-!
What changes both sides in the same way leaves them in agreement.
-/
namespace TaggedScript

theorem HostObject.isCallable_of_body {o o' : HostObject} (h : o'.body = o.body) :
    o'.isCallable = o.isCallable := by
  simp only [isCallable, h]

namespace World

theorem resolve_root (w : World) (x : String) : w.resolve globalScope x = globalScope := by
  rw [resolve]
  split
  · exact if_neg (Nat.not_lt_zero _)
  · rfl

theorem assign_root (w : World) (x : String) (v : Value) :
    w.assign globalScope x v = w.setGlobal x v := by
  rw [assign, resolve_root, setGlobal]

/-- A function is not changed by the making of an object. -/
theorem native_addObject {w : World} {id : ObjectId} {n : Native} (o : HostObject)
    (h : (w.object id).body = .native n) : ((w.addObject o).2.object id).body = .native n := by
  have old : id.index < w.objects.size :=
    lt_of_isCallable (by simp [HostObject.isCallable, h])
  rwa [object_addObject, if_neg (Nat.ne_of_lt old)]

end World

section
variable {program : Program} {made : Nat} {pairs : List Value} {w v : World} {σ τ : Memory}

theorem Stands.later {o o' : HostObject} {u : Value} (h : Stands program σ o u)
    (own : o'.body = o.body ∧ o'.name = o.name)
    (others : ∀ id, (τ.world.object id).body = (σ.world.object id).body ∧
      (τ.world.object id).name = (σ.world.object id).name)
    (records : ∀ offset, (recordAt? σ.records offset).isSome = true →
      (recordAt? τ.records offset).isSome = true) : Stands program τ o' u := by
  cases h with
  | @function id twins callable name =>
    refine .function ?_ ?_ ?_
    · cases twins with
      | builtin known body there none =>
        exact .builtin known (own.1.trans body) ((others id).1.trans there) none
      | closure body name sound known =>
        exact .closure (own.1.trans body) (own.2.trans name) sound known
    · rw [HostObject.isCallable_of_body (others id).1]
      exact callable
    · rw [(others id).2, name, own.2]
  | record body there => exact .record (own.1.trans body) (records _ there)

theorem SameObjects.same (h : SameObjects program made pairs w σ) (objects : v.objects = w.objects)
    (objects' : τ.world.objects = σ.world.objects) (records : τ.records = σ.records) :
    SameObjects program made pairs v τ := by
  have left (id : ObjectId) : v.object id = w.object id := by
    rw [World.object, World.object, objects]
  have right (id : ObjectId) : τ.world.object id = σ.world.object id := by
    rw [World.object, World.object, objects']
  have fields (u : Value) : τ.fieldsOf u = σ.fieldsOf u := by
    cases u with
    | object id => simp only [Memory.fieldsOf, right]
    | ref offset => simp only [Memory.fieldsOf, Memory.record, records]
    | undefined | bool | int | str | shape => rfl
  exact {
    size := by rw [objects, h.size]
    distinct := h.distinct
    stands := fun id u found => by
      rw [left]
      exact (h.stands id u found).later ⟨rfl, rfl⟩ (fun id => by rw [right]; exact ⟨rfl, rfl⟩)
        (fun _ there => by rwa [records])
    fields := fun id u found => by
      rw [left, fields]
      exact h.fields id u found
    before := h.before
    callable := fun id p known => by
      rw [right]
      exact h.callable id p known
    after := fun id known later => by
      rw [right]
      exact h.after id known later }

/-- Functions may count as made before they are. -/
theorem SameObjects.mono (h : SameObjects program made pairs w σ) {more : Nat} (le : made ≤ more) :
    SameObjects program more pairs w σ :=
  { h with
    before := fun id mem known => Nat.lt_of_lt_of_le (h.before id mem known) le
    after := fun id known later => h.after id known (Nat.le_trans le later) }

theorem SameObjects.unique (h : SameObjects program made pairs w σ) {id id' : ObjectId} {u : Value}
    (found : pairs[id.index]? = some u) (found' : pairs[id'.index]? = some u) : id = id' := by
  have place := (List.getElem?_inj (List.getElem?_eq_some_iff.mp found).1 h.distinct).mp
    (found.trans found'.symm)
  cases id
  cases id'
  exact congrArg _ place

/-- A field of a function was written. -/
theorem SameObjects.setFunctionField (h : SameObjects program made pairs w σ) {id g : ObjectId}
    (found : pairs[id.index]? = some (.object g)) (x : String) {a b : Value}
    (same : Same pairs a b) :
    SameObjects program made pairs (w.setField id x a)
      { σ with world := σ.world.setField g x b } := by
  have there : id.index < w.objects.size := h.index_lt found
  have there' : g.index < σ.world.objects.size := by
    cases h.stands id _ found with
    | function _ callable => exact World.lt_of_isCallable callable
  exact {
    size := by rw [World.objects_size_setField, h.size]
    distinct := h.distinct
    stands := fun id' u found' => (h.stands id' u found').later (World.body_setField w id x a id')
      (fun g' => World.body_setField σ.world g x b g') fun _ there => there
    fields := fun id' u found' => by
      have before := h.fields id' u found'
      rw [World.object_setField]
      by_cases own : id' = id
      · subst own
        obtain rfl : u = .object g := Option.some.inj (found'.symm.trans found)
        rw [if_pos ⟨rfl, there⟩]
        simp only [Memory.fieldsOf, World.object_setField]
        rw [if_pos ⟨trivial, there'⟩]
        exact before.set x same
      · rw [if_neg (fun both => own both.1)]
        cases u with
        | object g' =>
          have apart : g' ≠ g := fun e => own (h.unique found' (e ▸ found))
          simp only [Memory.fieldsOf, World.object_setField]
          rwa [if_neg (fun both => apart both.1)]
        | ref | undefined | bool | int | str | shape => exact before
    before := h.before
    callable := fun g' p known => by
      have kept := World.body_setField σ.world g x b g'
      rw [HostObject.isCallable_of_body kept.1, kept.2]
      exact h.callable g' p known
    after := fun g' known later => by
      have apart : g' ≠ g := by
        rintro rfl
        have earlier := h.before g' (List.mem_of_getElem? found) known
        omega
      simp only [World.object_setField]
      rw [if_neg (fun both => apart both.1)]
      exact h.after g' known later }

/-- A field of a plain object was written, which it had before. -/
theorem SameObjects.setRecordField (h : SameObjects program made pairs w σ) {id : ObjectId}
    {offset : UInt32} (found : pairs[id.index]? = some (.ref offset)) {x : String} {a b : Value}
    (same : Same pairs a b) (has : ((w.object id).fields.get? x).isSome = true) :
    ((σ.record offset).get? x).isSome = true ∧
    SameObjects program made pairs (w.setField id x a)
      { σ with records := setRecord σ.records offset.toNat ((σ.record offset).set x b) } := by
  have there : id.index < w.objects.size := h.index_lt found
  have had : ((σ.record offset).get? x).isSome = true := by
    have fields := h.fields id _ found x
    simp only [Memory.fieldsOf] at fields
    generalize (w.object id).fields.get? x = s at fields has
    generalize (σ.record offset).get? x = t at fields
    cases fields with
    | some => rfl
    | none => cases has
  refine ⟨had, ?_⟩
  obtain ⟨t, recorded⟩ : ∃ t, recordAt? σ.records offset.toNat = some t := by
    cases h.stands id _ found with
    | record _ there => exact Option.isSome_iff_exists.mp there
  have own : σ.record offset = t := by rw [Memory.record, recorded, Option.getD_some]
  rw [own] at had ⊢
  have changed := recordAt?_setRecord recorded (Table.length_set had b)
  exact {
    size := by rw [World.objects_size_setField, h.size]
    distinct := h.distinct
    stands := fun id' u found' => (h.stands id' u found').later (World.body_setField w id x a id')
      (fun _ => ⟨rfl, rfl⟩) fun other there => by
        simp only [changed]
        split
        · rfl
        · exact there
    fields := fun id' u found' => by
      have before := h.fields id' u found'
      rw [World.object_setField]
      by_cases mine : id' = id
      · subst mine
        obtain rfl : u = .ref offset := Option.some.inj (found'.symm.trans found)
        rw [if_pos ⟨rfl, there⟩]
        simp only [Memory.fieldsOf, Memory.record, changed, ↓reduceIte, Option.getD_some]
        simp only [Memory.fieldsOf, own] at before
        exact before.set x same
      · rw [if_neg (fun both => mine both.1)]
        cases u with
        | ref other =>
          have apart : other.toNat ≠ offset.toNat := fun e =>
            mine (h.unique found' (UInt32.toNat.inj e ▸ found))
          simp only [Memory.fieldsOf, Memory.record, changed, if_neg apart]
          exact before
        | object | undefined | bool | int | str | shape => exact before
    before := h.before
    callable := h.callable
    after := h.after }

/-- With one more pair, the object of a pair was there before, or it is the one that comes next. -/
theorem SameObjects.old_or_new (h : SameObjects program made pairs w σ) {r : Value} {id : ObjectId}
    {u : Value} (found : (pairs ++ [r])[id.index]? = some u) :
    (id.index ≠ w.objects.size ∧ pairs[id.index]? = some u) ∨
      (id.index = w.objects.size ∧ u = r) := by
  have size := h.size
  by_cases last : id.index = w.objects.size
  · rw [last, ← size, List.getElem?_concat_length] at found
    exact .inr ⟨last, (Option.some.inj found).symm⟩
  · have inside : id.index < (pairs ++ [r]).length := (List.getElem?_eq_some_iff.mp found).1
    rw [List.length_append, List.length_singleton] at inside
    rw [List.getElem?_append_left (by omega)] at found
    exact .inl ⟨last, found⟩

/-- An object was made, and so was what stands for it. -/
theorem SameObjects.addObject (h : SameObjects program made pairs w σ) {o : HostObject} {r : Value}
    {more : Nat} (new : r ∉ pairs) (le : made ≤ more) (world : τ.world = σ.world)
    (records : ∀ offset t, recordAt? σ.records offset = some t →
      recordAt? τ.records offset = some t)
    (stands : Stands program τ o r) (fields : SameFields pairs o.fields (τ.fieldsOf r))
    (before : ∀ id, r = .object id → id.index < more) :
    SameObjects program more (pairs ++ [r]) (w.addObject o).2 τ := by
  have grows : pairs <+: pairs ++ [r] := List.prefix_append _ _
  have kept (offset : Nat) (there : (recordAt? σ.records offset).isSome = true) :
      recordAt? τ.records offset = recordAt? σ.records offset := by
    obtain ⟨t, found⟩ := Option.isSome_iff_exists.mp there
    rw [found, records offset t found]
  have object (id : ObjectId) : (w.addObject o).2.object id =
      if id.index = w.objects.size then o else w.object id := World.object_addObject w o id
  exact {
    size := by simp [World.addObject, h.size]
    distinct := by
      rw [List.nodup_append]
      refine ⟨h.distinct, by simp, ?_⟩
      intro u mem u' last same
      rw [List.mem_singleton] at last
      exact new (last ▸ same ▸ mem)
    stands := fun id u found => by
      rw [object]
      obtain ⟨other, old⟩ | ⟨last, rfl⟩ := h.old_or_new found
      · rw [if_neg other]
        exact (h.stands id u old).later ⟨rfl, rfl⟩ (fun id => by rw [world]; exact ⟨rfl, rfl⟩)
          fun offset there => by rwa [kept offset there]
      · rwa [if_pos last]
    fields := fun id u found => by
      rw [object]
      obtain ⟨other, old⟩ | ⟨last, rfl⟩ := h.old_or_new found
      · rw [if_neg other]
        have same : τ.fieldsOf u = σ.fieldsOf u := by
          cases h.stands id u old with
          | function => rw [Memory.fieldsOf, Memory.fieldsOf, world]
          | record _ there =>
            rw [Memory.fieldsOf, Memory.fieldsOf, Memory.record, Memory.record, kept _ there]
        rw [same]
        exact (h.fields id u old).mono grows
      · rw [if_pos last]
        exact fields.mono grows
    before := fun id mem known => by
      rw [List.mem_append, List.mem_singleton] at mem
      obtain old | same := mem
      · exact Nat.lt_of_lt_of_le (h.before id old known) le
      · exact before id same.symm
    callable := fun id p known => by
      rw [world]
      exact h.callable id p known
    after := fun id known later => by
      rw [world]
      exact h.after id known (Nat.le_trans le later) }

/-- A plain object was made, and a record for it. -/
theorem SameObjects.addRecord (h : SameObjects program made pairs w σ) {t u : Table}
    (fields : SameFields pairs t u) (fits : roomOf σ.records < 2 ^ 32) :
    SameObjects program made (pairs ++ [.ref (UInt32.ofNat (roomOf σ.records))])
      (w.addObject (.plain t)).2 { σ with records := σ.records ++ [u] } := by
  have place : (UInt32.ofNat (roomOf σ.records)).toNat = roomOf σ.records := by
    rw [UInt32.toNat_ofNat', Nat.mod_eq_of_lt fits]
  have found : recordAt? (σ.records ++ [u]) (roomOf σ.records) = some u :=
    recordAt?_new σ.records u
  have new : .ref (UInt32.ofNat (roomOf σ.records)) ∉ pairs := by
    intro mem
    obtain ⟨i, old⟩ := List.getElem?_of_mem mem
    cases h.stands ⟨i⟩ _ old with
    | record _ there =>
      rw [place] at there
      exact Nat.lt_irrefl _ (recordAt?_lt there)
  refine h.addObject new (Nat.le_refl _) rfl (fun offset t => recordAt?_append [u]) ?_ ?_ ?_
  · exact .record rfl (by rw [place, found]; rfl)
  · simp only [Memory.fieldsOf, Memory.record, place, found, Option.getD_some]
    exact fields
  · rintro id ⟨⟩

/-- A closure was made of a function of the program. -/
theorem SameObjects.addClosure (h : SameObjects program made pairs w σ) {f : FunDef}
    (sound : f.Sound) (run : RunId) {id : ObjectId} {first : Nat}
    (known : program id = some (f.procedure first)) (later : made ≤ id.index) :
    SameObjects program (id.index + 1) (pairs ++ [.object id])
      (w.addObject (.ofNative f.displayName (.closure World.globalScope run f))).2 σ := by
  have new : .object id ∉ pairs := by
    intro mem
    have earlier := h.before id mem (by rw [known]; rfl)
    omega
  obtain ⟨callable, name⟩ := h.callable id _ known
  refine h.addObject new (Nat.le_succ_of_le later) rfl (fun offset t found => found) ?_ ?_ ?_
  · exact .function (.closure rfl rfl sound known) callable name
  · simp only [Memory.fieldsOf, h.after id (by rw [known]; rfl) later]
    exact sameFields_nil
  · rintro other ⟨⟩
    exact Nat.lt_succ_self _

end

section
variable {pairs more : List Value} {w v : World} {σ τ : Memory}

/-- Objects and what is bound elsewhere do not matter to the globals. -/
theorem SameGlobals.same (h : SameGlobals pairs w σ) (grows : pairs <+: more)
    (rooted : 0 < v.scopes.size ∧ 0 < τ.world.scopes.size) (left : ∀ x, v.global x = w.global x)
    (right : ∀ x, τ.world.global x = σ.world.global x)
    (bodies : ∀ id n, (w.object id).body = .native n → (v.object id).body = .native n) :
    SameGlobals more v τ where
  rooted := rooted
  values x := by
    rw [left, right]
    exact (h.values x).mono grows
  this := by rw [left, h.this]
  print := ⟨(left _).trans h.print.1, bodies _ _ h.print.2⟩

theorem SameGlobals.setGlobal (h : SameGlobals pairs w σ) {x : String} (this : x ≠ thisName)
    (print : x ≠ printName) {a b : Value} (same : Same pairs a b) :
    SameGlobals pairs (w.setGlobal x a) { σ with world := σ.world.setGlobal x b } where
  rooted := by
    simp only [World.setGlobal, World.scopes_size_register]
    exact h.rooted
  values y := by
    simp only [World.global_setGlobal, h.rooted.1, h.rooted.2, and_true]
    split
    · exact same
    · exact h.values y
  this := by
    rw [World.global_setGlobal, if_neg (fun both => this both.1.symm), h.this]
  print := by
    refine ⟨?_, h.print.2⟩
    rw [World.global_setGlobal, if_neg (fun both => print both.1.symm), h.print.1]

end

namespace Agree
variable {program : Program} {made : Nat} {pairs : List Value} {w v : World} {σ τ : Memory}

theorem mono (h : Agree program made pairs w σ) {more : Nat} (le : made ≤ more) :
    Agree program more pairs w σ :=
  { h with objects := h.objects.mono le }

/-- A global was set. -/
theorem setGlobal (h : Agree program made pairs w σ) {x : String} (this : x ≠ thisName)
    (print : x ≠ printName) {a b : Value} (same : Same pairs a b) :
    Agree program made pairs (w.setGlobal x a) { σ with world := σ.world.setGlobal x b } where
  output := h.output
  closed := h.closed
  objects := h.objects.same rfl rfl rfl
  globals := h.globals.setGlobal this print same

/-- Only objects were changed or made. -/
theorem withObjects (h : Agree program made pairs w σ) {made' : Nat} {more : List Value}
    (objects : SameObjects program made' more v τ) (grows : pairs <+: more)
    (left : v.scopes = w.scopes) (right : τ.world.scopes = σ.world.scopes)
    (output : v.output = w.output ∧ τ.world.output = σ.world.output)
    (closed : v.closed = w.closed ∧ τ.world.closed = σ.world.closed)
    (bodies : ∀ id n, (w.object id).body = .native n → (v.object id).body = .native n) :
    Agree program made' more v τ where
  output := by rw [output.1, output.2, h.output]
  closed := by rw [closed.1, closed.2, h.closed]
  objects := objects
  globals := h.globals.same grows (by rw [left, right]; exact h.globals.rooted)
    (World.global_of_scopes left) (World.global_of_scopes right) bodies

/-- Only local variables were changed, or how many calls are active. -/
theorem locals (h : Agree program made pairs w σ) (objects : v.objects = w.objects)
    (output : v.output = w.output) (closed : v.closed = w.closed) (rooted : 0 < v.scopes.size)
    (globals : ∀ x, v.global x = w.global x) (world : τ.world = σ.world)
    (records : τ.records = σ.records) : Agree program made pairs v τ where
  output := by rw [output, world, h.output]
  closed := by rw [closed, world, h.closed]
  objects := h.objects.same objects (by rw [world]) records
  globals := h.globals.same (List.prefix_refl _) ⟨rooted, by rw [world]; exact h.globals.rooted.2⟩
    globals (fun x => by rw [world]) fun id n native => by rwa [World.object, objects]

/-- Something was written into the output. -/
theorem setOutput (h : Agree program made pairs w σ) (output : String) :
    Agree program made pairs { w with output } { σ with world := { σ.world with output } } where
  output := rfl
  closed := h.closed
  objects := h.objects.same rfl rfl rfl
  globals := h.globals.same (List.prefix_refl _) h.globals.rooted (World.global_of_scopes rfl)
    (World.global_of_scopes rfl) fun _ _ native => native

end Agree
end TaggedScript
