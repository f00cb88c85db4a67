import Mathlib.Data.List.Forall2
import TaggedScript.Proofs.Compilation.Emitted
import TaggedScript.Proofs.Effects
import TaggedScript.Proofs.Semantics.Resolution
import TaggedScript.Proofs.SyntaxInduction
import TaggedScript.Proofs.WorldLaws

/-!
What compiling adds. The functions of an expression become the next objects of the world, in the
order of `Expr.procedures`, and all that was there stays as it was.
-/
namespace TaggedScript

/-- What was compiled before is there still. -/
structure Compiling.Extends (c d : Compiling) : Prop where
  dictionary : c.dictionary.Extends d.dictionary
  interned : c.dictionary.Interned → d.dictionary.Interned
  shapes : c.world.shapes.toList <+: d.world.shapes.toList
  objects : c.world.objects.toList <+: d.world.objects.toList
  others : { d.world with objects := c.world.objects, shapes := c.world.shapes } = c.world

namespace Compiling.Extends
variable {c d e : Compiling}

theorem refl (c : Compiling) : c.Extends c :=
  ⟨Dictionary.Extends.refl _, id, List.prefix_rfl, List.prefix_rfl, rfl⟩

theorem trans (h : c.Extends d) (g : d.Extends e) : c.Extends e where
  dictionary := h.dictionary.trans g.dictionary
  interned := g.interned ∘ h.interned
  shapes := h.shapes.trans g.shapes
  objects := h.objects.trans g.objects
  others := by
    have first := h.others
    rw [← g.others] at first
    exact first

/-- A new object is the last one. -/
theorem withObject (c : Compiling) (o : HostObject) :
    c.Extends { c with world := (c.world.addObject o).2 } :=
  ⟨Dictionary.Extends.refl _, id, List.prefix_rfl, by simp [World.addObject], rfl⟩

theorem objects_size_le (h : c.Extends d) : c.world.objects.size ≤ d.world.objects.size := by
  simpa using h.objects.length_le

theorem object (h : c.Extends d) {id : ObjectId} (known : id.index < c.world.objects.size) :
    d.world.object id = c.world.object id := World.object_of_prefix h.objects known

theorem shape (h : c.Extends d) {id : ShapeId} (known : id.index < c.world.shapes.size) :
    d.world.shape id = c.world.shape id := World.shape_of_prefix h.shapes known

end Compiling.Extends

/-- The object of a function whose body was compiled by that time. -/
structure Procedure.Compiled (p : Procedure) (c : Compiling) (o : HostObject) : Prop where
  arity : p.arity + 1 ≤ p.locals.length
  body : ∃ before code after, Compile.block p.locals 0 p.body before = .ok code after ∧
    before.world.objects.size = p.first ∧ after.Extends c ∧
    o = .ofCode p.name (.ofInstrs (p.arity + 1) p.locals.length (code ++ [.ret]))

theorem Procedure.Compiled.later {p : Procedure} {c d : Compiling} {o : HostObject}
    (h : p.Compiled c o) (later : c.Extends d) : p.Compiled d o := by
  obtain ⟨before, code, after, compiled, first, extends_, made⟩ := h.body
  exact ⟨h.arity, before, code, after, compiled, first, extends_.trans later, made⟩

/-- Compiling has added the objects of these functions. The dictionary names no others. -/
structure Compiling.Adds (c : Compiling) (ps : List Procedure) (d : Compiling) : Prop where
  later : c.Extends d
  added : ∃ os, d.world.objects.toList = c.world.objects.toList ++ os ∧
    List.Forall₂ (fun p o => p.Compiled d o) ps os
  named : ∀ id, .object id ∈ d.dictionary.entries →
    .object id ∈ c.dictionary.entries ∨ c.world.objects.size ≤ id.index

namespace Compiling.Adds
variable {c d e : Compiling} {ps qs : List Procedure}

theorem refl (c : Compiling) : c.Adds [] c := ⟨.refl c, ⟨[], by simp, .nil⟩, fun _ => .inl⟩

theorem trans (h : c.Adds ps d) (g : d.Adds qs e) : c.Adds (ps ++ qs) e where
  later := h.later.trans g.later
  added := by
    obtain ⟨os, first, made⟩ := h.added
    obtain ⟨more, second, madeMore⟩ := g.added
    refine ⟨os ++ more, by rw [second, first, List.append_assoc], ?_⟩
    have kept := made.imp fun _ _ compiled => Procedure.Compiled.later compiled g.later
    exact List.rel_append kept madeMore
  named id mem := by
    rcases g.named id mem with old | new
    · exact h.named id old
    · exact .inr (Nat.le_trans h.later.objects_size_le new)

theorem objects_size (h : c.Adds ps d) :
    d.world.objects.size = c.world.objects.size + ps.length := by
  obtain ⟨os, all, made⟩ := h.added
  have size := congrArg List.length all
  simp only [Array.length_toList, List.length_append] at size
  rw [size, made.length_eq]

end Compiling.Adds

namespace Expr

theorem functionCount_inductive : Expr.Inductive
    (fun e => ∀ first, (e.procedures first).length = e.functionCount)
    (fun es => ∀ first, (proceduresAll first es).length = functionCountAll es)
    (fun fs => ∀ first, (proceduresFields first fs).length = functionCountFields fs) where
  literal := fun _ _ _ => rfl
  var := fun _ _ _ => rfl
  assign := fun _ _ _ _ h => h
  field := fun _ _ _ h => h
  setField := fun _ r x e hr he first => by simp [procedures, functionCount, hr, he]
  call := fun _ f args hf hargs first => by simp [procedures, functionCount, hf, hargs]
  methodCall := fun _ r x args hr hargs first => by simp [procedures, functionCount, hr, hargs]
  function := fun _ name params body h first => by simp [procedures, functionCount, h]
  object := fun _ _ h => h
  cond := fun _ c t e hc ht he first => by
    simp [procedures, functionCount, hc, ht, he, Nat.add_assoc]
  ret := fun _ _ h => h
  block := fun _ _ h => h
  nil := fun _ => rfl
  cons := fun e es he hes first => by simp [proceduresAll, functionCountAll, he, hes]
  noFields := fun _ => rfl
  consField := fun x e fs he hfs first => by
    simp [proceduresFields, functionCountFields, he, hfs]

theorem length_procedures (e : Expr) (first : Nat) :
    (e.procedures first).length = e.functionCount := functionCount_inductive.expr e first

theorem length_proceduresAll (es : List Expr) (first : Nat) :
    (proceduresAll first es).length = functionCountAll es := functionCount_inductive.list es first

end Expr

/-- A part of the compiler adds these functions, given the place of the first of them. Even if it
fails, what it has added are functions. -/
def Builds {α : Type} (x : Compile α) (ps : Nat → List Procedure) : Prop := ∀ c,
  match x c with
  | .ok _ d => c.Adds (ps c.world.objects.size) d
  | .error _ d => ∃ qs, c.Adds qs d

namespace Builds
variable {α β : Type}

theorem ok {x : Compile α} {ps : Nat → List Procedure} (h : Builds x ps) {c d : Compiling} {a : α}
    (result : x c = .ok a d) : c.Adds (ps c.world.objects.size) d := by
  have adds := h c
  rw [result] at adds
  exact adds

theorem adds {x : Compile α} {ps : Nat → List Procedure} (h : Builds x ps) (c : Compiling) :
    ∃ qs, c.Adds qs (stateOf (x c)) := by
  have built := h c
  split at built <;> rename_i result <;> rw [result]
  · exact ⟨_, built⟩
  · exact built

theorem bind {x : Compile α} {f : α → Compile β} {ps qs : Nat → List Procedure}
    (hx : Builds x ps) (hf : ∀ a, Builds (f a) qs) :
    Builds (x >>= f) fun n => ps n ++ qs (n + (ps n).length) := by
  intro c
  have first := hx c
  rw [bind_eq]
  cases result : x c with
  | ok a d =>
    rw [result] at first
    have second := hf a d
    rw [first.objects_size] at second
    simp only
    cases last : f a d with
    | ok b e =>
      rw [last] at second
      exact first.trans second
    | error err e =>
      rw [last] at second
      obtain ⟨rs, more⟩ := second
      exact ⟨_, first.trans more⟩
  | error err d =>
    rw [result] at first
    exact first

theorem assoc {γ : Type} {x : Compile α} {f : α → Compile β} {g : β → Compile γ}
    {ps : Nat → List Procedure} (h : Builds ((x >>= f) >>= g) ps) :
    Builds (x >>= fun a => f a >>= g) ps := by
  rwa [bind_assoc] at h

theorem congr {x : Compile α} {ps qs : Nat → List Procedure} (h : Builds x ps)
    (same : ∀ n, ps n = qs n) : Builds x qs := by
  rw [← funext same]
  exact h

theorem pure (a : α) : Builds (Pure.pure a) fun _ => [] := fun c => .refl c

/-- What only adds to the dictionary. -/
theorem extends_constant (c : Compiling) (v : Value) :
    c.Extends { c with dictionary := (encode v c.dictionary).2 } :=
  ⟨encode_extends v c.dictionary, (encode_interned · v), List.prefix_rfl, List.prefix_rfl, rfl⟩

theorem constant {v : Value} (other : ∀ id, v ≠ .object id) :
    Builds (Compile.constant v) fun _ => [] := by
  intro c
  refine ⟨extends_constant c v, ⟨[], by simp, .nil⟩, fun id mem => ?_⟩
  rcases mem_encode mem with old | ⟨same, -⟩
  · exact .inl old
  · exact absurd same.symm (other id)

theorem name (x : String) : Builds (Compile.name x) fun _ => [] := constant (by simp)

/-- A function that was made is named in the dictionary. -/
theorem named {x : Compile ObjectId} {ps : Nat → List Procedure} (h : Builds x ps)
    (new : ∀ c id d, x c = .ok id d → c.world.objects.size ≤ id.index) :
    Builds (x >>= fun id => Compile.constant (.object id)) ps := by
  intro c
  have first := h c
  rw [bind_eq]
  cases result : x c with
  | error err d =>
    rw [result] at first
    exact first
  | ok id d =>
    rw [result] at first
    have later := extends_constant d (.object id)
    obtain ⟨os, all, compiled⟩ := first.added
    refine ⟨first.later.trans later, ⟨os, all, compiled.imp fun _ _ made =>
      Procedure.Compiled.later made later⟩, fun other mem => ?_⟩
    change _ ∈ (encode (.object id) d.dictionary).2.entries at mem
    rcases mem_encode mem with old | ⟨same, -⟩
    · exact first.named other old
    · cases same
      exact .inr (new c id d result)

theorem newClass (fields : List String) : Builds (Compile.newClass fields) fun _ => [] := by
  have shape : Builds (modifyGet fun c : Compiling =>
      ((c.world.addShape ⟨"object", fields⟩).1,
        { c with world := (c.world.addShape ⟨"object", fields⟩).2 }) : Compile ShapeId)
      fun _ => [] := by
    intro c
    refine ⟨⟨Dictionary.Extends.refl _, id, ?_, List.prefix_rfl, rfl⟩,
      ⟨[], (List.append_nil _).symm, .nil⟩, fun _ => .inl⟩
    simp [World.addShape]
  exact shape.bind fun id => constant (by simp)

theorem literal (v : Literal) : Builds (Compile.literal v) fun _ => [] := by
  cases v with
  | str s => exact constant (v := .str s) (by simp)
  | undefined | bool | int => exact pure _

theorem read (slots : List String) (x : String) : Builds (Compile.read slots x) fun _ => [] := by
  unfold Compile.read
  cases slotOf? slots x with
  | some i => exact pure _
  | none => exact (name x).bind fun w => pure _

theorem write (slots : List String) (x : String) : Builds (Compile.write slots x) fun _ => [] := by
  unfold Compile.write
  cases slotOf? slots x with
  | some i => exact pure _
  | none => exact (name x).bind fun w => pure _

end Builds

/-- The check of parameters adds nothing. -/
theorem checkParameters_state (function : String) (span : Span) (slots params : List String)
    (c : Compiling) : stateOf (Compile.checkParameters function span slots params c) = c := by
  induction params generalizing slots with
  | nil => rfl
  | cons x params ih =>
    simp only [Compile.checkParameters]
    split
    · rfl
    · split
      · rfl
      · exact ih _

/-- Parameters that pass the check differ from the slots before them and from each other. -/
theorem nodup_of_checkParameters {function : String} {span : Span} {slots params : List String}
    {c d : Compiling} (differ : slots.Nodup)
    (h : Compile.checkParameters function span slots params c = .ok () d) :
    (slots ++ params).Nodup := by
  induction params generalizing slots with
  | nil => rwa [List.append_nil]
  | cons x params ih =>
    simp only [Compile.checkParameters] at h
    split at h
    · cases h
    · split at h
      · cases h
      · rename_i new
        rw [← List.singleton_append, ← List.append_assoc]
        exact ih (nodup_concat_of_notMem differ new) h

/-- A new function is the next object. -/
theorem adds_newFunction {p : Procedure} {before c : Compiling} {code : List Instr}
    (arity : p.arity + 1 ≤ p.locals.length)
    (compiled : Compile.block p.locals 0 p.body before = .ok code c)
    (first : before.world.objects.size = p.first) :
    let o := HostObject.ofCode p.name
      (.ofInstrs (p.arity + 1) p.locals.length (code ++ [.ret]))
    c.Adds [p] { c with world := (c.world.addObject o).2 } := by
  intro o
  have later := Compiling.Extends.withObject c o
  refine ⟨later, ⟨[o], by simp [World.addObject], .cons ?_ .nil⟩, fun _ => .inl⟩
  exact ⟨arity, before, code, c, compiled, first, later, rfl⟩

/-- A function that was compiled is the last object. -/
theorem Compile.functionWith_size {compileBody : List String → Compile (List Instr)} {span : Span}
    {name : Option String} {params : List String} {body : List Expr} {c d : Compiling}
    {id : ObjectId} (h : Compile.functionWith compileBody span name params body c = .ok id d) :
    d.world.objects.size = id.index + 1 := by
  obtain ⟨u, e, -, rest⟩ := ok_of_bind h
  obtain ⟨code, e', -, made⟩ := ok_of_bind rest
  cases made
  simp

theorem builds_function {compileBody : List String → Compile (List Instr)} {span : Span}
    {name : Option String} {params : List String} {body : List Expr}
    (same : compileBody = fun slots => Compile.block slots 0 body)
    (h : ∀ slots, Builds (compileBody slots) fun n => Expr.proceduresAll n body) :
    Builds (Compile.functionWith compileBody span name params body) fun n =>
      (Expr.function span name params body).procedures n := by
  intro c
  have checked := checkParameters_state (name.getD lambdaName) span [thisName] params c
  let f : FunDef := ⟨name, params, body⟩
  have inside := h f.slotNames c
  simp only [Compile.functionWith, bind_eq]
  cases check : Compile.checkParameters (name.getD lambdaName) span [thisName] params c with
  | error e d =>
    rw [check] at checked
    simp only [stateOf] at checked
    exact ⟨[], checked ▸ .refl c⟩
  | ok u d =>
    rw [check] at checked
    simp only [stateOf] at checked
    subst checked
    have slots : extendSlots (thisName :: params) (Expr.declaredAll body) = f.slotNames :=
      extendSlots_declaredAll f (nodup_of_checkParameters (List.pairwise_singleton _ _) check)
    simp only [slots]
    cases compiled : compileBody f.slotNames d with
    | error e d' =>
      rw [compiled] at inside
      exact inside
    | ok code d' =>
      rw [compiled] at inside
      rw [same] at compiled
      let p : Procedure :=
        ⟨f.displayName, params.length, f.slotNames, body, d.world.objects.size⟩
      have arity : p.arity + 1 ≤ f.slotNames.length :=
        slots ▸ (prefix_extendSlots (thisName :: params) (Expr.declaredAll body)).length_le
      exact inside.trans (adds_newFunction (p := p) arity compiled rfl)

theorem builds_inductive : Expr.Inductive
    (fun e => ∀ slots base, Builds (Compile.expr slots base e) fun n => e.procedures n)
    (fun es => ∀ slots base,
      Builds (Compile.all slots base es) (fun n => Expr.proceduresAll n es) ∧
      Builds (Compile.block slots base es) (fun n => Expr.proceduresAll n es))
    (fun fs => ∀ slots base,
      Builds (Compile.fields slots base fs) fun n => Expr.proceduresFields n fs) where
  literal _ v slots base := (Builds.literal v).bind fun w => .pure _
  var _ x slots base := Builds.read slots x
  assign _ x _ e he slots base :=
    ((he slots base).bind fun value => (Builds.write slots x).bind fun _ => .pure _).congr
      fun n => by simp [Expr.procedures]
  field _ r x hr slots base :=
    ((hr slots base).bind fun receiver => (Builds.name x).bind fun _ => .pure _).congr
      fun n => by simp [Expr.procedures]
  setField _ r x e hr he slots base := by
    refine ((he slots base).bind fun value => (hr slots _).bind fun receiver =>
      (Builds.name x).bind fun _ => .pure _).congr fun n => ?_
    simp [Expr.procedures, Expr.length_procedures]
  call _ f args hf hargs slots base := by
    simp only [Compile.expr]
    by_cases printed : Compile.printed? slots f args = true
    · rw [if_pos printed]
      obtain ⟨t, arg, rfl, rfl, -⟩ := eq_of_printed printed
      refine ((hargs slots base).1.bind fun value => .pure _).congr fun n => ?_
      simp [Expr.procedures, Expr.functionCount]
    · rw [if_neg printed]
      refine ((hf slots base).bind fun callee => (hargs slots _).1.bind fun values =>
        .pure _).congr fun n => ?_
      simp [Expr.procedures, Expr.length_procedures]
  methodCall _ r x args hr hargs slots base := by
    refine ((hr slots base).bind fun receiver => (Builds.name x).bind fun _ =>
      (hargs slots _).1.bind fun values => .pure _).congr fun n => ?_
    simp [Expr.procedures, Expr.length_procedures]
  function span name params body h slots base := by
    have made : Builds (Compile.functionWith (fun slots => Compile.block slots 0 body) span name
        params body) fun n => (Expr.function span name params body).procedures n :=
      builds_function rfl fun slots => (h slots 0).2
    have known := made.named fun c id d result => by
      have size := (made.ok result).objects_size
      rw [Compile.functionWith_size result, Expr.length_procedures, Expr.functionCount] at size
      omega
    cases name with
    | some x =>
      refine Builds.assoc ((known.bind fun w => (Builds.name x).bind fun _ =>
        .pure _).congr fun n => ?_)
      simp
    | none =>
      refine Builds.assoc ((known.bind fun w => .pure _).congr fun n => ?_)
      simp
  object _ entries h slots base :=
    ((Builds.newClass _).bind fun shape => (h slots base).bind fun values => .pure _).congr
      fun n => by simp [Expr.procedures]
  cond _ c t e hc ht he slots base := by
    refine ((hc slots base).bind fun test => (ht slots _).2.bind fun thenCode =>
      (he slots _).2.bind fun elseCode => .pure _).congr fun n => ?_
    simp [Expr.procedures, Expr.length_procedures, Expr.length_proceduresAll, Nat.add_assoc]
  ret _ e he slots base :=
    ((he slots base).bind fun value => .pure _).congr fun n => by simp [Expr.procedures]
  block _ body h slots base := (h slots base).2
  nil slots base := ⟨.pure _, .pure _⟩
  cons e es he hes slots base := by
    constructor
    · refine ((he slots base).bind fun first => (hes slots _).1.bind fun rest =>
        .pure _).congr fun n => ?_
      simp [Expr.proceduresAll, Expr.length_procedures]
    · refine ((he slots base).bind fun first => (hes slots _).2.bind fun rest =>
        .pure _).congr fun n => ?_
      simp [Expr.proceduresAll, Expr.length_procedures]
  noFields slots base := .pure _
  consField x e fs he hfs slots base := by
    refine ((he slots base).bind fun first => (hfs slots _).bind fun rest =>
      .pure _).congr fun n => ?_
    simp [Expr.proceduresFields, Expr.length_procedures]

theorem builds_expr (slots : List String) (base : Nat) (e : Expr) :
    Builds (Compile.expr slots base e) fun n => e.procedures n := builds_inductive.expr e slots base

theorem builds_all (slots : List String) (base : Nat) (es : List Expr) :
    Builds (Compile.all slots base es) fun n => Expr.proceduresAll n es :=
  (builds_inductive.list es slots base).1

theorem builds_block (slots : List String) (base : Nat) (es : List Expr) :
    Builds (Compile.block slots base es) fun n => Expr.proceduresAll n es :=
  (builds_inductive.list es slots base).2

theorem builds_fields (slots : List String) (base : Nat) (fs : List (String × Expr)) :
    Builds (Compile.fields slots base fs) fun n => Expr.proceduresFields n fs :=
  builds_inductive.fields fs slots base

/-- A script is built of its functions and the function that it is itself. -/
theorem builds_script (s : Script) : Builds (compileScript s) fun n => s.procedures n := by
  intro c
  have inside := builds_block [thisName] 0 s.body c
  rw [compileScript_eq]
  simp only [Compile.script, bind_eq]
  cases compiled : Compile.block [thisName] 0 s.body c with
  | error e d =>
    rw [compiled] at inside
    exact inside
  | ok code d =>
    rw [compiled] at inside
    have arity : (s.procedure c.world.objects.size).arity + 1 ≤
        (s.procedure c.world.objects.size).locals.length := Nat.le_refl _
    exact inside.trans (adds_newFunction arity compiled rfl)

end TaggedScript
