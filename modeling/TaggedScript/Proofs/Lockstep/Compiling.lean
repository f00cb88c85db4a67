import TaggedScript.Proofs.Compilation.Building
import TaggedScript.Proofs.Lockstep.Worlds

/-!
What the compiler makes of a program with two dictionaries and in two worlds. It finds the same fault
or none, and the code differs in no more than the words of its constants.
-/
namespace TaggedScript
namespace Lockstep
variable {R : Renumbering}

/-- One more object has a counterpart. -/
def withObject (L : Lockstep R) : Lockstep R := { L with objects := L.objects + 1 }

/-- One more class has a counterpart. -/
def withShape (L : Lockstep R) : Lockstep R := { L with shapes := L.shapes + 1 }

theorem grows_withObject (L : Lockstep R) : L.Grows L.withObject :=
  { Grows.refl L with objects := Nat.le_succ _ }

theorem grows_withShape (L : Lockstep R) : L.Grows L.withShape :=
  { Grows.refl L with shapes := Nat.le_succ _ }

namespace Worlds
variable {L : Lockstep R} {w w' : World} (h : L.Worlds w w')
include h

/-- Both worlds get a function. -/
theorem addObject {o o' : HostObject} (alike : L.Counterparts o o') (bare : o.fields = [])
    (bare' : o'.fields = []) (objects : L.objects = w'.objects.size)
    (next : R.object ⟨w'.objects.size⟩ = ⟨w.objects.size⟩) :
    L.withObject.Worlds (w.addObject o).2 (w'.addObject o').2 := by
  have grows := L.grows_withObject
  have look (id : ObjectId) (known : id.index < L.withObject.objects) :
      (w.addObject o).2.object (R.object id) = o ∧ (w'.addObject o').2.object id = o' ∨
      id.index < L.objects ∧ (w.addObject o).2.object (R.object id) = w.object (R.object id) ∧
        (w'.addObject o').2.object id = w'.object id := by
    simp only [World.object_addObject]
    by_cases new : id.index = w'.objects.size
    · obtain rfl : id = ⟨w'.objects.size⟩ := by cases id; exact congrArg _ new
      rw [next, if_pos rfl, if_pos rfl]
      exact .inl ⟨rfl, rfl⟩
    · have other : (R.object id).index ≠ w.objects.size := by
        intro same
        have equal : R.object id = R.object ⟨w'.objects.size⟩ := by
          rw [next, ← same]
        exact new (congrArg ObjectId.index (R.object_injective equal))
      rw [if_neg other, if_neg new]
      have bound : id.index < L.objects + 1 := known
      exact .inr ⟨by omega, rfl, rfl⟩
  exact {
    functions := fun id known => by
      obtain ⟨left, right⟩ | ⟨old, left, right⟩ := look id known
      · rw [left, right]
        exact alike.map grows.carries
      · rw [left, right]
        exact (h.functions id old).map grows.carries
    shapes := fun id known => h.shapes id known
    globals := fun x =>
      have same := h.globals_of_scopes (show (w.addObject o).2.scopes = w.scopes from rfl)
        (show (w'.addObject o').2.scopes = w'.scopes from rfl) x
      ⟨grows.knows same.1, same.2⟩
    fields := fun id known x => by
      rw [World.field, World.field]
      obtain ⟨left, right⟩ | ⟨old, left, right⟩ := look id known
      · rw [left, right, bare, bare']
        exact ⟨trivial, rfl⟩
      · rw [left, right]
        have same := h.fields id old x
        exact ⟨grows.knows same.1, same.2⟩
    output := h.output
    closed := h.closed
    scopes := h.scopes }

/-- Both worlds get a class. -/
theorem addShape (s : Shape) (shapes : L.shapes = w'.shapes.size)
    (next : R.shape ⟨w'.shapes.size⟩ = ⟨w.shapes.size⟩) :
    L.withShape.Worlds (w.addShape s).2 (w'.addShape s).2 := by
  have grows := L.grows_withShape
  have look (v : World) (id : ShapeId) : (v.addShape s).2.shape id =
      if id.index = v.shapes.size then s else v.shape id := by
    simp only [World.shape, World.addShape, Array.getD_eq_getD_getElem?, Array.getElem?_push]
    split <;> rfl
  exact {
    functions := fun id known => (h.functions id known).map grows.carries
    shapes := fun id known => by
      rw [look, look]
      by_cases new : id.index = w'.shapes.size
      · obtain rfl : id = ⟨w'.shapes.size⟩ := by cases id; exact congrArg _ new
        rw [next, if_pos rfl, if_pos rfl]
      · have other : (R.shape id).index ≠ w.shapes.size := by
          intro same
          have equal : R.shape id = R.shape ⟨w'.shapes.size⟩ := by
            rw [next, ← same]
          exact new (congrArg ShapeId.index (R.shape_injective equal))
        have bound : id.index < L.shapes + 1 := known
        rw [if_neg other, if_neg new, h.shapes id (by omega)]
    globals := fun x =>
      have same := h.globals_of_scopes (show (w.addShape s).2.scopes = w.scopes from rfl)
        (show (w'.addShape s).2.scopes = w'.scopes from rfl) x
      ⟨grows.knows same.1, same.2⟩
    fields := fun id known x =>
      have same := h.fields id known x
      ⟨grows.knows same.1, same.2⟩
    output := h.output
    closed := h.closed
    scopes := h.scopes }

end Worlds

/-- Two compilations have come equally far. The next function and the next class of one side will be
those of the other. -/
structure Compilings (L : Lockstep R) (c c' : Compiling) : Prop where
  left : c.dictionary = L.left
  right : c'.dictionary = L.right
  objects : L.objects = c'.world.objects.size
  shapes : L.shapes = c'.world.shapes.size
  worlds : L.Worlds c.world c'.world
  nextObject : ∀ k, R.object ⟨c'.world.objects.size + k⟩ = ⟨c.world.objects.size + k⟩
  nextShape : ∀ k, R.shape ⟨c'.world.shapes.size + k⟩ = ⟨c.world.shapes.size + k⟩

/-- What the right dictionary names the left one does. -/
def Covers (L : Lockstep R) : Prop := ∀ v ∈ L.right.entries, ∃ w, L.left.Spells (R.value v) w

/-- What compiling adds to what is agreed on. No records are made. -/
structure Enlarges (L L' : Lockstep R) : Prop where
  grows : L.Grows L'
  records : L'.records = L.records
  covers : L.Covers → L'.Covers

theorem Enlarges.refl (L : Lockstep R) : L.Enlarges L := ⟨.refl L, rfl, id⟩

theorem Enlarges.trans {L L' L'' : Lockstep R} (h : L.Enlarges L') (g : L'.Enlarges L'') :
    L.Enlarges L'' :=
  ⟨h.grows.trans g.grows, g.records.trans h.records, g.covers ∘ h.covers⟩

/-- Results that correspond once more is agreed on, or the same fault. -/
def Compiled {α β : Type} (L : Lockstep R) (V : Lockstep R → α → β → Prop) :
    EStateM.Result CompileError Compiling α → EStateM.Result CompileError Compiling β → Prop
  | .ok a c, .ok b c' => ∃ L', L.Enlarges L' ∧ V L' a b ∧ L'.Compilings c c'
  | .error e c, .error e' c' =>
    e = e' ∧ ∃ L', L.Enlarges L' ∧ L'.Compilings c c'
  | _, _ => False

theorem Compiled.states {α β : Type} {L : Lockstep R} {V : Lockstep R → α → β → Prop}
    {r : EStateM.Result CompileError Compiling α} {r' : EStateM.Result CompileError Compiling β}
    (h : L.Compiled V r r') :
    ∃ L', L.Enlarges L' ∧ L'.Compilings (stateOf r) (stateOf r') := by
  rcases r with ⟨a, c⟩ | ⟨e, c⟩ <;> rcases r' with ⟨b, c'⟩ | ⟨e', c'⟩
  · obtain ⟨L', larger, -, beside⟩ := h
    exact ⟨L', larger, beside⟩
  · exact h.elim
  · exact h.elim
  · obtain ⟨-, result⟩ := h
    exact result

/-- Two parts of the compiler come to the same. -/
def Twins {α β : Type} (L : Lockstep R) (V : Lockstep R → α → β → Prop) (x : Compile α)
    (y : Compile β) : Prop := ∀ c c', L.Compilings c c' → L.Compiled V (x c) (y c')

namespace Twins
variable {α β γ δ : Type} {L : Lockstep R} {V : Lockstep R → α → β → Prop}
  {U : Lockstep R → γ → δ → Prop} {x : Compile α} {y : Compile β}

theorem bind {f : α → Compile γ} {g : β → Compile δ} (h : L.Twins V x y)
    (next : ∀ L' a b, L.Grows L' → V L' a b → L'.Twins U (f a) (g b)) :
    L.Twins U (x >>= f) (y >>= g) := by
  intro c c' beside
  have first := h c c' beside
  rw [bind_eq, bind_eq]
  generalize x c = r, y c' = r' at first
  rcases r with ⟨a, d⟩ | ⟨e, d⟩ <;> rcases r' with ⟨b, d'⟩ | ⟨e', d'⟩
  · obtain ⟨L₁, larger, same, beside'⟩ := first
    have second := next L₁ a b larger.grows same d d' beside'
    show L.Compiled U (f a d) (g b d')
    generalize f a d = r, g b d' = r' at second
    rcases r with ⟨a, d⟩ | ⟨e, d⟩ <;> rcases r' with ⟨b, d'⟩ | ⟨e', d'⟩
    · obtain ⟨L₂, larger', result⟩ := second
      exact ⟨L₂, larger.trans larger', result⟩
    · exact second.elim
    · exact second.elim
    · obtain ⟨same, L₂, larger', result⟩ := second
      exact ⟨same, L₂, larger.trans larger', result⟩
  · exact first.elim
  · exact first.elim
  · exact first

theorem pure {a : α} {b : β} (same : V L a b) : L.Twins V (Pure.pure a) (Pure.pure b) :=
  fun _ _ beside => ⟨L, .refl L, same, beside⟩

theorem weaken {W : Lockstep R → α → β → Prop} (h : L.Twins V x y)
    (le : ∀ L' a b, L.Grows L' → V L' a b → W L' a b) : L.Twins W x y := by
  intro c c' beside
  have results := h c c' beside
  generalize x c = r, y c' = r' at results
  rcases r with ⟨a, d⟩ | ⟨e, d⟩ <;> rcases r' with ⟨b, d'⟩ | ⟨e', d'⟩
  · obtain ⟨L', larger, same, beside'⟩ := results
    exact ⟨L', larger, le L' a b larger.grows same, beside'⟩
  · exact results.elim
  · exact results.elim
  · exact results

theorem constant {v : Value} (known : L.Knows v) :
    L.Twins (fun L' => L'.Same v) (Compile.constant (R.value v)) (Compile.constant v) := by
  intro c c' beside
  have grows := L.grows_encoded (R.value v) v
  have same := L.same_encoded known
  have larger : L.Enlarges (L.encoded (R.value v) v) := {
    grows := grows
    records := rfl
    covers := fun covered u mem => by
      obtain old | ⟨rfl, -⟩ := mem_encode mem
      · exact (covered u old).imp fun _ spells => spells.mono grows.left
      · exact ⟨_, same.left⟩ }
  refine ⟨_, larger, ?_, ?_, ?_, beside.objects, beside.shapes, beside.worlds.grow grows rfl rfl,
    beside.nextObject, beside.nextShape⟩
  · simp only [beside.left, beside.right]
    exact same
  · rw [beside.left]
    rfl
  · rw [beside.right]
    rfl

theorem name (x : String) :
    L.Twins (fun L' => L'.Same (.str x)) (Compile.name x) (Compile.name x) :=
  constant (v := .str x) trivial

theorem literal (v : Literal) :
    L.Twins (fun L' w u => ∃ v, L'.Same v w u) (Compile.literal v) (Compile.literal v) := by
  cases v with
  | undefined => exact .pure ⟨_, L.same_undefined⟩
  | bool b => exact .pure ⟨_, L.same_bool b⟩
  | int n => exact .pure ⟨_, L.same_int n⟩
  | str s => exact (constant (v := .str s) trivial).weaken fun _ _ _ _ same => ⟨_, same⟩

theorem checkParameters (function : String) (span : Span) (slots params : List String) :
    L.Twins (fun _ _ _ => True) (Compile.checkParameters function span slots params)
      (Compile.checkParameters function span slots params) := by
  induction params generalizing slots with
  | nil => exact .pure trivial
  | cons x params ih =>
    simp only [Compile.checkParameters]
    split
    · exact fun c c' beside => ⟨rfl, L, .refl L, beside⟩
    · split
      · exact fun c c' beside => ⟨rfl, L, .refl L, beside⟩
      · exact ih _

/-- Functions that are made of alike code are counterparts. -/
theorem newFunction (name : String) {code code' : Code}
    (alike : Body.Alike L (.compiled code) (.compiled code')) :
    L.Twins (fun L' id id' => id = R.object id' ∧ L'.Knows (.object id'))
      (Compile.newFunction name code) (Compile.newFunction name code') := by
  intro c c' beside
  have next := beside.nextObject 0
  refine ⟨L.withObject, ⟨L.grows_withObject, rfl, id⟩, ⟨next.symm, ?_⟩, {
    left := beside.left
    right := beside.right
    objects := ?_
    shapes := beside.shapes
    worlds := beside.worlds.addObject ⟨rfl, alike⟩ rfl rfl beside.objects next
    nextObject := fun k => ?_
    nextShape := beside.nextShape }⟩
  · have inside : c'.world.objects.size < L.objects + 1 := by rw [beside.objects]; omega
    exact inside
  · simp [withObject, beside.objects]
  · have later := beside.nextObject (1 + k)
    simpa [World.addObject, Nat.add_assoc] using later

/-- Classes with the same fields are counterparts. -/
theorem newClass (fields : List String) :
    L.Twins (fun L' w u => ∃ id, L'.Same (.shape id) w u) (Compile.newClass fields)
      (Compile.newClass fields) := by
  apply bind (V := fun L' id id' => id = R.shape id' ∧ L'.Knows (.shape id'))
  · intro c c' beside
    have next := beside.nextShape 0
    refine ⟨L.withShape, ⟨L.grows_withShape, rfl, id⟩, ⟨next.symm, ?_⟩, {
      left := beside.left
      right := beside.right
      objects := beside.objects
      shapes := ?_
      worlds := beside.worlds.addShape _ beside.shapes next
      nextObject := beside.nextObject
      nextShape := fun k => ?_ }⟩
    · have inside : c'.world.shapes.size < L.shapes + 1 := by rw [beside.shapes]; omega
      exact inside
    · simp [withShape, beside.shapes]
    · have later := beside.nextShape (1 + k)
      simpa [World.addShape, Nat.add_assoc] using later
  · rintro L' _ id - ⟨rfl, known⟩
    exact (constant (v := .shape id) known).weaken fun _ _ _ _ same => ⟨id, same⟩

theorem read (slots : List String) (x : String) {base base' : Nat} :
    L.Twins (fun L' => Alikes L' base base') (Compile.read slots x) (Compile.read slots x) := by
  unfold Compile.read
  cases slotOf? slots x with
  | some i => exact .pure (.one (.load i))
  | none => exact (name x).bind fun _ _ _ _ same => .pure (.one (.lookup same))

theorem write (slots : List String) (x : String) {base base' : Nat} :
    L.Twins (fun L' => Alikes L' base base') (Compile.write slots x) (Compile.write slots x) := by
  unfold Compile.write
  cases slotOf? slots x with
  | some i => exact .pure (.one (.store i))
  | none => exact (name x).bind fun _ _ _ _ same => .pure (.one (.register same))

/-- Functions whose bodies come to the same are counterparts. -/
theorem functionWith {compile compile' : List String → Compile (List Instr)}
    (h : ∀ (L : Lockstep R) slots,
      L.Twins (fun L' => Alikes L' 0 0) (compile slots) (compile' slots))
    (span : Span) (name? : Option String) (params : List String) (body : List Expr) :
    L.Twins (fun L' id id' => id = R.object id' ∧ L'.Knows (.object id'))
      (Compile.functionWith compile span name? params body)
      (Compile.functionWith compile' span name? params body) := by
  apply (checkParameters _ _ _ _).bind
  intro L₁ _ _ _ _
  apply (h L₁ _).bind
  intro L₂ is js _ alike
  exact newFunction _ (.compiled alike)

end Twins

theorem twins_inductive : Expr.Inductive
    (fun e => ∀ (L : Lockstep R) slots base base', L.Twins (fun L' => Alikes L' base base')
      (Compile.expr slots base e) (Compile.expr slots base' e))
    (fun es => ∀ (L : Lockstep R) slots base base',
      L.Twins (fun L' => Alikes L' base base') (Compile.all slots base es)
        (Compile.all slots base' es) ∧
      L.Twins (fun L' => Alikes L' base base') (Compile.block slots base es)
        (Compile.block slots base' es))
    (fun fs => ∀ (L : Lockstep R) slots base base', L.Twins (fun L' => Alikes L' base base')
      (Compile.fields slots base fs) (Compile.fields slots base' fs)) where
  literal _ v L slots base base' := by
    simp only [Compile.expr]
    apply (Twins.literal v).bind
    rintro L₁ w u _ ⟨_, same⟩
    exact .pure (.one (.const same))
  var _ x L slots base base' := by
    simp only [Compile.expr]
    exact .read slots x
  assign _ x _ e he L slots base base' := by
    simp only [Compile.expr]
    apply (he L slots base base').bind
    intro L₁ value value' _ alike
    apply (Twins.write slots x).bind
    intro L₂ last last' grows alike'
    exact .pure (((alike.map grows.carries).step .dup).append alike')
  field _ r x hr L slots base base' := by
    simp only [Compile.expr]
    apply (hr L slots base base').bind
    intro L₁ receiver receiver' _ alike
    apply (Twins.name x).bind
    intro L₂ w u grows same
    exact .pure ((alike.map grows.carries).step (.get same))
  setField _ r x e hr he L slots base base' := by
    simp only [Compile.expr]
    apply (he L slots base base').bind
    intro L₁ value value' _ alike
    apply (hr L₁ slots _ _).bind
    intro L₂ receiver receiver' grows alike'
    apply (Twins.name x).bind
    intro L₃ w u grows' same
    have first := ((alike.map (grows.trans grows').carries).step .dup).append
      (alike'.map grows'.carries)
    have whole := (first.step .swap).step (.put same)
    exact .pure (by simpa using whole)
  call _ f args hf hargs L slots base base' := by
    simp only [Compile.expr]
    by_cases printed : Compile.printed? slots f args = true
    · rw [if_pos printed, if_pos printed]
      exact ((hargs L slots base base').1).bind fun _ _ _ _ alike => .pure (alike.step .print)
    · rw [if_neg printed, if_neg printed]
      apply (hf L slots base base').bind
      intro L₁ callee callee' _ alike
      apply ((hargs L₁ slots _ _).1).bind
      intro L₂ values values' grows alike'
      have first := (alike.step (.const L₁.same_undefined)).map grows.carries
      exact .pure ((first.append alike').step (.funcall args.length))
  methodCall _ r x args hr hargs L slots base base' := by
    simp only [Compile.expr]
    apply (hr L slots base base').bind
    intro L₁ receiver receiver' _ alike
    apply (Twins.name x).bind
    intro L₂ w u grows same
    apply ((hargs L₂ slots _ _).1).bind
    intro L₃ values values' grows' alike'
    have first := (((alike.map grows.carries).step .dup).step (.get same)).step .swap
    have whole := (first.map grows'.carries).append (by simpa using alike')
    exact .pure (by simpa using whole.step (.funcall args.length))
  function span name? params body h L slots base base' := by
    simp only [Compile.expr]
    apply (Twins.functionWith (fun L slots => (h L slots 0 0).2) span name? params body).bind
    rintro L₁ _ id - ⟨rfl, known⟩
    apply (Twins.constant (v := .object id) known).bind
    intro L₂ w u _ same
    have make : Alikes L₂ base base' [.const w] [.const u] := .one (.const same)
    cases name? with
    | none => exact .pure make
    | some x =>
      apply (Twins.name x).bind
      intro L₃ w' u' grows same'
      have whole := ((make.map grows.carries).step .dup).step (.register same')
      exact .pure whole
  object _ entries h L slots base base' := by
    simp only [Compile.expr]
    apply (Twins.newClass _).bind
    rintro L₁ w u - ⟨id, same⟩
    apply (h L₁ slots base base').bind
    intro L₂ values values' grows alike
    exact .pure (alike.step (.new (grows.same same)))
  cond _ c t e hc ht he L slots base base' := by
    simp only [Compile.expr]
    apply (hc L slots base base').bind
    intro L₁ test test' _ alike
    apply ((ht L₁ slots _ _).2).bind
    intro L₂ first first' grows alike'
    apply ((he L₂ slots _ _).2).bind
    intro L₃ second second' grows' alike''
    exact .pure (.cond (alike.map (grows.trans grows').carries) (alike'.map grows'.carries) alike''
      rfl rfl rfl rfl)
  ret _ e he L slots base base' := by
    simp only [Compile.expr]
    exact (he L slots base base').bind fun _ _ _ _ alike => .pure (alike.step .ret)
  block _ body h L slots base base' := by
    simp only [Compile.expr]
    exact (h L slots base base').2
  nil L slots base base' := by
    simp only [Compile.all, Compile.block]
    exact ⟨.pure .nil, .pure (.one (.const L.same_undefined))⟩
  cons e es he hes L slots base base' := by
    simp only [Compile.all, Compile.block]
    constructor
    · apply (he L slots base base').bind
      intro L₁ first first' _ alike
      apply ((hes L₁ slots _ _).1).bind
      intro L₂ rest rest' grows alike'
      exact .pure ((alike.map grows.carries).append alike')
    · apply (he L slots base base').bind
      intro L₁ first first' _ alike
      apply ((hes L₁ slots _ _).2).bind
      intro L₂ rest rest' grows alike'
      exact .pure (((alike.map grows.carries).step .pop).append alike')
  noFields L slots base base' := by
    simp only [Compile.fields]
    exact .pure .nil
  consField x e fs he hfs L slots base base' := by
    simp only [Compile.fields]
    apply (he L slots base base').bind
    intro L₁ first first' _ alike
    apply (hfs L₁ slots _ _).bind
    intro L₂ rest rest' grows alike'
    exact .pure ((alike.map grows.carries).append alike')

/-- The function of a script, and all functions in it, come to the same on both sides. -/
theorem twins_script (L : Lockstep R) (s : Script) :
    L.Twins (fun L' id id' => id = R.object id' ∧ L'.Knows (.object id')) (compileScript s)
      (compileScript s) := by
  rw [compileScript_eq]
  apply ((twins_inductive.list s.body L [thisName] 0 0).2).bind
  intro L₁ is js _ alike
  exact .newFunction _ (.compiled alike)

end Lockstep
end TaggedScript
