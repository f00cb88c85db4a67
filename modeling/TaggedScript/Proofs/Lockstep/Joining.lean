import TaggedScript.Proofs.Compilation.CodeAt
import TaggedScript.Proofs.Lockstep.Alone

/-!
Two scripts that are compiled one after the other, beside one script with the statements of both. The
first one ends in code of its own, and its function is an object that the other world lacks; all the
rest is the same.
-/
namespace TaggedScript

/-- The script whose statements are those of one script and then those of another. -/
def Script.followedBy (s t : Script) : Script := ⟨s.body ++ t.body, s.source⟩

namespace Compile

/-- The code of statements whose values are dropped, with nothing after them. -/
def statements (slots : List String) (base : Nat) : List Expr → Compile (List Instr)
  | [] => return []
  | e :: es => do
    let first := (← expr slots base e) ++ [.pop]
    return first ++ (← statements slots (base + codeWidth first) es)

theorem block_append (slots : List String) (base : Nat) (es fs : List Expr) :
    block slots base (es ++ fs) = do
      let before ← statements slots base es
      return before ++ (← block slots (base + codeWidth before) fs) := by
  induction es generalizing base with
  | nil => simp [statements]
  | cons e es ih =>
    rw [List.cons_append, block, statements]
    simp only [ih, bind_assoc, pure_bind, List.append_assoc, codeWidth_append, Nat.add_assoc]

theorem block_eq (slots : List String) (base : Nat) (es : List Expr) :
    block slots base es = do
      let before ← statements slots base es
      return before ++ [.const .undefined] := by
  have whole := block_append slots base es []
  rw [List.append_nil] at whole
  simpa only [block, pure_bind] using whole

end Compile

namespace Lockstep
variable {R : Renumbering}

/-- What two compilations do with the same statements. -/
theorem twins_statements (L : Lockstep R) (slots : List String) (base base' : Nat)
    (es : List Expr) :
    L.Twins (fun L' => Alikes L' base base') (Compile.statements slots base es)
      (Compile.statements slots base' es) := by
  induction es generalizing L base base' with
  | nil => exact .pure .nil
  | cons e es ih =>
    simp only [Compile.statements]
    apply (twins_inductive.expr e L slots base base').bind
    intro L₁ first first' _ alike
    apply (ih L₁ _ _).bind
    intro L₂ rest rest' grows alike'
    exact .pure (((alike.map grows.carries).step .pop).append alike')

/-- The same, told with other numbers for what is not known yet. -/
def recast (L : Lockstep R) (R' : Renumbering) : Lockstep R' :=
  ⟨L.objects, L.shapes, L.records, L.left, L.right⟩

section
variable {R' : Renumbering} {L : Lockstep R} (agree : ∀ v, L.Knows v → R'.value v = R.value v)
include agree

theorem carries_recast : L.Carries (L.recast R') := fun {v} {w} {u} same => {
  known := same.known
  left := by
    rw [agree v same.known]
    exact same.left
  right := same.right }

theorem Worlds.recast {w w' : World} (h : L.Worlds w w') : (L.recast R').Worlds w w' where
  functions id known := by
    have same : R'.object id = R.object id := Value.object.inj (agree (.object id) known)
    rw [same]
    exact (h.functions id known).map (carries_recast agree)
  shapes id known := by
    have same : R'.shape id = R.shape id := Value.shape.inj (agree (.shape id) known)
    rw [same]
    exact h.shapes id known
  globals x := by
    obtain ⟨known, moved⟩ := h.globals x
    exact ⟨known, moved.trans (agree _ known).symm⟩
  fields id known x := by
    have same : R'.object id = R.object id := Value.object.inj (agree (.object id) known)
    obtain ⟨known', moved⟩ := h.fields id known x
    rw [same]
    exact ⟨known', moved.trans (agree _ known').symm⟩
  output := h.output
  closed := h.closed
  scopes := h.scopes

end

/-- Either world may get more objects, which have no counterparts. -/
theorem Worlds.withObjects {L : Lockstep R} {w w' : World} (h : L.Worlds w w')
    {os os' : Array HostObject} (left : w.objects.toList <+: os.toList)
    (right : w'.objects.toList <+: os'.toList) :
    L.Worlds { w with objects := os } { w' with objects := os' } := by
  have same {id : ObjectId} (known : id.index < L.objects) :
      World.object { w with objects := os } (R.object id) = w.object (R.object id) ∧
        World.object { w' with objects := os' } id = w'.object id := by
    obtain ⟨inside, inside'⟩ := h.inside known
    exact ⟨World.object_of_prefix left inside, World.object_of_prefix right inside'⟩
  exact {
    functions := fun id known => by
      obtain ⟨here, there⟩ := same known
      rw [here, there]
      exact h.functions id known
    shapes := h.shapes
    globals := h.globals_of_scopes rfl rfl
    fields := fun id known x => by
      obtain ⟨here, there⟩ := same known
      rw [World.field, World.field, here, there]
      exact h.fields id known x
    output := h.output
    closed := h.closed
    scopes := h.scopes }

/-- What the function of a script has, and what the functions of two scripts have beside it. -/
structure Joined (L : Lockstep R) (s : Script) (c₀ c c' : Compiling) (f g main : ObjectId)
    (first second second' : List Instr) : Prop where
  left : c.dictionary = L.left
  right : c'.dictionary = L.right
  records : L.records = []
  worlds : L.Worlds c.world c'.world
  before : L.objects = main.index
  begins : ∃ d, Compile.block [thisName] 0 s.body c₀ = .ok (first ++ [.const .undefined]) d ∧
    d.Extends c
  firstCode : c.world.object f =
    .ofCode "main" (.ofInstrs 1 1 (first ++ [.const .undefined] ++ [.ret]))
  secondCode : c.world.object g = .ofCode "main" (.ofInstrs 1 1 (second ++ [.ret]))
  wholeCode : c'.world.object main = .ofCode "main" (.ofInstrs 1 1 (first ++ second' ++ [.ret]))
  firstAlike : Alikes L 0 0 first first
  secondAlike : Alikes L 0 (codeWidth first) second second'

/-- The function of a script is the last object. -/
theorem compileScript_ok {s : Script} {c d : Compiling} {main : ObjectId}
    (compiled : compileScript s c = .ok main d) :
    ∃ code e, Compile.block [thisName] 0 s.body c = .ok code e ∧ main = ⟨e.world.objects.size⟩ ∧
      d = { e with
        world := (e.world.addObject (.ofCode "main" (.ofInstrs 1 1 (code ++ [.ret])))).2 } := by
  rw [compileScript_eq] at compiled
  obtain ⟨code, e, block, made⟩ := ok_of_bind compiled
  cases made
  exact ⟨code, e, block, rfl, rfl⟩

/-- Scripts that are compiled one after the other, and the script with the statements of both. -/
theorem joined {closed : Bool} {s t : Script} {c₁ c c' : Compiling} {f g main : ObjectId}
    (compiled : compileScript s ⟨.initial closed, .empty⟩ = .ok f c₁)
    (next : compileScript t c₁ = .ok g c)
    (together : compileScript (s.followedBy t) ⟨.initial closed, .empty⟩ = .ok main c') :
    ∃ (L : Lockstep (.shift f.index 1 0)) (first second second' : List Instr),
      L.Joined s ⟨.initial closed, .empty⟩ c c' f g main first second second' := by
  obtain ⟨code, d, block, rfl, rfl⟩ := compileScript_ok compiled
  obtain ⟨second, e, blockNext, rfl, rfl⟩ := compileScript_ok next
  obtain ⟨whole, e', blockWhole, rfl, rfl⟩ := compileScript_ok together
  have begins := block
  rw [Compile.block_eq] at block
  obtain ⟨first, d, statements, made⟩ := ok_of_bind block
  obtain ⟨rfl, rfl⟩ := ok_of_pure made
  simp only [Script.followedBy] at blockWhole
  rw [Compile.block_append, bind_eq, statements] at blockWhole
  obtain ⟨second', e', blockRest, made⟩ := ok_of_bind blockWhole
  obtain ⟨rfl, rfl⟩ := ok_of_pure made
  have start := (Alone.made closed ⟨0, 0⟩).compilings
  have alone := twins_statements _ [thisName] 0 0 s.body _ _ start
  simp only [Engine.make] at alone
  rw [statements] at alone
  obtain ⟨L₁, larger₁, alike₁, beside₁⟩ := alone
  let R : Renumbering := .shift d.world.objects.size 1 0
  have agree (v : Value) (known : L₁.Knows v) : R.value v = Renumbering.same.value v := by
    cases v with
    | object id =>
      have old : id.index < d.world.objects.size := beside₁.objects ▸ known
      exact congrArg Value.object (if_pos old)
    | undefined | bool | int | str | shape | ref => rfl
  let o : HostObject := .ofCode "main" (.ofInstrs 1 1 (first ++ [.const .undefined] ++ [.ret]))
  have again : (L₁.recast R).Compilings { d with world := (d.world.addObject o).2 } d := {
    left := beside₁.left
    right := beside₁.right
    objects := beside₁.objects
    shapes := beside₁.shapes
    worlds := (beside₁.worlds.recast agree).withObjects (by simp) List.prefix_rfl
    nextObject := fun k => by
      have later : ¬ d.world.objects.size + k < d.world.objects.size := by omega
      simp [R, Renumbering.shift, later, World.addObject, Nat.add_right_comm]
    nextShape := fun k => rfl }
  have rest := (twins_inductive.list t.body (L₁.recast R) [thisName] 0 (codeWidth first)).2 _ _ again
  rw [Nat.zero_add] at blockRest
  rw [blockNext, blockRest] at rest
  obtain ⟨L₂, larger₂, alike₂, beside₂⟩ := rest
  have later : d.Extends { d with world := (d.world.addObject o).2 } := .withObject d o
  have laterNext := ((builds_script t).ok next).later
  refine ⟨L₂, first, second, second', {
    left := beside₂.left
    right := beside₂.right
    records := larger₂.records.trans larger₁.records
    worlds := beside₂.worlds.withObjects (by simp) (by simp)
    before := beside₂.objects
    begins := ⟨d, begins, later.trans laterNext⟩
    firstCode := by
      rw [laterNext.object (by simp [World.addObject])]
      exact (World.object_addObject _ _ _).trans (if_pos rfl)
    secondCode := (World.object_addObject _ _ _).trans (if_pos rfl)
    wholeCode := (World.object_addObject _ _ _).trans (if_pos rfl)
    firstAlike := (alike₁.map (carries_recast agree)).map larger₂.grows.carries
    secondAlike := alike₂ }⟩

end Lockstep
end TaggedScript
