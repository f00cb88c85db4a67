import TaggedScript.Machine.Compiler
import TaggedScript.Proofs.Compilation.CodeAt
import TaggedScript.Proofs.SyntaxInduction

/-!
What the compiler emits, as a list of instructions. In the list a jump has its target from the start,
which is told from the room that the code in between takes. The builder gets the same code, with each
jump patched once its target is reached.
-/
namespace TaggedScript

namespace Compile

/-- Code that pushes a variable. -/
def read (slots : List String) (x : String) : Compile (List Instr) := do
  match slotOf? slots x with
  | some slot => return [.load slot]
  | none => return [.lookup (← name x)]

/-- Code that pops a value into a variable. -/
def write (slots : List String) (x : String) : Compile (List Instr) := do
  match slotOf? slots x with
  | some slot => return [.store slot]
  | none => return [.register (← name x)]

/-- Compiles a function and those inside it, given how to compile its body with its slots. -/
def functionWith (compileBody : List String → Compile (List Instr)) (span : Span)
    (name? : Option String) (params : List String) (body : List Expr) : Compile ObjectId := do
  let name := name?.getD lambdaName
  checkParameters name span [thisName] params
  let slots := extendSlots (thisName :: params) (Expr.declaredAll body)
  let code := (← compileBody slots) ++ [.ret]
  newFunction name (.ofInstrs (params.length + 1) slots.length code)

mutual

/-- The code of an expression that begins at the position `base`. -/
def expr (slots : List String) (base : Nat) : Expr → Compile (List Instr)
  | .literal _ v => return [.const (← literal v)]
  | .var _ x => read slots x
  | .assign _ x _ e => do
    let value ← expr slots base e
    return value ++ [.dup] ++ (← write slots x)
  | .field _ r x => do
    let receiver ← expr slots base r
    return receiver ++ [.get (← name x)]
  | .setField _ r x e => do
    let value ← expr slots base e
    let receiver ← expr slots (base + codeWidth (value ++ [.dup])) r
    return value ++ [.dup] ++ receiver ++ [.swap, .put (← name x)]
  | .call _ f args => do
    if printed? slots f args then
      return (← all slots base args) ++ [.print]
    else
      let callee := (← expr slots base f) ++ [.const .undefined]
      let values ← all slots (base + codeWidth callee) args
      return callee ++ values ++ [.funcall args.length]
  | .methodCall _ r x args => do
    let receiver ← expr slots base r
    let method := receiver ++ [.dup, .get (← name x), .swap]
    let values ← all slots (base + codeWidth method) args
    return method ++ values ++ [.funcall args.length]
  | .function span name? params body => do
    let id ← functionWith (fun slots => block slots 0 body) span name? params body
    let make := [.const (← constant (.object id))]
    match name? with
    | some x => return make ++ [.dup, .register (← name x)]
    | none => return make
  | .object _ entries => do
    let shape ← newClass (entries.map (·.1))
    return (← fields slots base entries) ++ [.new shape]
  | .cond _ test thenBlock elseBlock => do
    let test ← expr slots base test
    let thenBase := base + codeWidth (test ++ [.jumpIfFalse 0])
    let thenCode ← block slots thenBase thenBlock
    let elseBase := thenBase + codeWidth (thenCode ++ [.goto 0])
    let elseCode ← block slots elseBase elseBlock
    return test ++ [.jumpIfFalse elseBase] ++ thenCode ++
      [.goto (elseBase + codeWidth elseCode)] ++ elseCode
  | .ret _ e => return (← expr slots base e) ++ [.ret]
  | .block _ body => block slots base body

/-- The code of expressions whose values stay on the stack. -/
def all (slots : List String) (base : Nat) : List Expr → Compile (List Instr)
  | [] => return []
  | e :: es => do
    let first ← expr slots base e
    return first ++ (← all slots (base + codeWidth first) es)

def fields (slots : List String) (base : Nat) : List (String × Expr) → Compile (List Instr)
  | [] => return []
  | (_, e) :: es => do
    let first ← expr slots base e
    return first ++ (← fields slots (base + codeWidth first) es)

/-- The code of statements whose values are dropped. It leaves `undefined`. -/
def block (slots : List String) (base : Nat) : List Expr → Compile (List Instr)
  | [] => return [.const .undefined]
  | e :: es => do
    let first := (← expr slots base e) ++ [.pop]
    return first ++ (← block slots (base + codeWidth first) es)

end

/-- Compiles the body of a script. -/
def script (s : Script) : Compile ObjectId := do
  let code := (← block [thisName] 0 s.body) ++ [.ret]
  newFunction "main" (.ofInstrs 1 1 code)

end Compile

namespace CodeBuilder
variable {b : CodeBuilder} {is js : List Instr}

/-- Instructions one after the other. -/
def emitAll (b : CodeBuilder) (is : List Instr) : CodeBuilder :=
  { b with stream := b.stream ++ is.flatMap Instr.encode }

@[simp] theorem emitAll_nil (b : CodeBuilder) : b.emitAll [] = b := by simp [emitAll]

theorem emitAll_append (b : CodeBuilder) (is js : List Instr) :
    b.emitAll (is ++ js) = (b.emitAll is).emitAll js := by
  simp only [emitAll, List.flatMap_append, mk.injEq, true_and]
  apply Array.ext'
  simp

theorem emitAll_singleton (b : CodeBuilder) (i : Instr) : b.emitAll [i] = b.emit i := by
  simp [emitAll, emit]

@[simp] theorem position_emitAll (b : CodeBuilder) (is : List Instr) :
    (b.emitAll is).position = b.position + codeWidth is := by
  rw [← length_encode_all]
  simp [emitAll, position, ← Array.length_toList]

@[simp] theorem position_emit (b : CodeBuilder) (i : Instr) :
    (b.emit i).position = b.position + i.width := by
  rw [← emitAll_singleton, position_emitAll, codeWidth_cons, codeWidth_nil, Nat.add_zero]

@[simp] theorem position_patchHere (b : CodeBuilder) (jump : Nat) :
    (b.patchHere jump).position = b.position := by
  simp [patchHere, patch, position]

/-- A jump that is patched later is the same as one that has its target from the start. -/
theorem patch_emitAll (make : Nat → Instr) (jumps : ∀ n, (make n).encode = [(make 0).opcode, n])
    (b : CodeBuilder) (target : Nat) (is : List Instr) :
    ((b.emit (make 0)).emitAll is).patch b.position target = (b.emit (make target)).emitAll is := by
  simp only [patch, emitAll, emit, position, jumps, mk.injEq, true_and]
  apply Array.ext'
  simp

/-- The jumps of a condition when both are patched. -/
theorem emitAll_cond (b : CodeBuilder) (test yes no : List Instr) :
    let thenBase := b.position + codeWidth test + (Instr.jumpIfFalse 0).width
    let elseBase := thenBase + codeWidth yes + (Instr.goto 0).width
    ((((((b.emitAll test).emit (.jumpIfFalse 0)).emitAll yes).emit (.goto 0)).patchHere
        (b.position + codeWidth test)).emitAll no).patchHere (thenBase + codeWidth yes) =
      b.emitAll (test ++ [.jumpIfFalse elseBase] ++ yes ++ [.goto (elseBase + codeWidth no)] ++
        no) := by
  intro thenBase elseBase
  have toElse := patch_emitAll .jumpIfFalse (fun _ => rfl) (b.emitAll test) elseBase
    (yes ++ [.goto 0])
  have toEnd := patch_emitAll .goto (fun _ => rfl)
    (((b.emitAll test).emit (.jumpIfFalse elseBase)).emitAll yes) (elseBase + codeWidth no) no
  simp only [emitAll_append, emitAll_singleton, position_emitAll, position_emit] at toElse toEnd ⊢
  simp only [patchHere, position_emitAll, position_emit]
  rw [toElse]
  simp only [position_emitAll, position_emit]
  exact toEnd

theorem finish_emitAll (parameterCount slotCount : Nat) (is : List Instr) :
    ((empty parameterCount slotCount).emitAll is).finish =
      .ofInstrs parameterCount slotCount is := by
  simp [finish, emitAll, empty, Code.ofInstrs]

end CodeBuilder

/-- What is emitted from a position on is that code. -/
def Emitter.Emits (x : Emitter Unit) (code : Nat → Compile (List Instr)) : Prop :=
  ∀ b, x.run b = (fun is => ((), b.emitAll is)) <$> code b.position

namespace Emitter

theorem emits_instr (i : Instr) : Emits (instr i) fun _ => return [i] := by
  intro b
  simp [instr, CodeBuilder.emitAll_singleton]

/-- An instruction whose operand is made by the compiler. -/
theorem emits_made {α : Type} (x : Compile α) (make : α → Instr) :
    Emits (do instr (make (← x))) fun _ => return [make (← x)] := by
  intro b
  simp [instr, CodeBuilder.emitAll_singleton]

/-- What the compiler makes first decides on what is emitted. -/
theorem Emits.after {α : Type} (x : Compile α) {y : α → Emitter Unit}
    {made : α → Nat → Compile (List Instr)} (h : ∀ a, (y a).Emits (made a)) :
    Emits (do y (← x)) fun base => x >>= fun a => made a base := by
  intro b
  simp [h _ b]

theorem Emits.andThen {x y : Emitter Unit} {first second : Nat → Compile (List Instr)}
    (hx : x.Emits first) (hy : y.Emits second) :
    Emits (do x; y) fun base => do
      let is ← first base
      return is ++ (← second (base + codeWidth is)) := by
  intro b
  simp [hx b, hy _, CodeBuilder.emitAll_append]

/-- The jumps of a condition are patched as soon as their targets are reached. -/
theorem Emits.cond {test yes no : Emitter Unit}
    {testCode yesCode noCode : Nat → Compile (List Instr)}
    (ht : test.Emits testCode) (hy : yes.Emits yesCode) (hn : no.Emits noCode) :
    Emits (do
        test
        let toElse ← jump .jumpIfFalse
        yes
        let toEnd ← jump .goto
        patchHere toElse
        no
        patchHere toEnd)
      fun base => do
        let test ← testCode base
        let thenBase := base + codeWidth (test ++ [.jumpIfFalse 0])
        let thenCode ← yesCode thenBase
        let elseBase := thenBase + codeWidth (thenCode ++ [.goto 0])
        let elseCode ← noCode elseBase
        return test ++ [.jumpIfFalse elseBase] ++ thenCode ++
          [.goto (elseBase + codeWidth elseCode)] ++ elseCode := by
  intro b
  simp only [jump, patchHere, StateT.run_bind, ht b, hy _, hn _]
  simp [← Nat.add_assoc, CodeBuilder.emitAll_cond]

theorem emits_read (slots : List String) (x : String) :
    (read slots x).Emits fun _ => Compile.read slots x := by
  unfold read Compile.read
  cases slotOf? slots x with
  | none => exact emits_made _ _
  | some slot => exact emits_instr _

theorem emits_write (slots : List String) (x : String) :
    (write slots x).Emits fun _ => Compile.write slots x := by
  unfold write Compile.write
  cases slotOf? slots x with
  | none => exact emits_made _ _
  | some slot => exact emits_instr _

/-- The code of a function is finished with all that was emitted. -/
theorem code_eq {body : Emitter Unit} {instrs : Nat → Compile (List Instr)} (h : body.Emits instrs)
    (parameterCount slotCount : Nat) :
    code parameterCount slotCount body = do
      return .ofInstrs parameterCount slotCount ((← instrs 0) ++ [.ret]) := by
  have whole := h.andThen (emits_instr .ret) (.empty parameterCount slotCount)
  have first : (CodeBuilder.empty parameterCount slotCount).position = 0 := rfl
  simp only [code, whole, first]
  simp [CodeBuilder.finish_emitAll]

theorem functionWith_eq {emitBody : List String → Emitter Unit}
    {instrs : List String → Nat → Compile (List Instr)}
    (h : ∀ slots, (emitBody slots).Emits (instrs slots)) (span : Span) (name? : Option String)
    (params : List String) (body : List Expr) :
    functionWith emitBody span name? params body =
      Compile.functionWith (fun slots => instrs slots 0) span name? params body := by
  simp [functionWith, Compile.functionWith, code_eq (h _)]

/-- What is emitted for a tree is the code of the tree. -/
theorem emits_inductive : Expr.Inductive
    (fun e => ∀ slots, (expr slots e).Emits fun base => Compile.expr slots base e)
    (fun es => ∀ slots, ((all slots es).Emits fun base => Compile.all slots base es) ∧
      (block slots es).Emits fun base => Compile.block slots base es)
    (fun fs => ∀ slots, (fields slots fs).Emits fun base => Compile.fields slots base fs) where
  literal s v slots := by
    simp only [expr, Compile.expr]
    exact emits_made _ _
  var s x slots := by
    simp only [expr, Compile.expr]
    exact emits_read slots x
  assign s x declare e ih slots := by
    have whole := (ih slots).andThen ((emits_instr .dup).andThen (emits_write slots x))
    intro b
    simpa [expr, Compile.expr] using whole b
  field s r x ih slots := by
    have whole := (ih slots).andThen (emits_made (Compile.name x) .get)
    intro b
    simpa [expr, Compile.expr] using whole b
  setField s r x e ihr ihe slots := by
    have whole := ((ihe slots).andThen (emits_instr .dup)).andThen
      ((ihr slots).andThen ((emits_instr .swap).andThen (emits_made (Compile.name x) .put)))
    intro b
    simpa [expr, Compile.expr] using whole b
  call s f args ihf ihargs slots := by
    intro b
    simp only [expr, Compile.expr]
    split
    · exact (ihargs slots).1.andThen (emits_instr .print) b
    · have whole := ((ihf slots).andThen (emits_instr (.const .undefined))).andThen
        ((ihargs slots).1.andThen (emits_instr (.funcall args.length)))
      simpa using whole b
  methodCall s r x args ihr ihargs slots := by
    have method := (emits_instr .dup).andThen
      ((emits_made (Compile.name x) .get).andThen (emits_instr .swap))
    have whole := ((ihr slots).andThen method).andThen
      ((ihargs slots).1.andThen (emits_instr (.funcall args.length)))
    intro b
    simpa [expr, Compile.expr] using whole b
  function s name params body ih slots := by
    have inside := functionWith_eq (fun slots => (ih slots).2) s name params body
    simp only [expr, Compile.expr, inside]
    refine .after _ fun id => ?_
    have make := emits_made (Compile.constant (.object id)) .const
    intro b
    cases name with
    | none => simpa using make b
    | some x =>
      have whole := make.andThen ((emits_instr .dup).andThen (emits_made (Compile.name x) .register))
      simpa using whole b
  object s fields ih slots := by
    simp only [expr, Compile.expr]
    exact .after _ fun shape => (ih slots).andThen (emits_instr (.new shape))
  cond s c t e ihc iht ihe slots := by
    simp only [expr, Compile.expr]
    exact (ihc slots).cond (iht slots).2 (ihe slots).2
  ret s e ih slots := by
    have whole := (ih slots).andThen (emits_instr .ret)
    intro b
    simpa [expr, Compile.expr] using whole b
  block s body ih slots := by
    simp only [expr, Compile.expr]
    exact (ih slots).2
  nil slots := by
    simp only [all, block, Compile.all, Compile.block]
    exact ⟨fun b => by simp, emits_instr _⟩
  cons e es ihe ihes slots := by
    simp only [all, block, Compile.all, Compile.block]
    refine ⟨(ihe slots).andThen (ihes slots).1, ?_⟩
    have whole := ((ihe slots).andThen (emits_instr .pop)).andThen (ihes slots).2
    intro b
    simpa using whole b
  noFields slots := by
    simp only [fields, Compile.fields]
    exact fun b => by simp
  consField x e fields ihe ihfields slots := by
    simp only [Emitter.fields, Compile.fields]
    exact (ihe slots).andThen (ihfields slots)

theorem emits_block (slots : List String) (body : List Expr) :
    (block slots body).Emits fun base => Compile.block slots base body :=
  (emits_inductive.list body slots).2

end Emitter

/-- The compiler makes of a script the code of its statements. -/
theorem compileScript_eq (s : Script) : compileScript s = Compile.script s := by
  simp [compileScript, Compile.script, Emitter.code_eq (Emitter.emits_block [thisName] s.body)]

/-- The compiler makes of a function the code of its body. -/
theorem compileFunction_eq (f : FunDef) (span : Span) :
    compileFunction f span =
      Compile.functionWith (fun slots => Compile.block slots 0 f.body) span f.name f.params f.body :=
  Emitter.functionWith_eq (fun slots => Emitter.emits_block slots f.body) span f.name f.params f.body

end TaggedScript
