import TaggedScript.Proofs.Compilation.Pieces

/-!
The code of an expression does what the expression means, whatever it is inside of.
-/
namespace TaggedScript

section
variable {I : Image} {c d : Compiling} {is : List Instr}

theorem Compile.constant_ok {v : Value} {w : Word} (h : Compile.constant v c = .ok w d) :
    w = (encode v c.dictionary).1 ∧ d = { c with dictionary := (encode v c.dictionary).2 } := by
  cases h
  exact ⟨rfl, rfl⟩

theorem NameOf.of_compiled {x : String} {w : Word} (h : Compile.name x c = .ok w d)
    (later : d.Extends I.compiled) : NameOf I w x := by
  obtain ⟨rfl, rfl⟩ := Compile.constant_ok h
  exact ⟨c.dictionary, rfl, later.dictionary⟩

theorem denotes_of_compiled {v : Value} {w : Word} (h : Compile.constant v c = .ok w d)
    (interned : v.isInterned) (later : d.Extends I.compiled) (σ : Memory) (b : FrameMachine)
    (holds : Holds I σ b) : Denotes I σ b w v := by
  obtain ⟨rfl, rfl⟩ := Compile.constant_ok h
  exact holds.denotes_constant interned later.dictionary

theorem denotes_literal {v : Literal} {w : Word} (h : Compile.literal v c = .ok w d)
    (later : d.Extends I.compiled) (σ : Memory) (b : FrameMachine) (holds : Holds I σ b) :
    Denotes I σ b w v.value := by
  cases v with
  | str s => exact denotes_of_compiled (v := .str s) h rfl later σ b holds
  | undefined =>
    cases h
    exact denotes_undefined I σ b
  | bool x =>
    cases h
    exact ⟨Memory.knows_plain I σ rfl (by simp [Literal.value]), fun _ => by
      simp [decode, Literal.value]⟩
  | int n =>
    cases h
    exact ⟨Memory.knows_plain I σ rfl (by simp [Literal.value]), fun _ => by
      simp [decode, Literal.value]⟩

/-- A class has the fields that it was made with. -/
theorem ClassOf.of_compiled {fields : List String} {w : Word}
    (h : Compile.newClass fields c = .ok w d) (later : d.Extends I.compiled) :
    ClassOf I w fields := by
  obtain ⟨id, e, made, named⟩ := ok_of_bind h
  obtain ⟨rfl, rfl⟩ := Compile.constant_ok named
  cases made
  refine ⟨c.dictionary, ⟨c.world.shapes.size⟩, rfl, later.dictionary, ?_⟩
  rw [later.shape (by simp)]
  simp [World.shape]

/-- The object of a function comes after those of the functions inside it. -/
theorem Compile.functionWith_ok {span : Span} {name : Option String} {params : List String}
    {body : List Expr} {id : ObjectId}
    (h : Compile.functionWith (fun slots => Compile.block slots 0 body) span name params body c =
      .ok id d) : id = ⟨c.world.objects.size + Expr.functionCountAll body⟩ := by
  obtain ⟨u, e, checked, rest⟩ := ok_of_bind h
  have same := checkParameters_state (name.getD lambdaName) span [thisName] params c
  rw [checked] at same
  simp only [stateOf] at same
  subst same
  obtain ⟨code, e', compiled, made⟩ := ok_of_bind rest
  have size := ((builds_block _ _ _).ok compiled).objects_size
  rw [Expr.length_proceduresAll] at size
  cases made
  rw [← size]

theorem Compile.expr_size {slots : List String} {base : Nat} {e : Expr}
    (h : Compile.expr slots base e c = .ok is d) :
    d.world.objects.size = c.world.objects.size + e.functionCount := by
  rw [← Expr.length_procedures e c.world.objects.size]
  exact ((builds_expr slots base e).ok h).objects_size

theorem Compile.block_size {slots : List String} {base : Nat} {es : List Expr}
    (h : Compile.block slots base es c = .ok is d) :
    d.world.objects.size = c.world.objects.size + Expr.functionCountAll es := by
  rw [← Expr.length_proceduresAll es c.world.objects.size]
  exact ((builds_block slots base es).ok h).objects_size

end

namespace Expr
variable {apply : Applier} {locals : List String} {first : Nat} {σ τ : Memory}

theorem length_meaningAll {es : List Expr} {vs : List Value}
    (h : meaningAll apply locals first es σ = .ok vs τ) : vs.length = es.length := by
  induction es generalizing first σ vs with
  | nil =>
    cases h
    rfl
  | cons e es ih =>
    obtain ⟨v, ρ, -, rest⟩ := ok_of_bind h
    obtain ⟨others, ρ', came, last⟩ := ok_of_bind rest
    cases last
    rw [List.length_cons, List.length_cons, ih came]

theorem names_meaningFields {fs : List (String × Expr)} {t : Table}
    (h : meaningFields apply locals first fs σ = .ok t τ) : t.map (·.1) = fs.map (·.1) := by
  induction fs generalizing first σ t with
  | nil =>
    cases h
    rfl
  | cons f fs ih =>
    obtain ⟨v, ρ, -, rest⟩ := ok_of_bind h
    obtain ⟨others, ρ', came, last⟩ := ok_of_bind rest
    cases last
    rw [List.map_cons, List.map_cons, ih came]

end Expr

/-- The code of a call that makes no use of `PRINT`. -/
def Compile.ordinary (slots : List String) (base : Nat) (f : Expr) (args : List Expr) :
    Compile (List Instr) := do
  let callee := (← expr slots base f) ++ [.const .undefined]
  let values ← all slots (base + codeWidth callee) args
  return callee ++ values ++ [.funcall args.length]

/-- The meaning of a call whose callee is evaluated before its arguments. -/
def Expr.ordinaryMeaning (apply : Applier) (locals : List String) (first : Nat) (f : Expr)
    (args : List Expr) : Meaning Value := do
  let callee ← f.meaning apply locals first
  let values ← meaningAll apply locals (first + f.functionCount) args
  apply callee .undefined values

section
variable {I : Image} {S : Stretch} {ctx : Context} {cost pc : Nat} {vals : List Value}
  {is : List Instr} {c d : Compiling}

theorem does_read (positive : 0 < cost) {x : String}
    (h : Compile.read ctx.locals x c = .ok is d) (later : d.Extends I.compiled) :
    Does I S ctx cost pc is vals (Meaning.read ctx.locals x) fun v => v :: vals := by
  unfold Compile.read at h
  cases found : slotOf? ctx.locals x with
  | some i =>
    rw [found] at h
    cases h
    refine .one positive (fun _ => Nat.le_refl _) fun here σ a at_a => ?_
    simp only [Meaning.read_slotOf?, found]
    exact at_a.load found here
  | none =>
    rw [found] at h
    obtain ⟨w, e, named, made⟩ := ok_of_bind h
    cases made
    refine .one positive (fun _ => Nat.le_refl _) fun here σ a at_a => ?_
    simp only [Meaning.read_slotOf?, found]
    exact at_a.lookup (.of_compiled named later) here

theorem does_write (positive : 0 < cost) {x : String} {v : Value}
    (h : Compile.write ctx.locals x c = .ok is d) (later : d.Extends I.compiled) :
    Does I S ctx cost pc is (v :: vals) (Meaning.write ctx.locals x v) fun _ => vals := by
  unfold Compile.write at h
  cases found : slotOf? ctx.locals x with
  | some i =>
    rw [found] at h
    cases h
    refine .one positive (fun _ => Nat.le_add_right _ 2) fun here σ a at_a => ?_
    simp only [Meaning.write_slotOf?, found]
    exact at_a.store found here
  | none =>
    rw [found] at h
    obtain ⟨w, e, named, made⟩ := ok_of_bind h
    cases made
    refine .one positive (fun _ => Nat.le_add_right _ 2) fun here σ a at_a => ?_
    simp only [Meaning.write_slotOf?, found]
    exact at_a.register (.of_compiled named later) here

/-- A `return` leaves the function with the value on top. -/
theorem Does.ret {α : Type} {m : Meaning Value} {post : α → List Value}
    (h : Does I S ctx cost pc is vals m fun v => v :: vals) :
    Does I S ctx cost pc (is ++ [.ret]) vals (m >>= fun v => throw (.returned v)) post := by
  refine h.bind fun v _ => ⟨fun u result => ?_, fun here σ a at_a => .here ⟨_, vals, at_a, here⟩⟩
  obtain ⟨σ, τ, result⟩ := result
  cases result

/-- A condition goes on with one of two blocks. -/
theorem Does.cond {α : Type} {test yes no : List Instr} {m : Meaning Value}
    {onTrue onFalse : Meaning α} {post : α → List Value} (positive : 0 < cost) {thenPc elsePc : Nat}
    (thenPlace : thenPc = pc + codeWidth (test ++ [.jumpIfFalse 0]))
    (elsePlace : elsePc = thenPc + codeWidth (yes ++ [.goto 0]))
    (tested : Does I S ctx cost pc test vals m fun v => v :: vals)
    (whenTrue : Does I S ctx cost thenPc yes vals onTrue post)
    (whenFalse : Does I S ctx cost elsePc no vals onFalse post) :
    Does I S ctx cost pc
      (test ++ [.jumpIfFalse elsePc] ++ yes ++ [.goto (elsePc + codeWidth no)] ++ no) vals
      (m >>= fun v => if v = .bool false then onFalse else onTrue) post := by
  simp only [List.append_assoc]
  refine tested.bind fun v _ => ?_
  generalize at_test : pc + codeWidth test = testEnd
  have jumps : testEnd + 2 = thenPc := by
    rw [thenPlace, codeWidth_append, ← Nat.add_assoc, at_test]
    rfl
  have goes : thenPc + codeWidth yes + 2 = elsePc := by
    rw [elsePlace, codeWidth_append, ← Nat.add_assoc]
    rfl
  have width : codeWidth ([.jumpIfFalse elsePc] ++
      (yes ++ ([.goto (elsePc + codeWidth no)] ++ no))) =
      2 + codeWidth yes + 2 + codeWidth no := by
    simp only [codeWidth_append, ← Nat.add_assoc]
    rfl
  constructor
  case few =>
    rintro u ⟨σ, τ, result⟩
    rw [width, List.length_cons]
    by_cases isFalse : v = .bool false
    · rw [if_pos isFalse] at result
      have few := whenFalse.few u ⟨σ, τ, result⟩
      omega
    · rw [if_neg isFalse] at result
      have few := whenTrue.few u ⟨σ, τ, result⟩
      omega
  intro here σ a at_a
  have inThen : S.HasAt ctx thenPc vals (yes ++ ([.goto (elsePc + codeWidth no)] ++ no)) := by
    rw [← jumps]
    exact here.tail (Nat.le_add_right _ 3)
  have inElse : S.HasAt ctx elsePc vals no := by
    rw [← goes]
    exact (inThen.right (Nat.le_add_right _ _)).tail (Nat.le_add_right _ _)
  have ends : testEnd + codeWidth ([.jumpIfFalse elsePc] ++
      (yes ++ ([.goto (elsePc + codeWidth no)] ++ no))) = elsePc + codeWidth no := by
    omega
  have steps : ([Instr.jumpIfFalse elsePc] ++
      (yes ++ ([Instr.goto (elsePc + codeWidth no)] ++ no))).length * cost =
      cost + yes.length * cost + cost + no.length * cost := by
    simp only [List.length_append, List.length_singleton, Nat.add_mul, Nat.one_mul, Nat.add_assoc]
  rw [ends, steps]
  have jumped := at_a.jumpIfFalse here
  by_cases isFalse : v = .bool false
  · simp only [if_pos isFalse] at jumped ⊢
    have whole := jumped.trans fun b at_b => whenFalse.leads inElse σ b at_b
    exact whole.more (by omega)
  · simp only [if_neg isFalse, jumps] at jumped ⊢
    have whole := jumped.trans fun b at_b => (whenTrue.leads inThen.left σ b at_b).andThen
      fun u τ e result at_e => at_e.goto (inThen.right (whenTrue.few u ⟨σ, τ, result⟩))
    exact whole.more (by omega)

end

section
variable {I : Image} {S : Stretch} {ctx : Context} {apply : Applier} {depth cost : Nat}
  (positive : 0 < cost) (calls : CallsWithin I S apply depth cost)
  (deep : depth + ctx.callers.length = S.limit)
include positive calls deep

/-- A call does what is meant if the code of its callee and of its arguments does. -/
theorem Does.ordinary {base : Nat} {vals : List Value} {f : Expr} {args : List Expr}
    {c d : Compiling} {is : List Instr}
    (compiled : Compile.ordinary ctx.locals base f args c = .ok is d) (later : d.Extends I.compiled)
    (callee : ∀ is d, Compile.expr ctx.locals base f c = .ok is d → d.Extends I.compiled →
      Does I S ctx cost base is vals (f.meaning apply ctx.locals c.world.objects.size)
        fun v => v :: vals)
    (values : ∀ base vals c is d, Compile.all ctx.locals base args c = .ok is d →
      d.Extends I.compiled →
      Does I S ctx cost base is vals (Expr.meaningAll apply ctx.locals c.world.objects.size args)
        fun vs => vs.reverse ++ vals) :
    Does I S ctx cost base is vals
      (Expr.ordinaryMeaning apply ctx.locals c.world.objects.size f args) fun v => v :: vals := by
  obtain ⟨code, c₁, first, rest⟩ := ok_of_bind compiled
  obtain ⟨codes, c₂, second, made⟩ := ok_of_bind rest
  obtain ⟨rfl, rfl⟩ := ok_of_pure made
  have before := ((builds_all _ _ args).ok second).later.trans later
  rw [List.append_assoc, List.append_assoc]
  refine (callee code c₁ first before).bind fun v _ => ?_
  refine .after (.const positive fun σ b _ => denotes_undefined I σ b) ?_
  rw [Nat.add_assoc, ← codeWidth_append, ← Compile.expr_size first]
  refine (values _ _ c₁ codes c₂ second later).bind fun vs came => ?_
  obtain ⟨σ, τ, came⟩ := came
  rw [← Expr.length_meaningAll came]
  exact .call calls deep

/-- The code of a tree does what the tree means if calls come to what they mean. Compiling has gone
on after it to what the machine runs. -/
theorem does_inductive : Expr.Inductive
    (fun e => ∀ base vals c is d, Compile.expr ctx.locals base e c = .ok is d →
      d.Extends I.compiled →
      Does I S ctx cost base is vals (e.meaning apply ctx.locals c.world.objects.size)
        fun v => v :: vals)
    (fun es =>
      (∀ base vals c is d, Compile.all ctx.locals base es c = .ok is d → d.Extends I.compiled →
        Does I S ctx cost base is vals (Expr.meaningAll apply ctx.locals c.world.objects.size es)
          fun vs => vs.reverse ++ vals) ∧
      ∀ base vals c is d, Compile.block ctx.locals base es c = .ok is d → d.Extends I.compiled →
        Does I S ctx cost base is vals (Expr.meaningBlock apply ctx.locals c.world.objects.size es)
          fun _ => .undefined :: vals)
    (fun fs => ∀ base vals c is d, Compile.fields ctx.locals base fs c = .ok is d →
      d.Extends I.compiled →
      Does I S ctx cost base is vals (Expr.meaningFields apply ctx.locals c.world.objects.size fs)
        fun t => (t.map (·.2)).reverse ++ vals) where
  literal s v base vals c is d compiled later := by
    obtain ⟨w, e, encoded, made⟩ := ok_of_bind compiled
    obtain ⟨rfl, rfl⟩ := ok_of_pure made
    simp only [Expr.meaning]
    exact .leaves (.const positive (denotes_literal encoded later)) rfl
  var s x base vals c is d compiled later := by
    simp only [Expr.meaning]
    exact does_read positive compiled later
  assign s x declare e ih base vals c is d compiled later := by
    obtain ⟨value, c₁, first, rest⟩ := ok_of_bind compiled
    obtain ⟨writes, c₂, second, made⟩ := ok_of_bind rest
    obtain ⟨rfl, rfl⟩ := ok_of_pure made
    have before := ((Builds.write ctx.locals x).ok second).later.trans later
    simp only [Expr.meaning]
    rw [List.append_assoc]
    refine (ih base vals c value c₁ first before).bind fun v _ => ?_
    refine .after (.dup positive) ?_
    exact (does_write positive second later).returns fun _ => rfl
  field s r x ih base vals c is d compiled later := by
    obtain ⟨receiver, c₁, first, rest⟩ := ok_of_bind compiled
    obtain ⟨w, c₂, named, made⟩ := ok_of_bind rest
    obtain ⟨rfl, rfl⟩ := ok_of_pure made
    have before := ((Builds.name x).ok named).later.trans later
    simp only [Expr.meaning]
    refine (ih base vals c receiver c₁ first before).bind fun v _ => ?_
    exact .get positive (.of_compiled named later)
  setField s r x e ihr ihe base vals c is d compiled later := by
    obtain ⟨value, c₁, first, rest⟩ := ok_of_bind compiled
    obtain ⟨receiver, c₂, second, rest⟩ := ok_of_bind rest
    obtain ⟨w, c₃, named, made⟩ := ok_of_bind rest
    obtain ⟨rfl, rfl⟩ := ok_of_pure made
    have before₂ := ((Builds.name x).ok named).later.trans later
    have before₁ := ((builds_expr _ _ r).ok second).later.trans before₂
    simp only [Expr.meaning]
    rw [List.append_assoc, List.append_assoc]
    refine (ihe base vals c value c₁ first before₁).bind fun v _ => ?_
    refine .after (.dup positive) ?_
    rw [Nat.add_assoc, ← codeWidth_append, ← Compile.expr_size first]
    refine (ihr _ _ c₁ receiver c₂ second before₂).bind fun u _ => ?_
    refine .cons (.swap positive) ?_
    exact (Does.put positive (.of_compiled named later)).returns fun _ => rfl
  call s f args ihf ihargs base vals c is d compiled later := by
    simp only [Compile.expr] at compiled
    simp only [Expr.meaning]
    rw [printed?_eq] at compiled
    by_cases printed : Expr.isPrint ctx.locals f args = true
    · rw [if_pos printed] at compiled ⊢
      obtain ⟨values, c₁, first, made⟩ := ok_of_bind compiled
      obtain ⟨rfl, rfl⟩ := ok_of_pure made
      refine (ihargs.1 base vals c values c₁ first later).bind fun vs came => ?_
      obtain ⟨σ, τ, came⟩ := came
      obtain ⟨t, arg, rfl, rfl, -⟩ := eq_of_isPrint printed
      obtain ⟨v, rfl⟩ := List.length_eq_one_iff.mp (Expr.length_meaningAll came)
      exact .print positive
    · rw [if_neg printed] at compiled ⊢
      exact .ordinary positive calls deep compiled later (ihf base vals c) ihargs.1
  methodCall s r x args ihr ihargs base vals c is d compiled later := by
    obtain ⟨receiver, c₁, first, rest⟩ := ok_of_bind compiled
    obtain ⟨w, c₂, named, rest⟩ := ok_of_bind rest
    obtain ⟨values, c₃, second, made⟩ := ok_of_bind rest
    obtain ⟨rfl, rfl⟩ := ok_of_pure made
    have before₂ := ((builds_all _ _ args).ok second).later.trans later
    have before₁ := ((Builds.name x).ok named).later.trans before₂
    obtain ⟨-, constant⟩ := Compile.constant_ok named
    have sameSize : c₂.world.objects.size = c₁.world.objects.size := by rw [constant]
    simp only [Expr.meaning]
    rw [List.append_assoc, List.append_assoc]
    refine (ihr base vals c receiver c₁ first before₁).bind fun v _ => ?_
    refine .cons (.dup positive) ?_
    refine .bindCons (.get positive (.of_compiled named before₂)) fun method => ?_
    refine .cons (.swap positive) ?_
    have place : base + codeWidth receiver + codeWidth [.dup] + codeWidth [.get w] +
        codeWidth [.swap] = base + codeWidth (receiver ++ [.dup, .get w, .swap]) := by
      simp only [codeWidth_append, codeWidth_cons, codeWidth_nil]
      omega
    rw [place, ← Compile.expr_size first, ← sameSize]
    refine (ihargs.1 _ _ c₂ values c₃ second later).bind fun vs came => ?_
    obtain ⟨σ, τ, came⟩ := came
    rw [← Expr.length_meaningAll came]
    exact .call calls deep
  function s name params body _ base vals c is d compiled later := by
    obtain ⟨id, c₁, made, rest⟩ := ok_of_bind compiled
    obtain ⟨w, c₂, encoded, code⟩ := ok_of_bind rest
    obtain rfl := Compile.functionWith_ok made
    simp only [Expr.meaning]
    cases name with
    | none =>
      obtain ⟨rfl, rfl⟩ := ok_of_pure (a := [Instr.const w]) code
      exact .leaves (.const positive (denotes_of_compiled encoded rfl later)) rfl
    | some x =>
      obtain ⟨n, c₃, named, last⟩ := ok_of_bind (x := Compile.name x)
        (f := fun n => pure ([Instr.const w] ++ [Instr.dup, Instr.register n])) code
      obtain ⟨rfl, rfl⟩ := ok_of_pure last
      have before := ((Builds.name x).ok named).later.trans later
      refine .after (.const positive (denotes_of_compiled encoded rfl before)) ?_
      refine .cons (.dup positive) ?_
      exact (Does.register positive (.of_compiled named later)).returns fun _ => rfl
  object s fields ih base vals c is d compiled later := by
    obtain ⟨shape, c₁, declared, rest⟩ := ok_of_bind compiled
    obtain ⟨values, c₂, first, made⟩ := ok_of_bind rest
    obtain ⟨rfl, rfl⟩ := ok_of_pure made
    have adds := (builds_fields _ _ fields).ok first
    have sameSize := ((Builds.newClass (fields.map (·.1))).ok declared).objects_size
    simp only [Expr.meaning]
    rw [← Nat.add_zero c.world.objects.size, ← List.length_nil (α := Procedure), ← sameSize]
    refine (ih base vals c₁ values c₂ first later).bind fun t came => ?_
    obtain ⟨σ, τ, came⟩ := came
    refine .new positive ?_
    rw [Expr.names_meaningFields came]
    exact .of_compiled declared (adds.later.trans later)
  cond s test yes no ihc iht ihe base vals c is d compiled later := by
    obtain ⟨testCode, c₁, first, rest⟩ := ok_of_bind compiled
    obtain ⟨yesCode, c₂, second, rest⟩ := ok_of_bind rest
    obtain ⟨noCode, c₃, third, made⟩ := ok_of_bind rest
    obtain ⟨rfl, rfl⟩ := ok_of_pure made
    have before₂ := ((builds_block _ _ no).ok third).later.trans later
    have before₁ := ((builds_block _ _ yes).ok second).later.trans before₂
    have tested := ihc base vals c testCode c₁ first before₁
    have whenTrue := iht.2 _ vals c₁ yesCode c₂ second before₂
    have whenFalse := ihe.2 _ vals c₂ noCode c₃ third later
    rw [Compile.expr_size first] at whenTrue
    rw [Compile.block_size second, Compile.expr_size first] at whenFalse
    simp only [Expr.meaning]
    exact .cond positive rfl rfl tested (whenTrue.returns fun _ => rfl)
      (whenFalse.returns fun _ => rfl)
  ret s e ih base vals c is d compiled later := by
    obtain ⟨value, c₁, first, made⟩ := ok_of_bind compiled
    obtain ⟨rfl, rfl⟩ := ok_of_pure made
    simp only [Expr.meaning]
    exact (ih base vals c value c₁ first later).ret
  block s body ih base vals c is d compiled later := by
    simp only [Expr.meaning]
    exact (ih.2 base vals c is d compiled later).returns fun _ => rfl
  nil := by
    constructor
    · intro base vals c is d compiled later
      obtain ⟨rfl, rfl⟩ := ok_of_pure compiled
      simp only [Expr.meaningAll]
      exact .done rfl
    · intro base vals c is d compiled later
      obtain ⟨rfl, rfl⟩ := ok_of_pure compiled
      simp only [Expr.meaningBlock]
      exact .leaves (.const positive fun σ b _ => denotes_undefined I σ b) rfl
  cons e es ihe ihes := by
    constructor
    · intro base vals c is d compiled later
      obtain ⟨one, c₁, first, rest⟩ := ok_of_bind compiled
      obtain ⟨others, c₂, second, made⟩ := ok_of_bind rest
      obtain ⟨rfl, rfl⟩ := ok_of_pure made
      have before := ((builds_all _ _ es).ok second).later.trans later
      simp only [Expr.meaningAll]
      refine (ihe base vals c one c₁ first before).bind fun v _ => ?_
      rw [← Compile.expr_size first]
      refine (ihes.1 _ _ c₁ others c₂ second later).returns fun vs => ?_
      rw [List.reverse_cons, List.append_assoc]
      rfl
    · intro base vals c is d compiled later
      obtain ⟨one, c₁, first, rest⟩ := ok_of_bind compiled
      obtain ⟨others, c₂, second, made⟩ := ok_of_bind rest
      obtain ⟨rfl, rfl⟩ := ok_of_pure made
      have before := ((builds_block _ _ es).ok second).later.trans later
      simp only [Expr.meaningBlock]
      rw [List.append_assoc]
      refine (ihe base vals c one c₁ first before).bind fun v _ => ?_
      refine .after (.drop positive) ?_
      rw [Nat.add_assoc, ← codeWidth_append, ← Compile.expr_size first]
      exact ihes.2 _ _ c₁ others c₂ second later
  noFields base vals c is d compiled later := by
    obtain ⟨rfl, rfl⟩ := ok_of_pure compiled
    simp only [Expr.meaningFields]
    exact .done rfl
  consField x e fields ihe ihfields base vals c is d compiled later := by
    obtain ⟨one, c₁, first, rest⟩ := ok_of_bind compiled
    obtain ⟨others, c₂, second, made⟩ := ok_of_bind rest
    obtain ⟨rfl, rfl⟩ := ok_of_pure made
    have before := ((builds_fields _ _ fields).ok second).later.trans later
    simp only [Expr.meaningFields]
    refine (ihe base vals c one c₁ first before).bind fun v _ => ?_
    rw [← Compile.expr_size first]
    refine (ihfields _ _ c₁ others c₂ second later).returns fun t => ?_
    rw [List.map_cons, List.reverse_cons, List.append_assoc]
    rfl

end
end TaggedScript
