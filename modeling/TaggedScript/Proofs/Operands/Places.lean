import TaggedScript.Proofs.Codec
import TaggedScript.Proofs.Compilation.Building
import TaggedScript.Proofs.Operands.Levels

/-!
Where the code of the expressions of a function stands, and that it leaves one word each. The room
that code takes can be told from the tree, so the positions can too.
-/
namespace TaggedScript

namespace Expr

mutual

/-- The room that the code of an expression takes in a function with these slots. -/
def room (slots : List String) : Expr → Nat
  | literal .. => 2
  | var .. => 2
  | assign _ _ _ e => e.room slots + 3
  | field _ r _ => r.room slots + 2
  | setField _ r _ e => e.room slots + 1 + r.room slots + 3
  | call _ f args =>
    if isPrint slots f args then roomAll slots args + 1
    else f.room slots + 2 + roomAll slots args + 2
  | methodCall _ r _ args => r.room slots + 4 + roomAll slots args + 2
  | function _ name? _ _ => if name?.isSome then 5 else 2
  | object _ fields => roomFields slots fields + 2
  | cond _ c t e => c.room slots + 2 + (roomBlock slots t + 2) + roomBlock slots e
  | ret _ e => e.room slots + 1
  | block _ body => roomBlock slots body

def roomAll (slots : List String) : List Expr → Nat
  | [] => 0
  | e :: es => e.room slots + roomAll slots es

def roomFields (slots : List String) : List (String × Expr) → Nat
  | [] => 0
  | (_, e) :: es => e.room slots + roomFields slots es

def roomBlock (slots : List String) : List Expr → Nat
  | [] => 2
  | e :: es => e.room slots + 1 + roomBlock slots es

end

mutual

/-- The expressions in an expression that have code of their own, and where it begins. The code of the
expression itself begins at `base`. Functions have their code elsewhere. -/
def places (slots : List String) (base : Nat) : Expr → List (Nat × Expr)
  | literal .. => []
  | var .. => []
  | assign _ _ _ e => (base, e) :: e.places slots base
  | field _ r _ => (base, r) :: r.places slots base
  | setField _ r _ e =>
    let next := base + (e.room slots + 1)
    (base, e) :: e.places slots base ++ (next, r) :: r.places slots next
  | call _ f args =>
    if isPrint slots f args then placesAll slots base args
    else (base, f) :: f.places slots base ++ placesAll slots (base + (f.room slots + 2)) args
  | methodCall _ r _ args =>
    (base, r) :: r.places slots base ++ placesAll slots (base + (r.room slots + 4)) args
  | function .. => []
  | object _ fields => placesFields slots base fields
  | cond _ c t e =>
    let next := base + (c.room slots + 2)
    (base, c) :: c.places slots base ++ placesBlock slots next t ++
      placesBlock slots (next + (roomBlock slots t + 2)) e
  | ret _ e => (base, e) :: e.places slots base
  | block _ body => placesBlock slots base body

def placesAll (slots : List String) (base : Nat) : List Expr → List (Nat × Expr)
  | [] => []
  | e :: es => (base, e) :: e.places slots base ++ placesAll slots (base + e.room slots) es

def placesFields (slots : List String) (base : Nat) : List (String × Expr) → List (Nat × Expr)
  | [] => []
  | (_, e) :: es => (base, e) :: e.places slots base ++ placesFields slots (base + e.room slots) es

/-- The statements of a block are dropped by an instruction each. -/
def placesBlock (slots : List String) (base : Nat) : List Expr → List (Nat × Expr)
  | [] => []
  | e :: es => (base, e) :: e.places slots base ++ placesBlock slots (base + (e.room slots + 1)) es

end

/-- The statements of a block, without the expressions in them, and where the code of each begins. -/
def statementPlaces (slots : List String) (base : Nat) : List Expr → List (Nat × Expr)
  | [] => []
  | e :: es => (base, e) :: statementPlaces slots (base + (e.room slots + 1)) es

theorem statementPlaces_subset (slots : List String) (base : Nat) (es : List Expr) :
    statementPlaces slots base es ⊆ placesBlock slots base es := by
  induction es generalizing base with
  | nil => exact List.Subset.refl _
  | cons e es ih =>
    rw [statementPlaces, placesBlock]
    exact List.cons_subset_cons _ (List.Subset.trans (ih _) (List.subset_append_right _ _))

/-- The first statement begins at the beginning. -/
theorem le_of_mem_statementPlaces {slots : List String} {base : Nat} {es : List Expr}
    {place : Nat × Expr} (mem : place ∈ statementPlaces slots base es) : base ≤ place.1 := by
  induction es generalizing base with
  | nil => cases mem
  | cons e es ih =>
    obtain rfl | later := List.mem_cons.mp mem
    · exact Nat.le_refl _
    · exact Nat.le_trans (Nat.le_add_right _ _) (ih later)

end Expr

/-- The word names a class of records with so many fields. -/
def Compiling.Width (c : Compiling) (w : Word) (n : Nat) : Prop :=
  ∃ id, c.dictionary.Spells (.shape id) w ∧ id.index < c.world.shapes.size ∧
    (c.world.shape id).fields.length = n

theorem Compiling.Width.later {c d : Compiling} {w : Word} {n : Nat} (h : c.Width w n)
    (later : c.Extends d) : d.Width w n := by
  obtain ⟨id, spells, inside, rfl⟩ := h
  have more : c.world.shapes.size ≤ d.world.shapes.size := by simpa using later.shapes.length_le
  exact ⟨id, spells.mono later.dictionary, Nat.lt_of_lt_of_le inside more,
    by rw [later.shape inside]⟩

/-- A part of the compiler only adds, and its result is as it should be if the classes that it knows
have their widths. -/
def Makes {α : Type} (widths : Word → Nat → Prop) (x : Compile α) (good : α → Prop) : Prop :=
  ∀ c a d, x c = .ok a d → c.Extends d ∧ ((∀ w n, d.Width w n → widths w n) → good a)

namespace Makes
variable {α β : Type} {widths : Word → Nat → Prop} {x : Compile α} {good : α → Prop}
  {good' : β → Prop}

theorem bind {f : α → Compile β} (h : Makes widths x good)
    (k : ∀ a, Makes widths (f a) fun b => good a → good' b) : Makes widths (x >>= f) good' := by
  intro c b e result
  obtain ⟨a, d, first, second⟩ := ok_of_bind result
  obtain ⟨later, made⟩ := h c a d first
  obtain ⟨later', made'⟩ := k a d b e second
  exact ⟨later.trans later', fun known =>
    made' known (made fun w n width => known w n (width.later later'))⟩

theorem pure {a : α} (h : good a) : Makes widths (Pure.pure a) good := by
  intro c b d result
  obtain ⟨rfl, rfl⟩ := ok_of_pure result
  exact ⟨.refl c, fun _ => h⟩

theorem of_builds {ps : Nat → List Procedure} (h : Builds x ps) : Makes widths x fun _ => True :=
  fun _ _ _ result => ⟨(h.ok result).later, fun _ => trivial⟩

theorem constant (v : Value) : Makes widths (Compile.constant v) fun _ => True := by
  intro c w d result
  cases result
  exact ⟨Builds.extends_constant c v, fun _ => trivial⟩

theorem name (x : String) : Makes widths (Compile.name x) fun _ => True := constant (.str x)

/-- The word of a new class. -/
theorem newClass (fields : List String) :
    Makes widths (Compile.newClass fields) fun w => widths w fields.length := by
  intro c w d result
  refine ⟨((Builds.newClass fields).ok result).later, fun known => known _ _ ?_⟩
  cases result
  refine ⟨⟨c.world.shapes.size⟩, Dictionary.spells_encode _ _, ?_, ?_⟩
  · simp
  · simp [World.shape]

end Makes

/-- The code of an expression stands at that position inside the code at `base`, and leaves one word
more than there were. -/
def Placed (widths : Word → Nat → Prop) (slots : List String) (base : Nat) (is : List Instr)
    (place : Nat × Expr) : Prop :=
  ∃ before code after c d, is = before ++ code ++ after ∧ place.1 = base + codeWidth before ∧
    Compile.expr slots place.1 place.2 c = .ok code d ∧ Grades widths place.1 0 code 1

namespace Placed
variable {widths : Word → Nat → Prop} {slots : List String} {base : Nat} {is js : List Instr}
  {place : Nat × Expr}

theorem left (h : Placed widths slots base is place) :
    Placed widths slots base (is ++ js) place := by
  obtain ⟨before, code, after, c, d, rfl, rest⟩ := h
  exact ⟨before, code, after ++ js, c, d, by simp, rest⟩

theorem right (h : Placed widths slots (base + codeWidth is) js place) :
    Placed widths slots base (is ++ js) place := by
  obtain ⟨before, code, after, c, d, rfl, here, rest⟩ := h
  exact ⟨is ++ before, code, after, c, d, by simp, by rw [here, codeWidth_append, Nat.add_assoc],
    rest⟩

end Placed

/-- Code at `base` that takes some operands and leaves others, the room that it takes, and the
expressions whose code stands in it. -/
structure Laid (widths : Word → Nat → Prop) (slots : List String) (base : Nat) (is : List Instr)
    (taken left room : Nat) (places : List (Nat × Expr)) : Prop where
  room : codeWidth is = room
  grades : ∀ l, Grades widths base (l + taken) is (l + left)
  places : ∀ place ∈ places, Placed widths slots base is place

namespace Laid
variable {widths : Word → Nat → Prop} {slots : List String} {base base' : Nat}
  {is js : List Instr} {taken left room taken' left' room' : Nat}
  {places places' : List (Nat × Expr)}

theorem nil : Laid widths slots base [] taken taken 0 [] where
  room := rfl
  grades _ := .nil
  places := by simp

theorem one {i : Instr} (moves : i.Moves widths taken left) (plain : i.jumpTarget? = none) :
    Laid widths slots base [i] taken left i.width [] where
  room := rfl
  grades _ := .one moves plain
  places := by simp

/-- Code after code, which takes all that the first one leaves, and possibly more. -/
theorem append (h : Laid widths slots base is taken left room places)
    (g : Laid widths slots base' js taken' left' room' places') (next : base' = base + room) :
    Laid widths slots base (is ++ js) (taken + (taken' - left)) (left' + (left - taken'))
      (room + room') (places ++ places') := by
  obtain rfl : base' = base + codeWidth is := by rw [next, h.room]
  refine ⟨by rw [codeWidth_append, h.room, g.room], fun l => ?_, fun place mem => ?_⟩
  · have first := h.grades (l + (taken' - left))
    have second := g.grades (l + (left - taken'))
    have meet : l + (taken' - left) + left = l + (left - taken') + taken' := by omega
    rw [meet] at first
    have whole := first.append second
    rwa [show l + (taken' - left) + taken = l + (taken + (taken' - left)) by omega,
      show l + (left - taken') + left' = l + (left' + (left - taken')) by omega] at whole
  · obtain inFirst | inSecond := List.mem_append.mp mem
    · exact (h.places place inFirst).left
    · exact (g.places place inSecond).right

theorem cast (h : Laid widths slots base is taken left room places) (takes : taken = taken')
    (leaves : left = left') (takesRoom : room = room') (stand : places = places') :
    Laid widths slots base is taken' left' room' places' := by
  subst takes leaves takesRoom stand
  exact h

/-- Code with two branches after a test. -/
theorem cond {test first second : List Instr} {b₂ b₃ room₁ room₂ room₃ s : Nat}
    {places₁ places₂ places₃ : List (Nat × Expr)}
    (hTest : Laid widths slots base test 0 1 room₁ places₁)
    (hFirst : Laid widths slots b₂ first 0 1 room₂ places₂)
    (hSecond : Laid widths slots b₃ second 0 1 room₃ places₃)
    (firstBegins : b₂ = base + (room₁ + 2)) (secondBegins : b₃ = b₂ + (room₂ + 2))
    (last : s = b₃ + room₃) :
    Laid widths slots base (test ++ [.jumpIfFalse b₃] ++ first ++ [.goto s] ++ second) 0 1
      (room₁ + 2 + (room₂ + 2) + room₃) (places₁ ++ places₂ ++ places₃) := by
  subst firstBegins secondBegins last
  have tested :
      codeWidth (test ++ [.jumpIfFalse (base + (room₁ + 2) + (room₂ + 2))]) = room₁ + 2 := by
    rw [codeWidth_append, hTest.room]
    rfl
  have done (n : Nat) : codeWidth (first ++ [.goto n]) = room₂ + 2 := by
    rw [codeWidth_append, hFirst.room]
    rfl
  refine ⟨?_, fun l => ?_, fun place mem => ?_⟩
  · rw [codeWidth_append, List.append_assoc, codeWidth_append, tested, done, hSecond.room]
  · exact Grades.cond (hTest.grades l) (congrArg _ hTest.room) (hFirst.grades l)
      (congrArg _ hFirst.room) (hSecond.grades l) (congrArg _ hSecond.room)
  · obtain mem | inSecond := List.mem_append.mp mem
    · refine Placed.left (Placed.left ?_)
      obtain inTest | inFirst := List.mem_append.mp mem
      · exact (hTest.places place inTest).left.left
      · refine Placed.right ?_
        rw [tested]
        exact hFirst.places place inFirst
    · refine Placed.right ?_
      rw [List.append_assoc, codeWidth_append, tested, done, ← Nat.add_assoc]
      exact hSecond.places place inSecond

end Laid

/-- The code of an expression leaves one word more. -/
def LaidExpr (widths : Word → Nat → Prop) (slots : List String) (base : Nat) (is : List Instr)
    (e : Expr) : Prop :=
  Laid widths slots base is 0 1 (e.room slots) ((base, e) :: e.places slots base)

/-- An expression has its place in its own code, beside those in it. -/
theorem Makes.expr {widths : Word → Nat → Prop} {slots : List String} {base : Nat} {e : Expr}
    (h : Makes widths (Compile.expr slots base e) fun is =>
      Laid widths slots base is 0 1 (e.room slots) (e.places slots base)) :
    Makes widths (Compile.expr slots base e) fun is => LaidExpr widths slots base is e := by
  intro c is d result
  refine (h c is d result).imp_right fun made known => ?_
  have laid := made known
  refine ⟨laid.room, laid.grades, fun place mem => ?_⟩
  obtain rfl | inside := List.mem_cons.mp mem
  · exact ⟨[], is, [], c, d, by simp, rfl, result, laid.grades 0⟩
  · exact laid.places place inside

section
variable (widths : Word → Nat → Prop) (slots : List String)

theorem makes_read (x : String) : Makes widths (Compile.read slots x) fun is =>
    ∀ base, Laid widths slots base is 0 1 2 [] := by
  unfold Compile.read
  cases slotOf? slots x with
  | some i => exact .pure fun base => .one (.load i) rfl
  | none => exact (Makes.name x).bind fun w => .pure fun _ base => .one (.lookup w) rfl

theorem makes_write (x : String) : Makes widths (Compile.write slots x) fun is =>
    ∀ base, Laid widths slots base is 1 0 2 [] := by
  unfold Compile.write
  cases slotOf? slots x with
  | some i => exact .pure fun base => .one (.store i) rfl
  | none => exact (Makes.name x).bind fun w => .pure fun _ base => .one (.register w) rfl

end

theorem makes_inductive (widths : Word → Nat → Prop) : Expr.Inductive
    (fun e => ∀ slots base, Makes widths (Compile.expr slots base e) fun is =>
      LaidExpr widths slots base is e)
    (fun es => ∀ slots base,
      Makes widths (Compile.all slots base es) (fun is => Laid widths slots base is 0 es.length
        (Expr.roomAll slots es) (Expr.placesAll slots base es)) ∧
      Makes widths (Compile.block slots base es) fun is => Laid widths slots base is 0 1
        (Expr.roomBlock slots es) (Expr.placesBlock slots base es))
    (fun fs => ∀ slots base, Makes widths (Compile.fields slots base fs) fun is =>
      Laid widths slots base is 0 fs.length (Expr.roomFields slots fs)
        (Expr.placesFields slots base fs)) where
  literal s v slots base := by
    refine .expr ?_
    simp only [Compile.expr]
    exact (Makes.of_builds (.literal v)).bind fun w => .pure fun _ => .one (.const w) rfl
  var s x slots base := .expr fun c is d result =>
    (makes_read widths slots x c is d result).imp_right fun laid known => laid known base
  assign s x d e he slots base := by
    refine .expr ?_
    simp only [Compile.expr]
    refine (he slots base).bind fun value => (makes_write widths slots x).bind fun last =>
      .pure fun written laid => ?_
    have whole := (laid.append (.one .dup rfl) rfl).append (written _) rfl
    refine whole.cast rfl rfl rfl ?_
    simp [Expr.places]
  field s r x hr slots base := by
    refine .expr ?_
    simp only [Compile.expr]
    refine (hr slots base).bind fun receiver => (Makes.name x).bind fun w => .pure fun _ laid => ?_
    refine (laid.append (.one (.get w) rfl) rfl).cast rfl rfl rfl ?_
    simp [Expr.places]
  setField s r x e hr he slots base := by
    refine .expr ?_
    simp only [Compile.expr]
    refine (he slots base).bind fun value => (hr slots _).bind fun receiver =>
      (Makes.name x).bind fun w => .pure fun _ laid' laid => ?_
    have first := laid.append (.one .dup rfl) rfl
    have last (b : Nat) : Laid widths slots b [.swap, .put w] 2 0 3 [] :=
      (Laid.one .swap rfl).append (.one (.put w) rfl) rfl
    refine ((first.append laid' (congrArg _ first.room)).append (last _) rfl).cast
      rfl rfl rfl ?_
    simp [Expr.places, laid.room, Instr.width, Instr.encode, Instr.operand?]
  call s f args hf hargs slots base := by
    refine .expr ?_
    simp only [Compile.expr, printed?_eq]
    by_cases printed : Expr.isPrint slots f args = true
    · rw [if_pos printed]
      refine ((hargs slots base).1).bind fun values => .pure fun laid => ?_
      have one : args.length = 1 := by
        obtain ⟨_, _, -, rfl, -⟩ := eq_of_isPrint printed
        rfl
      refine (laid.append (.one .print rfl) rfl).cast ?_ ?_ ?_ ?_
      · rw [one]
      · rw [one]
      · simp [Expr.room, printed, Instr.width, Instr.encode, Instr.operand?]
      · simp [Expr.places, printed]
    · rw [if_neg printed]
      refine (hf slots base).bind fun callee => ((hargs slots _).1).bind fun values =>
        .pure fun laid' laid => ?_
      have first := laid.append (.one (.const .undefined) rfl) rfl
      refine ((first.append laid' (congrArg _ first.room)).append (.one (.funcall args.length) rfl)
        rfl).cast ?_ ?_ ?_ ?_
      · simp
      · simp
      · simp [Expr.room, printed, Instr.width, Instr.encode, Instr.operand?]
      · simp [Expr.places, printed, laid.room, Instr.width, Instr.encode, Instr.operand?]
  methodCall s r x args hr hargs slots base := by
    refine .expr ?_
    simp only [Compile.expr]
    refine (hr slots base).bind fun receiver => (Makes.name x).bind fun w =>
      ((hargs slots _).1).bind fun values => .pure fun laid' _ laid => ?_
    have moves (b : Nat) : Laid widths slots b [.dup, .get w, .swap] 1 2 4 [] :=
      ((Laid.one .dup rfl).append (.one (.get w) rfl) rfl).append (.one .swap rfl) rfl
    have first := laid.append (moves _) rfl
    refine ((first.append laid' (congrArg _ first.room)).append (.one (.funcall args.length) rfl)
      rfl).cast ?_ ?_ ?_ ?_
    · simp
    · simp
    · simp [Expr.room, Instr.width, Instr.encode, Instr.operand?]
    · simp [Expr.places, laid.room, Instr.width, Instr.encode, Instr.operand?]
  function span name? params body h slots base := by
    refine .expr ?_
    simp only [Compile.expr]
    have made : Makes widths (Compile.functionWith (fun slots => Compile.block slots 0 body) span
        name? params body) fun _ => True :=
      .of_builds (builds_function rfl fun slots => builds_block slots 0 body)
    refine made.bind fun id => (Makes.constant _).bind fun w => ?_
    have make : Laid widths slots base [.const w] 0 1 2 [] := .one (.const w) rfl
    cases name? with
    | none => exact .pure fun _ _ => make
    | some x =>
      refine (Makes.name x).bind fun bound => .pure fun _ _ _ => ?_
      have last (b : Nat) : Laid widths slots b [.dup, .register bound] 1 1 3 [] :=
        (Laid.one .dup rfl).append (.one (.register bound) rfl) rfl
      exact make.append (last _) rfl
  object s entries h slots base := by
    refine .expr ?_
    simp only [Compile.expr]
    refine (Makes.newClass _).bind fun shape => (h slots base).bind fun values =>
      .pure fun laid known => ?_
    rw [List.length_map] at known
    refine (laid.append (.one (.new known) rfl) rfl).cast ?_ ?_ ?_ ?_
    · simp
    · simp
    · simp [Expr.room, Instr.width, Instr.encode, Instr.operand?]
    · simp [Expr.places]
  cond s c t e hc ht he slots base := by
    refine .expr ?_
    simp only [Compile.expr]
    refine (hc slots base).bind fun test => ((ht slots _).2).bind fun thenCode =>
      ((he slots _).2).bind fun elseCode => .pure fun laidElse laidThen laidTest => ?_
    have tested : codeWidth (test ++ [.jumpIfFalse 0]) = c.room slots + 2 := by
      rw [codeWidth_append, laidTest.room]
      rfl
    have done : codeWidth (thenCode ++ [.goto 0]) = Expr.roomBlock slots t + 2 := by
      rw [codeWidth_append, laidThen.room]
      rfl
    refine (laidTest.cond laidThen laidElse (congrArg _ tested) (congrArg _ done)
      (congrArg _ laidElse.room)).cast rfl rfl rfl ?_
    simp [Expr.places, tested, done]
  ret s e he slots base := by
    refine .expr ?_
    simp only [Compile.expr]
    refine (he slots base).bind fun value => .pure fun laid => ?_
    refine (laid.append (.one .ret rfl) rfl).cast rfl rfl rfl ?_
    simp [Expr.places]
  block s body h slots base := .expr (h slots base).2
  nil slots base := by
    simp only [Compile.all, Compile.block]
    exact ⟨.pure .nil, .pure (.one (.const .undefined) rfl)⟩
  cons e es he hes slots base := by
    simp only [Compile.all, Compile.block]
    constructor
    · refine (he slots base).bind fun first => ((hes slots _).1).bind fun rest =>
        .pure fun laid' laid => ?_
      refine (laid.append laid' (congrArg _ laid.room)).cast ?_ ?_ ?_ ?_
      · simp
      · simp
      · simp [Expr.roomAll]
      · simp [Expr.placesAll, laid.room]
    · refine (he slots base).bind fun first => ((hes slots _).2).bind fun rest =>
        .pure fun laid' laid => ?_
      have dropped := laid.append (.one .pop rfl) rfl
      refine (dropped.append laid' (congrArg _ dropped.room)).cast ?_ ?_ ?_ ?_
      · simp
      · simp
      · simp [Expr.roomBlock, Instr.width, Instr.encode, Instr.operand?]
      · simp [Expr.placesBlock, laid.room, Instr.width, Instr.encode, Instr.operand?]
  noFields slots base := by
    simp only [Compile.fields]
    exact .pure .nil
  consField x e fs he hfs slots base := by
    simp only [Compile.fields]
    refine (he slots base).bind fun first => (hfs slots _).bind fun rest =>
      .pure fun laid' laid => ?_
    refine (laid.append laid' (congrArg _ laid.room)).cast ?_ ?_ ?_ ?_
    · simp
    · simp
    · simp [Expr.roomFields]
    · simp [Expr.placesFields, laid.room]

/-- The levels in the code of statements, none where a statement begins. -/
def LaidStatements (widths : Word → Nat → Prop) (slots : List String) (base : Nat) (is : List Instr)
    (es : List Expr) : Prop :=
  ∃ level, Balanced widths level base is ∧ level base = 0 ∧ level (base + codeWidth is) = 1 ∧
    ∀ place ∈ Expr.statementPlaces slots base es, level place.1 = 0

/-- A statement before others. -/
theorem LaidStatements.cons {widths : Word → Nat → Prop} {slots : List String} {base : Nat}
    {first is : List Instr} {e : Expr} {es : List Expr}
    (dropped : Grades widths base 0 first 0) (room : codeWidth first = e.room slots + 1)
    (rest : LaidStatements widths slots (base + codeWidth first) is es) :
    LaidStatements widths slots base (first ++ is) (e :: es) := by
  obtain ⟨level, balanced, begins, ends⟩ := dropped
  obtain ⟨level', balanced', begins', ends', none⟩ := rest
  have meet := ends.trans begins'.symm
  refine ⟨_, balanced.append balanced' meet, ?_, ?_, fun place mem => ?_⟩
  · rw [levelsUpTo_early (Nat.le_add_right _ _), begins]
  · rw [codeWidth_append, ← Nat.add_assoc, levelsUpTo_late meet (Nat.le_add_right _ _), ends']
  · obtain rfl | later := List.mem_cons.mp mem
    · rw [levelsUpTo_early (Nat.le_add_right _ _), begins]
    · rw [← room] at later
      rw [levelsUpTo_late meet (Expr.le_of_mem_statementPlaces later), none place later]

theorem makes_statements (widths : Word → Nat → Prop) (slots : List String) (base : Nat)
    (es : List Expr) : Makes widths (Compile.block slots base es) fun is =>
      LaidStatements widths slots base is es := by
  induction es generalizing base with
  | nil =>
    simp only [Compile.block]
    refine .pure ?_
    obtain ⟨level, balanced, begins, ends⟩ : Grades widths base 0 [.const .undefined] 1 :=
      .one (k := 0) (.const .undefined) rfl
    exact ⟨level, balanced, begins, ends, by simp [Expr.statementPlaces]⟩
  | cons e es ih =>
    simp only [Compile.block]
    refine ((makes_inductive widths).expr e slots base).bind fun first => (ih _).bind fun rest =>
      .pure fun laid' laid => ?_
    have dropped := laid.append (.one .pop rfl) rfl
    exact .cons (dropped.grades 0) dropped.room laid'

/-- The levels in the code of a function, none where it begins and where a statement does. -/
structure LaidBody (widths : Word → Nat → Prop) (slots : List String) (is : List Instr)
    (es : List Expr) (level : Nat → Nat) : Prop where
  balanced : Balanced widths level 0 is
  entry : level 0 = 0
  statements : ∀ place ∈ Expr.statementPlaces slots 0 es, level place.1 = 0
  places : ∀ place ∈ Expr.placesBlock slots 0 es, Placed widths slots 0 is place

/-- A function ends in a `RET`. -/
theorem laidBody (widths : Word → Nat → Prop) {slots : List String} {es : List Expr}
    {c d : Compiling} {code : List Instr} (compiled : Compile.block slots 0 es c = .ok code d)
    (known : ∀ w n, d.Width w n → widths w n) :
    ∃ level, LaidBody widths slots (code ++ [.ret]) es level := by
  have laid := (((makes_inductive widths).list es slots 0).2 c code d compiled).2 known
  obtain ⟨level, balanced, begins, ends, none⟩ :=
    (makes_statements widths slots 0 es c code d compiled).2 known
  obtain ⟨level', balanced', begins', ends'⟩ : Grades widths (0 + codeWidth code) 1 [.ret] 1 :=
    Grades.one (k := 0) .ret rfl
  have meet := ends.trans begins'.symm
  refine ⟨_, balanced.append balanced' meet, ?_, fun place mem => ?_, fun place mem =>
    (laid.places place mem).left⟩
  · rw [levelsUpTo_early (Nat.zero_le _), begins]
  · obtain ⟨before, is, after, -, -, rfl, here, -⟩ :=
      laid.places place (Expr.statementPlaces_subset slots 0 es mem)
    rw [levelsUpTo_early ?_, none place mem]
    simp only [here, codeWidth_append]
    omega

end TaggedScript
