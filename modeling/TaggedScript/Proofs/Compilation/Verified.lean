import TaggedScript.Proofs.Compilation.Emission
import TaggedScript.Proofs.Compilation.Histories

/-!
What a verifier of code asks for, and that all code that was compiled has it. Jumps go forward to
instructions, slots are those of the frame, and words name what their instructions want.
-/
namespace TaggedScript

namespace Word

/-- A word that code may push: a small value, a string, or a function with code. -/
def isConstant (world : World) (d : Dictionary) (w : Word) : Bool :=
  match w.tag with
  | some (.int _) | some (.bool _) | some .undefined => true
  | some (.interned index) =>
    match d.get? index with
    | some (.str _) => true
    | some (.object id) => (world.object id).code?.isSome
    | _ => false
  | some (.heap _) | none => false

/-- A word that names a string. -/
def isName (d : Dictionary) (w : Word) : Bool :=
  match d.lookup? w with
  | some (.str _) => true
  | _ => false

/-- A word that names a class. -/
def isClass (world : World) (d : Dictionary) (w : Word) : Bool :=
  match d.lookup? w with
  | some (.shape id) => id.index < world.shapes.size
  | _ => false

end Word

/-- An instruction may stand at a position of code with so many slots, whose instructions stand
`inside`. -/
def Instr.Admitted (world : World) (d : Dictionary) (slotCount : Nat) (inside : Nat → Prop)
    (pc : Nat) : Instr → Prop
  | const w => w.isConstant world d
  | lookup w | register w | get w | put w => w.isName d
  | load slot | store slot => slot < slotCount
  | goto target | jumpIfFalse target => pc < target ∧ inside target
  | new w => w.isClass world d
  | dup | pop | swap | funcall _ | ret | print => True

instance (world : World) (d : Dictionary) (slotCount : Nat) (inside : Nat → Prop)
    [DecidablePred inside] (pc : Nat) (i : Instr) :
    Decidable (i.Admitted world d slotCount inside pc) :=
  match i with
  | .const w => inferInstanceAs (Decidable (w.isConstant world d = true))
  | .lookup w | .register w | .get w | .put w => inferInstanceAs (Decidable (w.isName d = true))
  | .load slot | .store slot => inferInstanceAs (Decidable (slot < slotCount))
  | .goto target | .jumpIfFalse target =>
    inferInstanceAs (Decidable (pc < target ∧ inside target))
  | .new w => inferInstanceAs (Decidable (w.isClass world d = true))
  | .dup | .pop | .swap | .funcall _ | .ret | .print => inferInstanceAs (Decidable True)

/-- Code that a verifier accepts. -/
structure Code.Verified (world : World) (d : Dictionary) (code : Code) : Prop where
  decodes : code.decodeAll = .ok code.decoded.1
  ends : code.decoded.1.getLast?.map (·.2) = some .ret
  receiver : 1 ≤ code.parameterCount
  frame : code.parameterCount ≤ code.slotCount
  admitted : ∀ p ∈ code.decoded.1,
    p.2.Admitted world d code.slotCount (· ∈ code.decoded.1.map (·.1)) p.1

instance (world : World) (d : Dictionary) (code : Code) : Decidable (code.Verified world d) :=
  decidable_of_iff
    (code.decodeAll = .ok code.decoded.1 ∧ code.decoded.1.getLast?.map (·.2) = some .ret ∧
      1 ≤ code.parameterCount ∧ code.parameterCount ≤ code.slotCount ∧
      ∀ p ∈ code.decoded.1,
        p.2.Admitted world d code.slotCount (· ∈ code.decoded.1.map (·.1)) p.1)
    ⟨fun ⟨decodes, ends, receiver, frame, admitted⟩ => ⟨decodes, ends, receiver, frame, admitted⟩,
      fun ⟨decodes, ends, receiver, frame, admitted⟩ => ⟨decodes, ends, receiver, frame, admitted⟩⟩

theorem Dictionary.tag_of_lookup? {d : Dictionary} {w : Word} {v : Value}
    (h : d.lookup? w = some v) :
    ∃ index, w.tag = some (.interned index) ∧ d.get? index = some v := by
  unfold lookup? at h
  split at h
  · rename_i index tag
    exact ⟨index, tag, h⟩
  · cases h

section
variable {world : World} {d : Dictionary} {w : Word}

theorem Word.isConstant_of_string {x : String} (h : d.lookup? w = some (.str x)) :
    w.isConstant world d := by
  obtain ⟨index, tag, found⟩ := Dictionary.tag_of_lookup? h
  simp [isConstant, tag, found]

theorem Word.isConstant_of_function {id : ObjectId} (h : d.lookup? w = some (.object id))
    (code : (world.object id).code?.isSome) : w.isConstant world d := by
  obtain ⟨index, tag, found⟩ := Dictionary.tag_of_lookup? h
  simp [isConstant, tag, found, code]

end

/-- All instructions of code at `base` are admitted. Its jumps stay in it or go to its end. -/
def Admits (final : Compiling) (slotCount base : Nat) (is : List Instr) : Prop :=
  ∀ p ∈ positioned base is,
    p.2.Admitted final.world final.dictionary slotCount (Boundary base is) p.1

theorem Instr.Admitted.map {world : World} {d : Dictionary} {slotCount : Nat}
    {inside inside' : Nat → Prop} {pc : Nat} {i : Instr}
    (h : i.Admitted world d slotCount inside pc) (le : ∀ p, inside p → inside' p) :
    i.Admitted world d slotCount inside' pc := by
  cases i with
  | goto target => exact ⟨h.1, le target h.2⟩
  | jumpIfFalse target => exact ⟨h.1, le target h.2⟩
  | _ => exact h

namespace Admits
variable {final : Compiling} {slotCount base : Nat} {is js : List Instr}

theorem nil : Admits final slotCount base [] := fun p mem => by cases mem

theorem one {i : Instr} (h : ∀ pc, i.Admitted final.world final.dictionary slotCount
    (fun _ => False) pc) : Admits final slotCount base [i] := by
  intro p mem
  obtain rfl := List.mem_singleton.mp mem
  exact (h base).map fun _ no => no.elim

theorem append (h : Admits final slotCount base is)
    (g : Admits final slotCount (base + codeWidth is) js) :
    Admits final slotCount base (is ++ js) := by
  intro p mem
  rw [positioned_append] at mem
  obtain early | late := List.mem_append.mp mem
  · exact (h p early).map fun _ => .left
  · exact (g p late).map fun _ => .right

theorem step (h : Admits final slotCount base is) {i : Instr} (admitted : ∀ pc,
    i.Admitted final.world final.dictionary slotCount (fun _ => False) pc) :
    Admits final slotCount base (is ++ [i]) := h.append (one admitted)

/-- A jump to a place in the code after it. -/
theorem jump {target : Nat} {i : Instr} (jumps : i = .goto target ∨ i = .jumpIfFalse target)
    (h : Admits final slotCount (base + i.width) is)
    (there : Boundary (base + i.width) is target) : Admits final slotCount base (i :: is) := by
  have inside {q : Nat} (here : Boundary (base + i.width) is q) : Boundary base ([i] ++ is) q :=
    .right here
  have forward : base < target := Nat.lt_of_lt_of_le
    (Nat.lt_add_of_pos_right i.width_pos) there.le
  intro p mem
  obtain rfl | later := List.mem_cons.mp mem
  · obtain rfl | rfl := jumps
    · exact ⟨forward, inside there⟩
    · exact ⟨forward, inside there⟩
  · exact (h p later).map fun q here => inside here

/-- Code with two branches after a test. -/
theorem cond {test first second : List Instr} {thenBase elseBase stop : Nat}
    (hTest : Admits final slotCount base test)
    (hFirst : Admits final slotCount thenBase first)
    (hSecond : Admits final slotCount elseBase second)
    (tested : thenBase = base + codeWidth test + 2)
    (done : elseBase = thenBase + codeWidth first + 2) (last : stop = elseBase + codeWidth second) :
    Admits final slotCount base
      (test ++ [.jumpIfFalse elseBase] ++ first ++ [.goto stop] ++ second) := by
  have leaves : Admits final slotCount (thenBase + codeWidth first) (.goto stop :: second) := by
    apply jump (.inl rfl)
    · exact done ▸ hSecond
    · rw [last, done]
      exact .last
  have branches := hFirst.append leaves
  have there : Boundary thenBase (first ++ .goto stop :: second) elseBase := by
    refine ⟨first ++ [.goto stop], second, by simp, ?_⟩
    rw [done, codeWidth_append, Nat.add_assoc]
    rfl
  rw [tested] at branches there
  have chosen : Admits final slotCount (base + codeWidth test)
      (.jumpIfFalse elseBase :: (first ++ .goto stop :: second)) := branches.jump (.inr rfl) there
  simpa using hTest.append chosen

/-- Code at the beginning with a `RET` after it. -/
theorem verified {parameterCount : Nat}
    (h : Admits final slotCount 0 is) (receiver : 1 ≤ parameterCount)
    (frame : parameterCount ≤ slotCount) :
    (Code.ofInstrs parameterCount slotCount (is ++ [.ret])).Verified final.world
      final.dictionary := by
  have decoded := Code.decoded_ofInstrs parameterCount slotCount (is ++ [.ret])
  have whole : positioned 0 (is ++ [.ret]) = positioned 0 is ++ [(codeWidth is, .ret)] := by
    rw [positioned_append, Nat.zero_add]
    rfl
  have slots : (Code.ofInstrs parameterCount slotCount (is ++ [.ret])).slotCount = slotCount :=
    Nat.max_eq_left frame
  -- The end of the code before the `RET` is where the `RET` stands.
  have inside (t : Nat) (here : Boundary 0 is t) : t ∈ (positioned 0 (is ++ [.ret])).map (·.1) := by
    obtain ⟨before, after, rfl, rfl⟩ := here
    rw [List.append_assoc, positioned_append, List.map_append, List.mem_append]
    cases after with
    | nil => exact .inr List.mem_cons_self
    | cons i after => exact .inr List.mem_cons_self
  constructor
  · rw [Code.decodeAll_ofInstrs, decoded]
  · rw [decoded, whole, List.getLast?_append]
    rfl
  · exact receiver
  · rw [slots]
    exact frame
  · rw [decoded, slots]
    intro p mem
    rw [whole, List.mem_append, List.mem_singleton] at mem
    obtain early | rfl := mem
    · exact (h p early).map inside
    · trivial

end Admits

section
variable {final : Compiling} (fits : final.dictionary.size ≤ 2 ^ 32)
include fits

theorem Dictionary.Spells.isName {x : String} {w : Word} (h : final.dictionary.Spells (.str x) w) :
    w.isName final.dictionary := by
  rw [Word.isName, h.lookup? fits rfl]

theorem Compiling.Width.isClass {w : Word} {n : Nat} (h : final.Width w n) :
    w.isClass final.world final.dictionary := by
  obtain ⟨id, spells, inside, -⟩ := h
  rw [Word.isClass, spells.lookup? fits rfl]
  exact decide_eq_true inside

theorem emits_literal (v : Literal) : Emits final (Compile.literal v) fun w =>
    w.isConstant final.world final.dictionary := by
  cases v with
  | undefined => exact .pure (by simp [Word.isConstant])
  | bool b => exact .pure (by simp [Word.isConstant])
  | int n => exact .pure (by simp [Word.isConstant])
  | str s =>
    exact (Emits.constant (.str s)).map fun w spells =>
      Word.isConstant_of_string (spells.lookup? fits rfl)

theorem admits_read (slots : List String) (x : String) : Emits final (Compile.read slots x)
    fun is => ∀ base, Admits final slots.length base is := by
  unfold Compile.read
  cases slot : slotOf? slots x with
  | some i => exact .pure fun base => .one fun pc => slotOf?_lt slot
  | none =>
    exact (Emits.name x).bind fun w => .pure fun named base => .one fun pc => named.isName fits

theorem admits_write (slots : List String) (x : String) : Emits final (Compile.write slots x)
    fun is => ∀ base, Admits final slots.length base is := by
  unfold Compile.write
  cases slot : slotOf? slots x with
  | some i => exact .pure fun base => .one fun pc => slotOf?_lt slot
  | none =>
    exact (Emits.name x).bind fun w => .pure fun named base => .one fun pc => named.isName fits

theorem admits_inductive : Expr.Inductive
    (fun e => ∀ slots base, Emits final (Compile.expr slots base e) fun is =>
      Admits final slots.length base is)
    (fun es => ∀ slots base,
      (Emits final (Compile.all slots base es) fun is => Admits final slots.length base is) ∧
      Emits final (Compile.block slots base es) fun is => Admits final slots.length base is)
    (fun fs => ∀ slots base, Emits final (Compile.fields slots base fs) fun is =>
      Admits final slots.length base is) where
  literal s v slots base := by
    simp only [Compile.expr]
    exact (emits_literal fits v).bind fun w => .pure fun constant => .one fun pc => constant
  var s x slots base := by
    simp only [Compile.expr]
    exact (admits_read fits slots x).map fun is read => read base
  assign s x d e ih slots base := by
    simp only [Compile.expr]
    refine (ih slots base).bind fun value => (admits_write fits slots x).bind fun last =>
      .pure fun written valued => ?_
    exact (valued.step (i := .dup) fun pc => trivial).append (written _)
  field s r x ih slots base := by
    simp only [Compile.expr]
    refine (ih slots base).bind fun receiver => (Emits.name x).bind fun w =>
      .pure fun named received => ?_
    exact received.step fun pc => named.isName fits
  setField s r x e ihr ihe slots base := by
    simp only [Compile.expr]
    refine (ihe slots base).bind fun value => (ihr slots _).bind fun receiver =>
      (Emits.name x).bind fun w => .pure fun named received valued => ?_
    have both := (valued.step (i := .dup) fun pc => trivial).append received
    have whole := (both.step (i := .swap) fun pc => trivial).step (i := .put w) fun pc =>
      named.isName fits
    simpa using whole
  call s f args ihf ihargs slots base := by
    simp only [Compile.expr]
    by_cases printed : Compile.printed? slots f args = true
    · rw [if_pos printed]
      refine (ihargs slots base).1.bind fun values => .pure fun valued => ?_
      exact valued.step fun pc => trivial
    · rw [if_neg printed]
      refine (ihf slots base).bind fun callee => (ihargs slots _).1.bind fun values =>
        .pure fun valued called => ?_
      have first := called.step (i := .const .undefined) fun pc => by
        simp [Instr.Admitted, Word.isConstant]
      exact (first.append valued).step fun pc => trivial
  methodCall s r x args ihr ihargs slots base := by
    simp only [Compile.expr]
    refine (ihr slots base).bind fun receiver => (Emits.name x).bind fun w =>
      (ihargs slots _).1.bind fun values => .pure fun valued named received => ?_
    have first := ((received.step (i := .dup) fun pc => trivial).step (i := .get w) fun pc =>
      named.isName fits).step (i := .swap) fun pc => trivial
    simp only [List.append_assoc, List.cons_append, List.nil_append] at first
    exact (first.append valued).step fun pc => trivial
  function s name? params body ih slots base := by
    simp only [Compile.expr]
    refine (Emits.functionWith s name? params body).bind fun id =>
      (Emits.constant (.object id)).bind fun w => ?_
    have pushed (spells : final.dictionary.Spells (.object id) w)
        (code : (final.world.object id).code?.isSome) :
        Admits final slots.length base [.const w] :=
      .one fun pc => Word.isConstant_of_function (spells.lookup? fits rfl) code
    cases name? with
    | none => exact .pure pushed
    | some x =>
      refine (Emits.name x).bind fun w' => .pure fun named spells code => ?_
      exact ((pushed spells code).step (i := .dup) fun pc => trivial).step (i := .register w')
        fun pc => named.isName fits
  object s entries ih slots base := by
    simp only [Compile.expr]
    refine (Emits.of_makes (.newClass _)).bind fun shape => (ih slots base).bind fun values =>
      .pure fun valued width => ?_
    exact valued.step fun pc => width.isClass fits
  cond s c t e ihc iht ihe slots base := by
    simp only [Compile.expr]
    refine (ihc slots base).bind fun test => (iht slots _).2.bind fun first =>
      (ihe slots _).2.bind fun second => .pure fun otherwise_ chosen tested => ?_
    exact .cond tested chosen otherwise_ (by simp [Nat.add_assoc]; rfl)
      (by simp [Nat.add_assoc]; rfl) rfl
  ret s e ih slots base := by
    simp only [Compile.expr]
    exact (ih slots base).bind fun value => .pure fun valued => valued.step fun pc => trivial
  block s body ih slots base := by
    simp only [Compile.expr]
    exact (ih slots base).2
  nil slots base := by
    simp only [Compile.all, Compile.block]
    exact ⟨.pure .nil, .pure (.one fun pc => by simp [Instr.Admitted, Word.isConstant])⟩
  cons e es ihe ihes slots base := by
    simp only [Compile.all, Compile.block]
    constructor
    · exact (ihe slots base).bind fun first => (ihes slots _).1.bind fun rest =>
        .pure fun others valued => valued.append others
    · exact (ihe slots base).bind fun first => (ihes slots _).2.bind fun rest =>
        .pure fun others valued => (valued.step (i := .pop) fun pc => trivial).append others
  noFields slots base := by
    simp only [Compile.fields]
    exact .pure .nil
  consField x e fs ihe ihfs slots base := by
    simp only [Compile.fields]
    exact (ihe slots base).bind fun first => (ihfs slots _).bind fun rest =>
      .pure fun others valued => valued.append others

/-- A function that was compiled has code that a verifier accepts. -/
theorem Procedure.Compiled.verified {p : Procedure} {o : HostObject} (h : p.Compiled final o) :
    ∃ code, o.code? = some code ∧ code.Verified final.world final.dictionary := by
  obtain ⟨before, is, after, compiled, -, later, rfl⟩ := h.body
  have admits :=
    (((admits_inductive fits).list p.body p.locals 0).2 before is after compiled).2 later
  exact ⟨_, rfl, admits.verified (Nat.le_add_left 1 p.arity) h.arity⟩

end

/-- An object that is new is that of a function. -/
theorem Compiling.Adds.compiled {c d : Compiling} {ps : List Procedure} (h : c.Adds ps d)
    {id : ObjectId} (new : c.world.objects.size ≤ id.index)
    (inside : id.index < d.world.objects.size) :
    ∃ p : Procedure, p.Compiled d (d.world.object id) := by
  have size := h.objects_size
  obtain ⟨nowhere, -⟩ | ⟨p, -, compiled⟩ := h.object id
  · rw [Program.placed, if_neg (by omega), List.getElem?_eq_none_iff] at nowhere
    omega
  · exact ⟨p, compiled⟩

namespace Source

/-- How many functions stand inside a source. -/
def innerCount : Source → Nat
  | script s => Expr.functionCountAll s.body
  | function f _ => Expr.functionCountAll f.body

theorem length_procedures (s : Source) (first : Nat) :
    (s.procedures first).length = s.innerCount + 1 := by
  cases s with
  | script s =>
    rw [procedures, Script.procedures, List.length_append, Expr.length_proceduresAll]
    rfl
  | function f span =>
    rw [procedures, Expr.length_procedures]
    rfl

/-- The function that a source itself is has the last object. -/
theorem size_of_compile {s : Source} {c d : Compiling} {main : ObjectId}
    (h : s.compile c = .ok main d) : d.world.objects.size = main.index + 1 := by
  cases s with
  | script s =>
    rw [compile, compileScript_eq] at h
    obtain ⟨code, e, -, made⟩ := ok_of_bind h
    cases made
    simp
  | function f span =>
    rw [compile, compileFunction_eq] at h
    exact Compile.functionWith_size h

/-- The functions of a source, that itself the last of them, are the new objects of the world. Each
has code that a verifier accepts, with the dictionary as it is in the end. -/
theorem compile_verified {s : Source} {c d : Compiling} {main : ObjectId}
    (h : s.compile c = .ok main d) (fits : d.dictionary.size ≤ 2 ^ 32) :
    main.index = c.world.objects.size + s.innerCount ∧
      ∀ id : ObjectId, c.world.objects.size ≤ id.index → id.index ≤ main.index →
        ∃ code, (d.world.object id).code? = some code ∧ code.Verified d.world d.dictionary := by
  have adds := s.builds.ok h
  have last := size_of_compile h
  have size := adds.objects_size
  rw [length_procedures] at size
  refine ⟨by omega, fun id new old => ?_⟩
  obtain ⟨p, compiled⟩ := adds.compiled new (by omega)
  exact compiled.verified fits

/-- A function with two branches, one of which makes a record. -/
def branching : Script where
  body := [.function .none (some "pick") ["n"] [.cond .none (.var .none "n")
    [.assign .none "o" true (.object .none [("n", .var .none "n")])]
    [.setField .none (.var .none "o") "n" (.literal .none (.str "no"))]]]
  source := none

theorem compile_verified_branching :
    let c : Compiling := ⟨.initial false, .empty⟩
    ∃ d, (script branching).compile c = .ok ⟨13⟩ d ∧
      ∃ code, (d.world.object ⟨12⟩).code? = some code ∧ code.Verified d.world d.dictionary ∧
        code.decoded.1.filterMap (fun p => p.2.jumpTarget?) = [16, 27] := by
  intro c
  have facts : outcome ((script branching).compile c) = .ok ⟨13⟩ ∧
      (stateOf ((script branching).compile c)).dictionary.size ≤ 2 ^ 32 ∧
      (((stateOf ((script branching).compile c)).world.object ⟨12⟩).code?.map fun code : Code =>
        code.decoded.1.filterMap fun p => p.2.jumpTarget?) = some [16, 27] := by decide +kernel
  obtain ⟨number, fits, targets⟩ := facts
  cases result : (script branching).compile c with
  | error e d =>
    rw [result] at number
    cases number
  | ok main d =>
    rw [result] at number fits targets
    cases number
    obtain ⟨-, verified⟩ := compile_verified result fits
    obtain ⟨code, made, accepted⟩ := verified ⟨12⟩ (by decide) (by decide)
    rw [show stateOf _ = d from rfl, made] at targets
    exact ⟨d, rfl, code, made, accepted, Option.some.inj targets⟩

end Source
end TaggedScript
