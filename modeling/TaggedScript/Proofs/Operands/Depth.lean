import TaggedScript.Proofs.Compilation.Correctness
import TaggedScript.Proofs.Compilation.Histories
import TaggedScript.Proofs.Lockstep.Runs
import TaggedScript.Proofs.Operands.Invariant
import TaggedScript.Proofs.Operands.Places

/-!
How many operands a function has depends on the position that it is at, and on nothing else: not on
how it got there, nor on what the machine did before.
-/
namespace TaggedScript
namespace Engine

section
variable {m n : Engine} {level : Nat → Nat} {id : ObjectId} {is : List Instr}

/-- A class has the width that it had. -/
theorem Lasts.width (h : m.Lasts n) (fits : n.dictionary.size ≤ 2 ^ 32) {a : FrameMachine}
    (tracks : Tracks a n) (w : Word) (k : Nat)
    (known : Compiling.Width ⟨m.world, m.dictionary⟩ w k) : a.Width w k := by
  obtain ⟨id, spells, inside, rfl⟩ := known
  refine ⟨id, ?_, ?_⟩
  · rw [tracks.dictionary]
    exact (spells.mono h.dictionary).lookup? fits rfl
  · rw [tracks.world, World.shape_of_prefix h.shapes inside]

/-- The machine has a function with that code, whose levels are right. -/
structure HasLevels (m : Engine) (id : ObjectId) (level : Nat → Nat) (is : List Instr) : Prop where
  builtins : m.world.OnlyBuiltins
  still : m.status ≠ .running
  code : ∃ parameters slots, (m.world.object id).code? = some (.ofInstrs parameters slots is)
  balanced : Balanced (Compiling.Width ⟨m.world, m.dictionary⟩) level 0 is
  entry : level 0 = 0

namespace HasLevels

theorem runs (h : m.HasLevels id level is) (lasts : m.Lasts n) (fits : n.dictionary.size ≤ 2 ^ 32)
    {a : FrameMachine} (tracks : Tracks a n) :
    a.Runs (Compiling.Width ⟨m.world, m.dictionary⟩) id level is where
  code := by
    obtain ⟨parameters, slots, found⟩ := h.code
    have inside := World.lt_of_code found
    exact ⟨parameters, slots, tracks.world ▸ (lasts.code id inside).trans found⟩
  balanced := h.balanced
  known := lasts.width fits tracks

/-- In whatever the machine comes to, the frames of the function have the operands that belong to
their positions. -/
theorem all (h : m.HasLevels id level is) (reached : m.Becomes n) (memory : n.InMemory)
    (fits : n.dictionary.size ≤ 2 ^ 32) (running : n.status = .running) :
    ∃ a, Tracks a n ∧ a.All (FrameMachine.Graded id level is) := by
  have enters (f : CallFrame) (here : f.pc = 0) (none : f.operands = []) :
      FrameMachine.Graded id level is 0 f := fun _ => .first here none h.entry
  induction reached with
  | refl => exact absurd running h.still
  | loaded s _ still => exact absurd running still
  | @started n main earlier ih =>
    have before : n.InMemory :=
      (Lasts.of_grown (grown_start main n) (earlier.lasts h.builtins).2).inMemory memory
    have tracks := start_frames before (ok_of_start running)
    exact ⟨_, tracks, enters _ rfl rfl, by simp [FrameMachine.begin]⟩
  | @stepped n earlier ih =>
    have lasts : n.Lasts (stateOf n.step) := .of_grown n.grown_step (earlier.lasts h.builtins).2
    by_cases ran : n.status = .running
    · obtain ⟨a, tracks, all⟩ := ih (lasts.inMemory memory) (lasts.fits fits) ran
      obtain ⟨b, next, tracks'⟩ := tracks.next_running ran running fits
      have runs := h.runs (earlier.lasts h.builtins).1 (lasts.fits fits) tracks
      exact ⟨b, tracks', all.next runs.preserves enters next⟩
    · rw [step_of_still ran] at running
      exact absurd running ran

/-- The number of operands is that of the position. -/
theorem operands (h : m.HasLevels id level is) (reached : m.Becomes n) (memory : n.InMemory)
    (fits : n.dictionary.size ≤ 2 ^ 32) (running : n.status = .running)
    (here : n.function = some id) : n.stack.operands.length = level n.pc := by
  obtain ⟨a, tracks, all⟩ := h.all reached memory fits running
  have own : a.current.function = id := Option.some_inj.mp (tracks.function.symm.trans here)
  obtain ⟨-, above, operands, count⟩ := all.current own
  rw [tracks.operands, tracks.pc, ← count, operands]
  simp

end HasLevels

/-- For so many steps the machine runs and does not leave the frame that it is in, and then it is in
that again. -/
structure ComesBack (n : Engine) (steps : Nat) : Prop where
  runs : ∀ i ≤ steps, (afterSteps step i n).status = .running
  stays : ∀ i ≤ steps, n.stack.frame.base ≤ (afterSteps step i n).stack.frame.base
  back : (afterSteps step steps n).stack.frame.base = n.stack.frame.base

theorem dictionary_afterSteps (n : Engine) {i steps : Nat} (earlier : i ≤ steps) :
    (afterSteps step i n).dictionary.size ≤ (afterSteps step steps n).dictionary.size := by
  induction earlier with
  | refl => exact Nat.le_refl _
  | step _ ih => exact Nat.le_trans ih (grown_afterSteps n _).size_le

/-- What is said of a frame holds of it for as long as it is not left. -/
theorem ComesBack.one {P : Nat → CallFrame → Prop} {steps : Nat} (h : n.ComesBack steps)
    (fits : (afterSteps step steps n).dictionary.size ≤ 2 ^ 32)
    (keeps : ∀ i < steps, ∀ a, Tracks a (afterSteps step i n) → a.Preserves P)
    {a : FrameMachine} (tracks : Tracks a n) (here : P 0 a.current) :
    ∃ b, Tracks b (afterSteps step steps n) ∧ b.callers = a.callers ∧ P 0 b.current := by
  have one (i : Nat) (le : i ≤ steps) :
      ∃ b, Tracks b (afterSteps step i n) ∧ b.One P a.callers := by
    induction i with
    | zero => exact ⟨a, tracks, .current rfl here⟩
    | succ i ih =>
      obtain ⟨b, tracks', one⟩ := ih (Nat.le_of_succ_le le)
      obtain ⟨c, next, tracks''⟩ := tracks'.next_running (h.runs i (Nat.le_of_succ_le le))
        (h.runs (i + 1) le) (Nat.le_trans (dictionary_afterSteps n le) fits)
      refine ⟨c, tracks'', ?_⟩
      obtain kept | ⟨caller, left⟩ := one.next (keeps i le b tracks') next
      · exact kept
      · have stays := h.stays (i + 1) le
        rw [tracks.base, left, List.map_cons, List.sum_cons] at stays
        have base := tracks''.base
        simp only [afterSteps, CallFrame.size] at stays
        omega
  obtain ⟨b, tracks', ⟨callers, here⟩ | ⟨_, callers, -⟩⟩ := one steps (Nat.le_refl _)
  · exact ⟨b, tracks', callers, here⟩
  · have back := h.back
    rw [tracks'.base, tracks.base, callers, List.map_append, List.sum_append, List.map_cons,
      List.sum_cons, CallFrame.size] at back
    omega

/-- Where the code of an expression stands, that leaves what lies below alone and adds a word. -/
theorem HasLevels.expression {before code after : List Instr}
    (h : m.HasLevels id level (before ++ code ++ after))
    (graded : Grades (Compiling.Width ⟨m.world, m.dictionary⟩) (codeWidth before) 0 code 1)
    (reached : m.Becomes n) (memory : n.InMemory) (here : n.function = some id)
    (place : n.pc = codeWidth before) {steps : Nat} (comes : n.ComesBack steps)
    (fits : (afterSteps step steps n).dictionary.size ≤ 2 ^ 32)
    (done : (afterSteps step steps n).pc = codeWidth before + codeWidth code) :
    ∃ w, (afterSteps step steps n).stack.operands = n.stack.operands ++ [w] := by
  obtain ⟨level', balanced, begins, ends⟩ := graded
  have early {i : Nat} (le : i ≤ steps) := Nat.le_trans (dictionary_afterSteps n le) fits
  obtain ⟨a, tracks, all⟩ :=
    h.all reached memory (early (Nat.zero_le _)) (comes.runs 0 (Nat.zero_le _))
  have own : a.current.function = id := Option.some_inj.mp (tracks.function.symm.trans here)
  have first : a.current.At level' (codeWidth before) code a.current.operands 0 :=
    .first (tracks.pc.symm.trans place) rfl begins
  obtain ⟨b, tracks', -, inPart⟩ := comes.one fits
    (fun i lt b tracks' => (h.runs ((reached.afterSteps i).lasts h.builtins).1
      (early (Nat.le_of_lt lt)) tracks').preserves_part balanced)
    tracks ⟨own, all.current own, .inl first⟩
  have last : b.current.pc = codeWidth before + codeWidth code := tracks'.pc.symm.trans done
  obtain ⟨-, above, operands, count⟩ | past := inPart.part
  · rw [last, ends] at count
    obtain ⟨w, rfl⟩ := List.length_eq_one_iff.mp count
    refine ⟨w, ?_⟩
    rw [tracks'.operands, tracks.operands, operands]
    simp
  · omega

end

/-- The levels of a function on a machine that has compiled it. -/
structure Levels (m : Engine) (id : ObjectId) (p : Procedure) (level : Nat → Nat) : Prop where
  entry : level 0 = 0
  statements : ∀ place ∈ Expr.statementPlaces p.locals 0 p.body, level place.1 = 0
  operands : ∀ n, m.Becomes n → n.InMemory → n.dictionary.size ≤ 2 ^ 32 → n.status = .running →
    n.function = some id → n.stack.operands.length = level n.pc
  /-- The code of an expression stands at its place. If it is carried out to its end then it has
  added a word. -/
  expressions : ∀ place ∈ Expr.placesBlock p.locals 0 p.body, ∃ code c d,
    Compile.expr p.locals place.1 place.2 c = .ok code d ∧
    ((m.world.object id).code?.getD default).HasAt place.1 code ∧
    ∀ n steps, m.Becomes n → n.InMemory → n.function = some id → n.pc = place.1 →
      n.ComesBack steps → (afterSteps step steps n).dictionary.size ≤ 2 ^ 32 →
      (afterSteps step steps n).pc = place.1 + codeWidth code →
      ∃ w, (afterSteps step steps n).stack.operands = n.stack.operands ++ [w]

/-- A function that was compiled has levels. -/
theorem levels_of_compiled {m : Engine} {id : ObjectId} {p : Procedure}
    (builtins : m.world.OnlyBuiltins) (still : m.status ≠ .running)
    (compiled : p.Compiled ⟨m.world, m.dictionary⟩ (m.world.object id)) :
    ∃ level, m.Levels id p level := by
  obtain ⟨-, before, code, after, result, -, later, object⟩ := compiled
  obtain ⟨level, body⟩ := laidBody (Compiling.Width ⟨m.world, m.dictionary⟩) result
    fun w n known => known.later later
  have found : (m.world.object id).code? =
      some (.ofInstrs (p.arity + 1) p.locals.length (code ++ [.ret])) := by
    rw [object]
    rfl
  have levels : m.HasLevels id level (code ++ [.ret]) :=
    ⟨builtins, still, ⟨_, _, found⟩, body.balanced, body.entry⟩
  refine ⟨level, body.entry, body.statements, fun n reached memory fits running here =>
    levels.operands reached memory fits running here, fun place mem => ?_⟩
  obtain ⟨front, own, back, c, d, whole, here, made, graded⟩ := body.places place mem
  rw [Nat.zero_add] at here
  rw [whole] at levels found
  refine ⟨own, c, d, made, ?_, fun n steps reached memory function pc comes fits done => ?_⟩
  · have has :=
      (Code.hasAt_ofInstrs (p.arity + 1) p.locals.length (front ++ own ++ back)).left.right
    rw [Nat.zero_add] at has
    rw [found, here]
    exact has
  · exact levels.expression (here ▸ graded) reached memory function (pc.trans here) comes fits
      (here ▸ done)

/-- When a source has been compiled on a machine, each of its functions has levels. Whatever the
machine then goes on to do, it gets to a position of the function with as many operands as belong to
that, and an expression that is carried out to its end leaves one word more than there were. -/
theorem operand_depth {closed : Bool} {config : EngineConfig} {m : Engine}
    (reached : (make config (.initial closed) .empty).Becomes m) (still : m.status ≠ .running)
    (s : Source) :
    ∃ ps,
      (∀ main c, s.compile ⟨m.world, m.dictionary⟩ = .ok main c →
        ps = s.procedures m.world.objects.size) ∧
      (m.loaded s).world.objects.size = m.world.objects.size + ps.length ∧
      ∀ id p, Program.placed m.world.objects.size ps id = some p →
        p.Compiled ⟨(m.loaded s).world, (m.loaded s).dictionary⟩ ((m.loaded s).world.object id) ∧
        ∃ level, (m.loaded s).Levels id p level := by
  have builtins := (reached.lasts (World.builtin_initial closed).onlyBuiltins).2
  obtain ⟨ps, exactly, adds⟩ := s.adds ⟨m.world, m.dictionary⟩
  refine ⟨ps, exactly, adds.objects_size, fun id p placed => ?_⟩
  obtain ⟨none, -⟩ | ⟨q, same, compiled⟩ := adds.object id
  · cases none.symm.trans placed
  · cases same.symm.trans placed
    exact ⟨compiled, levels_of_compiled (adds.onlyBuiltins builtins) still compiled⟩

/-- The result of a call is all that there is before `GET` reads a field of it. -/
theorem operand_depth_fieldOfCall :
    let m := (make ⟨32, 8⟩ (.initial false) .empty).loaded (.script Script.fieldOfCall)
    ∃ p level, m.Levels ⟨13⟩ p level ∧ level 8 = 1 := by
  intro m
  let fresh := make ⟨32, 8⟩ (.initial false) .empty
  obtain ⟨ps, exactly, -, all⟩ := operand_depth (m := fresh) .refl (by decide)
    (.script Script.fieldOfCall)
  obtain rfl := exactly ⟨13⟩ ⟨m.world, m.dictionary⟩ rfl
  obtain ⟨-, level, levels⟩ := all ⟨13⟩ _ rfl
  refine ⟨_, level, levels, ?_⟩
  let called := afterSteps step 7 (stateOf (start ⟨13⟩ m))
  have reached : m.Becomes called := (Becomes.refl.started ⟨13⟩).afterSteps 7
  have memory : called.InMemory := ⟨by decide +kernel, World.codeFits_of_all (by decide +kernel)⟩
  have count : called.stack.operands.length = level called.pc :=
    levels.operands called reached memory (by decide +kernel) (by decide +kernel) (by decide +kernel)
  have here : called.pc = 8 := by decide +kernel
  have one : called.stack.operands.length = 1 := by decide +kernel
  rw [← here, ← count, one]

end Engine
end TaggedScript
