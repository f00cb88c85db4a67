import TaggedScript.Proofs.Frames.Refinement
import TaggedScript.Proofs.Operands.Effects

/-!
What holds of the frames of a function from step to step: of all of them, and of one of them for as
long as it is not left.
-/
namespace TaggedScript

/-- The frame is in the code. On those that lay there it has as many operands as belong to its
position once it has got the results that it waits for. -/
structure CallFrame.At (level : Nat → Nat) (base : Nat) (is : List Instr) (below : List Word)
    (awaited : Nat) (f : CallFrame) : Prop where
  place : Boundary base is f.pc
  operands : ∃ above, f.operands = above ++ below ∧ above.length + awaited = level f.pc

namespace CallFrame.At
variable {widths : Word → Nat → Prop} {level : Nat → Nat} {base awaited : Nat} {is : List Instr}
  {below : List Word} {f g : CallFrame} {i : Instr}

theorem first (here : f.pc = base) (operands : f.operands = below) (none : level base = 0) :
    f.At level base is below 0 :=
  ⟨here ▸ .first, [], operands, by rw [here, none]; rfl⟩

/-- The result comes on top. -/
theorem receives (h : f.At level base is below 1) (w : Word) :
    { f with operands := w :: f.operands }.At level base is below 0 := by
  obtain ⟨place, above, operands, count⟩ := h
  exact ⟨place, w :: above, by simp only [operands, List.cons_append], count⟩

/-- A balanced instruction leads from level to level, and forward. -/
theorem passes {a : FrameMachine} (h : a.current.At level base is below 0)
    (balances : i.Balances widths level (Boundary base is) a.current.pc)
    (known : ∀ w n, widths w n → a.Width w n) (passes : a.Passes i awaited g) :
    a.current.pc < g.pc ∧ g.At level base is below awaited := by
  obtain ⟨place, above, operands, count⟩ := h
  obtain ⟨-, taken, left, moves, enough, next⟩ := balances
  obtain ⟨⟨_, kept, moves', -, new, size, replaced⟩, pc, -⟩ := passes
  obtain ⟨rfl, rfl⟩ := (moves.map known).unique moves' fun _ _ _ => FrameMachine.width_unique
  obtain ⟨forward, inside, levels⟩ := next g.pc pc
  have inAbove : taken ≤ above.length := by omega
  refine ⟨forward, inside, new ++ above.drop taken, ?_, ?_⟩
  · rw [replaced, operands, List.drop_append_of_le_length inAbove, List.append_assoc]
  · rw [List.length_append, List.length_drop]
    omega

end CallFrame.At

/-- At the end of the stream there is no instruction. -/
theorem Code.fetch_ne_end {code : Code} {pc : Nat} {i : Instr} (fetched : code.fetch pc = .ok i) :
    pc ≠ code.stream.size := by
  have inside := Code.fetch_le fetched
  have width := i.width_pos
  omega

namespace FrameMachine
variable {P : Nat → CallFrame → Prop} {a b : FrameMachine} {rest : List CallFrame}

/-- What is said of a frame, and of one that waits for a result, is kept by the instruction that is
next and by results. -/
structure Preserves (P : Nat → CallFrame → Prop) (a : FrameMachine) : Prop where
  passes : ∀ i awaited g, a.code.fetch a.current.pc = .ok i → P 0 a.current →
    a.Passes i awaited g → P awaited g
  receives : ∀ f w, P 1 f → P 0 { f with operands := w :: f.operands }

/-- It holds of all frames. -/
structure All (P : Nat → CallFrame → Prop) (a : FrameMachine) : Prop where
  current : P 0 a.current
  callers : ∀ f ∈ a.callers, P 1 f

/-- If it also holds of frames at the beginning of a function then it goes on to hold of all. -/
theorem All.next (h : a.All P) (keeps : a.Preserves P)
    (enters : ∀ f, f.pc = 0 → f.operands = [] → P 0 f) (next : FrameExec.next a = .ok none b) :
    b.All P := by
  obtain ⟨i, fetched, goes⟩ := goes_of_ok next
  cases goes with
  | on passes callers => exact ⟨keeps.passes i 0 _ fetched h.current passes, callers ▸ h.callers⟩
  | @call caller passes callers pc operands =>
    refine ⟨enters _ pc operands, fun f mem => ?_⟩
    rw [callers] at mem
    obtain rfl | waiting := List.mem_cons.mp mem
    · exact keeps.passes i 1 _ fetched h.current passes
    · exact h.callers f waiting
  | @back caller w callers current =>
    have all := h.callers
    rw [callers] at all
    exact ⟨current ▸ keeps.receives caller w (all caller List.mem_cons_self), fun f mem =>
      all f (List.mem_cons_of_mem _ mem)⟩

/-- It holds of the frame that has these below it. Others may have been called from it. -/
inductive One (P : Nat → CallFrame → Prop) (rest : List CallFrame) (a : FrameMachine) : Prop
  | current (callers : a.callers = rest) (here : P 0 a.current)
  | waiting (upper : List CallFrame) {f : CallFrame} (callers : a.callers = upper ++ f :: rest)
    (here : P 1 f)

/-- It goes on to hold of the frame, until that is left. -/
theorem One.next (h : a.One P rest) (keeps : a.Preserves P) (next : FrameExec.next a = .ok none b) :
    b.One P rest ∨ ∃ caller, rest = caller :: b.callers := by
  obtain ⟨i, fetched, goes⟩ := goes_of_ok next
  cases h with
  | current callers here =>
    cases goes with
    | on passes same =>
      exact .inl (.current (same.trans callers) (keeps.passes i 0 _ fetched here passes))
    | @call caller passes more =>
      refine .inl (.waiting [] ?_ (keeps.passes i 1 _ fetched here passes))
      rw [more, callers, List.nil_append]
    | @back caller w fewer => exact .inr ⟨caller, callers.symm.trans fewer⟩
  | waiting upper callers here =>
    cases goes with
    | on passes same => exact .inl (.waiting upper (same.trans callers) here)
    | @call caller passes more =>
      refine .inl (.waiting (caller :: upper) ?_ here)
      rw [more, callers, List.cons_append]
    | @back caller w fewer current =>
      rw [callers] at fewer
      cases upper with
      | nil =>
        obtain ⟨rfl, below⟩ := List.cons_eq_cons.mp fewer
        exact .inl (.current below.symm (current ▸ keeps.receives _ w here))
      | cons u upper => exact .inl (.waiting upper (List.cons_eq_cons.mp fewer).2.symm here)

section
variable {widths : Word → Nat → Prop} {level : Nat → Nat} {id : ObjectId} {is : List Instr}

/-- A frame of the function has as many operands as belong to its position. -/
def Graded (id : ObjectId) (level : Nat → Nat) (is : List Instr) (awaited : Nat) (f : CallFrame) :
    Prop :=
  f.function = id → f.At level 0 is [] awaited

/-- The function has that code, whose levels are right. -/
structure Runs (widths : Word → Nat → Prop) (id : ObjectId) (level : Nat → Nat) (is : List Instr)
    (a : FrameMachine) : Prop where
  code : ∃ parameters slots,
    (a.world.object id).code? = some (.ofInstrs parameters slots is)
  balanced : Balanced widths level 0 is
  known : ∀ w n, widths w n → a.Width w n

namespace Runs

/-- The code that is executed. -/
theorem code_eq (h : a.Runs widths id level is) (here : a.current.function = id) :
    a.code.HasAt 0 is ∧ a.code.stream.size = codeWidth is := by
  obtain ⟨parameters, slots, found⟩ := h.code
  have code : a.code = .ofInstrs parameters slots is := by
    rw [FrameMachine.code, here, found]
    rfl
  rw [code]
  exact ⟨Code.hasAt_ofInstrs parameters slots is, length_encode_all is⟩

theorem passes (h : a.Runs widths id level is) {i : Instr} {awaited : Nat} {g : CallFrame}
    (fetched : a.code.fetch a.current.pc = .ok i) (here : a.current.function = id)
    (at_ : a.current.At level 0 is [] 0) (passes : a.Passes i awaited g) :
    a.current.pc < g.pc ∧ g.At level 0 is [] awaited := by
  obtain ⟨has, size⟩ := h.code_eq here
  have before : a.current.pc ≠ 0 + codeWidth is := by
    rw [Nat.zero_add, ← size]
    exact Code.fetch_ne_end fetched
  obtain ⟨j, found, balances⟩ := h.balanced.fetch has at_.place before
  obtain rfl : i = j := Except.ok.inj (fetched.symm.trans found)
  exact at_.passes balances h.known passes

theorem preserves (h : a.Runs widths id level is) : a.Preserves (Graded id level is) where
  passes _ _ _ fetched graded passes here :=
    have own := passes.function ▸ here
    (h.passes fetched own (graded own) passes).2
  receives _ w graded here := (graded here).receives w

end Runs

/-- A frame of the function is in a part of its code, on top of what lay there, or it is past it. -/
structure InPart (id : ObjectId) (level : Nat → Nat) (is : List Instr) (level' : Nat → Nat)
    (base : Nat) (js : List Instr) (below : List Word) (awaited : Nat) (f : CallFrame) : Prop where
  function : f.function = id
  whole : f.At level 0 is [] awaited
  part : f.At level' base js below awaited ∨ base + codeWidth js < f.pc

theorem Runs.preserves_part {before js after : List Instr} {level' : Nat → Nat} {below : List Word}
    (h : a.Runs widths id level (before ++ js ++ after))
    (balanced : Balanced widths level' (codeWidth before) js) :
    a.Preserves (InPart id level (before ++ js ++ after) level' (codeWidth before) js below) where
  passes i awaited g fetched here passes := by
    obtain ⟨forward, whole⟩ := h.passes fetched here.function here.whole passes
    refine ⟨passes.function.trans here.function, whole, ?_⟩
    obtain inside | past := here.part
    · by_cases last : a.current.pc = codeWidth before + codeWidth js
      · exact .inr (last ▸ forward)
      · have has := (h.code_eq here.function).1.left.right
        rw [Nat.zero_add] at has
        obtain ⟨j, found, balances⟩ := balanced.fetch has inside.place last
        obtain rfl : i = j := Except.ok.inj (fetched.symm.trans found)
        exact .inl (inside.passes balances h.known passes).2
    · exact .inr (Nat.lt_trans past forward)
  receives f w here :=
    ⟨here.function, here.whole.receives w, here.part.imp_left fun inside => inside.receives w⟩

end
end FrameMachine
end TaggedScript
