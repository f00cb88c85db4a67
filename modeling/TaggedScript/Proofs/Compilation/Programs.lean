import TaggedScript.Proofs.Compilation.Expressions

/-!
Functions that call each other come to what they mean. The induction is on how many calls may be
inside each other, which the stack limits.
-/
namespace TaggedScript

/-- No code of the program has more instructions than this, its `RET` left out. -/
def Image.ShortCode (I : Image) (length : Nat) : Prop :=
  ∀ id code, (I.compiled.world.object id).code? = some code → code.stream.size ≤ length + 1

/-- All the code of a function is in a stretch that has room for its frame. -/
theorem Stretch.Opens.hasAt {S : Stretch} {ctx : Context} {is : List Instr} (opens : S.Opens ctx)
    (code : ctx.code.HasAt 0 is) (size : ctx.code.stream.size = codeWidth is)
    (slots : ctx.code.slotCount = ctx.locals.length) (fits : ctx.code.frameSize ≤ S.frame) :
    S.HasAt ctx 0 [] is where
  code := code
  spans := opens.spans
  inside outermost := by
    obtain ⟨start, stop⟩ := opens.whole outermost
    omega
  room := by
    rw [Code.frameSize] at fits
    rw [List.length_nil]
    omega

/-- If calls come to what they mean, so does the body of a function. -/
theorem CallsWithin.runs {I : Image} {S : Stretch} {apply : Applier} {depth cost length : Nat}
    (calls : CallsWithin I S apply depth cost) (positive : 0 < cost) (short : I.ShortCode length)
    (frames : I.FramesWithin S.frame) :
    RunsWithin I S (fun p => p.run apply) depth (length * cost) := by
  intro ctx σ a p receiver args deep opens known locals at_a
  obtain ⟨arity, before, is, after, compiled, first, later, object⟩ := I.built _ p known
  have found : (I.compiled.world.object ctx.function).code? = some ctx.code := by
    rw [← at_a.holds.hosts.code, at_a.code]
  have code : ctx.code = .ofInstrs (p.arity + 1) p.locals.length (is ++ [.ret]) := by
    rw [object] at found
    injection found with same
    exact same.symm
  have slots : ctx.code.slotCount = ctx.locals.length := by
    rw [code, locals]
    exact Nat.max_eq_left arity
  have size : ctx.code.stream.size = codeWidth (is ++ [.ret]) := by
    rw [code]
    exact length_encode_all _
  have here : S.HasAt ctx 0 [] (is ++ [.ret]) :=
    opens.hasAt (code ▸ Code.hasAt_ofInstrs _ _ _) size slots (frames _ _ found)
  have fewer : is.length ≤ length := by
    have short := short _ _ found
    have count := length_le_codeWidth (is ++ [Instr.ret])
    rw [List.length_append, List.length_singleton] at count
    omega
  rw [← locals] at compiled
  have body := ((does_inductive positive calls deep).list p.body).2 0 [] before is after compiled
    later
  rw [first, locals] at body
  refine ((body.leads here.left _ a at_a).weaken fun b ends => ?_).more (Nat.mul_le_mul_right cost fewer)
  simp only [Procedure.run]
  match result : Expr.meaningBlock apply p.locals p.first p.body
      { σ with slots := p.slots receiver args } with
  | .ok () τ =>
    rw [result] at ends
    exact ⟨rfl, τ.slots, _, [], ends, here.right (body.few () ⟨_, τ, result⟩)⟩
  | .error (.returned v) τ =>
    rw [result] at ends
    exact ⟨rfl, τ.slots, ends⟩
  | .error (.failed e) τ | .error (.noRoom requested available) τ =>
    rw [result] at ends
    obtain ⟨good, inside, c, d, failed, holds⟩ := ends
    exact ⟨good, inside, c, d, failed, holds.setSlots σ.slots⟩
  | .error .tooDeep τ =>
    rw [result] at ends
    exact ends

/-- How many steps a call may take with that many calls inside each other. -/
def callCost (length : Nat) : Nat → Nat
  | 0 => 1
  | depth + 1 => length * callCost length depth + 2

theorem callCost_pos (length depth : Nat) : 0 < callCost length depth := by
  cases depth with
  | zero => exact Nat.one_pos
  | succ depth => exact Nat.succ_pos _

theorem callCost_le (length depth : Nat) : callCost length depth ≤ (length + 2) ^ depth := by
  induction depth with
  | zero => exact Nat.le_refl _
  | succ depth ih =>
    have one := callCost_pos length depth
    calc callCost length (depth + 1)
        = length * callCost length depth + 2 := rfl
      _ ≤ length * callCost length depth + 2 * callCost length depth := by omega
      _ = (length + 2) * callCost length depth := (Nat.add_mul _ _ _).symm
      _ ≤ (length + 2) * (length + 2) ^ depth := Nat.mul_le_mul_left _ ih
      _ = (length + 2) ^ (depth + 1) := by rw [Nat.pow_succ, Nat.mul_comm]

section
variable {I : Image} {S : Stretch} {length : Nat} (short : I.ShortCode length)
  (frames : I.FramesWithin S.frame)
include short frames

theorem callsWithin (depth : Nat) :
    CallsWithin I S (Meaning.apply I.program (Meaning.callWithin I.program depth)) depth
      (callCost length depth) := by
  induction depth with
  | zero => exact callsWithin_zero I S
  | succ depth ih =>
    have runs : RunsWithin I S (Meaning.callWithin I.program (depth + 1)) depth
        (length * callCost length depth) := ih.runs (callCost_pos length depth) short frames
    exact runs.calls frames

/-- The functions of a program come to what they mean. -/
theorem runsWithin (depth : Nat) :
    RunsWithin I S (Meaning.callWithin I.program (depth + 1)) depth
      (length * callCost length depth) :=
  (callsWithin short frames depth).runs (callCost_pos length depth) short frames

end
end TaggedScript
