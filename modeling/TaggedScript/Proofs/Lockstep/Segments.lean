import TaggedScript.Proofs.Compilation.Termination
import TaggedScript.Proofs.Lockstep.Runs
import TaggedScript.Proofs.Semantics.Straight

/-!
Functions that begin with the same code, after which one of them returns and the other goes on. The
machines are in lockstep up to there. The one that returned is done by then, and what the other one
goes on with is an empty frame.
-/
namespace TaggedScript

namespace Engine.Stops
variable {n : Nat} {m : Engine} {r : EStateM.Result RunError Engine Value}

theorem grown_after_step (h : Stops n m r) : (stateOf m.step).Grown (stateOf r) := by
  induction h with
  | done step | failed step =>
    rw [step]
    exact .refl _
  | next step _ ih =>
    rw [step]
    exact (grown_step _).trans ih

theorem grown (h : Stops n m r) : m.Grown (stateOf r) := m.grown_step.trans h.grown_after_step

/-- If the indices fit into words in the end they do after the next step. -/
theorem small_step (h : Stops n m r) (small : (stateOf r).dictionary.size ≤ 2 ^ 32) :
    (stateOf m.step).dictionary.size ≤ 2 ^ 32 := Nat.le_trans h.grown_after_step.size_le small

section
variable (h : Stops n m r) {m' : Engine}
include h

theorem of_continue (step : m.step = .ok .continue m') : ∃ k, Stops k m' r := by
  cases h with
  | done other | failed other => cases step.symm.trans other
  | next other rest =>
    cases step.symm.trans other
    exact ⟨_, rest⟩

theorem of_done {v : Value} (step : m.step = .ok (.done v) m') : r = .ok v m' := by
  cases h with
  | done other =>
    cases step.symm.trans other
    rfl
  | failed other | next other => cases step.symm.trans other

theorem of_error {e : RunError} (step : m.step = .error e m') : r = .error e m' := by
  cases h with
  | failed other =>
    cases step.symm.trans other
    rfl
  | done other | next other => cases step.symm.trans other

end
end Engine.Stops

namespace FrameMachine
variable {a b : FrameMachine}

/-- A word is pushed, or there is no room for it. -/
theorem step_const {w : Word} (running : a.status = .running)
    (fetched : a.code.fetch a.current.pc = .ok (.const w)) (step : a.step = .ok .continue b) :
    b = (a.moveTo (a.current.pc + 2)).setOperands (w :: a.current.operands) := by
  have next := next_eq fetched
  rw [FrameExec.execute, bind_eq, FrameExec.push] at next
  split at next
  · rename_i made
    split at made
    · cases made
    · cases made
      rw [step_continue running next] at step
      cases step
      rfl
  · rw [step_error running next] at step
    cases step

/-- The function that nobody called is left with its result. -/
theorem step_ret {w : Word} {v : Value} {rest : List Word} (running : a.status = .running)
    (fetched : a.code.fetch a.current.pc = .ok .ret) (alone : a.callers = [])
    (operands : a.current.operands = w :: rest) (means : decode a.dictionary a.heap w = .ok v) :
    a.step = .ok (.done v)
      { (a.moveTo (a.current.pc + 1)).setOperands rest with status := .done v } := by
  have next := next_eq fetched
  have popped : FrameExec.pop (a.moveTo (a.current.pc + Instr.ret.width)) =
      .ok w ((a.moveTo (a.current.pc + 1)).setOperands rest) := by
    simp only [FrameExec.pop, moveTo, operands]
    rfl
  have read : FrameExec.decodeWord w ((a.moveTo (a.current.pc + 1)).setOperands rest) =
      .ok v ((a.moveTo (a.current.pc + 1)).setOperands rest) := by
    simp only [FrameExec.decodeWord, bind_eq, get_eq, setOperands, moveTo, means]
    rfl
  rw [FrameExec.execute, FrameExec.leave_outermost popped alone read] at next
  exact step_done running next

end FrameMachine

/-- A function that nobody called is about to return, and its only variable has no value. -/
structure Over (pc : Nat) (a : FrameMachine) : Prop where
  callers : a.callers = []
  pc : a.current.pc = pc
  operands : ∃ w, a.current.operands = [w]
  slots : a.dictionary.size ≤ 2 ^ 32 → a.current.slots = [.undefined]

/-- The function is over, or it fails at its next step, if the stack has no more words than that. -/
def OverOrFails (pc capacity : Nat) (a : FrameMachine) : Prop :=
  a.config.stackCapacity ≤ capacity → Over pc a ∨ ∃ e b, a.step = .error e b

/-- The code of statements that do not return comes to its end in an empty frame, or it fails. -/
theorem Engine.Carries.leads_over {I : Image} {σ : Memory} {m₀ m : Engine} {main : ObjectId}
    {first : List Instr} {es : List Expr} {c d : Compiling} (carries : m₀.Carries I σ)
    (memory : m₀.InMemory) (started : Engine.start main m₀ = .ok () m)
    (found : (m₀.world.object main).code? =
      some (.ofInstrs 1 1 (first ++ [.const .undefined] ++ [.ret])))
    (compiled : Compile.block [thisName] 0 es c = .ok (first ++ [.const .undefined]) d)
    (later : d.Extends I.compiled) (readable : Expr.AllReadable es)
    (straight : Expr.returnsAll es = false) :
    ∃ n, Leads (Sane I) (Engine.wholeRun I.compiled.world main m.config.stackCapacity)
      (OverOrFails (codeWidth first + 2) m.config.stackCapacity) n (.begin main m) := by
  have slots : (Code.ofInstrs 1 1 (first ++ [.const .undefined] ++ [.ret])).slotCount =
    [thisName].length := rfl
  obtain ⟨-, -, at_start⟩ := carries.at_begin memory found slots started
  have known := found
  rw [carries.world, (carries main).hosts.code] at known
  have short : I.ShortCode (Engine.longestCode I.compiled.world) := fun id code known =>
    Nat.le_succ_of_le (Engine.le_longestCode known)
  let S := Engine.wholeRun I.compiled.world main m.config.stackCapacity
  have frames : I.FramesWithin S.frame := fun id code known => Engine.le_frameRoom known
  have opens : S.Opens ⟨m.config, main, _, [thisName], [], []⟩ :=
    Engine.wholeRun_opens known _ _ _
  have here := (opens.hasAt (Code.hasAt_ofInstrs 1 1 _) (length_encode_all _) slots
    (frames main _ known)).left
  have calls := callsWithin short frames m.config.stackCapacity
  have does := (((does_inductive (callCost_pos _ _) calls (Nat.add_zero _)).list es).2 0 [] c _ d
    compiled later).leads here _ _ at_start
  have goes := ((straight_inductive (Meaning.apply I.program
    (Meaning.callWithin I.program m.config.stackCapacity))).list es readable straight
      c.world.objects.size).2.goes { σ with slots := [.undefined] }
  refine ⟨_, does.weaken fun b ends => ?_⟩
  have width : 0 + codeWidth (first ++ [.const .undefined]) = codeWidth first + 2 :=
    (Nat.zero_add _).trans (codeWidth_append _ _)
  generalize result : Expr.meaningBlock _ _ _ es _ = r at ends
  have same : Expr.meaningBlock _ _ _ es { σ with slots := [.undefined] } = r := result
  rw [same] at goes
  match r with
  | .ok () τ =>
    refine fun _ => .inl ⟨ends.callers, ends.pc.trans width, ?_, fun fits => ?_⟩
    · obtain ⟨w, rest, -, none, only⟩ := List.forall₂_cons_right_iff.mp ends.operands
      rw [List.forall₂_nil_right_iff.mp none] at only
      exact ⟨w, only⟩
    · have slots := ends.slots
      rw [show τ.slots = [.undefined] from goes] at slots
      obtain ⟨w, rest, means, none, only⟩ := List.forall₂_cons_right_iff.mp slots
      rw [only, List.forall₂_nil_right_iff.mp none,
        eq_encode_of_decode ends.holds.interned fits (means.decodes fits)]
      rfl
  | .error (.failed e) τ | .error (.noRoom requested available) τ =>
    obtain ⟨-, -, b', c', failed, -⟩ := ends
    exact fun _ => .inr ⟨_, b', failed⟩
  | .error (.returned v) τ => exact goes.elim
  | .error .tooDeep τ => exact fun le => absurd ends.2 (Nat.not_lt.mpr le)

/-- The functions begin with the same instructions, after which the left one returns. -/
structure Outermost.Begins {R : Renumbering} (O : Outermost R) (first : List Instr) : Prop where
  left : O.leftCode.HasAt 0 (first ++ [.const .undefined] ++ [.ret])
  right : O.rightCode.HasAt 0 first
  alike : Alikes O.compiled 0 0 first first
  here : O.here = Abreast 0 0 first

namespace Lockstep
variable {R : Renumbering}

/-- The left machine is done, and the right one goes on at a position with an empty frame. -/
structure Handed (L : Lockstep R) (O : Outermost R) (pc : Nat) (m : Engine) (y : FrameMachine) :
    Prop where
  since : O.compiled.Grows L
  objects : L.objects = O.compiled.objects
  stores : ∀ f, L.Stores (.begin f m) y
  outermost : O.In m.world y.world
  running : y.status = .running
  current : y.current = ⟨O.right, pc, [.undefined], []⟩
  callers : y.callers = []

variable {L : Lockstep R} {O : Outermost R} {x y b : FrameMachine} {first : List Instr} {j : Nat}
  {v : Value} {m m₁ : Engine} {sane : FrameMachine → Prop} {S : Stretch} {n : Nat}

theorem Waiting.nil_iff {w w' : World} {fs fs' : List CallFrame} (h : L.Waiting O w w' fs fs') :
    fs = [] ↔ fs' = [] := by
  cases h <;> simp

namespace Together

/-- At the end of the common code the left machine returns, if it has no operands. -/
theorem returns (together : Together L O True x y) (begins : O.Begins first)
    (alone : y.callers = []) (ends : x.current.pc = codeWidth first)
    (step : x.step = .ok .continue b) :
    b = (x.moveTo (codeWidth first + 2)).setOperands (.undefined :: x.current.operands) ∧
      b.step = .ok (.done .undefined)
        { x.moveTo (codeWidth first + 3) with status := .done .undefined } := by
  have active := together.active
  rw [alone] at active
  have code : x.code = O.leftCode := by
    rw [FrameMachine.code, active.1, together.outermost.leftCode]
    rfl
  have last := begins.left.left.right
  have ret := begins.left.right
  have width : codeWidth (first ++ [.const .undefined]) = codeWidth first + 2 := codeWidth_append _ _
  rw [Nat.zero_add] at last ret
  rw [width] at ret
  have pushed := FrameMachine.step_const together.running.1
    (by rw [code, ends]; exact last.fetch) step
  subst pushed
  rw [ends]
  refine ⟨rfl, ?_⟩
  have fetched : x.code.fetch (codeWidth first + 2) = .ok .ret := by
    rw [code]
    exact ret.fetch
  exact FrameMachine.step_ret together.running.1 fetched (together.waiting.nil_iff.mpr alone) rfl
    (by simp [decode])

/-- Where the left machine is about to return and has no operands, neither has the right one. -/
theorem current_at_end (together : Together L O True x y) (begins : O.Begins first)
    (fits : L.Fits) (alone : y.callers = []) (ends : x.current.pc = codeWidth first)
    (slots : x.current.slots = [.undefined]) (operands : x.current.operands = []) :
    y.current = ⟨O.right, codeWidth first, [.undefined], []⟩ := by
  obtain ⟨words, others⟩ := together.frame
  have slots' : y.current.slots = [.undefined] := by
    rw [slots] at words
    generalize y.current.slots = ws at words
    obtain _ | ⟨pairs, rest⟩ := words
    cases rest
    rw [(pairs.eq_iff fits L.same_undefined).mp rfl]
  have operands' : y.current.operands = [] := by
    rw [operands] at others
    exact List.forall₂_nil_left_iff.mp others
  have place := together.place trivial
  have active := together.active
  rw [alone] at place active
  have here : Abreast 0 0 first x.current.pc y.current.pc := begins.here ▸ place
  have pc : y.current.pc = codeWidth first := by
    rw [here.last_of (ends.trans (Nat.zero_add _).symm), Nat.zero_add]
  calc y.current
      = ⟨y.current.function, y.current.pc, y.current.slots, y.current.operands⟩ := rfl
    _ = ⟨O.right, codeWidth first, [.undefined], []⟩ := by
      rw [active.2, pc, slots', operands']

/-- The left machine comes to its end, and leaves the right one where that goes on. -/
theorem handed (together : Together L O True x y) (begins : O.Begins first) (fits : L.Fits)
    (alone : y.callers = []) (ends : x.current.pc = codeWidth first)
    (step : x.step = .ok .continue b)
    (leads : Leads sane S (OverOrFails (codeWidth first + 2) m₁.config.stackCapacity) n b)
    (same : Implements x m)
    (stops : m.Stops j (.ok v m₁)) (small : m₁.dictionary.size ≤ 2 ^ 32) :
    L.Handed O (codeWidth first) m₁ y := by
  obtain ⟨pushed, done⟩ := together.returns begins alone ends step
  have here : b.dictionary = L.left := by
    rw [pushed]
    exact together.left
  have config : b.config = m₁.config := by
    rw [pushed]
    exact same.config.trans stops.grown.config.symm
  have atEnd : Over (codeWidth first + 2) b := by
    cases leads with
    | here reached =>
      obtain atEnd | ⟨e, c, failed⟩ := reached (Nat.le_of_eq (congrArg _ config))
      · exact atEnd
      · cases done.symm.trans failed
    | next _ _ goes | overflow _ _ goes => cases done.symm.trans goes
    | outgrown _ big =>
      rw [here] at big
      exact absurd fits.left (Nat.not_le_of_lt big)
  have operands : x.current.operands = [] := by
    obtain ⟨w, only⟩ := atEnd.operands
    rw [pushed] at only
    exact (List.cons_eq_cons.mp only).2
  have slots : x.current.slots = [.undefined] := by
    have none := atEnd.slots (here ▸ fits.left)
    rwa [pushed] at none
  obtain ⟨m₂, begun, same₂⟩ := same.step_ok (stops.small_step small) step
  obtain ⟨j', stops₂⟩ := stops.of_continue begun
  obtain ⟨m₃, ended, same₃⟩ := same₂.step_ok (stops₂.small_step small) done
  cases stops₂.of_done ended
  have shows := same₃.shows small
  have world : m₁.world = x.world := shows.world
  have heap : m₁.heap = x.heap := shows.heap
  exact {
    since := together.since
    objects := together.objects
    stores := fun f => {
      config := same₃.config.symm.trans together.config
      left := same₃.dictionary.symm.trans together.left
      right := together.right
      worlds := by
        rw [show (FrameMachine.begin f m₁).world = x.world from world]
        exact together.worlds
      heaps := by
        rw [show (FrameMachine.begin f m₁).heap = x.heap from heap]
        exact together.heaps }
    outermost := world ▸ together.outermost
    running := together.running.2
    current := together.current_at_end begins fits alone ends slots operands
    callers := alone }

/-- Before the end of the common code there are corresponding instructions. -/
theorem fetches_before (together : Together L O True x y) (begins : O.Begins first)
    (before : ¬ (y.callers = [] ∧ x.current.pc = codeWidth first)) (alone : y.callers = []) :
    Fetches O.compiled O.leftCode O.rightCode O.here x.current.pc y.current.pc := by
  have place := together.place trivial
  rw [alone] at place
  have here : Abreast 0 0 first x.current.pc y.current.pc := begins.here ▸ place
  rw [begins.here]
  refine fetches_within begins.left.left.left begins.right begins.alike here fun ends => ?_
  exact before ⟨alone, ends.trans (Nat.zero_add _)⟩

/-- A function is not over before the end of the common code. -/
theorem not_over (together : Together L O True x y) (begins : O.Begins first) :
    ¬ Over (codeWidth first + 2) x := by
  intro atEnd
  have place := together.place trivial
  rw [together.waiting.nil_iff.mp atEnd.callers] at place
  have here : Abreast 0 0 first x.current.pc y.current.pc := begins.here ▸ place
  obtain ⟨before, after, rfl, left, -⟩ := here
  rw [atEnd.pc, codeWidth_append] at left
  omega

end Together

end Lockstep

/-- From the beginning of the common code on, one step at a time, the machines come to where the left
one has a result and the right one goes on. -/
theorem Outermost.Begins.runs {R : Renumbering} {L : Lockstep R} {O : Outermost R}
    {first : List Instr} {sane : FrameMachine → Prop} {S : Stretch} {n : Nat} {x y : FrameMachine}
    {v : Value} {m₁ : Engine} (begins : O.Begins first)
    (leads : Leads sane S (OverOrFails (codeWidth first + 2) m₁.config.stackCapacity) n x)
    {r : EStateM.Result RunError Engine Value} (small : m₁.dictionary.size ≤ 2 ^ 32)
    (small' : (stateOf r).dictionary.size ≤ 2 ^ 32) {m m' : Engine} {j j' : Nat}
    (together : L.Together O True x y) (same : Implements x m) (same' : Implements y m')
    (stops : m.Stops j (.ok v m₁)) (stops' : m'.Stops j' r) :
    ∃ (L' : Lockstep R) (y' : FrameMachine) (m'' : Engine) (k : Nat),
      L'.Handed O (codeWidth first) m₁ y' ∧ Implements y' m'' ∧ m''.Stops k r := by
  have fits {L : Lockstep R} {x y : FrameMachine} {m m' : Engine} {j j' : Nat}
      (stores : L.Stores x y) (same : Implements x m) (same' : Implements y m')
      (stops : m.Stops j (.ok v m₁)) (stops' : m'.Stops j' r) : L.Fits := by
    refine ⟨?_, ?_⟩
    · rw [← stores.left, same.dictionary]
      exact Nat.le_trans stops.grown.size_le small
    · rw [← stores.right, same'.dictionary]
      exact Nat.le_trans stops'.grown.size_le small'
  induction leads generalizing L y m m' j j' with
  | here reached =>
    have config := same.config.trans stops.grown.config.symm
    obtain atEnd | ⟨e, b, failed⟩ := reached (Nat.le_of_eq (congrArg _ config))
    · exact absurd atEnd (together.not_over begins)
    · obtain ⟨m₂, failed', -⟩ := same.step_error (stops.small_step small) failed
      cases stops.of_error failed'
  | overflow _ _ failed =>
    obtain ⟨m₂, failed', -⟩ := same.step_error (stops.small_step small) failed
    cases stops.of_error failed'
  | outgrown _ big =>
    have fits := fits together.toStores same same' stops stops'
    rw [together.left] at big
    exact absurd fits.left (Nat.not_le_of_lt big)
  | @next n a b _ _ step leads ih =>
    have fits := fits together.toStores same same' stops stops'
    by_cases ends : y.callers = [] ∧ a.current.pc = codeWidth first
    · obtain ⟨alone, ends⟩ := ends
      exact ⟨L, y, m', j', together.handed begins fits alone ends step leads same stops small,
        same', stops'⟩
    · have stepped := together.step fits (together.fetches_before begins ends)
      rw [step] at stepped
      generalize other : y.step = q at stepped
      cases stepped with
      | on _ together' =>
        obtain ⟨m₂, goes, same₂⟩ := same.step_ok (stops.small_step small) step
        obtain ⟨m₂', goes', same₂'⟩ := same'.step_ok (stops'.small_step small') other
        obtain ⟨k, stops₂⟩ := stops.of_continue goes
        obtain ⟨k', stops₂'⟩ := stops'.of_continue goes'
        exact ih together' same₂ same₂' stops₂ stops₂'

end TaggedScript
