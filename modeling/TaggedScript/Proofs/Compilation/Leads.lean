import TaggedScript.Proofs.Compilation.Heap
import TaggedScript.Proofs.Frames.Calls

/-!
Runs of a machine that lead somewhere within so many steps, unless the stack runs out of room before.
-/
namespace TaggedScript

/-- The part of a run that some code is given: the frames that wait below it, and its place in the
function that it begins in. No more than `limit` frames wait at once, and none has more words than
`frame`. -/
structure Stretch where
  outer : List CallFrame
  start : Nat
  stop : Nat
  limit : Nat
  frame : Nat

namespace Stretch

/-- The machine is in that part of the run: in the code or in a function that was called from it. -/
def Covers (S : Stretch) (a : FrameMachine) : Prop :=
  ∃ above, a.callers = above ++ S.outer ∧
    (above = [] → S.start ≤ a.current.pc ∧ a.current.pc < S.stop)

/-- A stack of that size has no room for all frames that there may be. -/
def Lacks (S : Stretch) (capacity : Nat) : Prop := capacity < (S.limit + 1) * S.frame

end Stretch

/-- A machine comes to a goal within `n` steps, or its stack overflows; until then it is sane, and in
its part of the run. What happens once its dictionary has outgrown the words does not matter. -/
inductive Leads (sane : FrameMachine → Prop) (S : Stretch) (goal : FrameMachine → Prop) :
    Nat → FrameMachine → Prop
  | here {n : Nat} {a : FrameMachine} : goal a → Leads sane S goal n a
  | next {n : Nat} {a b : FrameMachine} : sane a → S.Covers a →
      a.step = .ok .continue b → Leads sane S goal n b → Leads sane S goal (n + 1) a
  | overflow {n : Nat} {a b : FrameMachine} {capacity : Nat} {trace : List String} :
      sane a → S.Covers a → a.step = .error (.fatal (.stackOverflow capacity) trace) b →
      S.Lacks b.config.stackCapacity → sane b → Leads sane S goal (n + 1) a
  | outgrown {n : Nat} {a : FrameMachine} :
      sane a → 2 ^ 32 < a.dictionary.size → Leads sane S goal n a

namespace Leads
variable {sane goal goal' : FrameMachine → Prop} {S : Stretch} {n k : Nat} {a : FrameMachine}

theorem more (h : Leads sane S goal n a) (le : n ≤ k) : Leads sane S goal k a := by
  induction h generalizing k with
  | here reached => exact .here reached
  | next good inside step _ ih =>
    cases k with
    | zero => omega
    | succ k => exact .next good inside step (ih (Nat.le_of_succ_le_succ le))
  | overflow good inside step lacks left =>
    cases k with
    | zero => omega
    | succ k => exact .overflow good inside step lacks left
  | outgrown good big => exact .outgrown good big

/-- What a goal leads to is led to. -/
theorem trans (h : Leads sane S goal n a) (next : ∀ b, goal b → Leads sane S goal' k b) :
    Leads sane S goal' (n + k) a := by
  induction h with
  | here reached => exact (next _ reached).more (Nat.le_add_left _ _)
  | @next n a b good inside step _ ih =>
    rw [Nat.add_right_comm]
    exact .next good inside step ih
  | overflow good inside step lacks left =>
    rw [Nat.add_right_comm]
    exact .overflow good inside step lacks left
  | outgrown good big => exact .outgrown good big

theorem isSane (h : Leads sane S goal n a) (atGoal : ∀ b, goal b → sane b) : sane a := by
  cases h with
  | here reached => exact atGoal a reached
  | next good => exact good
  | overflow good => exact good
  | outgrown good => exact good

theorem weaken (h : Leads sane S goal n a) (le : ∀ b, goal b → goal' b) : Leads sane S goal' n a :=
  h.trans (k := 0) fun b reached => .here (le b reached)

end Leads

namespace FrameMachine
variable {a b : FrameMachine}

/-- The machine with the position moved on. -/
def moveTo (a : FrameMachine) (pc : Nat) : FrameMachine :=
  { a with current := { a.current with pc } }

theorem next_eq {i : Instr} (fetched : a.code.fetch a.current.pc = .ok i) :
    FrameExec.next a = FrameExec.execute i (a.moveTo (a.current.pc + i.width)) := by
  simp only [FrameExec.next, bind_eq, get_eq, fetched]
  rfl

theorem step_continue (running : a.status = .running) (h : FrameExec.next a = .ok none b) :
    a.step = .ok .continue b := by
  simp only [step, running, h]

theorem step_done {v : Value} (running : a.status = .running)
    (h : FrameExec.next a = .ok (some v) b) :
    a.step = .ok (.done v) { b with status := .done v } := by
  simp only [step, running, h]

theorem step_error {fault : Fault} (running : a.status = .running)
    (h : FrameExec.next a = .error fault b) :
    a.step = .error (b.raise fault) { b with status := .idle } := by
  simp only [step, running, h]

end FrameMachine
end TaggedScript
