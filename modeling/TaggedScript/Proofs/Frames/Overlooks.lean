import TaggedScript.Proofs.Effects
import TaggedScript.Machine.Engine

/-!
The parts of a step that act on the stack and the dictionary of a machine and on its place in the
code, and on nothing else.
-/
namespace TaggedScript

/-- A relation of machines that overlooks the stack, the place in the code, and new entries of the
dictionary. -/
structure Engine.Overlooks (R : Engine → Engine → Prop) : Prop where
  refl : ∀ m, R m m
  trans : ∀ m n k, R m n → R n k → R m k
  stack : ∀ (m : Engine) (stack : Stack), R m { m with stack }
  dictionary : ∀ (m : Engine) (v : Value), R m { m with dictionary := (encode v m.dictionary).2 }
  place : ∀ (m : Engine) (function : Option ObjectId) (pc : Nat), R m { m with function, pc }

/-- The instructions that may change the world or the heap. -/
def Instr.isEffect : Instr → Bool
  | register _ | funcall _ | new _ | put _ | print => true
  | _ => false

namespace Engine.Overlooks
variable {R : Engine → Engine → Prop} {α β : Type} (h : Overlooks R)
include h

theorem bind {x : Exec α} {f : α → Exec β} (hx : Keeps R x) (hf : ∀ a, Keeps R (f a)) :
    Keeps R (x >>= f) := Keeps.bind h.trans hx hf

theorem pure (a : α) : Keeps R (Pure.pure a : Exec α) := Keeps.pure h.refl a

theorem throw (e : Fault) : Keeps R (throw e : Exec α) := Keeps.throw h.refl e

theorem get : Keeps R (get : Exec Engine) := Keeps.get h.refl

theorem inspect (f : Stack → Except StackFault α) : Keeps R (Exec.inspect f) := by
  intro m
  unfold Exec.inspect
  split <;> exact h.refl m

theorem onStack (f : OnStack α) : Keeps R (Exec.onStack f) := by
  intro m
  simp only [Exec.onStack]
  split <;> exact h.stack m _

theorem readHeap (f : Heap → World → Dictionary → Except HeapFault α) :
    Keeps R (Exec.readHeap f) := by
  intro m
  unfold Exec.readHeap
  split <;> exact h.refl m

theorem jump (target : Nat) : Keeps R (Exec.jump target) := fun m => h.place m m.function target

theorem push (w : Word) : Keeps R (Exec.push w) := h.onStack _

theorem pop : Keeps R Exec.pop := h.onStack _

theorem encodeValue (v : Value) : Keeps R (Exec.encodeValue v) := fun m => h.dictionary m v

theorem decodeWord (w : Word) : Keeps R (Exec.decodeWord w) := by
  apply h.bind h.get
  intro m
  cases decode m.dictionary m.heap w with
  | ok v => exact h.pure v
  | error e => exact h.throw _

theorem mapM_decodeWord (ws : List Word) : Keeps R (ws.mapM Exec.decodeWord) := by
  induction ws with
  | nil => exact h.pure []
  | cons w ws ih =>
    rw [List.mapM_cons]
    apply h.bind (h.decodeWord w)
    intro v
    exact h.bind ih fun vs => h.pure _

theorem nameOf (w : Word) : Keeps R (Exec.nameOf w) := by
  apply h.bind h.get
  intro m
  split
  · exact h.pure _
  · exact h.throw _

theorem targetOf (w : Word) (field : String) : Keeps R (Exec.targetOf w field) := by
  apply h.bind (h.decodeWord w)
  intro v
  split
  · exact h.pure _
  · exact h.pure _
  · exact h.bind h.get fun _ => h.throw _

theorem getField (name : Word) : Keeps R (Exec.getField name) := by
  apply h.bind (h.nameOf name)
  intro field
  apply h.bind h.pop
  intro receiver
  apply h.bind (h.targetOf receiver field)
  intro target
  cases target with
  | record offset => exact h.bind (h.readHeap _) h.push
  | host id => exact h.bind h.get fun m => h.bind (h.encodeValue _) h.push

theorem enter (id : ObjectId) (code : Code) (argc : Nat) : Keeps R (Exec.enter id code argc) := by
  apply h.bind h.get
  intro m
  have begin (caller : Word) : Keeps R (do
      Exec.onStack (Stack.pushFrame ⟨m.stack.pointer - (argc + 1), code.slotCount⟩
        ⟨m.stack.frame.base, some m.pc, caller⟩)
      modify fun n => { n with function := some id, pc := 0 } : Exec Unit) :=
    h.bind (h.onStack _) fun _ m => h.place m _ _
  cases m.function with
  | some f =>
    simp only
    split
    · exact h.bind (h.throw _) fun _ => h.bind (h.encodeValue _) begin
    · exact h.bind (h.encodeValue _) begin
  | none =>
    simp only
    split
    · exact h.bind (h.throw _) fun _ => begin _
    · exact begin _

theorem leave : Keeps R Exec.leave := by
  apply h.bind h.pop
  intro w
  apply h.bind (h.inspect _)
  intro record
  cases record.savedPc with
  | none =>
    apply h.bind (h.decodeWord w)
    intro v
    exact h.bind (fun m => h.stack m _) fun _ => h.pure (some v)
  | some pc =>
    intro m
    have resume (caller : ObjectId) : Keeps R (do
        Exec.push w
        modify fun m => { m with function := some caller, pc }
        return none : Exec (Option Value)) :=
      h.bind (h.push w) fun _ => h.bind (fun m => h.place m _ _) fun _ => h.pure none
    simp only [bind_eq, get_eq]
    cases owner : m.callerOf record.caller with
    | error e =>
      simp only [MonadExcept.ofExcept]
      exact h.refl m
    | ok caller =>
      simp only [MonadExcept.ofExcept]
      exact h.trans _ _ _ (h.stack m _) (resume caller _)

/-- The other instructions act on nothing else. -/
theorem execute {i : Instr} (quiet : i.isEffect = false) : Keeps R (Exec.execute i) := by
  cases i with
  | register | funcall | new | put | print => cases quiet
  | const w => exact h.bind (h.push w) fun _ => h.pure _
  | lookup name =>
    exact h.bind (h.nameOf name) fun x => h.bind h.get fun m => h.bind (h.encodeValue _) fun w =>
      h.bind (h.push w) fun _ => h.pure _
  | load i => exact h.bind (h.inspect _) fun w => h.bind (h.push w) fun _ => h.pure _
  | store i => exact h.bind h.pop fun w => h.bind (h.onStack _) fun _ => h.pure _
  | dup => exact h.bind (h.inspect _) fun w => h.bind (h.push w) fun _ => h.pure _
  | pop => exact h.bind h.pop fun _ => h.pure _
  | swap => exact h.bind (h.onStack _) fun _ => h.pure _
  | ret => exact h.leave
  | goto target => exact h.bind (h.jump target) fun _ => h.pure _
  | jumpIfFalse target =>
    apply h.bind h.pop
    intro w
    split
    · exact h.bind (h.jump target) fun _ => h.pure _
    · exact h.pure _
  | get name => exact h.bind (h.getField name) fun _ => h.pure _

end Engine.Overlooks
end TaggedScript
