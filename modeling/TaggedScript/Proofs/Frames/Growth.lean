import TaggedScript.Proofs.Frames.Overlooks
import TaggedScript.Proofs.WorldLaws

/-!
The dictionary of a machine only grows, its configuration stays, and its world keeps its functions
and classes and gets no others, however its steps end.
-/
namespace TaggedScript

/-- The functions without code print or apply an operator. -/
def World.OnlyBuiltins (w : World) : Prop := ∀ id n, (w.object id).body = .native n →
  n = .print ∨ ∃ op, n = .operator op

namespace World.OnlyBuiltins
variable {w : World}

theorem same (h : w.OnlyBuiltins) {v : World}
    (bodies : ∀ id, (v.object id).body = (w.object id).body) : v.OnlyBuiltins :=
  fun id n native => h id n ((bodies id).symm.trans native)

/-- Builtin functions leave the functions and the classes alone. -/
theorem invoke (h : w.OnlyBuiltins) (id : ObjectId) (receiver : Value) (args : List Value) :
    w.Fixed (stateOf (TaggedScript.invoke id receiver args w)) := by
  have same : w.Fixed w := .refl w
  simp only [TaggedScript.invoke, bind_eq, get_eq]
  generalize callLimit w = limit
  unfold invokeWithin
  simp only [bind_eq, get_eq]
  cases body : (w.object id).body with
  | plain | compiled code => exact same
  | native n =>
    obtain rfl | ⟨op, rfl⟩ := h id n body
    · by_cases closed : w.closed = true
      · simp only [printValues, bind_eq, get_eq, writeLine, closed, ↓reduceIte]
        exact same
      · simp only [printValues, bind_eq, get_eq, writeLine, closed, Bool.false_eq_true, ↓reduceIte]
        exact .of_objects rfl rfl
    · simp only [callOperator]
      split
      · rename_i a b
        simp only [bind_eq, get_eq]
        cases op.apply w a b <;> exact same
      · exact same

end World.OnlyBuiltins

/-- The entries of one machine are the first entries of the other, their configurations are the
same, and so are their functions and classes if those without code are builtin. -/
structure Engine.Grown (m n : Engine) : Prop where
  dictionary : m.dictionary.Extends n.dictionary
  config : n.config = m.config
  fixed : m.world.OnlyBuiltins → m.world.Fixed n.world

namespace Engine.Grown

theorem of_same {m n : Engine} (dictionary : n.dictionary = m.dictionary)
    (config : n.config = m.config) (world : n.world = m.world) : m.Grown n where
  dictionary := dictionary ▸ .refl _
  config := config
  fixed _ := world ▸ .refl _

theorem refl (m : Engine) : m.Grown m := of_same rfl rfl rfl

theorem builtins {m n : Engine} (h : m.Grown n) (known : m.world.OnlyBuiltins) :
    n.world.OnlyBuiltins := known.same (h.fixed known).body

theorem trans {m n k : Engine} (h : m.Grown n) (g : n.Grown k) : m.Grown k where
  dictionary := h.dictionary.trans g.dictionary
  config := g.config.trans h.config
  fixed known := (h.fixed known).trans (g.fixed (h.builtins known))

theorem size_le {m n : Engine} (h : m.Grown n) : m.dictionary.size ≤ n.dictionary.size :=
  h.dictionary.size_le

end Engine.Grown

/-- What a machine has grown by is not on its stack. -/
theorem Engine.overlooks_grown : Engine.Overlooks Engine.Grown where
  refl := .refl
  trans _ _ _ := .trans
  stack _ _ := .of_same rfl rfl rfl
  dictionary m v := ⟨encode_extends v m.dictionary, rfl, fun _ => .refl _⟩
  place _ _ _ := .of_same rfl rfl rfl

/-- An action removes no entry of the dictionary. -/
abbrev Grows {α : Type} (x : Exec α) : Prop := Keeps Engine.Grown x

namespace Grows
open Engine (overlooks_grown)
variable {α β : Type}

theorem bind {x : Exec α} {f : α → Exec β} (hx : Grows x) (hf : ∀ a, Grows (f a)) :
    Grows (x >>= f) := overlooks_grown.bind hx hf

/-- The last action only gives the result. -/
theorem returns {x : Exec α} (h : Grows x) (b : β) : Grows (x >>= fun _ => Pure.pure b) :=
  h.bind fun _ => overlooks_grown.pure b

theorem onHeap (f : OnHeap α) : Grows (Exec.onHeap f) := by
  intro m
  simp only [Exec.onHeap]
  split <;> exact .of_same rfl rfl rfl

theorem modifyWorld (f : Engine → World) (h : ∀ m : Engine, m.world.Fixed (f m)) :
    Grows (modify fun m => { m with world := f m }) :=
  fun m => ⟨Dictionary.Extends.refl _, rfl, fun _ => h m⟩

theorem callHost (callee : ObjectId) (receiver : Value) (args : List Value) :
    Grows (Exec.onWorld (invoke callee receiver args)) := by
  intro m
  have fixed (known : m.world.OnlyBuiltins) := known.invoke callee receiver args
  simp only [Exec.onWorld]
  split <;> rename_i called <;> rw [called] at fixed <;>
    exact ⟨Dictionary.Extends.refl _, rfl, fixed⟩

theorem newRecord (shape : Word) : Grows (Exec.newRecord shape) := by
  have allocate (width : Nat) := bind (overlooks_grown.inspect (·.top width)) fun fields =>
    (onHeap (Heap.allocate shape fields)).bind fun offset =>
      bind (overlooks_grown.onStack (Stack.dropTop width)) fun _ =>
        overlooks_grown.push (.heap offset)
  apply bind (overlooks_grown.decodeWord shape)
  intro v
  split
  · exact bind overlooks_grown.get fun m => allocate _
  · exact bind overlooks_grown.get fun m => overlooks_grown.throw _

theorem putField (name : Word) : Grows (Exec.putField name) := by
  apply bind (overlooks_grown.nameOf name)
  intro field
  apply bind overlooks_grown.pop
  intro value
  apply bind overlooks_grown.pop
  intro receiver
  apply bind (overlooks_grown.targetOf receiver field)
  intro target
  cases target with
  | record offset => exact bind overlooks_grown.get fun m => onHeap _
  | host id =>
    exact bind (overlooks_grown.decodeWord value) fun v =>
      modifyWorld (fun m => m.world.setField id field v) fun m => .setField m.world id field v

theorem printTop : Grows Exec.printTop := by
  apply bind overlooks_grown.pop
  intro w
  apply bind (overlooks_grown.decodeWord w)
  intro v
  apply bind overlooks_grown.get
  intro m
  simp only
  split
  · split
    · exact (callHost _ _ _).bind fun _ => overlooks_grown.push _
    · exact overlooks_grown.throw _
  · exact overlooks_grown.throw _

theorem callNative (id : ObjectId) (argc : Nat) : Grows (Exec.callNative id argc) := by
  apply bind (overlooks_grown.inspect _)
  intro ws
  apply bind (overlooks_grown.mapM_decodeWord ws)
  intro values
  apply (callHost _ _ _).bind
  intro result
  apply bind (overlooks_grown.onStack _)
  intro _
  exact bind (overlooks_grown.encodeValue result) overlooks_grown.push

theorem call (argc : Nat) : Grows (Exec.call argc) := by
  apply bind (overlooks_grown.inspect _)
  intro w
  apply bind (overlooks_grown.decodeWord w)
  intro callee
  apply bind overlooks_grown.get
  intro m
  simp only
  split
  · split
    · exact callNative _ _
    · exact overlooks_grown.enter _ _ _
    · exact overlooks_grown.throw _
  · exact overlooks_grown.throw _

theorem execute (i : Instr) : Grows (Exec.execute i) := by
  by_cases effect : i.isEffect = false
  · exact overlooks_grown.execute effect
  cases i with
  | register name =>
    exact bind (overlooks_grown.nameOf name) fun x => bind overlooks_grown.pop fun w =>
      bind (overlooks_grown.decodeWord w) fun v =>
        (modifyWorld (·.world.setGlobal x v) fun _ => .of_objects rfl rfl).returns none
  | funcall argc => exact (call argc).returns none
  | new shape => exact (newRecord shape).returns none
  | put name => exact (putField name).returns none
  | print => exact printTop.returns none
  | _ => exact absurd rfl effect

theorem next : Grows Exec.next := by
  apply bind overlooks_grown.get
  intro m
  split
  · exact overlooks_grown.throw _
  · exact bind (overlooks_grown.jump _) fun _ => execute _

end Grows

theorem Engine.grown_step (m : Engine) : m.Grown (stateOf (m.step)) := by
  have grown := Grows.next m
  unfold Engine.step
  split
  · exact .of_same rfl rfl rfl
  · exact .of_same rfl rfl rfl
  · split <;> rename_i ended <;> rw [ended] at grown <;>
      exact ⟨grown.dictionary, grown.config, grown.fixed⟩

theorem Engine.step_of_still {m : Engine} (still : m.status ≠ .running) : stateOf m.step = m := by
  unfold step
  cases status : m.status with
  | running => exact absurd status still
  | idle | done => rfl

end TaggedScript
