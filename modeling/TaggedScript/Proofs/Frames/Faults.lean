import TaggedScript.Proofs.Compilation.Histories
import TaggedScript.Proofs.Frames.Capacity
import TaggedScript.Proofs.Agreement.Reading

/-!
What is left of a step that failed. The heap, the globals and the fields of objects are as they were
before it, with one exception: on a full stack, `NEW` makes a record without fields before it finds
no room for the reference to it.
-/
namespace TaggedScript

/-- Globals and the fields of objects are the same. There may be new objects. -/
structure World.SameData (w v : World) : Prop where
  size : w.objects.size ≤ v.objects.size
  globals : ∀ x, v.global x = w.global x
  fields : ∀ id : ObjectId, id.index < w.objects.size →
    (v.object id).fields = (w.object id).fields

namespace World.SameData
variable {w v u : World}

theorem refl (w : World) : w.SameData w := ⟨Nat.le_refl _, fun _ => rfl, fun _ _ => rfl⟩

theorem trans (h : w.SameData v) (g : v.SameData u) : w.SameData u where
  size := Nat.le_trans h.size g.size
  globals x := (g.globals x).trans (h.globals x)
  fields id known := (g.fields id (Nat.lt_of_lt_of_le known h.size)).trans (h.fields id known)

end World.SameData

/-- The functions without code change no global and no field when they fail. -/
def World.FailsCleanly (w : World) : Prop := ∀ id receiver args e v,
  invoke id receiver args w = .error e v → w.SameData v

/-- The builtins fail before they do anything. -/
theorem World.OnlyBuiltins.failsCleanly {w : World} (h : w.OnlyBuiltins) : w.FailsCleanly := by
  intro id receiver args e v failed
  suffices same : v = w from same ▸ .refl w
  simp only [TaggedScript.invoke, bind_eq, get_eq] at failed
  generalize callLimit w = limit at failed
  unfold invokeWithin at failed
  simp only [bind_eq, get_eq] at failed
  cases body : (w.object id).body with
  | plain | compiled code =>
    rw [body] at failed
    cases failed
    rfl
  | native n =>
    rw [body] at failed
    obtain rfl | ⟨op, rfl⟩ := h id n body
    · simp only [printValues, bind_eq, get_eq, writeLine] at failed
      split at failed <;> rename_i written
      · cases failed
      · split at written <;> cases written
        cases failed
        rfl
    · rcases args with _ | ⟨a, _ | ⟨b, _ | ⟨c, args⟩⟩⟩
      case cons.cons.nil =>
        simp only [callOperator, bind_eq, get_eq] at failed
        cases applied : op.apply w a b <;> rw [applied] at failed <;> cases failed
        rfl
      all_goals
        cases failed
        rfl

/-- The heap, the globals and the fields of objects are the same. -/
structure Engine.SameMemory (m n : Engine) : Prop where
  heap : n.heap = m.heap
  world : m.world.SameData n.world

namespace Engine.SameMemory
variable {m n k : Engine}

theorem refl (m : Engine) : m.SameMemory m := ⟨rfl, .refl _⟩

theorem trans (h : m.SameMemory n) (g : n.SameMemory k) : m.SameMemory k :=
  ⟨g.heap.trans h.heap, h.world.trans g.world⟩

end Engine.SameMemory

theorem Engine.overlooks_sameMemory : Engine.Overlooks Engine.SameMemory where
  refl := .refl
  trans _ _ _ := .trans
  stack m _ := ⟨rfl, .refl m.world⟩
  dictionary m _ := ⟨rfl, .refl m.world⟩
  place m _ _ := ⟨rfl, .refl m.world⟩

section
variable {α β : Type}

/-- If the action fails on this machine, it has not changed its memory. -/
def Harmless (x : Exec α) (m : Engine) : Prop := ∀ e n, x m = .error e n → m.SameMemory n

namespace Harmless
variable {x : Exec α} {f : α → Exec β} {m : Engine}

theorem of_keeps (h : Keeps Engine.SameMemory x) : Harmless x m := by
  intro e n failed
  have kept := h m
  rwa [failed] at kept

/-- What comes first changes no memory, so it does not matter where the second action fails. -/
theorem bind (hx : Keeps Engine.SameMemory x) (hf : ∀ a n, x m = .ok a n → Harmless (f a) n) :
    Harmless (x >>= f) m := by
  intro e n failed
  have first := hx m
  rw [bind_eq] at failed
  cases result : x m with
  | error e' k =>
    rw [result] at first failed
    cases failed
    exact first
  | ok a k =>
    rw [result] at first failed
    exact first.trans (hf a k result e n failed)

/-- What comes first may change memory, and the second action cannot fail after it. -/
theorem commit (hx : Harmless x m) (hf : ∀ a n, x m = .ok a n → ∃ b k, f a n = .ok b k) :
    Harmless (x >>= f) m := by
  intro e n failed
  rw [bind_eq] at failed
  cases result : x m with
  | error e' k =>
    rw [result] at failed
    cases failed
    exact hx e n result
  | ok a k =>
    obtain ⟨b, k', done⟩ := hf a k result
    rw [result] at failed
    cases done.symm.trans failed

theorem returns (hx : Harmless x m) (b : β) : Harmless (x >>= fun _ => Pure.pure b) m :=
  hx.commit fun _ n _ => ⟨b, n, rfl⟩

/-- A change that cannot fail. -/
theorem change (f : Engine → Engine) : Harmless (modify f) m := fun e n failed => by cases failed

theorem onWorld {f : Action α} (h : ∀ e v, f m.world = .error e v → m.world.SameData v) :
    Harmless (Exec.onWorld f) m := by
  intro e n failed
  simp only [Exec.onWorld] at failed
  cases result : f m.world with
  | ok a v =>
    rw [result] at failed
    cases failed
  | error e' v =>
    rw [result] at failed
    cases failed
    exact ⟨rfl, h e' v result⟩

end Harmless
end

section
variable {α : Type} {m n : Engine}

theorem Exec.inspect_ok {f : Stack → Except StackFault α} {a : α}
    (h : Exec.inspect f m = .ok a n) : f m.stack = .ok a ∧ n = m := by
  rw [inspect_eq] at h
  cases read : f m.stack with
  | ok b =>
    rw [read] at h
    cases h
    exact ⟨rfl, rfl⟩
  | error e =>
    rw [read] at h
    cases h

theorem Exec.decodeWord_ok {w : Word} {v : Value} (h : Exec.decodeWord w m = .ok v n) :
    decode m.dictionary m.heap w = .ok v ∧ n = m := by
  rw [decodeWord_engine] at h
  cases means : decode m.dictionary m.heap w with
  | ok u =>
    rw [means] at h
    cases h
    exact ⟨rfl, rfl⟩
  | error e =>
    rw [means] at h
    cases h

theorem Exec.mapM_decodeWord_ok {ws : List Word} {vs : List Value}
    (h : ws.mapM Exec.decodeWord m = .ok vs n) : n = m := by
  induction ws generalizing vs m with
  | nil => exact (ok_of_pure h).2.symm
  | cons w ws ih =>
    rw [List.mapM_cons] at h
    obtain ⟨v, k, first, rest⟩ := ok_of_bind h
    obtain ⟨us, k', more, last⟩ := ok_of_bind rest
    obtain ⟨-, rfl⟩ := Exec.decodeWord_ok first
    obtain ⟨-, rfl⟩ := ok_of_pure last
    exact ih more

theorem Exec.onWorld_ok {f : Action α} {a : α} (h : Exec.onWorld f m = .ok a n) :
    n.stack = m.stack := by
  simp only [Exec.onWorld] at h
  split at h <;> cases h
  rfl

/-- What was popped leaves room for one word. -/
theorem Exec.pop_room {w : Word} (inside : m.stack.pointer ≤ m.stack.capacity)
    (h : Exec.pop m = .ok w n) : n.stack.pointer < n.stack.capacity := by
  obtain ⟨above, rfl⟩ := Exec.pop_ok h
  simp only
  omega

theorem Exec.pop_world {w : Word} (h : Exec.pop m = .ok w n) : n.world = m.world := by
  obtain ⟨-, rfl⟩ := Exec.pop_ok h
  rfl

end

namespace Harmless
open Engine (overlooks_sameMemory)
variable {m : Engine}

theorem register (name : Word) : Harmless (Exec.execute (.register name)) m :=
  bind (overlooks_sameMemory.nameOf name) fun _ _ _ =>
    bind overlooks_sameMemory.pop fun w _ _ =>
      bind (overlooks_sameMemory.decodeWord w) fun _ _ _ => (change _).returns none

theorem putField (name : Word) : Harmless (Exec.putField name) m := by
  apply bind (overlooks_sameMemory.nameOf name)
  intro field _ _
  apply bind overlooks_sameMemory.pop
  intro value _ _
  apply bind overlooks_sameMemory.pop
  intro receiver _ _
  apply bind (overlooks_sameMemory.targetOf receiver field)
  intro target n _
  cases target with
  | host id => exact bind (overlooks_sameMemory.decodeWord value) fun v _ _ => change _
  | record offset =>
    apply bind overlooks_sameMemory.get
    intro m' n' _ e k failed
    simp only [Exec.onHeap, Heap.setField] at failed
    cases place : n'.heap.fieldPlace m'.world m'.dictionary offset field <;>
      rw [place] at failed <;> cases failed
    exact .refl n'

/-- What `print` was handed leaves room for what it gives back. -/
theorem printTop (inside : m.stack.pointer ≤ m.stack.capacity) (clean : m.world.FailsCleanly) :
    Harmless Exec.printTop m := by
  apply bind overlooks_sameMemory.pop
  intro w n popped
  have room := Exec.pop_room inside popped
  have world : n.world = m.world := Exec.pop_world popped
  apply bind (overlooks_sameMemory.decodeWord w)
  intro v n' decoded
  obtain ⟨-, rfl⟩ := Exec.decodeWord_ok decoded
  apply bind overlooks_sameMemory.get
  intro m' n' got
  cases got
  simp only
  split
  · split
    · apply commit
      · apply onWorld
        rw [world]
        exact clean _ _ _
      · intro _ k done
        rw [← Exec.onWorld_ok done] at room
        exact ⟨_, _, push_ok room _⟩
    · exact of_keeps (overlooks_sameMemory.throw _)
  · exact of_keeps (overlooks_sameMemory.throw _)

/-- A function without code leaves the call, which its result takes the place of. -/
theorem callNative {id : ObjectId} {argc : Nat} (inside : m.stack.pointer ≤ m.stack.capacity)
    (enough : m.stack.floor + (argc + 2) ≤ m.stack.pointer) (clean : m.world.FailsCleanly) :
    Harmless (Exec.callNative id argc) m := by
  apply bind (overlooks_sameMemory.inspect _)
  intro ws n looked
  obtain ⟨-, rfl⟩ := Exec.inspect_ok looked
  apply bind (overlooks_sameMemory.mapM_decodeWord ws)
  intro values n' decoded
  obtain rfl := Exec.mapM_decodeWord_ok decoded
  apply commit (onWorld (clean _ _ _))
  intro result k called
  have stack := Exec.onWorld_ok called
  have dropped : ¬ k.stack.pointer < k.stack.floor + (argc + 2) := by
    rw [stack]
    omega
  simp only [bind_eq, onStack_eq, Stack.dropTop, if_neg dropped, encodeValue_engine]
  refine ⟨_, _, push_ok ?_ _⟩
  simp only [stack]
  omega

theorem call {argc : Nat} (inside : m.stack.pointer ≤ m.stack.capacity)
    (clean : m.world.FailsCleanly) : Harmless (Exec.call argc) m := by
  apply bind (overlooks_sameMemory.inspect _)
  intro w n looked
  obtain ⟨peeked, rfl⟩ := Exec.inspect_ok looked
  apply bind (overlooks_sameMemory.decodeWord w)
  intro callee n' decoded
  obtain ⟨-, rfl⟩ := Exec.decodeWord_ok decoded
  apply bind overlooks_sameMemory.get
  intro m' n' got
  cases got
  simp only
  split
  · split
    · apply callNative inside _ clean
      unfold Stack.peekAt at peeked
      split at peeked
      · cases peeked
      · omega
    · exact of_keeps (overlooks_sameMemory.enter _ _ _)
    · exact of_keeps (overlooks_sameMemory.throw _)
  · exact of_keeps (overlooks_sameMemory.throw _)

end Harmless

/-- A record without fields was made, and then there was no room on the stack to refer to it. -/
structure Engine.Strands (m : Engine) (shape : Word) (n : Engine) : Prop where
  bare : ∃ id, decode m.dictionary m.heap shape = .ok (.shape id) ∧ (m.world.shape id).fields = []
  full : m.stack.pointer = m.stack.capacity
  world : n.world = m.world
  heap : n.heap = { m.heap with words := m.heap.words ++ [shape, Heap.mark] }

section
variable {m n : Engine} {e : Fault} {shape : Word}

/-- There is room for the record, or nothing is done. -/
theorem Exec.allocate_cases (shape : Word) (fields : List Word) (m : Engine) :
    (∃ e, Exec.onHeap (Heap.allocate shape fields) m = .error e m) ∨
    ∃ offset, Exec.onHeap (Heap.allocate shape fields) m =
      .ok offset { m with heap.words := m.heap.words ++ shape :: Heap.mark :: fields } := by
  simp only [onHeap, Heap.allocate]
  by_cases full : m.heap.available < Heap.headerSize + fields.length
  · rw [if_pos full]
    exact .inl ⟨_, rfl⟩
  rw [if_neg full]
  by_cases far : 4294967296 ≤ m.heap.pointer
  · rw [if_pos far]
    exact .inl ⟨_, rfl⟩
  · rw [if_neg far]
    exact .inr ⟨_, rfl⟩

/-- The fields of a record leave room for the reference to it, if there are any. -/
theorem Exec.record_error {width : Nat} (inside : m.stack.pointer ≤ m.stack.capacity)
    (failed : (do
      let fields ← Exec.inspect (·.top width)
      let offset ← Exec.onHeap (Heap.allocate shape fields)
      Exec.onStack (Stack.dropTop width)
      Exec.push (.heap offset)) m = .error e n) :
    n = m ∨ width = 0 ∧ m.stack.pointer = m.stack.capacity ∧
      e = .fatal (.stackOverflow m.stack.capacity) ∧
      n = { m with heap.words := m.heap.words ++ [shape, Heap.mark] } := by
  simp only [bind_eq, inspect_eq, Stack.top] at failed
  by_cases few : m.stack.pointer < m.stack.floor + width
  · rw [if_pos few] at failed
    cases failed
    exact .inl rfl
  rw [if_neg few] at failed
  simp only at failed
  obtain ⟨e', none⟩ | ⟨offset, made⟩ :=
    allocate_cases shape (m.stack.between (m.stack.pointer - width) m.stack.pointer) m
  · rw [none] at failed
    cases failed
    exact .inl rfl
  · rw [made] at failed
    have enough : ¬ m.stack.pointer < Stack.floor m.stack + width := few
    simp only [onStack_eq, Stack.dropTop, if_neg enough, Exec.push, Stack.push_eq] at failed
    by_cases full : m.stack.capacity ≤ m.stack.pointer - width
    · rw [if_pos full] at failed
      cases failed
      -- the stack was no fuller than this before the fields were dropped, so there were none
      obtain rfl | some := Nat.eq_zero_or_pos width
      · refine .inr ⟨rfl, Nat.le_antisymm inside full, rfl, ?_⟩
        simp [Stack.between]
      · omega
    · rw [if_neg full] at failed
      cases failed

theorem Exec.newRecord_error (inside : m.stack.pointer ≤ m.stack.capacity)
    (failed : Exec.newRecord shape m = .error e n) :
    m.SameMemory n ∨ m.Strands shape n ∧ e = .fatal (.stackOverflow m.stack.capacity) := by
  rw [newRecord, bind_eq, decodeWord_engine] at failed
  cases means : decode m.dictionary m.heap shape with
  | error e =>
    rw [means] at failed
    cases failed
    exact .inl (.refl m)
  | ok v =>
    rw [means] at failed
    cases v with
    | shape id =>
      obtain rfl | ⟨bare, full, fault, rfl⟩ := record_error inside failed
      · exact .inl (.refl n)
      · refine .inr ⟨?_, fault⟩
        constructor
        case bare => exact ⟨id, means, List.length_eq_zero_iff.mp bare⟩
        case full => exact full
        case world => rfl
        case heap => rfl
    | _ =>
      cases failed
      exact .inl (.refl m)

/-- Only `NEW` does something before it finds that it fails. -/
theorem Exec.execute_error {i : Instr} (inside : m.stack.pointer ≤ m.stack.capacity)
    (clean : m.world.FailsCleanly) (failed : Exec.execute i m = .error e n) :
    m.SameMemory n ∨ ∃ shape, i = .new shape ∧ m.Strands shape n ∧
      e = .fatal (.stackOverflow m.stack.capacity) := by
  by_cases quiet : i.isEffect = false
  · exact .inl (Harmless.of_keeps (Engine.overlooks_sameMemory.execute quiet) e n failed)
  cases i with
  | register name => exact .inl (Harmless.register name e n failed)
  | funcall argc => exact .inl ((Harmless.call inside clean).returns none e n failed)
  | put name => exact .inl ((Harmless.putField name).returns none e n failed)
  | print => exact .inl ((Harmless.printTop inside clean).returns none e n failed)
  | new shape =>
    rw [execute, bind_eq] at failed
    cases made : Exec.newRecord shape m with
    | ok u k =>
      rw [made] at failed
      cases failed
    | error e' k =>
      rw [made] at failed
      cases failed
      exact (newRecord_error inside made).imp_right fun strands => ⟨shape, rfl, strands⟩
  | _ => exact absurd rfl quiet

/-- To go past the instruction changes nothing that its failure shows. -/
theorem Exec.next_error (inside : m.stack.pointer ≤ m.stack.capacity)
    (clean : m.world.FailsCleanly) (failed : Exec.next m = .error e n) :
    m.SameMemory n ∨ ∃ shape, m.code.fetch m.pc = .ok (.new shape) ∧ m.Strands shape n ∧
      e = .fatal (.stackOverflow m.stack.capacity) := by
  simp only [next, bind_eq, get_eq] at failed
  cases fetched : m.code.fetch m.pc with
  | error e' =>
    rw [fetched] at failed
    cases failed
    exact .inl (.refl m)
  | ok i =>
    rw [fetched] at failed
    have after : Exec.execute i { m with pc := m.pc + i.width } = .error e n := failed
    obtain same | ⟨shape, rfl, strands, fault⟩ :=
      execute_error (m := { m with pc := m.pc + i.width }) inside clean after
    · exact .inl ⟨same.heap, same.world⟩
    · exact .inr ⟨shape, rfl, { strands with }, fault⟩

end

/-- A machine goes on to run or stands still as before, until a step of it ends. -/
theorem Engine.overlooks_status : Engine.Overlooks fun m n => n.status = m.status where
  refl _ := rfl
  trans _ _ _ h g := g.trans h
  stack _ _ := rfl
  dictionary _ _ := rfl
  place _ _ _ := rfl

/-- A machine that was started has what is on its stack inside it. -/
theorem Engine.Within.of_start {main : ObjectId} {m : Engine}
    (running : (stateOf (Engine.start main m)).status = .running) :
    (stateOf (Engine.start main m)).Within ⟨m.config.stackCapacity, m.heap.capacity⟩ := by
  simp only [Engine.start] at running ⊢
  cases found : (m.world.object main).code? with
  | none =>
    rw [found] at running
    cases running
  | some code =>
    simp only [found] at running ⊢
    generalize begins : ({ m with
      status := .idle, stack := .empty m.config.stackCapacity, function := some main,
      pc := 0 } : Engine) = k at running ⊢
    have kept : Keeps (fun m n => n.status = m.status) (Engine.enterMain main code) :=
      Engine.overlooks_status.bind (Engine.overlooks_status.encodeValue _) fun w =>
        Engine.overlooks_status.bind (Engine.overlooks_status.push w) fun _ =>
          Engine.overlooks_status.onStack _
    have status := kept k
    cases entered : Engine.enterMain main code k with
    | error e n =>
      rw [entered] at running status
      subst begins
      cases status.symm.trans running
    | ok u n =>
      have before : k.Within ⟨m.config.stackCapacity, m.heap.capacity⟩ := by
        subst begins
        exact .of_enterMain rfl (Nat.le_refl _) (Nat.le_refl _) entered
      have after := Indifferent.enterMain main code _ k before
      rw [entered] at after
      exact { after.2 with }

section
variable {config : EngineConfig} {w : World} {d : Dictionary} {m n : Engine}

/-- What is on the stack of a machine that runs lies inside it, whatever it came from. -/
theorem Engine.Becomes.within (reached : (make config w d).Becomes m)
    (running : m.status = .running) : ∃ D, m.Within D := by
  induction reached with
  | refl => cases running
  | loaded s _ still => exact absurd running still
  | started main => exact ⟨_, .of_start running⟩
  | @stepped n _ ih =>
    by_cases before : n.status = .running
    · obtain ⟨D, within⟩ := ih before
      have same := Indifferent.next D n within
      simp only [step, before] at running ⊢
      cases ended : Exec.next n with
      | error fault k =>
        rw [ended] at running
        cases running
      | ok r k =>
        rw [ended] at running same
        cases r with
        | none => exact ⟨D, same.2⟩
        | some v => cases running
    · rw [step_of_still before] at running
      exact absurd running before

/-- A step that fails leaves the heap, the globals and the fields of objects as they were, whatever
code the machine has and whatever it did before. The one exception is `NEW` of a class without
fields on a full stack: the record is there, and nothing refers to it. -/
theorem Engine.failed_step {e : RunError} (reached : (make config w d).Becomes m)
    (running : m.status = .running) (clean : m.world.FailsCleanly)
    (failed : m.step = .error e n) :
    m.SameMemory n ∨ ∃ shape trace, m.code.fetch m.pc = .ok (.new shape) ∧ m.Strands shape n ∧
      e = .fatal (.stackOverflow m.stack.capacity) trace := by
  obtain ⟨D, within⟩ := reached.within running
  simp only [step, running] at failed
  cases ended : Exec.next m with
  | ok r k =>
    rw [ended] at failed
    cases r <;> cases failed
  | error fault k =>
    rw [ended] at failed
    cases failed
    obtain same | ⟨shape, fetched, strands, rfl⟩ := Exec.next_error within.pointer clean ended
    · exact .inl ⟨same.heap, same.world⟩
    · exact .inr ⟨shape, _, fetched, { strands with }, rfl⟩

end

namespace Engine

/-- A machine that is to run a script in the initial world. -/
def onlyScript (config : EngineConfig) (source : String) : Engine :=
  let m := (make config (.initial false) .empty).loaded (.script (.ofText source))
  stateOf (start ⟨m.world.objects.size - 1⟩ m)

theorem becomes_onlyScript (config : EngineConfig) (source : String) :
    (make config (.initial false) .empty).Becomes (onlyScript config source) := by
  have idle : (make config (.initial false) .empty).status ≠ .running := Status.noConfusion
  exact (Becomes.refl.loaded _ idle).started _

/-- There is room for the header of the record, and none for its field. -/
theorem failed_step_exhausted :
    let m := afterSteps step 1 (onlyScript ⟨32, 2⟩ "return \x7ba: 1\x7d;")
    outcome m.step = .error (.fatal (.heapExhausted 3 2) ["main"]) ∧
      m.SameMemory (stateOf m.step) := by
  intro m
  have reached : (make ⟨32, 2⟩ (.initial false) .empty).Becomes m :=
    (becomes_onlyScript _ _).stepped
  have builtins := (reached.lasts (World.builtin_initial false).onlyBuiltins).2
  have running : m.status = .running := by decide +kernel
  have exhausted : outcome m.step = .error (.fatal (.heapExhausted 3 2) ["main"]) := by
    decide +kernel
  refine ⟨exhausted, ?_⟩
  rcases result : m.step with v | ⟨e, n⟩
  · rw [result] at exhausted
    cases exhausted
  · rw [result] at exhausted
    cases exhausted
    obtain same | ⟨shape, trace, -, -, overflow⟩ :=
      failed_step reached running builtins.failsCleanly result
    · exact same
    · cases overflow

/-- The frame of the script takes up all of the stack. -/
theorem failed_step_allocates :
    let m := onlyScript ⟨5, 16⟩ "return \x7b\x7d;"
    (make ⟨5, 16⟩ (.initial false) .empty).Becomes m ∧ m.status = .running ∧
      m.world.FailsCleanly ∧ outcome m.step = .error (.fatal (.stackOverflow 5) ["main"]) ∧
      m.heap.pointer = 0 ∧ (stateOf m.step).heap.pointer = 2 := by
  have reached := becomes_onlyScript ⟨5, 16⟩ "return \x7b\x7d;"
  have builtins := (reached.lasts (World.builtin_initial false).onlyBuiltins).2
  refine ⟨reached, ?_, builtins.failsCleanly, ?_⟩ <;> decide +kernel

end Engine
end TaggedScript
