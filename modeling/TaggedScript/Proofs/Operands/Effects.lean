import TaggedScript.Proofs.Compilation.Leads
import TaggedScript.Proofs.Operands.Levels

/-!
What a step does to the operands of the frames.
-/
namespace TaggedScript

/-- The top operands are replaced by others. -/
def Replaces (taken left : Nat) (before after : List Word) : Prop :=
  taken ≤ before.length ∧ ∃ new, new.length = left ∧ after = new ++ before.drop taken

namespace Replaces
variable {taken left taken' left' : Nat} {ws us vs : List Word}

theorem refl (ws : List Word) : Replaces 0 0 ws ws := ⟨Nat.zero_le _, [], rfl, rfl⟩

theorem trans (h : Replaces taken left ws us) (g : Replaces taken' left' us vs) :
    Replaces (taken + (taken' - left)) (left' + (left - taken')) ws vs := by
  obtain ⟨enough, new, size, rfl⟩ := h
  obtain ⟨enough', new', size', rfl⟩ := g
  rw [List.length_append, List.length_drop, size] at enough'
  refine ⟨by omega, new' ++ new.drop taken', ?_, ?_⟩
  · rw [List.length_append, List.length_drop, size, size']
  · rw [List.drop_append, size, List.drop_drop, List.append_assoc]

end Replaces

/-- If the action succeeds, it has replaced the top operands of its frame, which stays where it is in
its function, and the frames that wait are the same. -/
def Nets {α : Type} (taken left : Nat) (a : FrameMachine) :
    EStateM.Result Fault FrameMachine α → Prop
  | .ok _ b => Replaces taken left a.current.operands b.current.operands ∧
      b.current.function = a.current.function ∧ b.current.pc = a.current.pc ∧ b.callers = a.callers
  | .error _ _ => True

/-- An action replaces so many operands by so many, wherever it succeeds. -/
def Replacing {α : Type} (taken left : Nat) (x : FrameExec α) : Prop := ∀ a, Nets taken left a (x a)

section
variable {α β : Type} {taken left taken' left' : Nat}

/-- The net effect of one action after another. -/
theorem Nets.bind {a : FrameMachine} {x : FrameExec α} {f : α → FrameExec β}
    (h : Nets taken left a (x a)) (k : ∀ v b, x a = .ok v b → Nets taken' left' b (f v b)) :
    Nets (taken + (taken' - left)) (left' + (left - taken')) a ((x >>= f) a) := by
  rw [bind_eq]
  cases first : x a with
  | error e b => trivial
  | ok v b =>
    rw [first] at h
    have then_ := k v b first
    simp only
    cases second : f v b with
    | error e c => trivial
    | ok u c =>
      rw [second] at then_
      obtain ⟨operands, function, pc, callers⟩ := h
      obtain ⟨operands', function', pc', callers'⟩ := then_
      exact ⟨operands.trans operands', function'.trans function, pc'.trans pc,
        callers'.trans callers⟩

namespace Replacing

/-- One action after another that replaces what the first one took or more. -/
theorem bind {x : FrameExec α} {f : α → FrameExec β} (h : Replacing taken left x)
    (k : ∀ v, Replacing taken' left' (f v)) (more : left ≤ taken') :
    Replacing (taken + (taken' - left)) left' (x >>= f) := by
  intro a
  have nets := (h a).bind fun v b _ => k v b
  rwa [Nat.sub_eq_zero_of_le more, Nat.add_zero] at nets

/-- An action that leaves the operands alone comes first. -/
theorem still {x : FrameExec α} {f : α → FrameExec β} (h : Replacing 0 0 x)
    (k : ∀ v, Replacing taken left (f v)) : Replacing taken left (x >>= f) := by
  have nets := h.bind k (Nat.zero_le _)
  rwa [Nat.zero_add] at nets

theorem pure (v : α) : Replacing 0 0 (Pure.pure v) := fun _ => ⟨.refl _, rfl, rfl, rfl⟩

theorem throw (e : Fault) : Replacing (α := α) taken left (throw e) := fun _ => trivial

theorem ok {a b : FrameMachine} {x : FrameExec α} {v : α} (h : Replacing taken left x)
    (result : x a = .ok v b) : Nets taken left a (.ok () b) := by
  have nets := h a
  rw [result] at nets
  exact nets

theorem get : Replacing 0 0 get := fun _ => ⟨.refl _, rfl, rfl, rfl⟩

/-- The last action only gives the result. -/
theorem returns {x : FrameExec α} (h : Replacing taken left x) (v : β) :
    Replacing taken left (x >>= fun _ => Pure.pure v) := by
  intro a
  have nets := (h a).bind fun _ b _ => pure v b
  rwa [Nat.zero_sub, Nat.add_zero, Nat.zero_add, Nat.sub_zero] at nets

theorem push (w : Word) : Replacing 0 1 (FrameExec.push w) := by
  intro a
  unfold FrameExec.push
  split
  · trivial
  · exact ⟨⟨Nat.zero_le _, [w], rfl, rfl⟩, rfl, rfl, rfl⟩

theorem pop : Replacing 1 0 FrameExec.pop := by
  intro a
  unfold FrameExec.pop
  split
  · rename_i w rest operands
    refine ⟨⟨?_, [], rfl, ?_⟩, rfl, rfl, rfl⟩
    · rw [operands]
      exact Nat.le_add_left _ _
    · rw [operands]
      rfl
  · trivial

theorem popThen {f : Word → FrameExec β} (k : ∀ w, Replacing taken left (f w)) :
    Replacing (taken + 1) left (FrameExec.pop >>= f) := by
  have nets := pop.bind k (Nat.zero_le _)
  rwa [Nat.sub_zero, Nat.add_comm] at nets

/-- What is looked at is there. -/
theorem looks {a : FrameMachine} {n : Nat} (enough : n ≤ a.current.operands.length) (v : α) :
    Nets n n a (.ok v a) :=
  ⟨⟨enough, a.current.operands.take n, by simp [enough], (List.take_append_drop n _).symm⟩, rfl, rfl,
    rfl⟩

theorem peekAt (depth : Nat) : Replacing (depth + 1) (depth + 1) (FrameExec.peekAt depth) := by
  intro a
  unfold FrameExec.peekAt
  split
  · rename_i w found
    exact looks (List.getElem?_eq_some_iff.mp found).1 w
  · trivial

theorem swap : Replacing 2 2 FrameExec.swap := by
  intro a
  unfold FrameExec.swap
  split
  · rename_i upper lower rest operands
    refine ⟨⟨?_, [lower, upper], rfl, ?_⟩, rfl, rfl, rfl⟩
    · rw [operands]
      exact Nat.le_add_left _ _
    · rw [operands]
      rfl
  · trivial

theorem top (n : Nat) : Replacing n n (FrameExec.top n) := by
  intro a
  unfold FrameExec.top
  split
  · trivial
  · exact looks (by omega) _

theorem dropTop (n : Nat) : Replacing n 0 (FrameExec.dropTop n) := by
  intro a
  unfold FrameExec.dropTop
  split
  · trivial
  · exact ⟨⟨by omega, [], rfl, rfl⟩, rfl, rfl, rfl⟩

theorem slot (i : Nat) : Replacing 0 0 (FrameExec.slot i) := by
  intro a
  unfold FrameExec.slot
  split
  · exact ⟨.refl _, rfl, rfl, rfl⟩
  · trivial

theorem setSlot (i : Nat) (w : Word) : Replacing 0 0 (FrameExec.setSlot i w) := by
  intro a
  unfold FrameExec.setSlot
  split
  · exact ⟨.refl _, rfl, rfl, rfl⟩
  · trivial

theorem onHeap (f : OnHeap α) : Replacing 0 0 (FrameExec.onHeap f) := by
  intro a
  unfold FrameExec.onHeap
  split
  · exact ⟨.refl _, rfl, rfl, rfl⟩
  · trivial

theorem readHeap (f : Heap → World → Dictionary → Except HeapFault α) :
    Replacing 0 0 (FrameExec.readHeap f) := by
  intro a
  unfold FrameExec.readHeap
  split
  · exact ⟨.refl _, rfl, rfl, rfl⟩
  · trivial

theorem onWorld (f : Action α) : Replacing 0 0 (FrameExec.onWorld f) := by
  intro a
  unfold FrameExec.onWorld
  split
  · exact ⟨.refl _, rfl, rfl, rfl⟩
  · trivial

theorem encodeValue (v : Value) : Replacing 0 0 (FrameExec.encodeValue v) :=
  fun _ => ⟨.refl _, rfl, rfl, rfl⟩

theorem decodeWord (w : Word) : Replacing 0 0 (FrameExec.decodeWord w) := by
  refine get.still fun a => ?_
  split
  · exact pure _
  · exact throw _

theorem nameOf (w : Word) : Replacing 0 0 (FrameExec.nameOf w) := by
  refine get.still fun a => ?_
  split
  · exact pure _
  · exact throw _

theorem targetOf (w : Word) (field : String) : Replacing 0 0 (FrameExec.targetOf w field) := by
  refine (decodeWord w).still fun v => ?_
  split
  · exact pure _
  · exact pure _
  · exact get.still fun a => throw _

theorem mapM_decodeWord (ws : List Word) : Replacing 0 0 (ws.mapM FrameExec.decodeWord) := by
  induction ws with
  | nil => exact pure []
  | cons w ws ih =>
    rw [List.mapM_cons]
    exact (decodeWord w).still fun v => ih.still fun vs => pure _

theorem getField (name : Word) : Replacing 1 1 (FrameExec.getField name) := by
  refine (nameOf name).still fun field => popThen fun receiver => ?_
  refine (targetOf receiver field).still fun target => ?_
  cases target with
  | record offset => exact (readHeap _).still fun w => push w
  | host id => exact get.still fun a => (encodeValue _).still fun w => push w

theorem putField (name : Word) : Replacing 2 0 (FrameExec.putField name) := by
  refine (nameOf name).still fun field => popThen fun value => ?_
  refine popThen fun receiver => ?_
  refine (targetOf receiver field).still fun target => ?_
  cases target with
  | record offset => exact get.still fun a => onHeap _
  | host id => exact (decodeWord value).still fun v _ => ⟨.refl _, rfl, rfl, rfl⟩

theorem printTop : Replacing 1 1 FrameExec.printTop := by
  refine popThen fun w => ?_
  refine (decodeWord w).still fun v => get.still fun a => ?_
  simp only
  split
  · split
    · exact (onWorld _).still fun _ => push _
    · exact throw _
  · exact throw _

theorem callNative (id : ObjectId) (argc : Nat) :
    Replacing (argc + 2) 1 (FrameExec.callNative id argc) := by
  have called (ws : List Word) := (mapM_decodeWord ws).still fun values =>
    (onWorld (invoke id (values.headD .undefined) values.tail)).still fun result =>
      (dropTop (argc + 2)).bind (fun _ => (encodeValue result).still fun w => push w) (Nat.le_refl _)
  have whole := (top (argc + 1)).bind called (by omega)
  have size : argc + 1 + (argc + 2 + (0 - 0) - (argc + 1)) = argc + 2 := by omega
  rwa [size] at whole

end Replacing
end

theorem lookup?_of_decode {d : Dictionary} {h : Heap} {w : Word} {id : ShapeId}
    (means : decode d h w = .ok (.shape id)) : d.lookup? w = some (.shape id) := by
  unfold decode at means
  unfold Dictionary.lookup?
  split at means
  · cases means
  · cases means
  · cases means
  · rename_i index tag
    rw [tag]
    cases found : d.get? index with
    | some v =>
      rw [found] at means
      cases means
      exact found
    | none =>
      rw [found] at means
      cases means
  · split at means
    · cases means
    · cases means
  · cases means

namespace FrameMachine

/-- The word names a class of records with so many fields. -/
def Width (a : FrameMachine) (w : Word) (n : Nat) : Prop :=
  ∃ id, a.dictionary.lookup? w = some (.shape id) ∧ (a.world.shape id).fields.length = n

theorem width_unique {a : FrameMachine} {w : Word} {n k : Nat} (h : a.Width w n)
    (g : a.Width w k) : n = k := by
  obtain ⟨id, found, rfl⟩ := h
  obtain ⟨id', found', rfl⟩ := g
  rw [found] at found'
  cases found'
  rfl

/-- The instruction leads the frame from one position to the next. So many results of it are still to
come. -/
structure Passes (a : FrameMachine) (i : Instr) (awaited : Nat) (g : CallFrame) : Prop where
  operands : ∃ taken kept, i.Moves a.Width taken (kept + awaited) ∧
    Replaces taken kept a.current.operands g.operands
  pc : g.pc ∈ i.successors a.current.pc
  function : g.function = a.current.function

/-- What a step does to the frames if the machine goes on. The function that is executed goes on
itself, or it calls another one and waits, or it hands its result to its caller. -/
inductive Goes (a : FrameMachine) (i : Instr) (b : FrameMachine) : Prop
  | on (passes : a.Passes i 0 b.current) (callers : b.callers = a.callers)
  | call {caller : CallFrame} (passes : a.Passes i 1 caller)
    (callers : b.callers = caller :: a.callers) (pc : b.current.pc = 0)
    (operands : b.current.operands = [])
  | back {caller : CallFrame} {w : Word} (callers : a.callers = caller :: b.callers)
    (current : b.current = { caller with operands := w :: caller.operands })

end FrameMachine

namespace FrameExec
open FrameMachine
variable {a b : FrameMachine}

theorem newRecord_ok {shape : Word} (made : newRecord shape a = .ok () b) :
    ∃ taken left, (Instr.new shape).Moves a.Width taken left ∧ Nets taken left a (.ok () b) := by
  have record (n : Nat) : Replacing n 1 (do
      let fields ← top n
      let offset ← onHeap (Heap.allocate shape fields)
      dropTop n
      push (.heap offset)) := by
    have rest (fields : List Word) :=
      (Replacing.onHeap (Heap.allocate shape fields)).still fun offset =>
        (Replacing.dropTop n).bind (fun _ => .push (.heap offset)) (Nat.le_refl _)
    have whole := (Replacing.top n).bind rest (by omega)
    have size : n + (n + (0 - 0) - n) = n := by omega
    rwa [size] at whole
  simp only [newRecord, decodeWord, bind_eq, get_eq] at made
  cases means : decode a.dictionary a.heap shape with
  | error e =>
    rw [means] at made
    cases made
  | ok v =>
    rw [means] at made
    cases v with
    | shape id => exact ⟨_, 1, .new ⟨id, lookup?_of_decode means, rfl⟩, (record _).ok made⟩
    | undefined | bool | int | str | object | ref => cases made

/-- The frame of a function that calls waits for the result, below the frame of the callee. -/
theorem enter_ok {id : ObjectId} {code : Code} {argc : Nat}
    (entered : enter id code argc a = .ok () b) :
    b.callers = a.waiting argc :: a.callers ∧ b.current.pc = 0 ∧ b.current.operands = [] := by
  unfold enter at entered
  simp only [bind_eq, get_eq] at entered
  split at entered
  · cases entered
  · simp only [bind_eq, encodeValue, modifyGet_eq, begin] at entered
    split at entered
    · cases entered
    · cases entered
      exact ⟨rfl, rfl, rfl⟩

/-- A call is replaced by its result, or the frame that calls waits for it. -/
theorem call_ok {argc : Nat} (called : call argc a = .ok () b) :
    Nets (argc + 2) 1 a (.ok () b) ∨ argc + 2 ≤ a.current.operands.length ∧
      b.callers = a.waiting argc :: a.callers ∧ b.current.pc = 0 ∧ b.current.operands = [] := by
  cases found : a.current.operands[argc + 1]? with
  | none =>
    simp only [call, bind_eq, peekAt, found] at called
    cases called
  | some w =>
    have enough := (List.getElem?_eq_some_iff.mp found).1
    simp only [call, bind_eq, peekAt, found, decodeWord, get_eq] at called
    cases means : decode a.dictionary a.heap w with
    | error e =>
      rw [means] at called
      cases called
    | ok callee =>
      rw [means] at called
      cases callee with
      | object id =>
        simp only [pure_eq] at called
        cases body : (a.world.object id).body with
        | plain =>
          rw [body] at called
          cases called
        | native n =>
          rw [body] at called
          exact .inl ((Replacing.callNative id argc).ok called)
        | compiled code =>
          rw [body] at called
          exact .inr ⟨enough, enter_ok called⟩
      | undefined | bool | int | str | shape | ref => cases called

/-- The frame that waits for a result gets it. -/
theorem leave_ok (left : leave a = .ok none b) : ∃ caller w, a.callers = caller :: b.callers ∧
    b.current = { caller with operands := w :: caller.operands } := by
  unfold leave at left
  cases operands : a.current.operands with
  | nil =>
    simp only [bind_eq, pop, operands] at left
    cases left
  | cons w rest =>
    simp only [bind_eq, pop, operands, get_eq, FrameMachine.setOperands] at left
    cases callers : a.callers with
    | nil =>
      rw [callers] at left
      obtain ⟨v, u, -, done⟩ := ok_of_bind left
      cases done
    | cons caller others =>
      rw [callers] at left
      simp only [bind_eq, set_eq, push] at left
      split at left
      · rename_i pushed
        split at pushed
        · cases pushed
        · cases pushed
          cases left
          exact ⟨caller, w, rfl, rfl⟩
      · cases left

end FrameExec

namespace FrameMachine
variable {a b : FrameMachine} {i : Instr}

section
open Replacing

/-- An instruction that does not call, return or jump replaces operands. -/
theorem replaces_of_execute (plain : i.jumpTarget? = none) (inside : ∀ n, i ≠ .funcall n)
    (stays : i ≠ .ret) (executed : FrameExec.execute i a = .ok none b) :
    ∃ taken left, i.Moves a.Width taken left ∧ Nets taken left a (.ok () b) := by
  cases i with
  | const w => exact ⟨0, 1, .const w, ((push w).returns none).ok executed⟩
  | lookup name =>
    exact ⟨0, 1, .lookup name, ((nameOf name).still fun x => Replacing.get.still fun m =>
      (encodeValue _).still fun w => (push w).returns none).ok executed⟩
  | register name =>
    have change (x : String) (v : Value) : Replacing 0 0
        (modify fun m : FrameMachine => { m with world := m.world.setGlobal x v }) :=
      fun _ => ⟨.refl _, rfl, rfl, rfl⟩
    exact ⟨1, 0, .register name, ((nameOf name).still fun x => popThen fun w =>
      (decodeWord w).still fun v => (change x v).returns none).ok executed⟩
  | load i => exact ⟨0, 1, .load i, ((slot i).still fun w => (push w).returns none).ok executed⟩
  | store i => exact ⟨1, 0, .store i, (popThen fun w => (setSlot i w).returns none).ok executed⟩
  | dup =>
    have twice : Replacing 1 2 (FrameExec.execute .dup) :=
      fun a => (peekAt 0 a).bind fun w b _ => (push w).returns none b
    exact ⟨1, 2, .dup, twice.ok executed⟩
  | pop => exact ⟨1, 0, .pop, (popThen fun _ => Replacing.pure none).ok executed⟩
  | swap => exact ⟨2, 2, .swap, (Replacing.swap.returns none).ok executed⟩
  | funcall argc => exact absurd rfl (inside argc)
  | ret => exact absurd rfl stays
  | goto | jumpIfFalse => cases plain
  | new shape =>
    obtain ⟨u, c, made, done⟩ := ok_of_bind executed
    cases done
    exact FrameExec.newRecord_ok made
  | get name => exact ⟨1, 1, .get name, ((getField name).returns none).ok executed⟩
  | put name => exact ⟨2, 0, .put name, ((putField name).returns none).ok executed⟩
  | print => exact ⟨1, 1, .print, (printTop.returns none).ok executed⟩

end

/-- What the next instruction does if the machine goes on. -/
theorem goes_of_next (fetched : a.code.fetch a.current.pc = .ok i)
    (next : FrameExec.next a = .ok none b) : a.Goes i b := by
  rw [next_eq fetched] at next
  cases i with
  | funcall argc =>
    obtain ⟨u, c, called, done⟩ := ok_of_bind next
    cases done
    obtain ⟨operands, function, pc, callers⟩ | ⟨enough, callers, pc, operands⟩ :=
      FrameExec.call_ok called
    · exact .on ⟨⟨_, _, .funcall argc, operands⟩, by simp [Instr.successors, pc, moveTo],
        function⟩ callers
    · have passes : a.Passes (.funcall argc) 1 ((a.moveTo (a.current.pc + 2)).waiting argc) :=
        ⟨⟨_, 0, .funcall argc, enough, [], rfl, rfl⟩, List.mem_singleton_self _, rfl⟩
      exact .call passes callers pc operands
  | ret =>
    obtain ⟨caller, w, callers, current⟩ := FrameExec.leave_ok next
    exact .back callers current
  | goto target =>
    cases next
    exact .on ⟨⟨_, _, .goto target, .refl _⟩, List.mem_singleton_self _, rfl⟩ rfl
  | jumpIfFalse target =>
    obtain ⟨w, c, popped, rest⟩ := ok_of_bind next
    obtain ⟨operands, function, pc, callers⟩ := Replacing.pop.ok popped
    split at rest
    · cases rest
      exact .on ⟨⟨_, _, .jumpIfFalse target, operands⟩, List.mem_cons_self, function⟩ callers
    · cases rest
      exact .on ⟨⟨_, _, .jumpIfFalse target, operands⟩, by simp [Instr.successors, pc, moveTo],
        function⟩ callers
  | _ =>
    obtain ⟨taken, left, moves, operands, function, pc, callers⟩ :=
      replaces_of_execute (by rfl) (by simp) (by simp) next
    refine .on ⟨⟨_, _, moves, operands⟩, ?_, function⟩ callers
    rw [Instr.successors_of_plain rfl, pc]
    exact List.mem_singleton_self _

/-- If the machine goes on then there was an instruction that says how. -/
theorem goes_of_ok (next : FrameExec.next a = .ok none b) :
    ∃ i, a.code.fetch a.current.pc = .ok i ∧ a.Goes i b := by
  cases fetched : a.code.fetch a.current.pc with
  | ok i => exact ⟨i, rfl, goes_of_next fetched next⟩
  | error e =>
    simp only [FrameExec.next, bind_eq, get_eq, fetched] at next
    cases next

end FrameMachine
end TaggedScript
