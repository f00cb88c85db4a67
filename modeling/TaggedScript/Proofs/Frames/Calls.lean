import TaggedScript.Proofs.Frames.Simulation

/-!
Frames are entered on top of the shared stack and left again, and the frame below is found as it was.
-/
namespace TaggedScript

/-- The operands of a call: those of the caller, the callee, the receiver and the arguments. -/
theorem operands_of_call {ops : List Word} {n : Nat} {callee : Word} (h : ops[n]? = some callee) :
    ops.reverse = (ops.drop (n + 1)).reverse ++ callee :: (ops.take n).reverse := by
  obtain ⟨bound, here⟩ := List.getElem?_eq_some_iff.mp h
  have split : ops.take n ++ callee :: ops.drop (n + 1) = ops := by
    rw [← here, ← List.drop_eq_getElem_cons bound, List.take_append_drop]
  rw [← congrArg List.reverse split]
  simp

theorem Tracks.begin {a : FrameMachine} {m : Engine} (h : Tracks a m) {id : ObjectId} {code : Code}
    {argc : Nat} {callee caller : Word} (found : (m.world.object id).code? = some code)
    (arity : code.parameterCount = argc + 1) (pc : m.pc < 2 ^ 62)
    (on : a.current.operands[argc + 1]? = some callee)
    (named : ∀ offset, callee.tag ≠ some (.heap offset))
    (link : m.dictionary.size ≤ 2 ^ 32 →
      m.dictionary.lookup? caller = some (.object a.current.function)) :
    Corresponds (FrameExec.begin id code.slotCount argc a)
      ((do
        Exec.onStack (Stack.pushFrame ⟨m.stack.pointer - (argc + 1), code.slotCount⟩
          ⟨m.stack.frame.base, some m.pc, caller⟩)
        modify fun m => { m with function := some id, pc := 0 } : Exec Unit) m) := by
  obtain ⟨lower, under, record, below, callee', live, frame⟩ := h.frames
  have slots := (h.code id code found).1
  have deep := (List.getElem?_eq_some_iff.mp on).1
  have pointer := h.pointer
  have room := h.room
  have addressable := h.addressable
  have capacity := h.capacity
  let args := (a.current.operands.take (argc + 1)).reverse
  have given : args.length = argc + 1 := by simp [args]; omega
  -- what lies below the new frame, and where that frame begins
  have words : m.stack.live =
      frameWords lower under (a.waiting argc) record ++ callee :: args := by
    rw [live, frameWords_eq, operands_of_call on, frameWords_eq]
    simp [FrameMachine.waiting, args]
  have size := congrArg List.length words
  simp only [m.stack.length_live, List.length_append, List.length_cons, given] at size
  generalize lowerEq : frameWords lower under (a.waiting argc) record = lower' at words size
  have length : lower'.length = (a.waiting argc).size + (a.callers.map CallFrame.size).sum := by
    rw [← lowerEq, length_frameWords, below.length_eq]
    omega
  have above : lower.length ≤ lower'.length := by simp [← lowerEq]
  have entered : (a.enter id code.slotCount argc).size =
      lower'.length + 1 + code.slotCount + Frame.recordSize := by
    rw [length]
    simp [FrameMachine.size, FrameMachine.frames, FrameMachine.enter, CallFrame.enter,
      CallFrame.size]
    omega
  rw [show m.stack.pointer - (argc + 1) = lower'.length + 1 by omega]
  generalize placeEq : Frame.mk (lower'.length + 1) code.slotCount = place
  have activation : place.activation = lower'.length + 1 + code.slotCount := by
    rw [← placeEq, Frame.activation]
  have operands : place.operands = (a.enter id code.slotCount argc).size := by
    rw [entered, Frame.operands, activation]
  rw [bind_eq, onStack_eq, Stack.pushFrame]
  simp only [FrameExec.begin, h.config]
  by_cases full : m.stack.capacity < place.operands
  · rw [if_pos (by omega), if_pos full, capacity]
    exact ⟨rfl, h⟩
  · rw [if_neg (by omega), if_neg full]
    refine ⟨rfl, { h with
      function := rfl
      pc := rfl
      runs := ⟨code, found, by simp [FrameMachine.enter, CallFrame.enter]; omega⟩
      room := by simp only; omega
      frames := ⟨lower', callee, ⟨m.stack.frame.base, some m.pc, caller⟩, ?_,
        ⟨by simp [FrameMachine.enter], named⟩, ?_, ?_⟩ }⟩
    · subst lowerEq
      have base : m.stack.frame.base = lower.length + 1 := by rw [frame]
      rw [base, h.pc]
      obtain ⟨c, here, count⟩ := h.runs
      exact .called (g := a.waiting argc) below callee' ⟨c, here, count⟩ (h.pc ▸ pc) (by omega) link
    · rw [Stack.live_pushFrame m.stack place _ (by omega), words]
      simp [frameWords, FrameMachine.enter, CallFrame.enter, args]
      omega
    · rw [← placeEq]
      simp [FrameMachine.enter, CallFrame.enter]
      omega

theorem encodeValue_frames (v : Value) (a : FrameMachine) :
    FrameExec.encodeValue v a =
      .ok (encode v a.dictionary).1 { a with dictionary := (encode v a.dictionary).2 } := rfl

theorem encodeValue_engine (v : Value) (m : Engine) :
    Exec.encodeValue v m =
      .ok (encode v m.dictionary).1 { m with dictionary := (encode v m.dictionary).2 } := rfl

/-- A function with code is entered, if a position of its caller fits into a record. -/
theorem Tracks.enter {a : FrameMachine} {m : Engine} (h : Tracks a m) {id : ObjectId} {code : Code}
    {argc : Nat} {callee : Word} (found : (m.world.object id).code? = some code)
    (pc : m.pc < 2 ^ 62) (on : a.current.operands[argc + 1]? = some callee)
    (named : ∀ offset, callee.tag ≠ some (.heap offset)) :
    Corresponds (FrameExec.enter id code argc a) (Exec.enter id code argc m) := by
  unfold FrameExec.enter Exec.enter
  by_cases arity : code.parameterCount = argc + 1
  · simp only [bind_eq, get_eq, arity, ne_eq,
      not_true_eq_false, ↓reduceIte, h.function, encodeValue_frames, encodeValue_engine,
      h.dictionary]
    let v : Value := .object a.current.function
    have changed : Tracks { a with dictionary := (encode v m.dictionary).2 }
        { m with
          dictionary := (encode v m.dictionary).2
          function := some a.current.function } := by
      rw [← h.function]
      exact h.setDictionary (encode_extends v m.dictionary)
    have entered := changed.begin found arity pc on named fun fits => lookup?_encode rfl fits
    rw [bind_eq] at entered
    exact entered
  · simp only [bind_eq, get_eq, ne_eq, arity,
      not_false_eq_true, ↓reduceIte, h.world]
    exact Sim.throw (α := Unit) _ a m h

theorem peekAt_ok {depth : Nat} {a b : FrameMachine} {w : Word}
    (h : FrameExec.peekAt depth a = .ok w b) : b = a ∧ a.current.operands[depth]? = some w := by
  simp only [FrameExec.peekAt] at h
  split at h
  · rename_i u found
    injection h with value state
    exact ⟨state.symm, value ▸ found⟩
  · cases h

theorem decodeWord_frames (w : Word) (a : FrameMachine) :
    FrameExec.decodeWord w a = match decode a.dictionary a.heap w with
      | .ok v => .ok v a
      | .error e => .error (.ofInvalidWord e) a := by
  simp only [FrameExec.decodeWord, bind_eq, get_eq]
  cases decode a.dictionary a.heap w <;> rfl

theorem decodeWord_engine (w : Word) (m : Engine) :
    Exec.decodeWord w m = match decode m.dictionary m.heap w with
      | .ok v => .ok v m
      | .error e => .error (.ofInvalidWord e) m := by
  simp only [Exec.decodeWord, bind_eq, get_eq]
  cases decode m.dictionary m.heap w <;> rfl

/-- The word of an object is not that of a record. -/
theorem decodeWord_object {w : Word} {a b : FrameMachine} {id : ObjectId}
    (h : FrameExec.decodeWord w a = .ok (.object id) b) (offset : UInt32) :
    w.tag ≠ some (.heap offset) := by
  intro tag
  rw [decodeWord_frames, decode, tag] at h
  by_cases inside : a.heap.contains offset = true <;> simp [inside] at h

theorem decodeWord_ok {w : Word} {a b : FrameMachine} {v : Value}
    (h : FrameExec.decodeWord w a = .ok v b) : b = a := by
  rw [decodeWord_frames] at h
  split at h
  · injection h with value state
    exact state.symm
  · cases h

theorem Tracks.call {a : FrameMachine} {m : Engine} (h : Tracks a m)
    (pc : a.current.pc < 2 ^ 62) (argc : Nat) :
    Corresponds (FrameExec.call argc a) (Exec.call argc m) := by
  apply (Sim.peekAt (argc + 1) a m h).bindOk
  intro w a₁ m₁ peeked h₁
  obtain ⟨rfl, on⟩ := peekAt_ok peeked
  apply (Sim.decodeWord w _ m₁ h₁).bindOk
  intro callee a₂ m₂ decoded h₂
  obtain rfl := decodeWord_ok decoded
  simp only [bind_eq, get_eq, h₂.world]
  cases callee with
  | object id =>
    simp only
    cases body : (m₂.world.object id).body with
    | plain => exact Sim.throw _ _ m₂ h₂
    | native n => exact Sim.callNative id argc _ m₂ h₂
    | compiled code =>
      have found : (m₂.world.object id).code? = some code := by simp [HostObject.code?, body]
      exact h₂.enter found (h₂.pc ▸ pc) on (decodeWord_object decoded)
  | undefined | bool | int | str | shape | ref => exact Sim.throw _ _ m₂ h₂

/-- The machines agree on what a run leaves when its outermost frame is gone. The lowest word of
the stack still names the function of that frame. -/
structure Finished (a : FrameMachine) (m : Engine) : Prop where
  config : a.config = m.config
  world : a.world = m.world
  dictionary : a.dictionary = m.dictionary
  heap : a.heap = m.heap
  function : m.function = some a.current.function
  alone : a.callers = []
  frame : m.stack.frame = .outside
  pointer : m.stack.pointer = 0
  odd : (m.stack.read 0).asIndex = none

/-- Two instructions end alike. One that has a result leaves no frame. -/
def Completes (r : EStateM.Result Fault FrameMachine (Option Value))
    (r' : EStateM.Result Fault Engine (Option Value)) : Prop :=
  match r, r' with
  | .ok none a, .ok none m => Tracks a m
  | .ok (some v) a, .ok (some v') m => v = v' ∧ Finished a m
  | .error e a, .error e' m => e = e' ∧ Tracks a m
  | _, _ => False

theorem Completes.cases {r : EStateM.Result Fault FrameMachine (Option Value)}
    {r' : EStateM.Result Fault Engine (Option Value)} (h : Completes r r') :
    (∃ a m, r = .ok none a ∧ r' = .ok none m ∧ Tracks a m) ∨
      (∃ v a m, r = .ok (some v) a ∧ r' = .ok (some v) m ∧ Finished a m) ∨
      ∃ e a m, r = .error e a ∧ r' = .error e m ∧ Tracks a m := by
  rcases r with ⟨_ | v, a⟩ | ⟨e, a⟩ <;> rcases r' with ⟨_ | v', m⟩ | ⟨e', m⟩
  case ok.none.ok.none => exact .inl ⟨a, m, rfl, rfl, h⟩
  case ok.some.ok.some =>
    obtain ⟨rfl, finished⟩ := h
    exact .inr (.inl ⟨v, a, m, rfl, rfl, finished⟩)
  case error.error =>
    obtain ⟨rfl, tracks⟩ := h
    exact .inr (.inr ⟨e, a, m, rfl, rfl, tracks⟩)
  all_goals exact h.elim

/-- An instruction ends as what follows on its first part does. -/
theorem Corresponds.andThen {α : Type} {x : FrameExec α} {y : Exec α}
    {f : α → FrameExec (Option Value)} {g : α → Exec (Option Value)} {a : FrameMachine} {m : Engine}
    (h : Corresponds (x a) (y m))
    (k : ∀ v a' m', x a = .ok v a' → Tracks a' m' → Completes (f v a') (g v m')) :
    Completes ((x >>= f) a) ((y >>= g) m) := by
  rw [bind_eq, bind_eq]
  obtain ⟨v, a', m', first, second, tracks⟩ | ⟨e, a', m', first, second, tracks⟩ := h.cases
  · simp only [first, second]
    exact k v a' m' first tracks
  · simp only [first, second]
    exact ⟨rfl, tracks⟩

/-- An instruction without a result. -/
theorem Corresponds.completes {α : Type} {x : FrameExec α} {y : Exec α} {a : FrameMachine}
    {m : Engine} (h : Corresponds (x a) (y m)) :
    Completes ((x >>= fun _ => pure none) a) ((y >>= fun _ => pure none) m) :=
  h.andThen fun _ _ _ _ tracks => tracks

theorem Tracks.activation {a : FrameMachine} {m : Engine} (h : Tracks a m) {lower : List Word}
    {callee : Word} {record : Activation}
    (below : Below m.world m.dictionary lower record a.callers)
    (live : m.stack.live = frameWords lower callee a.current record)
    (frame : m.stack.frame = ⟨lower.length + 1, a.current.slots.length⟩) :
    m.stack.activation = .ok record := by
  have whole : m.stack.live = frameWords lower callee a.current record ++ [] := by
    rw [live, List.append_nil]
  rw [Stack.activation, frame]
  exact Stack.activationOf_frame whole h.room below.fits.1 below.fits.2

/-- The word of a caller is that of a function with code. -/
theorem callerOf_link {m : Engine} {g : CallFrame} {caller : Word} (runs : g.Runs m.world)
    (link : m.dictionary.lookup? caller = some (.object g.function)) :
    m.callerOf caller = .ok g.function := by
  obtain ⟨code, found, -⟩ := runs
  simp [Engine.callerOf, decode_of_lookup? m.heap link, found]

theorem frameOf_runs {m : Engine} {g : CallFrame} (runs : g.Runs m.world) (base : Nat) :
    m.frameOf base g.function = ⟨base, g.slots.length⟩ := by
  obtain ⟨code, found, slots⟩ := runs
  simp [Engine.frameOf, found, slots]

/-- Outside of all frames there is no record: the lowest word names a function. -/
theorem Stack.activationOf_outside {s : Stack} (odd : (s.read 0).asIndex = none) :
    s.activationOf .outside = .error (.activation 0) := by
  have same : s.read (Frame.activation .outside) = s.read 0 := rfl
  simp only [Stack.activationOf, same, odd]
  exact ite_self _

/-- The trace of a machine whose run is over shows its last function. -/
theorem Finished.stackTrace {a : FrameMachine} {m : Engine} (h : Finished a m) :
    m.stackTrace = a.stackTrace := by
  rw [Engine.stackTrace, h.frame, Engine.callers, Stack.activationOf_outside h.odd]
  simp [Engine.functionName, h.function, FrameMachine.stackTrace, FrameMachine.frames, h.alone,
    h.world]

theorem pop_ok {a b : FrameMachine} {w : Word} (h : FrameExec.pop a = .ok w b) :
    ∃ rest, a.current.operands = w :: rest ∧ b = a.setOperands rest := by
  simp only [FrameExec.pop] at h
  split at h
  · rename_i u rest ops
    injection h with value state
    exact ⟨rest, value ▸ ops, state.symm⟩
  · cases h

/-- The frame of a caller is resumed. There is room for a result then, as the frame that was left
took up more than that. -/
theorem Tracks.resume {a : FrameMachine} {m : Engine} (h : Tracks a m) {g : CallFrame}
    {callers : List CallFrame} (waiting : a.callers = g :: callers) {lower : List Word}
    {callee : Word} {record : Activation}
    (below : Below m.world m.dictionary lower record a.callers)
    (live : m.stack.live = frameWords lower callee a.current record)
    (frame : m.stack.frame = ⟨lower.length + 1, a.current.slots.length⟩) :
    record.savedPc = some g.pc ∧ g.Runs m.world ∧
    (m.dictionary.size ≤ 2 ^ 32 → m.dictionary.lookup? record.caller = some (.object g.function)) ∧
    m.stack.frame.base - 1 < m.stack.capacity ∧
    Tracks { a with current := g, callers }
      { m with
        stack := m.stack.popFrame ⟨record.savedBase, g.slots.length⟩
        function := some g.function
        pc := g.pc } := by
  have room := h.room
  have size := congrArg List.length live
  rw [m.stack.length_live, length_frameWords, CallFrame.size] at size
  have base : m.stack.frame.base - 1 = lower.length := by rw [frame]; simp
  rw [waiting] at below
  cases below with
  | @called lower' record' _ _ under _ below named runs pc _ link =>
    refine ⟨rfl, runs, link, by omega, { h with
      function := rfl
      pc := rfl
      runs := runs
      room := by simp only [Stack.popFrame]; omega
      frames := ⟨lower', under, record', below, named, ?_, rfl⟩ }⟩
    simp only [Stack.popFrame]
    rw [m.stack.live_take _ (by omega), base, live, take_lower]

theorem push_ok {m : Engine} (room : m.stack.pointer < m.stack.capacity) (w : Word) :
    Exec.push w m = .ok () { m with stack := { m.stack with
      words := Stack.writeWord m.stack.words m.stack.pointer w
      pointer := m.stack.pointer + 1 } } := by
  rw [Exec.push, onStack_eq, Stack.push_eq, if_neg (Nat.not_le_of_lt room)]

theorem Tracks.leave {a : FrameMachine} {m : Engine} (h : Tracks a m)
    (fits : m.dictionary.size ≤ 2 ^ 32) :
    Completes (FrameExec.leave a) (Exec.leave m) := by
  apply (Sim.pop a m h).andThen
  intro w a' m' popped h'
  obtain ⟨rest, ops, state⟩ := pop_ok popped
  have fits' : m'.dictionary.size ≤ 2 ^ 32 := by
    rw [← h'.dictionary, state]
    change a.dictionary.size ≤ 2 ^ 32
    rw [h.dictionary]
    exact fits
  obtain ⟨lower, callee, record, below, named, live, frame⟩ := h'.frames
  have act := h'.activation below live frame
  cases waiting : a'.callers with
  | nil =>
    rw [waiting] at below
    cases below
    simp only [bind_eq, get_eq, inspect_eq, act, waiting]
    rw [decodeWord_frames, decodeWord_engine, h'.dictionary, h'.heap]
    cases decode m'.dictionary m'.heap w with
    | error e => exact ⟨rfl, h'⟩
    | ok v =>
      have bottom : m'.stack.read 0 = callee :=
        Stack.read_of_getElem? (by rw [live]; rfl)
      exact ⟨rfl, {
        config := h'.config
        world := h'.world
        dictionary := h'.dictionary
        heap := h'.heap
        function := h'.function
        alone := waiting
        frame := rfl
        pointer := by simp [Stack.popFrame, frame]
        odd := bottom ▸ named.odd waiting }⟩
  | cons g callers =>
    obtain ⟨pc, runs, link, base, resumed⟩ := h'.resume waiting below live frame
    have owner := callerOf_link runs (link fits')
    have pushed := Sim.push w _ _ resumed
    rw [push_ok base] at pushed
    simp only [bind_eq, get_eq, set_eq, inspect_eq, act, waiting, pc, owner,
      MonadExcept.ofExcept]
    simp only [pure, EStateM.pure, frameOf_runs runs]
    rw [push_ok base]
    cases result : FrameExec.push w { a' with current := g, callers } with
    | ok u b =>
      rw [result] at pushed
      exact pushed.2
    | error e b =>
      rw [result] at pushed
      cases pushed

end TaggedScript
