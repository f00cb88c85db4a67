import TaggedScript.Proofs.Compilation.Natives

/-!
A call is carried out by a builtin function at once, or by a frame of its own that is entered and
left. The frame of the caller waits below and keeps its words.
-/
namespace TaggedScript

/-- A frame that goes on at `pc` with one more operand when the frame above it is left. -/
structure Waits (I : Image) (ctx : Context) (slots : List Value) (pc : Nat) (vals : List Value)
    (f : CallFrame) : Prop where
  function : f.function = ctx.function
  code : (I.compiled.world.object ctx.function).code? = some ctx.code
  pc : f.pc = pc
  locals : slots.length = ctx.locals.length
  slots : f.slots.length = slots.length
  operands : f.operands.length = vals.length

/-- The context of a function that was called. All words of the caller are kept. -/
def Context.inner (ctx : Context) (id : ObjectId) (code : Code) (locals : List String)
    (caller : CallFrame) (slots vals : List Value) : Context where
  config := ctx.config
  function := id
  code := code
  locals := locals
  callers := caller :: ctx.callers
  kept := ctx.kept ++ (caller.slots.zip slots ++ caller.operands.zip vals)

/-- The code of a function. -/
structure Procedure.HasCode (p : Procedure) (code : Code) : Prop where
  parameters : code.parameterCount = p.arity + 1
  slots : code.slotCount = p.locals.length
  arity : p.arity + 1 ≤ p.locals.length

theorem Image.code {I : Image} {id : ObjectId} {p : Procedure} (known : I.program id = some p) :
    ∃ code, I.compiled.world.object id = .ofCode p.name code ∧ p.HasCode code := by
  obtain ⟨arity, before, is, after, -, -, -, object⟩ := I.built id p known
  refine ⟨_, object, rfl, ?_, arity⟩
  simp only [Code.ofInstrs, Code.make]
  omega

/-- The object of a function of the program, as it is found in a world. -/
theorem World.Hosts.body {w : World} {I : Image} (h : w.Hosts I) {id : ObjectId} {p : Procedure}
    (known : I.program id = some p) :
    ∃ code, (w.object id).body = .compiled code ∧ (w.object id).name = p.name ∧
      p.HasCode code := by
  obtain ⟨code, object, has⟩ := Image.code known
  have same := h.code id
  have name := h.names id
  rw [object] at same name
  refine ⟨code, ?_, name, has⟩
  cases body : (w.object id).body with
  | compiled other =>
    simp only [HostObject.code?, body, HostObject.ofCode] at same
    cases same
    rfl
  | plain | native => simp [HostObject.code?, body, HostObject.ofCode] at same

/-- What may be met and is no function of the program has no code. -/
theorem World.Hosts.no_code {w : World} {I : Image} (h : w.Hosts I) {id : ObjectId}
    (allowed : I.allows (.object id)) (unknown : I.program id = none) (code : Code) :
    (w.object id).body ≠ .compiled code := by
  intro body
  have same := h.code id
  simp only [HostObject.code?, body] at same
  have there := I.complete id allowed (by
    rw [HostObject.code?, ← same]
    rfl)
  simp [unknown] at there

/-- A frame of the function with all the operands that its code can leave. -/
def Code.frameSize (code : Code) : Nat :=
  1 + code.slotCount + Frame.recordSize + code.stream.size

/-- No frame of a compiled function gets larger than that. -/
def Image.FramesWithin (I : Image) (size : Nat) : Prop :=
  ∀ id code, (I.compiled.world.object id).code? = some code → code.frameSize ≤ size

section
variable {I : Image} {S : Stretch} {ctx : Context} {σ τ : Memory} {pc pc' : Nat}
  {vals others args : List Value} {receiver callee : Value} {a b : FrameMachine} {i : Instr}
  {is : List Instr} {id : ObjectId} {p : Procedure}

theorem mapM_decodeWord {ws : List Word} {vs : List Value}
    (means : List.Forall₂ (Denotes I σ a) ws vs) (fits : a.dictionary.size ≤ 2 ^ 32) :
    ws.mapM FrameExec.decodeWord a = .ok vs a := by
  induction means with
  | nil => rfl
  | cons first _ ih =>
    rw [List.mapM_cons, bind_eq, first.decodeWord fits]
    simp only [bind_eq, ih]
    rfl

/-- A builtin function is called. -/
theorem At.callNative (id : ObjectId)
    (h : At I ctx σ pc' (args.reverse ++ receiver :: callee :: vals) a)
    (here : S.HasAt ctx pc (args.reverse ++ receiver :: callee :: vals) (i :: is))
    (fits : a.dictionary.size ≤ 2 ^ 32) :
    Agrees I S (fun v τ b => At I ctx τ pc' (v :: vals) b)
      (Meaning.outside (invoke id receiver args) σ)
      ((FrameExec.callNative id args.length >>= fun _ => pure none) a) := by
  have operands : args.reverse ++ receiver :: callee :: vals =
      (receiver :: args).reverse ++ callee :: vals := by simp
  obtain ⟨ws, taken, means⟩ := (operands ▸ h).top
  have decoded := mapM_decodeWord means fits
  rw [bind_eq]
  simp only [FrameExec.callNative, bind_eq]
  rw [List.length_cons] at taken
  simp only [taken, decoded, List.headD_cons, List.tail_cons]
  have given : ∀ v ∈ receiver :: args, σ.Knows I v := by
    intro v mem
    obtain ⟨i, here⟩ := List.getElem?_of_mem mem
    obtain ⟨w, -, stands⟩ := forall₂_getElem? means here
    exact stands.known
  obtain ⟨v, τ, c, made, meant, at_c, known, -⟩ | ⟨e, τ, c, made, meant, holds⟩ :=
    h.onWorld (behaves_invoke h.holds id given)
  · have whole : args.reverse ++ receiver :: callee :: vals =
        (args.reverse ++ [receiver, callee]) ++ vals := by simp
    obtain ⟨d, dropped, at_d⟩ := (whole ▸ at_c).dropTop
    have count : (args.reverse ++ [receiver, callee]).length = args.length + 2 := by simp
    rw [count] at dropped
    obtain ⟨at_e, stands⟩ := at_d.encodes known
    simp only [made, meant, dropped, encodeValue_frames]
    have pushed := at_e.agrees_push here (by simp; omega) stands
      (k := fun v τ b => At I ctx τ pc' (v :: vals) b) fun _ reached => reached
    rw [bind_eq] at pushed
    exact pushed
  · simp only [made, meant]
    exact ⟨τ, rfl, holds⟩

theorem denotes_replicate (I : Image) (σ : Memory) (a : FrameMachine) (n : Nat) :
    List.Forall₂ (Denotes I σ a) (List.replicate n .undefined) (List.replicate n .undefined) := by
  induction n with
  | zero => exact .nil
  | succ n ih => exact .cons (denotes_undefined I σ a) ih

/-- What lies below the operands of a call. -/
theorem At.below (h : At I ctx σ pc (args.reverse ++ receiver :: callee :: vals) a) :
    List.Forall₂ (Denotes I σ a) (a.current.operands.drop (args.length + 2)) vals := by
  have whole : args.reverse ++ receiver :: callee :: vals =
      (args.reverse ++ [receiver, callee]) ++ vals := by simp
  have means := h.operands
  rw [whole] at means
  have dropped := List.forall₂_drop_append _ _ _ means
  rwa [List.length_append, List.length_reverse, List.length_cons, List.length_singleton] at dropped

/-- The frame that waits for a call. -/
theorem At.waits (h : At I ctx σ pc (args.reverse ++ receiver :: callee :: vals) a) :
    Waits I ctx σ.slots pc vals (a.waiting args.length) where
  function := h.function
  code := by rw [← h.holds.hosts.code, h.code]
  pc := h.pc
  locals := h.locals
  slots := h.slots.length_eq
  operands := h.below.length_eq

/-- A frame that waits is one of the stretch. -/
theorem Waits.spans {code : Code} {locals : List String} {f : CallFrame} {slots : List Value}
    (waits : Waits I ctx slots pc' vals f) (here : S.HasAt ctx pc others is)
    (few : vals.length ≤ others.length) (deep : ctx.callers.length < S.limit) :
    S.Spans (ctx.inner id code locals f slots vals) where
  outer := by
    obtain ⟨above, callers⟩ := here.spans.outer
    exact ⟨f :: above, congrArg (f :: ·) callers⟩
  limit := deep
  frames g mem := by
    obtain rfl | older := List.mem_cons.mp mem
    · have room := here.room
      rw [CallFrame.size, waits.slots, waits.locals, waits.operands]
      omega
    · exact here.spans.frames g older

/-- The frame that a call begins. -/
theorem At.enter (h : At I ctx σ pc (args.reverse ++ receiver :: callee :: vals) a)
    (known : I.program id = some p) (arity : args.length = p.arity) {code : Code}
    (body : (σ.world.object id).body = .compiled code)
    (room : (a.enter id p.locals.length args.length).size ≤ a.config.stackCapacity) :
    At I (ctx.inner id code p.locals (a.waiting args.length) σ.slots vals)
      { σ with slots := p.slots receiver args } 0 [] (a.enter id p.locals.length args.length) := by
  obtain ⟨_, -, -, has⟩ := h.holds.hosts.body known
  have slotCount := has.arity
  have operands : args.reverse ++ receiver :: callee :: vals =
      (receiver :: args).reverse ++ callee :: vals := by simp
  have means := h.operands
  rw [operands] at means
  have taken := List.forall₂_take_append _ _ _ means
  rw [List.length_reverse, List.length_cons] at taken
  have later : Later σ a { σ with slots := p.slots receiver args }
      (a.enter id p.locals.length args.length) :=
    ⟨fun _ known => known, .refl _, Nat.le_refl _⟩
  have given : List.Forall₂ (Denotes I σ a) (a.current.operands.take (args.length + 1)).reverse
      (receiver :: args) := by
    apply List.forall₂_reverse_iff.mp
    rwa [List.reverse_reverse]
  exact {
    holds := (h.holds.setSlots _).setFrames _ _ _
    status := h.status
    config := h.config
    function := rfl
    code := by
      rw [HostObject.code?]
      simp only [Context.inner, body]
    pc := rfl
    callers := by rw [FrameMachine.enter, h.callers]; rfl
    locals := by
      simp only [Procedure.slots, Context.inner, List.length_append, List.length_cons,
        List.length_replicate]
      omega
    slots := by
      have count := given.length_eq
      rw [List.length_cons] at count
      have made : (a.enter id p.locals.length args.length).current.slots =
          (a.current.operands.take (args.length + 1)).reverse ++
            List.replicate (p.locals.length - (args.length + 1)) .undefined := by
        simp only [FrameMachine.enter, CallFrame.enter, count]
      rw [made]
      exact List.rel_append (later.all given) (denotes_replicate _ _ _ _)
    operands := .nil
    kept := by
      intro q mem
      rcases List.mem_append.mp mem with before | here
      · exact later.denotes (h.kept q before)
      rcases List.mem_append.mp here with slot | operand
      · exact later.denotes ((List.forall₂_iff_zip.mp h.slots).2 slot)
      · exact later.denotes ((List.forall₂_iff_zip.mp h.below).2 operand)
    room := room }

/-- If a frame cannot be begun then the stack is too small. -/
theorem At.lacks_entering (h : At I ctx σ pc' (args.reverse ++ receiver :: callee :: vals) a)
    (here : S.HasAt ctx pc (args.reverse ++ receiver :: callee :: vals) is)
    (deep : ctx.callers.length < S.limit) {slotCount : Nat}
    (frame : 1 + slotCount + Frame.recordSize ≤ S.frame) (parameters : args.length + 1 ≤ slotCount)
    (full : a.config.stackCapacity < (a.enter id slotCount args.length).size) :
    S.Lacks a.config.stackCapacity := by
  have spans : S.Spans (ctx.inner id default [] _ _ _) :=
    h.waits.spans here (by simp; omega) deep
  have waiting := spans.size_le
  have limit := Nat.mul_le_mul_right S.frame (Nat.succ_le_of_lt deep)
  rw [FrameMachine.size_eq] at full
  simp only [FrameMachine.enter, CallFrame.enter, CallFrame.size, List.length_append,
    List.length_reverse, List.length_take, List.length_replicate, List.length_nil, h.callers]
    at full
  simp only [Context.inner, List.map_cons, List.sum_cons, List.length_cons] at waiting
  simp only [List.map_cons, List.sum_cons] at full
  rw [Nat.succ_eq_add_one] at limit
  rw [Stretch.Lacks, Nat.succ_mul]
  omega

/-- A frame is left, and the one below goes on with the result. -/
theorem Returns.resumes {code : Code} {locals : List String} {f : CallFrame} {slots : List Value}
    {v : Value} (h : Returns I S (ctx.inner id code locals f slots vals) τ v a)
    (waits : Waits I ctx slots pc' vals f) (before : S.HasAt ctx pc others (i :: is))
    (few : vals.length ≤ others.length) :
    Leads (Sane I) S (At I ctx { τ with slots } pc' (v :: vals)) 1 a := by
  obtain ⟨at_ret, left, at_a, here⟩ := h
  refine at_a.executes (r := .ok () { τ with slots })
    (k := fun () τ b => At I ctx τ pc' (v :: vals) b) here ?_
  intro b at_b _
  obtain ⟨w, rest, -, popped, means, after⟩ := at_b.pop
  have callers : (b.setOperands rest).callers = f :: ctx.callers := after.callers
  have room := after.room
  rw [FrameMachine.size_eq, callers] at room
  simp only [List.map_cons, List.sum_cons, CallFrame.size, Frame.recordSize] at room
  let c : FrameMachine := { b.setOperands rest with current := f, callers := ctx.callers }
  have later : Later τ b { τ with slots } c := ⟨fun _ known => known, .refl _, Nat.le_refl _⟩
  have back : At I ctx { τ with slots } pc' vals c := {
    holds := (at_b.holds.setSlots _).setFrames _ _ _
    status := at_b.status
    config := at_b.config
    function := waits.function
    code := by rw [at_b.holds.hosts.code, waits.code]
    pc := waits.pc
    callers := rfl
    locals := waits.locals
    slots := List.forall₂_iff_zip.mpr ⟨waits.slots, fun {u v} mem => later.denotes (at_b.kept (u, v)
      (List.mem_append_right _ (List.mem_append_left _ mem)))⟩
    operands := List.forall₂_iff_zip.mpr ⟨waits.operands, fun {u v} mem =>
      later.denotes (at_b.kept (u, v)
        (List.mem_append_right _ (List.mem_append_right _ mem)))⟩
    kept := fun q mem => later.denotes (at_b.kept q (List.mem_append_left _ mem))
    room := by
      simp only [c, FrameMachine.size_eq, CallFrame.size, Frame.recordSize]
      omega }
  simp only [FrameExec.execute, FrameExec.leave]
  rw [bind_eq, popped]
  simp only [bind_eq, get_eq, callers]
  exact back.agrees_push before few (later.denotes means) fun _ reached => reached

/-- The callee lies below the receiver and the arguments. -/
theorem At.operand_callee (h : At I ctx σ pc (args.reverse ++ receiver :: callee :: vals) a) :
    ∃ w, a.current.operands[args.length + 1]? = some w ∧ Denotes I σ a w callee := by
  apply forall₂_getElem? h.operands
  rw [List.getElem?_append_right (by simp), List.length_reverse, Nat.add_sub_cancel_left]
  rfl

/-- What a call is that finds its callee. -/
theorem At.call_eq (h : At I ctx σ pc (args.reverse ++ receiver :: callee :: vals) a)
    (fits : a.dictionary.size ≤ 2 ^ 32) :
    FrameExec.call args.length a =
      match callee with
      | .object id =>
        match (σ.world.object id).body with
        | .native _ => FrameExec.callNative id args.length a
        | .compiled code => FrameExec.enter id code args.length a
        | .plain => .error (.failure (σ.world.notAFunction callee)) a
      | _ => .error (.failure (σ.world.notAFunction callee)) a := by
  obtain ⟨w, there, means⟩ := h.operand_callee
  have peeked : FrameExec.peekAt (args.length + 1) a = .ok w a := by
    simp only [FrameExec.peekAt, there]
  simp only [FrameExec.call, bind_eq, peeked, means.decodeWord fits, get_eq, h.holds.world]
  cases callee with
  | object id =>
    simp only
    cases (σ.world.object id).body <;> rfl
  | undefined | bool | int | str | shape | ref => rfl

/-- Where the machine is when a function that was called has come to its end. -/
def Comes (I : Image) (S : Stretch) (ctx : Context) (σ : Memory) :
    EStateM.Result Stop Memory Value → FrameMachine → Prop
  | .ok v τ, a => τ.slots = σ.slots ∧ ∃ slots, Returns I S ctx { τ with slots } v a
  | .error (.failed e) τ, a => Fails I S τ (.failure e) a
  | .error (.noRoom requested available) τ, a =>
    Fails I S τ (.fatal (.heapExhausted requested available)) a
  | .error .tooDeep _, a => GoesDeeper I S a
  | .error (.returned _) _, _ => False

/-- The stretch has room for the function. If it is the outermost one then the stretch has all of its
code. -/
structure Stretch.Opens (S : Stretch) (ctx : Context) : Prop where
  spans : S.Spans ctx
  whole : ctx.callers = S.outer → S.start = 0 ∧ ctx.code.stream.size ≤ S.stop

/-- Functions come to what they mean, from when they are entered until they return. -/
def RunsWithin (I : Image) (S : Stretch) (call : Procedure → Value → List Value → Meaning Value)
    (depth steps : Nat) : Prop :=
  ∀ ctx σ a p receiver args, depth + ctx.callers.length = S.limit → S.Opens ctx →
    I.program ctx.function = some p → ctx.locals = p.locals →
    At I ctx { σ with slots := p.slots receiver args } 0 [] a →
    Leads (Sane I) S (Comes I S ctx σ (call p receiver args σ)) steps a

/-- Calls come to what they mean. The operands that they take are dropped. -/
def CallsWithin (I : Image) (S : Stretch) (apply : Applier) (depth steps : Nat) : Prop :=
  ∀ ctx σ pc vals callee receiver args is a, depth + ctx.callers.length = S.limit →
    S.HasAt ctx pc (args.reverse ++ receiver :: callee :: vals) (.funcall args.length :: is) →
    At I ctx σ pc (args.reverse ++ receiver :: callee :: vals) a →
    Leads (Sane I) S (Ends I S ctx (fun v τ b => At I ctx τ (pc + 2) (v :: vals) b)
      (apply callee receiver args σ)) steps a

/-- A function of the program is called with as many arguments as it takes. -/
theorem At.callProcedure {call : Procedure → Value → List Value → Meaning Value}
    {depth steps : Nat} (runs : RunsWithin I S call depth steps) (frames : I.FramesWithin S.frame)
    (deep : depth + 1 + ctx.callers.length = S.limit)
    (here : S.HasAt ctx pc (args.reverse ++ receiver :: .object id :: vals)
      (.funcall args.length :: is))
    (h : At I ctx σ pc (args.reverse ++ receiver :: .object id :: vals) a)
    (known : I.program id = some p) (arity : args.length = p.arity) :
    Leads (Sane I) S (Ends I S ctx (fun v τ b => At I ctx τ (pc + 2) (v :: vals) b)
      (call p receiver args σ)) (1 + (steps + 1)) a := by
  obtain ⟨code, body, -, has⟩ := h.holds.hosts.body known
  have deeper : ctx.callers.length < S.limit := by omega
  have fewer : vals.length ≤ (args.reverse ++ receiver :: .object id :: vals).length := by
    simp
    omega
  have frame : 1 + p.locals.length + Frame.recordSize ≤ S.frame := by
    have found : (I.compiled.world.object id).code? = some code := by
      rw [← h.holds.hosts.code, HostObject.code?, body]
    have fits := frames id code found
    rw [Code.frameSize, has.slots] at fits
    omega
  have entered : Leads (Sane I) S (fun b => ∃ f, Waits I ctx σ.slots (pc + 2) vals f ∧
      At I (ctx.inner id code p.locals f σ.slots vals) { σ with slots := p.slots receiver args }
        0 [] b) 1 a := by
    refine h.executes (r := .ok () σ) (k := fun () τ b => ∃ f,
      Waits I ctx σ.slots (pc + 2) vals f ∧
      At I (ctx.inner id code p.locals f σ.slots vals) { τ with slots := p.slots receiver args }
        0 [] b) here ?_
    intro b at_b fits
    have called := at_b.call_eq fits
    simp only [body] at called
    simp only [FrameExec.execute]
    rw [bind_eq, called]
    have enough : ¬ code.parameterCount ≠ args.length + 1 := by
      rw [has.parameters, arity]
      simp
    simp only [FrameExec.enter, bind_eq, get_eq, if_neg enough, pure_eq, encodeValue_frames,
      FrameExec.begin, has.slots]
    have hasCode : (I.compiled.world.object b.current.function).code?.isSome := by
      rw [at_b.function, ← at_b.holds.hosts.code, at_b.code]
      rfl
    have at_c := at_b.interns (.inr ⟨_, rfl, hasCode⟩)
    split
    · rename_i a' c done
      split at done
      · cases done
      · rename_i room
        injection done with _ same
        subst same
        have inside := at_c.enter known arity body (Nat.le_of_not_lt room)
        exact ⟨(), σ, rfl, _, at_c.waits, inside⟩
    · rename_i e c failed
      split at failed
      · rename_i full
        injection failed with fault same
        subst fault same
        have parameters : args.length + 1 ≤ p.locals.length := arity ▸ has.arity
        exact ⟨at_c.lacks_entering here deeper frame parameters full, σ, at_c.holds⟩
      · cases failed
  apply entered.trans
  rintro b ⟨f, waits, inside⟩
  have opens : S.Opens (ctx.inner id code p.locals f σ.slots vals) := by
    refine ⟨waits.spans here fewer deeper, fun outermost => ?_⟩
    obtain ⟨above, callers⟩ := here.spans.outer
    have count := congrArg List.length outermost
    simp only [Context.inner, callers, List.length_cons, List.length_append] at count
    omega
  have depth : depth + (ctx.inner id code p.locals f σ.slots vals).callers.length = S.limit := by
    simp only [Context.inner, List.length_cons]
    omega
  refine (runs (ctx.inner id code p.locals f σ.slots vals) σ b p receiver args depth opens known
    rfl inside).trans fun c comes => ?_
  rcases result : call p receiver args σ with ⟨v, τ⟩ | ⟨v | e | _ | ⟨requested, available⟩, τ⟩ <;>
    rw [result] at comes
  · obtain ⟨same, slots, returns⟩ := comes
    have back := returns.resumes waits here fewer
    rw [← same] at back
    exact back
  · cases comes
  · exact .here comes
  · exact .here comes
  · exact .here comes

theorem outside_callValue (id : ObjectId) (receiver : Value) (args : List Value) (σ : Memory) :
    Meaning.outside (callValue invoke (.object id) receiver args) σ =
      if (σ.world.object id).isCallable then Meaning.outside (invoke id receiver args) σ
      else .error (.failed (σ.world.notAFunction (.object id))) σ := by
  simp only [Meaning.outside, callValue, bind_eq, get_eq]
  by_cases callable : (σ.world.object id).isCallable = true
  · rw [if_pos callable, if_pos callable]
  · rw [if_neg callable, if_neg callable]
    rfl

/-- A value is called that is no function of the program. -/
theorem At.callOther
    (here : S.HasAt ctx pc (args.reverse ++ receiver :: callee :: vals) (.funcall args.length :: is))
    (h : At I ctx σ pc (args.reverse ++ receiver :: callee :: vals) a)
    (unknown : ∀ id, callee = .object id → I.program id = none) :
    Leads (Sane I) S (Ends I S ctx (fun v τ b => At I ctx τ (pc + 2) (v :: vals) b)
      (Meaning.outside (callValue invoke callee receiver args) σ)) 1 a := by
  apply h.executes here
  intro b at_b fits
  have called := at_b.call_eq fits
  simp only [FrameExec.execute]
  cases callee with
  | object id =>
    simp only at called
    rw [outside_callValue]
    cases body : (σ.world.object id).body with
    | native n =>
      have callable : (σ.world.object id).isCallable = true := by
        simp only [HostObject.isCallable, body]
      rw [if_pos callable]
      have native := at_b.callNative id here fits
      rw [bind_eq] at native ⊢
      simp only [body] at called
      rw [called]
      exact native
    | compiled code =>
      obtain ⟨w, -, means⟩ := h.operand_callee
      exact absurd body (h.holds.hosts.no_code means.known.allowed (unknown id rfl) code)
    | plain =>
      have other : ¬ (σ.world.object id).isCallable = true := by
        simp [HostObject.isCallable, body]
      rw [if_neg other]
      simp only [body] at called
      rw [bind_eq, called]
      exact ⟨σ, rfl, at_b.holds⟩
  | undefined | bool | int | str | shape | ref =>
    simp only at called
    rw [bind_eq, called]
    exact ⟨σ, rfl, at_b.holds⟩

/-- Values are called right if functions of the program are that take so many arguments. -/
theorem At.calls {call : Procedure → Value → List Value → Meaning Value} {steps : Nat}
    (positive : 1 ≤ steps)
    (here : S.HasAt ctx pc (args.reverse ++ receiver :: callee :: vals) (.funcall args.length :: is))
    (h : At I ctx σ pc (args.reverse ++ receiver :: callee :: vals) a)
    (procedures : ∀ id p, callee = .object id → I.program id = some p → args.length = p.arity →
      Leads (Sane I) S (Ends I S ctx (fun v τ b => At I ctx τ (pc + 2) (v :: vals) b)
        (call p receiver args σ)) steps a) :
    Leads (Sane I) S (Ends I S ctx (fun v τ b => At I ctx τ (pc + 2) (v :: vals) b)
      (Meaning.apply I.program call callee receiver args σ)) steps a := by
  cases callee with
  | object id =>
    simp only [Meaning.apply]
    cases known : I.program id with
    | none =>
      refine (h.callOther here fun other same => ?_).more positive
      cases same
      exact known
    | some p =>
      simp only
      by_cases arity : args.length = p.arity
      · rw [if_pos arity]
        exact procedures id p rfl known arity
      rw [if_neg arity]
      refine Leads.more ?_ positive
      apply h.executes here
      intro b at_b fits
      obtain ⟨code, body, name, has⟩ := at_b.holds.hosts.body known
      have called := at_b.call_eq fits
      simp only [body] at called
      have mismatch : code.parameterCount ≠ args.length + 1 := by
        rw [has.parameters]
        omega
      have failed : FrameExec.enter id code args.length b =
          .error (.failure (.wrongArity p.name p.arity args.length)) b := by
        simp only [FrameExec.enter, bind_eq, get_eq, if_pos mismatch]
        rw [at_b.holds.world, name, has.parameters]
        rfl
      simp only [FrameExec.execute]
      rw [bind_eq, called, failed]
      exact ⟨σ, rfl, at_b.holds⟩
  | undefined | bool | int | str | shape | ref =>
    exact (h.callOther here fun other same => by cases same).more positive

/-- If functions run right, they are called right. -/
theorem RunsWithin.calls {call : Procedure → Value → List Value → Meaning Value}
    {depth steps : Nat} (runs : RunsWithin I S call depth steps) (frames : I.FramesWithin S.frame) :
    CallsWithin I S (Meaning.apply I.program call) (depth + 1) (steps + 2) := by
  intro ctx σ pc vals callee receiver args is a deep here h
  refine h.calls (Nat.le_add_left 1 _) here fun id p same known arity => ?_
  subst same
  exact (h.callProcedure runs frames deep here known arity).more (by omega)

/-- There are not more frames than words on the stack. -/
theorem At.callers_lt (h : At I ctx σ pc vals a) : ctx.callers.length < a.config.stackCapacity := by
  have room := h.room
  rw [FrameMachine.size_eq, h.callers] at room
  have frames : ctx.callers.length ≤ (ctx.callers.map CallFrame.size).sum := by
    generalize ctx.callers = callers
    induction callers with
    | nil => exact Nat.le_refl _
    | cons f callers ih =>
      simp only [List.length_cons, List.map_cons, List.sum_cons, CallFrame.size]
      omega
  simp only [CallFrame.size] at room
  omega

/-- Where as many frames wait as may, any function of the program is too deep. -/
theorem callsWithin_zero (I : Image) (S : Stretch) :
    CallsWithin I S (Meaning.apply I.program (Meaning.callWithin I.program 0)) 0 1 := by
  intro ctx σ pc vals callee receiver args is a deep here h
  refine h.calls (Nat.le_refl 1) here fun id p same known arity => .here ?_
  have waiting := h.callers_lt
  exact ⟨⟨σ, h.holds⟩, by omega⟩

end
end TaggedScript
