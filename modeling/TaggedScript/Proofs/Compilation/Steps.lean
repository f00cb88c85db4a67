import TaggedScript.Proofs.Compilation.Leads
import TaggedScript.Proofs.WorldLaws

/-!
What single instructions do, told by what their operands stand for.
-/
namespace TaggedScript

theorem World.Hosts.same {w v : World} {I : Image} (h : w.Hosts I)
    (bodies : ∀ id, (v.object id).body = (w.object id).body ∧ (v.object id).name = (w.object id).name)
    (shapes : v.shapes = w.shapes) : v.Hosts I where
  code id := by
    have first := h.code id
    simp only [HostObject.code?, (bodies id).1] at first ⊢
    exact first
  names id := (bodies id).2.trans (h.names id)
  natives id n native := h.natives id n ((bodies id).1 ▸ native)
  shapes := shapes.trans h.shapes

/-- What is known stays known when only the world or the slots change. -/
theorem Memory.Knows.same {I : Image} {σ τ : Memory} {v : Value} (h : σ.Knows I v)
    (records : τ.records = σ.records) : τ.Knows I v :=
  ⟨h.allowed, fun offset same => records ▸ h.recorded offset same⟩

namespace Holds
variable {I : Image} {σ τ : Memory} {a b : FrameMachine}

/-- A change that leaves the words of the heap alone. -/
theorem change (h : Holds I σ a) (later : Later σ a τ b) (world : b.world = τ.world)
    (hosts : τ.world.Hosts I) (interned : b.dictionary.Interned)
    (entries : ∀ v ∈ b.dictionary.entries, I.Names v)
    (globals : ∀ x, I.Reads x → τ.Knows I (τ.world.global x))
    (fields : ∀ id x, I.allows (.object id) → I.Reads x → τ.Knows I (τ.world.field id x))
    (heap : b.heap = a.heap) (records : τ.records = σ.records)
    (capacity : τ.capacity = σ.capacity) : Holds I τ b where
  world := world
  hosts := hosts
  dictionary := h.dictionary.trans later.dictionary
  interned := interned
  entries := entries
  globals := globals
  fields := fields
  heap := by
    rw [heap, records]
    refine later.heapHolds ?_ h.heap
    rw [world, h.world, hosts.shapes, h.hosts.shapes]
  capacity := by rw [heap, capacity, h.capacity]
  addressed := by
    rw [records]
    exact h.addressed

theorem encodes (h : Holds I σ a) {v : Value} (named : I.Names v) :
    Holds I σ { a with dictionary := (encode v a.dictionary).2 } := by
  refine h.change ⟨fun _ known => known, encode_extends v _, Nat.le_refl _⟩ h.world h.hosts
    (encode_interned h.interned v) (fun u mem => ?_) h.globals h.fields rfl rfl rfl
  rcases mem_encode mem with old | ⟨rfl, -⟩
  · exact h.entries u old
  · exact named

theorem setGlobal (h : Holds I σ a) (x : String) {v : Value} (known : σ.Knows I v) :
    Holds I { σ with world := σ.world.setGlobal x v }
      { a with world := a.world.setGlobal x v } := by
  refine h.change ⟨fun _ known => known, .refl _, Nat.le_refl _⟩ (by rw [h.world])
    (h.hosts.same (fun _ => ⟨rfl, rfl⟩) rfl) h.interned h.entries (fun y reads => ?_)
    (fun id y allowed reads => (h.fields id y allowed reads).same rfl) rfl rfl rfl
  simp only [World.global_setGlobal]
  split
  · exact known.same rfl
  · exact (h.globals y reads).same rfl

theorem setHostField (h : Holds I σ a) (id : ObjectId) (x : String) {v : Value}
    (known : σ.Knows I v) :
    Holds I { σ with world := σ.world.setField id x v }
      { a with world := a.world.setField id x v } := by
  refine h.change ⟨fun _ known => known, .refl _, Nat.le_refl _⟩ (by rw [h.world])
    (h.hosts.same (fun other => World.body_setField _ _ _ _ other) rfl) h.interned h.entries
    (fun y reads => ?_) (fun other y allowed reads => ?_) rfl rfl rfl
  · rw [World.global_of_scopes (w := σ.world) (v := σ.world.setField id x v) rfl]
    exact (h.globals y reads).same rfl
  · simp only [World.field_setField]
    split
    · exact known.same rfl
    · exact (h.fields other y allowed reads).same rfl

/-- The output may change as it likes. -/
theorem setOutput (h : Holds I σ a) (output : String) :
    Holds I { σ with world := { σ.world with output } }
      { a with world := { a.world with output } } := by
  refine h.change ⟨fun _ known => known, .refl _, Nat.le_refl _⟩ (by rw [h.world])
    (h.hosts.same (fun _ => ⟨rfl, rfl⟩) rfl) h.interned h.entries (fun x reads => ?_)
    (fun id x allowed reads => (h.fields id x allowed reads).same rfl) rfl rfl rfl
  rw [World.global_of_scopes (w := σ.world) (v := { σ.world with output }) rfl]
  exact (h.globals x reads).same rfl

/-- What functions of the host change. -/
theorem changeAll (h : Holds I σ a) {effects : List Effect}
    (stores : ∀ e ∈ effects, ∀ v ∈ e.stored?, σ.Knows I v) :
    Holds I { σ with world := σ.world.changeAll effects }
      { a with world := a.world.changeAll effects } := by
  induction effects generalizing σ a with
  | nil => exact h
  | cons e effects ih =>
    have known := stores e List.mem_cons_self
    have changed : Holds I { σ with world := σ.world.change e }
        { a with world := a.world.change e } := by
      cases e with
      | setGlobal x v => exact h.setGlobal x (known v rfl)
      | setField id x v => exact h.setHostField id x (known v rfl)
      | write text =>
        simp only [World.change, h.world]
        split
        · have same : { a with world := σ.world } = a := by rw [← h.world]
          exact same.symm ▸ h
        · have written := h.setOutput (σ.world.output ++ text)
          rwa [h.world] at written
    exact ih changed fun e mem v stored => (stores e (List.mem_cons_of_mem _ mem) v stored).same rfl

/-- The slots of the function are not held in the heap, the world or the dictionary. -/
theorem setSlots (h : Holds I σ a) (slots : List Value) : Holds I { σ with slots } a :=
  h.change ⟨fun _ known => known, .refl _, Nat.le_refl _⟩ h.world h.hosts h.interned h.entries
    (fun x reads => (h.globals x reads).same rfl)
    (fun id x allowed reads => (h.fields id x allowed reads).same rfl) rfl rfl rfl

/-- The frames do not matter. -/
theorem setFrames (h : Holds I σ a) (current : CallFrame) (callers : List CallFrame)
    (status : Status) : Holds I σ { a with current, callers, status } :=
  h.change ⟨fun _ known => known, .refl _, Nat.le_refl _⟩ h.world h.hosts h.interned h.entries
    h.globals h.fields rfl rfl rfl

/-- The word of a constant of the code. -/
theorem lookup?_constant (h : Holds I σ a) {v : Value} (interned : v.isInterned) {d : Dictionary}
    (compiled : (encode v d).2.Extends I.compiled.dictionary) :
    a.dictionary.lookup? (encode v d).1 = some v := by
  apply h.dictionary.lookup?
  apply compiled.lookup?
  exact lookup?_encode interned (Nat.le_trans compiled.size_le I.fits)

theorem denotes_constant (h : Holds I σ a) {v : Value} (interned : v.isInterned) {d : Dictionary}
    (compiled : (encode v d).2.Extends I.compiled.dictionary) :
    Denotes I σ a (encode v d).1 v where
  known := by
    have entry := lookup?_encode interned (Nat.le_trans compiled.size_le I.fits)
    refine Memory.knows_of_ne (I.constants v (mem_of_lookup? (compiled.lookup? entry))) ?_
    intro offset same
    simp [same, Value.isInterned] at interned
  decodes _ := decode_of_lookup? a.heap (h.lookup?_constant interned compiled)

/-- The word that a value is encoded as stands for it. -/
theorem denotes_encode (h : Holds I σ a) {v : Value} (known : σ.Knows I v) :
    Denotes I σ { a with dictionary := (encode v a.dictionary).2 } (encode v a.dictionary).1 v where
  known := known
  decodes fits := by
    cases v with
    | undefined | bool | int => simp [encode, decode]
    | str | object | shape => exact decode_of_lookup? a.heap (lookup?_encode rfl fits)
    | ref offset =>
      obtain ⟨t, found⟩ := Option.isSome_iff_exists.mp (known.recorded offset rfl)
      simp [encode, decode, h.contains found]

end Holds

theorem FrameMachine.size_eq (a : FrameMachine) :
    a.size = a.current.size + (a.callers.map CallFrame.size).sum := by
  simp [FrameMachine.size, FrameMachine.frames]

namespace At
variable {I : Image} {ctx : Context} {σ τ : Memory} {pc : Nat} {vals : List Value}
  {a b : FrameMachine}

/-- A change outside of the frames. -/
theorem change (h : At I ctx σ pc vals a) (later : Later σ a τ b) (holds : Holds I τ b)
    (status : b.status = a.status) (config : b.config = a.config) (current : b.current = a.current)
    (callers : b.callers = a.callers) (slots : τ.slots = σ.slots) : At I ctx τ pc vals b where
  holds := holds
  status := status.trans h.status
  config := config.trans h.config
  function := by rw [current, h.function]
  code := by rw [holds.hosts.code, ← h.code, h.holds.hosts.code]
  pc := by rw [current, h.pc]
  callers := callers.trans h.callers
  locals := by rw [slots, h.locals]
  slots := by rw [current, slots]; exact later.all h.slots
  operands := by rw [current]; exact later.all h.operands
  kept p mem := later.denotes (h.kept p mem)
  room := by
    have room := h.room
    rw [FrameMachine.size_eq] at room ⊢
    rw [current, callers, config]
    exact room

theorem moveTo (h : At I ctx σ pc vals a) (target : Nat) :
    At I ctx σ target vals (a.moveTo target) := by
  have later : Later σ a σ (a.moveTo target) :=
    ⟨fun _ known => known, .refl _, Nat.le_refl _⟩
  exact { h with
    holds := h.holds.setFrames _ _ _
    pc := rfl
    slots := later.all h.slots
    operands := later.all h.operands
    kept := fun p mem => later.denotes (h.kept p mem) }

theorem setOperands (h : At I ctx σ pc vals a) {ws : List Word} {others : List Value}
    (means : List.Forall₂ (Denotes I σ a) ws others)
    (room : a.size + ws.length ≤ a.config.stackCapacity + a.current.operands.length) :
    At I ctx σ pc others (a.setOperands ws) := by
  have later : Later σ a σ (a.setOperands ws) :=
    ⟨fun _ known => known, .refl _, Nat.le_refl _⟩
  exact { h with
    holds := h.holds.setFrames _ _ _
    slots := later.all h.slots
    operands := later.all means
    kept := fun p mem => later.denotes (h.kept p mem)
    room := by
      rw [FrameMachine.size_eq] at room ⊢
      simp only [FrameMachine.setOperands, CallFrame.size] at room ⊢
      omega }

theorem code_eq (h : At I ctx σ pc vals a) : a.code = ctx.code := by
  simp [FrameMachine.code, h.function, h.holds.world, h.code]

theorem next_eq (h : At I ctx σ pc vals a) {i : Instr} {is : List Instr}
    (here : ctx.code.HasAt pc (i :: is)) :
    FrameExec.next a = FrameExec.execute i (a.moveTo (pc + i.width)) := by
  have fetched : a.code.fetch a.current.pc = .ok i := by
    rw [h.code_eq, h.pc]
    exact here.fetch
  rw [FrameMachine.next_eq fetched, h.pc]

/-- The top operand is taken off. -/
theorem pop {v : Value} (h : At I ctx σ pc (v :: vals) a) :
    ∃ w rest, a.current.operands = w :: rest ∧ FrameExec.pop a = .ok w (a.setOperands rest) ∧
      Denotes I σ a w v ∧ At I ctx σ pc vals (a.setOperands rest) := by
  have means := h.operands
  cases ops : a.current.operands with
  | nil =>
    rw [ops] at means
    cases means
  | cons w rest =>
    rw [ops] at means
    cases means with
    | cons first others =>
      have room := h.room
      refine ⟨w, rest, rfl, by simp only [FrameExec.pop, ops], first, h.setOperands others ?_⟩
      rw [ops, List.length_cons]
      omega

/-- A value is pushed unless there is no room for it. -/
theorem push {v : Value} {w : Word} (h : At I ctx σ pc vals a) (means : Denotes I σ a w v) :
    (∃ b, FrameExec.push w a = .ok () b ∧ At I ctx σ pc (v :: vals) b) ∨
      a.config.stackCapacity < a.size + 1 ∧
        FrameExec.push w a = .error (.fatal (.stackOverflow a.config.stackCapacity)) a := by
  rw [FrameExec.push]
  by_cases full : a.config.stackCapacity < a.size + 1
  · exact .inr ⟨full, if_pos full⟩
  · refine .inl ⟨_, if_neg full, h.setOperands (.cons means h.operands) ?_⟩
    rw [List.length_cons]
    omega

end At

/-- The frames that wait in a context belong to the stretch, and they are neither too many nor too
large. -/
structure Stretch.Spans (S : Stretch) (ctx : Context) : Prop where
  outer : ∃ above, ctx.callers = above ++ S.outer
  limit : ctx.callers.length ≤ S.limit
  frames : ∀ f ∈ ctx.callers, f.size ≤ S.frame

/-- Code is at a place inside the stretch, and the frame may get as large as all the operands that the
code can leave. -/
structure Stretch.HasAt (S : Stretch) (ctx : Context) (pc : Nat) (vals : List Value) (is : List Instr) :
    Prop where
  code : ctx.code.HasAt pc is
  spans : S.Spans ctx
  inside : ctx.callers = S.outer → S.start ≤ pc ∧ pc + codeWidth is ≤ S.stop
  room : 1 + ctx.locals.length + Frame.recordSize + (vals.length + codeWidth is) ≤ S.frame

namespace Stretch

/-- The words of all frames that wait. -/
theorem Spans.size_le {S : Stretch} {ctx : Context} (h : S.Spans ctx) :
    (ctx.callers.map CallFrame.size).sum ≤ ctx.callers.length * S.frame := by
  have all := h.frames
  generalize ctx.callers = callers at all
  induction callers with
  | nil => exact Nat.zero_le _
  | cons f callers ih =>
    have first := all f List.mem_cons_self
    have rest := ih fun g mem => all g (List.mem_cons_of_mem _ mem)
    rw [List.map_cons, List.sum_cons, List.length_cons, Nat.succ_mul]
    omega

namespace HasAt
variable {S : Stretch} {ctx : Context} {pc : Nat} {vals others : List Value} {is js : List Instr}
  {i : Instr}

theorem left (h : S.HasAt ctx pc vals (is ++ js)) : S.HasAt ctx pc vals is where
  code := h.code.left
  spans := h.spans
  inside outermost := by
    have inside := h.inside outermost
    rw [codeWidth_append] at inside
    omega
  room := by
    have room := h.room
    rw [codeWidth_append] at room
    omega

theorem right (h : S.HasAt ctx pc vals (is ++ js))
    (few : others.length ≤ vals.length + codeWidth is) :
    S.HasAt ctx (pc + codeWidth is) others js where
  code := h.code.right
  spans := h.spans
  inside outermost := by
    have inside := h.inside outermost
    rw [codeWidth_append] at inside
    omega
  room := by
    have room := h.room
    rw [codeWidth_append] at room
    omega

theorem tail (h : S.HasAt ctx pc vals (i :: is)) (few : others.length ≤ vals.length + i.width) :
    S.HasAt ctx (pc + i.width) others is := by
  have width : codeWidth [i] = i.width := by simp
  rw [← width] at few ⊢
  exact right (show S.HasAt ctx pc vals ([i] ++ is) from h) few

/-- A machine that is about to execute the code is in the stretch. -/
theorem covers {I : Image} {σ : Memory} {a : FrameMachine} (h : S.HasAt ctx pc vals (i :: is))
    (at_a : At I ctx σ pc vals a) : S.Covers a := by
  obtain ⟨above, callers⟩ := h.spans.outer
  refine ⟨above, at_a.callers.trans callers, fun none => ?_⟩
  subst none
  have inside := h.inside callers
  have width := i.width_pos
  rw [codeWidth_cons] at inside
  rw [at_a.pc]
  omega

/-- If a word cannot be pushed then the stack is too small. -/
theorem lacks {I : Image} {σ : Memory} {a : FrameMachine} {pc' : Nat}
    (h : S.HasAt ctx pc vals (i :: is)) (at_a : At I ctx σ pc' others a)
    (few : others.length ≤ vals.length) (full : a.config.stackCapacity < a.size + 1) :
    S.Lacks a.config.stackCapacity := by
  have room := h.room
  have width := i.width_pos
  have waiting := h.spans.size_le
  have limit := Nat.mul_le_mul_right S.frame h.spans.limit
  have slots := at_a.slots.length_eq
  have operands := at_a.operands.length_eq
  have locals := at_a.locals
  rw [codeWidth_cons] at room
  rw [FrameMachine.size_eq, at_a.callers, CallFrame.size] at full
  rw [Lacks, Nat.succ_mul]
  omega

end HasAt
end Stretch

/-- The machine holds something that a script may act on. -/
def Sane (I : Image) (a : FrameMachine) : Prop := ∃ σ, Holds I σ a

/-- The machine is about to return a value from its function. -/
def Returns (I : Image) (S : Stretch) (ctx : Context) (σ : Memory) (v : Value) (a : FrameMachine) :
    Prop :=
  ∃ pc vals, At I ctx σ pc (v :: vals) a ∧ S.HasAt ctx pc (v :: vals) [.ret]

/-- The machine is about to stop with the fault, in its part of the run. -/
def Fails (I : Image) (S : Stretch) (σ : Memory) (fault : Fault) (a : FrameMachine) : Prop :=
  Sane I a ∧ S.Covers a ∧ ∃ b, ∃ c : FrameMachine, a.step = .error (c.raise fault) b ∧ Holds I σ b

/-- A call would be deeper than the stretch allows, and the stack has not overflowed. -/
def GoesDeeper (I : Image) (S : Stretch) (a : FrameMachine) : Prop :=
  Sane I a ∧ S.limit < a.config.stackCapacity

section
variable {α β : Type} {I : Image} {S : Stretch} {ctx : Context}

/-- Where the machine is when a piece of a function has come to its end. -/
def Ends (I : Image) (S : Stretch) (ctx : Context) (k : α → Memory → FrameMachine → Prop) :
    EStateM.Result Stop Memory α → FrameMachine → Prop
  | .ok v σ => k v σ
  | .error (.returned v) σ => Returns I S ctx σ v
  | .error (.failed e) σ => Fails I S σ (.failure e)
  | .error (.noRoom requested available) σ => Fails I S σ (.fatal (.heapExhausted requested available))
  | .error .tooDeep _ => GoesDeeper I S

/-- What is executed after something else. -/
theorem Leads.bind {k : α → Memory → FrameMachine → Prop}
    {k' : β → Memory → FrameMachine → Prop} {x : Meaning α} {f : α → Meaning β} {σ : Memory}
    {n j : Nat} {a : FrameMachine} (h : Leads (Sane I) S (Ends I S ctx k (x σ)) n a)
    (next : ∀ v τ b, x σ = .ok v τ → k v τ b → Leads (Sane I) S (Ends I S ctx k' (f v τ)) j b) :
    Leads (Sane I) S (Ends I S ctx k' ((x >>= f) σ)) (n + j) a := by
  apply h.trans
  intro b ends
  rw [bind_eq]
  cases result : x σ with
  | ok v τ =>
    rw [result] at ends
    exact next v τ b result ends
  | error stop τ =>
    rw [result] at ends
    cases stop <;> exact .here ends

/-- What is executed after a piece that has come to a result, which stays the result. -/
theorem Leads.andThen {k k' : α → Memory → FrameMachine → Prop}
    {r : EStateM.Result Stop Memory α} {n j : Nat} {a : FrameMachine}
    (h : Leads (Sane I) S (Ends I S ctx k r) n a)
    (next : ∀ v τ b, r = .ok v τ → k v τ b → Leads (Sane I) S (k' v τ) j b) :
    Leads (Sane I) S (Ends I S ctx k' r) (n + j) a := by
  apply h.trans
  intro b ends
  match r with
  | .ok v τ => exact next v τ b rfl ends
  | .error (.returned v) τ | .error (.failed e) τ | .error (.noRoom requested available) τ
  | .error .tooDeep τ => exact .here ends

/-- How the execution of an instruction agrees with a meaning. -/
def Agrees (I : Image) (S : Stretch) (k : α → Memory → FrameMachine → Prop)
    (r : EStateM.Result Stop Memory α) :
    EStateM.Result Fault FrameMachine (Option Value) → Prop
  | .ok none b => ∃ v τ, r = .ok v τ ∧ k v τ b
  | .ok (some _) _ => False
  | .error (.failure e) b => ∃ τ, r = .error (.failed e) τ ∧ Holds I τ b
  | .error (.fatal (.heapExhausted requested available)) b =>
    ∃ τ, r = .error (.noRoom requested available) τ ∧ Holds I τ b
  | .error (.fatal (.stackOverflow _)) b => S.Lacks b.config.stackCapacity ∧ Sane I b
  | .error (.fatal _) _ => False

section
variable {k : α → Memory → FrameMachine → Prop} {r : EStateM.Result Stop Memory α} {σ τ : Memory}
  {pc pc' : Nat} {vals others : List Value} {a : FrameMachine} {i : Instr} {is : List Instr}

/-- An instruction is executed in one step. -/
theorem At.executes (h : At I ctx σ pc vals a) (here : S.HasAt ctx pc vals (i :: is))
    (agrees : ∀ b, At I ctx σ (pc + i.width) vals b → b.dictionary.size ≤ 2 ^ 32 →
      Agrees I S k r (FrameExec.execute i b)) :
    Leads (Sane I) S (Ends I S ctx k r) 1 a := by
  by_cases fits : a.dictionary.size ≤ 2 ^ 32
  · have good : Sane I a := ⟨σ, h.holds⟩
    have next := h.next_eq here.code
    have same := agrees _ (h.moveTo (pc + i.width)) fits
    match result : FrameExec.execute i (a.moveTo (pc + i.width)) with
    | .ok none b =>
      rw [result] at next same
      obtain ⟨v, τ, came, reached⟩ := same
      subst came
      exact .next good (here.covers h) (FrameMachine.step_continue h.status next) (.here reached)
    | .ok (some v) b =>
      rw [result] at same
      cases same
    | .error (.failure e) b =>
      rw [result] at next same
      obtain ⟨τ, came, holds⟩ := same
      subst came
      exact .here ⟨good, here.covers h, _, b, FrameMachine.step_error h.status next,
        holds.setFrames _ _ _⟩
    | .error (.fatal (.heapExhausted requested available)) b =>
      rw [result] at next same
      obtain ⟨τ, came, holds⟩ := same
      subst came
      exact .here ⟨good, here.covers h, _, b, FrameMachine.step_error h.status next,
        holds.setFrames _ _ _⟩
    | .error (.fatal (.stackOverflow capacity)) b =>
      rw [result] at next same
      obtain ⟨lacks, τ, holds⟩ := same
      exact .overflow good (here.covers h) (FrameMachine.step_error h.status next) lacks
        ⟨τ, holds.setFrames _ _ _⟩
    | .error (.fatal (.invalidWord e)) b | .error (.fatal (.unknownOpcode opcode place)) b
    | .error (.fatal (.corruptOperand kind)) b =>
      rw [result] at same
      cases same
  · exact .outgrown ⟨σ, h.holds⟩ (Nat.lt_of_not_le fits)

/-- A push ends the execution of an instruction. -/
theorem At.agrees_push {u : α} {w : Word} {v : Value} (h : At I ctx τ pc' others a)
    (here : S.HasAt ctx pc vals (i :: is)) (few : others.length ≤ vals.length)
    (means : Denotes I τ a w v) (reached : ∀ b, At I ctx τ pc' (v :: others) b → k u τ b) :
    Agrees I S k (.ok u τ) ((FrameExec.push w >>= fun _ => pure none) a) := by
  rw [bind_eq]
  obtain ⟨b, pushed, at_b⟩ | ⟨full, failed⟩ := h.push means
  · rw [pushed]
    exact ⟨u, τ, rfl, reached b at_b⟩
  · rw [failed]
    exact ⟨here.lacks h few full, τ, h.holds⟩

end
end
end TaggedScript
