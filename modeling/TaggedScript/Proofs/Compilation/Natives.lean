import TaggedScript.Proofs.Compilation.Instructions

/-!
Records are made and functions without code are called. These store nothing and hand back nothing but
what may be met in a run.
-/
namespace TaggedScript

/-- How a tame function leaves the world, and what it hands back. -/
def Behaves (I : Image) (σ : Memory) : EStateM.Result Failure World Value → Prop
  | .ok v w => (∃ effects, (∀ e ∈ effects, ∀ u ∈ e.stored?, σ.Knows I u) ∧
      w = σ.world.changeAll effects) ∧ σ.Knows I v
  | .error _ w => ∃ effects, (∀ e ∈ effects, ∀ u ∈ e.stored?, σ.Knows I u) ∧
      w = σ.world.changeAll effects

section
variable {I : Image} {σ : Memory} {a : FrameMachine}

/-- Nothing was changed. -/
theorem exists_changeAll (w : World) : ∃ effects : List Effect,
    (∀ e ∈ effects, ∀ u ∈ e.stored?, σ.Knows I u) ∧ w = w.changeAll effects :=
  ⟨[], by simp, rfl⟩

theorem behaves_printValues (args : List Value) : Behaves I σ (printValues args σ.world) := by
  simp only [printValues, bind_eq, get_eq, writeLine]
  by_cases closed : σ.world.closed = true
  · rw [if_pos closed]
    exact exists_changeAll _
  · rw [if_neg closed]
    let line := String.intercalate " " (args.map σ.world.text)
    have stores : ∀ e ∈ [Effect.write (line ++ "\n")], ∀ u ∈ e.stored?, σ.Knows I u := by
      simp [Effect.stored?]
    exact ⟨⟨_, stores, (if_neg closed).symm⟩, Memory.knows_plain I σ rfl (by simp)⟩

theorem behaves_callOperator (op : Operator) (args : List Value) :
    Behaves I σ (callOperator op args σ.world) := by
  unfold callOperator
  split
  · rename_i a b
    simp only [bind_eq, get_eq]
    cases result : op.apply σ.world a b with
    | ok v =>
      obtain ⟨plain, other⟩ := Operator.apply_plain result
      exact ⟨exists_changeAll _, Memory.knows_plain I σ plain other⟩
    | error e => exact exists_changeAll _
  · exact exists_changeAll _

/-- What a function of the host comes by may be met. -/
theorem Holds.gets (h : Holds I σ a) {receiver v : Value} {args : List Value}
    (known : ∀ u ∈ receiver :: args, σ.Knows I u)
    (gets : Native.Gets I σ.world.view receiver args v) : σ.Knows I v := by
  cases gets with
  | receiver => exact known _ List.mem_cons_self
  | arg mem => exact known v (List.mem_cons_of_mem _ mem)
  | global reads => exact h.globals _ reads
  | field allowed reads => exact h.fields _ _ allowed reads
  | own allowed other => exact Memory.knows_of_ne allowed other

theorem behaves_callHost (h : Holds I σ a)
    {respond : View → Value → List Value → List Effect × Except String Value}
    (tame : (Native.foreign respond).Tame I) {receiver : Value} {args : List Value}
    (known : ∀ u ∈ receiver :: args, σ.Knows I u) :
    Behaves I σ (callHost respond receiver args σ.world) := by
  obtain ⟨stores, answers⟩ := tame σ.world.view receiver args
  simp only [callHost, bind_eq, get_eq, modify_eq]
  have changed := fun e mem v stored => h.gets known (stores e mem v stored)
  cases answer : (respond σ.world.view receiver args).2 with
  | ok v => exact ⟨⟨_, changed, rfl⟩, h.gets known (answers v answer)⟩
  | error text => exact ⟨_, changed, rfl⟩

theorem behaves_invoke (h : Holds I σ a) (id : ObjectId) {receiver : Value} {args : List Value}
    (known : ∀ u ∈ receiver :: args, σ.Knows I u) :
    Behaves I σ (invoke id receiver args σ.world) := by
  simp only [invoke, bind_eq, get_eq]
  generalize callLimit σ.world = limit
  unfold invokeWithin
  simp only [bind_eq, get_eq]
  cases body : (σ.world.object id).body with
  | plain => exact exists_changeAll _
  | compiled code => exact exists_changeAll _
  | native n =>
    have tame := h.hosts.natives id n body
    cases n with
    | print => exact behaves_printValues args
    | operator op => exact behaves_callOperator op args
    | closure scope run definition => cases tame
    | foreign respond => exact behaves_callHost h tame known

theorem behaves_callValue (h : Holds I σ a) (callee : Value) {receiver : Value} {args : List Value}
    (known : ∀ u ∈ receiver :: args, σ.Knows I u) :
    Behaves I σ (callValue invoke callee receiver args σ.world) := by
  simp only [callValue, bind_eq, get_eq]
  cases callee with
  | object id =>
    simp only
    split
    · exact behaves_invoke h id known
    · exact exists_changeAll _
  | undefined | bool | int | str | shape | ref => exact exists_changeAll _

end

section
variable {I : Image} {S : Stretch} {ctx : Context} {σ : Memory} {pc : Nat}
  {vals : List Value} {a : FrameMachine} {is : List Instr}

/-- What is done outside of the machine does to its world what it does to that of a script. -/
theorem At.onWorld {f : Action Value} (h : At I ctx σ pc vals a)
    (behaves : Behaves I σ (f σ.world)) :
    (∃ v τ b, FrameExec.onWorld f a = .ok v b ∧ Meaning.outside f σ = .ok v τ ∧
      At I ctx τ pc vals b ∧ τ.Knows I v ∧ b.current = a.current ∧ Later σ a τ b ∧
      b.dictionary = a.dictionary) ∨
    ∃ e τ b, FrameExec.onWorld f a = .error (.failure e) b ∧
      Meaning.outside f σ = .error (.failed e) τ ∧ Holds I τ b := by
  simp only [FrameExec.onWorld, Meaning.outside, h.holds.world]
  cases result : f σ.world with
  | ok v w =>
    rw [result] at behaves
    obtain ⟨⟨effects, stores, rfl⟩, known⟩ := behaves
    have later : Later σ a { σ with world := σ.world.changeAll effects }
        { a with world := σ.world.changeAll effects } :=
      ⟨fun _ known => known, .refl _, Nat.le_refl _⟩
    have holds := h.holds.changeAll stores
    rw [h.holds.world] at holds
    exact .inl ⟨v, _, _, rfl, rfl, h.change later holds rfl rfl rfl rfl rfl, known.same rfl, rfl,
      later, rfl⟩
  | error e w =>
    rw [result] at behaves
    obtain ⟨effects, stores, rfl⟩ := behaves
    have holds := h.holds.changeAll stores
    rw [h.holds.world] at holds
    exact .inr ⟨e, _, _, rfl, rfl, holds⟩

/-- `PRINT` is a call outside of the machine. -/
theorem printTop_eq {c : FrameMachine} {w : Word} {v : Value} (popped : FrameExec.pop a = .ok w c)
    (decoded : FrameExec.decodeWord w c = .ok v c) :
    FrameExec.printTop a =
      (FrameExec.onWorld (callValue invoke (c.world.global printName) .undefined [v]) >>=
        fun _ => FrameExec.push .undefined) c := by
  simp only [FrameExec.printTop, bind_eq, popped, decoded, get_eq, FrameExec.onWorld, callValue]
  cases c.world.global printName with
  | object id =>
    simp only
    by_cases callable : (c.world.object id).isCallable = true
    · rw [if_pos callable, if_pos callable]
      rfl
    · rw [if_neg callable, if_neg callable]
      rfl
  | undefined | bool | int | str | shape | ref => rfl

theorem denotes_undefined (I : Image) (σ : Memory) (a : FrameMachine) :
    Denotes I σ a .undefined .undefined where
  known := Memory.knows_plain I σ rfl (by simp)
  decodes _ := by simp [decode]

theorem At.print {v : Value} (h : At I ctx σ pc (v :: vals) a)
    (here : S.HasAt ctx pc (v :: vals) (.print :: is)) :
    Leads (Sane I) S (Ends I S ctx (fun u τ b => At I ctx τ (pc + 1) (u :: vals) b)
      (Meaning.print v σ)) 1 a := by
  apply h.executes here
  intro b at_b fits
  obtain ⟨u, rest, -, popped, means, after⟩ := at_b.pop
  have later : Later σ b σ (b.setOperands rest) := ⟨fun _ known => known, .refl _, Nat.le_refl _⟩
  have decoded := (later.denotes means).decodeWord fits
  have known : ∀ u ∈ [.undefined, v], σ.Knows I u := by
    intro u mem
    rcases List.mem_pair.mp mem with rfl | rfl
    · exact Memory.knows_plain I σ rfl (by simp)
    · exact means.known
  have behaves := behaves_callValue after.holds (σ.world.global printName) known
  have global : (b.setOperands rest).world.global printName = σ.world.global printName := by
    rw [after.holds.world]
  simp only [FrameExec.execute]
  rw [bind_eq, printTop_eq popped decoded, global, ← bind_eq]
  simp only [Meaning.print, bind_eq, get_eq]
  obtain ⟨r, τ, c, made, meant, at_c, -, -, -⟩ | ⟨e, τ, c, made, meant, holds⟩ :=
    after.onWorld behaves
  · rw [made, meant]
    exact at_c.agrees_push here (Nat.le_succ _) (denotes_undefined I τ c) fun _ reached => reached
  · rw [made, meant]
    exact ⟨τ, rfl, holds⟩

/-- A word of the code that is a class for records with these fields. -/
def ClassOf (I : Image) (w : Word) (fields : List String) : Prop :=
  ∃ d id, w = (encode (.shape id) d).1 ∧ (encode (.shape id) d).2.Extends I.compiled.dictionary ∧
    (I.compiled.world.shape id).fields = fields

/-- A record is made at the end of the heap. -/
theorem Holds.newRecord {t : Table} {shape : Word} {id : ShapeId} {fields : List Word}
    (h : Holds I σ a) (near : a.heap.pointer < 2 ^ 32)
    (names : a.dictionary.size ≤ 2 ^ 32 → a.dictionary.lookup? shape = some (.shape id))
    (declares : (a.world.shape id).fields = t.map (·.1))
    (means : List.Forall₂ (Denotes I σ a) fields (t.map (·.2))) :
    let τ := { σ with records := σ.records ++ [t] }
    let b := { a with heap := { a.heap with
      words := a.heap.words ++ (shape :: Heap.mark :: fields) } }
    Later σ a τ b ∧ Holds I τ b := by
  intro τ b
  have words : b.heap.words.toList = a.heap.words.toList ++ shape :: Heap.mark :: fields := by
    simp [b]
  have later : Later σ a τ b := by
    refine ⟨fun offset there => ?_, .refl _, ?_⟩
    case refine_2 =>
      rw [Heap.pointer, Heap.pointer, ← Array.length_toList, ← Array.length_toList, words,
        List.length_append]
      exact Nat.le_add_right _ _
    obtain ⟨u, found⟩ := Option.isSome_iff_exists.mp there
    rw [recordAt?_append [t] found]
    rfl
  have old : HeapHolds I τ b a.heap.words.toList σ.records := later.heapHolds rfl h.heap
  refine ⟨later, {
    world := h.world
    hosts := h.hosts
    dictionary := h.dictionary
    interned := h.interned
    entries := h.entries
    globals := fun y reads => later.knows (h.globals y reads)
    fields := fun id y allowed reads => later.knows (h.fields id y allowed reads)
    heap := by
      rw [words]
      exact old.append names declares (later.all means)
    capacity := h.capacity
    addressed := fun offset there => ?_ }⟩
  obtain before | last := recordAt?_append_cases there
  · exact h.addressed offset before
  · rwa [last, ← h.heap.length_eq, Array.length_toList]

/-- The top operands, the top one last. -/
theorem At.top {vs : List Value} (h : At I ctx σ pc (vs.reverse ++ vals) a) :
    ∃ ws, FrameExec.top vs.length a = .ok ws a ∧ List.Forall₂ (Denotes I σ a) ws vs := by
  have size := h.operands.length_eq
  simp only [List.length_append, List.length_reverse] at size
  have enough : ¬ a.current.operands.length < vs.length := by omega
  refine ⟨(a.current.operands.take vs.length).reverse, by rw [FrameExec.top, if_neg enough], ?_⟩
  have taken := List.forall₂_take_append _ _ _ h.operands
  rw [List.length_reverse] at taken
  exact List.forall₂_reverse_iff.mp (by rw [List.reverse_reverse]; exact taken)

theorem At.dropTop {vs : List Value} (h : At I ctx σ pc (vs ++ vals) a) :
    ∃ b, FrameExec.dropTop vs.length a = .ok () b ∧ At I ctx σ pc vals b := by
  have size := h.operands.length_eq
  simp only [List.length_append] at size
  have enough : ¬ a.current.operands.length < vs.length := by omega
  have dropped := List.forall₂_drop_append _ _ _ h.operands
  have room := h.room
  refine ⟨a.setOperands (a.current.operands.drop vs.length),
    by rw [FrameExec.dropTop, if_neg enough], h.setOperands dropped ?_⟩
  rw [List.length_drop]
  omega

theorem At.new {t : Table} {w : Word}
    (h : At I ctx σ pc ((t.map (·.2)).reverse ++ vals) a) (class_ : ClassOf I w (t.map (·.1)))
    (here : S.HasAt ctx pc ((t.map (·.2)).reverse ++ vals) (.new w :: is)) :
    Leads (Sane I) S (Ends I S ctx (fun u τ b => At I ctx τ (pc + 2) (u :: vals) b)
      (Meaning.newRecord t σ)) 1 a := by
  apply h.executes here
  intro b at_b fits
  obtain ⟨d, id, word, compiled, declares⟩ := class_
  have names := at_b.holds.lookup?_constant (v := .shape id) rfl compiled
  rw [← word] at names
  have declares' : (b.world.shape id).fields = t.map (·.1) := by
    rw [World.shape, at_b.holds.world, at_b.holds.hosts.shapes]
    exact declares
  have width : (b.world.shape id).fields.length = (t.map (·.2)).length := by
    rw [declares', List.length_map, List.length_map]
  have decoded : FrameExec.decodeWord w b = .ok (.shape id) b := by
    rw [decodeWord_frames, decode_of_lookup? b.heap names]
  obtain ⟨fields, taken, means⟩ := at_b.top
  have pointer : b.heap.pointer = roomOf σ.records := by
    rw [← at_b.holds.heap.length_eq, Array.length_toList, Heap.pointer]
  have available : b.heap.available = σ.capacity - roomOf σ.records := by
    rw [Heap.available, at_b.holds.capacity, pointer]
  have requested : Heap.headerSize + fields.length = recordRoom t := by
    rw [recordRoom, means.length_eq, List.length_map]
  simp only [FrameExec.execute]
  rw [bind_eq, Meaning.newRecord_eq]
  simp only [FrameExec.newRecord, bind_eq, decoded, get_eq, pure_eq, width, taken,
    FrameExec.onHeap, Heap.allocate, available, requested, pointer]
  by_cases small : σ.capacity - roomOf σ.records < recordRoom t
  · rw [if_pos small, if_pos (.inl small)]
    exact ⟨σ, rfl, at_b.holds⟩
  by_cases far : 4294967296 ≤ roomOf σ.records
  · rw [if_neg small, if_pos far, if_pos (.inr far)]
    exact ⟨σ, rfl, at_b.holds⟩
  rw [if_neg small, if_neg far, if_neg fun full => full.elim small far]
  obtain ⟨later, holds⟩ := at_b.holds.newRecord (pointer ▸ Nat.lt_of_not_le far) (fun _ => names)
    declares' means
  have made := at_b.change later holds rfl rfl rfl rfl rfl
  obtain ⟨c, dropped, at_c⟩ := made.dropTop
  rw [List.length_reverse] at dropped
  have offset : (UInt32.ofNat (roomOf σ.records)).toNat = roomOf σ.records := by
    rw [UInt32.toNat_ofNat', Nat.mod_eq_of_lt (Nat.lt_of_not_le far)]
  have found : recordAt? (σ.records ++ [t]) (UInt32.ofNat (roomOf σ.records)).toNat = some t := by
    rw [offset]
    exact recordAt?_new _ _
  have means : Denotes I { σ with records := σ.records ++ [t] } c
      (.heap (UInt32.ofNat (roomOf σ.records))) (.ref (UInt32.ofNat (roomOf σ.records))) := by
    refine ⟨⟨I.plain _ rfl, fun other same => ?_⟩, fun _ => ?_⟩
    · cases same
      rw [found]
      rfl
    · simp [decode, at_c.holds.contains found]
  simp only [dropped]
  have pushed := at_c.agrees_push here (by simp) means
    (k := fun u τ b => At I ctx τ (pc + 2) (u :: vals) b) fun _ reached => reached
  rw [bind_eq] at pushed
  exact pushed

end
end TaggedScript
