import TaggedScript.Proofs.Compilation.Leads
import TaggedScript.Proofs.Lockstep.Machines

/-!
The steps of machines in lockstep. They come to corresponding results and leave the machines in
lockstep, and no step agrees on more than one record.
-/
namespace TaggedScript
namespace Lockstep
variable {R : Renumbering}

/-- What is agreed on after an instruction that may make a record of some kind. -/
structure Next (made : Header → Prop) (L L' : Lockstep R) : Prop where
  grows : L.Grows L'
  objects : L'.objects = L.objects
  shapes : L'.shapes = L.shapes
  records : L'.records = L.records ∨ ∃ r, made r ∧ L'.records = L.records ++ [r]

variable {L L' : Lockstep R} {O : Outermost R} {made : Header → Prop} {x y : FrameMachine}

namespace Next

theorem refl (L : Lockstep R) : L.Next made L := ⟨.refl L, rfl, rfl, .inl rfl⟩

theorem encoded (L : Lockstep R) (v u : Value) : L.Next made (L.encoded v u) :=
  ⟨L.grows_encoded v u, rfl, rfl, .inl rfl⟩

theorem recorded (L : Lockstep R) {r : Header} (allowed : made r) : L.Next made (L.recorded r) :=
  ⟨L.grows_recorded r, rfl, rfl, .inr ⟨r, allowed, rfl⟩⟩

end Next

/-- Results that correspond once more is agreed on, or the same fault. -/
def Moved {α β : Type} (L : Lockstep R) (O : Outermost R) (made : Header → Prop)
    (V : Lockstep R → α → β → Prop) :
    EStateM.Result Fault FrameMachine α → EStateM.Result Fault FrameMachine β → Prop
  | .ok a x, .ok b y => ∃ L', L.Next made L' ∧ V L' a b ∧ Together L' O True x y
  | .error e x, .error e' y => e = e' ∧ ∃ L', L.Next made L' ∧ Together L' O True x y
  | _, _ => False

/-- Two actions that machines in lockstep carry out together. -/
def Moves {α β : Type} (L : Lockstep R) (O : Outermost R) (made : Header → Prop)
    (V : Lockstep R → α → β → Prop) (f : FrameExec α) (g : FrameExec β) : Prop :=
  ∀ x y, Together L O True x y → L.Moved O made V (f x) (g y)

theorem Results.moved {α β : Type} {V : Lockstep R → α → β → Prop} (more : L.Next made L')
    {r : EStateM.Result Fault FrameMachine α} {r' : EStateM.Result Fault FrameMachine β}
    (h : L'.Results O True (V L') r r') : L.Moved O made V r r' := by
  rcases r with ⟨a, x⟩ | ⟨e, x⟩ <;> rcases r' with ⟨b, y⟩ | ⟨e', y⟩
  · exact ⟨L', more, h⟩
  · exact h.elim
  · exact h.elim
  · exact ⟨h.1, L', more, h.2⟩

/-- There is no result on either side. -/
def Silent (_ : Lockstep R) (v u : Option Value) : Prop := v = none ∧ u = none

namespace Moves
variable {α β γ δ : Type} {V : Lockstep R → α → β → Prop} {U : Lockstep R → γ → δ → Prop}

/-- An action after one that agrees on no more. -/
theorem after {W : α → β → Prop} {f : FrameExec α} {g : FrameExec β} {k : α → FrameExec γ}
    {k' : β → FrameExec δ} (h : L.InStep O True W f g)
    (next : ∀ a b, W a b → L.Moves O made U (k a) (k' b)) :
    L.Moves O made U (f >>= k) (g >>= k') := by
  intro x y together
  have first := h x y together
  rw [bind_eq, bind_eq]
  generalize f x = r, g y = r' at first
  rcases r with ⟨a, x'⟩ | ⟨e, x'⟩ <;> rcases r' with ⟨b, y'⟩ | ⟨e', y'⟩
  · exact next a b first.1 x' y' first.2
  · exact first.elim
  · exact first.elim
  · exact ⟨first.1, L, .refl L, first.2⟩

/-- An action before one that agrees on no more. -/
theorem before {W : Lockstep R → γ → δ → Prop} {f : FrameExec α} {g : FrameExec β}
    {k : α → FrameExec γ} {k' : β → FrameExec δ} (h : L.Moves O made V f g)
    (next : ∀ L' a b, V L' a b → L'.InStep O True (W L') (k a) (k' b)) :
    L.Moves O made W (f >>= k) (g >>= k') := by
  intro x y together
  have first := h x y together
  rw [bind_eq, bind_eq]
  generalize f x = r, g y = r' at first
  rcases r with ⟨a, x'⟩ | ⟨e, x'⟩ <;> rcases r' with ⟨b, y'⟩ | ⟨e', y'⟩
  · obtain ⟨L', more, same, together'⟩ := first
    exact (next L' a b same x' y' together').moved more
  · exact first.elim
  · exact first.elim
  · exact first

theorem get {k k' : FrameMachine → FrameExec α} {V : Lockstep R → α → α → Prop}
    (h : ∀ x y, Together L O True x y → L.Moved O made V (k x x) (k' y y)) :
    L.Moves O made V (get >>= k) (get >>= k') := fun x y together => h x y together

/-- The encoding of a value. -/
theorem encode {v u : Value} (same : L.Matches v u) :
    L.Moves O made Pairs (FrameExec.encodeValue v) (FrameExec.encodeValue u) := by
  intro x y together
  refine ⟨L.encoded v u, .encoded L v u, ⟨u, ?_⟩, together.encoded v u⟩
  simp only [together.left, together.right, same.moved]
  exact L.same_encoded same.known

theorem push {w u : Word} (pairs : L.Pairs w u) :
    L.Moves O made (fun _ _ _ => True) (FrameExec.push w) (FrameExec.push u) :=
  fun x y together => (InStep.push pairs x y together).moved (.refl L)

/-- The encoding of a value that goes to the operands. -/
theorem encode_push {v u : Value} (same : L.Matches v u) :
    L.Moves O made (fun _ _ _ => True) (FrameExec.encodeValue v >>= FrameExec.push)
      (FrameExec.encodeValue u >>= FrameExec.push) :=
  (encode same).before fun _ _ _ pairs => .push pairs

end Moves

/-- A frame is begun by corresponding functions with corresponding receivers and arguments. -/
theorem Together.enter (together : Together L O True x y) {id : ObjectId} (slotCount argc : Nat)
    (there : id.index < L.objects) {c c' : Code}
    (left : (x.world.object (R.object id)).code? = some c)
    (right : (y.world.object id).code? = some c') (going : Going L c c' 0 0) :
    Together L O True (x.enter (R.object id) slotCount argc) (y.enter id slotCount argc) :=
  have operands := together.frame.operands
  have arguments := List.rel_reverse (List.forall₂_take (argc + 1) operands)
  { together with
    frame := by
      refine ⟨List.rel_append arguments ?_, .nil⟩
      rw [arguments.length_eq]
      exact L.all_undefined _
    active := ⟨together.objects ▸ there, rfl⟩
    place := fun _ => ⟨c, c', left, right, going⟩
    waiting := .cons ⟨together.frame.slots, List.forall₂_drop (argc + 2) operands⟩ together.active
      (together.place trivial) together.waiting }

theorem Together.begin (together : Together L O True x y) {id : ObjectId} (slotCount argc : Nat)
    (there : id.index < L.objects) {c c' : Code}
    (left : (x.world.object (R.object id)).code? = some c)
    (right : (y.world.object id).code? = some c') (going : Going L c c' 0 0) :
    L.Results O True (fun _ _ => True) (FrameExec.begin (R.object id) slotCount argc x)
      (FrameExec.begin id slotCount argc y) := by
  have entered := together.enter slotCount argc there left right going
  have size := entered.size_eq
  have config := together.config
  simp only [FrameExec.begin, size, config]
  split
  · exact ⟨rfl, together⟩
  · exact ⟨trivial, entered⟩

namespace Moves
section
variable (fits : L.Fits)
include fits

theorem getField {name : String} {w u : Word} (same : L.Same (.str name) w u) :
    L.Moves O made (fun _ _ _ => True) (FrameExec.getField w) (FrameExec.getField u) := by
  apply after (.nameOf fits same)
  rintro _ field ⟨rfl, rfl⟩
  apply after .pop
  intro receiver receiver' pairs
  apply after (.targetOf fits pairs _)
  rintro (offset | id) (offset' | id') target
  · obtain ⟨rfl, known⟩ := target
    obtain ⟨r, found⟩ := Option.isSome_iff_exists.mp known
    apply after (W := L.Pairs) ?_ fun _ _ => push
    intro x y together
    obtain ⟨a, b, left, right, pairs⟩ :=
      together.heaps.getField found fits together.worlds.toPrograms field
    simp only [FrameExec.readHeap, together.left, together.right, left, right]
    exact ⟨pairs, together⟩
  · exact target.elim
  · exact target.elim
  · obtain ⟨rfl, there⟩ := target
    apply Moves.get
    intro x y together
    obtain ⟨known, moved⟩ := together.worlds.fields id' there field
    exact encode_push ⟨known, moved⟩ x y together

theorem putField {name : String} {w u : Word} (same : L.Same (.str name) w u) :
    L.Moves O made (fun _ _ _ => True) (FrameExec.putField w) (FrameExec.putField u) := by
  apply after (.nameOf fits same)
  rintro _ field ⟨rfl, rfl⟩
  apply after .pop
  intro value value' pairs
  apply after .pop
  intro receiver receiver' pairs'
  apply after (.targetOf fits pairs' _)
  rintro (offset | id) (offset' | id') target
  · obtain ⟨rfl, known⟩ := target
    obtain ⟨r, found⟩ := Option.isSome_iff_exists.mp known
    apply Moves.get
    intro x y together
    have written := together.heaps.setField found fits together.worlds.toPrograms field pairs
    rw [← together.left, ← together.right] at written
    simp only [FrameExec.onHeap]
    obtain ⟨g, g', left, right, heaps⟩ | ⟨e, left, right⟩ := written
    · rw [left, right]
      exact ⟨L, .refl L, trivial, { together with heaps := heaps }⟩
    · rw [left, right]
      exact ⟨rfl, L, .refl L, together⟩
  · exact target.elim
  · exact target.elim
  · obtain ⟨rfl, there⟩ := target
    apply after (.decode fits pairs)
    rintro v u ⟨known, rfl⟩ x y together
    refine ⟨L, .refl L, trivial, together.setWorld ⟨?_, .setField _ _ _ _, .setField _ _ _ _⟩⟩
    exact together.worlds.setField there field known

theorem printTop :
    L.Moves O made (fun _ _ _ => True) FrameExec.printTop FrameExec.printTop := by
  apply after .pop
  intro w u pairs
  apply after (.decode fits pairs)
  rintro v u ⟨shown, rfl⟩
  apply Moves.get
  intro x y together
  obtain ⟨known, moved⟩ := together.worlds.globals printName
  have failed := together.worlds.notAFunction known
  rw [moved]
  generalize y.world.global printName = print at known failed
  cases print with
  | object id =>
    obtain ⟨left, right⟩ := (together.worlds.functions id known).isCallable
    simp only [Renumbering.value_object, left, right, ↓reduceIte]
    have all : ∀ v ∈ [u], L.Knows v := by simpa using shown
    have called : L.InStep O True L.Matches _ _ := InStep.invoke known .undefined all
    exact after called (fun _ _ _ => push L.pairs_undefined) x y together
  | undefined | bool | int | str | shape | ref =>
    exact ⟨congrArg Fault.failure failed, L, .refl L, together⟩

theorem callNative {id : ObjectId} (there : id.index < L.objects) (argc : Nat) :
    L.Moves O made (fun _ _ _ => True) (FrameExec.callNative (R.object id) argc)
      (FrameExec.callNative id argc) := by
  apply after (.top (argc + 1))
  intro ws us pairs
  apply after (.mapM_decode fits pairs)
  rintro _ vs ⟨rfl, known⟩
  have receiver : (vs.map R.value).headD .undefined = R.value (vs.headD .undefined) := by
    cases vs <;> rfl
  rw [receiver, ← List.map_tail]
  apply after (.invoke there _ fun v mem => known v (List.mem_of_mem_tail mem))
  intro v u same
  apply after (.dropTop _)
  intro _ _ _
  exact encode_push same

theorem newRecord {id : ShapeId} {w u : Word} (same : L.Same (.shape id) w u)
    (allowed : ∀ width, made ⟨u, width⟩) :
    L.Moves O made (fun _ _ _ => True) (FrameExec.newRecord w) (FrameExec.newRecord u) := by
  intro x y together
  obtain ⟨left, right⟩ := InStep.decodeWord_eq fits same together
  have shape := together.worlds.shapes id same.known
  simp only [FrameExec.newRecord, bind_eq, left, right, get_eq, pure_eq, Renumbering.value_shape,
    shape]
  have operands := together.frame.operands
  generalize width : (y.world.shape id).fields.length = n
  simp only [FrameExec.top, operands.length_eq]
  by_cases few : y.current.operands.length < n
  · rw [if_pos few, if_pos few]
    exact ⟨by rw [together.size_eq], L, .refl L, together⟩
  · rw [if_neg few, if_neg few]
    have fields := List.rel_reverse (List.forall₂_take n operands)
    have count : (y.current.operands.take n).reverse.length = n := by
      rw [List.length_reverse, List.length_take, Nat.min_eq_left (Nat.not_lt.mp few)]
    simp only [FrameExec.onHeap]
    obtain ⟨offset, g, g', left, right, heaps, known⟩ | ⟨e, left, right⟩ :=
      together.heaps.allocate same (width.trans count.symm) fields
    · simp only [left, right]
      have rest := InStep.bind (O := O) (.dropTop n) (fun _ _ _ =>
        .push ⟨_, (L.recorded _).same_ref known⟩) _ _ (together.recorded heaps)
      exact rest.moved (.recorded L (allowed _))
    · simp only [left, right]
      exact ⟨rfl, L, .refl L, together⟩

end

theorem enter {id : ObjectId} (argc : Nat) (together : Together L O True x y)
    (there : id.index < L.objects) {c c' : Code}
    (left : (x.world.object (R.object id)).code? = some c)
    (right : (y.world.object id).code? = some c') (going : Going L c c' 0 0)
    (parameters : c.parameterCount = c'.parameterCount) (slots : c.slotCount = c'.slotCount) :
    L.Moved O made (fun _ _ _ => True) (FrameExec.enter (R.object id) c argc x)
      (FrameExec.enter id c' argc y) := by
  have name := (together.worlds.functions id there).name
  simp only [FrameExec.enter, bind_eq, get_eq, name, parameters, slots]
  by_cases wrong : c'.parameterCount ≠ argc + 1
  · rw [if_pos wrong, if_pos wrong]
    exact ⟨rfl, L, .refl L, together⟩
  · rw [if_neg wrong, if_neg wrong]
    let v := Value.object x.current.function
    let u := Value.object y.current.function
    have entered := (together.encoded v u).begin c'.slotCount argc there left right
      (going.grow (L.grows_encoded v u))
    exact entered.moved (.encoded L v u)

/-- A call of what lies below the receiver and the arguments. -/
theorem call (fits : L.Fits) (argc : Nat) :
    L.Moves O made (fun _ _ _ => True) (FrameExec.call argc) (FrameExec.call argc) := by
  apply after (.peekAt (argc + 1))
  intro w u pairs
  apply after (.decode fits pairs)
  rintro v u ⟨known, rfl⟩
  apply Moves.get
  intro x y together
  have failed := together.worlds.notAFunction known
  cases u with
  | object id =>
    have there : id.index < L.objects := known
    have same := (together.worlds.functions id there).body
    generalize left : (x.world.object (R.object id)).body = b,
      right : (y.world.object id).body = b' at same
    simp only [Renumbering.value_object, left, right]
    cases same with
    | print | operator => exact callNative fits there argc x y together
    | compiled alike =>
      refine enter argc together there ?_ ?_ (.of_alikes alike) rfl rfl
      · rw [HostObject.code?, left]
      · rw [HostObject.code?, right]
  | undefined | bool | int | str | shape | ref =>
    exact ⟨congrArg Fault.failure failed, L, .refl L, together⟩

theorem lookup {name : String} {w u : Word} (fits : L.Fits) (same : L.Same (.str name) w u) :
    L.Moves O made Silent (FrameExec.execute (.lookup w)) (FrameExec.execute (.lookup u)) := by
  apply after (.nameOf fits same)
  rintro _ x ⟨rfl, rfl⟩
  apply Moves.get
  intro m n together
  obtain ⟨known, moved⟩ := together.worlds.globals x
  refine before (encode ⟨known, moved⟩) (fun L' a b pairs => ?_) m n together
  exact (InStep.push pairs).bind fun _ _ _ => .pure ⟨rfl, rfl⟩

theorem register {name : String} {w u : Word} (fits : L.Fits) (same : L.Same (.str name) w u) :
    L.Moves O made Silent (FrameExec.execute (.register w)) (FrameExec.execute (.register u)) := by
  apply after (.nameOf fits same)
  rintro _ x ⟨rfl, rfl⟩
  apply after .pop
  intro w u pairs
  apply after (.decode fits pairs)
  rintro v u ⟨known, rfl⟩ m n together
  refine ⟨L, .refl L, ⟨rfl, rfl⟩, together.setWorld ⟨?_, ?_, ?_⟩⟩
  · exact together.worlds.setGlobal x known
  · exact .of_objects rfl rfl
  · exact .of_objects rfl rfl

end Moves

/-- What an instruction comes to on both sides. A machine that is still running goes on at a
corresponding position. -/
inductive Answers (L : Lockstep R) (O : Outermost R) (made : Header → Prop) :
    EStateM.Result Fault FrameMachine (Option Value) →
    EStateM.Result Fault FrameMachine (Option Value) → Prop
  | on {L' : Lockstep R} {x y : FrameMachine} : L.Next made L' → Together L' O True x y →
    Answers L O made (.ok none x) (.ok none y)
  | done {L' : Lockstep R} {x y : FrameMachine} {v u : Value} : L.Next made L' → L'.Matches v u →
    Together L' O False x y → Answers L O made (.ok (some v) x) (.ok (some u) y)
  | fault {L' : Lockstep R} {x y : FrameMachine} (e : Fault) : L.Next made L' →
    Together L' O False x y → Answers L O made (.error e x) (.error e y)

theorem Moves.silent {α β : Type} {V : Lockstep R → α → β → Prop} {f : FrameExec α}
    {g : FrameExec β} (h : L.Moves O made V f g) :
    L.Moves O made Silent (f >>= fun _ => pure none) (g >>= fun _ => pure none) :=
  h.before fun _ _ _ _ => .pure ⟨rfl, rfl⟩

/-- An instruction that has no result. -/
theorem Moves.answers {f g : FrameExec (Option Value)} (h : L.Moves O made Silent f g)
    (together : Together L O True x y) : L.Answers O made (f x) (g y) := by
  have results := h x y together
  generalize f x = r, g y = r' at results
  rcases r with ⟨a, x'⟩ | ⟨e, x'⟩ <;> rcases r' with ⟨b, y'⟩ | ⟨e', y'⟩
  · obtain ⟨L', more, ⟨rfl, rfl⟩, together'⟩ := results
    exact .on more together'
  · exact results.elim
  · exact results.elim
  · obtain ⟨rfl, L', more, together'⟩ := results
    exact .fault e more together'.astray

theorem InStep.moves {α β : Type} {V : α → β → Prop} {f : FrameExec α} {g : FrameExec β}
    (h : L.InStep O True V f g) : L.Moves O made (fun _ => V) f g :=
  fun x y together => (h x y together).moved (.refl L)

namespace Together

theorem jump {placed : Prop} (together : Together L O placed x y) {p q : Nat}
    (place : O.Place L x.world y.world y.callers x.current.function y.current.function p q) :
    Together L O True (x.moveTo p) (y.moveTo q) :=
  { together with
    frame := ⟨together.frame.slots, together.frame.operands⟩
    place := fun _ => place }

/-- A function is left on both sides. -/
theorem leave (fits : L.Fits) (together : Together L O False x y) :
    L.Answers O made (FrameExec.leave x) (FrameExec.leave y) := by
  have popped := InStep.pop x y together
  simp only [FrameExec.leave, bind_eq]
  generalize FrameExec.pop x = r, FrameExec.pop y = r' at popped
  rcases r with ⟨w, x'⟩ | ⟨e, x'⟩ <;> rcases r' with ⟨u, y'⟩ | ⟨e', y'⟩
  · obtain ⟨pairs, together'⟩ := popped
    simp only [get_eq]
    have waiting := together'.waiting
    generalize callers : x'.callers = fs, callers' : y'.callers = fs' at waiting
    cases waiting with
    | nil =>
      obtain ⟨v, same⟩ := pairs
      obtain ⟨left, right⟩ := InStep.decodeWord_eq fits same together'
      simp only [bind_eq, left, right]
      exact .done (.refl L) ⟨same.known, rfl⟩ together'
    | cons frame active place waiting =>
      rename_i f f' rest rest'
      have back : Together L O True { x' with current := f, callers := rest }
          { y' with current := f', callers := rest' } :=
        { together' with
          frame := frame
          active := active
          place := fun _ => place
          waiting := waiting }
      exact (Moves.push pairs).silent.answers back
  · exact popped.elim
  · exact popped.elim
  · obtain ⟨rfl, together'⟩ := popped
    exact .fault e (.refl L) together'

theorem placed {placed : Prop} (together : Together L O placed x y) (holds : placed) :
    Together L O True x y :=
  { together with place := fun _ => together.place holds }

theorem jumpIfFalse (fits : L.Fits) (together : Together L O True x y) {p q : Nat}
    (place : O.Place L x.world y.world y.callers x.current.function y.current.function p q) :
    L.Answers O made (FrameExec.execute (.jumpIfFalse p) x)
      (FrameExec.execute (.jumpIfFalse q) y) := by
  have operands := together.frame.operands
  have size := together.size_eq
  simp only [FrameExec.execute, bind_eq, FrameExec.pop]
  generalize x.current.operands = ops, y.current.operands = ops' at operands
  cases operands with
  | nil =>
    rw [size]
    exact .fault _ (.refl L) together.astray
  | cons pairs rest =>
    have popped := together.setOperands rest
    have same := pairs.eq_iff fits (L.same_bool false)
    rename_i w u _ _
    by_cases no : u = .ofBool false
    · simp only [if_pos no, if_pos (same.mpr no)]
      exact .on (.refl L) (popped.jump place)
    · simp only [if_neg no, if_neg (mt same.mp no)]
      exact .on (.refl L) popped

/-- One instruction. The position in the frame is already that of the next one. -/
theorem execute (fits : L.Fits) {i j : Instr} (together : Together L O (j ≠ .ret) x y)
    (alike : i.Alike L (O.Place L x.world y.world y.callers x.current.function y.current.function) j)
    (allowed : ∀ shape width, j = .new shape → made ⟨shape, width⟩) :
    L.Answers O made (FrameExec.execute i x) (FrameExec.execute j y) := by
  cases alike with
  | ret => exact leave fits together.astray
  | goto place => exact .on (.refl L) (together.jump place)
  | jumpIfFalse place => exact jumpIfFalse fits (together.placed nofun) place
  | const same => exact (Moves.push ⟨_, same⟩).silent.answers (together.placed nofun)
  | lookup same => exact (Moves.lookup fits same).answers (together.placed nofun)
  | register same => exact (Moves.register fits same).answers (together.placed nofun)
  | load n =>
    exact (Moves.after (.slot n) fun _ _ pairs => (Moves.push pairs).silent).answers
      (together.placed nofun)
  | store n =>
    exact (Moves.after .pop fun _ _ pairs => (InStep.setSlot n pairs).moves.silent).answers
      (together.placed nofun)
  | dup =>
    exact (Moves.after (.peekAt 0) fun _ _ pairs => (Moves.push pairs).silent).answers
      (together.placed nofun)
  | pop => exact InStep.pop.moves.silent.answers (together.placed nofun)
  | swap => exact InStep.swap.moves.silent.answers (together.placed nofun)
  | funcall argc => exact (Moves.call fits argc).silent.answers (together.placed nofun)
  | new same =>
    exact (Moves.newRecord fits same fun width => allowed _ width rfl).silent.answers
      (together.placed nofun)
  | get same => exact (Moves.getField fits same).silent.answers (together.placed nofun)
  | put same => exact (Moves.putField fits same).silent.answers (together.placed nofun)
  | print => exact (Moves.printTop fits).silent.answers (together.placed nofun)

/-- The next instructions of both machines. -/
theorem fetches (together : Together L O True x y)
    (outermost : y.callers = [] →
      Fetches O.compiled O.leftCode O.rightCode O.here x.current.pc y.current.pc) :
    Fetches L x.code y.code
      (O.Place L x.world y.world y.callers x.current.function y.current.function) x.current.pc
      y.current.pc := by
  have place := together.place trivial
  have active := together.active
  simp only [FrameMachine.code]
  generalize y.callers = callers at place active outermost
  cases callers with
  | nil =>
    obtain ⟨left, right⟩ := active
    rw [left, right, together.outermost.leftCode, together.outermost.rightCode]
    exact (outermost rfl).mono together.since fun _ _ => id
  | cons caller rest =>
    obtain ⟨c, c', left, right, going⟩ := place
    rw [left, right]
    exact going.fetches.mono (.refl L) fun _ _ there => ⟨c, c', left, right, there⟩

end Together

/-- What a step comes to on both sides. -/
inductive Stepped (L : Lockstep R) (O : Outermost R) (made : Header → Prop) :
    EStateM.Result RunError FrameMachine Step → EStateM.Result RunError FrameMachine Step → Prop
  | on {L' : Lockstep R} {x y : FrameMachine} : L.Next made L' → Together L' O True x y →
    Stepped L O made (.ok .continue x) (.ok .continue y)
  | done {L' : Lockstep R} {x y : FrameMachine} {v u : Value} : L.Next made L' → L'.Matches v u →
    Together L' O False x y →
    Stepped L O made (.ok (.done v) { x with status := .done v })
      (.ok (.done u) { y with status := .done u })
  | error {L' : Lockstep R} {x y : FrameMachine} (e : RunError) : L.Next made L' →
    Together L' O False x y →
    Stepped L O made (.error e { x with status := .idle }) (.error e { y with status := .idle })

/-- Machines in lockstep make corresponding steps. A record that they make is one of the class that
the instruction names. -/
theorem Together.step (fits : L.Fits) (together : Together L O True x y)
    (outermost : y.callers = [] →
      Fetches O.compiled O.leftCode O.rightCode O.here x.current.pc y.current.pc) :
    L.Stepped O (fun r => y.code.fetch y.current.pc = .ok (.new r.shape)) x.step y.step := by
  obtain ⟨i, j, left, right, alike, next⟩ := together.fetches outermost
  have moved : Together L O (j ≠ .ret) (x.moveTo (x.current.pc + i.width))
      (y.moveTo (y.current.pc + j.width)) :=
    { together with
      frame := ⟨together.frame.slots, together.frame.operands⟩
      place := fun more => next.resolve_left more }
  have allowed (shape : Word) (width : Nat) (new : j = .new shape) :
      y.code.fetch y.current.pc = .ok (.new (Header.shape ⟨shape, width⟩)) := new ▸ right
  have answers : L.Answers O (fun r => y.code.fetch y.current.pc = .ok (.new r.shape)) _ _ :=
    moved.execute fits alike allowed
  simp only [FrameMachine.step, together.running.1, together.running.2,
    FrameMachine.next_eq left, FrameMachine.next_eq right]
  generalize FrameExec.execute i _ = r, FrameExec.execute j _ = r' at answers
  cases answers with
  | on more together' => exact .on more together'
  | done more same together' => exact .done more same together'
  | fault e more together' =>
    simp only [together'.raise_eq]
    exact .error _ more together'

end Lockstep
end TaggedScript
