import TaggedScript.Proofs.Frames.Machine
import TaggedScript.Proofs.Lockstep.Heaps

/-!
Two machines in lockstep. All that one of them can see is the counterpart of what the other sees, and
what a part of an instruction does to one it does to the other.
-/
namespace TaggedScript

/-- What was agreed on before the machines began, the functions that they began with, and which
positions in the code of these correspond. -/
structure Outermost (R : Renumbering) where
  compiled : Lockstep R
  left : ObjectId
  right : ObjectId
  leftCode : Code
  rightCode : Code
  here : Nat → Nat → Prop

namespace Outermost
variable {R : Renumbering} (O : Outermost R)

/-- The functions are there, by the same name. -/
structure In (w w' : World) : Prop where
  leftCode : (w.object O.left).code? = some O.leftCode
  rightCode : (w'.object O.right).code? = some O.rightCode
  name : (w.object O.left).name = (w'.object O.right).name

/-- The functions correspond. Those that nobody called are the ones that the machines began with. -/
def Active (callers : List CallFrame) (f g : ObjectId) : Prop :=
  match callers with
  | [] => f = O.left ∧ g = O.right
  | _ :: _ => g.index < O.compiled.objects ∧ f = R.object g

/-- The positions in the functions correspond. -/
def Place (L : Lockstep R) (w w' : World) (callers : List CallFrame) (f g : ObjectId)
    (p q : Nat) : Prop :=
  match callers with
  | [] => O.here p q
  | _ :: _ => ∃ c c', (w.object f).code? = some c ∧ (w'.object g).code? = some c' ∧
      Going L c c' p q

variable {O} {L L' : Lockstep R} {w w' v v' : World} {callers : List CallFrame} {f g : ObjectId}
  {p q : Nat}

theorem In.change (h : O.In w w') (left : w.Fixed v) (right : w'.Fixed v') : O.In v v' where
  leftCode := (left.code? _).trans h.leftCode
  rightCode := (right.code? _).trans h.rightCode
  name := by rw [left.name, right.name, h.name]

theorem Place.change (h : O.Place L w w' callers f g p q) (left : w.Fixed v) (right : w'.Fixed v') :
    O.Place L v v' callers f g p q := by
  cases callers with
  | nil => exact h
  | cons caller rest =>
    obtain ⟨c, c', found, found', going⟩ := h
    exact ⟨c, c', (left.code? f).trans found, (right.code? g).trans found', going⟩

theorem Place.grow (h : O.Place L w w' callers f g p q) (grows : L.Grows L') :
    O.Place L' w w' callers f g p q := by
  cases callers with
  | nil => exact h
  | cons caller rest =>
    obtain ⟨c, c', found, found', going⟩ := h
    exact ⟨c, c', found, found', going.grow grows⟩

end Outermost

namespace Lockstep
variable {R : Renumbering}

/-- The words of two frames stand for the same values. -/
structure Frames (L : Lockstep R) (f f' : CallFrame) : Prop where
  slots : List.Forall₂ L.Pairs f.slots f'.slots
  operands : List.Forall₂ L.Pairs f.operands f'.operands

/-- The frames that wait correspond one by one. -/
inductive Waiting (L : Lockstep R) (O : Outermost R) (w w' : World) :
    List CallFrame → List CallFrame → Prop
  | nil : Waiting L O w w' [] []
  | cons {f f' : CallFrame} {fs fs' : List CallFrame} : L.Frames f f' →
      O.Active fs' f.function f'.function →
      O.Place L w w' fs' f.function f'.function f.pc f'.pc →
      Waiting L O w w' fs fs' → Waiting L O w w' (f :: fs) (f' :: fs')

/-- The machines have the same memory. -/
structure Stores (L : Lockstep R) (x y : FrameMachine) : Prop where
  config : x.config = y.config
  left : x.dictionary = L.left
  right : y.dictionary = L.right
  worlds : L.Worlds x.world y.world
  heaps : L.Heaps y.world x.heap y.heap

/-- The machines are in lockstep. If they are `placed` their next instructions correspond too. -/
structure Together (L : Lockstep R) (O : Outermost R) (placed : Prop) (x y : FrameMachine) : Prop
    extends L.Stores x y where
  running : x.status = .running ∧ y.status = .running
  since : O.compiled.Grows L
  objects : L.objects = O.compiled.objects
  outermost : O.In x.world y.world
  frame : L.Frames x.current y.current
  active : O.Active y.callers x.current.function y.current.function
  place : placed →
    O.Place L x.world y.world y.callers x.current.function y.current.function x.current.pc
      y.current.pc
  waiting : L.Waiting O x.world y.world x.callers y.callers

variable {L L' : Lockstep R} {O : Outermost R} {placed : Prop} {x y : FrameMachine}

namespace Frames
variable {f f' : CallFrame}

theorem grow (h : L.Frames f f') (grows : L.Grows L') : L'.Frames f f' :=
  ⟨grows.all h.slots, grows.all h.operands⟩

theorem size_eq (h : L.Frames f f') : f.size = f'.size := by
  rw [CallFrame.size, CallFrame.size, h.slots.length_eq, h.operands.length_eq]

end Frames

namespace Waiting
variable {w w' : World} {fs fs' : List CallFrame}

theorem grow (h : L.Waiting O w w' fs fs') (grows : L.Grows L') : L'.Waiting O w w' fs fs' := by
  induction h with
  | nil => exact .nil
  | cons frame active place _ ih =>
    exact .cons (frame.grow grows) active (place.grow grows) ih

theorem change (h : L.Waiting O w w' fs fs') {v v' : World} (left : w.Fixed v)
    (right : w'.Fixed v') : L.Waiting O v v' fs fs' := by
  induction h with
  | nil => exact .nil
  | cons frame active place _ ih => exact .cons frame active (place.change left right) ih

theorem size_eq (h : L.Waiting O w w' fs fs') :
    (fs.map CallFrame.size).sum = (fs'.map CallFrame.size).sum := by
  induction h with
  | nil => rfl
  | cons frame _ _ _ ih => rw [List.map_cons, List.map_cons, List.sum_cons, List.sum_cons,
      frame.size_eq, ih]

end Waiting

/-- Corresponding functions have the same name. -/
theorem name_active {w w' : World} (worlds : L.Worlds w w') (outermost : O.In w w')
    (objects : L.objects = O.compiled.objects) {callers : List CallFrame} {f g : ObjectId}
    (active : O.Active callers f g) : (w.object f).name = (w'.object g).name := by
  cases callers with
  | nil =>
    obtain ⟨rfl, rfl⟩ := active
    exact outermost.name
  | cons caller rest =>
    obtain ⟨known, rfl⟩ := active
    exact (worlds.functions g (objects ▸ known)).name

namespace Together

theorem size_eq (h : Together L O placed x y) : x.size = y.size := by
  simp only [FrameMachine.size, FrameMachine.frames, List.map_cons, List.sum_cons,
    h.frame.size_eq, h.waiting.size_eq]

theorem stackTrace_eq (h : Together L O placed x y) : x.stackTrace = y.stackTrace := by
  have names {fs fs' : List CallFrame} (waiting : L.Waiting O x.world y.world fs fs') :
      fs.map (fun f => (x.world.object f.function).name) =
        fs'.map fun f => (y.world.object f.function).name := by
    induction waiting with
    | nil => rfl
    | cons _ active _ _ ih =>
      rw [List.map_cons, List.map_cons, ih, name_active h.worlds h.outermost h.objects active]
  simp only [FrameMachine.stackTrace, FrameMachine.frames, List.map_cons, names h.waiting,
    name_active h.worlds h.outermost h.objects h.active]

/-- A fault of both machines is told in the same way. -/
theorem raise_eq (h : Together L O placed x y) (fault : Fault) : x.raise fault = y.raise fault := by
  cases fault with
  | failure e => rfl
  | fatal kind => rw [FrameMachine.raise, FrameMachine.raise, h.stackTrace_eq]

theorem astray (h : Together L O placed x y) : Together L O False x y :=
  { h with place := False.elim }

theorem setOperands (h : Together L O placed x y) {ops ops' : List Word}
    (pairs : List.Forall₂ L.Pairs ops ops') :
    Together L O placed (x.setOperands ops) (y.setOperands ops') :=
  { h with frame := ⟨h.frame.slots, pairs⟩ }

/-- Both worlds change in the same way. -/
theorem setWorld (h : Together L O placed x y) {v v' : World}
    (leave : L.Leave x.world y.world v v') :
    Together L O placed { x with world := v } { y with world := v' } :=
  { h with
    worlds := leave.worlds
    heaps := h.heaps.grow (.refl L) rfl leave.right.shapes
    outermost := h.outermost.change leave.left leave.right
    place := fun now => (h.place now).change leave.left leave.right
    waiting := h.waiting.change leave.left leave.right }

/-- Both dictionaries get an entry. -/
theorem encoded (h : Together L O placed x y) (v u : Value) :
    Together (L.encoded v u) O placed { x with dictionary := (encode v x.dictionary).2 }
      { y with dictionary := (encode u y.dictionary).2 } :=
  have grows := L.grows_encoded v u
  { h with
    left := by rw [h.left]; rfl
    right := by rw [h.right]; rfl
    worlds := h.worlds.grow grows rfl rfl
    heaps := h.heaps.grow grows rfl rfl
    since := h.since.trans grows
    frame := h.frame.grow grows
    place := fun now => (h.place now).grow grows
    waiting := h.waiting.grow grows }

/-- Both heaps get a record. -/
theorem recorded (h : Together L O placed x y) {r : Header} {g g' : Heap}
    (heaps : (L.recorded r).Heaps y.world g g') :
    Together (L.recorded r) O placed { x with heap := g } { y with heap := g' } :=
  have grows := L.grows_recorded r
  { h with
    worlds := h.worlds.grow grows rfl rfl
    heaps := heaps
    since := h.since.trans grows
    frame := h.frame.grow grows
    place := fun now => (h.place now).grow grows
    waiting := h.waiting.grow grows }

end Together

/-- Both machines come to results that correspond, or to the same fault. -/
def Results {α β : Type} (L : Lockstep R) (O : Outermost R) (placed : Prop) (V : α → β → Prop) :
    EStateM.Result Fault FrameMachine α → EStateM.Result Fault FrameMachine β → Prop
  | .ok a x, .ok b y => V a b ∧ Together L O placed x y
  | .error e x, .error e' y => e = e' ∧ Together L O placed x y
  | _, _ => False

/-- Two actions that machines in lockstep carry out together, and after which no more is agreed
on than before. -/
def InStep {α β : Type} (L : Lockstep R) (O : Outermost R) (placed : Prop) (V : α → β → Prop)
    (f : FrameExec α) (g : FrameExec β) : Prop :=
  ∀ x y, Together L O placed x y → L.Results O placed V (f x) (g y)

namespace InStep
variable {α β γ δ : Type} {V : α → β → Prop} {U : γ → δ → Prop}

theorem bind {f : FrameExec α} {g : FrameExec β} {k : α → FrameExec γ} {k' : β → FrameExec δ}
    (h : L.InStep O placed V f g) (next : ∀ a b, V a b → L.InStep O placed U (k a) (k' b)) :
    L.InStep O placed U (f >>= k) (g >>= k') := by
  intro x y together
  have first := h x y together
  rw [bind_eq, bind_eq]
  generalize f x = r, g y = r' at first
  rcases r with ⟨a, x'⟩ | ⟨e, x'⟩ <;> rcases r' with ⟨b, y'⟩ | ⟨e', y'⟩
  · exact next a b first.1 x' y' first.2
  · exact first.elim
  · exact first.elim
  · exact first

theorem pure {a : α} {b : β} (h : V a b) : L.InStep O placed V (Pure.pure a) (Pure.pure b) :=
  fun _ _ together => ⟨h, together⟩

/-- What follows on a look at the machines. -/
theorem get {k k' : FrameMachine → FrameExec α} {V : α → α → Prop}
    (h : ∀ x y, Together L O placed x y → L.Results O placed V (k x x) (k' y y)) :
    L.InStep O placed V (get >>= k) (get >>= k') := fun x y together => h x y together

theorem push {w u : Word} (pairs : L.Pairs w u) :
    L.InStep O placed (fun _ _ => True) (FrameExec.push w) (FrameExec.push u) := by
  intro x y together
  simp only [FrameExec.push, together.config, together.size_eq]
  by_cases full : y.config.stackCapacity < y.size + 1
  · rw [if_pos full, if_pos full]
    exact ⟨rfl, together⟩
  · rw [if_neg full, if_neg full]
    exact ⟨trivial, together.setOperands (.cons pairs together.frame.operands)⟩

theorem pop : L.InStep O placed L.Pairs FrameExec.pop FrameExec.pop := by
  intro x y together
  have operands := together.frame.operands
  have size := together.size_eq
  simp only [FrameExec.pop]
  generalize x.current.operands = ops, y.current.operands = ops' at operands
  cases operands with
  | nil => exact ⟨by rw [size], together⟩
  | cons pairs rest => exact ⟨pairs, together.setOperands rest⟩

theorem peekAt (depth : Nat) :
    L.InStep O placed L.Pairs (FrameExec.peekAt depth) (FrameExec.peekAt depth) := by
  intro x y together
  have operands := together.frame.operands
  simp only [FrameExec.peekAt]
  cases right : y.current.operands[depth]? with
  | some u =>
    obtain ⟨w, left, pairs⟩ := forall₂_getElem? operands right
    rw [left]
    exact ⟨pairs, together⟩
  | none =>
    have left : x.current.operands[depth]? = none := by
      rw [List.getElem?_eq_none_iff] at right ⊢
      rwa [operands.length_eq]
    rw [left]
    exact ⟨by rw [together.size_eq], together⟩

theorem swap : L.InStep O placed (fun _ _ => True) FrameExec.swap FrameExec.swap := by
  intro x y together
  have operands := together.frame.operands
  have size := together.size_eq
  simp only [FrameExec.swap]
  generalize x.current.operands = ops, y.current.operands = ops' at operands
  cases operands with
  | nil => exact ⟨by rw [size], together⟩
  | cons upper rest =>
    cases rest with
    | nil => exact ⟨by rw [size], together⟩
    | cons lower rest => exact ⟨trivial, together.setOperands (.cons lower (.cons upper rest))⟩

theorem top (n : Nat) :
    L.InStep O placed (List.Forall₂ L.Pairs) (FrameExec.top n) (FrameExec.top n) := by
  intro x y together
  have operands := together.frame.operands
  simp only [FrameExec.top, operands.length_eq]
  by_cases few : y.current.operands.length < n
  · rw [if_pos few, if_pos few]
    exact ⟨by rw [together.size_eq], together⟩
  · rw [if_neg few, if_neg few]
    exact ⟨List.rel_reverse (List.forall₂_take n operands), together⟩

theorem dropTop (n : Nat) :
    L.InStep O placed (fun _ _ => True) (FrameExec.dropTop n) (FrameExec.dropTop n) := by
  intro x y together
  have operands := together.frame.operands
  simp only [FrameExec.dropTop, operands.length_eq]
  by_cases few : y.current.operands.length < n
  · rw [if_pos few, if_pos few]
    exact ⟨by rw [together.size_eq], together⟩
  · rw [if_neg few, if_neg few]
    exact ⟨trivial, together.setOperands (List.forall₂_drop n operands)⟩

theorem slot (i : Nat) :
    L.InStep O placed L.Pairs (FrameExec.slot i) (FrameExec.slot i) := by
  intro x y together
  have slots := together.frame.slots
  simp only [FrameExec.slot]
  cases right : y.current.slots[i]? with
  | some u =>
    obtain ⟨w, left, pairs⟩ := forall₂_getElem? slots right
    rw [left]
    exact ⟨pairs, together⟩
  | none =>
    have left : x.current.slots[i]? = none := by
      rw [List.getElem?_eq_none_iff] at right ⊢
      rwa [slots.length_eq]
    rw [left]
    exact ⟨by rw [slots.length_eq], together⟩

theorem setSlot (i : Nat) {w u : Word} (pairs : L.Pairs w u) :
    L.InStep O placed (fun _ _ => True) (FrameExec.setSlot i w) (FrameExec.setSlot i u) := by
  intro x y together
  have slots := together.frame.slots
  simp only [FrameExec.setSlot, slots.length_eq]
  by_cases inside : i < y.current.slots.length
  · rw [if_pos inside, if_pos inside]
    exact ⟨trivial, { together with frame := ⟨forall₂_set slots pairs, together.frame.operands⟩ }⟩
  · rw [if_neg inside, if_neg inside]
    exact ⟨rfl, together⟩

section
variable (fits : L.Fits)
include fits

/-- The words of a value are read as that value. -/
theorem decodeWord_eq {v : Value} {w u : Word} (same : L.Same v w u)
    (together : Together L O placed x y) :
    FrameExec.decodeWord w x = .ok (R.value v) x ∧ FrameExec.decodeWord u y = .ok v y := by
  have inside : (R.value v).InHeap x.heap ∧ v.InHeap y.heap := by
    cases v with
    | ref offset =>
      obtain ⟨r, found⟩ := Option.isSome_iff_exists.mp same.known
      obtain ⟨left, right⟩ := together.heaps.contains found
      exact ⟨fun _ eq => Value.ref.inj eq ▸ left, fun _ eq => Value.ref.inj eq ▸ right⟩
    | undefined | bool | int | str | object | shape => exact ⟨nofun, nofun⟩
  simp only [FrameExec.decodeWord, bind_eq, get_eq, together.left, together.right,
    same.left.decode fits.left inside.1, same.right.decode fits.right inside.2]
  exact ⟨rfl, rfl⟩

theorem decode {w u : Word} (pairs : L.Pairs w u) :
    L.InStep O placed L.Matches (FrameExec.decodeWord w) (FrameExec.decodeWord u) := by
  obtain ⟨v, same⟩ := pairs
  intro x y together
  obtain ⟨left, right⟩ := decodeWord_eq fits same together
  rw [left, right]
  exact ⟨⟨same.known, rfl⟩, together⟩

theorem mapM_decode {ws us : List Word} (pairs : List.Forall₂ L.Pairs ws us) :
    L.InStep O placed (fun vs us => vs = us.map R.value ∧ ∀ u ∈ us, L.Knows u)
      (ws.mapM FrameExec.decodeWord) (us.mapM FrameExec.decodeWord) := by
  induction pairs with
  | nil => exact .pure ⟨rfl, by simp⟩
  | cons first _ ih =>
    rw [List.mapM_cons, List.mapM_cons]
    apply (decode fits first).bind
    intro v u same
    apply ih.bind
    rintro vs us ⟨rfl, known⟩
    refine .pure ⟨by rw [same.moved, List.map_cons], ?_⟩
    simpa using ⟨same.known, known⟩

theorem nameOf {name : String} {w u : Word} (same : L.Same (.str name) w u) :
    L.InStep O placed (fun a b => a = name ∧ b = name) (FrameExec.nameOf w) (FrameExec.nameOf u) := by
  apply InStep.get
  intro x y together
  obtain ⟨left, right⟩ := same.lookup? fits
  rw [together.left, together.right, left, right]
  exact ⟨⟨rfl, rfl⟩, together⟩

/-- The owner of a field is the same record, or the counterpart of an object. -/
theorem targetOf {w u : Word} (pairs : L.Pairs w u) (field : String) :
    L.InStep O placed (fun
        | .record offset, .record offset' => offset = offset' ∧
            (headerAt? L.records offset.toNat).isSome
        | .host id, .host id' => id = R.object id' ∧ id'.index < L.objects
        | _, _ => False)
      (FrameExec.targetOf w field) (FrameExec.targetOf u field) := by
  apply (decode fits pairs).bind
  rintro v u ⟨known, rfl⟩
  cases u with
  | ref offset => exact .pure ⟨rfl, known⟩
  | object id => exact .pure ⟨rfl, known⟩
  | undefined | bool | int | str | shape =>
    apply InStep.get
    intro x y together
    exact ⟨by rw [← together.worlds.noFields field known], together⟩

end

/-- A call outside of the machines. -/
theorem invoke {id : ObjectId} (there : id.index < L.objects) (receiver : Value)
    {args : List Value} (known : ∀ v ∈ args, L.Knows v) :
    L.InStep O placed L.Matches
      (FrameExec.onWorld (TaggedScript.invoke (R.object id) (R.value receiver) (args.map R.value)))
      (FrameExec.onWorld (TaggedScript.invoke id receiver args)) := by
  intro x y together
  have acts := acts_invoke together.worlds there receiver known
  simp only [FrameExec.onWorld]
  generalize TaggedScript.invoke (R.object id) _ _ x.world = r,
    TaggedScript.invoke id receiver args y.world = r' at acts
  rcases r with ⟨a, v⟩ | ⟨e, v⟩ <;> rcases r' with ⟨b, v'⟩ | ⟨e', v'⟩
  · exact ⟨acts.1, together.setWorld acts.2⟩
  · exact acts
  · exact acts
  · exact ⟨congrArg Fault.failure acts.1, together.setWorld acts.2⟩

end InStep
end Lockstep
end TaggedScript
