import Mathlib.Data.List.Induction
import TaggedScript.Proofs.Compilation.CodeAt

/-!
Code in the making. Whatever is emitted and patched in whatever order, the code in the end is what
was emitted, where it was emitted, with each jump going where it was pointed last.
-/
namespace TaggedScript

/-- What is done to code in the making. -/
inductive Edit where
  | emit (i : Instr)
  | patch (jump target : Nat)
  | patchHere (jump : Nat)

/-- The position of the jump that is patched. -/
def Edit.jump? : Edit → Option Nat
  | emit _ => none
  | patch jump _ | patchHere jump => some jump

namespace Instr

def isJump (i : Instr) : Bool := i.jumpTarget?.isSome

/-- A jump with another target. All else stays as it is. -/
def toward (target : Nat) : Instr → Instr
  | goto _ => goto target
  | jumpIfFalse _ => jumpIfFalse target
  | i => i

@[simp] theorem width_toward (target : Nat) (i : Instr) : (i.toward target).width = i.width := by
  cases i <;> rfl

@[simp] theorem isJump_toward (target : Nat) (i : Instr) :
    (i.toward target).isJump = i.isJump := by
  cases i <;> rfl

@[simp] theorem toward_toward (target earlier : Nat) (i : Instr) :
    (i.toward earlier).toward target = i.toward target := by
  cases i <;> rfl

/-- The number after the opcode of a jump is its target. -/
theorem encode_jump {i : Instr} (h : i.isJump) (rest : List Nat) (target : Nat) :
    (i.encode ++ rest).set 1 target = (i.toward target).encode ++ rest := by
  cases i with
  | goto old | jumpIfFalse old => simp [encode, toward, operand?, opcode]
  | _ => cases h

end Instr

namespace CodeBuilder

def edit (b : CodeBuilder) : Edit → CodeBuilder
  | .emit i => b.emit i
  | .patch jump target => b.patch jump target
  | .patchHere jump => b.patchHere jump

def edited (b : CodeBuilder) (edits : List Edit) : CodeBuilder := edits.foldl edit b

/-- What is emitted, each instruction with the position of the code when it was. -/
def emitted (b : CodeBuilder) : List Edit → List (Nat × Instr)
  | [] => []
  | .emit i :: edits => (b.position, i) :: emitted (b.emit i) edits
  | e :: edits => emitted (b.edit e) edits

/-- The jumps that are patched and their targets, in order. -/
def patches (b : CodeBuilder) : List Edit → List (Nat × Nat)
  | [] => []
  | .emit i :: edits => patches (b.emit i) edits
  | .patch jump target :: edits => (jump, target) :: patches (b.patch jump target) edits
  | .patchHere jump :: edits => (jump, b.position) :: patches (b.patchHere jump) edits

/-- Only jumps that were emitted are patched. -/
def Aimed (b : CodeBuilder) (edits : List Edit) : Prop :=
  ∀ before e after, edits = before ++ e :: after → ∀ jump ∈ e.jump?,
    ∃ i : Instr, (jump, i) ∈ b.emitted before ∧ i.isJump

instance (b : CodeBuilder) (edits : List Edit) : Decidable (b.Aimed edits) :=
  decidable_of_iff
    (∀ k : Fin edits.length, edits[k].jump?.all fun jump =>
      (b.emitted (edits.take k)).any fun x => x.1 = jump ∧ x.2.isJump)
    ⟨by
      rintro h before e after rfl jump patched
      have there := h ⟨before.length, by simp⟩
      simp_all [Option.all_eq_true],
    fun h k => by
      have split := (List.take_append_drop k edits).symm
      rw [List.drop_eq_getElem_cons k.isLt] at split
      simpa [Option.all_eq_true] using h _ _ _ split⟩

end CodeBuilder

/-- Where a jump was pointed last. -/
def lastTarget? (patches : List (Nat × Nat)) (jump : Nat) : Option Nat :=
  (patches.reverse.find? (·.1 = jump)).map (·.2)

/-- What becomes of an instruction that is emitted at a position. A jump that is patched goes where
it was pointed last. -/
def settled (patches : List (Nat × Nat)) (x : Nat × Instr) : Nat × Instr :=
  (x.1, (lastTarget? patches x.1).elim x.2 (x.2.toward ·))

/-- What one patch changes. -/
def pointed (jump target : Nat) (x : Nat × Instr) : Nat × Instr :=
  if x.1 = jump then (x.1, x.2.toward target) else x

section
variable {patches : List (Nat × Nat)} {jump target : Nat}

theorem lastTarget?_concat (place : Nat) :
    lastTarget? (patches ++ [(jump, target)]) place =
      if jump = place then some target else lastTarget? patches place := by
  by_cases same : jump = place
  · simp [lastTarget?, same]
  · simp [lastTarget?, same]

theorem settled_concat (x : Nat × Instr) :
    settled (patches ++ [(jump, target)]) x = pointed jump target (settled patches x) := by
  by_cases same : jump = x.1
  · rw [settled, lastTarget?_concat, if_pos same, pointed, settled, if_pos same.symm]
    cases lastTarget? patches x.1 <;> simp
  · rw [settled, lastTarget?_concat, if_neg same, pointed, settled, if_neg (Ne.symm same)]

theorem settled_of_unpatched {x : Nat × Instr} (h : ∀ q ∈ patches, q.1 ≠ x.1) :
    settled patches x = x := by
  have none : lastTarget? patches x.1 = none := by
    simpa [lastTarget?] using fun a b mem same => h (a, b) mem same
  simp [settled, none]

theorem width_settled (x : Nat × Instr) : (settled patches x).2.width = x.2.width := by
  unfold settled
  cases lastTarget? patches x.1 <;> simp

theorem isJump_settled (x : Nat × Instr) : (settled patches x).2.isJump = x.2.isJump := by
  unfold settled
  cases lastTarget? patches x.1 <;> simp

end

/-! ## Listings -/

theorem exists_of_mem_positioned {base : Nat} {is : List Instr} {x : Nat × Instr}
    (h : x ∈ positioned base is) :
    ∃ before after, is = before ++ x.2 :: after ∧ x.1 = base + codeWidth before := by
  induction is generalizing base with
  | nil => cases h
  | cons i is ih =>
    obtain rfl | later := List.mem_cons.mp h
    · exact ⟨[], is, rfl, rfl⟩
    · obtain ⟨before, after, rfl, place⟩ := ih later
      exact ⟨i :: before, after, rfl, by rw [place, codeWidth_cons, Nat.add_assoc]⟩

theorem bounds_of_mem_positioned {base : Nat} {is : List Instr} {x : Nat × Instr}
    (h : x ∈ positioned base is) : base ≤ x.1 ∧ x.1 < base + codeWidth is := by
  obtain ⟨before, after, rfl, place⟩ := exists_of_mem_positioned h
  have wide := x.2.width_pos
  simp only [codeWidth_append, codeWidth_cons]
  omega

/-- A listing stays one when its instructions become others that are as wide. -/
theorem map_positioned {f : Nat × Instr → Nat × Instr} (place : ∀ x, (f x).1 = x.1)
    (width : ∀ x, (f x).2.width = x.2.width) (base : Nat) (is : List Instr) :
    (positioned base is).map f = positioned base (((positioned base is).map f).map (·.2)) := by
  induction is generalizing base with
  | nil => rfl
  | cons i is ih =>
    simp only [positioned, List.map_cons]
    rw [width, ← ih]
    exact congrArg (· :: _) (Prod.ext (place (base, i)) rfl)

/-! ## The code while it is made -/

namespace CodeBuilder
variable {b : CodeBuilder} {edits more : List Edit}

theorem edited_concat (e : Edit) : b.edited (edits ++ [e]) = (b.edited edits).edit e := by
  simp [edited]

theorem emitted_append :
    b.emitted (edits ++ more) = b.emitted edits ++ (b.edited edits).emitted more := by
  induction edits generalizing b with
  | nil => rfl
  | cons e edits ih =>
    cases e with
    | emit i => simp [emitted, edited, edit, ih]
    | patch | patchHere => exact ih

theorem patches_append :
    b.patches (edits ++ more) = b.patches edits ++ (b.edited edits).patches more := by
  induction edits generalizing b with
  | nil => rfl
  | cons e edits ih =>
    cases e with
    | emit i => exact ih
    | patch | patchHere => simp [patches, edited, edit, ih]

theorem Aimed.of_append (h : b.Aimed (edits ++ more)) : b.Aimed edits := by
  rintro before e after rfl
  exact h before e (after ++ more) (by simp)

theorem Aimed.last {e : Edit} (h : b.Aimed (edits ++ [e])) :
    ∀ jump ∈ e.jump?, ∃ i : Instr, (jump, i) ∈ b.emitted edits ∧ i.isJump :=
  h edits e [] rfl

/-- A patch changes one jump of what is laid out. -/
theorem stream_patch {is : List Instr} (laid : b.stream.toList = is.flatMap Instr.encode)
    {x : Nat × Instr} (there : x ∈ positioned 0 is) (jump : x.2.isJump) (target : Nat) :
    (b.patch x.1 target).stream.toList =
      (((positioned 0 is).map (pointed x.1 target)).map (·.2)).flatMap Instr.encode := by
  obtain ⟨before, after, rfl, place⟩ := exists_of_mem_positioned there
  rw [Nat.zero_add] at place
  have others (base : Nat) (js : List Instr) (apart : ∀ y ∈ positioned base js, y.1 ≠ x.1) :
      ((positioned base js).map (pointed x.1 target)).map (·.2) = js := by
    have same : (positioned base js).map (pointed x.1 target) = positioned base js :=
      List.map_congr_left (fun y mem => if_neg (apart y mem)) |>.trans (List.map_id _)
    rw [same, map_snd_positioned]
  have first := others 0 before fun y mem => by
    have := bounds_of_mem_positioned mem
    omega
  have last := others (codeWidth before + x.2.width) after fun y mem => by
    have := bounds_of_mem_positioned mem
    have := x.2.width_pos
    omega
  rw [positioned_append, positioned, Nat.zero_add, List.map_append, List.map_append, List.map_cons,
    List.map_cons, first, last, pointed, if_pos place.symm]
  simp only [patch, Array.toList_setIfInBounds, laid, List.flatMap_append, List.flatMap_cons]
  rw [List.set_append_right _ _ (by rw [length_encode_all]; omega), length_encode_all, place,
    Nat.add_sub_cancel_left, Instr.encode_jump jump]

/-- The code is what was emitted up to now, as it was patched up to now. Only what was emitted was
patched, so a patch has nothing to do with what is emitted later. -/
structure Drafted (b : CodeBuilder) (edits : List Edit) : Prop where
  stream : (b.edited edits).stream.toList =
    (((b.emitted edits).map (settled (b.patches edits))).map (·.2)).flatMap Instr.encode
  places : b.emitted edits = positioned 0 ((b.emitted edits).map (·.2))
  known : ∀ q ∈ b.patches edits, ∃ i : Instr, (q.1, i) ∈ b.emitted edits

namespace Drafted

theorem settled_eq (h : Drafted b edits) (patches : List (Nat × Nat)) :
    (b.emitted edits).map (settled patches) =
      positioned 0 (((b.emitted edits).map (settled patches)).map (·.2)) := by
  have listing := map_positioned (f := settled patches) (fun _ => rfl) width_settled 0
    ((b.emitted edits).map (·.2))
  rwa [← h.places] at listing

theorem position_eq (h : Drafted b edits) :
    (b.edited edits).position = codeWidth ((b.emitted edits).map (·.2)) := by
  have same (xs : List (Nat × Instr)) (patches : List (Nat × Nat)) :
      codeWidth ((xs.map (settled patches)).map (·.2)) = codeWidth (xs.map (·.2)) := by
    induction xs with
    | nil => rfl
    | cons x xs ih => simp only [List.map_cons, codeWidth_cons, width_settled, ih]
  rw [position, ← Array.length_toList, h.stream, length_encode_all, same]

/-- An instruction is emitted where no patch was aimed at. -/
theorem emit (h : Drafted b edits) (i : Instr) : Drafted b (edits ++ [.emit i]) := by
  have emitted : b.emitted (edits ++ [.emit i]) =
      b.emitted edits ++ [((b.edited edits).position, i)] := emitted_append
  have patches : b.patches (edits ++ [.emit i]) = b.patches edits := by
    rw [patches_append]
    exact List.append_nil _
  have fresh : settled (b.patches edits) ((b.edited edits).position, i) =
      ((b.edited edits).position, i) := by
    refine settled_of_unpatched fun q mem same => ?_
    obtain ⟨j, there⟩ := h.known q mem
    rw [h.places] at there
    have bounds := (bounds_of_mem_positioned there).2
    rw [h.position_eq] at same
    omega
  constructor
  case stream =>
    rw [emitted, patches, edited_concat, List.map_append, List.map_singleton, fresh]
    simp [edit, CodeBuilder.emit, h.stream]
  case places =>
    rw [emitted, List.map_append, positioned_append, ← h.places, h.position_eq, Nat.zero_add]
    rfl
  case known =>
    rw [emitted, patches]
    exact fun q mem => (h.known q mem).imp fun j there => List.mem_append_left _ there

/-- A jump that was emitted is pointed elsewhere. -/
theorem patch (h : Drafted b edits) {jump target : Nat} {i : Instr} {e : Edit}
    (there : (jump, i) ∈ b.emitted edits) (jumps : i.isJump)
    (done : (b.edited edits).edit e = (b.edited edits).patch jump target)
    (nothing : (b.edited edits).emitted [e] = [])
    (one : (b.edited edits).patches [e] = [(jump, target)]) : Drafted b (edits ++ [e]) := by
  have emitted : b.emitted (edits ++ [e]) = b.emitted edits := by
    rw [emitted_append, nothing, List.append_nil]
  have patches : b.patches (edits ++ [e]) = b.patches edits ++ [(jump, target)] := by
    rw [patches_append, one]
  constructor
  case stream =>
    have now : settled (b.patches edits) (jump, i) ∈
        positioned 0 (((b.emitted edits).map (settled (b.patches edits))).map (·.2)) := by
      rw [← h.settled_eq]
      exact List.mem_map_of_mem there
    have changed := stream_patch h.stream now (by rwa [isJump_settled]) target
    rw [← h.settled_eq, List.map_map (f := settled _)] at changed
    rw [edited_concat, done, emitted, patches, funext settled_concat]
    exact changed
  case places =>
    rw [emitted]
    exact h.places
  case known =>
    rw [emitted, patches]
    intro q mem
    obtain old | new := List.mem_append.mp mem
    · exact h.known q old
    · rw [List.mem_singleton.mp new]
      exact ⟨i, there⟩

end Drafted

theorem drafted_of_aimed {parameterCount slotCount : Nat}
    (aimed : (empty parameterCount slotCount).Aimed edits) :
    Drafted (empty parameterCount slotCount) edits := by
  induction edits using List.reverseRecOn with
  | nil => exact ⟨rfl, rfl, nofun⟩
  | append_singleton edits e ih =>
    have before := ih aimed.of_append
    cases e with
    | emit i => exact before.emit i
    | patch jump target =>
      obtain ⟨i, there, jumps⟩ := aimed.last jump rfl
      exact before.patch there jumps rfl rfl rfl
    | patchHere jump =>
      obtain ⟨i, there, jumps⟩ := aimed.last jump rfl
      exact before.patch there jumps rfl rfl rfl

/-- The code decodes to what was emitted, in this order and where it was emitted. A jump that was
patched has the target of its last patch, and all else is as it was emitted. -/
theorem decodeAll_edited {parameterCount slotCount : Nat}
    (aimed : (empty parameterCount slotCount).Aimed edits) :
    let b := empty parameterCount slotCount
    (b.edited edits).finish.decodeAll =
      .ok ((b.emitted edits).map (settled (b.patches edits))) := by
  intro b
  have drafted := drafted_of_aimed aimed
  rw [drafted.settled_eq]
  exact Code.decodeAll_of_stream drafted.stream

/-- Two jumps, of which the inner one is patched first and the outer one twice. -/
theorem decodeAll_edited_nested :
    let b := empty 1 1
    let edits : List Edit := [.emit (.jumpIfFalse 0), .emit (.jumpIfFalse 0), .emit .dup,
      .patchHere 2, .patch 0 99, .emit .pop, .patchHere 0, .emit .ret]
    b.Aimed edits ∧ (b.edited edits).finish.decodeAll =
      .ok [(0, .jumpIfFalse 6), (2, .jumpIfFalse 5), (4, .dup), (5, .pop), (6, .ret)] := by
  intro b edits
  have aimed : b.Aimed edits := by decide +kernel
  exact ⟨aimed, decodeAll_edited aimed⟩

end CodeBuilder
end TaggedScript
