import TaggedScript.Proofs.Compilation.CodeAt

/-!
How many operands there are at the positions of code. An instruction takes operands and leaves others
in their place, so their number at one position gives that at the next.
-/
namespace TaggedScript

namespace Instr

/-- An instruction takes so many operands off the top and leaves so many others. What `NEW` takes is
said by its class. -/
inductive Moves (widths : Word → Nat → Prop) : Instr → Nat → Nat → Prop
  | const (w : Word) : Moves widths (.const w) 0 1
  | lookup (name : Word) : Moves widths (.lookup name) 0 1
  | register (name : Word) : Moves widths (.register name) 1 0
  | load (slot : Nat) : Moves widths (.load slot) 0 1
  | store (slot : Nat) : Moves widths (.store slot) 1 0
  | dup : Moves widths .dup 1 2
  | pop : Moves widths .pop 1 0
  | swap : Moves widths .swap 2 2
  | funcall (argc : Nat) : Moves widths (.funcall argc) (argc + 2) 1
  /-- A `RET` does not go on to the code after it, which is laid out as if the result were there. -/
  | ret : Moves widths .ret 1 1
  | goto (target : Nat) : Moves widths (.goto target) 0 0
  | jumpIfFalse (target : Nat) : Moves widths (.jumpIfFalse target) 1 0
  | new {shape : Word} {n : Nat} : widths shape n → Moves widths (.new shape) n 1
  | get (name : Word) : Moves widths (.get name) 1 1
  | put (name : Word) : Moves widths (.put name) 2 0
  | print : Moves widths .print 1 1

/-- The positions at which a function may go on after the instruction. -/
def successors (pc : Nat) (i : Instr) : List Nat :=
  match i with
  | goto target => [target]
  | jumpIfFalse target => [target, pc + i.width]
  | _ => [pc + i.width]

theorem successors_of_plain {i : Instr} (plain : i.jumpTarget? = none) (pc : Nat) :
    i.successors pc = [pc + i.width] := by
  cases i with
  | goto | jumpIfFalse => cases plain
  | _ => rfl

variable {widths widths' : Word → Nat → Prop} {i : Instr} {taken left taken' left' : Nat}

theorem Moves.map (h : i.Moves widths taken left) (le : ∀ w n, widths w n → widths' w n) :
    i.Moves widths' taken left := by
  cases h with
  | new known => exact .new (le _ _ known)
  | _ => constructor

/-- What an instruction takes and leaves is certain if the widths of classes are. -/
theorem Moves.unique (h : i.Moves widths taken left) (g : i.Moves widths taken' left')
    (certain : ∀ w n k, widths w n → widths w k → n = k) : taken = taken' ∧ left = left' := by
  cases h with
  | new known =>
    cases g with
    | new also => exact ⟨certain _ _ _ known also, rfl⟩
  | _ =>
    cases g
    exact ⟨rfl, rfl⟩

/-- The numbers of operands before and after the instruction are as it says, and it goes on inside
and forward. -/
def Balances (widths : Word → Nat → Prop) (level : Nat → Nat) (inside : Nat → Prop) (pc : Nat)
    (i : Instr) : Prop :=
  inside pc ∧ ∃ taken left, i.Moves widths taken left ∧ taken ≤ level pc ∧
    ∀ q ∈ i.successors pc, pc < q ∧ inside q ∧ level q + taken = level pc + left

theorem balances_goto {level : Nat → Nat} {inside : Nat → Prop} {pc target : Nat} (here : inside pc)
    (there : inside target) (forward : pc < target) (same : level target = level pc) :
    (goto target).Balances widths level inside pc := by
  refine ⟨here, 0, 0, .goto target, Nat.zero_le _, fun q mem => ?_⟩
  obtain rfl := List.mem_singleton.mp mem
  exact ⟨forward, there, same⟩

/-- Both branches begin below the word that was tested. -/
theorem balances_jumpIfFalse {level : Nat → Nat} {inside : Nat → Prop} {pc target : Nat}
    (here : inside pc) (there : inside target) (next : inside (pc + 2)) (forward : pc < target)
    (tested : level pc = level target + 1) (same : level (pc + 2) = level target) :
    (jumpIfFalse target).Balances widths level inside pc := by
  refine ⟨here, 1, 0, .jumpIfFalse target, tested ▸ Nat.le_add_left _ _, fun q mem => ?_⟩
  obtain rfl | mem := List.mem_cons.mp mem
  · exact ⟨forward, there, tested.symm⟩
  · obtain rfl := List.mem_singleton.mp mem
    exact ⟨Nat.lt_add_of_pos_right Nat.two_pos, next, (congrArg (· + 1) same).trans tested.symm⟩

end Instr

/-- An instruction of code that begins at `base` begins at the position, or the code ends there. -/
def Boundary (base : Nat) (is : List Instr) (p : Nat) : Prop :=
  ∃ before after, is = before ++ after ∧ p = base + codeWidth before

namespace Boundary
variable {base p : Nat} {is js : List Instr}

theorem first : Boundary base is base := ⟨[], is, rfl, rfl⟩

theorem last : Boundary base is (base + codeWidth is) := ⟨is, [], by simp, rfl⟩

theorem left (h : Boundary base is p) : Boundary base (is ++ js) p := by
  obtain ⟨before, after, rfl, rfl⟩ := h
  exact ⟨before, after ++ js, by simp, rfl⟩

theorem right (h : Boundary (base + codeWidth is) js p) : Boundary base (is ++ js) p := by
  obtain ⟨before, after, rfl, rfl⟩ := h
  exact ⟨is ++ before, after, by simp, by rw [codeWidth_append, Nat.add_assoc]⟩

theorem le (h : Boundary base is p) : base ≤ p := by
  obtain ⟨before, after, -, rfl⟩ := h
  exact Nat.le_add_right _ _

theorem le_last (h : Boundary base is p) : p ≤ base + codeWidth is := by
  obtain ⟨before, after, rfl, rfl⟩ := h
  rw [codeWidth_append]
  omega

end Boundary

/-- All instructions from a position on are balanced. -/
def Levelled (widths : Word → Nat → Prop) (level : Nat → Nat) (inside : Nat → Prop) :
    Nat → List Instr → Prop
  | _, [] => True
  | pc, i :: is =>
    i.Balances widths level inside pc ∧ Levelled widths level inside (pc + i.width) is

section
variable {widths widths' : Word → Nat → Prop} {level level' : Nat → Nat}
  {inside inside' : Nat → Prop} {pc base : Nat} {is js : List Instr}

theorem levelled_append : Levelled widths level inside pc (is ++ js) ↔
    Levelled widths level inside pc is ∧
      Levelled widths level inside (pc + codeWidth is) js := by
  induction is generalizing pc with
  | nil => simp [Levelled]
  | cons i is ih =>
    simp only [List.cons_append, Levelled, ih, codeWidth_cons, Nat.add_assoc, and_assoc]

/-- Only the levels inside matter. -/
theorem Levelled.map (h : Levelled widths level inside pc is)
    (le : ∀ w n, widths w n → widths' w n)
    (same : ∀ p, inside p → inside' p ∧ level' p = level p) :
    Levelled widths' level' inside' pc is := by
  induction is generalizing pc with
  | nil => trivial
  | cons i is ih =>
    obtain ⟨⟨here, taken, left, moves, enough, next⟩, rest⟩ := h
    refine ⟨⟨(same pc here).1, taken, left, moves.map le, ?_, fun q mem => ?_⟩, ih rest⟩
    · rw [(same pc here).2]
      exact enough
    · obtain ⟨forward, there, levels⟩ := next q mem
      refine ⟨forward, (same q there).1, ?_⟩
      rw [(same q there).2, (same pc here).2]
      exact levels

/-- The levels are right at all positions of the code, and its jumps stay in it. -/
def Balanced (widths : Word → Nat → Prop) (level : Nat → Nat) (base : Nat) (is : List Instr) :
    Prop :=
  Levelled widths level (Boundary base is) base is

/-- Levels up to a position, and others after it. -/
def levelsUpTo (stop : Nat) (level level' : Nat → Nat) (p : Nat) : Nat :=
  if p ≤ stop then level p else level' p

theorem levelsUpTo_early {stop p : Nat} (h : p ≤ stop) : levelsUpTo stop level level' p = level p :=
  if_pos h

theorem levelsUpTo_after {stop p : Nat} (h : stop < p) :
    levelsUpTo stop level level' p = level' p :=
  if_neg (Nat.not_le_of_lt h)

/-- Where the levels meet they are both. -/
theorem levelsUpTo_late {stop p : Nat} (meet : level stop = level' stop) (h : stop ≤ p) :
    levelsUpTo stop level level' p = level' p := by
  unfold levelsUpTo
  split
  · rename_i early
    rw [Nat.le_antisymm early h, meet]
  · rfl

namespace Balanced

/-- Before its end there is an instruction of the code, which is balanced. -/
theorem fetch (h : Balanced widths level base is) {code : Code} (has : code.HasAt base is)
    (here : Boundary base is pc) (before : pc ≠ base + codeWidth is) :
    ∃ i, code.fetch pc = .ok i ∧ i.Balances widths level (Boundary base is) pc := by
  obtain ⟨done, rest, whole, rfl⟩ := here
  cases rest with
  | nil =>
    rw [List.append_nil] at whole
    exact absurd (by rw [whole]) before
  | cons i rest =>
    have split : Levelled widths level (Boundary base is) base (done ++ i :: rest) := whole ▸ h
    rw [whole] at has
    exact ⟨i, has.right.fetch, (levelled_append.mp split).2.1⟩

/-- One piece of code after another. Where they meet they have the same level. -/
theorem append (h : Balanced widths level base is)
    (g : Balanced widths level' (base + codeWidth is) js)
    (meet : level (base + codeWidth is) = level' (base + codeWidth is)) :
    Balanced widths (levelsUpTo (base + codeWidth is) level level') base (is ++ js) := by
  refine levelled_append.mpr ⟨h.map (fun _ _ => id) fun p here => ⟨here.left, ?_⟩,
    g.map (fun _ _ => id) fun p here => ⟨here.right, ?_⟩⟩
  · exact levelsUpTo_early here.le_last
  · exact levelsUpTo_late meet here.le

end Balanced

/-- From so many operands the code goes to so many others. -/
def Grades (widths : Word → Nat → Prop) (base l : Nat) (is : List Instr) (l' : Nat) : Prop :=
  ∃ level, Balanced widths level base is ∧ level base = l ∧ level (base + codeWidth is) = l'

namespace Grades
variable {l l' l'' : Nat} {i : Instr} {taken left k : Nat}

theorem nil : Grades widths base l [] l := ⟨fun _ => l, trivial, rfl, rfl⟩

theorem append (h : Grades widths base l is l')
    (g : Grades widths (base + codeWidth is) l' js l'') : Grades widths base l (is ++ js) l'' := by
  obtain ⟨level, balanced, starts, ends⟩ := h
  obtain ⟨level', balanced', starts', ends'⟩ := g
  have meet := ends.trans starts'.symm
  refine ⟨_, balanced.append balanced' meet, ?_, ?_⟩
  · rw [levelsUpTo_early (Nat.le_add_right _ _), starts]
  · rw [codeWidth_append, ← Nat.add_assoc, levelsUpTo_late meet (Nat.le_add_right _ _), ends']

theorem one (moves : i.Moves widths taken left) (plain : i.jumpTarget? = none) :
    Grades widths base (k + taken) [i] (k + left) := by
  have later : ¬ base + i.width ≤ base := by
    have := i.width_pos
    omega
  refine ⟨levelsUpTo base (fun _ => k + taken) fun _ => k + left, ⟨⟨.first, taken, left, moves, ?_,
    fun q mem => ?_⟩, trivial⟩, ?_, ?_⟩
  · rw [levelsUpTo, if_pos (Nat.le_refl _)]
    exact Nat.le_add_left _ _
  · rw [Instr.successors_of_plain plain, List.mem_singleton] at mem
    subst mem
    refine ⟨Nat.lt_add_of_pos_right i.width_pos, ⟨[i], [], rfl, by simp⟩, ?_⟩
    rw [levelsUpTo, levelsUpTo, if_neg later, if_pos (Nat.le_refl _)]
    omega
  · exact if_pos (Nat.le_refl _)
  · rw [codeWidth_cons, codeWidth_nil, Nat.add_zero]
    exact if_neg later

/-- Code with two branches. Both begin below the word that was tested, and meet at one level. -/
theorem cond {test first second : List Instr} {p₁ p₂ s : Nat}
    (hTest : Grades widths base l test (l + 1)) (tested : base + codeWidth test = p₁)
    (hFirst : Grades widths (p₁ + 2) l first (l + 1)) (done : p₁ + 2 + codeWidth first = p₂)
    (hSecond : Grades widths (p₂ + 2) l second (l + 1)) (last : p₂ + 2 + codeWidth second = s) :
    Grades widths base l (test ++ [.jumpIfFalse (p₂ + 2)] ++ first ++ [.goto s] ++ second)
      (l + 1) := by
  obtain ⟨level₁, balanced₁, starts₁, ends₁⟩ := hTest
  obtain ⟨level₂, balanced₂, starts₂, ends₂⟩ := hFirst
  obtain ⟨level₃, balanced₃, starts₃, ends₃⟩ := hSecond
  rw [tested] at ends₁
  rw [done] at ends₂
  rw [last] at ends₃
  let whole := test ++ [.jumpIfFalse (p₂ + 2)] ++ first ++ [.goto s] ++ second
  let level := levelsUpTo p₁ level₁ (levelsUpTo p₂ level₂ level₃)
  have early {p : Nat} (le : p ≤ p₁) : level p = level₁ p := levelsUpTo_early le
  have between {p : Nat} (lt : p₁ < p) (le : p ≤ p₂) : level p = level₂ p :=
    (levelsUpTo_after lt).trans (levelsUpTo_early le)
  have late {p : Nat} (lt : p₂ < p) : level p = level₃ p :=
    (levelsUpTo_after (by omega)).trans (levelsUpTo_after lt)
  -- Where the pieces begin and end in the whole.
  have place₁ : base + codeWidth (test ++ [.jumpIfFalse (p₂ + 2)]) = p₁ + 2 := by
    rw [codeWidth_append, ← Nat.add_assoc, tested]
    rfl
  have place₂ : base + codeWidth (test ++ [.jumpIfFalse (p₂ + 2)] ++ first) = p₂ := by
    rw [codeWidth_append, ← Nat.add_assoc, place₁, done]
  have place₃ : base + codeWidth (test ++ [.jumpIfFalse (p₂ + 2)] ++ first ++ [.goto s]) =
      p₂ + 2 := by
    rw [codeWidth_append, ← Nat.add_assoc, place₂]
    rfl
  have place₄ : base + codeWidth whole = s := by
    rw [codeWidth_append, ← Nat.add_assoc, place₃, last]
  have inTest {p : Nat} (h : Boundary base test p) : Boundary base whole p := h.left.left.left.left
  have inFirst {p : Nat} (h : Boundary (p₁ + 2) first p) : Boundary base whole p :=
    Boundary.left (Boundary.left (Boundary.right (place₁.symm ▸ h)))
  have inSecond {p : Nat} (h : Boundary (p₂ + 2) second p) : Boundary base whole p :=
    Boundary.right (place₃.symm ▸ h)
  have jumps : (Instr.jumpIfFalse (p₂ + 2)).Balances widths level (Boundary base whole) p₁ := by
    refine Instr.balances_jumpIfFalse (inTest (tested ▸ .last)) (inSecond .first) (inFirst .first)
      (by omega) ?_ ?_
    · rw [early (Nat.le_refl _), late (by omega), ends₁, starts₃]
    · rw [between (by omega) (by omega), late (by omega), starts₂, starts₃]
  have leaves : (Instr.goto s).Balances widths level (Boundary base whole) p₂ := by
    refine Instr.balances_goto (inFirst (done ▸ .last)) (place₄ ▸ .last) (by omega) ?_
    rw [late (by omega), between (by omega) (Nat.le_refl _), ends₃, ends₂]
  have ofTest : Levelled widths level (Boundary base whole) base test :=
    balanced₁.map (fun _ _ => id) fun p here => ⟨inTest here, early (tested ▸ here.le_last)⟩
  have ofFirst : Levelled widths level (Boundary base whole) (p₁ + 2) first :=
    balanced₂.map (fun _ _ => id) fun p here =>
      ⟨inFirst here, between (Nat.lt_of_lt_of_le (by omega) here.le) (done ▸ here.le_last)⟩
  have ofSecond : Levelled widths level (Boundary base whole) (p₂ + 2) second :=
    balanced₃.map (fun _ _ => id) fun p here =>
      ⟨inSecond here, late (Nat.lt_of_lt_of_le (by omega) here.le)⟩
  refine ⟨level, levelled_append.mpr ⟨levelled_append.mpr ⟨levelled_append.mpr ⟨levelled_append.mpr
    ⟨ofTest, ?_⟩, ?_⟩, ?_⟩, ?_⟩, ?_, ?_⟩
  · exact ⟨tested ▸ jumps, trivial⟩
  · rwa [place₁]
  · rw [place₂]
    exact ⟨leaves, trivial⟩
  · rwa [place₃]
  · rw [early (by omega), starts₁]
  · rw [place₄, late (by omega), ends₃]

end Grades
end

end TaggedScript
