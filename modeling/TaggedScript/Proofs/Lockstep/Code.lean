import TaggedScript.Proofs.Compilation.CodeAt
import TaggedScript.Proofs.Lockstep.Words

/-!
Code that differs in no more than the words of its constants and in where it lies.
-/
namespace TaggedScript

/-- The instructions do the same to corresponding machines, if their jumps go to corresponding
places. -/
inductive Instr.Alike {R : Renumbering} (L : Lockstep R) (jumps : Nat → Nat → Prop) :
    Instr → Instr → Prop
  | const {v : Value} {w u : Word} : L.Same v w u → Alike L jumps (.const w) (.const u)
  | lookup {x : String} {w u : Word} : L.Same (.str x) w u → Alike L jumps (.lookup w) (.lookup u)
  | register {x : String} {w u : Word} :
    L.Same (.str x) w u → Alike L jumps (.register w) (.register u)
  | load (i : Nat) : Alike L jumps (.load i) (.load i)
  | store (i : Nat) : Alike L jumps (.store i) (.store i)
  | dup : Alike L jumps .dup .dup
  | pop : Alike L jumps .pop .pop
  | swap : Alike L jumps .swap .swap
  | funcall (argc : Nat) : Alike L jumps (.funcall argc) (.funcall argc)
  | ret : Alike L jumps .ret .ret
  | goto {t s : Nat} : jumps t s → Alike L jumps (.goto t) (.goto s)
  | jumpIfFalse {t s : Nat} : jumps t s → Alike L jumps (.jumpIfFalse t) (.jumpIfFalse s)
  | new {id : ShapeId} {w u : Word} : L.Same (.shape id) w u → Alike L jumps (.new w) (.new u)
  | get {x : String} {w u : Word} : L.Same (.str x) w u → Alike L jumps (.get w) (.get u)
  | put {x : String} {w u : Word} : L.Same (.str x) w u → Alike L jumps (.put w) (.put u)
  | print : Alike L jumps .print .print

namespace Instr.Alike
variable {R R' : Renumbering} {L : Lockstep R} {L' : Lockstep R'} {jumps jumps' : Nat → Nat → Prop}
  {i j : Instr}

theorem width_eq (h : i.Alike L jumps j) : i.width = j.width := by cases h <;> rfl

theorem map (h : i.Alike L jumps j) (carries : L.Carries L')
    (further : ∀ t s, jumps t s → jumps' t s) : i.Alike L' jumps' j := by
  cases h with
  | const s => exact .const (carries s)
  | lookup s => exact .lookup (carries s)
  | register s => exact .register (carries s)
  | load i => exact .load i
  | store i => exact .store i
  | dup => exact .dup
  | pop => exact .pop
  | swap => exact .swap
  | funcall argc => exact .funcall argc
  | ret => exact .ret
  | goto j => exact .goto (further _ _ j)
  | jumpIfFalse j => exact .jumpIfFalse (further _ _ j)
  | new s => exact .new (carries s)
  | get s => exact .get (carries s)
  | put s => exact .put (carries s)
  | print => exact .print

end Instr.Alike

/-- The positions lie at the same place of instructions that begin at `base` and at `base'`. -/
def Abreast (base base' : Nat) (is : List Instr) (p q : Nat) : Prop :=
  ∃ before after, is = before ++ after ∧ p = base + codeWidth before ∧ q = base' + codeWidth before

namespace Abreast
variable {base base' p q : Nat} {is : List Instr}

theorem first : Abreast base base' is base base' := ⟨[], is, rfl, by simp, by simp⟩

/-- Both positions are at the end if one is. -/
theorem last_of (h : Abreast base base' is p q) (ends : p = base + codeWidth is) :
    q = base' + codeWidth is := by
  obtain ⟨before, after, -, rfl, rfl⟩ := h
  omega

/-- A place of a part is a place of the whole. -/
theorem within (before after : List Instr)
    (h : Abreast (base + codeWidth before) (base' + codeWidth before) is p q) :
    Abreast base base' (before ++ is ++ after) p q := by
  obtain ⟨inner, rest, rfl, rfl, rfl⟩ := h
  exact ⟨before ++ inner, rest ++ after, by simp, by simp [Nat.add_assoc], by simp [Nat.add_assoc]⟩

end Abreast

/-- Instructions that begin at `base` and at `base'` are alike one by one, and their jumps stay among
them. -/
def Alikes {R : Renumbering} (L : Lockstep R) (base base' : Nat) (is js : List Instr) : Prop :=
  List.Forall₂ (Instr.Alike L (Abreast base base' is)) is js

theorem codeWidth_alike {R : Renumbering} {L : Lockstep R} {jumps : Nat → Nat → Prop}
    {is js : List Instr} (h : List.Forall₂ (Instr.Alike L jumps) is js) :
    codeWidth is = codeWidth js := by
  induction h with
  | nil => rfl
  | cons same _ ih => rw [codeWidth_cons, codeWidth_cons, same.width_eq, ih]

namespace Alikes
variable {R R' : Renumbering} {L : Lockstep R} {L' : Lockstep R'} {base base' : Nat}
  {is js is' js' : List Instr}

theorem width_eq (h : Alikes L base base' is js) : codeWidth is = codeWidth js := codeWidth_alike h

theorem map (h : Alikes L base base' is js) (carries : L.Carries L') : Alikes L' base base' is js :=
  h.imp fun _ _ same => same.map carries fun _ _ => id

theorem nil : Alikes L base base' [] [] := List.Forall₂.nil

/-- A part of longer code. -/
theorem within {whole : List Instr} (before after : List Instr) {b b' : Nat}
    (h : Alikes L b b' is js) (split : whole = before ++ is ++ after)
    (left : b = base + codeWidth before) (right : b' = base' + codeWidth before) :
    List.Forall₂ (Instr.Alike L (Abreast base base' whole)) is js := by
  subst split left right
  exact h.imp fun _ _ same => same.map (fun s => s) fun _ _ => Abreast.within before after

theorem append (h : Alikes L base base' is js)
    (g : Alikes L (base + codeWidth is) (base' + codeWidth js) is' js') :
    Alikes L base base' (is ++ is') (js ++ js') :=
  List.rel_append (h.within [] is' (by simp) rfl rfl)
    (g.within is [] (by rw [List.append_nil]) rfl (by rw [h.width_eq]))

/-- An instruction that is alike wherever it is. -/
theorem one {i j : Instr} (h : i.Alike L (fun _ _ => False) j) : Alikes L base base' [i] [j] :=
  .cons (h.map (fun s => s) fun _ _ => False.elim) .nil

theorem step (h : Alikes L base base' is js) {i j : Instr} (g : i.Alike L (fun _ _ => False) j) :
    Alikes L base base' (is ++ [i]) (js ++ [j]) := h.append (.one g)

/-- Code with two branches. The jumps over them lead to the beginning of the second one and to the
end. -/
theorem cond {test test' first first' second second' : List Instr}
    (hTest : Alikes L base base' test test')
    (hFirst : Alikes L (base + codeWidth (test ++ [Instr.jumpIfFalse 0]))
      (base' + codeWidth (test' ++ [Instr.jumpIfFalse 0])) first first')
    (hSecond : Alikes L
      (base + codeWidth (test ++ [Instr.jumpIfFalse 0]) + codeWidth (first ++ [Instr.goto 0]))
      (base' + codeWidth (test' ++ [Instr.jumpIfFalse 0]) + codeWidth (first' ++ [Instr.goto 0]))
      second second') {t t' s s' : Nat}
    (middle : t =
      base + codeWidth (test ++ [Instr.jumpIfFalse 0]) + codeWidth (first ++ [Instr.goto 0]))
    (middle' : t' =
      base' + codeWidth (test' ++ [Instr.jumpIfFalse 0]) + codeWidth (first' ++ [Instr.goto 0]))
    (last : s = t + codeWidth second) (last' : s' = t' + codeWidth second') :
    Alikes L base base' (test ++ [Instr.jumpIfFalse t] ++ first ++ [Instr.goto s] ++ second)
      (test' ++ [Instr.jumpIfFalse t'] ++ first' ++ [Instr.goto s'] ++ second') := by
  have skip (n : Nat) : Instr.width (.jumpIfFalse n) = 2 := rfl
  have goto (n : Nat) : Instr.width (.goto n) = 2 := rfl
  simp only [codeWidth_append, codeWidth_cons, codeWidth_nil, ← hTest.width_eq,
    ← hFirst.width_eq, ← hSecond.width_eq, skip, goto] at hFirst hSecond middle middle' last last'
  let whole := test ++ [.jumpIfFalse t] ++ first ++ [.goto s] ++ second
  have toSecond : Instr.Alike L (Abreast base base' whole) (.jumpIfFalse t) (.jumpIfFalse t') := by
    refine .jumpIfFalse ⟨test ++ [.jumpIfFalse t] ++ first ++ [.goto s], second, rfl, ?_, ?_⟩
    · simp [middle, skip, goto]
      omega
    · simp [middle', skip, goto]
      omega
  have toEnd : Instr.Alike L (Abreast base base' whole) (.goto s) (.goto s') := by
    refine .goto ⟨whole, [], by simp, ?_, ?_⟩
    · simp [whole, last, middle, skip, goto]
      omega
    · simp [whole, last', middle', skip, goto]
      omega
  have before : List.Forall₂ (Instr.Alike L (Abreast base base' whole)) test test' :=
    hTest.within [] ([.jumpIfFalse t] ++ first ++ [.goto s] ++ second) (by simp [whole]) rfl rfl
  have inside : List.Forall₂ (Instr.Alike L (Abreast base base' whole)) first first' :=
    hFirst.within (test ++ [.jumpIfFalse t]) ([.goto s] ++ second) (by simp [whole])
      (by simp [skip]) (by simp [skip])
  have after : List.Forall₂ (Instr.Alike L (Abreast base base' whole)) second second' :=
    hSecond.within (test ++ [.jumpIfFalse t] ++ first ++ [.goto s]) [] (by simp [whole])
      (by simp [skip, goto]; omega) (by simp [skip, goto]; omega)
  exact List.rel_append (List.rel_append (List.rel_append (List.rel_append before
    (.cons toSecond .nil)) inside) (.cons toEnd .nil)) after

end Alikes

section
variable {R : Renumbering} {L L' : Lockstep R} {c c' : Code} {base base' p q : Nat}
  {is js : List Instr}

/-- Both machines fetch an instruction at the positions. Unless it is a `RET` the ones after it
correspond too, and so do those that it jumps to. -/
def Fetches (L : Lockstep R) (c c' : Code) (here : Nat → Nat → Prop) (p q : Nat) : Prop :=
  ∃ i j, c.fetch p = .ok i ∧ c'.fetch q = .ok j ∧ i.Alike L here j ∧
    (j = .ret ∨ here (p + i.width) (q + j.width))

theorem Fetches.mono {here here' : Nat → Nat → Prop} (h : Fetches L c c' here p q)
    (grows : L.Grows L') (further : ∀ t s, here t s → here' t s) : Fetches L' c c' here' p q := by
  obtain ⟨i, j, fetched, fetched', alike, next⟩ := h
  exact ⟨i, j, fetched, fetched', alike.map grows.carries further, next.imp_right (further _ _)⟩

/-- Before the end of alike code there is an instruction. -/
theorem fetches_within (left : c.HasAt base is) (right : c'.HasAt base' js)
    (alike : Alikes L base base' is js) (here : Abreast base base' is p q)
    (inside : p ≠ base + codeWidth is) : Fetches L c c' (Abreast base base' is) p q := by
  obtain ⟨before, after, split, rfl, rfl⟩ := here
  cases after with
  | nil => exact absurd (by rw [split, List.append_nil]) inside
  | cons i rest =>
    subst split
    have firsts := List.forall₂_take before.length alike
    have lasts := List.forall₂_drop before.length alike
    rw [List.take_left] at firsts
    rw [List.drop_left] at lasts
    generalize later : js.drop before.length = tail at lasts
    obtain _ | ⟨same, -⟩ := lasts
    rename_i j rest'
    rw [← List.take_append_drop before.length js, later] at right
    have there := right.right
    rw [← codeWidth_alike firsts] at there
    refine ⟨i, j, left.right.fetch, there.fetch, same, .inr ⟨before ++ [i], rest, by simp, ?_, ?_⟩⟩
    · simp [Nat.add_assoc]
    · simp [Nat.add_assoc, same.width_eq]

/-- The positions lie at the same place of the bodies of two functions, which are alike. -/
def Going (L : Lockstep R) (c c' : Code) (p q : Nat) : Prop :=
  ∃ base base' is js, c.HasAt base (is ++ [.ret]) ∧ c'.HasAt base' (js ++ [.ret]) ∧
    Alikes L base base' is js ∧ Abreast base base' is p q

theorem Going.grow (h : Going L c c' p q) (grows : L.Grows L') : Going L' c c' p q := by
  obtain ⟨base, base', is, js, left, right, alike, here⟩ := h
  exact ⟨base, base', is, js, left, right, alike.map grows.carries, here⟩

/-- Both positions are at the beginnings of functions. -/
theorem Going.of_alikes {parameterCount slotCount : Nat} (alike : Alikes L 0 0 is js) :
    Going L (.ofInstrs parameterCount slotCount (is ++ [.ret]))
      (.ofInstrs parameterCount slotCount (js ++ [.ret])) 0 0 :=
  ⟨0, 0, is, js, Code.hasAt_ofInstrs _ _ _, Code.hasAt_ofInstrs _ _ _, alike, .first⟩

/-- A body ends in `RET`, so there is always an instruction. -/
theorem Going.fetches (h : Going L c c' p q) : Fetches L c c' (Going L c c') p q := by
  obtain ⟨base, base', is, js, left, right, alike, here⟩ := h
  have going {t s : Nat} (place : Abreast base base' is t s) : Going L c c' t s :=
    ⟨base, base', is, js, left, right, alike, place⟩
  by_cases ends : p = base + codeWidth is
  · have last := here.last_of ends
    rw [alike.width_eq] at last
    rw [ends, last]
    exact ⟨.ret, .ret, left.right.fetch, right.right.fetch, .ret, .inl rfl⟩
  · obtain ⟨i, j, fetched, fetched', same, next⟩ :=
      fetches_within left.left right.left alike here ends
    exact ⟨i, j, fetched, fetched', same.map (fun s => s) fun _ _ => going, next.imp_right going⟩

end
end TaggedScript
