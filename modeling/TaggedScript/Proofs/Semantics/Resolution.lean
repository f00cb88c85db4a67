import TaggedScript.Proofs.Semantics.Meaning
import TaggedScript.Proofs.Slots
import TaggedScript.Proofs.SyntaxInduction

/-!
The compiler finds the variables that functions have. It collects the same names, reads and writes
them in the same slots, and takes the same calls for those of `print`.
-/
namespace TaggedScript

open TaggedScript.Expr

/-- What is declared is what the expressions themselves declare. -/
theorem declared_eq_inductive : Expr.Inductive
    (fun e => e.declared = e.own.filterMap declares?)
    (fun es => declaredAll es = (ownAll es).filterMap declares?)
    (fun fs => declaredFields fs = (ownFields fs).filterMap declares?) where
  literal s v := rfl
  var s x := rfl
  assign s x declare e ih := by
    cases declare <;> simp [declared, own, List.filterMap_cons, declares?, ih]
  field s r x ih := by simp [declared, own, List.filterMap_cons, declares?, ih]
  setField s r x e ihr ihe := by simp [declared, own, List.filterMap_cons, declares?, ihr, ihe]
  call s f args ihf ihargs := by simp [declared, own, List.filterMap_cons, declares?, ihf, ihargs]
  methodCall s r x args ihr ihargs := by
    simp [declared, own, List.filterMap_cons, declares?, ihr, ihargs]
  function s name params body _ := rfl
  object s fields ih := by simp [declared, own, List.filterMap_cons, declares?, ih]
  cond s c t e ihc iht ihe := by simp [declared, own, List.filterMap_cons, declares?, ihc, iht, ihe]
  ret s e ih := by simp [declared, own, List.filterMap_cons, declares?, ih]
  block s body ih := by simp [declared, own, List.filterMap_cons, declares?, ih]
  nil := rfl
  cons e es ihe ihes := by simp [declaredAll, ownAll, ihe, ihes]
  noFields := rfl
  consField x e fs ihe ihfs := by simp [declaredFields, ownFields, ihe, ihfs]

/-- The slots that the compiler gives to a function whose parameters are distinct. -/
theorem extendSlots_declaredAll (f : FunDef) (differ : (thisName :: f.params).Nodup) :
    extendSlots (thisName :: f.params) (declaredAll f.body) = f.slotNames := by
  rw [extendSlots_eq differ, declared_eq_inductive.list]
  rfl

theorem slotOf?_eq (slots : List String) (x : String) :
    slotOf? slots x = if x ∈ slots then some (slots.idxOf x) else none := by
  induction slots with
  | nil => rfl
  | cons y slots ih =>
    rw [slotOf?_cons, ih, List.idxOf_cons]
    by_cases here : y = x
    · simp [here]
    · by_cases mem : x ∈ slots <;> simp [here, Ne.symm here, mem, beq_eq_false_iff_ne.mpr here]

theorem printed?_eq (slots : List String) (f : Expr) (args : List Expr) :
    Compile.printed? slots f args = isPrint slots f args := by
  unfold Compile.printed? isPrint
  cases f with
  | var s x =>
    rw [Bool.eq_iff_iff]
    match args with
    | [] => simp
    | [arg] =>
      by_cases same : x = printName
      · simp [same, slotOf?_eq_none]
      · simp [same]
    | _ :: _ :: _ => simp
  | _ => simp

/-- A call that `PRINT` does is one of the name `print`, which has no slot, with one argument. -/
theorem eq_of_isPrint {slots : List String} {callee : Expr} {args : List Expr}
    (h : isPrint slots callee args = true) :
    ∃ span arg, callee = .var span printName ∧ args = [arg] ∧ printName ∉ slots := by
  cases callee with
  | var s x =>
    obtain ⟨rfl, global, one⟩ := of_decide_eq_true h
    obtain ⟨arg, rfl⟩ := List.length_eq_one_iff.mp one
    exact ⟨s, arg, rfl, rfl, global⟩
  | _ => cases h

theorem eq_of_printed {slots : List String} {callee : Expr} {args : List Expr}
    (h : Compile.printed? slots callee args = true) :
    ∃ span arg, callee = .var span printName ∧ args = [arg] ∧ printName ∉ slots :=
  eq_of_isPrint (printed?_eq slots callee args ▸ h)

namespace Meaning

/-- A variable is read in the slot that the compiler gives it. -/
theorem read_slotOf? (locals : List String) (x : String) (σ : Memory) :
    read locals x σ = .ok (match slotOf? locals x with
      | some i => σ.slots.getD i .undefined
      | none => σ.world.global x) σ := by
  rw [slotOf?_eq]
  by_cases mem : x ∈ locals
  · simp only [read, if_pos mem]
    rfl
  · simp only [read, if_neg mem]
    rfl

theorem write_slotOf? (locals : List String) (x : String) (v : Value) (σ : Memory) :
    write locals x v σ = .ok () (match slotOf? locals x with
      | some i => { σ with slots := σ.slots.set i v }
      | none => { σ with world := σ.world.setGlobal x v }) := by
  rw [slotOf?_eq]
  by_cases mem : x ∈ locals
  · simp only [write, if_pos mem]
    rfl
  · simp only [write, if_neg mem]
    rfl

end Meaning
end TaggedScript
