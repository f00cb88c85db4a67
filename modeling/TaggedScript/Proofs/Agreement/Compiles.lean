import TaggedScript.Proofs.Compilation.Emitted
import TaggedScript.Proofs.Agreement.Reading

/-!
What was read from a text can be compiled.
-/
namespace TaggedScript

open TaggedScript.Expr

/-- A part of the compiler that finds no fault. -/
class Succeeds {α : Type} (x : Compile α) : Prop where
  result : ∀ c, ∃ a d, x c = .ok a d

namespace Succeeds
variable {α β : Type}

instance pure (a : α) : Succeeds (Pure.pure a : Compile α) := ⟨fun c => ⟨a, c, rfl⟩⟩

instance bind (x : Compile α) (f : α → Compile β) [hx : Succeeds x] [hf : ∀ a, Succeeds (f a)] :
    Succeeds (x >>= f) where
  result c := by
    obtain ⟨a, d, first⟩ := hx.result c
    rw [bind_eq, first]
    exact (hf a).result d

instance ite (p : Prop) [Decidable p] (x y : Compile α) [hx : Succeeds x] [hy : Succeeds y] :
    Succeeds (if p then x else y) := by
  split
  · exact hx
  · exact hy

instance constant (v : Value) : Succeeds (Compile.constant v) := ⟨fun _ => ⟨_, _, rfl⟩⟩

instance name (x : String) : Succeeds (Compile.name x) := constant _

instance newFunction (name : String) (code : Code) : Succeeds (Compile.newFunction name code) :=
  ⟨fun _ => ⟨_, _, rfl⟩⟩

instance newClass (fields : List String) : Succeeds (Compile.newClass fields) :=
  ⟨fun _ => ⟨_, _, rfl⟩⟩

instance literal (v : Literal) : Succeeds (Compile.literal v) := by
  cases v <;> rw [Compile.literal] <;> infer_instance

instance read (slots : List String) (x : String) : Succeeds (Compile.read slots x) := by
  unfold Compile.read
  split <;> infer_instance

instance write (slots : List String) (x : String) : Succeeds (Compile.write slots x) := by
  unfold Compile.write
  split <;> infer_instance

theorem checkParameters {function : String} {span : Span} {slots params : List String}
    (this : thisName ∉ params) (differ : params.Nodup) (new : ∀ x ∈ params, x ∉ slots) :
    Succeeds (Compile.checkParameters function span slots params) := by
  induction params generalizing slots with
  | nil =>
    rw [Compile.checkParameters]
    infer_instance
  | cons x params ih =>
    rw [List.nodup_cons] at differ
    rw [List.forall_mem_cons] at new
    rw [List.mem_cons, not_or] at this
    have rest : Succeeds (Compile.checkParameters function span (slots ++ [x]) params) := by
      refine ih this.2 differ.2 fun y mem old => ?_
      obtain old | last := List.mem_append.mp old
      · exact new.2 y mem old
      · exact differ.1 (List.mem_singleton.mp last ▸ mem)
    rw [Compile.checkParameters, if_neg (Ne.symm this.1), if_neg new.1]
    exact rest

end Succeeds

theorem succeeds_inductive : Expr.Inductive
    (fun e => e.Readable → ∀ slots base, Succeeds (Compile.expr slots base e))
    (fun es => AllReadable es → ∀ slots base,
      Succeeds (Compile.all slots base es) ∧ Succeeds (Compile.block slots base es))
    (fun fs => FieldsReadable fs → ∀ slots base, Succeeds (Compile.fields slots base fs)) where
  literal s v _ slots base := by
    simp only [Compile.expr]
    infer_instance
  var s x _ slots base := by
    simp only [Compile.expr]
    infer_instance
  assign s x declare e ih h slots base := by
    rw [Readable, parts, List.forall_mem_cons] at h
    have value := ih h.2
    simp only [Compile.expr]
    infer_instance
  field s r x ih h slots base := by
    rw [Readable, parts, List.forall_mem_cons] at h
    have receiver := ih h.2
    simp only [Compile.expr]
    infer_instance
  setField s r x e ihr ihe h slots base := by
    rw [Readable, parts, List.forall_mem_cons, List.forall_mem_append] at h
    have value := ihe h.2.1
    have receiver := ihr h.2.2
    simp only [Compile.expr]
    infer_instance
  call s f args ihf ihargs h slots base := by
    rw [Readable, parts, List.forall_mem_cons, List.forall_mem_append] at h
    have callee := ihf h.2.1
    have values := fun slots base => (ihargs h.2.2 slots base).1
    simp only [Compile.expr]
    infer_instance
  methodCall s r x args ihr ihargs h slots base := by
    rw [Readable, parts, List.forall_mem_cons, List.forall_mem_append] at h
    have receiver := ihr h.2.1
    have values := fun slots base => (ihargs h.2.2 slots base).1
    simp only [Compile.expr]
    infer_instance
  function s name params body ih h slots base := by
    rw [Readable, parts, List.forall_mem_cons] at h
    have code := fun slots => (ih h.2 slots 0).2
    have this : thisName ∉ params := fun mem => h.1.this (List.mem_append_right _ mem)
    have check : Succeeds (Compile.checkParameters (name.getD lambdaName) s [thisName] params) :=
      .checkParameters this (h.1.params _ rfl) fun x mem same =>
        this (List.mem_singleton.mp same ▸ mem)
    have made : Succeeds
        (Compile.functionWith (fun slots => Compile.block slots 0 body) s name params body) := by
      unfold Compile.functionWith
      infer_instance
    simp only [Compile.expr]
    cases name <;> infer_instance
  object s fields ih h slots base := by
    rw [Readable, parts, List.forall_mem_cons] at h
    have values := ih h.2
    simp only [Compile.expr]
    infer_instance
  cond s c t e ihc iht ihe h slots base := by
    rw [Readable, parts, List.forall_mem_cons, List.forall_mem_append, List.forall_mem_append] at h
    have test := ihc h.2.1.1
    have whenTrue := fun slots base => (iht h.2.1.2 slots base).2
    have whenFalse := fun slots base => (ihe h.2.2 slots base).2
    simp only [Compile.expr]
    infer_instance
  ret s e ih h slots base := by
    rw [Readable, parts, List.forall_mem_cons] at h
    have value := ih h.2
    simp only [Compile.expr]
    infer_instance
  block s body ih h slots base := by
    rw [Readable, parts, List.forall_mem_cons] at h
    simp only [Compile.expr]
    exact (ih h.2 slots base).2
  nil h slots base := by
    simp only [Compile.all, Compile.block]
    exact ⟨inferInstance, inferInstance⟩
  cons e es ihe ihes h slots base := by
    rw [AllReadable, partsAll, List.forall_mem_append] at h
    have first := ihe h.1
    have values := fun slots base => (ihes h.2 slots base).1
    have block := fun slots base => (ihes h.2 slots base).2
    simp only [Compile.all, Compile.block]
    exact ⟨inferInstance, inferInstance⟩
  noFields h slots base := by
    simp only [Compile.fields]
    infer_instance
  consField x e fields ihe ihfields h slots base := by
    rw [FieldsReadable, partsFields, List.forall_mem_append] at h
    have first := ihe h.1
    have rest := ihfields h.2
    simp only [Compile.fields]
    infer_instance

/-- A script that was read from a text has code. -/
theorem compileScript_succeeds {s : Script} (h : AllReadable s.body) (c : Compiling) :
    ∃ main d, compileScript s c = .ok main d := by
  have body := (succeeds_inductive.list s.body h [thisName] 0).2
  have whole : Succeeds (compileScript s) := by
    rw [compileScript_eq, Compile.script]
    infer_instance
  exact whole.result c

end TaggedScript
