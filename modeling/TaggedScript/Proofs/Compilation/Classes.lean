import TaggedScript.Proofs.Agreement.Flat
import TaggedScript.Proofs.Compilation.Building

/-!
Where classes come from. The compiler makes one for each object literal, and no others.
-/
namespace TaggedScript

/-- The class of the records that an expression itself makes. -/
def Expr.class? : Expr → Option Shape
  | object _ fields => some ⟨"object", fields.map (·.1)⟩
  | _ => none

/-- The class is that of an object literal in one of the scripts. -/
def Script.Declares (scripts : List Script) (shape : Shape) : Prop :=
  ∃ s ∈ scripts, ∃ part ∈ Expr.partsAll s.body, part.class? = some shape

/-- All classes that were added are allowed. -/
def Compiling.Classes (allowed : Shape → Prop) (c d : Compiling) : Prop :=
  ∀ shape ∈ d.world.shapes, shape ∈ c.world.shapes ∨ allowed shape

namespace Compiling.Classes
variable {allowed : Shape → Prop} {c d e : Compiling}

theorem of_same (h : d.world.shapes = c.world.shapes) : c.Classes allowed d :=
  fun _ mem => .inl (h ▸ mem)

theorem refl (c : Compiling) : c.Classes allowed c := of_same rfl

theorem trans (h : c.Classes allowed d) (g : d.Classes allowed e) : c.Classes allowed e := by
  intro shape mem
  obtain old | new := g shape mem
  · exact h shape old
  · exact .inr new

end Compiling.Classes

/-- A part of the compiler adds no classes but those. -/
abbrev Introduces {α : Type} (allowed : Shape → Prop) (x : Compile α) : Prop :=
  Keeps (Compiling.Classes allowed) x

namespace Introduces
variable {α β : Type} {allowed : Shape → Prop} {x : Compile α}

theorem bind {f : α → Compile β} (hx : Introduces allowed x) (hf : ∀ a, Introduces allowed (f a)) :
    Introduces allowed (x >>= f) :=
  Keeps.bind (R := Compiling.Classes allowed) (fun _ _ _ => .trans) hx hf

theorem pure (a : α) : Introduces allowed (Pure.pure a) := fun c => .refl c

theorem constant (v : Value) : Introduces allowed (Compile.constant v) := fun _ => .of_same rfl

theorem name (x : String) : Introduces allowed (Compile.name x) := constant _

theorem literal (v : Literal) : Introduces allowed (Compile.literal v) := by
  cases v with
  | str s => exact constant (.str s)
  | undefined | bool | int => exact pure _

theorem read (slots : List String) (x : String) : Introduces allowed (Compile.read slots x) := by
  unfold Compile.read
  split
  · exact pure _
  · exact (name x).bind fun _ => pure _

theorem write (slots : List String) (x : String) : Introduces allowed (Compile.write slots x) := by
  unfold Compile.write
  split
  · exact pure _
  · exact (name x).bind fun _ => pure _

theorem checkParameters (function : String) (span : Span) (slots params : List String) :
    Introduces allowed (Compile.checkParameters function span slots params) := by
  intro c
  rw [checkParameters_state]
  exact .refl c

theorem newFunction (name : String) (code : Code) :
    Introduces allowed (Compile.newFunction name code) := fun _ => .of_same rfl

theorem newClass {fields : List String} (known : allowed ⟨"object", fields⟩) :
    Introduces allowed (Compile.newClass fields) := by
  apply bind
  · intro c shape mem
    obtain old | rfl := Array.mem_push.mp mem
    · exact .inl old
    · exact .inr known
  · exact fun id => constant _

theorem functionWith {compile : List String → Compile (List Instr)}
    (h : ∀ slots, Introduces allowed (compile slots)) (span : Span) (name? : Option String)
    (params : List String) (body : List Expr) :
    Introduces allowed (Compile.functionWith compile span name? params body) :=
  (checkParameters _ _ _ _).bind fun _ => (h _).bind fun _ => newFunction _ _

end Introduces

theorem introduces_inductive (allowed : Shape → Prop) : Expr.Inductive
    (fun e => (∀ part ∈ e.parts, ∀ shape, part.class? = some shape → allowed shape) →
      ∀ slots base, Introduces allowed (Compile.expr slots base e))
    (fun es => (∀ part ∈ Expr.partsAll es, ∀ shape, part.class? = some shape → allowed shape) →
      ∀ slots base, Introduces allowed (Compile.all slots base es) ∧
        Introduces allowed (Compile.block slots base es))
    (fun fs => (∀ part ∈ Expr.partsFields fs, ∀ shape, part.class? = some shape → allowed shape) →
      ∀ slots base, Introduces allowed (Compile.fields slots base fs)) where
  literal _ v _ slots base := by
    simp only [Compile.expr]
    exact (Introduces.literal v).bind fun _ => .pure _
  var _ x _ slots base := by
    simp only [Compile.expr]
    exact .read slots x
  assign _ x _ e he known slots base := by
    simp only [Compile.expr]
    exact (he (fun part mem => known part (List.mem_cons_of_mem _ mem)) slots base).bind fun _ =>
      (Introduces.write slots x).bind fun _ => .pure _
  field _ r x hr known slots base := by
    simp only [Compile.expr]
    exact (hr (fun part mem => known part (List.mem_cons_of_mem _ mem)) slots base).bind fun _ =>
      (Introduces.name x).bind fun _ => .pure _
  setField _ r x e hr he known slots base := by
    simp only [Expr.parts, List.mem_cons, List.mem_append] at known
    simp only [Compile.expr]
    exact (he (fun part mem => known part (.inr (.inl mem))) slots base).bind fun _ =>
      (hr (fun part mem => known part (.inr (.inr mem))) slots _).bind fun _ =>
        (Introduces.name x).bind fun _ => .pure _
  call _ f args hf hargs known slots base := by
    simp only [Expr.parts, List.mem_cons, List.mem_append] at known
    have callee := hf fun part mem => known part (.inr (.inl mem))
    have values := hargs fun part mem => known part (.inr (.inr mem))
    simp only [Compile.expr]
    split
    · exact (values slots base).1.bind fun _ => .pure _
    · exact (callee slots base).bind fun _ => (values slots _).1.bind fun _ => .pure _
  methodCall _ r x args hr hargs known slots base := by
    simp only [Expr.parts, List.mem_cons, List.mem_append] at known
    simp only [Compile.expr]
    exact (hr (fun part mem => known part (.inr (.inl mem))) slots base).bind fun _ =>
      (Introduces.name x).bind fun _ =>
        (hargs (fun part mem => known part (.inr (.inr mem))) slots _).1.bind fun _ => .pure _
  function span name? params body hbody known slots base := by
    have inside := hbody fun part mem => known part (List.mem_cons_of_mem _ mem)
    simp only [Compile.expr]
    apply (Introduces.functionWith (fun slots => (inside slots 0).2) span name? params body).bind
    intro id
    apply (Introduces.constant _).bind
    intro w
    cases name? with
    | none => exact .pure _
    | some x => exact (Introduces.name x).bind fun _ => .pure _
  object span entries hfields known slots base := by
    simp only [Expr.parts, List.mem_cons] at known
    simp only [Compile.expr]
    exact (Introduces.newClass (known _ (.inl rfl) _ rfl)).bind fun _ =>
      (hfields (fun part mem => known part (.inr mem)) slots base).bind fun _ => .pure _
  cond _ c t e hc ht he known slots base := by
    simp only [Expr.parts, List.mem_cons, List.mem_append] at known
    simp only [Compile.expr]
    exact (hc (fun part mem => known part (.inr (.inl (.inl mem)))) slots base).bind fun _ =>
      (ht (fun part mem => known part (.inr (.inl (.inr mem)))) slots _).2.bind fun _ =>
        (he (fun part mem => known part (.inr (.inr mem))) slots _).2.bind fun _ => .pure _
  ret _ e he known slots base := by
    simp only [Compile.expr]
    exact (he (fun part mem => known part (List.mem_cons_of_mem _ mem)) slots base).bind fun _ =>
      .pure _
  block _ body hbody known slots base := by
    simp only [Compile.expr]
    exact (hbody (fun part mem => known part (List.mem_cons_of_mem _ mem)) slots base).2
  nil _ slots base := by
    simp only [Compile.all, Compile.block]
    exact ⟨.pure _, .pure _⟩
  cons e es he hes known slots base := by
    simp only [Expr.partsAll, List.mem_append] at known
    have first := he fun part mem => known part (.inl mem)
    have rest := hes fun part mem => known part (.inr mem)
    simp only [Compile.all, Compile.block]
    exact ⟨(first slots base).bind fun _ => (rest slots _).1.bind fun _ => .pure _,
      (first slots base).bind fun _ => (rest slots _).2.bind fun _ => .pure _⟩
  noFields _ slots base := by
    simp only [Compile.fields]
    exact .pure _
  consField x e fields he hfields known slots base := by
    simp only [Expr.partsFields, List.mem_append] at known
    simp only [Compile.fields]
    exact (he (fun part mem => known part (.inl mem)) slots base).bind fun _ =>
      (hfields (fun part mem => known part (.inr mem)) slots _).bind fun _ => .pure _

/-- All classes that a script adds are those of its object literals. -/
theorem introduces_script {scripts : List Script} {s : Script} (known : s ∈ scripts) :
    Introduces (Script.Declares scripts) (compileScript s) := by
  have declared (part : Expr) (mem : part ∈ Expr.partsAll s.body) (shape : Shape)
      (literal : part.class? = some shape) : Script.Declares scripts shape :=
    ⟨s, known, part, mem, literal⟩
  rw [compileScript_eq]
  exact ((introduces_inductive _).list s.body declared [thisName] 0).2.bind fun _ =>
    .newFunction _ _

end TaggedScript
