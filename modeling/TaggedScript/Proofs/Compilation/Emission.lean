import TaggedScript.Proofs.Operands.Places

/-!
What the code of an expression is made of. Its words are those of the dictionary as it is in the
end, and its listing is the list of its instructions.
-/
namespace TaggedScript

/-- A part of the compiler only adds, and its result is as it should be with all that is compiled in
the end. -/
def Emits {α : Type} (final : Compiling) (x : Compile α) (good : α → Prop) : Prop :=
  ∀ c a d, x c = .ok a d → c.Extends d ∧ (d.Extends final → good a)

namespace Emits
variable {α β : Type} {final : Compiling} {x : Compile α} {good : α → Prop} {good' : β → Prop}

theorem bind {f : α → Compile β} (h : Emits final x good)
    (k : ∀ a, Emits final (f a) fun b => good a → good' b) : Emits final (x >>= f) good' := by
  intro c b e result
  obtain ⟨a, d, first, second⟩ := ok_of_bind result
  obtain ⟨later, made⟩ := h c a d first
  obtain ⟨later', made'⟩ := k a d b e second
  exact ⟨later.trans later', fun rest => made' rest (made (later'.trans rest))⟩

theorem pure {a : α} (h : good a) : Emits final (Pure.pure a) good := by
  intro c b d result
  obtain ⟨rfl, rfl⟩ := ok_of_pure result
  exact ⟨.refl c, fun _ => h⟩

theorem map (h : Emits final x good) {better : α → Prop} (le : ∀ a, good a → better a) :
    Emits final x better := fun c a d result =>
  (h c a d result).imp_right fun made rest => le a (made rest)

/-- The word of a constant is its word in the end. -/
theorem constant (v : Value) :
    Emits final (Compile.constant v) fun w => final.dictionary.Spells v w := by
  intro c w d result
  cases result
  exact ⟨Builds.extends_constant c v,
    fun rest => (Dictionary.spells_encode c.dictionary v).mono rest.dictionary⟩

theorem name (x : String) :
    Emits final (Compile.name x) fun w => final.dictionary.Spells (.str x) w := constant (.str x)

/-- What holds with the classes that are known holds with those that there are in the end. -/
theorem of_makes (h : Makes final.Width x good) : Emits final x good := fun c a d result =>
  (h c a d result).imp_right fun made rest => made fun _ _ width => width.later rest

/-- A function that is made has code. -/
theorem functionWith (span : Span) (name? : Option String) (params : List String)
    (body : List Expr) :
    Emits final
      (Compile.functionWith (fun slots => Compile.block slots 0 body) span name? params body)
      fun id => (final.world.object id).code?.isSome := by
  intro c id d result
  have built : Builds
      (Compile.functionWith (fun slots => Compile.block slots 0 body) span name? params body)
      (fun n => (Expr.function span name? params body).procedures n) :=
    builds_function rfl fun slots => builds_block slots 0 body
  refine ⟨(built.ok result).later, fun rest => ?_⟩
  have size := Compile.functionWith_size result
  have known : final.world.object id = d.world.object id := rest.object (by omega)
  simp only [known]
  obtain ⟨u, c₁, -, inside⟩ := ok_of_bind result
  obtain ⟨code, c₂, -, made⟩ := ok_of_bind inside
  cases made
  simp [World.object, HostObject.ofCode, HostObject.code?]

end Emits
end TaggedScript
