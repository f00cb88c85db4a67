import TaggedScript.Proofs.Compilation.Sequences

/-!
What a machine may come to when sources are compiled and functions are run on it, and what lasts of
what it was.
-/
namespace TaggedScript

/-- What can be compiled: a script, or a function that stands at a place of the source. -/
inductive Source where
  | script (s : Script)
  | function (f : FunDef) (span : Span)

namespace Source

def compile : Source → Compile ObjectId
  | script s => compileScript s
  | function f span => compileFunction f span

/-- The functions of the source with that itself as the last one. -/
def procedures (first : Nat) : Source → List Procedure
  | script s => s.procedures first
  | function f span => (Expr.function span f.name f.params f.body).procedures first

theorem builds (s : Source) : Builds s.compile s.procedures := by
  cases s with
  | script s => exact builds_script s
  | function f span =>
    rw [compile, compileFunction_eq]
    exact builds_function rfl fun slots => builds_block slots 0 f.body

/-- What compiling has added, which is all of the functions if it succeeded. -/
theorem adds (s : Source) (c : Compiling) : ∃ ps,
    (∀ main d, s.compile c = .ok main d → ps = s.procedures c.world.objects.size) ∧
    c.Adds ps (stateOf (s.compile c)) := by
  cases result : s.compile c with
  | ok main d => exact ⟨_, fun _ _ _ => rfl, s.builds.ok result⟩
  | error e d =>
    obtain ⟨ps, adds⟩ := s.builds.adds c
    rw [result] at adds
    refine ⟨ps, fun main d made => ?_, adds⟩
    cases made

end Source

namespace Engine

/-- What compiling makes of a machine. -/
def loaded (s : Source) (m : Engine) : Engine :=
  let c := stateOf (s.compile ⟨m.world, m.dictionary⟩)
  { m with world := c.world, dictionary := c.dictionary }

/-- The states that a machine may come to. Any function can be started, and a run can be left for
another one at any step; sources are compiled between the runs. -/
inductive Becomes (m : Engine) : Engine → Prop
  | refl : Becomes m m
  | loaded {n : Engine} (s : Source) : Becomes m n → n.status ≠ .running → Becomes m (n.loaded s)
  | started {n : Engine} (main : ObjectId) : Becomes m n → Becomes m (stateOf (start main n))
  | stepped {n : Engine} : Becomes m n → Becomes m (stateOf n.step)

/-- What was there is there still. -/
structure Lasts (m n : Engine) : Prop where
  dictionary : m.dictionary.Extends n.dictionary
  shapes : m.world.shapes.toList <+: n.world.shapes.toList
  objects : m.world.objects.size ≤ n.world.objects.size
  code : ∀ id, id.index < m.world.objects.size →
    (n.world.object id).code? = (m.world.object id).code?
  config : n.config = m.config

namespace Lasts
variable {m n k : Engine}

theorem refl (m : Engine) : m.Lasts m :=
  ⟨.refl _, List.prefix_rfl, Nat.le_refl _, fun _ _ => rfl, rfl⟩

theorem trans (h : m.Lasts n) (g : n.Lasts k) : m.Lasts k where
  dictionary := h.dictionary.trans g.dictionary
  shapes := h.shapes.trans g.shapes
  objects := Nat.le_trans h.objects g.objects
  code id inside := (g.code id (Nat.lt_of_lt_of_le inside h.objects)).trans (h.code id inside)
  config := g.config.trans h.config

theorem of_grown (h : m.Grown n) (known : m.world.OnlyBuiltins) : m.Lasts n where
  dictionary := h.dictionary
  shapes := (h.fixed known).shapes ▸ List.prefix_rfl
  objects := Nat.le_of_eq (h.fixed known).size.symm
  code id _ := (h.fixed known).code? id
  config := h.config

theorem of_loaded (m : Engine) (s : Source) : m.Lasts (m.loaded s) := by
  obtain ⟨_, -, adds⟩ := s.adds ⟨m.world, m.dictionary⟩
  exact {
    dictionary := adds.later.dictionary
    shapes := adds.later.shapes
    objects := adds.later.objects_size_le
    code := fun id inside => congrArg HostObject.code? (adds.later.object inside)
    config := rfl }

/-- What fits into memory now has always done so. -/
theorem inMemory (h : m.Lasts n) (memory : n.InMemory) : m.InMemory where
  stack := h.config ▸ memory.stack
  code id code found :=
    have inside := World.lt_of_code found
    memory.code id code ((h.code id inside).trans found)

theorem fits (h : m.Lasts n) (small : n.dictionary.size ≤ 2 ^ 32) :
    m.dictionary.size ≤ 2 ^ 32 := Nat.le_trans h.dictionary.size_le small

end Lasts

section
variable {m n : Engine}

theorem onlyBuiltins_loaded (known : m.world.OnlyBuiltins) (s : Source) :
    (m.loaded s).world.OnlyBuiltins := by
  obtain ⟨_, -, adds⟩ := s.adds ⟨m.world, m.dictionary⟩
  exact adds.onlyBuiltins known

/-- Functions remain what they were, and new ones are compiled. -/
theorem Becomes.lasts (h : m.Becomes n) (known : m.world.OnlyBuiltins) :
    m.Lasts n ∧ n.world.OnlyBuiltins := by
  induction h with
  | refl => exact ⟨.refl m, known⟩
  | loaded s _ _ ih => exact ⟨ih.1.trans (.of_loaded _ s), onlyBuiltins_loaded ih.2 s⟩
  | @started n main _ ih =>
    have grown := grown_start main n
    exact ⟨ih.1.trans (.of_grown grown ih.2), grown.builtins ih.2⟩
  | @stepped n _ ih =>
    have grown := n.grown_step
    exact ⟨ih.1.trans (.of_grown grown ih.2), grown.builtins ih.2⟩

theorem Becomes.afterSteps (reached : m.Becomes n) (steps : Nat) :
    m.Becomes (afterSteps step steps n) := by
  induction steps with
  | zero => exact reached
  | succ steps ih => exact ih.stepped

end
end Engine
end TaggedScript
