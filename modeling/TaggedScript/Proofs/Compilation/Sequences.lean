import TaggedScript.Proofs.Compilation.Safety

/-!
Scripts that are run one after the other in one world, each on a machine of its own. A reference
is good for the heap only that it points into, and code for the dictionary that its operands are
indices of. A script that meets neither under the names that it uses runs as it means.
-/
namespace TaggedScript

namespace World

/-- All machines understand the value: it is no reference and no function with code. -/
def Portable (w : World) (v : Value) : Prop :=
  (∀ offset, v ≠ .ref offset) ∧ ∀ id, v = .object id → (w.object id).code? = none

/-- What the names of a dictionary lead to is portable, be they names of globals or of fields. The
fields of functions with code do not count, because nothing leads to these. -/
structure Presents (w : World) (d : Dictionary) : Prop where
  globals : ∀ x, .str x ∈ d.entries → w.Portable (w.global x)
  fields : ∀ id x, (w.object id).code? = none → .str x ∈ d.entries → w.Portable (w.field id x)

end World

section
variable {c₀ c : Compiling} {ps : List Procedure} (adds : c₀.Adds ps c)
  (fresh : c₀.dictionary.entries = #[]) (fits : c.dictionary.size ≤ 2 ^ 32)

include adds in
theorem Compiling.Adds.onlyBuiltins (before : c₀.world.OnlyBuiltins) :
    c.world.OnlyBuiltins := by
  intro id n native
  obtain ⟨-, old⟩ | ⟨p, -, compiled⟩ := adds.object id
  · rw [old] at native
    exact before id n native
  · obtain ⟨-, _, _, _, -, -, -, object⟩ := compiled
    rw [object] at native
    cases native

/-- What was compiled in a world with functions of other machines, of which it uses none. -/
def Image.amongOthers : Image :=
  .ofAdded adds fresh fits (fun v => ∀ id, v = .object id → (c₀.world.object id).code? = none)
    fun id codeless => codeless id rfl

theorem World.Presents.lends (presents : c₀.world.Presents c.dictionary)
    (builtins : c₀.world.OnlyBuiltins) : c₀.world.Lends (.amongOthers adds fresh fits) where
  natives id n native := by
    obtain rfl | ⟨op, rfl⟩ := builtins id n native <;> trivial
  globals x reads :=
    have ⟨noReference, codeless⟩ := presents.globals x reads
    ⟨.inr (.inr codeless), noReference⟩
  fields id x allowed reads := by
    have codeless : (c₀.world.object id).code? = none := by
      obtain plain | entry | offered := allowed
      · cases plain
      · rw [adds.object_of_named fresh entry]
        rfl
      · exact offered id rfl
    obtain ⟨noReference, portable⟩ := presents.fields id x codeless reads
    exact ⟨.inr (.inr portable), noReference⟩

end

namespace Script

/-- A run brings no functions into the world but those of the script. -/
theorem onlyBuiltins_execute {w : World} (builtins : w.OnlyBuiltins) (s : Script)
    (config : EngineConfig) : (stateOf (s.execute config w)).OnlyBuiltins := by
  have built := builds_script s ⟨w, .empty⟩
  cases compiled : compileScript s ⟨w, .empty⟩ with
  | error e c =>
    rw [compiled] at built
    obtain ⟨ps, adds⟩ := built
    simp only [execute, compiled]
    exact adds.onlyBuiltins builtins
  | ok main c =>
    rw [compiled] at built
    have before : c.world.OnlyBuiltins := Compiling.Adds.onlyBuiltins built builtins
    have after := (Engine.grown_run main (.make config c.world c.dictionary)).builtins before
    rw [execute_eq compiled]
    rcases result : Engine.run main (.make config c.world c.dictionary) with ⟨v, m⟩ | ⟨e, m⟩ <;>
      rwa [result] at after

/-- The world after scripts were run one after the other, each with a dictionary and a machine of
its own, however the runs ended. -/
def executeAll : List (Script × EngineConfig) → World → World
  | [], w => w
  | (s, config) :: runs, w => executeAll runs (stateOf (s.execute config w))

theorem onlyBuiltins_executeAll {w : World} (builtins : w.OnlyBuiltins)
    (runs : List (Script × EngineConfig)) : (executeAll runs w).OnlyBuiltins := by
  induction runs generalizing w with
  | nil => exact builtins
  | cons run runs ih => exact ih (onlyBuiltins_execute builtins run.1 run.2)

/-- A script that finds no references and no functions of earlier runs under the names that it uses
ends soundly, and as it means, whatever those runs have come to. -/
theorem execute_after {runs : List (Script × EngineConfig)} {closed : Bool} {s : Script}
    {config : EngineConfig} {c : Compiling} {main : ObjectId}
    (compiled : compileScript s ⟨executeAll runs (.initial closed), .empty⟩ = .ok main c)
    (presents : (executeAll runs (.initial closed)).Presents c.dictionary)
    (memory : (Engine.make config c.world c.dictionary).InMemory)
    (fits : (stateOf (Engine.run main (.make config c.world c.dictionary))).dictionary.size ≤
      2 ^ 32) :
    let r := Engine.run main (.make config c.world c.dictionary)
    Engine.EndsSoundly r ∧
      s.Realized (executeAll runs (.initial closed)).objects.size
        ⟨[], c.world, [], config.heapCapacity⟩ config.stackCapacity r ∧
      s.execute config (executeAll runs (.initial closed)) =
        match r with
        | .ok v m => .ok v m.world
        | .error e m => .error (.run e) m.world := by
  intro r
  have builtins := onlyBuiltins_executeAll (World.builtin_initial closed).onlyBuiltins runs
  generalize executeAll runs (.initial closed) = w at *
  have adds : Compiling.Adds ⟨w, .empty⟩ (s.procedures w.objects.size) c :=
    (builds_script s).ok compiled
  have before : c.dictionary.size ≤ 2 ^ 32 :=
    Nat.le_trans (Engine.grown_run main (.make config c.world c.dictionary)).size_le fits
  have lends := (presents.lends adds rfl before builtins).later
  have carries := Engine.carries_make (I := .amongOthers adds rfl before) lends (adds.interned rfl)
    config
  have realized := realized_of_carries rfl rfl carries (program_main compiled) memory fits
  exact ⟨realized.soundly, realized, execute_eq compiled config⟩

/-- A script that leaves a record and a number in globals. -/
def leavesRecord : Script where
  body := [.assign .none "x" false (.object .none [("a", .literal .none (.int 1))]),
    .assign .none "y" false (.literal .none (.int 5))]
  source := none

/-- A script that reads the global with the number. -/
def readsNumber : Script where
  body := [.ret .none (.var .none "y")]
  source := none

theorem execute_readsNumber :
    let before := executeAll [(leavesRecord, ⟨32, 8⟩)] (.initial false)
    let c := stateOf (compileScript readsNumber ⟨before, .empty⟩)
    let r := Engine.run ⟨before.objects.size⟩ (.make ⟨32, 8⟩ c.world c.dictionary)
    before.Presents c.dictionary ∧ Engine.EndsSoundly r ∧ outcome r = .ok (.int 5) := by
  intro before c r
  have compiled (w : World) : compileScript readsNumber ⟨w, .empty⟩ =
      .ok ⟨w.objects.size⟩ (stateOf (compileScript readsNumber ⟨w, .empty⟩)) := rfl
  have entries : c.dictionary.entries = #[.str "y"] := by decide +kernel
  have names {x : String} (mem : .str x ∈ c.dictionary.entries) : x = "y" := by
    rw [entries] at mem
    simpa using mem
  have number : before.global "y" = .int 5 := by decide +kernel
  have bare : before.objects.all (fun o => o.fields.get? "y" = none) = true := by decide +kernel
  have presents : before.Presents c.dictionary := {
    globals := by
      intro x mem
      rw [names mem, number]
      exact ⟨by simp, by simp⟩
    fields := by
      intro id x _ mem
      rw [names mem, World.field_of_all bare]
      exact ⟨by simp, by simp⟩ }
  have memory : (Engine.make ⟨32, 8⟩ c.world c.dictionary).InMemory :=
    ⟨by decide, World.codeFits_of_all (by decide +kernel)⟩
  obtain ⟨sound, -, -⟩ := execute_after (compiled before) presents memory (by decide +kernel)
  exact ⟨presents, sound, by decide +kernel⟩

/-- A script that reads a field of the record. -/
def readsRecord : Script where
  body := [.ret .none (.field .none (.var .none "x") "a")]
  source := none

/-- The names matter: the reference that one script leaves is an invalid word to the machine of the
next. -/
theorem execute_readsRecord :
    ∃ w, readsRecord.execute ⟨32, 8⟩ (executeAll [(leavesRecord, ⟨32, 8⟩)] (.initial false)) =
      .error (.run (.fatal (.invalidWord ⟨.heap 0⟩) ["main"])) w := by
  let before := executeAll [(leavesRecord, ⟨32, 8⟩)] (.initial false)
  let c (w : World) := stateOf (compileScript readsRecord ⟨w, .empty⟩)
  have compiled (w : World) :
      compileScript readsRecord ⟨w, .empty⟩ = .ok ⟨w.objects.size⟩ (c w) := rfl
  have ended : outcome (Engine.run ⟨before.objects.size⟩
      (.make ⟨32, 8⟩ (c before).world (c before).dictionary)) =
        .error (.fatal (.invalidWord ⟨.heap 0⟩) ["main"]) := by
    decide +kernel
  rw [execute_eq (compiled _)]
  generalize Engine.run _ _ = r at ended
  rcases r with ⟨v, m⟩ | ⟨e, m⟩ <;> cases ended
  exact ⟨_, rfl⟩

end Script
end TaggedScript
