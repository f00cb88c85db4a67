import TaggedScript.Machine.Run
import TaggedScript.Proofs.Compilation.Images
import TaggedScript.Proofs.Semantics.Depth

/-!
The compiler is correct: a compiled script does on the machine what its tree means.
-/
namespace TaggedScript

/-- A machine has the world of a script and its records. -/
structure Engine.Stores (m : Engine) (σ : Memory) : Prop where
  world : m.world = σ.world
  room : m.heap.pointer = roomOf σ.records
  fields : ∀ offset : UInt32, ∀ t, recordAt? σ.records offset.toNat = some t → ∀ x,
    ∃ w, m.heap.getField m.world m.dictionary offset x = .ok w ∧
      decode m.dictionary m.heap w = .ok ((t.get? x).getD .undefined)

theorem Engine.Carries.stores {m : Engine} {I : Image} {σ : Memory} (h : m.Carries I σ)
    (fits : m.dictionary.size ≤ 2 ^ 32) : m.Stores σ where
  world := (h default).world
  room := by
    rw [← (h default).heap.length_eq, Array.length_toList]
    rfl
  fields offset t found x := by
    obtain ⟨w, read, means⟩ := (h default).getField fits found x
    exact ⟨w, read, means.decodes fits⟩

/-- Whether code fits into memory can be computed. -/
theorem World.codeFits_of_all {w : World}
    (h : w.objects.all (fun o => o.code?.all fun code =>
      decide (code.parameterCount ≤ code.slotCount ∧ code.stream.size < 2 ^ 62)) = true) :
    w.CodeFits := by
  intro id code found
  obtain ⟨inside, same⟩ := Array.getElem?_eq_some_iff.mp (getElem?_of_code found)
  have fits := Array.all_eq_true.mp h id.index inside
  rw [same, found] at fits
  exact of_decide_eq_true fits

theorem World.CodeFits.all {w : World} (h : w.CodeFits) :
    w.objects.all (fun o => o.code?.all fun code =>
      decide (code.parameterCount ≤ code.slotCount ∧ code.stream.size < 2 ^ 62)) = true := by
  rw [Array.all_eq_true]
  intro i inside
  have object : w.object ⟨i⟩ = w.objects[i] := by
    simp [World.object, Array.getD_eq_getD_getElem?, Array.getElem?_eq_getElem inside]
  cases found : w.objects[i].code? with
  | none => rfl
  | some code => exact decide_eq_true (h ⟨i⟩ code (object ▸ found))

instance (w : World) : Decidable w.CodeFits :=
  decidable_of_iff _ ⟨World.codeFits_of_all, World.CodeFits.all⟩

instance (m : Engine) : Decidable m.InMemory :=
  decidable_of_iff (m.config.stackCapacity ≤ 2 ^ 62 ∧ m.world.CodeFits)
    ⟨fun ⟨stack, code⟩ => ⟨stack, code⟩, fun h => ⟨h.stack, h.code⟩⟩

/-- A run has ended with what was meant, and the machine stores what is left behind. -/
inductive Engine.Attains :
    EStateM.Result Stop Memory Value → EStateM.Result RunError Engine Value → Prop
  | value {v : Value} {τ : Memory} {m : Engine} : m.Stores τ → Attains (.ok v τ) (.ok v m)
  | failure {e : Failure} {τ : Memory} {m : Engine} : m.Stores τ →
      Attains (.error (.failed e) τ) (.error (.failure e) m)
  | heapExhausted {requested available : Nat} {trace : List String} {τ : Memory} {m : Engine} :
      m.Stores τ → Attains (.error (.noRoom requested available) τ)
        (.error (.fatal (.heapExhausted requested available) trace) m)

namespace Script

/-- A run of a script ends as the script means, with what the script leaves behind, unless the stack
of `capacity` words overflows. Then no depth to which the script may call has frames that are sure to
fit. -/
def Realized (s : Script) (first : Nat) (σ : Memory) (capacity : Nat)
    (q : EStateM.Result RunError Engine Value) : Prop :=
  (∃ r, s.Means first σ r ∧ Engine.Attains r q) ∨
    (∃ words trace m, q = .error (.fatal (.stackOverflow words) trace) m) ∧
      ∀ depth, (∀ τ, s.meaning first depth σ ≠ .error .tooDeep τ) →
        capacity < depth * Engine.frameRoom σ.world

/-- If the frames of all calls fit on the stack then the run ends as the script means. -/
theorem Realized.attains {s : Script} {first : Nat} {σ : Memory} {capacity depth : Nat}
    {q : EStateM.Result RunError Engine Value} (h : s.Realized first σ capacity q)
    (shallow : ∀ τ, s.meaning first depth σ ≠ .error .tooDeep τ)
    (room : depth * Engine.frameRoom σ.world ≤ capacity) :
    Engine.Attains (s.meaning first depth σ) q := by
  obtain ⟨r, means, attains⟩ | ⟨-, lacks⟩ := h
  · rw [means_unique ⟨shallow, depth, rfl⟩ means]
    exact attains
  · exact absurd (lacks depth shallow) (Nat.not_lt.mpr room)

/-- The function that a script is itself comes after those in it. -/
theorem program_main {s : Script} {c d : Compiling} {main : ObjectId}
    (compiled : compileScript s c = .ok main d) :
    s.program c.world.objects.size main = some (s.procedure c.world.objects.size) := by
  rw [compileScript_eq] at compiled
  obtain ⟨code, e, block, made⟩ := ok_of_bind compiled
  have size := Compile.block_size block
  have place : main = ⟨e.world.objects.size⟩ := by
    injection made with same
    exact same.symm
  rw [place, program, Program.placed, procedures, size, if_neg (by simp), Nat.add_sub_cancel_left,
    ← Expr.length_proceduresAll s.body c.world.objects.size, List.getElem?_concat_length]

/-- A script that a machine has compiled is run as it means. -/
theorem realized_of_carries {s : Script} {first : Nat} {I : Image} {σ : Memory} {m : Engine}
    {main : ObjectId} (program : I.program = s.program first) (world : I.compiled.world = σ.world)
    (carries : m.Carries I σ) (known : s.program first main = some (s.procedure first))
    (memory : m.InMemory) (fits : (stateOf (Engine.run main m)).dictionary.size ≤ 2 ^ 32) :
    s.Realized first σ m.config.stackCapacity (Engine.run main m) := by
  have realizes := Engine.run_realizes memory carries (program ▸ known) fits
  rw [program] at realizes
  match result : Engine.run main m with
  | .ok v m' =>
    rw [result] at realizes fits
    obtain ⟨τ, means, left⟩ := realizes
    exact .inl ⟨_, ⟨by simp, _, means⟩, .value (left.stores fits)⟩
  | .error (.failure e) m' =>
    rw [result] at realizes fits
    obtain ⟨τ, means, left⟩ := realizes
    exact .inl ⟨_, ⟨by simp, _, means⟩, .failure (left.stores fits)⟩
  | .error (.fatal (.heapExhausted requested available) trace) m' =>
    rw [result] at realizes fits
    obtain ⟨τ, means, left⟩ := realizes
    exact .inl ⟨_, ⟨by simp, _, means⟩, .heapExhausted (left.stores fits)⟩
  | .error (.fatal (.stackOverflow capacity) trace) m' =>
    rw [result] at realizes
    exact .inr ⟨⟨capacity, trace, m', rfl⟩, world ▸ realizes.1⟩
  | .error (.fatal (.invalidWord e) trace) m' | .error (.fatal (.unknownOpcode opcode pc) trace) m'
  | .error (.fatal (.corruptOperand kind) trace) m' | .error .endless m' =>
    rw [result] at realizes
    cases realizes

theorem realized_of_builtin {s : Script} {w : World} {config : EngineConfig} {c : Compiling}
    {main : ObjectId} (bare : w.Builtin) (compiled : compileScript s ⟨w, .empty⟩ = .ok main c)
    (memory : (Engine.make config c.world c.dictionary).InMemory)
    (fits : (stateOf (Engine.run main (.make config c.world c.dictionary))).dictionary.size ≤
      2 ^ 32) :
    s.Realized w.objects.size ⟨[], c.world, [], config.heapCapacity⟩ config.stackCapacity
      (Engine.run main (.make config c.world c.dictionary)) := by
  have adds : Compiling.Adds ⟨w, .empty⟩ (s.procedures w.objects.size) c :=
    (builds_script s).ok compiled
  have before : c.dictionary.size ≤ 2 ^ 32 :=
    Nat.le_trans (Engine.grown_run main (.make config c.world c.dictionary)).size_le fits
  have carries := Engine.carries_builtin adds rfl before bare config
  exact realized_of_carries rfl rfl carries (program_main compiled) memory fits

theorem execute_eq {s : Script} {w : World} {c : Compiling} {main : ObjectId}
    (compiled : compileScript s ⟨w, .empty⟩ = .ok main c) (config : EngineConfig) :
    s.execute config w =
      match Engine.run main (.make config c.world c.dictionary) with
      | .ok v m => .ok v m.world
      | .error e m => .error (.run e) m.world := by
  rcases result : Engine.run main (.make config c.world c.dictionary) with ⟨v, m⟩ | ⟨e, m⟩ <;>
    simp only [execute, compiled, result]

/-- A script that was compiled in the initial world runs as it means, and what is left of the run is
what the script leaves behind. A stack with room for the frames of all its calls does not overflow. -/
theorem run_realized {s : Script} {closed : Bool} {config : EngineConfig} {c : Compiling}
    {main : ObjectId} (compiled : compileScript s ⟨.initial closed, .empty⟩ = .ok main c)
    (memory : (Engine.make config c.world c.dictionary).InMemory)
    (fits : (stateOf (Engine.run main (.make config c.world c.dictionary))).dictionary.size ≤
      2 ^ 32) :
    let first := (World.initial closed).objects.size
    let σ : Memory := ⟨[], c.world, [], config.heapCapacity⟩
    let q := Engine.run main (.make config c.world c.dictionary)
    s.Realized first σ config.stackCapacity q ∧
      (∀ depth, (∀ τ, s.meaning first depth σ ≠ .error .tooDeep τ) →
        depth * Engine.frameRoom c.world ≤ config.stackCapacity →
        Engine.Attains (s.meaning first depth σ) q) ∧
      s.execute config (.initial closed) =
        match q with
        | .ok v m => .ok v m.world
        | .error e m => .error (.run e) m.world := by
  intro first σ q
  have realized : s.Realized first σ config.stackCapacity q :=
    realized_of_builtin (World.builtin_initial closed) compiled memory fits
  exact ⟨realized, fun depth shallow room => realized.attains shallow room, execute_eq compiled config⟩

/-- A script that reads a field of what a function returns. -/
def fieldOfCall : Script where
  body :=
    let make := .function .none none ["x"] [.ret .none (.object .none [("a", .var .none "x")])]
    [.ret .none (.field .none (.call .none make [.literal .none (.int 5)]) "a")]
  source := none

theorem run_realized_fieldOfCall :
    let c := stateOf (compileScript fieldOfCall ⟨.initial false, .empty⟩)
    ∃ τ m, fieldOfCall.meaning (World.initial false).objects.size 2 ⟨[], c.world, [], 8⟩ =
        .ok (.int 5) τ ∧
      Engine.run ⟨13⟩ (.make ⟨40, 8⟩ c.world c.dictionary) = .ok (.int 5) m ∧ m.Stores τ ∧
      fieldOfCall.execute ⟨40, 8⟩ (.initial false) = .ok (.int 5) m.world := by
  intro c
  have memory : (Engine.make ⟨40, 8⟩ c.world c.dictionary).InMemory :=
    ⟨by decide, World.codeFits_of_all (by decide +kernel)⟩
  have five : outcome (fieldOfCall.meaning (World.initial false).objects.size 2
      ⟨[], c.world, [], 8⟩) = .ok (.int 5) := by decide +kernel
  have compiled : compileScript fieldOfCall ⟨.initial false, .empty⟩ = .ok ⟨13⟩ c := rfl
  obtain ⟨-, attains, executes⟩ := run_realized compiled memory (by decide +kernel)
  have ends := attains 2
  generalize fieldOfCall.meaning _ 2 _ = r at five ends ⊢
  cases r with
  | error stop τ => cases five
  | ok v τ =>
    cases five
    have ends := ends (by simp) (by decide +kernel)
    generalize Engine.run _ _ = q at ends executes ⊢
    cases ends with
    | value stores => exact ⟨_, _, rfl, rfl, stores, executes⟩

end Script
end TaggedScript
