import TaggedScript.Proofs.Agreement.Beginning
import TaggedScript.Proofs.Agreement.Calls
import TaggedScript.Proofs.Agreement.Compiles
import TaggedScript.Proofs.Compilation.Termination

/-!
The two evaluators agree. What the tree evaluator does with a flat script is what the script means,
and that is what the stack machine does.
-/
namespace TaggedScript

open TaggedScript.Expr

/-- A value of one world is to a script what another value is in another world. What is no object is
the same value. -/
structure SameResult (w : World) (v : Value) (w' : World) (v' : Value) : Prop where
  type : w'.typeOf v' = w.typeOf v
  value : (∀ id, v ≠ .object id) → v' = v
  text : w.isPlain v = false → w'.text v' = w.text v

theorem Same.result {program : Program} {made : Nat} {pairs : List Value} {w : World} {σ : Memory}
    {v v' : Value} (same : Same pairs v v') (h : SameObjects program made pairs w σ) :
    SameResult w v σ.world v' where
  type := (same.typeOf_eq h).symm
  value none := by
    cases same with
    | object => exact absurd rfl (none _)
    | undefined | bool | int | str => rfl
  text shown := (same.text_eq h shown).symm

namespace Script

/-- What a script comes to under watch is what it means, some ends aside. -/
inductive Alike : EStateM.Result Halt World Value → EStateM.Result Stop Memory Value → Prop
  | excused {halt : Halt} {w : World} {t : EStateM.Result Stop Memory Value} : Excused halt →
      Alike (.error halt w) t
  | noRoom {r : EStateM.Result Halt World Value} {requested available : Nat} {τ : Memory} :
      Alike r (.error (.noRoom requested available) τ)
  | ok {v v' : Value} {w : World} {τ : Memory} : w.output = τ.world.output →
      SameResult w v τ.world v' → Alike (.ok v w) (.ok v' τ)
  | failed {e : Failure} {w : World} {τ : Memory} : w.output = τ.world.output →
      Alike (.error (.failed e) w) (.error (.failed e) τ)

/-- Two runs have the same output and the same result, or the same failure. -/
inductive RunsAgree : EStateM.Result ScriptError World Value →
    EStateM.Result ScriptError World Value → Prop
  | ok {v v' : Value} {w w' : World} : w'.output = w.output → SameResult w v w' v' →
      RunsAgree (.ok v w) (.ok v' w')
  | failed {e : Failure} {w w' : World} : w'.output = w.output →
      RunsAgree (.error (.run (.failure e)) w) (.error (.run (.failure e)) w')

/-- A script ends as its statements do. -/
theorem Alike.of_block {program : Program} {p : Place} {pairs : List Value} {w : World}
    {slots : List Value} {r : EStateM.Result Halt World Unit}
    {t : EStateM.Result Stop Memory Unit} :
    EndsAlike program p anyValues pairs w r t →
    Alike
      (match r with
        | .ok () v => .ok .undefined v
        | .error (.returned a) v => .ok a v
        | .error halt v => .error halt v)
      (match t with
        | .ok () τ => .ok .undefined { τ with slots }
        | .error (.returned a) τ => .ok a { τ with slots }
        | .error stop τ => .error stop { τ with slots }) := by
  intro body
  cases body with
  | excused known =>
    cases known with
    | exposed => exact .excused .exposed
    | declared x => exact .excused (.declared x)
    | tooMany f => exact .excused (.tooMany f)
  | noRoom => exact .noRoom
  | ok _ here _ _ =>
    have result := Same.undefined.result here.agree.objects
    exact .ok here.agree.output result
  | returned _ agree _ same =>
    have result := same.result agree.objects
    exact .ok agree.output result
  | failed output => exact .failed output

section
variable {s : Script} {w : World} {c : Compiling} {main : ObjectId}
  (readable : AllReadable s.body) (flat : s.Flat) (untouched : w.Untouched)
  (compiled : compileScript s ⟨w, .empty⟩ = .ok main c)
include readable flat untouched compiled

/-- A flat script comes to what it means if the meaning allows enough calls inside each other. -/
theorem watch_alike {limit : Nat} (capacity : Nat)
    (enough : callLimit { w with activeCalls := w.activeCalls.push 0 } ≤ limit) :
    Alike (s.watch w) (s.meaning w.objects.size (limit + 1) ⟨[], c.world, [], capacity⟩) := by
  have adds : Compiling.Adds ⟨w, .empty⟩ (s.procedures w.objects.size) c :=
    (builds_script s).ok compiled
  have here := here_untouched untouched adds (w.activeCalls.push 0) capacity
  have calls := callsTogether (s.program w.objects.size) enough
  have takes := takes_script readable flat w.objects.size
  have body := ((together_inductive ⟨w.activeCalls.size⟩ calls).list s.body (.top w.objects.size) 0
    w.objects.size takes w.itself).2 _ (List.prefix_refl _) _ _ here
  exact Alike.of_block body

end

/-- What is not too deep is the same with more calls inside each other. -/
theorem meaning_of_le {s : Script} {first depth more : Nat} {σ : Memory}
    {r : EStateM.Result Stop Memory Value} (le : depth ≤ more)
    (means : s.meaning first depth σ = r) (shallow : ∀ τ, r ≠ .error .tooDeep τ) :
    s.meaning first more σ = r := by
  obtain ⟨τ, deep⟩ | same := refines_callWithin le (s.procedure first) .undefined
    [] σ
  · exact absurd (means.symm.trans deep) (shallow τ)
  · exact same.symm.trans means

/-- A run of the tree evaluator shows no plain object for what it is, declares no variable once more
and never has too many calls inside each other. -/
structure RunsPlainly (s : Script) (config : EngineConfig) (w : World) : Prop where
  discreet : s.Discreet w
  single : ∀ x v, s.run .tree config w ≠ .error (.run (.failure (.alreadyDefined x))) v
  shallow : ∀ f v, s.run .tree config w ≠ .error (.run (.failure (.tooManyCalls f))) v

theorem run_tree_eq (s : Script) (config : EngineConfig) (w : World) :
    s.run .tree config w = match s.evaluate w with
      | .ok v w => .ok v w
      | .error e w => .error (.run (.failure e)) w := rfl

section
variable {s : Script} {w w' : World} {v : Value} (watched : s.watch w = .ok v w')
  (config : EngineConfig)
include watched

theorem run_tree_of_watch : s.run .tree config w = .ok v w' := by
  have mirrors := s.mirrors_watch w
  rw [watched] at mirrors
  rw [run_tree_eq, mirrors]

theorem runsPlainly_of_watch : s.RunsPlainly config w where
  discreet u shown := by cases watched.symm.trans shown
  single x u failed := by cases (run_tree_of_watch watched config).symm.trans failed
  shallow f u failed := by cases (run_tree_of_watch watched config).symm.trans failed

end

namespace RunsPlainly
variable {s : Script} {w : World} {config : EngineConfig} (runs : s.RunsPlainly config w)
include runs

theorem not_excused {halt : Halt} {v : World} (h : s.watch w = .error halt v) : ¬ Excused halt := by
  intro known
  have mirrors := s.mirrors_watch w
  rw [h] at mirrors
  cases known with
  | exposed => exact runs.discreet v h
  | declared x =>
    apply runs.single x v
    rw [run_tree_eq, mirrors]
  | tooMany f =>
    apply runs.shallow f v
    rw [run_tree_eq, mirrors]

theorem agree_ok {τ : Memory} {v : Value} (alike : Alike (s.watch w) (.ok v τ)) :
    RunsAgree (s.run .tree config w) (.ok v τ.world) := by
  have mirrors := s.mirrors_watch w
  have excused := @runs.not_excused
  rw [run_tree_eq]
  generalize s.watch w = r at alike mirrors excused
  cases alike with
  | excused known => exact absurd known (excused rfl)
  | ok output same =>
    simp only at mirrors
    rw [mirrors]
    exact .ok output.symm same

theorem agree_failed {τ : Memory} {e : Failure} (alike : Alike (s.watch w) (.error (.failed e) τ)) :
    RunsAgree (s.run .tree config w) (.error (.run (.failure e)) τ.world) := by
  have mirrors := s.mirrors_watch w
  have excused := @runs.not_excused
  rw [run_tree_eq]
  generalize s.watch w = r at alike mirrors excused
  cases alike with
  | excused known => exact absurd known (excused rfl)
  | failed output =>
    simp only at mirrors
    rw [mirrors]
    exact .failed output.symm

end RunsPlainly

/-- The code of a script is in the memory of the host, and words can name all that it makes. -/
def FitsMemory (s : Script) (config : EngineConfig) (w : World) : Prop :=
  ∀ main c, compileScript s ⟨w, .empty⟩ = .ok main c →
    (Engine.make config c.world c.dictionary).InMemory ∧
      c.dictionary.size + c.world.objects.size ≤ 2 ^ 32

/-- Run on either evaluator, a flat script has the same output and the same result, or the same
failure, if the machine finds room and the tree evaluator meets nothing that the machine has not. -/
theorem runs_agree {source : String} {s : Script} {closed : Bool} {config : EngineConfig}
    (parsed : parseSource source = .ok s) (flat : s.Flat)
    (runs : s.RunsPlainly config (.initial closed)) (fits : s.FitsMemory config (.initial closed))
    (room : ∀ kind trace v,
      s.run .machine config (.initial closed) ≠ .error (.run (.fatal kind trace)) v) :
    RunsAgree (s.run .tree config (.initial closed)) (s.run .machine config (.initial closed)) := by
  have readable := allReadable_of_parseSource parsed
  have untouched := World.untouched_initial closed
  generalize World.initial closed = w at *
  obtain ⟨main, c, compiled⟩ := compileScript_succeeds readable ⟨w, .empty⟩
  obtain ⟨memory, small⟩ := fits main c compiled
  obtain ⟨I, realizes⟩ := realizes_of_builtin untouched.toBuiltin compiled memory small
  generalize enough : max (callLimit { w with activeCalls := w.activeCalls.push 0 })
    config.stackCapacity = limit
  have deep : config.stackCapacity + 1 ≤ limit + 1 := by omega
  have alike := watch_alike readable flat untouched compiled config.heapCapacity
    (Nat.le_trans (Nat.le_max_left _ _) (Nat.le_of_eq enough))
  have machine : s.run .machine config w = _ := execute_eq compiled config
  rw [machine] at room ⊢
  match result : Engine.run main (.make config c.world c.dictionary) with
  | .ok v m =>
    rw [result] at realizes
    obtain ⟨τ, means, left⟩ := realizes
    rw [meaning_of_le deep means (by simp)] at alike
    have world : m.world = τ.world := (left default).world
    have agree := runs.agree_ok alike
    rwa [← world] at agree
  | .error (.failure e) m =>
    rw [result] at realizes
    obtain ⟨τ, means, left⟩ := realizes
    rw [meaning_of_le deep means (by simp)] at alike
    have world : m.world = τ.world := (left default).world
    have agree := runs.agree_failed alike
    rwa [← world] at agree
  | .error (.fatal kind trace) m =>
    rw [result] at room
    exact absurd rfl (room kind trace _)
  | .error .endless m =>
    rw [result] at realizes
    cases realizes

/-- The text of a script in which a record gets what a function makes of its field. -/
def increaseText : String :=
  "function add(n) \x7b var m = n + 1; return m; \x7d " ++
    "var o = new \x7bn: 2\x7d; o.n = add(o.n); print(o.n); return add;"

def increase : Script :=
  match parseSource increaseText with
  | .ok s => s
  | .error _ => ⟨[], none⟩

theorem parse_increase : parseSource increaseText = .ok increase :=
  Script.parse_ofText (by decide +kernel)

theorem fitsMemory_increase : increase.FitsMemory ⟨64, 16⟩ (.initial false) := by
  intro main c compiled
  have same : c = stateOf (compileScript increase ⟨.initial false, .empty⟩) := by
    rw [compiled]
    rfl
  subst same
  exact ⟨⟨by decide, World.codeFits_of_all (by decide +kernel)⟩, by decide +kernel⟩

/-- The script runs to its end under watch. -/
theorem watch_increase :
    ∃ v w, increase.watch (.initial false) = .ok v w ∧ w.output = "3\n" := by
  have ends : (outcome (increase.watch (.initial false))).isOk = true ∧
      (stateOf (increase.watch (.initial false))).output = "3\n" := by decide +kernel
  cases watched : increase.watch (.initial false) with
  | ok v w =>
    rw [watched] at ends
    exact ⟨v, w, rfl, ends.2⟩
  | error halt w =>
    rw [watched] at ends
    cases ends.1

theorem runs_agree_increase :
    let w := World.initial false
    parseSource increaseText = .ok increase ∧ increase.Flat ∧
      increase.RunsPlainly ⟨64, 16⟩ w ∧ increase.FitsMemory ⟨64, 16⟩ w ∧
      (stateOf (increase.run .tree ⟨64, 16⟩ w)).output = "3\n" ∧
      RunsAgree (increase.run .tree ⟨64, 16⟩ w) (increase.run .machine ⟨64, 16⟩ w) := by
  intro w
  obtain ⟨v, u, watched, output⟩ := watch_increase
  have flat : increase.Flat := by decide +kernel
  have plainly := runsPlainly_of_watch watched ⟨64, 16⟩
  have room (kind : FatalKind) (trace : List String) (u : World) :
      increase.run .machine ⟨64, 16⟩ w ≠ .error (.run (.fatal kind trace)) u := by
    have ends : (outcome (increase.run .machine ⟨64, 16⟩ (.initial false))).isOk = true := by
      decide +kernel
    intro fatal
    rw [fatal] at ends
    cases ends
  refine ⟨parse_increase, flat, plainly, fitsMemory_increase, ?_, ?_⟩
  · rw [run_tree_of_watch watched]
    exact output
  · exact runs_agree parse_increase flat plainly fitsMemory_increase room

end Script
end TaggedScript
