import TaggedScript.Proofs.Agreement.Compiles
import TaggedScript.Proofs.Agreement.Reading
import TaggedScript.Proofs.Lockstep.Joining
import TaggedScript.Proofs.Lockstep.Segments

/-!
Two scripts that are run one after the other come to what the script with the statements of both
comes to. The machines are in lockstep through the statements of the first script. Then one of them
leaves its frame and is started again on its heap and its world, while the other just goes on, and
from there they are in lockstep through the statements of the second one.
-/
namespace TaggedScript

/-- The code is in the memory of the host, and words can name all that a run makes. -/
structure Compiling.InMemory (c : Compiling) (config : EngineConfig) : Prop where
  code : (Engine.make config c.world c.dictionary).InMemory
  names : c.dictionary.size + c.world.objects.size ≤ 2 ^ 32

instance (c : Compiling) (config : EngineConfig) : Decidable (c.InMemory config) :=
  decidable_of_iff ((Engine.make config c.world c.dictionary).InMemory ∧
      c.dictionary.size + c.world.objects.size ≤ 2 ^ 32)
    ⟨fun ⟨code, names⟩ => ⟨code, names⟩, fun h => ⟨h.code, h.names⟩⟩

/-- What the machines were left with is the same, but for the numbers of the objects. The globals are
the same values, and the functions and records among these are the same too. -/
structure Lockstep.LeftAlike {R : Renumbering} (L : Lockstep R) (m m' : Engine) : Prop where
  left : m.dictionary = L.left
  right : m'.dictionary = L.right
  output : m.world.output = m'.world.output
  globals : ∀ x, L.Matches (m.world.global x) (m'.world.global x)
  pointer : m.heap.pointer = m'.heap.pointer
  worlds : L.Worlds m.world m'.world
  heaps : L.Heaps m'.world m.heap m'.heap

namespace Engine

/-- The runs have the same result, the same failure, or stop for the same reason with the same
trace, and leave the same behind. -/
inductive EndsAlike (R : Renumbering) : EStateM.Result RunError Engine Value →
    EStateM.Result RunError Engine Value → Prop
  | result {L : Lockstep R} {v u : Value} {m m' : Engine} : L.Matches v u → L.LeftAlike m m' →
      EndsAlike R (.ok v m) (.ok u m')
  | failure {L : Lockstep R} (e : Failure) {m m' : Engine} : L.LeftAlike m m' →
      EndsAlike R (.error (.failure e) m) (.error (.failure e) m')
  | fatal {L : Lockstep R} (kind : FatalKind) (trace : List String) {m m' : Engine} :
      L.LeftAlike m m' → EndsAlike R (.error (.fatal kind trace) m) (.error (.fatal kind trace) m')

theorem EndsSoundly.endsAlike {R : Renumbering} {L : Lockstep R} {e : RunError} {m m' : Engine}
    (h : EndsSoundly (.error e m)) (left : L.LeftAlike m m') :
    EndsAlike R (.error e m) (.error e m') := by
  cases h with
  | failure e => exact .failure e left
  | heapExhausted | stackOverflow => exact .fatal _ _ left

/-- A run that ends soundly and was started has stopped. -/
theorem EndsSoundly.stops {main : ObjectId} {m₀ m : Engine} (h : EndsSoundly (run main m₀))
    (started : start main m₀ = .ok () m) : ∃ n, Stops n m (run main m₀) := by
  obtain ⟨n, -, stops⟩ := stops_of_run started fun m' cut => by
    rw [cut] at h
    cases h
  exact ⟨n, stops⟩

/-- A function was started only if there was room for its frame. -/
theorem room_of_start {main : ObjectId} {code : Code} {m₀ m : Engine}
    (found : (m₀.world.object main).code? = some code) (started : start main m₀ = .ok () m) :
    Frame.operands ⟨1, code.slotCount⟩ ≤ m₀.config.stackCapacity := by
  by_contra full
  obtain ⟨_, failed, -⟩ := start_full found (Nat.lt_of_not_le full)
  cases started.symm.trans failed

end Engine

/-- The left machine begins with another function, which goes on as the right one does. -/
def Outermost.resumed {R : Renumbering} (O : Outermost R) (g : ObjectId) (code : Code) :
    Outermost R :=
  { O with left := g, leftCode := code, here := Going O.compiled code O.rightCode }

theorem Outermost.closed_resumed {R : Renumbering} (O : Outermost R) (g : ObjectId) (code : Code) :
    (O.resumed g code).Closed := fun _ _ going => going.fetches

namespace Lockstep
variable {R : Renumbering} {L : Lockstep R} {O : Outermost R}

/-- A function was started on the left side only. -/
theorem Stores.begun_left {f g : ObjectId} {m n : Engine} {y : FrameMachine}
    (stores : L.Stores (.begin f m) y) (begun : Engine.Begun g m n) :
    let L' : Lockstep R := { L with left := (encode (.object g) L.left).2 }
    L.Grows L' ∧ L'.Stores (.begin g n) y := by
  intro L'
  have grows : L.Grows L' := { Grows.refl L with left := encode_extends _ _ }
  refine ⟨grows, {
    config := begun.config.trans stores.config
    left := begun.dictionary.trans (congrArg (fun d => (encode (.object g) d).2) stores.left)
    right := stores.right
    worlds := ?_
    heaps := ?_ }⟩
  · rw [show (FrameMachine.begin g n).world = m.world from begun.world]
    exact stores.worlds.grow grows rfl rfl
  · rw [show (FrameMachine.begin g n).heap = m.heap from begun.heap]
    exact stores.heaps.grow grows rfl rfl

/-- The left machine starts the function that goes on where the right machine is. -/
theorem Handed.start {g : ObjectId} {code : Code} {pc : Nat} {m m' n : Engine} {y : FrameMachine}
    (handed : L.Handed O pc m y) (same : Implements y m') (memory : m.InMemory)
    (found : (m.world.object g).code? = some code) (slots : code.slotCount = 1)
    (name : (m.world.object g).name = (m.world.object O.left).name)
    (going : Going O.compiled code O.rightCode 0 pc) (started : Engine.start g m = .ok () n) :
    ∃ L' : Lockstep R, L'.Engines (O.resumed g code) n m' := by
  have begun := Engine.begun_of_start found started
  have tracks := Engine.start_frames memory started
  have current := begun.current found
  rw [slots] at current
  have there : (O.resumed g code).In (FrameMachine.begin g n).world y.world := by
    rw [show (FrameMachine.begin g n).world = m.world from begun.world]
    exact ⟨found, handed.outermost.rightCode, name.trans handed.outermost.name⟩
  obtain ⟨grows, stores⟩ := (handed.stores g).begun_left begun
  have together := stores.together (O := O.resumed g code) (handed.since.trans grows)
    handed.objects there ⟨rfl, handed.running⟩ current handed.current ⟨rfl, handed.callers⟩ going
  have running : n.status = .running := tracks.status.symm
  have running' : m'.status = .running := same.1.symm.trans handed.running
  exact ⟨_, ⟨_, _, ⟨tracks.status, .inl tracks⟩, same, .running together⟩, by simp [running],
    by simp [running']⟩

namespace Engines
variable {m m' : Engine}

theorem leftAlike (h : L.Engines O m m') (fits : m.dictionary.size ≤ 2 ^ 32)
    (fits' : m'.dictionary.size ≤ 2 ^ 32) : L.LeftAlike m m' where
  left := h.dictionaries.1
  right := h.dictionaries.2
  output := (h.stores fits fits').1.output
  globals x := by
    obtain ⟨known, moved⟩ := (h.stores fits fits').1.globals x
    exact ⟨known, moved⟩
  pointer := (h.stores fits fits').2.pointer_eq
  worlds := (h.stores fits fits').1
  heaps := (h.stores fits fits').2

/-- Machines at the same point of a run end it alike. -/
theorem ends {r r' : EStateM.Result RunError Engine Value} {j k : Nat} (h : L.Engines O m m')
    (closed : O.Closed) (stops : m.Stops j r) (stops' : m'.Stops k r')
    (small : (stateOf r).dictionary.size ≤ 2 ^ 32) (small' : (stateOf r').dictionary.size ≤ 2 ^ 32)
    (sound : Engine.EndsSoundly r) : Engine.EndsAlike R r r' := by
  induction stops generalizing L m' k with
  | done step =>
    obtain ⟨L', -, after, comes⟩ :=
      h.step closed (by rw [step]; exact small) (stops'.small_step small')
    rw [step] at after comes
    rcases other : m'.step with ⟨s, n'⟩ | ⟨e, n'⟩ <;> rw [other] at after comes <;> cases comes
    rename_i u same
    obtain rfl := stops'.of_done other
    exact .result same (after.leftAlike small small')
  | failed step =>
    obtain ⟨L', -, after, comes⟩ :=
      h.step closed (by rw [step]; exact small) (stops'.small_step small')
    rw [step] at after comes
    rcases other : m'.step with ⟨s, n'⟩ | ⟨e, n'⟩ <;> rw [other] at after comes <;> cases comes
    obtain rfl := stops'.of_error other
    exact sound.endsAlike (after.leftAlike small small')
  | next step rest ih =>
    obtain ⟨L', -, after, comes⟩ :=
      h.step closed ((Engine.Stops.next step rest).small_step small) (stops'.small_step small')
    rw [step] at after comes
    rcases other : m'.step with ⟨s, n'⟩ | ⟨e, n'⟩ <;> rw [other] at after comes <;> cases comes
    obtain ⟨k', rest'⟩ := stops'.of_continue other
    exact ih after rest' small sound

end Engines

/-- The function of a script and that of the script which goes on, up to where the first returns. -/
def leading (L : Lockstep R) (f main : ObjectId) (first rest : List Instr) : Outermost R where
  compiled := L
  left := f
  right := main
  leftCode := .ofInstrs 1 1 (first ++ [.const .undefined] ++ [.ret])
  rightCode := .ofInstrs 1 1 (first ++ rest ++ [.ret])
  here := Abreast 0 0 first

theorem leading_begins {f main : ObjectId} {first rest : List Instr}
    (alike : Alikes L 0 0 first first) : (L.leading f main first rest).Begins first where
  left := Code.hasAt_ofInstrs 1 1 _
  right := (Code.hasAt_ofInstrs 1 1 (first ++ rest ++ [Instr.ret])).left.left
  alike := alike
  here := rfl

namespace Joined
variable {f g main : ObjectId} {s : Script} {c₀ c c' : Compiling} {first second second' : List Instr}
  {L : Lockstep (.shift f.index 1 0)}
  (joined : L.Joined s c₀ c c' f g main first second second')
include joined

theorem leading_in : (L.leading f main first second').In c.world c'.world where
  leftCode := by
    rw [show (L.leading f main first second').left = f from rfl, joined.firstCode]
    rfl
  rightCode := by
    rw [show (L.leading f main first second').right = main from rfl, joined.wholeCode]
    rfl
  name := by
    change (c.world.object f).name = (c'.world.object main).name
    rw [joined.firstCode, joined.wholeCode]
    rfl

/-- The second function goes on where the first one ended. -/
theorem going : Going L (.ofInstrs 1 1 (second ++ [.ret]))
    (.ofInstrs 1 1 (first ++ second' ++ [.ret])) 0 (codeWidth first) := by
  have whole := Code.hasAt_ofInstrs 1 1 (first ++ (second' ++ [.ret]))
  have rest := whole.right
  rw [Nat.zero_add, ← List.append_assoc] at rest
  exact ⟨0, codeWidth first, second, second', Code.hasAt_ofInstrs 1 1 _, rest, joined.secondAlike,
    .first⟩

/-- The machines of both come to where the first script has a result. -/
theorem handed {config : EngineConfig} {I : Image} {v : Value} {m₁ : Engine} (image : I.compiled = c)
    (ready : (Engine.make config c.world c.dictionary).Ready I config)
    (readable : Expr.AllReadable s.body) (straight : Expr.returnsAll s.body = false)
    (memory : (Engine.make config c.world c.dictionary).InMemory)
    (memory' : (Engine.make config c'.world c'.dictionary).InMemory)
    (ran : Engine.run f (.make config c.world c.dictionary) = .ok v m₁)
    (small : m₁.dictionary.size ≤ 2 ^ 32)
    (sound' : Engine.EndsSoundly (Engine.run main (.make config c'.world c'.dictionary)))
    (small' : (stateOf (Engine.run main (.make config c'.world c'.dictionary))).dictionary.size ≤
      2 ^ 32) :
    ∃ (L' : Lockstep (.shift f.index 1 0)) (y : FrameMachine) (m' : Engine) (k : Nat),
      L'.Handed (L.leading f main first second') (codeWidth first) m₁ y ∧ Implements y m' ∧
      m'.Stops k (Engine.run main (.make config c'.world c'.dictionary)) := by
  let O := L.leading f main first second'
  have stores : L.Stores (.begin O.left (.make config c.world c.dictionary))
      (.begin O.right (.make config c'.world c'.dictionary)) :=
    ⟨rfl, joined.left, joined.right, joined.worlds, heaps_empty joined.records _ _⟩
  obtain ⟨_, n, started, -⟩ := ok_of_bind ran
  obtain ⟨n₁, n', first, started', -⟩ | ⟨e, n₁, -, failed, -⟩ :=
    stores.start (.refl L) rfl joined.leading_in rfl .first memory memory'
  · cases started.symm.trans first
    obtain ⟨d, block, later⟩ := joined.begins
    obtain ⟨σ, carries⟩ := ready.carries
    obtain ⟨steps, leads⟩ := carries.leads_over memory started joined.leading_in.leftCode block
      (image ▸ later) readable straight
    have sound : Engine.EndsSoundly (Engine.run f (.make config c.world c.dictionary)) := by
      rw [ran]
      exact .result v m₁
    obtain ⟨j, stops⟩ := sound.stops started
    obtain ⟨j', stops'⟩ := sound'.stops started'
    rw [ran] at stops
    rw [← show m₁.config = n.config from stops.grown.config] at leads
    obtain ⟨same, same', together⟩ := stores.begins (.refl L) rfl joined.leading_in rfl .first
      memory memory' started started'
    exact (leading_begins joined.firstAlike).runs leads small small' together same same' stops stops'
  · cases started.symm.trans failed

/-- After the first script there is room for the second one. -/
theorem starts_next {config : EngineConfig} {I : Image} {v : Value} {m : Engine}
    (image : I.compiled = c) (ready : m.Ready I config)
    (ran : Engine.run f (.make config c.world c.dictionary) = .ok v m) :
    ∃ n, (m.world.object g).code? = some (.ofInstrs 1 1 (second ++ [.ret])) ∧
      (m.world.object g).name = (m.world.object f).name ∧ Engine.start g m = .ok () n := by
  obtain ⟨σ, carries⟩ := ready.carries
  have hosts := (carries default).hosts
  rw [← carries.world] at hosts
  have found : (m.world.object g).code? = some (.ofInstrs 1 1 (second ++ [.ret])) := by
    rw [hosts.code, image, joined.secondCode]
    rfl
  have name : (m.world.object g).name = (m.world.object f).name := by
    rw [hosts.names, hosts.names, image, joined.firstCode, joined.secondCode]
    rfl
  obtain ⟨_, n₀, before, -⟩ := ok_of_bind ran
  have room := Engine.room_of_start joined.leading_in.leftCode before
  obtain ⟨n, started, -⟩ := Engine.start_room found (ready.config ▸ room)
  exact ⟨n, found, name, started⟩

end Joined
end Lockstep

section
variable {s t : Script} {closed : Bool} {c₁ c c' : Compiling} {f g main : ObjectId}
  {config : EngineConfig}

/-- A script that is run on the machine on which another one has ended comes to what the script with
the statements of both comes to. -/
theorem endsAlike_followedBy (compiled : compileScript s ⟨.initial closed, .empty⟩ = .ok f c₁)
    (next : compileScript t c₁ = .ok g c)
    (together : compileScript (s.followedBy t) ⟨.initial closed, .empty⟩ = .ok main c')
    (readable : Expr.AllReadable s.body) (straight : Expr.returnsAll s.body = false)
    (memory : c.InMemory config) (memory' : c'.InMemory config) {v : Value} {m : Engine}
    (ran : Engine.run f (.make config c.world c.dictionary) = .ok v m) :
    Engine.EndsAlike (.shift f.index 1 0) (Engine.run g m)
      (Engine.run main (.make config c'.world c'.dictionary)) := by
  obtain ⟨L, first, second, second', joined⟩ := Lockstep.joined compiled next together
  have both : compileScripts [s, t] ⟨.initial closed, .empty⟩ = ([f, g], c) := by
    simp [compileScripts, compiled, next]
  have whole : compileScripts [s.followedBy t] ⟨.initial closed, .empty⟩ = ([main], c') := by
    simp [compileScripts, together]
  obtain ⟨I, image, ready, known, bounded⟩ := Engine.ready_make both memory.names config
  obtain ⟨I', image', ready', known', bounded'⟩ := Engine.ready_make whole memory'.names config
  have code : I.compiled.world.CodeFits := image ▸ memory.code.code
  have code' : I'.compiled.world.CodeFits := image' ▸ memory'.code.code
  have stack : config.stackCapacity ≤ 2 ^ 62 := memory.code.stack
  obtain ⟨-, readyNext, small⟩ := ready.run_within stack code bounded (known f (by simp))
  rw [ran] at readyNext small
  obtain ⟨soundNext, -, smallNext⟩ := readyNext.run_within stack code bounded (known g (by simp))
  obtain ⟨sound', -, small'⟩ := ready'.run_within stack code' bounded' (known' main (by simp))
  obtain ⟨L₁, y, m', k, handed, same, stops'⟩ := joined.handed image ready readable straight
    memory.code memory'.code ran small sound' small'
  obtain ⟨n, found, name, started⟩ := joined.starts_next image readyNext ran
  obtain ⟨L₂, engines⟩ := handed.start same (readyNext.memory stack code) found rfl name joined.going
    started
  obtain ⟨j, stops⟩ := soundNext.stops started
  exact engines.ends (Outermost.closed_resumed _ _ _) stops stops' smallNext small' soundNext

end

/-- Two scripts that were read from texts can be compiled one after the other, and so can the script
with the statements of both. If the first one has no `return` of its own, and comes to its end, then
the second one comes to the same on its machine as the script with the statements of both on a new
one: the same result, failure or trace, the same output, globals and heap. The functions of the second
script have the next number but one, since the first one is itself an object too. -/
theorem Script.runs_followedBy {source source' : String} {s t : Script} (closed : Bool)
    (parsed : parseSource source = .ok s) (parsed' : parseSource source' = .ok t)
    (straight : Expr.returnsAll s.body = false) :
    ∃ f c₁ g c main c',
      compileScript s ⟨.initial closed, .empty⟩ = .ok f c₁ ∧ compileScript t c₁ = .ok g c ∧
      compileScript (s.followedBy t) ⟨.initial closed, .empty⟩ = .ok main c' ∧
      ∀ config v m, c.InMemory config → c'.InMemory config →
        Engine.run f (.make config c.world c.dictionary) = .ok v m →
        Engine.EndsAlike (.shift f.index 1 0) (Engine.run g m)
          (Engine.run main (.make config c'.world c'.dictionary)) := by
  have readable := allReadable_of_parseSource parsed
  have readable' := allReadable_of_parseSource parsed'
  have whole : Expr.AllReadable (s.followedBy t).body := Expr.allReadable_append readable readable'
  obtain ⟨f, c₁, compiled⟩ := compileScript_succeeds readable ⟨.initial closed, .empty⟩
  obtain ⟨g, c, next⟩ := compileScript_succeeds readable' c₁
  obtain ⟨main, c', together⟩ := compileScript_succeeds whole ⟨.initial closed, .empty⟩
  exact ⟨f, c₁, g, c, main, c', compiled, next, together, fun config v m memory memory' ran =>
    endsAlike_followedBy compiled next together readable straight memory memory' ran⟩

/-- The text of a script with a function and a record. -/
def declaringText : String := "function add(n) \x7b return n + 1; \x7d var o = new \x7bn: 1\x7d;"

/-- The text of a script that uses them. -/
def usingText : String :=
  "function twice(n) \x7b return add(add(n)); \x7d o.n = twice(o.n); print(o.n); return twice;"

/-- The function `twice` has the number 14 after the first script, which has the number 13 itself. In
the script with the statements of both it has the number 13. -/
theorem Script.runs_followedBy_declaring :
    let w := World.initial false
    let s := ofText declaringText
    let t := ofText usingText
    let c₁ := stateOf (compileScript s ⟨w, .empty⟩)
    let c := stateOf (compileScript t c₁)
    let c' := stateOf (compileScript (s.followedBy t) ⟨w, .empty⟩)
    let m := stateOf (Engine.run ⟨13⟩ (.make ⟨64, 16⟩ c.world c.dictionary))
    let r := Engine.run ⟨15⟩ m
    let r' := Engine.run ⟨14⟩ (.make ⟨64, 16⟩ c'.world c'.dictionary)
    outcome r = .ok (.object ⟨14⟩) ∧ outcome r' = .ok (.object ⟨13⟩) ∧
      (stateOf r).world.output = "3\n" ∧ Engine.EndsAlike (.shift 13 1 0) r r' := by
  intro w s t c₁ c c' m r r'
  let m₀ : Engine := .make ⟨64, 16⟩ c.world c.dictionary
  -- One evaluation: each would read the texts again.
  have facts : ((parseSource declaringText).isOk ∧ (parseSource usingText).isOk ∧
        Expr.returnsAll s.body = false) ∧
      (outcome (compileScript s ⟨w, .empty⟩) = .ok ⟨13⟩ ∧
        outcome (compileScript t c₁) = .ok ⟨15⟩ ∧
        outcome (compileScript (s.followedBy t) ⟨w, .empty⟩) = .ok ⟨14⟩) ∧
      c.InMemory ⟨64, 16⟩ ∧ c'.InMemory ⟨64, 16⟩ ∧
      (outcome (Engine.run ⟨13⟩ m₀)).isOk ∧ outcome r = .ok (.object ⟨14⟩) ∧
      outcome r' = .ok (.object ⟨13⟩) ∧ (stateOf r).world.output = "3\n" := by decide +kernel
  obtain ⟨⟨read, read', straight⟩, numbers, memory, memory', ends, result, result', output⟩ := facts
  obtain ⟨f, d₁, g, d, main, d', first, next, whole, runs⟩ :=
    runs_followedBy false (parse_ofText read) (parse_ofText read') straight
  obtain rfl : d₁ = c₁ := (congrArg stateOf first).symm
  have made : d = c := (congrArg stateOf next).symm
  have made' : d' = c' := (congrArg stateOf whole).symm
  rw [show compileScript s _ = _ from first, show compileScript t _ = _ from next,
    show compileScript (s.followedBy t) _ = _ from whole] at numbers
  obtain ⟨⟨⟩, ⟨⟩, ⟨⟩⟩ := numbers
  rcases ran : Engine.run ⟨13⟩ m₀ with ⟨v, n⟩ | ⟨e, n⟩
  · have alike := runs ⟨64, 16⟩ v n (made ▸ memory) (made' ▸ memory') (made ▸ ran)
    have same : m = n := congrArg stateOf ran
    rw [made', ← same] at alike
    exact ⟨result, result', output, alike⟩
  · rw [ran] at ends
    cases ends

end TaggedScript
