import Mathlib.Algebra.Order.BigOperators.Group.List
import Mathlib.Algebra.Order.Group.Nat
import TaggedScript.Proofs.Compilation.Correctness

/-!
A call of the global `print` with one argument has an instruction of its own. It looks `print` up
after the argument and not before, it calls functions without code only, and what these hand back is
dropped. Where none of this can be told, the instruction does what a call does.
-/
namespace TaggedScript

/-- It does not matter when and how `print` is called with a value that was found in `σ` and left
`τ` behind. -/
structure Meaning.Steady (program : Program) (σ τ : Memory) (v : Value) : Prop where
  /-- The argument leaves `print` as it was. -/
  bound : τ.world.global printName = σ.world.global printName
  /-- It is no function of the program. -/
  codeless : ∀ id, τ.world.global printName = .object id → program id = none
  /-- What it hands back is `undefined`. -/
  silent : ∀ u w, callValue invoke (τ.world.global printName) .undefined [v] τ.world = .ok u w →
    u = .undefined

section
variable {I : Image} {σ τ : Memory} {v : Value}

theorem Meaning.print_eq_apply {program : Program}
    {call : Procedure → Value → List Value → Meaning Value} (h : Steady program σ τ v) :
    Meaning.print v τ =
      Meaning.apply program call (σ.world.global printName) .undefined [v] τ := by
  have outside : Meaning.apply program call (τ.world.global printName) .undefined [v] τ =
      Meaning.outside (callValue invoke (τ.world.global printName) .undefined [v]) τ := by
    have codeless := h.codeless
    cases callee : τ.world.global printName with
    | object id =>
      have none := codeless id callee
      simp only [Meaning.apply, none]
    | undefined | bool | int | str | shape | ref => rfl
  rw [← h.bound, outside]
  have silent := h.silent
  simp only [Meaning.print, bind_eq, get_eq, Meaning.outside]
  rcases called : callValue invoke (τ.world.global printName) .undefined [v] τ.world with
    ⟨u, w⟩ | ⟨e, w⟩
  · rw [silent u w called]
    rfl
  · rfl

/-- A call of `print` means the same whichever code it gets. -/
theorem Expr.meaning_print {program : Program} {locals : List String} {first : Nat}
    {call : Procedure → Value → List Value → Meaning Value} {s t : Span} {arg : Expr}
    (global : printName ∉ locals)
    (steady : ∀ v τ, arg.meaning (Meaning.apply program call) locals first σ = .ok v τ →
      Meaning.Steady program σ τ v) :
    (Expr.call s (.var t printName) [arg]).meaning (Meaning.apply program call) locals first σ =
      Expr.ordinaryMeaning (Meaning.apply program call) locals first (.var t printName) [arg] σ := by
  have printed : Expr.isPrint locals (.var t printName) [arg] = true := by
    simp [Expr.isPrint, global]
  have read : Meaning.read locals printName σ = .ok (σ.world.global printName) σ := by
    simp only [Meaning.read, bind_eq, get_eq, if_neg global, pure_eq]
  simp only [Expr.meaning, printed, ↓reduceIte, Expr.ordinaryMeaning, bind_eq, read,
    Expr.functionCount, Nat.add_zero, Expr.meaningAll]
  rcases result : arg.meaning (Meaning.apply program call) locals first σ with ⟨v, τ⟩ | ⟨e, τ⟩
  · simp only [pure_eq, List.headD_cons]
    exact Meaning.print_eq_apply (steady v τ result)
  · rfl

/-- A call of `print` has no other value than `undefined`. -/
theorem Expr.undefined_of_print {apply : Applier} {locals : List String} {first : Nat} {s t : Span}
    {arg : Expr} (global : printName ∉ locals)
    (h : (Expr.call s (.var t printName) [arg]).meaning apply locals first σ = .ok v τ) :
    v = .undefined := by
  have printed : Expr.isPrint locals (.var t printName) [arg] = true := by
    simp [Expr.isPrint, global]
  simp only [Expr.meaning, printed, ↓reduceIte] at h
  obtain ⟨values, ρ, -, print⟩ := ok_of_bind h
  obtain ⟨memory, ρ', -, handed⟩ := ok_of_bind print
  obtain ⟨u, ρ'', -, last⟩ := ok_of_bind handed
  exact (ok_of_pure last).1.symm

end

/-- Code that the compiler has made is at a place of the code that is executed. `first` is the place
of the first function inside it. -/
structure Context.Emits (ctx : Context) (I : Image) (pc first : Nat) (x : Compile (List Instr))
    (is : List Instr) : Prop where
  here : ctx.code.HasAt pc is
  made : ∃ c d, x c = .ok is d ∧ d.Extends I.compiled ∧ c.world.objects.size = first

namespace Engine

/-- The machine is about to execute the code at a position, with these values as operands. -/
def Stands (m : Engine) (I : Image) (ctx : Context) (σ : Memory) (pc : Nat) (vals : List Value) :
    Prop := ∃ a, Tracks a m ∧ At I ctx σ pc vals a

/-- A machine is still in the code that `m` was about to execute, before the position `stop`, or in a
function that was called from there. -/
def Inside (m : Engine) (stop : Nat) (n : Engine) : Prop :=
  m.stack.frame.base < n.stack.frame.base ∨
    n.stack.frame.base = m.stack.frame.base ∧ m.pc ≤ n.pc ∧ n.pc < stop

/-- The machine goes on to another one, and each of its steps begins inside. -/
inductive GoesOn (inside : Engine → Prop) : Engine → Engine → Prop
  | refl (m : Engine) : GoesOn inside m m
  | next {m m' n : Engine} : inside m → m.step = .ok .continue m' → GoesOn inside m' n →
      GoesOn inside m n

/-- The stack overflows while the machine is inside. -/
def Overflows (inside : Engine → Prop) (m : Engine) : Prop :=
  ∃ n, GoesOn inside m n ∧ inside n ∧
    ∃ words trace n', n.step = .error (.fatal (.stackOverflow words) trace) n'

/-- Before and after each step that begins inside, the indices of the dictionary fit into words. -/
def NamesAll (inside : Engine → Prop) (m : Engine) : Prop :=
  ∀ n, GoesOn inside m n → n.dictionary.size ≤ 2 ^ 32 ∧
    (inside n → (stateOf n.step).dictionary.size ≤ 2 ^ 32)

/-- What has become of a machine that was to execute code up to `pc` which pushes `undefined`. -/
inductive HasDone (I : Image) (ctx : Context) (pc : Nat) (vals : List Value)
    (inside : Engine → Prop) : EStateM.Result Stop Memory Value → Engine → Prop
  | pushed {m : Engine} {τ : Memory} : m.Stands I ctx τ pc (.undefined :: vals) → m.Stores τ →
      m.stack.operands.getLast? = some .undefined → HasDone I ctx pc vals inside (.ok .undefined τ) m
  | returning {m : Engine} {τ : Memory} {pc' : Nat} {v : Value} {vals' : List Value} :
      m.Stands I ctx τ pc' (v :: vals') → ctx.code.HasAt pc' [.ret] → m.Stores τ →
      HasDone I ctx pc vals inside (.error (.returned v) τ) m
  | failed {m m' : Engine} {e : Failure} {τ : Memory} :
      inside m → m.step = .error (.failure e) m' → m'.Stores τ →
      HasDone I ctx pc vals inside (.error (.failed e) τ) m
  | heapExhausted {m m' : Engine} {requested available : Nat} {trace : List String} {τ : Memory} :
      inside m → m.step = .error (.fatal (.heapExhausted requested available) trace) m' →
      m'.Stores τ → HasDone I ctx pc vals inside (.error (.noRoom requested available) τ) m

/-- The machine executes its code up to a position, and comes to that. -/
def Executes (I : Image) (ctx : Context) (stop : Nat) (vals : List Value) (m : Engine)
    (r : EStateM.Result Stop Memory Value) : Prop :=
  ∃ n, GoesOn (m.Inside stop) m n ∧ HasDone I ctx stop vals (m.Inside stop) r n

section
variable {I : Image} {ctx : Context} {pc : Nat} {vals : List Value} {a : FrameMachine} {m : Engine}
  {σ : Memory} {inside : Engine → Prop}

theorem stores_of_implements (same : Implements a m) (holds : Holds I σ a)
    (fits : m.dictionary.size ≤ 2 ^ 32) : m.Stores σ :=
  (carries_of_implements same holds).stores fits

theorem top_undefined (tracks : Tracks a m) (h : At I ctx σ pc (.undefined :: vals) a)
    (fits : m.dictionary.size ≤ 2 ^ 32) : m.stack.operands.getLast? = some .undefined := by
  have means := h.operands
  rw [tracks.operands, List.getLast?_reverse]
  rw [← tracks.dictionary] at fits
  generalize a.current.operands = ws at means
  obtain _ | ⟨top, -⟩ := means
  rw [eq_encode_of_decode h.holds.interned fits (top.decodes fits)]
  rfl

/-- A machine that is not done has its frames on the stack. -/
theorem tracks_of_implements (same : Implements a m) (goes : ∀ v, a.step ≠ .ok (.done v) a) :
    Tracks a m := by
  obtain ⟨status, tracks | ⟨-, v, done⟩⟩ := same
  · exact tracks
  · refine absurd ?_ (goes v)
    simp only [FrameMachine.step, status, done]

/-- The machine with one stack fails inside as the one with frames of their own fails in a stretch. -/
theorem step_error_inside {S : Stretch} {b : FrameMachine} {e : RunError} (same : Implements a m)
    (covered : ∀ b k, Tracks b k → S.Covers b → inside k)
    (after : inside m → (stateOf m.step).dictionary.size ≤ 2 ^ 32) (covers : S.Covers a)
    (step : a.step = .error e b) :
    inside m ∧ ∃ m', m.step = .error e m' ∧ Implements b m' ∧ m'.dictionary.size ≤ 2 ^ 32 := by
  have here := covered a m (tracks_of_implements same (by simp [step])) covers
  have small := after here
  obtain ⟨m', other, still⟩ := same.step_error small step
  rw [other] at small
  exact ⟨here, m', other, still, small⟩

/-- The frames above those that wait for a stretch begin further up on the stack. -/
theorem inside_of_covers {S : Stretch} {n : Engine} (tracks : Tracks a n) (covers : S.Covers a)
    (base : m.stack.frame.base = (S.outer.map CallFrame.size).sum + 1) (start : m.pc = S.start) :
    m.Inside S.stop n := by
  obtain ⟨above, callers, here⟩ := covers
  have other := tracks.base
  rw [callers, List.map_append, List.sum_append] at other
  cases above with
  | nil =>
    obtain ⟨after, before⟩ := here rfl
    refine .inr ⟨?_, start ▸ tracks.pc ▸ after, tracks.pc ▸ before⟩
    rw [other, base, List.map_nil, List.sum_nil, Nat.zero_add]
  | cons f above =>
    refine .inl ?_
    have positive : 0 < f.size := by
      rw [CallFrame.size]
      omega
    rw [List.map_cons, List.sum_cons] at other
    omega

/-- A run that ends passes all that the machine goes on to. -/
theorem GoesOn.runFor {n : Engine} (h : GoesOn inside m n) {k : Nat}
    (ends : outcome (runFor k m) ≠ .ok none) :
    ∃ j, outcome (Engine.runFor (j + 1) n) ≠ .ok none ∧
      stateOf (Engine.runFor (j + 1) n) = stateOf (Engine.runFor k m) := by
  induction h generalizing k with
  | refl m =>
    cases k with
    | zero => exact absurd rfl ends
    | succ k => exact ⟨k, ends, rfl⟩
  | next _ step _ ih =>
    cases k with
    | zero => exact absurd rfl ends
    | succ k =>
      rw [runFor_succ, step] at ends ⊢
      exact ih ends

/-- The indices fit into words all along if they do at the end of a run. -/
theorem namesAll_of_runFor {k : Nat} (ends : outcome (runFor k m) ≠ .ok none)
    (fits : (stateOf (runFor k m)).dictionary.size ≤ 2 ^ 32) : m.NamesAll inside := by
  intro n goes
  obtain ⟨j, -, last⟩ := goes.runFor ends
  rw [← last] at fits
  exact ⟨Nat.le_trans (grown_runFor _ n).size_le fits,
    fun _ => Nat.le_trans (grown_after_step j n).size_le fits⟩

theorem Overflows.later {m' : Engine} (here : inside m) (step : m.step = .ok .continue m')
    (h : m'.Overflows inside) : m.Overflows inside := by
  obtain ⟨n, goes, last⟩ := h
  exact ⟨n, .next here step goes, last⟩

/-- What a machine with frames of their own is led to is done by the machine with one stack. -/
theorem done_of_leads {S : Stretch} {r : EStateM.Result Stop Memory Value} {n : Nat}
    (undefined : ∀ v τ, r = .ok v τ → v = .undefined)
    (covered : ∀ b k, Tracks b k → S.Covers b → inside k)
    (leads : Leads (Sane I) S (Ends I S ctx (fun v τ b => At I ctx τ pc (v :: vals) b) r) n a)
    (same : Implements a m) (names : m.NamesAll inside)
    (deep : ∀ τ, r = .error .tooDeep τ → m.config.stackCapacity ≤ S.limit) :
    m.Overflows inside ∧ S.Lacks m.config.stackCapacity ∨
      ∃ k, GoesOn inside m k ∧ HasDone I ctx pc vals inside r k := by
  obtain ⟨fits, after⟩ := names m (.refl m)
  induction leads generalizing m with
  | @outgrown n a _ big =>
    rw [same.dictionary] at big
    omega
  | @here n a reached =>
    have tracks_of (running : a.status = .running) : Tracks a m := by
      obtain ⟨status, tracks | ⟨-, v, done⟩⟩ := same
      · exact tracks
      · rw [running, done] at status
        cases status
    refine .inr ⟨m, .refl m, ?_⟩
    match r with
    | .ok v τ =>
      cases undefined v τ rfl
      have tracks := tracks_of reached.status
      exact .pushed ⟨a, tracks, reached⟩ (stores_of_implements same reached.holds fits)
        (top_undefined tracks reached fits)
    | .error (.returned v) τ =>
      obtain ⟨pc', vals', at_ret, here⟩ := reached
      exact .returning ⟨a, tracks_of at_ret.status, at_ret⟩ here.code
        (stores_of_implements same at_ret.holds fits)
    | .error (.failed e) τ =>
      obtain ⟨-, covers, b, c, step, holds⟩ := reached
      obtain ⟨here, m', other, still, small⟩ := step_error_inside same covered after covers step
      exact .failed here other (stores_of_implements still holds small)
    | .error (.noRoom requested available) τ =>
      obtain ⟨-, covers, b, c, step, holds⟩ := reached
      obtain ⟨here, m', other, still, small⟩ := step_error_inside same covered after covers step
      exact .heapExhausted here other (stores_of_implements still holds small)
    | .error .tooDeep τ =>
      have deeper := reached.2
      have shallow := deep τ rfl
      rw [same.config] at deeper
      omega
  | @next n a b _ covers step _ ih =>
    have here := covered a m (tracks_of_implements same (by simp [step])) covers
    have small := after here
    obtain ⟨m', other, still⟩ := same.step_ok small step
    have grown := m.grown_step
    rw [other] at small grown
    have names' : m'.NamesAll inside := fun k goes => names k (.next here other goes)
    have config : m'.config = m.config := grown.config
    rw [← config] at deep ⊢
    have rest := ih still names' deep small (names' m' (.refl m')).2
    exact rest.imp (.imp_left (.later here other))
      fun ⟨k, goes, done⟩ => ⟨k, .next here other goes, done⟩
  | @overflow n a b words trace _ covers step lacks _ =>
    obtain ⟨here, m', other, still, -⟩ := step_error_inside same covered after covers step
    have config := m.grown_step.config
    rw [other] at config
    exact .inl ⟨⟨m, .refl m, here, words, _, m', other⟩, (still.config.trans config) ▸ lacks⟩

end

/-- The part of a run in which a machine executes code, with so many calls inside each other. -/
def stretchOf (I : Image) (ctx : Context) (pc : Nat) (vals : List Value) (is : List Instr)
    (depth : Nat) : Stretch where
  outer := ctx.callers
  start := pc
  stop := pc + codeWidth is
  limit := depth + ctx.callers.length
  frame := frameRoom I.compiled.world + (ctx.callers.map CallFrame.size).sum +
    (1 + ctx.locals.length + Frame.recordSize + (vals.length + codeWidth is))

/-- The stack has room for all frames that there may be while the code is executed with so many calls
inside each other. -/
def HasRoom (I : Image) (ctx : Context) (vals : List Value) (is : List Instr) (depth : Nat) : Prop :=
  ¬ (stretchOf I ctx 0 vals is depth).Lacks ctx.config.stackCapacity

instance (I : Image) (ctx : Context) (vals : List Value) (is : List Instr) (depth : Nat) :
    Decidable (HasRoom I ctx vals is depth) :=
  inferInstanceAs (Decidable (¬ _ < _))

/-- A machine executes code that does what is meant, unless the stack overflows. That has no room
then. -/
theorem executes_of_does {I : Image} {ctx : Context} {σ : Memory} {cost pc depth : Nat}
    {vals : List Value} {is : List Instr} {x : Meaning Value} {m : Engine}
    (undefined : ∀ v τ, x σ = .ok v τ → v = .undefined) (stands : m.Stands I ctx σ pc vals)
    (here : ctx.code.HasAt pc is) (names : m.NamesAll (m.Inside (pc + codeWidth is)))
    (does : Does I (stretchOf I ctx pc vals is depth) ctx cost pc is vals x fun v => v :: vals)
    (deep : ∀ τ, x σ = .error .tooDeep τ → ctx.config.stackCapacity ≤ depth) :
    m.Overflows (m.Inside (pc + codeWidth is)) ∧ ¬ HasRoom I ctx vals is depth ∨
      m.Executes I ctx (pc + codeWidth is) vals (x σ) := by
  obtain ⟨a, tracks, at_a⟩ := stands
  have has : (stretchOf I ctx pc vals is depth).HasAt ctx pc vals is := {
    code := here
    spans := {
      outer := ⟨[], rfl⟩
      limit := Nat.le_add_left _ _
      frames := fun f mem => by
        have one : f.size ≤ (ctx.callers.map CallFrame.size).sum :=
          List.le_sum_of_mem (List.mem_map_of_mem mem)
        simp only [stretchOf]
        omega }
    inside := fun _ => ⟨Nat.le_refl _, Nat.le_refl _⟩
    room := Nat.le_add_left _ _ }
  have config : m.config = ctx.config := tracks.config.symm.trans at_a.config
  have covered (b : FrameMachine) (k : Engine) (tracks' : Tracks b k)
      (covers : (stretchOf I ctx pc vals is depth).Covers b) :
      m.Inside (pc + codeWidth is) k := by
    refine inside_of_covers tracks' covers ?_ (tracks.pc.trans at_a.pc)
    rw [tracks.base, at_a.callers]
    rfl
  have done := done_of_leads undefined covered (does.leads has σ a at_a)
    ⟨tracks.status, .inl tracks⟩ names
    fun τ tooDeep => config ▸ Nat.le_trans (deep τ tooDeep) (Nat.le_add_right _ _)
  rw [config] at done
  exact done.imp_left (.imp_right not_not_intro)

/-- Calls that are made inside the code come to what they mean. -/
theorem callsWithin_stretchOf (I : Image) (ctx : Context) (pc : Nat) (vals : List Value)
    (is : List Instr) (depth : Nat) :
    CallsWithin I (stretchOf I ctx pc vals is depth)
      (Meaning.apply I.program (Meaning.callWithin I.program depth)) depth
      (callCost (longestCode I.compiled.world) depth) := by
  refine callsWithin (fun id code found => Nat.le_succ_of_le (le_longestCode found))
    (fun id code found => ?_) depth
  exact Nat.le_trans (Nat.le_trans (le_frameRoom found) (Nat.le_add_right _ _))
    (Nat.le_add_right _ _)

section
variable {I : Image} {ctx : Context} {pc first : Nat} {is : List Instr} {s t : Span} {arg : Expr}
  (vals : List Value) (depth : Nat)

/-- The code of a call of `print`. -/
theorem does_print
    (fast : ctx.Emits I pc first
      (Compile.expr ctx.locals pc (.call s (.var t printName) [arg])) is) :
    Does I (stretchOf I ctx pc vals is depth) ctx
      (callCost (longestCode I.compiled.world) depth) pc is vals
      ((Expr.call s (.var t printName) [arg]).meaning (Meaning.apply I.program
        (Meaning.callWithin I.program depth)) ctx.locals first) fun v => v :: vals := by
  obtain ⟨here, c, d, made, later, rfl⟩ := fast
  have calls := callsWithin_stretchOf I ctx pc vals is depth
  exact (does_inductive (callCost_pos _ _) calls rfl).expr _ pc vals c is d made later

/-- The code that the call has if it is an ordinary one. -/
theorem does_ordinary
    (slow : ctx.Emits I pc first (Compile.ordinary ctx.locals pc (.var t printName) [arg]) is) :
    Does I (stretchOf I ctx pc vals is depth) ctx
      (callCost (longestCode I.compiled.world) depth) pc is vals
      (Expr.ordinaryMeaning (Meaning.apply I.program (Meaning.callWithin I.program depth))
        ctx.locals first (.var t printName) [arg]) fun v => v :: vals := by
  obtain ⟨here, c, d, made, later, rfl⟩ := slow
  have calls := callsWithin_stretchOf I ctx pc vals is depth
  have whole := does_inductive (callCost_pos _ _) calls rfl
  exact .ordinary (callCost_pos _ _) calls rfl made later
    (whole.expr (.var t printName) pc vals c) (whole.list [arg]).1

end

/-- Two machines in the same state, of which one executes the code of a call of `print` with one
argument and the other that of an ordinary call, come to the same, which is what the call means: the
world, the records and the word that is pushed are the same, or both fail alike. Only the stack of a
machine may overflow before the call is over, and if it has room for the calls that are made inside
then it does not. -/
theorem print_eq_ordinary {I : Image} {ctx₁ ctx₂ : Context} {σ : Memory} {pc₁ pc₂ first : Nat}
    {vals : List Value} {is₁ is₂ : List Instr} {m₁ m₂ : Engine} {s t : Span} {arg : Expr}
    {locals : List String} (global : printName ∉ locals)
    (stands₁ : m₁.Stands I ctx₁ σ pc₁ vals) (stands₂ : m₂.Stands I ctx₂ σ pc₂ vals)
    (locals₁ : ctx₁.locals = locals) (locals₂ : ctx₂.locals = locals)
    (fast : ctx₁.Emits I pc₁ first
      (Compile.expr locals pc₁ (.call s (.var t printName) [arg])) is₁)
    (slow : ctx₂.Emits I pc₂ first
      (Compile.ordinary locals pc₂ (.var t printName) [arg]) is₂)
    (names₁ : m₁.NamesAll (m₁.Inside (pc₁ + codeWidth is₁)))
    (names₂ : m₂.NamesAll (m₂.Inside (pc₂ + codeWidth is₂)))
    (steady : ∀ depth v τ,
      arg.meaning (Meaning.apply I.program (Meaning.callWithin I.program depth)) locals first σ =
        .ok v τ → Meaning.Steady I.program σ τ v) :
    let means depth := (Expr.call s (.var t printName) [arg]).meaning (Meaning.apply I.program
      (Meaning.callWithin I.program depth)) locals first σ
    (∃ depth,
      (m₁.Overflows (m₁.Inside (pc₁ + codeWidth is₁)) ∨
        m₁.Executes I ctx₁ (pc₁ + codeWidth is₁) vals (means depth)) ∧
      (m₂.Overflows (m₂.Inside (pc₂ + codeWidth is₂)) ∨
        m₂.Executes I ctx₂ (pc₂ + codeWidth is₂) vals (means depth))) ∧
    ∀ depth, (∀ τ, means depth ≠ .error .tooDeep τ) →
      (HasRoom I ctx₁ vals is₁ depth →
        m₁.Executes I ctx₁ (pc₁ + codeWidth is₁) vals (means depth)) ∧
      (HasRoom I ctx₂ vals is₂ depth →
        m₂.Executes I ctx₂ (pc₂ + codeWidth is₂) vals (means depth)) := by
  intro means
  rw [← locals₁] at fast
  rw [← locals₂] at slow
  have undefined (depth : Nat) (v : Value) (τ : Memory) : means depth = .ok v τ → v = .undefined :=
    Expr.undefined_of_print global
  have left (depth : Nat) (deep : ∀ τ, means depth = .error .tooDeep τ →
      ctx₁.config.stackCapacity ≤ depth) :
      m₁.Overflows (m₁.Inside (pc₁ + codeWidth is₁)) ∧ ¬ HasRoom I ctx₁ vals is₁ depth ∨
        m₁.Executes I ctx₁ (pc₁ + codeWidth is₁) vals (means depth) := by
    have does := does_print vals depth fast
    rw [locals₁] at does
    exact executes_of_does (undefined depth) stands₁ fast.here names₁ does deep
  have right (depth : Nat) (deep : ∀ τ, means depth = .error .tooDeep τ →
      ctx₂.config.stackCapacity ≤ depth) :
      m₂.Overflows (m₂.Inside (pc₂ + codeWidth is₂)) ∧ ¬ HasRoom I ctx₂ vals is₂ depth ∨
        m₂.Executes I ctx₂ (pc₂ + codeWidth is₂) vals (means depth) := by
    have does := does_ordinary vals depth slow
    rw [locals₂] at does
    have same : means depth = _ := Expr.meaning_print global (steady depth)
    have undefined := undefined depth
    rw [same] at undefined deep ⊢
    exact executes_of_does undefined stands₂ slow.here names₂ does deep
  refine ⟨⟨max ctx₁.config.stackCapacity ctx₂.config.stackCapacity, ?_, ?_⟩,
    fun depth shallow => ⟨fun room => ?_, fun room => ?_⟩⟩
  · exact (left _ fun _ _ => Nat.le_max_left _ _).imp_left And.left
  · exact (right _ fun _ _ => Nat.le_max_right _ _).imp_left And.left
  · exact (left depth fun τ deep => absurd deep (shallow τ)).resolve_left fun h => h.2 room
  · exact (right depth fun τ deep => absurd deep (shallow τ)).resolve_left fun h => h.2 room

end Engine

namespace Compile

/-- The code of a call of `print` with one argument in a script. -/
def printCall (arg : Expr) (base : Nat) : Compile (List Instr) :=
  expr [thisName] base (.call .none (.var .none printName) [arg])

/-- The code that the call would have if it were not one of `print`. -/
def plainCall (arg : Expr) (base : Nat) : Compile (List Instr) :=
  ordinary [thisName] base (.var .none printName) [arg]

/-- What a script comes to that sets `print` and returns the value of a call of it. -/
def runCall (print : Compile Value) (call : Nat → Compile (List Instr)) :
    Option (Except RunError Value) :=
  let main : Compile ObjectId := do
    let bind : List Instr := [.const (← constant (← print)), .register (← name printName)]
    let code ← call (codeWidth bind)
    newFunction "main" (.ofInstrs 1 1 (bind ++ code ++ [.ret]))
  match main ⟨.initial false, .empty⟩ with
  | .ok main c => some (outcome (Engine.run main (.make ⟨32, 8⟩ c.world c.dictionary)))
  | .error _ _ => none

/-- A function with code. -/
def seven : Compile Value := do
  let body : List Expr := [.ret .none (.literal .none (.int 7))]
  return .object (← compileFunction ⟨some printName, ["x"], body⟩ .none)

/-- A function of the host that hands back its argument. -/
def echo : Compile Value := modifyGet fun c =>
  let native : Native := .host fun _ _ args => .ok (args.headD .undefined)
  let (id, w) := c.world.addObject (.ofNative "echo" native)
  (.object id, { c with world := w })

/-- An argument that sets `print` itself. -/
def rebinding : Expr := .call .none (.function .none none []
  [.assign .none printName false (.literal .none (.int 5)), .ret .none (.literal .none (.int 1))]) []

/-- The two codes differ where `print` has code, where it has a result, and where the argument sets
it. -/
theorem printCall_ne_plainCall :
    (runCall seven (printCall (.literal .none (.int 1))) =
        some (.error (.failure (.needsMachine "print"))) ∧
      runCall seven (plainCall (.literal .none (.int 1))) = some (.ok (.int 7))) ∧
    (runCall echo (printCall (.literal .none (.int 1))) = some (.ok .undefined) ∧
      runCall echo (plainCall (.literal .none (.int 1))) = some (.ok (.int 1))) ∧
    (runCall (pure (.object ⟨0⟩)) (printCall rebinding) =
        some (.error (.failure (.notAFunction "5"))) ∧
      runCall (pure (.object ⟨0⟩)) (plainCall rebinding) = some (.ok .undefined)) := by
  decide +kernel

/-- Two scripts that print a number, by one code and by the other. -/
def printNumber : Compile (ObjectId × ObjectId) := do
  let fast ← printCall (.literal .none (.int 1)) 0
  let slow ← plainCall (.literal .none (.int 1)) 0
  let a ← newFunction "main" (.ofInstrs 1 1 (fast ++ [.ret]))
  let b ← newFunction "main" (.ofInstrs 1 1 (slow ++ [.ret]))
  return (a, b)

end Compile

/-- The two scripts as all functions that there are. -/
def Image.ofPrintNumber : Image :=
  let c := stateOf (Compile.printNumber ⟨.initial false, .empty⟩)
  { program := fun _ => none
    compiled := c
    allows := fun v => ∀ id, v = .object id → (c.world.object id).code? = none
    fits := by decide +kernel
    built := fun id p known => by cases known
    plain := fun v plain id same => by
      rw [same] at plain
      cases plain
    constants := by
      have entries : c.dictionary.entries = #[.str printName] := by decide +kernel
      intro v mem id same
      rw [entries, same] at mem
      simp at mem
    complete := fun id allowed hasCode => by
      rw [allowed id rfl] at hasCode
      cases hasCode }

theorem Image.lends_printNumber :
    Image.ofPrintNumber.compiled.world.Lends .ofPrintNumber := by
  let w := Image.ofPrintNumber.compiled.world
  have entries : Image.ofPrintNumber.compiled.dictionary.entries = #[.str printName] := by
    decide +kernel
  have names {x : String} (reads : Image.ofPrintNumber.Reads x) : x = printName := by
    rw [Image.Reads, entries] at reads
    simpa using reads
  have bound : w.global printName = .object ⟨0⟩ := by decide +kernel
  have bare : w.objects.all (fun o => o.fields.get? printName = none) = true := by decide +kernel
  have builtins : w.OnlyBuiltins :=
    ((World.builtin_initial false).onlyBuiltins.addFunction _ _).addFunction _ _
  exact {
    natives := by
      intro id n native
      obtain rfl | ⟨op, rfl⟩ := builtins id n native <;> trivial
    globals := by
      intro x reads
      have codeless : (w.object ⟨0⟩).code? = none := by decide +kernel
      rw [names reads, bound]
      refine ⟨?_, by simp⟩
      rintro id ⟨⟩
      exact codeless
    fields := by
      intro id x _ reads
      rw [names reads, World.field_of_all bare]
      exact ⟨Image.plain _ _ rfl, by simp⟩ }

namespace Engine

theorem print_eq_ordinary_number :
    let I := Image.ofPrintNumber
    let m (main : ObjectId) :=
      stateOf (start main (.make ⟨32, 8⟩ I.compiled.world I.compiled.dictionary))
    let ctx (main : ObjectId) : Context :=
      ⟨(m main).config, main, ((I.compiled.world.object main).code?).getD default, ["this"], [], []⟩
    ∃ τ : Memory, τ.world.output = "1\n" ∧
      (m ⟨12⟩).Executes I (ctx ⟨12⟩) 3 [] (.ok .undefined τ) ∧
      (m ⟨13⟩).Executes I (ctx ⟨13⟩) 8 [] (.ok .undefined τ) := by
  intro I m ctx
  have memory : (make ⟨32, 8⟩ I.compiled.world I.compiled.dictionary).InMemory :=
    ⟨by decide, World.codeFits_of_all (by decide +kernel)⟩
  have interned : I.compiled.dictionary.Interned := by
    have entries : I.compiled.dictionary.entries = #[.str printName] := by decide +kernel
    constructor <;> simp [entries, Value.isInterned]
  have carries := carries_make Image.lends_printNumber interned ⟨32, 8⟩
  let σ : Memory := ⟨[.undefined], I.compiled.world, [], 8⟩
  have stands₁ : (m ⟨12⟩).Stands I (ctx ⟨12⟩) σ 0 [] :=
    ⟨_, start_frames memory rfl, (carries.at_begin memory rfl rfl rfl).2.2⟩
  have stands₂ : (m ⟨13⟩).Stands I (ctx ⟨13⟩) σ 0 [] :=
    ⟨_, start_frames memory rfl, (carries.at_begin memory rfl rfl rfl).2.2⟩
  have later (d : Compiling) (world : d.world = .initial false)
      (dictionary : d.dictionary.Extends I.compiled.dictionary) : d.Extends I.compiled := by
    refine ⟨dictionary, fun _ => interned, ?_, ?_, ?_⟩ <;> rw [world]
    · exact List.prefix_rfl
    · exact ⟨_, rfl⟩
    · rfl
  have fast : (ctx ⟨12⟩).Emits I 0 12 (Compile.printCall (.literal .none (.int 1)) 0)
      [.const (.ofInt 1), .print] :=
    ⟨(Code.hasAt_ofInstrs _ _ _).left, ⟨.initial false, .empty⟩, _, rfl, later _ rfl ⟨_, rfl⟩, rfl⟩
  have slow : (ctx ⟨13⟩).Emits I 0 12 (Compile.plainCall (.literal .none (.int 1)) 0)
      [.lookup (encode (.str printName) .empty).1, .const .undefined, .const (.ofInt 1),
        .funcall 1] :=
    ⟨(Code.hasAt_ofInstrs _ _ _).left, ⟨.initial false, .empty⟩, _, rfl, later _ rfl (.refl _), rfl⟩
  have steady : ∀ depth v τ, (Expr.literal .none (.int 1)).meaning (Meaning.apply I.program
      (Meaning.callWithin I.program depth)) ["this"] 12 σ = .ok v τ →
        Meaning.Steady I.program σ τ v := by
    rintro depth v τ ⟨⟩
    refine ⟨rfl, fun _ _ => rfl, fun u w called => ?_⟩
    have printed : outcome (callValue invoke (σ.world.global printName) .undefined [.int 1]
        σ.world) = .ok .undefined := by
      decide +kernel
    rw [show Literal.value (.int 1) = .int 1 from rfl] at called
    rw [called] at printed
    injection printed
  have names₁ : (m ⟨12⟩).NamesAll ((m ⟨12⟩).Inside 3) :=
    namesAll_of_runFor (k := 4) (by decide +kernel) (by decide +kernel)
  have names₂ : (m ⟨13⟩).NamesAll ((m ⟨13⟩).Inside 8) :=
    namesAll_of_runFor (k := 6) (by decide +kernel) (by decide +kernel)
  let r := (Expr.call .none (.var .none printName) [.literal .none (.int 1)]).meaning
    (Meaning.apply I.program (Meaning.callWithin I.program 0)) ["this"] 12 σ
  have printed : outcome r = .ok .undefined ∧ (stateOf r).world.output = "1\n" := by decide +kernel
  have executes : (∀ τ, r ≠ .error .tooDeep τ) →
      (HasRoom I (ctx ⟨12⟩) [] _ 0 → (m ⟨12⟩).Executes I (ctx ⟨12⟩) 3 [] r) ∧
      (HasRoom I (ctx ⟨13⟩) [] _ 0 → (m ⟨13⟩).Executes I (ctx ⟨13⟩) 8 [] r) :=
    (print_eq_ordinary (by decide) stands₁ stands₂ rfl rfl fast slow names₁ names₂ steady).2 0
  have means := ok_of_outcome printed.1
  rw [means] at executes
  obtain ⟨left, right⟩ := executes (by simp)
  exact ⟨_, printed.2, left (by decide +kernel), right (by decide +kernel)⟩

end Engine
end TaggedScript
