import TaggedScript.Proofs.Lockstep.Beginning

/-!
A machine in lockstep with itself. What it agrees on with itself is what holds of it: the records of
its heap, and that all its words stand for what is there.
-/
namespace TaggedScript

/-- If the word names a record then it names one of these. -/
def Word.Within (records : List Header) (w : Word) : Prop :=
  ∀ offset, w.tag = some (.heap offset) → ∃ r, headerAt? records offset.toNat = some r

/-- If the value is a record then it is one of these. -/
def Value.Within (records : List Header) (v : Value) : Prop :=
  ∀ offset, v = .ref offset → ∃ r, headerAt? records offset.toNat = some r

namespace Word

theorem tag_ofIndex_ne (n : Nat) (offset : UInt32) : (ofIndex n).tag ≠ some (.heap offset) := by
  have even : (ofIndex n).toNat % 2 = 0 := by
    simp only [ofIndex, ofNat, toNat, UInt64.toNat_ofNat']
    omega
  rw [tag, if_pos even]
  cases (ofIndex n).asInt <;> simp

namespace Within
variable {records more : List Header} {w : Word}

theorem of_tag_ne (h : ∀ offset, w.tag ≠ some (.heap offset)) : w.Within records :=
  fun offset named => absurd named (h offset)

theorem mono (h : w.Within records) (longer : records <+: more) : w.Within more :=
  fun offset named => (h offset named).imp fun _ => headerAt?_prefix longer

end Within
end Word

theorem within_frameWords {records : List Header} {lower : List Word} {callee : Word}
    {f : CallFrame} {record : Activation} (under : ∀ u ∈ lower, u.Within records)
    (running : callee.Within records) (here : ∀ u ∈ record.words, u.Within records)
    (own : ∀ u ∈ f.slots ++ f.operands, u.Within records) :
    ∀ u ∈ frameWords lower callee f record, u.Within records := by
  intro u mem
  simp only [frameWords, List.mem_append, List.mem_cons, List.mem_reverse] at mem own
  obtain below | rfl | slot | word | operand := mem
  · exact under u below
  · exact running
  · exact own u (.inl slot)
  · exact here u word
  · exact own u (.inr operand)

/-- No word of the frames below is the name of a record that is not there, unless one of their slots
or operands is. -/
theorem Below.within {w : World} {d : Dictionary} {lower : List Word} {record : Activation}
    {callers : List CallFrame} (h : Below w d lower record callers) (fits : d.size ≤ 2 ^ 32)
    {records : List Header}
    (inside : ∀ f ∈ callers, ∀ u ∈ f.slots ++ f.operands, u.Within records) :
    (∀ u ∈ lower, u.Within records) ∧ ∀ u ∈ record.words, u.Within records := by
  have position (n : Nat) : (Word.ofIndex n).Within records := .of_tag_ne (Word.tag_ofIndex_ne n)
  have undefined : Word.undefined.Within records := .of_tag_ne (by simp)
  induction h with
  | outermost =>
    refine ⟨by simp, fun u mem => ?_⟩
    simp only [Activation.words, List.mem_cons, Option.elim_none, List.not_mem_nil, or_false] at mem
    obtain rfl | rfl | rfl := mem
    · exact position 0
    · exact undefined
    · exact undefined
  | @called lower record callers g callee caller below named runs pc base link ih =>
    obtain ⟨under, here⟩ := ih fun f mem => inside f (List.mem_cons_of_mem _ mem)
    refine ⟨within_frameWords under (.of_tag_ne named.notHeap) here (inside g List.mem_cons_self),
      fun u mem => ?_⟩
    simp only [Activation.words, List.mem_cons, Option.elim_some, List.not_mem_nil, or_false]
      at mem
    obtain rfl | rfl | rfl := mem
    · exact position _
    · exact position _
    · refine .of_tag_ne fun offset named => ?_
      have found := link fits
      rw [Dictionary.lookup?, named] at found
      cases found

namespace Lockstep

section
variable {R : Renumbering} {L : Lockstep R} {O : Outermost R}

theorem Knows.within {v : Value} (h : L.Knows v) : v.Within L.records := by
  rintro offset rfl
  exact Option.isSome_iff_exists.mp h

theorem Pairs.within {w u : Word} (h : L.Pairs w u) (fits : L.right.size ≤ 2 ^ 32) :
    u.Within L.records := by
  intro offset named
  obtain ⟨v, same⟩ := h
  obtain ⟨t, tag, means⟩ := same.right.means fits
  obtain rfl : t = .heap offset := Option.some_inj.mp (tag.symm.trans named)
  cases means
  exact same.known.within offset rfl

theorem within_of_pairs {ws us : List Word} (h : List.Forall₂ L.Pairs ws us)
    (fits : L.right.size ≤ 2 ^ 32) : ∀ u ∈ us, u.Within L.records := by
  induction h with
  | nil => simp
  | cons pairs _ ih => exact List.forall_mem_cons.mpr ⟨pairs.within fits, ih⟩

theorem Waiting.within {w w' : World} {fs fs' : List CallFrame} (h : L.Waiting O w w' fs fs')
    (fits : L.right.size ≤ 2 ^ 32) :
    ∀ f ∈ fs', ∀ u ∈ f.slots ++ f.operands, u.Within L.records := by
  induction h with
  | nil => simp
  | cons frame _ _ _ ih =>
    exact List.forall_mem_cons.mpr
      ⟨within_of_pairs (List.rel_append frame.slots frame.operands) fits, ih⟩

namespace Engines
variable {m m' : Engine}

theorem dictionaries (h : L.Engines O m m') :
    m.dictionary = L.left ∧ m'.dictionary = L.right := by
  obtain ⟨x, y, same, same', level⟩ := h.frames
  exact ⟨same.dictionary.symm.trans level.stores.left,
    same'.dictionary.symm.trans level.stores.right⟩

/-- Any record that a word of the stack names is there. -/
theorem within (h : L.Engines O m m') (fits : m'.dictionary.size ≤ 2 ^ 32) :
    ∀ u ∈ m'.stack.live, u.Within L.records := by
  have inWords : L.right.size ≤ 2 ^ 32 := h.dictionaries.2 ▸ fits
  obtain ⟨x, y, -, ⟨-, tracks | ⟨finished, -⟩⟩, level⟩ := h.frames
  · obtain ⟨lower, callee, record, below, named, live, -⟩ := tracks.frames
    obtain ⟨frame, waiting⟩ := level.frames
    have own := within_of_pairs (List.rel_append frame.slots frame.operands) inWords
    obtain ⟨under, here⟩ := below.within fits (waiting.within inWords)
    rw [live]
    exact within_frameWords under (.of_tag_ne named.notHeap) here own
  · have size := m'.stack.length_live
    rw [finished.pointer] at size
    rw [List.eq_nil_of_length_eq_zero size]
    simp

end Engines

/-- Functions with a counterpart are builtin or have code, and there are no others. -/
theorem Programs.onlyBuiltins {w w' : World} (h : L.Programs w w')
    (all : L.objects = w'.objects.size) : w'.OnlyBuiltins := by
  intro id n native
  have inside : id.index < w'.objects.size :=
    World.lt_of_isCallable (by rw [HostObject.isCallable, native])
  have alike := (h.functions id (all ▸ inside)).body
  rw [native] at alike
  generalize (w.object (R.object id)).body = b at alike
  cases alike with
  | print => exact .inl rfl
  | operator op => exact .inr ⟨op, rfl⟩

end

/-- A machine that keeps to what is agreed on. While it runs its next instruction is one of the
compiler. -/
structure Alone (L : Lockstep .same) (m : Engine) : Prop where
  left : m.dictionary = L.left
  right : m.dictionary = L.right
  objects : L.objects = m.world.objects.size
  shapes : L.shapes = m.world.shapes.size
  worlds : L.Worlds m.world m.world
  heaps : L.Heaps m.world m.heap m.heap
  stack : ∀ u ∈ m.stack.live, u.Within L.records
  running : m.status = .running → ∃ O, O.Closed ∧ L.Engines O m m

end Lockstep

namespace Engine

/-- What compiling a script makes of a machine. -/
def compiled (s : Script) (m : Engine) : Engine :=
  let c := stateOf (compileScript s ⟨m.world, m.dictionary⟩)
  { m with world := c.world, dictionary := c.dictionary }

end Engine

namespace Lockstep.Alone
variable {L : Lockstep .same} {m : Engine}

theorem made (closed : Bool) (config : EngineConfig) :
    Alone ⟨(World.initial closed).objects.size, 0, [], .empty, .empty⟩
      (.make config (.initial closed) .empty) := by
  have untouched := World.untouched_initial closed
  have shapes : (World.initial closed).shapes.size = 0 := by cases closed <;> rfl
  generalize World.initial closed = w at untouched shapes
  exact {
    left := rfl
    right := rfl
    objects := rfl
    shapes := shapes.symm
    worlds := worlds_untouched untouched (fun _ _ => rfl) rfl rfl rfl (fun _ _ => rfl) rfl rfl
    heaps := heaps_empty rfl _ _
    stack := by simp [Engine.make, Stack.empty, Stack.live, Stack.between]
    running := nofun }

theorem onlyBuiltins (h : Alone L m) : m.world.OnlyBuiltins := h.worlds.onlyBuiltins h.objects

/-- What the machine has compiled so far is the same as itself. -/
theorem compilings (h : Alone L m) :
    L.Compilings ⟨m.world, m.dictionary⟩ ⟨m.world, m.dictionary⟩ where
  left := h.left
  right := h.right
  objects := h.objects
  shapes := h.shapes
  worlds := h.worlds
  nextObject _ := rfl
  nextShape _ := rfl

/-- A script is compiled while the machine does not run. -/
theorem compile (h : Alone L m) (s : Script) (still : m.status ≠ .running) :
    ∃ L', L'.records = L.records ∧ Alone L' (m.compiled s) := by
  obtain ⟨L', larger, beside⟩ := (twins_script L s _ _ h.compilings).states
  obtain ⟨_, adds⟩ := (builds_script s).adds ⟨m.world, m.dictionary⟩
  refine ⟨L', larger.records, {
    left := beside.left
    right := beside.right
    objects := beside.objects
    shapes := beside.shapes
    worlds := beside.worlds
    heaps := h.heaps.grow_known larger.grows larger.records fun id known =>
      adds.later.shape (h.shapes ▸ known)
    stack := fun u mem => (h.stack u mem).mono larger.grows.records
    running := fun running => absurd running still }⟩

/-- A run is begun, or there is no code or no room for it. -/
theorem start (h : Alone L m) (main : ObjectId) (memory : m.InMemory)
    (fits : (stateOf (Engine.start main m)).dictionary.size ≤ 2 ^ 32) :
    ∃ L', L'.records = L.records ∧ Alone L' (stateOf (Engine.start main m)) := by
  cases found : (m.world.object main).code? with
  | none =>
    refine ⟨L, rfl, ?_⟩
    simp only [Engine.start, found]
    exact { h with running := fun running => by cases running }
  | some code =>
    have inside : main.index < L.objects := by
      rw [h.objects]
      exact World.lt_of_code found
    obtain ⟨own, same, -, going⟩ := h.worlds.code inside found
    obtain rfl : code = own := Option.some_inj.mp (found.symm.trans same)
    let O := L.outermost main code code
    let L' := L.encoded (.object main) (.object main)
    have grows : L.Grows L' := L.grows_encoded _ _
    have begins {n : Engine} (begun : Engine.Begun main m n)
        (stack : ∀ u ∈ n.stack.live, u.Within L.records)
        (running : n.status = .running → ∃ O, O.Closed ∧ L'.Engines O n n) : Alone L' n := {
      left := begun.dictionary.trans (congrArg (fun d => (encode (.object main) d).2) h.left)
      right := begun.dictionary.trans (congrArg (fun d => (encode (.object main) d).2) h.right)
      objects := begun.world ▸ h.objects
      shapes := begun.world ▸ h.shapes
      worlds := begun.world ▸ h.worlds.grow grows rfl rfl
      heaps := by
        rw [begun.world, begun.heap]
        exact h.heaps.grow grows rfl rfl
      stack := stack
      running := running }
    by_cases room : Frame.operands ⟨1, code.slotCount⟩ ≤ m.config.stackCapacity
    · obtain ⟨n, started, begun⟩ := Engine.start_room found room
      rw [started] at fits ⊢
      have stores : L.Stores (.begin O.left m) (.begin O.right m) :=
        ⟨rfl, h.left, h.right, h.worlds, h.heaps⟩
      obtain ⟨n₁, n₂, first, second, engines⟩ | ⟨e, n₁, -, failed, -⟩ :=
        Stores.start stores (.refl L) rfl ⟨found, found, rfl⟩ rfl going memory memory
      · cases started.symm.trans first
        cases started.symm.trans second
        exact ⟨L', rfl, begins begun (engines.within fits) fun _ =>
          ⟨O, L.outermost_closed main code code, engines⟩⟩
      · cases started.symm.trans failed
    · obtain ⟨n, failed, begun, status, -, -, words⟩ :=
        Engine.start_full found (Nat.lt_of_not_le room)
      rw [failed]
      refine ⟨L', rfl, begins begun (fun u mem => ?_) fun running => ?_⟩
      · rw [words u mem]
        exact .of_tag_ne (callee_main main m.dictionary).notHeap
      · cases status.symm.trans running

/-- One step. It may make a record of the class that the instruction names. -/
theorem step (h : Alone L m) (fits : (stateOf m.step).dictionary.size ≤ 2 ^ 32) :
    ∃ L', L.Next (fun r => m.status = .running ∧ m.code.fetch m.pc = .ok (.new r.shape)) L' ∧
      Alone L' (stateOf m.step) := by
  by_cases running : m.status = .running
  · obtain ⟨O, closed, engines⟩ := h.running running
    obtain ⟨L', next, after, -⟩ := engines.step closed fits fits
    have fixed := m.grown_step.fixed h.onlyBuiltins
    exact ⟨L', next, {
      left := after.dictionaries.1
      right := after.dictionaries.2
      objects := by rw [next.objects, fixed.size, h.objects]
      shapes := by rw [next.shapes, fixed.shapes, h.shapes]
      worlds := (after.stores fits fits).1
      heaps := (after.stores fits fits).2
      stack := after.within fits
      running := fun _ => ⟨O, closed, after⟩ }⟩
  · exact ⟨L, .refl L, (Engine.step_of_still running).symm ▸ h⟩

end Lockstep.Alone
end TaggedScript
