import TaggedScript.Proofs.Compilation.Classes
import TaggedScript.Proofs.Compilation.Histories
import TaggedScript.Proofs.Lockstep.Alone

/-!
The heap holds together, whatever the scripts do that run on a machine. The machine itself only
checks that a reference leads into the heap, not that a record begins there.
-/
namespace TaggedScript
namespace Engine

/-- The states of a machine on which scripts are compiled and run. Any function can be started, and
a run can be left for another one at any step; scripts are compiled between the runs. -/
inductive ReachedBy (scripts : List Script) (closed : Bool) (config : EngineConfig) : Engine → Prop
  | made : ReachedBy scripts closed config (.make config (.initial closed) .empty)
  | compiled {m : Engine} {s : Script} : ReachedBy scripts closed config m → s ∈ scripts →
    m.status ≠ .running → ReachedBy scripts closed config (m.compiled s)
  | started {m : Engine} (main : ObjectId) : ReachedBy scripts closed config m →
    ReachedBy scripts closed config (stateOf (start main m))
  | stepped {m : Engine} : ReachedBy scripts closed config m →
    ReachedBy scripts closed config (stateOf m.step)

/-- The heap is laid out in these records, each of a declared class and with a field for each of the
class. All that names a record names one of them, and its fields are read and written inside it. -/
structure Tidy (declared : Shape → Prop) (records : List Header) (m : Engine) : Prop where
  tiles : Tiles records m.heap.words.toList
  classes : ∀ r ∈ records, ∃ id, m.dictionary.lookup? r.shape = some (.shape id) ∧
    declared (m.world.shape id) ∧ (m.world.shape id).fields.length = r.width
  stack : ∀ w ∈ m.stack.live, w.Within records
  heap : ∀ w ∈ m.heap.words, w.Within records
  globals : ∀ x, (m.world.global x).Within records
  fields : ∀ id x, (m.world.field id x).Within records
  access : ∀ offset r, headerAt? records offset.toNat = some r →
    ∃ shape, m.heap.shapeOf m.world m.dictionary offset = .ok shape ∧
      ∀ x slot, shape.slotOf? x = some slot → ∃ i, m.heap.place offset slot = .ok i ∧
        offset.toNat + Heap.headerSize ≤ i ∧ i < offset.toNat + r.size

/-- There is only one way to see the records. -/
theorem Tidy.unique {declared : Shape → Prop} {records others : List Header} {m : Engine}
    (h : m.Tidy declared records) (g : m.Tidy declared others) : others = records := by
  refine g.tiles.unique h.tiles fun r mem s mem' same => ?_
  obtain ⟨id, found, -, width⟩ := g.classes r mem
  obtain ⟨id', found', -, width'⟩ := h.classes s mem'
  rw [same, found'] at found
  cases found
  rw [← width, width']

end Engine

namespace Lockstep.Alone
variable {L : Lockstep .same} {m : Engine}

theorem fits (h : Alone L m) (small : m.dictionary.size ≤ 2 ^ 32) : L.Fits :=
  ⟨h.left ▸ small, h.right ▸ small⟩

/-- A machine is laid out in the records that it agrees on with itself. -/
theorem tidy (h : Alone L m) (small : m.dictionary.size ≤ 2 ^ 32) {declared : Shape → Prop}
    (shapes : ∀ shape ∈ m.world.shapes, declared shape) : m.Tidy declared L.records where
  tiles := h.heaps.tiles
  classes r mem := by
    obtain ⟨id, known, spells, width⟩ := h.heaps.classes r mem
    have inside : id.index < m.world.shapes.size := h.shapes ▸ known
    refine ⟨id, h.right ▸ spells.lookup? (h.fits small).right rfl, shapes _ ?_, width⟩
    simp [World.shape, Array.getD_eq_getD_getElem?, inside]
  stack := h.stack
  heap w mem := within_of_pairs h.heaps.words (h.fits small).right w (Array.mem_toList_iff.mpr mem)
  globals x := (h.worlds.globals x).1.within
  fields id x := by
    by_cases inside : id.index < m.world.objects.size
    · exact (h.worlds.fields id (h.objects ▸ inside) x).1.within
    · have missing : m.world.object id = default := by
        rw [World.object, Array.getD_eq_getD_getElem?, Array.getElem?_eq_none (by omega)]
        rfl
      rw [World.field, missing]
      intro offset same
      cases same
  access offset r found := by
    obtain ⟨shape, -, read, width⟩ := h.heaps.shapeOf found (h.fits small) h.worlds.toPrograms
    rw [← h.right] at read
    refine ⟨shape, read, fun x slot declares => ?_⟩
    obtain ⟨bound, -⟩ := List.findIdx?_eq_some_iff_getElem.mp declares
    have inside : slot < r.width := by omega
    obtain ⟨-, place⟩ := h.heaps.place found inside
    exact ⟨_, place, by omega, by simp only [Header.size]; omega⟩

end Lockstep.Alone

namespace Engine
variable {scripts : List Script} {closed : Bool} {config : EngineConfig} {m n : Engine}

theorem ReachedBy.afterSteps (h : ReachedBy scripts closed config m) (n : Nat) :
    ReachedBy scripts closed config (afterSteps step n m) := by
  induction n with
  | zero => exact h
  | succ n ih => exact ih.stepped

theorem ReachedBy.becomes (h : ReachedBy scripts closed config m) :
    (make config (.initial closed) .empty).Becomes m := by
  induction h with
  | made => exact .refl
  | @compiled m s _ _ still ih => exact ih.loaded (.script s) still
  | started main _ ih => exact ih.started main
  | stepped _ ih => exact ih.stepped

/-- Functions are builtin or compiled. -/
theorem ReachedBy.onlyBuiltins (h : ReachedBy scripts closed config m) : m.world.OnlyBuiltins :=
  (h.becomes.lasts (World.builtin_initial closed).onlyBuiltins).2

/-- Classes are those of object literals. -/
theorem ReachedBy.declared (h : ReachedBy scripts closed config m) :
    ∀ shape ∈ m.world.shapes, Script.Declares scripts shape := by
  induction h with
  | made =>
    intro shape mem
    have none : (World.initial closed).shapes = #[] := by cases closed <;> rfl
    simp [make, none] at mem
  | @compiled m s _ known _ ih =>
    intro shape mem
    obtain old | new := introduces_script known ⟨m.world, m.dictionary⟩ shape mem
    · exact ih shape old
    · exact new
  | @started m main reached ih =>
    rw [((grown_start main m).fixed reached.onlyBuiltins).shapes]
    exact ih
  | stepped reached ih =>
    rw [((grown_step _).fixed reached.onlyBuiltins).shapes]
    exact ih

/-- As far as the memory of the host goes, a machine keeps to what it has agreed on with itself. -/
theorem ReachedBy.alone (h : ReachedBy scripts closed config m) (memory : m.InMemory)
    (fits : m.dictionary.size ≤ 2 ^ 32) : ∃ L, Lockstep.Alone L m := by
  induction h with
  | made => exact ⟨_, .made closed config⟩
  | @compiled m s _ _ still ih =>
    have lasts := Lasts.of_loaded m (.script s)
    obtain ⟨L, alone⟩ := ih (lasts.inMemory memory) (lasts.fits fits)
    obtain ⟨L', -, after⟩ := alone.compile s still
    exact ⟨L', after⟩
  | @started m main reached ih =>
    have lasts := Lasts.of_grown (grown_start main m) reached.onlyBuiltins
    have before := lasts.inMemory memory
    obtain ⟨L, alone⟩ := ih before (lasts.fits fits)
    obtain ⟨L', -, after⟩ := alone.start main before fits
    exact ⟨L', after⟩
  | @stepped m reached ih =>
    have lasts := Lasts.of_grown m.grown_step reached.onlyBuiltins
    obtain ⟨L, alone⟩ := ih (lasts.inMemory memory) (lasts.fits fits)
    obtain ⟨L', -, after⟩ := alone.step fits
    exact ⟨L', after⟩

/-- In every state that scripts lead to, the heap is made of records of their classes and whatever
names a record names the beginning of one. A step keeps all records where and what they are. It
makes at most one, which is what `NEW` does, and takes up the room of that. -/
theorem heap_integrity (reached : ReachedBy scripts closed config m) (memory : m.InMemory)
    (fits : m.dictionary.size ≤ 2 ^ 32) :
    ∃ records, m.Tidy (Script.Declares scripts) records ∧
      (∀ others, m.Tidy (Script.Declares scripts) others → others = records) ∧
      ((stateOf m.step).dictionary.size ≤ 2 ^ 32 →
        ∃ more, (stateOf m.step).Tidy (Script.Declares scripts) (records ++ more) ∧
          (more = [] ∧ (stateOf m.step).heap.pointer = m.heap.pointer ∨
            ∃ r, more = [r] ∧ m.status = .running ∧ m.code.fetch m.pc = .ok (.new r.shape) ∧
              (stateOf m.step).heap.pointer = m.heap.pointer + (2 + r.width))) := by
  obtain ⟨L, alone⟩ := reached.alone memory fits
  have tidy := alone.tidy fits reached.declared
  refine ⟨L.records, tidy, fun others => tidy.unique, fun fits' => ?_⟩
  obtain ⟨L', next, after⟩ := alone.step fits'
  have tidy' := after.tidy fits' reached.stepped.declared
  have room := alone.heaps.pointer_room
  have room' := after.heaps.pointer_room
  obtain same | ⟨r, ⟨running, fetched⟩, made⟩ := next.records
  · refine ⟨[], by rwa [List.append_nil, ← same], .inl ⟨rfl, ?_⟩⟩
    rw [room', same, room]
  · refine ⟨[r], made ▸ tidy', .inr ⟨r, rfl, running, fetched, ?_⟩⟩
    rw [room', made, headerRoom_append, room]
    simp [headerRoom, Header.size, Heap.headerSize]

/-- When the function has made its record, with one field, that is all of the heap. -/
theorem heap_integrity_fieldOfCall :
    let begun := stateOf (start ⟨13⟩
      ((make ⟨32, 8⟩ (.initial false) .empty).compiled Script.fieldOfCall))
    ∃ records, (afterSteps step 6 begun).Tidy (Script.Declares [Script.fieldOfCall]) records ∧
      headerRoom records = 3 := by
  intro begun
  have fresh : ReachedBy [Script.fieldOfCall] false ⟨32, 8⟩ (make ⟨32, 8⟩ (.initial false) .empty) :=
    .made
  have reached := ((fresh.compiled List.mem_cons_self nofun).started ⟨13⟩).afterSteps 6
  have memory : (afterSteps step 6 begun).InMemory :=
    ⟨by decide +kernel, World.codeFits_of_all (by decide +kernel)⟩
  obtain ⟨records, tidy, -, -⟩ := heap_integrity reached memory (by decide +kernel)
  exact ⟨records, tidy, tidy.tiles.length_eq.symm.trans (by decide +kernel)⟩

end Engine
end TaggedScript
