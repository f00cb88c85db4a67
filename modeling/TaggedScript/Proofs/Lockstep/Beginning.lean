import TaggedScript.Proofs.Agreement.Beginning
import TaggedScript.Proofs.Lockstep.Compiling
import TaggedScript.Proofs.Lockstep.Runs

/-!
Where lockstep begins: worlds that no program has acted on, and machines that have not run anything.
-/
namespace TaggedScript
namespace Lockstep
variable {R : Renumbering} {L : Lockstep R}

/-- A world with the builtin functions is like one that has other objects besides. -/
theorem worlds_untouched {w v : World} (untouched : v.Untouched)
    (objects : ∀ id, id.index < v.objects.size → w.object id = v.object id)
    (scopes : w.scopes = v.scopes) (output : w.output = v.output) (closed : w.closed = v.closed)
    (fixed : ∀ id : ObjectId, id.index < v.objects.size → R.object id = id)
    (all : L.objects = v.objects.size) (none : L.shapes = 0) : L.Worlds w v where
  functions id known := by
    rw [all] at known
    have native := untouched.natives id
    have callable := (untouched.functions id known).1
    rw [fixed id known, objects id known]
    refine ⟨rfl, ?_⟩
    rw [HostObject.isCallable] at callable
    generalize (v.object id).body = b at native callable
    cases b with
    | plain => cases callable
    | compiled code => exact native.elim
    | native n =>
      obtain rfl | ⟨op, rfl⟩ := native
      · exact .print
      · exact .operator op
  shapes id known := by
    rw [none] at known
    exact absurd known (Nat.not_lt_zero _)
  globals x := by
    rw [World.global_of_scopes scopes]
    obtain missing | ⟨id, found, inside⟩ := untouched.globals x
    · rw [missing]
      exact ⟨trivial, rfl⟩
    · have known : id.index < L.objects := by rw [all]; exact inside
      rw [found, Renumbering.value_object, fixed id inside]
      exact ⟨known, rfl⟩
  fields id known x := by
    rw [all] at known
    have same : w.field id x = v.field id x := by rw [World.field, World.field, objects id known]
    rw [fixed id known, same, untouched.fields id x]
    exact ⟨trivial, rfl⟩
  output := output
  closed := closed
  scopes := by
    rw [scopes]
    exact ⟨untouched.rooted, untouched.rooted⟩

/-- Heaps without records. -/
theorem heaps_empty (none : L.records = []) (v : World) (capacity : Nat) :
    L.Heaps v (.empty capacity) (.empty capacity) where
  capacity := rfl
  words := .nil
  tiles := by
    rw [none]
    rfl
  classes r mem := by
    rw [none] at mem
    cases mem

/-- Machines that have not run anything have the same memory. -/
theorem Compilings.stores {c c' : Compiling} (h : L.Compilings c c') (none : L.records = [])
    (config : EngineConfig) (f g : ObjectId) :
    L.Stores (.begin f (.make config c.world c.dictionary))
      (.begin g (.make config c'.world c'.dictionary)) where
  config := rfl
  left := h.left
  right := h.right
  worlds := h.worlds
  heaps := heaps_empty none _ _

/-- Runs that begin with a function and its counterpart. -/
def outermost (L : Lockstep R) (id : ObjectId) (c c' : Code) : Outermost R :=
  ⟨L, R.object id, id, c, c', Going L c c'⟩

theorem outermost_closed (L : Lockstep R) (id : ObjectId) (c c' : Code) :
    (L.outermost id c c').Closed := fun _ _ going => going.fetches

/-- A function with code has a counterpart with code. -/
theorem Programs.code {w w' : World} (h : L.Programs w w') {id : ObjectId}
    (known : id.index < L.objects) {c' : Code} (found : (w'.object id).code? = some c') :
    ∃ c, (w.object (R.object id)).code? = some c ∧ c.slotCount = c'.slotCount ∧
      Going L c c' 0 0 := by
  have alike := (h.functions id known).body
  simp only [HostObject.code?] at found ⊢
  generalize (w.object (R.object id)).body = b, (w'.object id).body = b' at alike found
  cases alike with
  | print | operator => cases found
  | compiled alike =>
    cases found
    exact ⟨_, rfl, rfl, .of_alikes alike⟩

end Lockstep
end TaggedScript
