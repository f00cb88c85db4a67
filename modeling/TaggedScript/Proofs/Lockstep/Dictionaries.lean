import Mathlib.Data.List.Nodup
import Mathlib.Data.List.Perm.Subperm
import TaggedScript.Proofs.Compilation.Correctness
import TaggedScript.Proofs.Lockstep.Beginning

/-!
What a dictionary holds before a script is compiled does not show: the code has other indices in it
and is the same otherwise, and a run of it cannot be told from one with an empty dictionary.
-/
namespace TaggedScript

/-- The word with another index, if it is one of an entry. -/
def Word.reindex (move : UInt32 → UInt32) (w : Word) : Word :=
  match w.tag with
  | some (.interned index) => .interned (move index)
  | _ => w

/-- The instruction with another index in its operand. -/
def Instr.reindex (move : UInt32 → UInt32) : Instr → Instr
  | const w => const (w.reindex move)
  | lookup name => lookup (name.reindex move)
  | register name => register (name.reindex move)
  | new shape => new (shape.reindex move)
  | get name => get (name.reindex move)
  | put name => put (name.reindex move)
  | i => i

/-- The code is the other one with other indices. -/
def Code.Reindexed (move : UInt32 → UInt32) (c c' : Code) : Prop :=
  ∃ parameterCount slotCount is, c' = .ofInstrs parameterCount slotCount is ∧
    c = .ofInstrs parameterCount slotCount (is.map (Instr.reindex move))

namespace Lockstep
variable {R : Renumbering} {L : Lockstep R}

/-- The index on the left side of what has an index on the right side. -/
def index (L : Lockstep R) (i : UInt32) : UInt32 :=
  match L.right.get? i with
  | some v => (L.left.intern (R.value v)).1
  | none => i

theorem Same.reindex {v : Value} {w u : Word} (h : L.Same v w u) (fits : L.right.size ≤ 2 ^ 32) :
    w = u.reindex L.index := by
  have word : w = (encode (R.value v) L.left).1 := (congrArg Prod.fst h.left).symm
  have word' : u = (encode v L.right).1 := (congrArg Prod.fst h.right).symm
  have tags : ∃ t, (encode v L.right).1.tag = some t ∧ L.right.Means t v := by
    rw [← word']
    exact h.right.means fits
  rw [word', Word.reindex]
  cases v with
  | str | object | shape =>
    obtain ⟨t, tag, means⟩ := tags
    rw [encode, Word.tag_interned] at tag
    cases tag
    cases means with
    | entry found =>
      simp only [encode, Word.tag_interned, index, found]
      exact word
  | undefined =>
    simp only [encode, Word.tag_undefined]
    exact word
  | bool b =>
    simp only [encode, Word.tag_ofBool]
    exact word
  | int n =>
    simp only [encode, Word.tag_ofInt]
    exact word
  | ref offset =>
    simp only [encode, Word.tag_heap]
    exact word

end Lockstep

section
variable {R : Renumbering} {L : Lockstep R} (fits : L.right.size ≤ 2 ^ 32)
include fits

/-- Instructions at the same place differ in no more than the index in their operand. -/
theorem Instr.Alike.reindex {jumps : Nat → Nat → Prop} {i j : Instr} (h : i.Alike L jumps j)
    (fixed : ∀ t s, jumps t s → t = s) : i = j.reindex L.index := by
  cases h with
  | const same => exact congrArg Instr.const (same.reindex fits)
  | lookup same => exact congrArg Instr.lookup (same.reindex fits)
  | register same => exact congrArg Instr.register (same.reindex fits)
  | new same => exact congrArg Instr.new (same.reindex fits)
  | get same => exact congrArg Instr.get (same.reindex fits)
  | put same => exact congrArg Instr.put (same.reindex fits)
  | goto jump => exact congrArg Instr.goto (fixed _ _ jump)
  | jumpIfFalse jump => exact congrArg Instr.jumpIfFalse (fixed _ _ jump)
  | load | store | dup | pop | swap | funcall | ret | print => rfl

theorem Alikes.reindex {base : Nat} {is js : List Instr} (h : Alikes L base base is js) :
    is = js.map (Instr.reindex L.index) := by
  have fixed (t s : Nat) (here : Abreast base base is t s) : t = s := by
    obtain ⟨before, after, -, rfl, rfl⟩ := here
    rfl
  unfold Alikes at h
  generalize Abreast base base is = jumps at h fixed
  induction h with
  | nil => rfl
  | cons same _ ih => rw [List.map_cons, ← ih, ← same.reindex fits fixed]

/-- A function with a counterpart has its code with other indices. -/
theorem Lockstep.Counterparts.reindexed {o o' : HostObject} (h : L.Counterparts o o') {c' : Code}
    (found : o'.code? = some c') : ∃ c, o.code? = some c ∧ c.Reindexed L.index c' := by
  have alike := h.body
  simp only [HostObject.code?] at found ⊢
  generalize o.body = b, o'.body = b' at alike found
  cases alike with
  | print | operator => cases found
  | compiled alike =>
    cases found
    refine ⟨_, rfl, _, _, _, rfl, ?_⟩
    rw [List.map_append, ← alike.reindex fits]
    rfl

end

/-- The word of what needs an entry is that of its index. -/
theorem Dictionary.Spells.intern {d : Dictionary} {v : Value} {w : Word} (h : d.Spells v w)
    (needed : v.isInterned = true) : ∃ index, w = .interned index ∧ d.intern v = (index, d) := by
  have word : (encode v d).1 = w := congrArg Prod.fst h
  have same : (encode v d).2 = d := congrArg Prod.snd h
  cases v with
  | undefined | bool | int | ref => cases needed
  | str | object | shape => exact ⟨_, word.symm, Prod.ext rfl same⟩

theorem Renumbering.isInterned (R : Renumbering) (v : Value) :
    (R.value v).isInterned = v.isInterned := by cases v <;> rfl

namespace Lockstep
variable {R : Renumbering} {L : Lockstep R}

section
variable (covered : L.Covers) (interned : L.right.Interned)
include covered interned

/-- An entry of one dictionary has an entry in the other. -/
theorem Covers.intern {v : Value} (entry : v ∈ L.right.entries) :
    ∃ i, L.left.intern (R.value v) = (i, L.left) ∧ L.left.Spells (R.value v) (.interned i) := by
  obtain ⟨w, spells⟩ := covered v entry
  have needed := (R.isInterned v).trans (interned.needed v entry)
  obtain ⟨i, rfl, found⟩ := spells.intern needed
  exact ⟨i, found, spells⟩

theorem Covers.size_le : L.right.size ≤ L.left.size := by
  have known : L.right.entries.toList.map R.value ⊆ L.left.entries.toList := by
    intro v mem
    obtain ⟨u, entry, rfl⟩ := List.mem_map.mp mem
    obtain ⟨i, found, -⟩ := covered.intern interned (Array.mem_toList_iff.mp entry)
    obtain ⟨j, there, -⟩ := Dictionary.intern_eq_iff.mp found
    exact Array.mem_toList_iff.mpr (Array.mem_of_getElem? there)
  have apart := (List.nodup_map_iff R.value_injective).mpr interned.distinct
  simpa [Dictionary.size] using (apart.subperm known).length_le

/-- Different entries have different indices. -/
theorem Covers.index_injective (fits : L.left.size ≤ 2 ^ 32) {i j : UInt32}
    (inside : i.toNat < L.right.size) (inside' : j.toNat < L.right.size)
    (same : L.index i = L.index j) : i = j := by
  have look {i : UInt32} (inside : i.toNat < L.right.size) :
      ∃ v, L.right.entries[i.toNat]? = some v ∧ L.left.Spells (R.value v) (.interned (L.index i)) := by
    have found := Array.getElem?_eq_getElem inside
    obtain ⟨k, index, spells⟩ := covered.intern interned (Array.mem_of_getElem? found)
    refine ⟨_, found, ?_⟩
    rw [Lockstep.index, Dictionary.get?, found]
    simpa only [index] using spells
  obtain ⟨v, found, spells⟩ := look inside
  obtain ⟨u, found', spells'⟩ := look inside'
  rw [same] at spells
  obtain rfl := R.value_injective (spells.value_unique fits spells')
  have place := (List.getElem?_inj (by simpa [Dictionary.size] using inside) interned.distinct).mp
    ((Array.getElem?_toList ..).trans (found.trans (found'.symm.trans (Array.getElem?_toList ..).symm)))
  exact UInt32.toNat_inj.mp place

end

end Lockstep

namespace Engine

/-- Steps that show the same. -/
inductive SameStep (w w' : World) : Except RunError Step → Except RunError Step → Prop
  | continue : SameStep w w' (.ok .continue) (.ok .continue)
  | done {v u : Value} : w.text v = w'.text u → SameStep w w' (.ok (.done v)) (.ok (.done u))
  | error (e : RunError) : SameStep w w' (.error e) (.error e)

/-- From the start of two functions on the machines cannot be told apart, at no step, as long as the
indices fit into words. -/
def RunsAlike (main main' : ObjectId) (m m' : Engine) : Prop :=
  (∃ n n', start main m = .ok () n ∧ start main' m' = .ok () n' ∧
    ∀ k, let a := afterSteps step k n
      let b := afterSteps step k n'
      (a.dictionary.size ≤ 2 ^ 32 → b.dictionary.size ≤ 2 ^ 32 → a.LooksLike b) ∧
      ((stateOf a.step).dictionary.size ≤ 2 ^ 32 → (stateOf b.step).dictionary.size ≤ 2 ^ 32 →
        SameStep (stateOf a.step).world (stateOf b.step).world (outcome a.step) (outcome b.step))) ∨
  ∃ e n n', start main m = .error e n ∧ start main' m' = .error e n' ∧ n.LooksLike n'

end Engine

theorem Lockstep.Comes.sameStep {R : Renumbering} {L : Lockstep R} {r r' : Except RunError Step}
    (h : L.Comes r r') {w w' : World} (programs : L.Programs w w') : Engine.SameStep w w' r r' := by
  cases h with
  | «continue» => exact .continue
  | done same => exact .done (same.moved ▸ programs.text same.known)
  | error e => exact .error e

/-- Machines that have not run anything run a function and its counterpart alike. -/
theorem Lockstep.Compilings.runsAlike {R : Renumbering} {L : Lockstep R} {c c' : Compiling}
    (h : L.Compilings c c') (none : L.records = []) {id : ObjectId} (known : id.index < L.objects)
    {code' : Code} (found : (c'.world.object id).code? = some code') {config : EngineConfig}
    (memory : (Engine.make config c.world c.dictionary).InMemory)
    (memory' : (Engine.make config c'.world c'.dictionary).InMemory) :
    Engine.RunsAlike (R.object id) id (.make config c.world c.dictionary)
      (.make config c'.world c'.dictionary) := by
  obtain ⟨code, left, slots, going⟩ := h.worlds.code known found
  let O := L.outermost id code code'
  have closed : O.Closed := L.outermost_closed id code code'
  have name := (h.worlds.functions id known).name
  obtain ⟨n, n', started, started', engines⟩ | ⟨e, n, n', failed, failed', -, looks⟩ :=
    Stores.start (O := O) (h.stores none config _ _) (.refl L) rfl ⟨left, found, name⟩ slots going
      memory memory'
  · refine .inl ⟨n, n', started, started', fun k => ⟨fun fits fits' => ?_, fun fits fits' => ?_⟩⟩
    · obtain ⟨L', -, -, -, here⟩ := engines.afterSteps closed k fits fits'
      exact here.looksLike fits fits'
    · obtain ⟨L₁, -, -, -, here⟩ := engines.afterSteps closed k
        (Nat.le_trans (Engine.grown_step _).size_le fits)
        (Nat.le_trans (Engine.grown_step _).size_le fits')
      obtain ⟨L₂, -, after, comes⟩ := here.step closed fits fits'
      exact comes.sameStep (after.stores fits fits').1.toPrograms
  · exact .inr ⟨e, n, n', failed, failed', looks⟩

/-- The world in a host that has other objects and classes. -/
def World.among (w : World) (others : Array HostObject) (classes : Array Shape) : World :=
  { w with objects := w.objects ++ others, shapes := w.shapes ++ classes }

/-- What is in a host besides does not disturb the compiler. -/
theorem Lockstep.compilings_among {w : World} (untouched : w.Untouched) (bare : w.shapes = #[])
    (others : Array HostObject) (classes : Array Shape) (d : Dictionary) :
    Compilings (R := .shift w.objects.size others.size classes.size)
      ⟨w.objects.size, 0, [], d, .empty⟩ ⟨w.among others classes, d⟩ ⟨w, .empty⟩ where
  left := rfl
  right := rfl
  objects := rfl
  shapes := by simp [bare]
  worlds := worlds_untouched untouched (fun id inside => by
    simp only [World.object, World.among, Array.getD_eq_getD_getElem?]
    rw [Array.getElem?_append_left inside]) rfl rfl rfl (fun id inside => if_pos inside) rfl rfl
  nextObject k := by
    have later : ¬ w.objects.size + k < w.objects.size := by omega
    simp [Renumbering.shift, World.among, later, Nat.add_right_comm]
  nextShape k := by simp [Renumbering.shift, World.among, bare, Nat.add_comm]

/-- What compiling a script with a full and with an empty dictionary comes to. -/
structure Compiling.Unaware (shift : Nat) (main main' : ObjectId) (c c' : Compiling) : Prop where
  shifted : main = ⟨main'.index + shift⟩
  /-- All code is the same but for the indices. -/
  code : ∃ move : UInt32 → UInt32,
    (∀ i j, i.toNat < c'.dictionary.size → j.toNat < c'.dictionary.size → move i = move j → i = j) ∧
    ∀ id code', (c'.world.object id).code? = some code' →
      ∃ code, (c.world.object ⟨id.index + shift⟩).code? = some code ∧ code.Reindexed move code'
  runs : ∀ config, (Engine.make config c.world c.dictionary).InMemory →
    (Engine.make config c'.world c'.dictionary).InMemory →
    Engine.RunsAlike main main' (.make config c.world c.dictionary)
      (.make config c'.world c'.dictionary)

/-- A function that was compiled is none of those that were there before. -/
theorem Compiling.Adds.index_le {w : World} (bare : w.Builtin) {d : Dictionary}
    {ps : List Procedure} {c : Compiling} (adds : Compiling.Adds ⟨w, d⟩ ps c) {id : ObjectId}
    {code : Code} (found : (c.world.object id).code? = some code) :
    w.objects.size ≤ id.index := by
  by_contra before
  obtain ⟨-, same⟩ | ⟨p, known, -⟩ := adds.object id
  · rw [same, bare.code?_eq_none] at found
    cases found
  · rw [Program.placed, if_pos (Nat.lt_of_not_le before)] at known
    cases known

/-- The function that a script is itself has code. -/
theorem compileScript_code {s : Script} {c d : Compiling} {main : ObjectId}
    (compiled : compileScript s c = .ok main d) :
    ∃ code, (d.world.object main).code? = some code := by
  rw [compileScript_eq] at compiled
  obtain ⟨code, e, -, made⟩ := ok_of_bind compiled
  cases made
  simp [World.object, HostObject.ofCode, HostObject.code?]

/-- A script can be compiled with any dictionary or with none. Its code is the same but for the
indices, and at each step of a run the machines have used the same room, show the same trace and
output, and come to the same. -/
theorem Script.dictionary_invisible (s : Script) (closed : Bool) (others : Array HostObject)
    (classes : Array Shape) (d : Dictionary) :
    match compileScript s ⟨(World.initial closed).among others classes, d⟩,
      compileScript s ⟨.initial closed, .empty⟩ with
    | .ok main c, .ok main' c' =>
      c.dictionary.size ≤ 2 ^ 32 → Compiling.Unaware others.size main main' c c'
    | .error e _, .error e' _ => e = e'
    | _, _ => False := by
  have bare : (World.initial closed).shapes = #[] := by cases closed <;> rfl
  have untouched := World.untouched_initial closed
  generalize World.initial closed = w at bare untouched
  have compiled := Lockstep.twins_script _ s _ _
    (Lockstep.compilings_among untouched bare others classes d)
  have built := builds_script s ⟨w, .empty⟩
  generalize compileScript s ⟨w.among others classes, d⟩ = r at compiled
  generalize second : compileScript s ⟨w, .empty⟩ = r' at compiled built
  rcases r with ⟨main, c⟩ | ⟨e, c⟩ <;> rcases r' with ⟨main', c'⟩ | ⟨e', c'⟩
  · obtain ⟨L, larger, ⟨rfl, known⟩, beside⟩ := compiled
    intro fits
    have adds : Compiling.Adds ⟨w, .empty⟩ _ c' := built
    have interned : L.right.Interned := beside.right ▸ adds.interned rfl
    have covered : L.Covers := larger.covers fun v mem => by simp [Dictionary.empty] at mem
    rw [beside.left] at fits
    have fits' : L.right.size ≤ 2 ^ 32 := Nat.le_trans (covered.size_le interned) fits
    have moved {id : ObjectId} {code : Code} (found : (c'.world.object id).code? = some code) :
        Renumbering.object (.shift w.objects.size others.size classes.size) id =
          ⟨id.index + others.size⟩ :=
      if_neg (Nat.not_lt.mpr (adds.index_le untouched.toBuiltin found))
    obtain ⟨code', found⟩ := compileScript_code second
    refine {
      shifted := moved found
      code := ⟨L.index, fun i j => ?_, fun id code' found => ?_⟩
      runs := fun config => beside.runsAlike larger.records known found }
    · rw [beside.right]
      exact covered.index_injective interned fits
    · have inside : id.index < L.objects := by
        rw [beside.objects]
        exact World.lt_of_code found
      rw [← moved found]
      exact (beside.worlds.functions id inside).reindexed fits' found
  · exact compiled.elim
  · exact compiled.elim
  · exact compiled.1

/-- A dictionary with a name of the script, a class and an object of the host. -/
theorem Script.dictionary_invisible_fieldOfCall :
    let w := (World.initial false).among #[.plain []] #[⟨"object", ["a"]⟩]
    let c := stateOf (compileScript fieldOfCall
      ⟨w, .internAll .empty [.shape ⟨0⟩, .object ⟨12⟩, .str "a"]⟩)
    let c' := stateOf (compileScript fieldOfCall ⟨.initial false, .empty⟩)
    Compiling.Unaware 1 ⟨14⟩ ⟨13⟩ c c' ∧
      Engine.RunsAlike ⟨14⟩ ⟨13⟩ (.make ⟨32, 8⟩ c.world c.dictionary)
        (.make ⟨32, 8⟩ c'.world c'.dictionary) := by
  intro w c c'
  have same := dictionary_invisible fieldOfCall false #[.plain []] #[⟨"object", ["a"]⟩]
    (.internAll .empty [.shape ⟨0⟩, .object ⟨12⟩, .str "a"])
  have alone : compileScript fieldOfCall ⟨.initial false, .empty⟩ = .ok ⟨13⟩ c' := rfl
  rcases compiled : compileScript fieldOfCall
      ⟨w, .internAll .empty [.shape ⟨0⟩, .object ⟨12⟩, .str "a"]⟩ with ⟨main, e⟩ | ⟨e, e'⟩ <;>
    rw [compiled, alone] at same
  · have state : c = e := congrArg stateOf compiled
    rw [← state] at same
    have unaware := same (by decide +kernel)
    obtain rfl : main = ⟨14⟩ := unaware.shifted
    exact ⟨unaware, unaware.runs _ ⟨by decide, World.codeFits_of_all (by decide +kernel)⟩
      ⟨by decide, World.codeFits_of_all (by decide +kernel)⟩⟩
  · exact same.elim

end TaggedScript
