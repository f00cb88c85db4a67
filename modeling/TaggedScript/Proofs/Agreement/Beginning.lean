import TaggedScript.Proofs.Agreement.Expressions
import TaggedScript.Proofs.Agreement.Reading
import TaggedScript.Proofs.Compilation.Images

/-!
Where both sides begin. A flat script may stand outside of all functions, and in the world that
programs start in both sides agree, once the script was compiled.
-/
namespace TaggedScript

open TaggedScript.Expr

/-- What is inside a part is a part. -/
theorem parts_inductive : Expr.Inductive
    (fun e => ∀ q ∈ e.parts, ∀ p ∈ q.parts, p ∈ e.parts)
    (fun es => ∀ q ∈ partsAll es, ∀ p ∈ q.parts, p ∈ partsAll es)
    (fun fs => ∀ q ∈ partsFields fs, ∀ p ∈ q.parts, p ∈ partsFields fs) where
  literal s v := by simp [parts]
  var s x := by simp [parts]
  assign s x declare e ih := by grind [parts]
  field s r x ih := by grind [parts]
  setField s r x e ihr ihe := by grind [parts]
  call s f args ihf ihargs := by grind [parts]
  methodCall s r x args ihr ihargs := by grind [parts]
  function s name params body ih := by grind [parts]
  object s fields ih := by grind [parts]
  cond s c t e ihc iht ihe := by grind [parts]
  ret s e ih := by grind [parts]
  block s body ih := by grind [parts]
  nil := by simp [partsAll]
  cons e es ihe ihes := by grind [partsAll]
  noFields := by simp [partsFields]
  consField x e fields ihe ihfields := by grind [partsFields]

section
variable {s : Script} (readable : AllReadable s.body) (flat : s.Flat)
include readable flat

/-- The functions of a flat script that was read from a text. -/
theorem sound_of_part {e : Expr} (part : e ∈ partsAll s.body) {f : FunDef}
    (same : e.definition? = some f) : f.Sound := by
  have listed : f ∈ s.functions := List.mem_filterMap.mpr ⟨e, part, same⟩
  have written := readable e part
  have print := flat.prints e part
  have differ := written.params f same
  cases e with
  | function _ name params body =>
    cases same
    have this : thisName ∉ params := fun mem => written.this (List.mem_append_right _ mem)
    have inside (p : Expr) (mem : p ∈ partsAll body) : p ∈ partsAll s.body :=
      parts_inductive.list s.body _ part p (List.mem_cons_of_mem _ mem)
    exact {
      differ
      this
      print := fun mem => print (List.mem_append_right _ mem)
      ordered := flat.ordered _ listed
      parts := fun p mem => ⟨flat.shallow _ listed p mem, (readable p (inside p mem)).this,
        flat.prints p (inside p mem)⟩ }
  | _ => cases same

/-- A flat script may stand outside of all functions. -/
theorem takes_script (first : Nat) :
    (Place.top first).Takes (s.program first) first (partsAll s.body)
      (proceduresAll first s.body) where
  parts e part := {
    this := (readable e part).this
    print := flat.prints e part
    now := fun _ _ => List.not_mem_nil
    here := fun _ same => sound_of_part readable flat part same }
  functions := by
    refine ⟨rfl, fun i q found => ?_⟩
    have inside : i < (proceduresAll first s.body).length := (List.getElem?_eq_some_iff.mp found).1
    rw [Script.program, Program.placed, Script.procedures, if_neg (by simp),
      Nat.add_sub_cancel_left, List.getElem?_append_left inside, found]

end

/-- The objects that a world begins with, each of which stands for itself. -/
def World.itself (w : World) : List Value := (List.range w.objects.size).map fun i => .object ⟨i⟩

theorem World.getElem?_itself {w : World} {id : ObjectId} {v : Value}
    (found : w.itself[id.index]? = some v) : v = .object id ∧ id.index < w.objects.size := by
  rw [itself, List.getElem?_map, Option.map_eq_some_iff] at found
  obtain ⟨i, there, rfl⟩ := found
  obtain ⟨inside, rfl⟩ := List.getElem?_eq_some_iff.mp there
  exact ⟨by simp, by simpa using inside⟩

/-- All objects of the world are builtin functions without fields, and `print` is the first. -/
structure World.Untouched (w : World) : Prop extends w.Builtin where
  functions : ∀ id, id.index < w.objects.size →
    (w.object id).isCallable = true ∧ (w.object id).fields = []
  rooted : 0 < w.scopes.size
  this : w.global thisName = .undefined
  print : w.global printName = .object printId ∧ (w.object printId).body = .native .print

/-- The world that programs start in is untouched. -/
theorem World.untouched_initial (closed : Bool) : (World.initial closed).Untouched where
  toBuiltin := builtin_initial closed
  functions id inside := by
    have all : (World.initial closed).objects.all
        (fun o => o.isCallable && o.fields = []) = true := by
      cases closed <;> decide +kernel
    have known := Array.all_eq_true.mp all id.index inside
    rw [World.object, Array.getD_eq_getD_getElem?, Array.getElem?_eq_getElem inside,
      Option.getD_some]
    simpa using known
  rooted := by cases closed <;> decide +kernel
  this := by cases closed <;> decide +kernel
  print := ⟨by cases closed <;> decide +kernel, by cases closed <;> rfl⟩

section
variable {w : World} (untouched : w.Untouched) {ps : List Procedure} {c : Compiling}
  (adds : Compiling.Adds ⟨w, .empty⟩ ps c)
include untouched adds

/-- Each function that a world begins with is the same on both sides. -/
theorem sameObjects_untouched (capacity : Nat) :
    SameObjects (.placed w.objects.size ps) w.objects.size w.itself w
      ⟨[.undefined], c.world, [], capacity⟩ := by
  have old (id : ObjectId) (inside : id.index < w.objects.size) :
      Program.placed w.objects.size ps id = none ∧ c.world.object id = w.object id := by
    obtain same | ⟨p, known, -⟩ := adds.object id
    · exact same
    · rw [Program.placed, if_pos inside] at known
      cases known
  have new (id : ObjectId) (p : Procedure)
      (known : Program.placed w.objects.size ps id = some p) :
      ∃ code, c.world.object id = .ofCode p.name code := by
    obtain ⟨none, -⟩ | ⟨q, same, compiled⟩ := adds.object id
    · cases none.symm.trans known
    · cases same.symm.trans known
      obtain ⟨-, _, _, _, -, -, -, object⟩ := compiled
      exact ⟨_, object⟩
  exact {
    size := by simp [World.itself]
    distinct := by
      rw [World.itself, List.Nodup, List.pairwise_map]
      exact List.nodup_range.imp fun apart same => apart (by simpa using same)
    stands := fun id v found => by
      obtain ⟨rfl, inside⟩ := World.getElem?_itself found
      obtain ⟨none, object⟩ := old id inside
      have callable := (untouched.functions id inside).1
      have native := untouched.natives id
      refine .function ?_ (by rw [object, callable]) (by rw [object])
      cases body : (w.object id).body with
      | plain => simp [HostObject.isCallable, body] at callable
      | compiled code => simp [body] at native
      | native n =>
        rw [body] at native
        exact .builtin native body (by rw [object, body]) none
    fields := fun id v found => by
      obtain ⟨rfl, inside⟩ := World.getElem?_itself found
      rw [Memory.fieldsOf, (old id inside).2, (untouched.functions id inside).2]
      exact sameFields_nil
    before := fun id mem _ => by
      obtain ⟨i, listed, same⟩ := List.mem_map.mp mem
      cases same
      exact List.mem_range.mp listed
    callable := fun id p known => by
      obtain ⟨code, object⟩ := new id p known
      rw [object]
      exact ⟨rfl, rfl⟩
    after := fun id known _ => by
      obtain ⟨p, known⟩ := Option.isSome_iff_exists.mp known
      obtain ⟨code, object⟩ := new id p known
      rw [object]
      rfl }

/-- Both sides agree in the world that programs start in. -/
theorem here_untouched (calls : Array Nat) (capacity : Nat) :
    (Place.top w.objects.size).Here (.placed w.objects.size ps) w.itself
      { w with activeCalls := calls } ⟨[.undefined], c.world, [], capacity⟩ := by
  have others : { c.world with objects := w.objects, shapes := w.shapes } = w := adds.later.others
  have scopes : c.world.scopes = w.scopes := by rw [← others]
  have agree : Agree (.placed w.objects.size ps) w.objects.size w.itself w
      ⟨[.undefined], c.world, [], capacity⟩ := {
    output := by rw [← others]
    closed := by rw [← others]
    objects := sameObjects_untouched untouched adds capacity
    globals := {
      rooted := ⟨untouched.rooted, by rw [scopes]; exact untouched.rooted⟩
      values := fun x => by
        rw [World.global_of_scopes scopes]
        obtain none | ⟨id, same, inside⟩ := untouched.globals x
        · rw [none]
          exact .undefined
        · rw [same]
          exact .object (by simp [World.itself, inside])
      this := untouched.this
      print := untouched.print } }
  exact ⟨agree.locals rfl rfl rfl untouched.rooted (World.global_of_scopes rfl) rfl rfl, rfl⟩

end
end TaggedScript
