import Mathlib.Data.List.Perm.Basic
import TaggedScript.Proofs.Compilation.Emission
import TaggedScript.Proofs.Compilation.Rejections

/-!
Where a function finds the names that its body mentions. A pass over the body collects what it
declares, and another makes its code; both come to the same expressions and leave out the bodies of
functions inside. A name with a slot is read and written there, and any other is a global.
-/
namespace TaggedScript

/-- What the code of a function does with names. -/
inductive Access where
  | read (x : String)
  | write (x : String)
  /-- A function inside gives itself to the global of its name. -/
  | define (x : String)
  /-- A call of the global `print` that `PRINT` does. -/
  | print
deriving DecidableEq

/-- The access as the text has it. What `PRINT` does is a call of a name there. -/
def Access.spelled : Access → Access
  | print => read printName
  | a => a

namespace Expr

/-- What an expression itself does with a name. -/
def access? : Expr → Option Access
  | var _ x => some (.read x)
  | assign _ x _ _ => some (.write x)
  | function _ (some x) _ _ => some (.define x)
  | _ => none

mutual

/-- What is done with names when an expression is evaluated, in this order. -/
def accesses (slots : List String) : Expr → List Access
  | literal .. => []
  | var _ x => [.read x]
  | assign _ x _ e => e.accesses slots ++ [.write x]
  | field _ r _ => r.accesses slots
  | setField _ r _ e => e.accesses slots ++ r.accesses slots
  | call _ f args =>
    if isPrint slots f args then accessesAll slots args ++ [.print]
    else f.accesses slots ++ accessesAll slots args
  | methodCall _ r _ args => r.accesses slots ++ accessesAll slots args
  | function _ name? _ _ => name?.toList.map .define
  | object _ fields => accessesFields slots fields
  | cond _ c t e => c.accesses slots ++ accessesAll slots t ++ accessesAll slots e
  | ret _ e => e.accesses slots
  | block _ body => accessesAll slots body

def accessesAll (slots : List String) : List Expr → List Access
  | [] => []
  | e :: es => e.accesses slots ++ accessesAll slots es

def accessesFields (slots : List String) : List (String × Expr) → List Access
  | [] => []
  | (_, e) :: fields => e.accesses slots ++ accessesFields slots fields

end

/-- What is done with names when an expression is evaluated is what the expressions in it do. -/
theorem accesses_perm_inductive (slots : List String) : Expr.Inductive
    (fun e => ((e.accesses slots).map Access.spelled).Perm (e.own.filterMap access?))
    (fun es => ((accessesAll slots es).map Access.spelled).Perm ((ownAll es).filterMap access?))
    (fun fs =>
      ((accessesFields slots fs).map Access.spelled).Perm ((ownFields fs).filterMap access?)) where
  literal s v := .refl _
  var s x := .refl _
  assign s x declare e ih := by
    simp only [accesses, own, List.map_append, List.filterMap_cons, access?]
    exact List.perm_append_comm.trans (ih.cons _)
  field s r x ih := by simpa [accesses, own, List.filterMap_cons, access?] using ih
  setField s r x e ihr ihe := by
    simp only [accesses, own, List.map_append, List.filterMap_cons, List.filterMap_append, access?]
    exact List.perm_append_comm.trans (ihr.append ihe)
  call s f args ihf ihargs := by
    simp only [accesses, own, List.filterMap_cons, List.filterMap_append, access?]
    split
    · rename_i printed
      obtain ⟨t, arg, rfl, rfl, -⟩ := eq_of_isPrint printed
      rw [List.map_append]
      exact List.perm_append_comm.trans (ihargs.cons (Access.read printName))
    · rw [List.map_append]
      exact ihf.append ihargs
  methodCall s r x args ihr ihargs := by
    simpa [accesses, own, List.filterMap_cons, access?] using ihr.append ihargs
  function s name? params body _ := by cases name? <;> exact .refl _
  object s fields ih := by simpa [accesses, own, List.filterMap_cons, access?] using ih
  cond s c t e ihc iht ihe := by
    simpa [accesses, own, List.filterMap_cons, access?] using (ihc.append iht).append ihe
  ret s e ih := by simpa [accesses, own, List.filterMap_cons, access?] using ih
  block s body ih := by simpa [accesses, own, List.filterMap_cons, access?] using ih
  nil := .refl _
  cons e es ihe ihes := by simpa [accessesAll, ownAll] using ihe.append ihes
  noFields := .refl _
  consField x e fs ihe ihfs := by simpa [accessesFields, ownFields] using ihe.append ihfs

end Expr

open TaggedScript.Expr

/-- The instruction does what the access says. A name is that of a slot or has none, and then its
word is the one that it has in the dictionary. -/
inductive Emitted (d : Dictionary) (slots : List String) : Access → Instr → Prop
  | load {x : String} {i : Nat} (slot : slots[i]? = some x) : Emitted d slots (.read x) (.load i)
  | lookup {x : String} {w : Word} (global : x ∉ slots) (word : d.Spells (.str x) w) :
    Emitted d slots (.read x) (.lookup w)
  | store {x : String} {i : Nat} (slot : slots[i]? = some x) : Emitted d slots (.write x) (.store i)
  | register {x : String} {w : Word} (global : x ∉ slots) (word : d.Spells (.str x) w) :
    Emitted d slots (.write x) (.register w)
  | define {x : String} {w : Word} (word : d.Spells (.str x) w) :
    Emitted d slots (.define x) (.register w)
  | print (global : printName ∉ slots) : Emitted d slots .print .print

/-- The instructions that read or write variables. -/
def Instr.isAccess : Instr → Bool
  | load _ | store _ | lookup _ | register _ | print => true
  | _ => false

/-- The instructions that read or write variables do these accesses one after the other. -/
def Performs (final : Compiling) (slots : List String) (is : List Instr) (as : List Access) :
    Prop :=
  List.Forall₂ (Emitted final.dictionary slots) as (is.filter Instr.isAccess)

namespace Performs
variable {final : Compiling} {slots : List String} {is js : List Instr} {as bs : List Access}

theorem append (h : Performs final slots is as) (g : Performs final slots js bs) :
    Performs final slots (is ++ js) (as ++ bs) := by
  rw [Performs, List.filter_append]
  exact List.rel_append h g

theorem other {js : List Instr} (h : js.filter Instr.isAccess = []) :
    Performs final slots js [] := by
  rw [Performs, h]
  exact .nil

/-- Instructions that read and write no variables. -/
theorem step (h : Performs final slots is as) {js : List Instr}
    (plain : js.filter Instr.isAccess = []) : Performs final slots (is ++ js) as := by
  have whole := h.append (other plain)
  rwa [List.append_nil] at whole

end Performs

section
variable {final : Compiling}

theorem performs_read (slots : List String) (x : String) :
    Emits final (Compile.read slots x) fun is => Performs final slots is [.read x] := by
  unfold Compile.read
  cases slot : slotOf? slots x with
  | some i => exact .pure (.cons (.load (getElem?_slotOf? slot)) .nil)
  | none =>
    exact (Emits.name x).bind fun w => .pure fun named =>
      .cons (.lookup (slotOf?_eq_none.mp slot) named) .nil

theorem performs_write (slots : List String) (x : String) :
    Emits final (Compile.write slots x) fun is => Performs final slots is [.write x] := by
  unfold Compile.write
  cases slot : slotOf? slots x with
  | some i => exact .pure (.cons (.store (getElem?_slotOf? slot)) .nil)
  | none =>
    exact (Emits.name x).bind fun w => .pure fun named =>
      .cons (.register (slotOf?_eq_none.mp slot) named) .nil

theorem performs_inductive (slots : List String) : Expr.Inductive
    (fun e => ∀ base, Emits final (Compile.expr slots base e) fun is =>
      Performs final slots is (e.accesses slots))
    (fun es => ∀ base,
      (Emits final (Compile.all slots base es) fun is =>
        Performs final slots is (accessesAll slots es)) ∧
      Emits final (Compile.block slots base es) fun is =>
        Performs final slots is (accessesAll slots es))
    (fun fs => ∀ base, Emits final (Compile.fields slots base fs) fun is =>
      Performs final slots is (accessesFields slots fs)) where
  literal s v base := by
    simp only [Compile.expr, accesses]
    exact (Emits.of_makes (.of_builds (.literal v))).bind fun w => .pure fun _ => .other rfl
  var s x base := by
    simp only [Compile.expr, accesses]
    exact performs_read slots x
  assign s x declare e ih base := by
    simp only [Compile.expr, accesses]
    exact (ih base).bind fun value => (performs_write slots x).bind fun last =>
      .pure fun written valued => (valued.step rfl).append written
  field s r x ih base := by
    simp only [Compile.expr, accesses]
    exact (ih base).bind fun receiver => (Emits.name x).bind fun w =>
      .pure fun named received => received.step rfl
  setField s r x e ihr ihe base := by
    simp only [Compile.expr, accesses]
    exact (ihe base).bind fun value => (ihr _).bind fun receiver => (Emits.name x).bind fun w =>
      .pure fun named received valued => ((valued.step rfl).append received).step rfl
  call s f args ihf ihargs base := by
    simp only [Compile.expr, accesses, printed?_eq]
    by_cases printed : isPrint slots f args = true
    · rw [if_pos printed, if_pos printed]
      obtain ⟨t, arg, rfl, rfl, global⟩ := eq_of_isPrint printed
      exact (ihargs base).1.bind fun values => .pure fun valued =>
        valued.append (.cons (.print global) .nil)
    · rw [if_neg printed, if_neg printed]
      exact (ihf base).bind fun callee => (ihargs _).1.bind fun values =>
        .pure fun valued called => ((called.step rfl).append valued).step rfl
  methodCall s r x args ihr ihargs base := by
    simp only [Compile.expr, accesses]
    exact (ihr base).bind fun receiver => (Emits.name x).bind fun w => (ihargs _).1.bind
      fun values => .pure fun valued named received =>
        ((received.step rfl).append valued).step rfl
  function s name? params body _ base := by
    simp only [Compile.expr, accesses]
    refine (Emits.functionWith s name? params body).bind fun id =>
      (Emits.constant (.object id)).bind fun w => ?_
    cases name? with
    | none => exact .pure fun _ _ => .other rfl
    | some x =>
      exact (Emits.name x).bind fun w' => .pure fun named _ _ => .cons (.define named) .nil
  object s entries ih base := by
    simp only [Compile.expr, accesses]
    exact (Emits.of_makes (.newClass _)).bind fun shape => (ih base).bind fun values =>
      .pure fun valued _ => valued.step rfl
  cond s c t e ihc iht ihe base := by
    simp only [Compile.expr, accesses]
    exact (ihc base).bind fun test => (iht _).2.bind fun first => (ihe _).2.bind fun second =>
      .pure fun others chosen tested =>
        ((((tested.step rfl).append chosen).step rfl).append others)
  ret s e ih base := by
    simp only [Compile.expr, accesses]
    exact (ih base).bind fun value => .pure fun valued => valued.step rfl
  block s body ih base := by
    simp only [Compile.expr, accesses]
    exact (ih base).2
  nil base := by
    simp only [Compile.all, Compile.block, accessesAll]
    exact ⟨.pure .nil, .pure (.other rfl)⟩
  cons e es ihe ihes base := by
    simp only [Compile.all, Compile.block, accessesAll]
    exact ⟨(ihe base).bind fun first => (ihes _).1.bind fun rest =>
        .pure fun others valued => valued.append others,
      (ihe base).bind fun first => (ihes _).2.bind fun rest =>
        .pure fun others valued => (valued.step rfl).append others⟩
  noFields base := by
    simp only [Compile.fields, accessesFields]
    exact .pure .nil
  consField x e fs ihe ihfs base := by
    simp only [Compile.fields, accessesFields]
    exact (ihe base).bind fun first => (ihfs _).bind fun rest =>
      .pure fun others valued => valued.append others

end

namespace FunDef

theorem Distinct.extendSlots_eq {f : FunDef} (h : f.Distinct) :
    extendSlots (thisName :: f.params) (declaredAll f.body) = f.slotNames :=
  extendSlots_declaredAll f (List.nodup_cons.mpr ⟨h.this, h.params⟩)

/-- The code of a function has the slots of its names, the receiver and the parameters first. The
accesses of its body are all that the expressions in it do with names, and its instructions do them
one after the other. -/
structure Resolved (f : FunDef) (d : Dictionary) (code : Code) (listing : List (Nat × Instr)) :
    Prop where
  decodes : code.decodeAll = .ok listing
  parameters : code.parameterCount = f.params.length + 1
  slots : code.slotCount = f.slotNames.length
  first : thisName :: f.params <+: f.slotNames
  distinct : f.slotNames.Nodup
  emitted : List.Forall₂ (Emitted d f.slotNames) (accessesAll f.slotNames f.body)
    ((listing.map (·.2)).filter Instr.isAccess)
  complete : ((accessesAll f.slotNames f.body).map Access.spelled).Perm
    ((ownAll f.body).filterMap access?)

/-- A global gets the name of a slot only from a function inside that has this name. -/
theorem Resolved.definition_of_register {f : FunDef} {d : Dictionary} {code : Code}
    {listing : List (Nat × Instr)} (h : f.Resolved d code listing) (fits : d.size ≤ 2 ^ 32)
    {p : Nat × Instr} (mem : p ∈ listing) {w : Word} {x : String} (register : p.2 = .register w)
    (name : d.lookup? w = some (.str x)) (slot : x ∈ f.slotNames) :
    ∃ e ∈ ownAll f.body, ∃ g, e.definition? = some g ∧ g.name = some x := by
  have listed : Instr.register w ∈ (listing.map (·.2)).filter Instr.isAccess :=
    List.mem_filter.mpr ⟨List.mem_map.mpr ⟨p, mem, register⟩, rfl⟩
  obtain ⟨i, there⟩ := List.mem_iff_getElem?.mp listed
  obtain ⟨a, access, emitted⟩ := forall₂_getElem? h.emitted there
  have same {y : String} (word : d.Spells (.str y) w) : y = x := by
    have found := word.lookup? fits rfl
    rw [name] at found
    exact (Value.str.inj (Option.some.inj found)).symm
  cases emitted with
  | register global word => exact absurd (same word ▸ slot) global
  | define word =>
    have done : Access.define _ ∈ (accessesAll f.slotNames f.body).map Access.spelled :=
      List.mem_map.mpr ⟨_, List.mem_of_getElem? access, rfl⟩
    obtain ⟨e, own, does⟩ := List.mem_filterMap.mp (h.complete.mem_iff.mp done)
    cases e with
    | function s name? params body =>
      cases name? with
      | none => cases does
      | some y =>
        cases does
        exact ⟨_, own, _, rfl, congrArg some (same word)⟩
    | _ => cases does

end FunDef

/-- A function that was compiled has its names in its slots, and its code finds them there. Its own
code gives a global the name of a slot only if a function inside has this name. -/
theorem compileFunction_resolves {f : FunDef} {span : Span} {c d : Compiling} {id : ObjectId}
    (h : compileFunction f span c = .ok id d) :
    ∃ code listing, (d.world.object id).code? = some code ∧
      f.Resolved d.dictionary code listing ∧
      (d.dictionary.size ≤ 2 ^ 32 → ∀ p ∈ listing, ∀ w x, p.2 = .register w →
        d.dictionary.lookup? w = some (.str x) → x ∈ f.slotNames →
        ∃ e ∈ ownAll f.body, ∃ g, e.definition? = some g ∧ g.name = some x) := by
  rw [compileFunction_eq] at h
  obtain ⟨u, c₁, checked, rest⟩ := ok_of_bind h
  obtain ⟨is, c₂, compiled, made⟩ := ok_of_bind rest
  have distinct : f.Distinct := by
    have spec := checkParameters_spec f.displayName span f.params c List.not_mem_nil List.nodup_nil
    rw [FunDef.displayName, checked] at spec
    exact ⟨spec.1, spec.2⟩
  rw [distinct.extendSlots_eq] at compiled made
  let code := Code.ofInstrs (f.params.length + 1) f.slotNames.length (is ++ [.ret])
  have later := Compiling.Extends.withObject c₂ (.ofCode (f.name.getD lambdaName) code)
  have emitted := (((performs_inductive f.slotNames).list f.body 0).2 c₁ is c₂ compiled).2 later
  have first : thisName :: f.params <+: f.slotNames := by
    rw [← distinct.extendSlots_eq]
    exact prefix_extendSlots _ _
  have resolved : f.Resolved d.dictionary code (positioned 0 (is ++ [.ret])) := by
    cases made
    exact {
      decodes := Code.decodeAll_ofInstrs _ _ _
      parameters := rfl
      slots := Nat.max_eq_left (by simpa using first.length_le)
      first := first
      distinct := by
        rw [← distinct.extendSlots_eq]
        exact nodup_extendSlots (List.nodup_cons.mpr ⟨distinct.this, distinct.params⟩) _
      emitted := by
        rw [map_snd_positioned]
        exact emitted.step rfl
      complete := (accesses_perm_inductive f.slotNames).list f.body }
  refine ⟨code, _, ?_, resolved, fun fits p mem w x register name slot =>
    resolved.definition_of_register fits mem register name slot⟩
  cases made
  simp [World.object, HostObject.ofCode, HostObject.code?, code]

/-- A function with a parameter, a variable that is declared in an argument, and a function inside
that has the name of the parameter. -/
def shadowing : FunDef where
  name := some "f"
  params := ["a"]
  body := [.call .none (.var .none "print") [.assign .none "b" true (.var .none "a")],
    .assign .none "a" false (.var .none "g"), .function .none (some "a") [] []]

theorem compileFunction_resolves_shadowing :
    let c : Compiling := ⟨.initial false, .empty⟩
    ∃ d code listing, compileFunction shadowing .none c = .ok ⟨13⟩ d ∧
      (d.world.object ⟨13⟩).code? = some code ∧ shadowing.Resolved d.dictionary code listing ∧
      shadowing.slotNames = ["this", "a", "b"] ∧
      accessesAll shadowing.slotNames shadowing.body =
        [.read "a", .write "b", .print, .read "g", .write "a", .define "a"] ∧
      ∃ e ∈ ownAll shadowing.body, ∃ g, e.definition? = some g ∧ g.name = some "a" := by
  intro c
  have facts : outcome (compileFunction shadowing .none c) = .ok ⟨13⟩ ∧
      (stateOf (compileFunction shadowing .none c)).dictionary.size ≤ 2 ^ 32 ∧
      (stateOf (compileFunction shadowing .none c)).dictionary.lookup? (.interned 2) =
        some (.str "a") ∧
      ((stateOf (compileFunction shadowing .none c)).world.object ⟨13⟩).code?.map
        (fun code : Code => code.decodeAll.toOption.map fun listing =>
          decide ((16, .register (.interned 2)) ∈ listing)) = some (some true) := by decide +kernel
  obtain ⟨number, fits, name, there⟩ := facts
  cases result : compileFunction shadowing .none c with
  | error e d =>
    rw [result] at number
    cases number
  | ok id d =>
    rw [result] at number fits name there
    cases number
    obtain ⟨code, listing, made, resolved, defines⟩ := compileFunction_resolves result
    rw [show stateOf _ = d from rfl, made] at there
    simp only [Option.map_some, resolved.decodes, Except.toOption, Option.some.injEq,
      decide_eq_true_eq] at there
    exact ⟨d, code, listing, rfl, made, resolved, by decide, by decide,
      defines fits _ there _ _ rfl name (by decide)⟩

/-- Not every name without a slot is read by a `LOOKUP`. A call of `print` with one argument
mentions the name, and `PRINT` does it. -/
theorem exists_read_without_lookup :
    let f : FunDef := ⟨some "f", [], [.call .none (.var .none printName)
      [.literal .none (.int 1)]]⟩
    let c : Compiling := ⟨.initial false, .empty⟩
    ∃ d code listing, compileFunction f .none c = .ok ⟨12⟩ d ∧
      (d.world.object ⟨12⟩).code? = some code ∧ code.decodeAll = .ok listing ∧
      .read printName ∈ (ownAll f.body).filterMap access? ∧ printName ∉ f.slotNames ∧
      ∀ p ∈ listing, ∀ w, p.2 ≠ .lookup w := by
  intro f c
  have facts : outcome (compileFunction f .none c) = .ok ⟨12⟩ ∧
      ((stateOf (compileFunction f .none c)).world.object ⟨12⟩).code?.map Code.decodeAll =
        some (.ok [(0, .const (.ofInt 1)), (2, .print), (3, .pop), (4, .const .undefined),
          (6, .ret)]) := by decide +kernel
  obtain ⟨number, listed⟩ := facts
  cases result : compileFunction f .none c with
  | error e d =>
    rw [result] at number
    cases number
  | ok id d =>
    rw [result] at number listed
    cases number
    obtain ⟨code, made, decodes⟩ := Option.map_eq_some_iff.mp listed
    refine ⟨d, code, _, rfl, made, decodes, by decide, by decide, ?_⟩
    simp

end TaggedScript
