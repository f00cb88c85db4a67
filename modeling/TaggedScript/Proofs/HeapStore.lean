import TaggedScript.Proofs.Effects
import TaggedScript.Proofs.Slots
import TaggedScript.Proofs.WorldLaws

/-!
The heap as a store of records. What a field reads is told by the calls before: it is what was
written there last, or what the record was made with. All records share the words of the heap, but
none reaches into another.
-/
namespace TaggedScript

/-- Where the words of classes have their meaning from. -/
structure Setting where
  world : World
  dictionary : Dictionary

namespace Setting

/-- The class that a word names. -/
def class? (s : Setting) (word : Word) : Option Shape :=
  match s.dictionary.lookup? word with
  | some (.shape id) => s.world.shapes[id.index]?
  | _ => none

/-- Later there may be more classes and more entries. -/
structure Extends (s t : Setting) : Prop where
  dictionary : s.dictionary.Extends t.dictionary
  shapes : s.world.shapes.toList <+: t.world.shapes.toList

variable {s t : Setting} {word : Word} {shape : Shape}

theorem named_of_class? (h : s.class? word = some shape) : ∃ id : ShapeId,
    s.dictionary.lookup? word = some (.shape id) ∧ s.world.shapes[id.index]? = some shape := by
  unfold class? at h
  split at h
  · exact ⟨_, by assumption, h⟩
  · cases h

theorem Extends.class? (h : s.Extends t) (named : s.class? word = some shape) :
    t.class? word = some shape := by
  obtain ⟨id, entry, there⟩ := named_of_class? named
  obtain ⟨later, all⟩ := h.shapes
  rw [← Array.getElem?_toList] at there
  have inside := (List.getElem?_eq_some_iff.mp there).1
  rw [Setting.class?, h.dictionary.lookup? entry]
  simp only [← Array.getElem?_toList, ← all]
  rw [List.getElem?_append_left inside, there]

theorem shapeOf_of_class? {h : Heap} {ref : UInt32} (inside : h.contains ref = true)
    (named : s.class? (h.words.getD ref.toNat .undefined) = some shape) :
    h.shapeOf s.world s.dictionary ref = .ok shape := by
  obtain ⟨id, entry, there⟩ := named_of_class? named
  have same : s.world.shape id = shape := by
    rw [World.shape, Array.getD_eq_getD_getElem?, there]
    rfl
  rw [Heap.shapeOf_of_lookup? s.world inside entry, same]

end Setting

namespace Heap

/-- What is called on a heap. -/
inductive Call where
  | allocate (shape : Word) (fields : List Word)
  | get (ref : UInt32) (field : String)
  | set (ref : UInt32) (field : String) (value : Word)

inductive Reply where
  | made (ref : UInt32)
  | read (value : Word)
  | written

def Call.run (s : Setting) : Call → OnHeap Reply
  | allocate shape fields => do return .made (← Heap.allocate shape fields)
  | get ref field => fun h =>
    match h.getField s.world s.dictionary ref field with
    | .ok value => .ok (.read value) h
    | .error e => .error e h
  | set ref field value => do
    setField s.world s.dictionary ref field value
    return .written

/-- A call and what it came to. -/
structure Event where
  setting : Setting
  call : Call
  outcome : Except HeapFault Reply

/-- A record as it was made. -/
structure Made where
  shape : Shape
  fields : List Word

/-- The words that a record takes. -/
def Made.size (r : Made) : Nat := headerSize + r.fields.length

/-- What a field holds at first: its word, if the class has such a field. -/
def Made.initial (r : Made) (x : String) : Word :=
  ((r.shape.fields.zip r.fields).lookup x).getD .undefined

namespace Event

/-- The record that is made and that has that reference. -/
def made? (ref : UInt32) : Event → Option Made
  | ⟨s, .allocate word fields, .ok (.made made)⟩ =>
    if made = ref then (s.class? word).map (⟨·, fields⟩) else none
  | _ => none

/-- What is written to a field. -/
def written? (ref : UInt32) (x : String) : Event → Option Word
  | ⟨_, .set r y value, .ok _⟩ => if r = ref ∧ y = x then some value else none
  | _ => none

/-- How many words are taken. -/
def taken : Event → Nat
  | ⟨_, .allocate _ fields, .ok _⟩ => headerSize + fields.length
  | _ => 0

end Event

/-! What was called on a heap, the latest call first. -/

def recordOf? (past : List Event) (ref : UInt32) : Option Made := past.findSome? (·.made? ref)

def lastWrite? (past : List Event) (ref : UInt32) (x : String) : Option Word :=
  past.findSome? (·.written? ref x)

def taken (past : List Event) : Nat := (past.map Event.taken).sum

/-- What a field of a record should hold. -/
def current (past : List Event) (ref : UInt32) (r : Made) (x : String) : Word :=
  (lastWrite? past ref x).getD (r.initial x)

/-- Records are made of classes, with a word for each field. Fields are those of records that were
made. -/
def Call.Proper (s : Setting) (past : List Event) : Call → Prop
  | allocate word fields => ∃ shape, s.class? word = some shape ∧
      fields.length = shape.fields.length
  | get ref _ | set ref _ _ => (recordOf? past ref).isSome

/-- Whether there is no room for a record with so many fields. -/
def Full (capacity : Nat) (past : List Event) (fields : Nat) : Prop :=
  capacity - taken past < 2 + fields ∨ 2 ^ 32 ≤ taken past

/-- A heap after all of these calls. -/
inductive After (capacity : Nat) : Setting → List Event → Heap → Prop
  | empty (s : Setting) : After capacity s [] (.empty capacity)
  | later {s t : Setting} {past : List Event} {h : Heap} :
    After capacity s past h → s.Extends t → After capacity t past h
  | called {s : Setting} {past : List Event} {h : Heap} {call : Call} :
    After capacity s past h → call.Proper s past →
    After capacity s (⟨s, call, outcome (call.run s h)⟩ :: past) (stateOf (call.run s h))

/-- How a heap answers calls, as far as the calls before tell. -/
structure Answers (capacity : Nat) (s : Setting) (past : List Event) (h : Heap) : Prop where
  get : ∀ ref r, recordOf? past ref = some r → ∀ x,
    h.getField s.world s.dictionary ref x = .ok (current past ref r x)
  missing : ∀ ref r, recordOf? past ref = some r → ∀ x ∉ r.shape.fields,
    h.getField s.world s.dictionary ref x = .ok .undefined
  set : ∀ ref r, recordOf? past ref = some r → ∀ x ∈ r.shape.fields, ∀ value, ∃ g,
    setField s.world s.dictionary ref x value h = .ok () g
  undeclared : ∀ ref r, recordOf? past ref = some r → ∀ x ∉ r.shape.fields, ∀ value,
    setField s.world s.dictionary ref x value h = .error (.unknownField x) h
  exhausted : ∀ word fields,
    (∃ g, allocate word fields h =
      .error (.exhausted (2 + fields.length) (capacity - taken past)) g) ↔
    Full capacity past fields.length
  allocated : ∀ word fields, ¬ Full capacity past fields.length →
    ∃ ref g, allocate word fields h = .ok ref g ∧ recordOf? past ref = none
  failed : ∀ (call : Call) e g, call.run s h = .error e g → g = h
  others : ∀ (call : Call) reply g, call.Proper s past → call.run s h = .ok reply g →
    ∀ ref r, recordOf? past ref = some r → ∀ x, (∀ value, call ≠ .set ref x value) →
      g.getField s.world s.dictionary ref x = h.getField s.world s.dictionary ref x

/-! ## Where fields are -/

/-- The first field of a name has the word at its place. -/
theorem lookup_zip_of_findIdx? {names : List String} {words : List Word} {x : String} {i : Nat}
    (place : names.findIdx? (· = x) = some i) : (names.zip words).lookup x = words[i]? := by
  induction names generalizing words i with
  | nil => cases place
  | cons y names ih =>
    cases words with
    | nil => simp
    | cons word words =>
      rw [List.findIdx?_cons] at place
      by_cases same : y = x
      · rw [if_pos (by simpa using same)] at place
        cases place
        simp [same]
      · rw [if_neg (by simpa using same)] at place
        obtain ⟨j, later, rfl⟩ := Option.map_eq_some_iff.mp place
        rw [List.zip_cons_cons, List.lookup_cons, List.getElem?_cons_succ, ← ih later,
          beq_eq_false_iff_ne.mpr (Ne.symm same)]

namespace Made
variable {r : Made} {x : String} {slot : Nat}

theorem initial_of_slot (place : r.shape.slotOf? x = some slot) :
    r.initial x = r.fields.getD slot .undefined := by
  rw [initial, lookup_zip_of_findIdx? place, List.getD_eq_getElem?_getD]

theorem initial_of_undeclared (h : x ∉ r.shape.fields) : r.initial x = .undefined := by
  have missing : (r.shape.fields.zip r.fields).lookup x = none := by
    rw [List.lookup_eq_none_iff]
    rintro ⟨y, word⟩ mem
    have other : x ≠ y := fun same => h (same ▸ (List.of_mem_zip mem).1)
    exact bne_iff_ne.mpr other
  rw [initial, missing]
  rfl

end Made

/-! ## What is known after the calls -/

/-- The words of a record, apart from those of all others. -/
structure Holds (capacity : Nat) (s : Setting) (past : List Event) (h : Heap) : Prop where
  capacity : h.capacity = capacity
  pointer : h.pointer = taken past
  named : ∀ ref r, recordOf? past ref = some r →
    s.class? (h.words.getD ref.toNat .undefined) = some r.shape
  whole : ∀ ref r, recordOf? past ref = some r →
    r.fields.length = r.shape.fields.length ∧ ref.toNat + r.size ≤ h.pointer
  slots : ∀ ref r, recordOf? past ref = some r → ∀ x slot, r.shape.slotOf? x = some slot →
    h.words.getD (ref.toNat + headerSize + slot) .undefined = current past ref r x
  apart : ∀ ref r ref' r', recordOf? past ref = some r → recordOf? past ref' = some r' →
    ref ≠ ref' → ref.toNat + r.size ≤ ref'.toNat ∨ ref'.toNat + r'.size ≤ ref.toNat
  declared : ∀ ref x value, lastWrite? past ref x = some value →
    ∃ r, recordOf? past ref = some r ∧ x ∈ r.shape.fields

variable {capacity : Nat} {s t : Setting} {past : List Event} {h : Heap}

theorem holds_empty (capacity : Nat) (s : Setting) : Holds capacity s [] (.empty capacity) where
  capacity := rfl
  pointer := rfl
  named := nofun
  whole := nofun
  slots := nofun
  apart := nofun
  declared := nofun

/-- What allocating does. -/
theorem allocate_eq (word : Word) (fields : List Word) (h : Heap) : allocate word fields h =
    if h.available < headerSize + fields.length ∨ 4294967296 ≤ h.pointer then
      .error (.exhausted (headerSize + fields.length) h.available) h
    else .ok (UInt32.ofNat h.pointer) { h with words := h.words ++ (word :: mark :: fields) } := by
  simp only [allocate]
  by_cases full : h.available < headerSize + fields.length
  · rw [if_pos full, if_pos (.inl full)]
  rw [if_neg full]
  by_cases far : 4294967296 ≤ h.pointer
  · rw [if_pos far, if_pos (.inr far)]
  · rw [if_neg far, if_neg (not_or.mpr ⟨full, far⟩)]

namespace Holds
variable {ref : UInt32} {r : Made} {x : String} {slot : Nat}

theorem later (k : Holds capacity s past h) (grown : s.Extends t) :
    Holds capacity t past h where
  capacity := k.capacity
  pointer := k.pointer
  named ref r found := grown.class? (k.named ref r found)
  whole := k.whole
  slots := k.slots
  apart := k.apart
  declared := k.declared

theorem shapeOf (k : Holds capacity s past h) (found : recordOf? past ref = some r) :
    h.shapeOf s.world s.dictionary ref = .ok r.shape := by
  have inside := (k.whole ref r found).2
  simp only [Made.size] at inside
  exact s.shapeOf_of_class? (decide_eq_true (by omega)) (k.named ref r found)

/-- A slot of a record is inside of it. -/
theorem bounds (k : Holds capacity s past h) (found : recordOf? past ref = some r)
    (declares : r.shape.slotOf? x = some slot) :
    headerSize + slot < r.size ∧ ref.toNat + headerSize + slot < h.pointer := by
  obtain ⟨width, inside⟩ := k.whole ref r found
  have bound := slotOf?_lt declares
  simp only [Made.size] at inside ⊢
  omega

theorem place (k : Holds capacity s past h) (found : recordOf? past ref = some r)
    (declares : r.shape.slotOf? x = some slot) :
    h.place ref slot = .ok (ref.toNat + headerSize + slot) :=
  if_pos (k.bounds found declares).2

/-- Fields that the class does not have are not written. -/
theorem current_of_undeclared (k : Holds capacity s past h) (found : recordOf? past ref = some r)
    (missing : x ∉ r.shape.fields) : current past ref r x = .undefined := by
  cases last : lastWrite? past ref x with
  | none =>
    rw [current, last, Made.initial_of_undeclared missing]
    rfl
  | some value =>
    obtain ⟨r', found', mem⟩ := k.declared ref x value last
    cases found.symm.trans found'
    exact absurd mem missing

theorem getField (k : Holds capacity s past h) (found : recordOf? past ref = some r)
    (x : String) : h.getField s.world s.dictionary ref x = .ok (current past ref r x) := by
  simp only [Heap.getField, k.shapeOf found, bind, Except.bind]
  cases declares : r.shape.slotOf? x with
  | some slot =>
    simp only [k.place found declares]
    exact congrArg Except.ok (k.slots ref r found x slot declares)
  | none =>
    rw [k.current_of_undeclared found (slotOf?_eq_none.mp declares)]
    rfl

theorem setField (k : Holds capacity s past h) (found : recordOf? past ref = some r)
    (x : String) (value : Word) : Heap.setField s.world s.dictionary ref x value h =
      match r.shape.slotOf? x with
      | some slot => .ok ()
          { h with words := h.words.setIfInBounds (ref.toNat + headerSize + slot) value }
      | none => .error (.unknownField x) h := by
  simp only [Heap.setField, fieldPlace, k.shapeOf found, bind, Except.bind]
  cases declares : r.shape.slotOf? x with
  | some slot =>
    simp only [k.place found declares]
  | none => rfl

end Holds

/-! ## One more call -/

section
variable {e : Event} {ref : UInt32} {x : String}

theorem recordOf?_cons : recordOf? (e :: past) ref = (e.made? ref).or (recordOf? past ref) := by
  rw [recordOf?, List.findSome?_cons]
  cases e.made? ref <;> rfl

theorem lastWrite?_cons :
    lastWrite? (e :: past) ref x = (e.written? ref x).or (lastWrite? past ref x) := by
  rw [lastWrite?, List.findSome?_cons]
  cases e.written? ref x <;> rfl

theorem taken_cons : taken (e :: past) = e.taken + taken past := by
  simp [taken]

variable {word value : Word} {fields : List Word} {shape : Shape}

theorem recordOf?_allocated (named : s.class? word = some shape) (other : UInt32) :
    recordOf? (⟨s, .allocate word fields, .ok (.made ref)⟩ :: past) other =
      if ref = other then some ⟨shape, fields⟩ else recordOf? past other := by
  rw [recordOf?_cons, Event.made?, named]
  by_cases same : ref = other
  · rw [if_pos same, if_pos same]
    rfl
  · rw [if_neg same, if_neg same, Option.none_or]

/-- A record is the one that was made last, or it was made before. -/
theorem new_or_old_of_allocated (named : s.class? word = some shape) {other : UInt32} {r : Made}
    (found : recordOf? (⟨s, .allocate word fields, .ok (.made ref)⟩ :: past) other = some r) :
    (ref = other ∧ r = ⟨shape, fields⟩) ∨ (ref ≠ other ∧ recordOf? past other = some r) := by
  rw [recordOf?_allocated named] at found
  split at found
  case isTrue same => exact .inl ⟨same, (Option.some.inj found).symm⟩
  case isFalse differ => exact .inr ⟨differ, found⟩

theorem lastWrite?_allocated :
    lastWrite? (⟨s, .allocate word fields, .ok (.made ref)⟩ :: past) = lastWrite? past := by
  funext other x
  exact lastWrite?_cons.trans Option.none_or

theorem taken_allocated : taken (⟨s, .allocate word fields, .ok (.made ref)⟩ :: past) =
    headerSize + fields.length + taken past := taken_cons

theorem recordOf?_written :
    recordOf? (⟨s, .set ref x value, .ok .written⟩ :: past) = recordOf? past := by
  funext other
  exact recordOf?_cons.trans Option.none_or

theorem lastWrite?_written (other : UInt32) (y : String) :
    lastWrite? (⟨s, .set ref x value, .ok .written⟩ :: past) other y =
      if ref = other ∧ x = y then some value else lastWrite? past other y := by
  rw [lastWrite?_cons, Event.written?]
  split
  · rfl
  · rw [Option.none_or]

theorem taken_written : taken (⟨s, .set ref x value, .ok .written⟩ :: past) = taken past :=
  taken_cons.trans (Nat.zero_add _)

end

/-! ## The words after it -/

section
variable {words : Array Word} {more : List Word} {i j : Nat}

theorem getD_append_old (inside : i < words.size) :
    (words ++ more).getD i .undefined = words.getD i .undefined := by
  simp only [Array.getD_eq_getD_getElem?, ← Array.getElem?_toList, Array.toList_appendList]
  rw [List.getElem?_append_left inside]

theorem getD_append_new (i : Nat) :
    (words ++ more).getD (words.size + i) .undefined = more.getD i .undefined := by
  simp only [Array.getD_eq_getD_getElem?, ← Array.getElem?_toList, Array.toList_appendList,
    ← Array.length_toList]
  rw [List.getElem?_append_right (Nat.le_add_right _ _), Nat.add_sub_cancel_left,
    List.getD_eq_getElem?_getD]

theorem getD_set_self (inside : i < words.size) (value : Word) :
    (words.setIfInBounds i value).getD i .undefined = value := by
  rw [Array.getD_eq_getD_getElem?, Array.getElem?_setIfInBounds_self_of_lt inside]
  rfl

theorem getD_set_other (other : i ≠ j) (value : Word) :
    (words.setIfInBounds i value).getD j .undefined = words.getD j .undefined := by
  rw [Array.getD_eq_getD_getElem?, Array.getElem?_setIfInBounds_ne other,
    ← Array.getD_eq_getD_getElem?]

end

theorem pointer_allocated (h : Heap) (word : Word) (fields : List Word) :
    Heap.pointer { h with words := h.words ++ (word :: mark :: fields) } =
      h.pointer + (headerSize + fields.length) := by
  rw [Heap.pointer, ← Array.length_toList, Array.toList_appendList, List.length_append,
    Array.length_toList, Heap.pointer]
  simp only [List.length_cons, headerSize]
  omega

theorem pointer_written (h : Heap) (i : Nat) (value : Word) :
    Heap.pointer { h with words := h.words.setIfInBounds i value } = h.pointer :=
  Array.size_setIfInBounds

/-- Nothing was made, and nothing was written. -/
structure Event.Idle (e : Event) : Prop where
  made : ∀ ref, e.made? ref = none
  written : ∀ ref x, e.written? ref x = none
  taken : e.taken = 0

theorem Event.idle_of_failed (s : Setting) (call : Call) (fault : HeapFault) :
    Event.Idle ⟨s, call, .error fault⟩ := by
  cases call <;> exact ⟨fun _ => rfl, fun _ _ => rfl, rfl⟩

theorem Event.idle_of_get (s : Setting) (ref : UInt32) (x : String) (o : Except HeapFault Reply) :
    Event.Idle ⟨s, .get ref x, o⟩ :=
  ⟨fun _ => rfl, fun _ _ => rfl, rfl⟩

theorem Event.written?_eq_none {call : Call} {ref : UInt32} {x : String}
    (other : ∀ value, call ≠ .set ref x value) (o : Except HeapFault Reply) :
    Event.written? ref x ⟨s, call, o⟩ = none := by
  cases call with
  | allocate | get => rfl
  | set ref' y value =>
    cases o with
    | error e => rfl
    | ok reply =>
      refine if_neg ?_
      rintro ⟨rfl, rfl⟩
      exact other value rfl

namespace Call

theorem run_allocate (word : Word) (fields : List Word) (s : Setting) (h : Heap) :
    (allocate word fields).run s h =
      if h.available < headerSize + fields.length ∨ 4294967296 ≤ h.pointer then
        .error (.exhausted (headerSize + fields.length) h.available) h
      else .ok (.made (UInt32.ofNat h.pointer))
        { h with words := h.words ++ (word :: mark :: fields) } := by
  rw [run, bind_eq, allocate_eq]
  split <;> rename_i same <;> split at same <;> cases same
  · rw [if_neg (by assumption)]
    rfl
  · rw [if_pos (by assumption)]

theorem run_set (ref : UInt32) (x : String) (value : Word) (s : Setting) (h : Heap) :
    (set ref x value).run s h = match Heap.setField s.world s.dictionary ref x value h with
      | .ok _ g => .ok .written g
      | .error e g => .error e g := by
  rw [run, bind_eq]
  cases Heap.setField s.world s.dictionary ref x value h <;> rfl

/-- A call that fails changes nothing. -/
theorem run_failed {call : Call} {s : Setting} {h g : Heap} {e : HeapFault}
    (failed : call.run s h = .error e g) : g = h := by
  cases call with
  | allocate word fields =>
    rw [run_allocate] at failed
    split at failed
    · cases failed
      rfl
    · cases failed
  | get ref x =>
    simp only [run] at failed
    split at failed
    · cases failed
    · cases failed
      rfl
  | set ref x value =>
    rw [run_set, Heap.setField] at failed
    split at failed
    · cases failed
    · rename_i same
      split at same
      · cases same
      · cases same
        cases failed
        rfl

end Call

namespace Holds
variable {ref : UInt32} {r : Made} {x : String} {slot : Nat}

theorem idle (k : Holds capacity s past h) {e : Event} (idle : e.Idle) :
    Holds capacity s (e :: past) h := by
  have records : recordOf? (e :: past) = recordOf? past := by
    funext ref
    rw [recordOf?_cons, idle.made, Option.none_or]
  have writes : lastWrite? (e :: past) = lastWrite? past := by
    funext ref x
    rw [lastWrite?_cons, idle.written, Option.none_or]
  have room : taken (e :: past) = taken past := by
    rw [taken_cons, idle.taken, Nat.zero_add]
  obtain ⟨capacity, pointer, named, whole, slots, apart, declared⟩ := k
  constructor
  case capacity => exact capacity
  case pointer => rw [room, pointer]
  case named => rwa [records]
  case whole => rwa [records]
  case slots =>
    unfold current
    rwa [records, writes]
  case apart => rwa [records]
  case declared => rwa [records, writes]

/-- No record was made where the next one will be. -/
theorem fresh (k : Holds capacity s past h) (here : ref.toNat = h.pointer) :
    recordOf? past ref = none := by
  cases found : recordOf? past ref with
  | none => rfl
  | some r =>
    have inside := (k.whole ref r found).2
    simp only [Made.size, headerSize] at inside
    omega

theorem unwritten (k : Holds capacity s past h) (none : recordOf? past ref = none) (x : String) :
    lastWrite? past ref x = .none := by
  cases last : lastWrite? past ref x with
  | none => rfl
  | some value =>
    obtain ⟨r, found, -⟩ := k.declared ref x value last
    rw [none] at found
    cases found

/-- A record is made after all others. -/
theorem allocated (k : Holds capacity s past h) {word : Word} {fields : List Word} {shape : Shape}
    (named : s.class? word = some shape) (width : fields.length = shape.fields.length)
    (here : ref.toNat = h.pointer) :
    Holds capacity s (⟨s, .allocate word fields, .ok (.made ref)⟩ :: past)
      { h with words := h.words ++ (word :: mark :: fields) } := by
  have fresh := k.fresh here
  constructor
  case capacity => exact k.capacity
  case pointer => rw [pointer_allocated, taken_allocated, k.pointer, Nat.add_comm]
  case named =>
    intro ref' r' found
    obtain ⟨rfl, rfl⟩ | ⟨-, found⟩ := new_or_old_of_allocated named found
    · rw [here]
      exact (congrArg s.class? (getD_append_new 0)).trans named
    · have inside := (k.whole ref' r' found).2
      simp only [Made.size, headerSize] at inside
      rw [getD_append_old (by simp only [Heap.pointer] at inside; omega)]
      exact k.named ref' r' found
  case whole =>
    intro ref' r' found
    rw [pointer_allocated]
    obtain ⟨rfl, rfl⟩ | ⟨-, found⟩ := new_or_old_of_allocated named found
    · rw [here]
      exact ⟨width, Nat.le_refl _⟩
    · obtain ⟨count, inside⟩ := k.whole ref' r' found
      exact ⟨count, by omega⟩
  case slots =>
    intro ref' r' found x slot declares
    rw [current, lastWrite?_allocated]
    obtain ⟨rfl, rfl⟩ | ⟨-, found⟩ := new_or_old_of_allocated named found
    · have place : h.pointer + headerSize + slot = h.words.size + (slot + 1 + 1) := by
        simp only [Heap.pointer, headerSize]
        omega
      rw [k.unwritten fresh, here, place, getD_append_new, Made.initial_of_slot declares]
      rfl
    · rw [getD_append_old (k.bounds found declares).2]
      exact k.slots ref' r' found x slot declares
  case apart =>
    intro ref₁ r₁ ref₂ r₂ found₁ found₂ differ
    obtain ⟨rfl, rfl⟩ | ⟨-, found₁⟩ := new_or_old_of_allocated named found₁
    · obtain ⟨same, -⟩ | ⟨-, found₂⟩ := new_or_old_of_allocated named found₂
      · exact absurd same differ
      · have inside := (k.whole ref₂ r₂ found₂).2
        exact .inr (by omega)
    · obtain ⟨rfl, rfl⟩ | ⟨-, found₂⟩ := new_or_old_of_allocated named found₂
      · have inside := (k.whole ref₁ r₁ found₁).2
        exact .inl (by omega)
      · exact k.apart ref₁ r₁ ref₂ r₂ found₁ found₂ differ
  case declared =>
    intro ref' x value last
    rw [lastWrite?_allocated] at last
    obtain ⟨r, found, mem⟩ := k.declared ref' x value last
    have other : ref ≠ ref' := by
      rintro rfl
      rw [fresh] at found
      cases found
    exact ⟨r, by rw [recordOf?_allocated named, if_neg other, found], mem⟩

section
variable {ref' : UInt32} {r' : Made} {y : String} {slot' : Nat}

/-- A field is not where the class of a record is. -/
theorem place_ne_class (k : Holds capacity s past h) (found : recordOf? past ref = some r)
    (declares : r.shape.slotOf? x = some slot) (found' : recordOf? past ref' = some r') :
    ref.toNat + headerSize + slot ≠ ref'.toNat := by
  have inside := k.bounds found declares
  by_cases same : ref = ref'
  · simp only [same, headerSize]
    omega
  · have apart := k.apart ref r ref' r' found found' same
    simp only [Made.size, headerSize] at apart inside ⊢
    omega

/-- Different fields are at different places. -/
theorem places_ne (k : Holds capacity s past h) (found : recordOf? past ref = some r)
    (declares : r.shape.slotOf? x = some slot) (found' : recordOf? past ref' = some r')
    (declares' : r'.shape.slotOf? y = some slot') (differ : ¬ (ref = ref' ∧ x = y)) :
    ref.toNat + headerSize + slot ≠ ref'.toNat + headerSize + slot' := by
  have inside := k.bounds found declares
  have inside' := k.bounds found' declares'
  by_cases record : ref = ref'
  · subst record
    cases found.symm.trans found'
    intro place
    obtain rfl : slot = slot' := by omega
    exact differ ⟨rfl, slotOf?_inj declares declares'⟩
  · have apart := k.apart ref r ref' r' found found' record
    omega

end

/-- A field is written where no other field is. -/
theorem written (k : Holds capacity s past h) (found : recordOf? past ref = some r)
    (declares : r.shape.slotOf? x = some slot) (value : Word) :
    Holds capacity s (⟨s, .set ref x value, .ok .written⟩ :: past)
      { h with words := h.words.setIfInBounds (ref.toNat + headerSize + slot) value } := by
  constructor
  case capacity => exact k.capacity
  case pointer => rw [pointer_written, taken_written, k.pointer]
  case named =>
    intro ref' r' found'
    rw [recordOf?_written] at found'
    rw [getD_set_other (k.place_ne_class found declares found')]
    exact k.named ref' r' found'
  case whole =>
    rw [recordOf?_written, pointer_written]
    exact k.whole
  case slots =>
    intro ref' r' found' y slot' declares'
    rw [recordOf?_written] at found'
    rw [current, lastWrite?_written]
    by_cases same : ref = ref' ∧ x = y
    · obtain ⟨rfl, rfl⟩ := same
      cases found.symm.trans found'
      cases declares.symm.trans declares'
      rw [if_pos ⟨rfl, rfl⟩, getD_set_self (k.bounds found declares).2]
      rfl
    · rw [if_neg same, getD_set_other (k.places_ne found declares found' declares' same)]
      exact k.slots ref' r' found' y slot' declares'
  case apart =>
    rw [recordOf?_written]
    exact k.apart
  case declared =>
    intro ref' y value' last
    rw [lastWrite?_written] at last
    rw [recordOf?_written]
    split at last
    · rename_i same
      obtain ⟨rfl, rfl⟩ := same
      exact ⟨r, found, List.mem_of_getElem? (getElem?_slotOf? declares)⟩
    · exact k.declared ref' y value' last

/-- No record is made where there is one. -/
theorem made?_eq_none (k : Holds capacity s past h) {call : Call} {reply : Reply} {g : Heap}
    (done : call.run s h = .ok reply g) (found : recordOf? past ref = some r) :
    Event.made? ref ⟨s, call, .ok reply⟩ = none := by
  cases call with
  | get | set => rfl
  | allocate word fields =>
    rw [Call.run_allocate] at done
    split at done
    · cases done
    · cases done
      rw [Event.made?, if_neg]
      rintro rfl
      rw [k.fresh (by rw [UInt32.toNat_ofNat', Nat.mod_eq_of_lt (by omega)])] at found
      cases found

theorem called (k : Holds capacity s past h) {call : Call} (proper : call.Proper s past) :
    Holds capacity s (⟨s, call, outcome (call.run s h)⟩ :: past) (stateOf (call.run s h)) := by
  cases call with
  | allocate word fields =>
    obtain ⟨shape, named, width⟩ := proper
    rw [Call.run_allocate]
    by_cases full : h.available < headerSize + fields.length ∨ 4294967296 ≤ h.pointer
    · rw [if_pos full]
      exact k.idle (Event.idle_of_failed s _ _)
    · rw [if_neg full]
      refine k.allocated named width ?_
      rw [UInt32.toNat_ofNat', Nat.mod_eq_of_lt (by omega)]
  | get ref x =>
    obtain ⟨r, found⟩ := Option.isSome_iff_exists.mp proper
    simp only [Call.run, k.getField found]
    exact k.idle (Event.idle_of_get s ref x _)
  | set ref x value =>
    obtain ⟨r, found⟩ := Option.isSome_iff_exists.mp proper
    rw [Call.run_set, k.setField found]
    cases declares : r.shape.slotOf? x with
    | none => exact k.idle (Event.idle_of_failed s _ _)
    | some slot => exact k.written found declares value

end Holds

theorem After.holds (reached : After capacity s past h) : Holds capacity s past h := by
  induction reached with
  | empty s => exact holds_empty capacity s
  | later _ grown ih => exact ih.later grown
  | called _ proper ih => exact ih.called proper

theorem After.succeeded (reached : After capacity s past h) {call : Call} {reply : Reply} {g : Heap}
    (proper : call.Proper s past) (done : call.run s h = .ok reply g) :
    After capacity s (⟨s, call, .ok reply⟩ :: past) g := by
  have called := reached.called proper
  rw [done] at called
  exact called

/-- What fields read depends on what was called on the heap, and on nothing else. -/
theorem After.answers_calls (reached : After capacity s past h) : Answers capacity s past h := by
  have k := reached.holds
  have full (n : Nat) : h.available < headerSize + n ∨ 4294967296 ≤ h.pointer ↔
      Full capacity past n := by
    rw [available, k.capacity, k.pointer]
    rfl
  constructor
  case get => exact fun ref r found x => k.getField found x
  case missing =>
    intro ref r found x missing
    rw [k.getField found, k.current_of_undeclared found missing]
  case set =>
    intro ref r found x mem value
    rw [k.setField found]
    obtain ⟨slot, declares⟩ := Option.isSome_iff_exists.mp (slotOf?_isSome.mpr mem)
    rw [show r.shape.slotOf? x = some slot from declares]
    exact ⟨_, rfl⟩
  case undeclared =>
    intro ref r found x missing value
    rw [k.setField found, show r.shape.slotOf? x = none from slotOf?_eq_none.mpr missing]
  case exhausted =>
    intro word fields
    rw [← full, allocate_eq, available, k.capacity, k.pointer]
    constructor
    · rintro ⟨g, failed⟩
      apply Decidable.byContradiction
      intro room
      rw [if_neg room] at failed
      cases failed
    · exact fun none => ⟨h, if_pos none⟩
  case allocated =>
    intro word fields room
    rw [← full] at room
    refine ⟨_, _, (allocate_eq word fields h).trans (if_neg room), k.fresh ?_⟩
    rw [UInt32.toNat_ofNat', Nat.mod_eq_of_lt (by omega)]
  case failed => exact fun call e g => Call.run_failed
  case others =>
    intro call reply g proper done ref r found x other
    have after := (reached.succeeded proper done).holds
    have still : recordOf? (⟨s, call, .ok reply⟩ :: past) ref = some r := by
      rw [recordOf?_cons, k.made?_eq_none done found, Option.none_or, found]
    have unwritten : lastWrite? (⟨s, call, .ok reply⟩ :: past) ref x = lastWrite? past ref x := by
      rw [lastWrite?_cons, Event.written?_eq_none other, Option.none_or]
    rw [k.getField found, after.getField still, current, current, unwritten]

/-- Two records of one class, the first of which was written to. There is no room for a third. -/
theorem After.answers_calls_points :
    let s : Setting := ⟨{ (default : World) with shapes := #[⟨"point", ["x", "y"]⟩] },
      .internAll .empty [.shape ⟨0⟩]⟩
    let point := Word.interned 0
    ∃ past h, After 10 s past h ∧
      h.getField s.world s.dictionary 0 "y" = .ok (.ofInt 7) ∧
      h.getField s.world s.dictionary 4 "y" = .ok (.ofInt 4) ∧
      h.getField s.world s.dictionary 4 "z" = .ok .undefined ∧
      setField s.world s.dictionary 4 "z" (.ofInt 7) h = .error (.unknownField "z") h ∧
      ∃ g, allocate point [.ofInt 5, .ofInt 6] h = .error (.exhausted 4 2) g := by
  intro s point
  have named : s.class? point = some ⟨"point", ["x", "y"]⟩ := by decide +kernel
  let e₁ : Event := ⟨s, .allocate point [.ofInt 1, .ofInt 2], .ok (.made 0)⟩
  have one : After 10 s [e₁] ⟨10, #[point, mark, .ofInt 1, .ofInt 2]⟩ :=
    (After.empty s).succeeded ⟨_, named, rfl⟩
      ((Call.run_allocate _ _ _ _).trans (if_neg (by decide)))
  let e₂ : Event := ⟨s, .allocate point [.ofInt 3, .ofInt 4], .ok (.made 4)⟩
  have two : After 10 s [e₂, e₁]
      ⟨10, #[point, mark, .ofInt 1, .ofInt 2, point, mark, .ofInt 3, .ofInt 4]⟩ :=
    one.succeeded ⟨_, named, rfl⟩ ((Call.run_allocate _ _ _ _).trans (if_neg (by decide)))
  have record (ref : UInt32) : recordOf? [e₂, e₁] ref =
      if 4 = ref then some ⟨⟨"point", ["x", "y"]⟩, [.ofInt 3, .ofInt 4]⟩
      else if 0 = ref then some ⟨⟨"point", ["x", "y"]⟩, [.ofInt 1, .ofInt 2]⟩ else none := by
    rw [recordOf?_allocated named, recordOf?_allocated named]
    rfl
  obtain ⟨h, written⟩ := two.answers_calls.set 0 _ (record 0) "y" (by decide) (.ofInt 7)
  let e₃ : Event := ⟨s, .set 0 "y" (.ofInt 7), .ok .written⟩
  have three : After 10 s [e₃, e₂, e₁] h :=
    two.succeeded (Option.isSome_of_eq_some (record 0)) (by rw [Call.run_set, written])
  have answers := three.answers_calls
  exact ⟨_, h, three, answers.get 0 _ (record 0) "y", answers.get 4 _ (record 4) "y",
    answers.missing 4 _ (record 4) "z" (by decide),
    answers.undeclared 4 _ (record 4) "z" (by decide) _,
    (answers.exhausted point [.ofInt 5, .ofInt 6]).mpr (.inl (by decide))⟩

end Heap
end TaggedScript
