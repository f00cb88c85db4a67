import TaggedScript.Proofs.Codec
import TaggedScript.Proofs.Compilation.Steps

/-!
The instructions other than calls, one by one.
-/
namespace TaggedScript

section
variable {I : Image} {S : Stretch} {ctx : Context} {σ : Memory} {pc : Nat} {vals : List Value}
  {a : FrameMachine} {is : List Instr}

/-- What only moves operands ends where it should. -/
theorem At.leads {pc' : Nat} {vals' : List Value} {i : Instr} (h : At I ctx σ pc vals a)
    (here : S.HasAt ctx pc vals (i :: is))
    (agrees : ∀ b, At I ctx σ (pc + i.width) vals b → b.dictionary.size ≤ 2 ^ 32 →
      Agrees I S (fun () τ b => At I ctx τ pc' vals' b) (.ok () σ) (FrameExec.execute i b)) :
    Leads (Sane I) S (At I ctx σ pc' vals') 1 a :=
  h.executes here agrees

theorem At.const {w : Word} {v : Value} (h : At I ctx σ pc vals a)
    (here : S.HasAt ctx pc vals (.const w :: is)) (means : ∀ b, Holds I σ b → Denotes I σ b w v) :
    Leads (Sane I) S (At I ctx σ (pc + 2) (v :: vals)) 1 a := by
  apply h.leads here
  intro b at_b _
  exact at_b.agrees_push here (Nat.le_refl _) (means b at_b.holds) fun _ reached => reached

theorem At.dup {v : Value} (h : At I ctx σ pc (v :: vals) a)
    (here : S.HasAt ctx pc (v :: vals) (.dup :: is)) :
    Leads (Sane I) S (At I ctx σ (pc + 1) (v :: v :: vals)) 1 a := by
  apply h.leads here
  intro b at_b _
  obtain ⟨w, rest, ops, -, means, -⟩ := at_b.pop
  simp only [FrameExec.execute]
  rw [bind_eq]
  have top : FrameExec.peekAt 0 b = .ok w b := by simp [FrameExec.peekAt, ops]
  rw [top]
  exact at_b.agrees_push here (Nat.le_refl _) means fun _ reached => reached

theorem At.drop {v : Value} (h : At I ctx σ pc (v :: vals) a)
    (here : S.HasAt ctx pc (v :: vals) (.pop :: is)) :
    Leads (Sane I) S (At I ctx σ (pc + 1) vals) 1 a := by
  apply h.leads here
  intro b at_b _
  obtain ⟨w, rest, -, popped, -, after⟩ := at_b.pop
  simp only [FrameExec.execute]
  rw [bind_eq, popped]
  exact ⟨(), σ, rfl, after⟩

theorem At.swap {u v : Value} (h : At I ctx σ pc (u :: v :: vals) a)
    (here : S.HasAt ctx pc (u :: v :: vals) (.swap :: is)) :
    Leads (Sane I) S (At I ctx σ (pc + 1) (v :: u :: vals)) 1 a := by
  apply h.leads here
  intro b at_b _
  have means := at_b.operands
  simp only [FrameExec.execute]
  rw [bind_eq, FrameExec.swap]
  rcases ops : b.current.operands with _ | ⟨upper, _ | ⟨lower, rest⟩⟩ <;> rw [ops] at means
  · cases means
  · cases means with
    | cons _ rest => cases rest
  · obtain _ | ⟨first, second⟩ := means
    obtain _ | ⟨second, others⟩ := second
    refine ⟨(), σ, rfl, at_b.setOperands (.cons second (.cons first others)) ?_⟩
    have room := at_b.room
    rw [ops]
    exact Nat.add_le_add_right room _

theorem At.goto {target : Nat} (h : At I ctx σ pc vals a)
    (here : S.HasAt ctx pc vals (.goto target :: is)) :
    Leads (Sane I) S (At I ctx σ target vals) 1 a := by
  apply h.leads here
  intro b at_b _
  exact ⟨(), σ, rfl, at_b.moveTo target⟩

theorem At.jumpIfFalse {target : Nat} {v : Value} (h : At I ctx σ pc (v :: vals) a)
    (here : S.HasAt ctx pc (v :: vals) (.jumpIfFalse target :: is)) :
    Leads (Sane I) S (At I ctx σ (if v = .bool false then target else pc + 2) vals) 1 a := by
  apply h.leads here
  intro b at_b fits
  obtain ⟨w, rest, -, popped, means, after⟩ := at_b.pop
  simp only [FrameExec.execute]
  rw [bind_eq, popped]
  by_cases isFalse : v = .bool false
  · have word : w = .ofBool false := by
      subst isFalse
      exact eq_encode_of_decode at_b.holds.interned fits (means.decodes fits)
    simp only [word, isFalse, ↓reduceIte]
    exact ⟨(), σ, rfl, after.moveTo target⟩
  · have word : w ≠ .ofBool false := by
      intro same
      have decoded := means.decodes fits
      rw [same] at decoded
      simp only [decode, Word.tag_ofBool, Except.ok.injEq] at decoded
      exact isFalse decoded.symm
    simp only [word, isFalse, ↓reduceIte]
    exact ⟨(), σ, rfl, after⟩

/-- The slot of a variable. -/
theorem At.slot {x : String} {i : Nat} (h : At I ctx σ pc vals a)
    (local_ : slotOf? ctx.locals x = some i) :
    ∃ w, a.current.slots[i]? = some w ∧ Denotes I σ a w (σ.slots.getD i .undefined) := by
  obtain ⟨bound, -⟩ := List.findIdx?_eq_some_iff_getElem.mp local_
  have inside : i < σ.slots.length := by rw [h.locals]; exact bound
  obtain ⟨w, there, means⟩ := forall₂_getElem? h.slots (List.getElem?_eq_getElem inside)
  refine ⟨w, there, ?_⟩
  rw [List.getD_eq_getElem?_getD, List.getElem?_eq_getElem inside]
  exact means

theorem At.load {x : String} {i : Nat} (h : At I ctx σ pc vals a)
    (local_ : slotOf? ctx.locals x = some i) (here : S.HasAt ctx pc vals (.load i :: is)) :
    Leads (Sane I) S (At I ctx σ (pc + 2) (σ.slots.getD i .undefined :: vals)) 1 a := by
  apply h.leads here
  intro b at_b _
  obtain ⟨w, there, means⟩ := at_b.slot local_
  simp only [FrameExec.execute]
  have read : FrameExec.slot i b = .ok w b := by simp only [FrameExec.slot, there]
  rw [bind_eq, read]
  exact at_b.agrees_push here (Nat.le_refl _) means fun _ reached => reached

theorem At.setSlot {i : Nat} {w : Word} {v : Value} (h : At I ctx σ pc vals a)
    (means : Denotes I σ a w v) :
    At I ctx { σ with slots := σ.slots.set i v } pc vals
      { a with current := { a.current with slots := a.current.slots.set i w } } := by
  have later : Later σ a { σ with slots := σ.slots.set i v }
      { a with current := { a.current with slots := a.current.slots.set i w } } :=
    ⟨fun _ known => known, .refl _, Nat.le_refl _⟩
  exact { h with
    holds := (h.holds.setSlots _).setFrames _ _ _
    locals := by rw [List.length_set, h.locals]
    slots := later.all (forall₂_set h.slots means)
    operands := later.all h.operands
    kept := fun p mem => later.denotes (h.kept p mem)
    room := by
      have room := h.room
      rw [FrameMachine.size_eq] at room ⊢
      simp only [CallFrame.size, List.length_set] at room ⊢
      exact room }

theorem At.store {x : String} {i : Nat} {v : Value} (h : At I ctx σ pc (v :: vals) a)
    (local_ : slotOf? ctx.locals x = some i) (here : S.HasAt ctx pc (v :: vals) (.store i :: is)) :
    Leads (Sane I) S (At I ctx { σ with slots := σ.slots.set i v } (pc + 2) vals) 1 a := by
  refine h.executes (r := .ok () { σ with slots := σ.slots.set i v })
    (k := fun () τ b => At I ctx τ (pc + 2) vals b) here ?_
  intro b at_b _
  obtain ⟨w, rest, -, popped, means, after⟩ := at_b.pop
  obtain ⟨_, there, -⟩ := at_b.slot local_
  have bound : i < b.current.slots.length := (List.getElem?_eq_some_iff.mp there).1
  have later : Later σ b σ (b.setOperands rest) := ⟨fun _ known => known, .refl _, Nat.le_refl _⟩
  simp only [FrameExec.execute]
  rw [bind_eq, popped]
  simp only [bind_eq, FrameExec.setSlot]
  rw [if_pos (show i < (b.setOperands rest).current.slots.length from bound)]
  exact ⟨(), _, rfl, after.setSlot (later.denotes means)⟩

/-- A word of the code that is a name. -/
def NameOf (I : Image) (w : Word) (x : String) : Prop :=
  ∃ d, w = (encode (.str x) d).1 ∧ (encode (.str x) d).2.Extends I.compiled.dictionary

theorem NameOf.reads {w : Word} {x : String} (h : NameOf I w x) : I.Reads x := by
  obtain ⟨d, rfl, compiled⟩ := h
  have found := lookup?_encode (v := .str x) rfl (Nat.le_trans compiled.size_le I.fits)
  exact mem_of_lookup? (compiled.lookup? found)

theorem Holds.nameOf {w : Word} {x : String} (h : Holds I σ a) (name : NameOf I w x) :
    FrameExec.nameOf w a = .ok x a := by
  obtain ⟨d, rfl, compiled⟩ := name
  have found := h.lookup?_constant (v := .str x) rfl compiled
  simp only [FrameExec.nameOf, bind_eq, get_eq, found]
  rfl

theorem At.interns {v : Value} (h : At I ctx σ pc vals a) (named : I.Names v) :
    At I ctx σ pc vals { a with dictionary := (encode v a.dictionary).2 } :=
  h.change ⟨fun _ known => known, encode_extends v _, Nat.le_refl _⟩ (h.holds.encodes named)
    rfl rfl rfl rfl rfl

/-- The word that a value is encoded as. -/
theorem At.encodes {v : Value} (h : At I ctx σ pc vals a) (known : σ.Knows I v) :
    At I ctx σ pc vals { a with dictionary := (encode v a.dictionary).2 } ∧
    Denotes I σ { a with dictionary := (encode v a.dictionary).2 } (encode v a.dictionary).1 v :=
  ⟨h.interns (.inl known.allowed), h.holds.denotes_encode known⟩

theorem At.lookup {w : Word} {x : String} (h : At I ctx σ pc vals a) (name : NameOf I w x)
    (here : S.HasAt ctx pc vals (.lookup w :: is)) :
    Leads (Sane I) S (At I ctx σ (pc + 2) (σ.world.global x :: vals)) 1 a := by
  apply h.leads here
  intro b at_b _
  obtain ⟨after, means⟩ := at_b.encodes (at_b.holds.globals x name.reads)
  simp only [FrameExec.execute]
  rw [bind_eq, at_b.holds.nameOf name]
  have value : b.world.global x = σ.world.global x := by rw [at_b.holds.world]
  simp only [bind_eq, get_eq, value, encodeValue_frames]
  have pushed := after.agrees_push here (Nat.le_refl _) (k := fun () τ b =>
    At I ctx τ (pc + 2) (σ.world.global x :: vals) b) (u := ()) means fun _ reached => reached
  rw [bind_eq] at pushed
  exact pushed

theorem Denotes.decodeWord {w : Word} {v : Value} (h : Denotes I σ a w v)
    (fits : a.dictionary.size ≤ 2 ^ 32) : FrameExec.decodeWord w a = .ok v a := by
  rw [decodeWord_frames, h.decodes fits]

theorem At.register {w : Word} {x : String} {v : Value} (h : At I ctx σ pc (v :: vals) a)
    (name : NameOf I w x) (here : S.HasAt ctx pc (v :: vals) (.register w :: is)) :
    Leads (Sane I) S (At I ctx { σ with world := σ.world.setGlobal x v } (pc + 2) vals) 1 a := by
  refine h.executes (r := .ok () { σ with world := σ.world.setGlobal x v })
    (k := fun () τ b => At I ctx τ (pc + 2) vals b) here ?_
  intro b at_b fits
  obtain ⟨u, rest, -, popped, means, after⟩ := at_b.pop
  have same : Denotes I σ (b.setOperands rest) u v := ⟨means.known, means.decodes⟩
  have decoded := same.decodeWord fits
  simp only [FrameExec.execute]
  rw [bind_eq, at_b.holds.nameOf name]
  simp only [bind_eq, popped, decoded]
  refine ⟨(), _, rfl, after.change ⟨fun _ known => known, .refl _, Nat.le_refl _⟩
    (after.holds.setGlobal x means.known) rfl rfl rfl rfl rfl⟩

theorem Denotes.targetOf {w : Word} {v : Value} (h : Denotes I σ a w v)
    (fits : a.dictionary.size ≤ 2 ^ 32) (x : String) :
    FrameExec.targetOf w x a = match v with
      | .ref offset => .ok (.record offset) a
      | .object id => .ok (.host id) a
      | v => .error (.failure (a.world.noFields x v)) a := by
  simp only [FrameExec.targetOf, bind_eq, h.decodeWord fits]
  cases v <;> rfl

/-- The record of a reference that is known. -/
theorem Memory.Knows.found {offset : UInt32} (h : σ.Knows I (.ref offset)) :
    recordAt? σ.records offset.toNat = some (σ.record offset) := by
  obtain ⟨t, found⟩ := Option.isSome_iff_exists.mp (h.recorded offset rfl)
  rw [Memory.record, found]
  rfl

theorem At.get {w : Word} {x : String} {v : Value} (h : At I ctx σ pc (v :: vals) a)
    (name : NameOf I w x) (here : S.HasAt ctx pc (v :: vals) (.get w :: is)) :
    Leads (Sane I) S (Ends I S ctx (fun u τ b => At I ctx τ (pc + 2) (u :: vals) b)
      (Meaning.getField v x σ)) 1 a := by
  apply h.executes here
  intro b at_b fits
  obtain ⟨u, rest, -, popped, means, after⟩ := at_b.pop
  have later : Later σ b σ (b.setOperands rest) := ⟨fun _ known => known, .refl _, Nat.le_refl _⟩
  have target := (later.denotes means).targetOf fits x
  simp only [FrameExec.execute]
  rw [bind_eq]
  simp only [FrameExec.getField, bind_eq, at_b.holds.nameOf name, popped, target]
  cases v with
  | undefined | bool | int | str | shape =>
    rw [after.holds.world]
    exact ⟨σ, rfl, after.holds⟩
  | ref offset =>
    obtain ⟨field, read, fieldMeans⟩ := after.holds.getField fits means.known.found x
    simp only [bind_eq, FrameExec.readHeap, read]
    have pushed := after.agrees_push here (Nat.le_succ _) fieldMeans
      (k := fun u τ b => At I ctx τ (pc + 2) (u :: vals) b) fun _ reached => reached
    rw [bind_eq] at pushed
    exact pushed
  | object id =>
    obtain ⟨encoded, fieldMeans⟩ := after.encodes
      (after.holds.fields id x means.known.allowed name.reads)
    have value : (b.setOperands rest).world.field id x = σ.world.field id x := by
      rw [after.holds.world]
    simp only [bind_eq, get_eq, value, encodeValue_frames]
    have pushed := encoded.agrees_push here (Nat.le_succ _) fieldMeans
      (k := fun u τ b => At I ctx τ (pc + 2) (u :: vals) b) fun _ reached => reached
    rw [bind_eq] at pushed
    exact pushed

/-- A field of a record is written in the heap. -/
theorem Holds.setRecord {offset : UInt32} {t : Table} {x : String} {i : Nat} {w : Word} {v : Value}
    (h : Holds I σ a) (found : recordAt? σ.records offset.toNat = some t)
    (field : (t.map (·.1)).findIdx? (· = x) = some i) (means : Denotes I σ a w v) :
    let τ := { σ with records := TaggedScript.setRecord σ.records offset.toNat (t.set x v) }
    let b := { a with heap := { a.heap with
      words := a.heap.words.setIfInBounds (offset.toNat + Heap.headerSize + i) w } }
    Later σ a τ b ∧ Holds I τ b := by
  intro τ b
  have later : Later σ a τ b := by
    refine ⟨fun other there => ?_, .refl _, by simp [b, Heap.pointer]⟩
    rw [recordAt?_setRecord found (Table.length_set_of_place field v)]
    split
    · rfl
    · exact there
  have old : HeapHolds I τ b a.heap.words.toList σ.records := later.heapHolds rfl h.heap
  refine ⟨later, {
    world := h.world
    hosts := h.hosts
    dictionary := h.dictionary
    interned := h.interned
    entries := h.entries
    globals := fun y reads => later.knows (h.globals y reads)
    fields := fun id y allowed reads => later.knows (h.fields id y allowed reads)
    heap := by
      rw [Array.toList_setIfInBounds]
      exact old.set found field (later.denotes means)
    capacity := h.capacity
    addressed := fun other there => h.addressed other ?_ }⟩
  rw [recordAt?_setRecord found (Table.length_set_of_place field v)] at there
  split at there
  · rename_i same
    rw [same, found]
    rfl
  · exact there

theorem At.put {w : Word} {x : String} {v r : Value} (h : At I ctx σ pc (v :: r :: vals) a)
    (name : NameOf I w x) (here : S.HasAt ctx pc (v :: r :: vals) (.put w :: is)) :
    Leads (Sane I) S (Ends I S ctx (fun () τ b => At I ctx τ (pc + 2) vals b)
      (Meaning.setField r x v σ)) 1 a := by
  apply h.executes here
  intro b at_b fits
  obtain ⟨valueWord, rest, -, popped, valueMeans, after⟩ := at_b.pop
  obtain ⟨receiver, rest', -, popped', means, after'⟩ := after.pop
  have later : Later σ (b.setOperands rest) σ ((b.setOperands rest).setOperands rest') :=
    ⟨fun _ known => known, .refl _, Nat.le_refl _⟩
  have later' : Later σ b σ ((b.setOperands rest).setOperands rest') :=
    ⟨fun _ known => known, .refl _, Nat.le_refl _⟩
  have target := (later.denotes means).targetOf fits x
  have written := later'.denotes valueMeans
  have decoded := written.decodeWord fits
  simp only [FrameExec.execute]
  rw [bind_eq]
  simp only [FrameExec.putField, bind_eq, at_b.holds.nameOf name, popped, popped', target]
  cases r with
  | undefined | bool | int | str | shape =>
    rw [after'.holds.world]
    exact ⟨σ, rfl, after'.holds⟩
  | ref offset =>
    have found := means.known.found
    have place := after'.holds.fieldPlace fits found x
    simp only [bind_eq, get_eq, FrameExec.onHeap,
      Heap.setField, place]
    simp only [Meaning.setField, bind_eq, get_eq,
      Table.isSome_get?]
    cases field : ((σ.record offset).map (·.1)).findIdx? (· = x) with
    | none => exact ⟨σ, rfl, after'.holds⟩
    | some i =>
      obtain ⟨laterStill, holds⟩ := after'.holds.setRecord found field written
      exact ⟨(), _, rfl, after'.change laterStill holds rfl rfl rfl rfl rfl⟩
  | object id =>
    simp only [bind_eq, decoded]
    exact ⟨(), _, rfl, after'.change ⟨fun _ known => known, .refl _, Nat.le_refl _⟩
      (after'.holds.setHostField id x valueMeans.known) rfl rfl rfl rfl rfl⟩

end
end TaggedScript
