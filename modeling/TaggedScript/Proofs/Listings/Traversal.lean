import Mathlib.Data.List.Nodup
import Mathlib.Data.List.Perm.Subperm
import TaggedScript.Proofs.Listings.Blocks

/-!
Which functions a listing shows. It follows the constants of the code it was asked for, then those
of each function that it came to, until there is none left to follow: every function that the code
leads to is shown once, the nearer ones first.
-/
namespace TaggedScript
namespace Listing

/-- A constant of the code is a compiled function. Code that does not decode has no constants. -/
def Names (w : World) (d : Dictionary) (code : Code) (id : ObjectId) : Prop :=
  ∃ xs pc word, code.decodeAll = .ok xs ∧ (pc, .const word) ∈ xs ∧
    d.lookup? word = some (.object id) ∧ (w.object id).code?.isSome

/-- A function is named by the code, or by a function that is one step nearer to it. -/
inductive Leads (w : World) (d : Dictionary) (code : Code) : Nat → ObjectId → Prop
  | first {id} : Names w d code id → Leads w d code 0 id
  | next {n id other} : Leads w d code n id → Names w d (codeOf w id) other →
      Leads w d code (n + 1) other

/-- What the functions mention, one after the other. -/
def mentionedBy (w : World) (d : Dictionary) (ids : List ObjectId) : List ObjectId :=
  ids.flatMap fun id => mentions w d (codeOf w id)

/-- The functions that code leads to as a reader meets them: each is there once, in the order in
which the code and then they themselves mention them, and so the nearer ones come first. -/
structure InOrder (w : World) (d : Dictionary) (code : Code) (ids : List ObjectId) : Prop where
  complete : ∀ id, id ∈ ids ↔ ∃ n, Leads w d code n id
  once : ids.Nodup
  mentioned : ids = (mentions w d code ++ mentionedBy w d ids).eraseDups
  nearer : ids.Pairwise fun id other =>
    ∀ n, Leads w d code n other → ∃ m ≤ n, Leads w d code m id

/-- The functions that were found are followed one after the other from the `next`th on. What each
mentions and was not found yet comes after them. This ends when all were followed. -/
inductive Follows (w : World) (d : Dictionary) : Nat → List ObjectId → List ObjectId → Prop
  | done {next found} : found[next]? = none → Follows w d next found found
  | turn {next found last id} : found[next]? = some id →
      Follows w d (next + 1) (addNew found (mentions w d (codeOf w id))) last →
      Follows w d next found last

variable {w : World} {d : Dictionary} {code : Code} {id other : ObjectId}

theorem compiled?_eq_some_iff {i : Instr} : compiled? w d i = some id ↔
    ∃ word, i = .const word ∧ d.lookup? word = some (.object id) ∧ (w.object id).code?.isSome := by
  cases i with
  | const word =>
    simp only [compiled?, Instr.const.injEq, exists_eq_left']
    split
    · rename_i there found
      split <;> grind
    · grind
  | _ => simp [compiled?]

theorem mem_mentions : id ∈ mentions w d code ↔ Names w d code id := by
  unfold mentions Names
  cases decoded : code.decodeAll with
  | error fault => simp
  | ok xs =>
    simp only [List.mem_filterMap, compiled?_eq_some_iff]
    constructor
    · rintro ⟨⟨pc, i⟩, mem, word, rfl, named, compiled⟩
      exact ⟨xs, pc, word, rfl, mem, named, compiled⟩
    · rintro ⟨ys, pc, word, same, mem, named, compiled⟩
      cases same
      exact ⟨(pc, .const word), mem, word, rfl, named, compiled⟩

/-! ## What is found, each once -/

/-- What is added comes after what was found, without what is there already. -/
theorem addNew_eraseDups (xs new : List ObjectId) :
    addNew xs.eraseDups new = (xs ++ new).eraseDups := by
  induction new generalizing xs with
  | nil => simp [addNew]
  | cons id new ih =>
    have step : (if id ∈ xs.eraseDups then xs.eraseDups else xs.eraseDups ++ [id]) =
        (xs ++ [id]).eraseDups := by
      rw [List.eraseDups_append]
      by_cases there : id ∈ xs
      · simp [there, List.removeAll]
      · simp [there, List.removeAll, List.eraseDups_cons]
    rw [addNew, List.foldl_cons, step]
    exact (ih (xs ++ [id])).trans (by rw [List.append_assoc, List.singleton_append])

theorem prefix_addNew (found new : List ObjectId) : found <+: addNew found new := by
  induction new generalizing found with
  | nil => exact List.prefix_rfl
  | cons id new ih =>
    have step : found <+: if id ∈ found then found else found ++ [id] := by
      split
      · exact List.prefix_rfl
      · exact List.prefix_append _ _
    exact step.trans (ih _)

/-- Of what is there once, the first ones come from the first part. -/
theorem mem_of_before {xs ys : List ObjectId} {i j : Nat}
    (later : (xs ++ ys).eraseDups[j]? = some other) (mem : other ∈ xs) (le : i ≤ j)
    (earlier : (xs ++ ys).eraseDups[i]? = some id) : id ∈ xs := by
  rw [List.eraseDups_append] at later earlier
  have inside : j < xs.eraseDups.length := by
    by_contra outside
    rw [List.getElem?_append_right (by omega)] at later
    have rest := List.mem_of_getElem? later
    simp [List.removeAll, mem] at rest
  rw [List.getElem?_append_left (by omega)] at earlier
  exact List.mem_eraseDups.mp (List.mem_of_getElem? earlier)

theorem mem_mentionedBy {ids : List ObjectId} :
    other ∈ mentionedBy w d ids ↔ ∃ id ∈ ids, Names w d (codeOf w id) other := by
  simp [mentionedBy, mem_mentions]

theorem mentionedBy_split {ids : List ObjectId} (n : Nat) :
    mentionedBy w d ids = mentionedBy w d (ids.take n) ++ mentionedBy w d (ids.drop n) := by
  rw [mentionedBy, mentionedBy, mentionedBy, ← List.flatMap_append, List.take_append_drop]

/-- Those found are what the code and the functions before the `next`th mention. -/
structure Found (w : World) (d : Dictionary) (code : Code) (next : Nat) (found : List ObjectId) :
    Prop where
  mentioned : found = (mentions w d code ++ mentionedBy w d (found.take next)).eraseDups
  leads : ∀ id ∈ found, ∃ n, Leads w d code n id

theorem found_first (w : World) (d : Dictionary) (code : Code) :
    Found w d code 0 (addNew [] (mentions w d code)) := by
  have start := addNew_eraseDups [] (mentions w d code)
  rw [List.nil_append, List.eraseDups_nil] at start
  refine ⟨by simp [start, mentionedBy], fun id mem => ⟨0, .first ?_⟩⟩
  rw [start, List.mem_eraseDups] at mem
  exact mem_mentions.mp mem

variable {next : Nat} {found last : List ObjectId}

/-- One function more is followed. -/
theorem Found.turn (h : Found w d code next found) (there : found[next]? = some id) :
    Found w d code (next + 1) (addNew found (mentions w d (codeOf w id))) := by
  obtain ⟨inside, here⟩ := List.getElem?_eq_some_iff.mp there
  have followed : mentionedBy w d (found.take (next + 1)) =
      mentionedBy w d (found.take next) ++ mentions w d (codeOf w id) := by
    rw [List.take_succ_eq_append_getElem inside, here]
    simp [mentionedBy]
  have more : addNew found (mentions w d (codeOf w id)) =
      (mentions w d code ++ mentionedBy w d (found.take (next + 1))).eraseDups := by
    conv_lhs => rw [h.mentioned, addNew_eraseDups]
    rw [followed, List.append_assoc]
  obtain ⟨rest, kept⟩ := prefix_addNew found (mentions w d (codeOf w id))
  refine ⟨?_, fun other mem => ?_⟩
  · rw [← kept, List.take_append_of_le_length inside, kept, more]
  · rw [more, List.mem_eraseDups, followed, ← List.append_assoc, List.mem_append,
      ← List.mem_eraseDups, ← h.mentioned] at mem
    obtain old | new := mem
    · exact h.leads other old
    · obtain ⟨n, leads⟩ := h.leads id (List.mem_of_getElem? there)
      exact ⟨n + 1, leads.next (mem_mentions.mp new)⟩

/-- When all were followed, those found are all that they and the code mention. -/
theorem Follows.exhaustive (h : Follows w d next found last) (start : Found w d code next found) :
    last = (mentions w d code ++ mentionedBy w d last).eraseDups ∧
    ∀ id ∈ last, ∃ n, Leads w d code n id := by
  induction h with
  | done none =>
    have all := List.getElem?_eq_none_iff.mp none
    have mentioned := start.mentioned
    rw [List.take_of_length_le all] at mentioned
    exact ⟨mentioned, start.leads⟩
  | turn there _ ih => exact ih (start.turn there)

/-! ## The order -/

section
variable {ids : List ObjectId}
  (mentioned_eq : ids = (mentions w d code ++ mentionedBy w d ids).eraseDups)
include mentioned_eq

/-- Whatever the code leads to is mentioned by the code or by another of them. -/
theorem mem_of_leads {n : Nat} (leads : Leads w d code n id) : id ∈ ids := by
  rw [mentioned_eq, List.mem_eraseDups, List.mem_append, mem_mentionedBy]
  induction leads with
  | first named => exact .inl (mem_mentions.mpr named)
  | next _ named ih =>
    refine .inr ⟨_, ?_, named⟩
    rw [mentioned_eq, List.mem_eraseDups, List.mem_append, mem_mentionedBy]
    exact ih

/-- What comes before a function that the code mentions, the code mentions too. -/
theorem names_of_before {i j : Nat} (later : ids[j]? = some other) (named : Names w d code other)
    (le : i ≤ j) (earlier : ids[i]? = some id) : Names w d code id := by
  rw [mentioned_eq] at later earlier
  exact mem_mentions.mp (mem_of_before later (mem_mentions.mpr named) le earlier)

/-- What comes before a function that the `k`th mentions, the code mentions or one of those up to
the `k`th. -/
theorem mentioned_of_before {i j k : Nat} {follower : ObjectId} (later : ids[j]? = some other)
    (at_k : ids[k]? = some follower) (named : Names w d (codeOf w follower) other)
    (le : i ≤ j) (earlier : ids[i]? = some id) :
    Names w d code id ∨ ∃ h ≤ k, ∃ before, ids[h]? = some before ∧
      Names w d (codeOf w before) id := by
  rw [mentioned_eq, mentionedBy_split (k + 1), ← List.append_assoc] at later earlier
  obtain ⟨inside, here⟩ := List.getElem?_eq_some_iff.mp at_k
  have mem : other ∈ mentions w d code ++ mentionedBy w d (ids.take (k + 1)) := by
    refine List.mem_append_right _ (mem_mentionedBy.mpr ⟨follower, ?_, named⟩)
    exact List.mem_take_iff_getElem.mpr ⟨k, by omega, here⟩
  have first := mem_of_before later mem le earlier
  rw [List.mem_append, mem_mentions, mem_mentionedBy] at first
  refine first.imp_right ?_
  rintro ⟨before, mem, named⟩
  obtain ⟨h, bound, rfl⟩ := List.mem_take_iff_getElem.mp mem
  exact ⟨h, by omega, _, List.getElem?_eq_getElem (by omega), named⟩

/-- A function that comes before another one is no farther away. -/
theorem nearer_of_before {n i j : Nat} (later : ids[j]? = some other)
    (leads : Leads w d code n other) (le : i ≤ j) (earlier : ids[i]? = some id) :
    ∃ m ≤ n, Leads w d code m id := by
  induction n generalizing i j id other with
  | zero =>
    cases leads with
    | first named =>
      exact ⟨0, Nat.le_refl 0, .first (names_of_before mentioned_eq later named le earlier)⟩
  | succ n ih =>
    cases leads with
    | @next _ follower _ leads named =>
      obtain ⟨k, at_k⟩ := List.mem_iff_getElem?.mp (mem_of_leads mentioned_eq leads)
      obtain named | ⟨h, le, before, at_h, named⟩ :=
        mentioned_of_before mentioned_eq later at_k named le earlier
      · exact ⟨0, Nat.zero_le _, .first named⟩
      · obtain ⟨m, bound, leads⟩ := ih at_k leads le at_h
        exact ⟨m + 1, Nat.succ_le_succ bound, leads.next named⟩

end

/-! ## The end -/

theorem Leads.named {n : Nat} (h : Leads w d code n id) : ∃ code, Names w d code id := by
  cases h with
  | first named | next _ named => exact ⟨_, named⟩

/-- All are in the dictionary, so there are no more than it has entries. -/
theorem Found.length_le (h : Found w d code next found) : found.length ≤ d.size := by
  have once : (found.map Value.object).Nodup := by
    rw [h.mentioned]
    exact (nodup_eraseDups _).map fun _ _ => Value.object.inj
  have inside : found.map Value.object ⊆ d.entries.toList := by
    intro v mem
    obtain ⟨id, there, rfl⟩ := List.mem_map.mp mem
    obtain ⟨n, leads⟩ := h.leads id there
    obtain ⟨_, _, _, word, -, -, entry, -⟩ := leads.named
    unfold Dictionary.lookup? at entry
    split at entry
    · exact Array.mem_toList_iff.mpr (Array.mem_of_getElem? entry)
    · cases entry
  simpa [Dictionary.size] using (once.subperm inside).length_le

/-- There are enough turns for all that can be found. -/
theorem follows_follow {n : Nat} (h : Found w d code next found) (enough : d.size ≤ n + next) :
    Follows w d next found (follow w d n next found) := by
  have few := h.length_le
  induction n generalizing next found with
  | zero => exact .done (List.getElem?_eq_none (by omega))
  | succ n ih =>
    rw [follow]
    split
    · rename_i none
      exact .done none
    · rename_i id there
      have turned := h.turn there
      exact .turn there (ih turned (by omega) turned.length_le)

theorem follows_reached (w : World) (d : Dictionary) (code : Code) :
    Follows w d 0 (addNew [] (mentions w d code)) (reached w d code) :=
  follows_follow (found_first w d code) (Nat.le_refl _)

theorem inOrder_reached (w : World) (d : Dictionary) (code : Code) :
    InOrder w d code (reached w d code) := by
  obtain ⟨mentioned, leads⟩ := (follows_reached w d code).exhaustive (found_first w d code)
  refine ⟨fun id => ⟨leads id, fun ⟨n, h⟩ => mem_of_leads mentioned h⟩, ?_, mentioned, ?_⟩
  · rw [mentioned]
    exact nodup_eraseDups _
  · refine List.pairwise_iff_getElem.mpr fun i j _ _ less n h => ?_
    exact nearer_of_before mentioned (List.getElem?_eq_getElem _) h (Nat.le_of_lt less)
      (List.getElem?_eq_getElem _)

theorem InOrder.prefix_of_take {ids : List ObjectId} (h : InOrder w d code ids) (n : Nat) :
    (mentions w d code ++ mentionedBy w d (ids.take n)).eraseDups <+: ids := by
  conv_rhs => rw [h.mentioned, mentionedBy_split n, ← List.append_assoc, List.eraseDups_append]
  exact List.prefix_append _ _

/-- What is found is the beginning of any list that has the functions in their order. -/
theorem Follows.isPrefix {ids : List ObjectId} (h : Follows w d next found last)
    (start : Found w d code next found) (ordered : InOrder w d code ids) (first : found <+: ids) :
    last <+: ids := by
  induction h with
  | done => exact first
  | @turn next found last id there _ ih =>
    have turned := start.turn there
    have inside : next + 1 ≤ found.length := (List.getElem?_eq_some_iff.mp there).1
    refine ih turned ?_
    have same : (addNew found (mentions w d (codeOf w id))).take (next + 1) =
        ids.take (next + 1) := by
      obtain ⟨new, kept⟩ := prefix_addNew found (mentions w d (codeOf w id))
      obtain ⟨rest, whole⟩ := first
      rw [← kept, ← whole, List.take_append_of_le_length inside,
        List.take_append_of_le_length inside]
    rw [turned.mentioned, same]
    exact ordered.prefix_of_take _

/-- One list only has the functions in their order. -/
theorem inOrder_iff {ids : List ObjectId} :
    InOrder w d code ids ↔ ids = reached w d code := by
  constructor
  · intro ordered
    have first : addNew [] (mentions w d code) <+: ids := by
      rw [(found_first w d code).mentioned, List.take_zero]
      exact ordered.prefix_of_take 0
    have start := (follows_reached w d code).isPrefix (found_first w d code) ordered first
    refine (start.eq_of_length_le ?_).symm
    refine (ordered.once.subperm fun id mem => ?_).length_le
    exact ((inOrder_reached w d code).complete id).mpr ((ordered.complete id).mp mem)
  · rintro rfl
    exact inOrder_reached w d code

/-- A listing ends, and it is the block of the code that it was asked for and then those of all
functions that the code leads to, each once and in their order. A function that does not decode has
an error below its header and leads to no other. -/
theorem render_inOrder (w : World) (d : Dictionary) (name : String) (code : Code) :
    (render w d name code = "\n".intercalate
      (((name, code) :: (reached w d code).map fun id => ((w.object id).name, codeOf w id)).map
        fun shown => header shown.1 shown.2 ++ rows w d shown.2)) ∧
    Follows w d 0 (addNew [] (mentions w d code)) (reached w d code) ∧
    (∀ ids, InOrder w d code ids ↔ ids = reached w d code) ∧
    ∀ other fault, other.decodeAll = .error fault →
      rows w d other = s!"  <{fault.message}>\n" ∧ ∀ id, ¬ Names w d other id := by
  refine ⟨render_eq w d name code, follows_reached w d code, fun _ => inOrder_iff, ?_⟩
  intro other fault refused
  refine ⟨rows_error w d refused, fun id => ?_⟩
  rintro ⟨xs, _, _, decoded, -⟩
  rw [refused] at decoded
  cases decoded

/-- The code mentions `g`, which mentions itself and `f`, and `f` does not decode. -/
theorem render_inOrder_cycle :
    let f := HostObject.ofCode "f" (.make 1 1 #[99])
    let g := HostObject.ofCode "g" (.ofInstrs 1 1 [.const (.interned 1), .const (.interned 0), .ret])
    let w : World := ⟨#[f, g], #[], #[], #[], "", false⟩
    let d : Dictionary := .internAll .empty [.object ⟨0⟩, .object ⟨1⟩]
    let code := Code.ofInstrs 1 1 [.const (.interned 1), .ret]
    InOrder w d code [⟨1⟩, ⟨0⟩] ∧ rows w d (.make 1 1 #[99]) = "  <unknown opcode 99 at 0>\n" ∧
    ∀ id, ¬ Names w d (.make 1 1 #[99]) id := by
  intro f g w d code
  have refused : (Code.make 1 1 #[99]).decodeAll = .error (.unknownOpcode 99 0) := by cbv
  obtain ⟨-, -, ordered, errors⟩ := render_inOrder w d "main" code
  exact ⟨(ordered _).mpr (by decide +kernel), errors _ _ refused⟩

end Listing
end TaggedScript
