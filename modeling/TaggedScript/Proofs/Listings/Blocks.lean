import TaggedScript.Machine.Listing

/-!
The text of a listing: one block for each function, with its header, and in it one line for each
instruction.
-/
namespace TaggedScript
namespace Listing

theorem nodup_eraseDups {α : Type} [DecidableEq α] (xs : List α) : xs.eraseDups.Nodup := by
  generalize size : xs.length = n
  induction n using Nat.strongRecOn generalizing xs with
  | ind n ih =>
    cases xs with
    | nil => exact List.nodup_nil
    | cons x xs =>
      rw [List.length_cons] at size
      rw [List.eraseDups_cons, List.nodup_cons]
      refine ⟨by simp, ih _ ?_ _ rfl⟩
      exact Nat.lt_of_le_of_lt (List.length_filter_le _ _) (by omega)

/-- The code of a function. -/
def codeOf (w : World) (id : ObjectId) : Code := (w.object id).code?.getD default

/-- The first line of the block of a function. -/
def header (name : String) (code : Code) : String :=
  s!"{name} (params: {code.parameterCount}, slots: {code.slotCount})\n"

/-- The lines of instructions, in which the labels of all their jumps are known. -/
def linesOf (w : World) (d : Dictionary) (xs : List (Nat × Instr)) : List String :=
  xs.map fun (pc, i) => line w d (targets xs) pc i

/-- What is below the header. -/
def rows (w : World) (d : Dictionary) (code : Code) : String :=
  match code.decodeAll with
  | .error fault => s!"  <{fault.message}>\n"
  | .ok xs => String.join (linesOf w d xs)

theorem rows_ok (w : World) (d : Dictionary) {code : Code} {xs : List (Nat × Instr)}
    (decoded : code.decodeAll = .ok xs) : rows w d code = String.join (linesOf w d xs) := by
  rw [rows, decoded]

theorem rows_error (w : World) (d : Dictionary) {code : Code} {fault : DecodeFault}
    (refused : code.decodeAll = .error fault) : rows w d code = s!"  <{fault.message}>\n" := by
  rw [rows, refused]

theorem functionText_eq (w : World) (d : Dictionary) (name : String) (code : Code) :
    functionText w d name code = header name code ++ rows w d code := by
  unfold functionText rows
  cases code.decodeAll <;> rfl

theorem join_blocks (first : String) (blocks : List String) :
    first ++ String.join (blocks.map ("\n" ++ ·)) = "\n".intercalate (first :: blocks) := by
  induction blocks generalizing first with
  | nil => simp
  | cons block blocks ih =>
    rw [String.intercalate_cons_cons, ← ih, List.map_cons, String.join_cons]
    simp only [String.append_assoc]

/-- The blocks follow one another with an empty line between them. -/
theorem render_eq (w : World) (d : Dictionary) (name : String) (code : Code) :
    render w d name code = "\n".intercalate
      (((name, code) :: (reached w d code).map fun id => ((w.object id).name, codeOf w id)).map
        fun shown => header shown.1 shown.2 ++ rows w d shown.2) := by
  rw [List.map_cons, ← join_blocks, List.map_map, List.map_map]
  simp only [render, functionText_eq, Function.comp_def]
  rfl

end Listing
end TaggedScript
