import Mathlib.Algebra.GroupWithZero.Nat
import TaggedScript.Machine.Heap

/-!
The records of a run in the order in which they were made. A record is named by the room that all
records before it take.
-/
namespace TaggedScript

/-- The room that a record takes. -/
def recordRoom (t : Table) : Nat := Heap.headerSize + t.length

/-- The room that all records take, which is where the next one begins. -/
def roomOf (records : List Table) : Nat := (records.map recordRoom).sum

/-- The record that begins at an offset. -/
def recordAt? : List Table → Nat → Option Table
  | [], _ => none
  | t :: rest, offset =>
    if offset = 0 then some t
    else if recordRoom t ≤ offset then recordAt? rest (offset - recordRoom t)
    else none

/-- Replaces the record that begins at an offset. -/
def setRecord : List Table → Nat → Table → List Table
  | [], _, _ => []
  | t :: rest, offset, u =>
    if offset = 0 then u :: rest
    else if recordRoom t ≤ offset then t :: setRecord rest (offset - recordRoom t) u
    else t :: rest

theorem recordRoom_pos (t : Table) : 0 < recordRoom t := by
  rw [recordRoom, Heap.headerSize]
  omega

/-- A record stays where it is when others are made. -/
theorem recordAt?_append {records : List Table} (more : List Table) {offset : Nat} {t : Table}
    (h : recordAt? records offset = some t) : recordAt? (records ++ more) offset = some t := by
  induction records generalizing offset with
  | nil => simp [recordAt?] at h
  | cons u rest ih =>
    simp only [List.cons_append, recordAt?] at h ⊢
    split at h
    · rename_i first
      rw [if_pos first]
      exact h
    · rename_i later
      rw [if_neg later]
      split at h
      · rename_i beyond
        rw [if_pos beyond]
        exact ih h
      · cases h

/-- Records are named by numbers below the room that all of them take. -/
theorem recordAt?_lt {records : List Table} {offset : Nat}
    (h : (recordAt? records offset).isSome = true) : offset < roomOf records := by
  induction records generalizing offset with
  | nil => cases h
  | cons t rest ih =>
    have room := recordRoom_pos t
    have size : roomOf (t :: rest) = recordRoom t + roomOf rest := by simp [roomOf]
    rw [size]
    simp only [recordAt?] at h
    split at h
    · omega
    · split at h
      · have inside := ih h
        omega
      · cases h

/-- A new record begins where the others end. -/
theorem recordAt?_new (records : List Table) (t : Table) :
    recordAt? (records ++ [t]) (roomOf records) = some t := by
  induction records with
  | nil => simp [recordAt?, roomOf]
  | cons u rest ih =>
    have room := recordRoom_pos u
    have size : roomOf (u :: rest) = recordRoom u + roomOf rest := by simp [roomOf]
    simp only [List.cons_append, recordAt?, size]
    rw [if_neg (by omega), if_pos (by omega), Nat.add_sub_cancel_left]
    exact ih

/-- There is no other record after one was made than those before and the new one. -/
theorem recordAt?_append_cases {records : List Table} {t : Table} {offset : Nat}
    (h : (recordAt? (records ++ [t]) offset).isSome = true) :
    (recordAt? records offset).isSome = true ∨ offset = roomOf records := by
  induction records generalizing offset with
  | nil =>
    simp only [List.nil_append, recordAt?] at h
    split at h
    · rename_i first
      exact .inr first
    · split at h <;> cases h
  | cons u rest ih =>
    have size : roomOf (u :: rest) = recordRoom u + roomOf rest := by simp [roomOf]
    simp only [List.cons_append, recordAt?] at h ⊢
    split at h
    · rename_i first
      rw [if_pos first]
      exact .inl rfl
    · rename_i later
      rw [if_neg later]
      split at h
      · rename_i beyond
        rw [if_pos beyond, size]
        exact (ih h).imp_right fun last => by omega
      · cases h

/-- A record with as many fields as the one it replaces leaves all others where they are. -/
theorem recordAt?_setRecord {records : List Table} {offset : Nat} {t u : Table}
    (h : recordAt? records offset = some t) (size : u.length = t.length) (other : Nat) :
    recordAt? (setRecord records offset u) other =
      if other = offset then some u else recordAt? records other := by
  induction records generalizing offset other with
  | nil => simp [recordAt?] at h
  | cons r rest ih =>
    have room := recordRoom_pos r
    simp only [recordAt?] at h
    simp only [setRecord]
    by_cases first : offset = 0
    · rw [if_pos first] at h
      injection h with same
      subst same
      have rooms : recordRoom u = recordRoom r := by simp [recordRoom, size]
      rw [if_pos first]
      simp only [recordAt?, first, rooms]
      split <;> rfl
    · rw [if_neg first] at h ⊢
      split at h
      · rename_i beyond
        rw [if_pos beyond]
        simp only [recordAt?, ih h]
        by_cases here : other = 0
        · have apart : other ≠ offset := by omega
          rw [if_pos here, if_neg apart, if_pos here]
        · rw [if_neg here, if_neg here]
          by_cases inside : recordRoom r ≤ other
          · rw [if_pos inside, if_pos inside]
            by_cases same : other = offset
            · rw [if_pos same, if_pos (by rw [same])]
            · rw [if_neg same, if_neg (by omega)]
          · have apart : other ≠ offset := by omega
            rw [if_neg inside, if_neg inside, if_neg apart]
      · cases h

end TaggedScript
