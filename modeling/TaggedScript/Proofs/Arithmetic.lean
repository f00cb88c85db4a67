import Mathlib.Data.Rat.Floor
import TaggedScript.Proofs.Effects
import TaggedScript.Proofs.WorldLaws

/-!
Arithmetic on integers of 32 bits beside arithmetic without bounds. An operator gives the exact
result if it fits and says why there is none otherwise. A remainder is checked with its quotient,
so the one remainder whose quotient does not fit is refused although it would fit itself.
-/
namespace TaggedScript

/-- A number without its fraction. -/
def truncate (q : ℚ) : ℤ := if 0 ≤ q then ⌊q⌋ else ⌈q⌉

namespace Operator

/-- The operators that compute with integers. -/
inductive Computes : Operator → Prop
  | add : Computes add
  | sub : Computes sub
  | mul : Computes mul
  | div : Computes div
  | rem : Computes rem

/-- What an operator makes of two integers of any size. Nothing can be divided by zero. -/
def value? : Operator → ℤ → ℤ → Option ℤ
  | add, a, b => some (a + b)
  | sub, a, b => some (a - b)
  | mul, a, b => some (a * b)
  | div, a, b => if b = 0 then none else some (truncate (a / b))
  | rem, a, b => if b = 0 then none else some (a - b * truncate (a / b))
  | _, _, _ => none

/-- The remainder of a division whose quotient has no 32 bits. -/
def Excepted (op : Operator) (a b : Int32) : Prop := op = rem ∧ a = Int32.minValue ∧ b = -1

instance (op : Operator) (a b : Int32) : Decidable (op.Excepted a b) :=
  inferInstanceAs (Decidable (_ ∧ _ ∧ _))

end Operator

/-! ## Quotients and remainders -/

theorem truncate_natCast_div (n d : ℕ) : truncate ((n : ℤ) / (d : ℤ)) = (n : ℤ).tdiv d := by
  have sign : (0 : ℚ) ≤ (n : ℤ) / (d : ℤ) := by positivity
  rw [truncate, if_pos sign, Int.tdiv_eq_ediv_of_nonneg (Int.natCast_nonneg n)]
  exact Rat.floor_intCast_div_natCast n d

theorem truncate_neg (q : ℚ) : truncate (-q) = -truncate q := by
  rw [truncate, truncate]
  obtain low | rfl | high := lt_trichotomy q 0
  · rw [if_pos (by linarith), if_neg (by linarith), Int.floor_neg]
  · simp
  · rw [if_neg (by linarith), if_pos (by linarith), Int.ceil_neg]

theorem truncate_div (a b : ℤ) : truncate (a / b) = a.tdiv b := by
  obtain ⟨n, rfl | rfl⟩ := a.eq_nat_or_neg
  · obtain ⟨d, rfl | rfl⟩ := b.eq_nat_or_neg
    · exact truncate_natCast_div n d
    · rw [Int.cast_neg, div_neg, truncate_neg, truncate_natCast_div, Int.tdiv_neg]
  · obtain ⟨d, rfl | rfl⟩ := b.eq_nat_or_neg
    · rw [Int.cast_neg, neg_div, truncate_neg, truncate_natCast_div, Int.neg_tdiv]
    · rw [Int.cast_neg, Int.cast_neg, neg_div_neg_eq, truncate_natCast_div, Int.tdiv_neg,
        Int.neg_tdiv, neg_neg]

theorem fitsInt32_iff {n : ℤ} : fitsInt32 n = true ↔ -2147483648 ≤ n ∧ n ≤ 2147483647 := by
  rw [fitsInt32, Bool.and_eq_true, decide_eq_true_eq, decide_eq_true_eq]

theorem fitsInt32_toInt (a : Int32) : fitsInt32 a.toInt = true := by
  have low := a.le_toInt
  have high := a.toInt_lt
  exact fitsInt32_iff.mpr ⟨low, by omega⟩

theorem toInt_eq_zero_iff {b : Int32} : b.toInt = 0 ↔ b = 0 := by
  rw [← Int32.toInt_inj, Int32.toInt_zero]

/-- The one quotient that has no 32 bits. -/
theorem fitsInt32_tdiv_iff (a b : Int32) :
    fitsInt32 (a.toInt.tdiv b.toInt) = true ↔ ¬ (a = Int32.minValue ∧ b = -1) := by
  have low := a.le_toInt
  have high := a.toInt_lt
  have least : a = Int32.minValue ↔ a.toInt = -2147483648 := by rw [← Int32.toInt_inj]; rfl
  have minus : b = -1 ↔ b.toInt = -1 := by rw [← Int32.toInt_inj]; rfl
  rw [fitsInt32_iff, least, minus]
  by_cases one : b.toInt.natAbs = 1
  · obtain plus | minus : b.toInt = 1 ∨ b.toInt = -1 := by omega
    · rw [plus, Int.tdiv_one]
      omega
    · rw [minus, Int.tdiv_neg, Int.tdiv_one]
      omega
  · have size : (a.toInt.tdiv b.toInt).natAbs = a.toInt.natAbs / b.toInt.natAbs :=
      Int.natAbs_tdiv a.toInt b.toInt
    have half : a.toInt.natAbs / b.toInt.natAbs ≤ 2147483648 / 2 := by
      by_cases zero : b.toInt.natAbs = 0
      · simp [zero]
      · exact Nat.div_le_div (by omega) (by omega) (by omega)
    omega

theorem fitsInt32_tmod {a b : Int32} (nonzero : b ≠ 0) :
    fitsInt32 (a.toInt.tmod b.toInt) = true := by
  have low := b.le_toInt
  have high := b.toInt_lt
  have positive := mt toInt_eq_zero_iff.mp nonzero
  have size := Int.natAbs_tmod a.toInt b.toInt
  have small := Nat.mod_lt a.toInt.natAbs (y := b.toInt.natAbs) (by omega)
  rw [fitsInt32_iff]
  omega

namespace Operator
variable {op : Operator} {a b : Int32}

theorem value?_div (a : ℤ) {b : ℤ} (nonzero : b ≠ 0) : div.value? a b = some (a.tdiv b) := by
  rw [value?, if_neg nonzero, truncate_div]

theorem value?_rem (a : ℤ) {b : ℤ} (nonzero : b ≠ 0) : rem.value? a b = some (a.tmod b) := by
  rw [value?, if_neg nonzero, truncate_div, Int.tmod_def]

theorem value?_eq_none_iff (computes : op.Computes) {a b : ℤ} :
    op.value? a b = none ↔ (op = div ∨ op = rem) ∧ b = 0 := by
  cases computes <;> simp [value?]

/-- What an operator makes of integers of 32 bits. -/
theorem arithmetic_eq (computes : op.Computes) (a b : Int32) :
    op.arithmetic a b =
      match op.value? a.toInt b.toInt with
      | none => .error .divisionByZero
      | some r =>
        if fitsInt32 r = true ∧ ¬ op.Excepted a b then .ok (.int (Int32.ofInt r))
        else .error (.overflow op a b) := by
  cases computes with
  | add | sub | mul => simp [arithmetic, divides, bounded, exact, value?, Excepted]
  | div =>
    by_cases zero : b = 0
    · simp [arithmetic, divides, value?, zero]
    · rw [value?_div _ (mt toInt_eq_zero_iff.mp zero)]
      by_cases fits : fitsInt32 (a.toInt.tdiv b.toInt) = true <;>
        simp [arithmetic, divides, bounded, exact, Excepted, zero, fits]
  | rem =>
    by_cases zero : b = 0
    · simp [arithmetic, divides, value?, zero]
    · rw [value?_rem _ (mt toInt_eq_zero_iff.mp zero)]
      simp [arithmetic, divides, bounded, exact, Excepted, zero, fitsInt32_tdiv_iff,
        fitsInt32_tmod zero]

end Operator

/-! ## The builtins -/

section
variable {w : World} {id : ObjectId} {op : Operator}

theorem invoke_operator (body : (w.object id).body = .native (.operator op)) (receiver : Value)
    (args : List Value) : invoke id receiver args w = callOperator op args w := by
  simp only [invoke, bind_eq, get_eq, invokeWithin_operator body]

/-- A builtin that computes gives the exact result, or fails, and the world stays as it is. -/
theorem invoke_arithmetic (computes : op.Computes)
    (body : (w.object id).body = .native (.operator op)) (receiver : Value) (a b : Int32) :
    invoke id receiver [.int a, .int b] w =
      match op.value? a.toInt b.toInt with
      | none => .error .divisionByZero w
      | some r =>
        if fitsInt32 r = true ∧ ¬ op.Excepted a b then .ok (.int (Int32.ofInt r)) w
        else .error (.overflow op a b) w := by
  have applied : op.apply w (.int a) (.int b) = op.arithmetic a b := by
    cases computes <;> rfl
  rw [invoke_operator body]
  simp only [callOperator, bind_eq, get_eq, applied, op.arithmetic_eq computes]
  cases op.value? a.toInt b.toInt with
  | none => rfl
  | some r =>
    by_cases given : fitsInt32 r = true ∧ ¬ op.Excepted a b
    · simp only [if_pos given]
      rfl
    · simp only [if_neg given]
      rfl

/-- An action fails with that message and leaves the world as it was. -/
def FailsWith (x : Action Value) (w : World) (message : String) : Prop :=
  ∃ e, x w = .error e w ∧ e.message = message

theorem not_failsWith {x : Action Value} {v : Value} {u : World} (ok : x w = .ok v u)
    (message : String) : ¬ FailsWith x w message := by
  rintro ⟨e, error, -⟩
  rw [ok] at error
  cases error

theorem failsWith_iff {x : Action Value} {e : Failure} (error : x w = .error e w)
    (message : String) : FailsWith x w message ↔ e.message = message := by
  constructor
  · rintro ⟨d, same, rfl⟩
    rw [error] at same
    cases same
    rfl
  · intro text
    exact ⟨e, error, text⟩

theorem overflow_text_ne (op : Operator) (a b : Int32) :
    s!"integer overflow in {a.toInt} {op.symbol} {b.toInt}" ≠ "division by zero" := by
  intro same
  have first := congrArg (fun text => text.toList.head?) same
  simp [toString] at first

/-- The symbol of an operator is bound to its builtin. -/
def World.Binds (w : World) (op : Operator) : Prop :=
  ∃ id, id.index < w.objects.size ∧ w.global op.symbol = .object id ∧
    (w.object id).body = .native (.operator op)

theorem World.Binds.install {w : World} (binds : w.Binds op) {name : String}
    (other : op.symbol ≠ name) (native : Native) : (w.install name native).Binds op := by
  obtain ⟨id, inside, bound, body⟩ := binds
  refine ⟨id, ?_, ?_, ?_⟩
  · rw [objects_size_install]
    omega
  · rw [global_install, if_neg (fun same => other same.1), bound]
  · rw [object_install, if_neg (Nat.ne_of_lt inside), body]

theorem World.binds_install {w : World} (some : 0 < w.scopes.size) (op : Operator) :
    (w.install op.symbol (.operator op)).Binds op := by
  refine ⟨⟨w.objects.size⟩, ?_, ?_, ?_⟩
  · rw [objects_size_install]
    exact Nat.lt_succ_self _
  · rw [global_install, if_pos ⟨rfl, some⟩]
  · rw [object_install, if_pos rfl]
    rfl

theorem Operator.symbol_inj {op o : Operator} : op.symbol = o.symbol ↔ op = o := by
  constructor
  · intro same
    cases op <;> cases o <;> first | rfl | simp [symbol] at same
  · rintro rfl
    rfl

/-- A new world binds the symbols of all operators to their builtins. -/
theorem World.binds_initial (closed : Bool) (op : Operator) : (World.initial closed).Binds op := by
  have installed (ops : List Operator) {w : World} (some : 0 < w.scopes.size)
      (bound : op ∈ ops ∨ w.Binds op) :
      (ops.foldl (fun w op => w.install op.symbol (.operator op)) w).Binds op := by
    induction ops generalizing w with
    | nil => exact bound.resolve_left List.not_mem_nil
    | cons first ops ih =>
      refine ih (by rwa [scopes_size_install]) ?_
      by_cases same : op = first
      · exact .inr (same ▸ binds_install some op)
      · obtain listed | bound := bound
        · exact .inl ((List.mem_cons.mp listed).resolve_left same)
        · exact .inr (bound.install (fun symbol => same (Operator.symbol_inj.mp symbol)) _)
  refine installed Operator.all (by rw [scopes_size_install]; exact Nat.one_pos) (.inl ?_)
  cases op <;> decide

/-- Called with two integers, the builtin of `+`, `-`, `*`, `/` or `%` returns the exact result if
there is one that fits; it fails for a division by zero if there is none, and for an overflow if
there is one that does not fit. Only the remainder of the division whose quotient does not fit is
an overflow too. -/
theorem builtins_exact (computes : op.Computes)
    (body : (w.object id).body = .native (.operator op)) (receiver : Value) (a b : Int32) :
    (∀ closed, (World.initial closed).Binds op) ∧
    (∀ r : Int32, invoke id receiver [.int a, .int b] w = .ok (.int r) w ↔
      op.value? a.toInt b.toInt = some r.toInt ∧ ¬ op.Excepted a b) ∧
    (FailsWith (invoke id receiver [.int a, .int b]) w "division by zero" ↔
      (op = .div ∨ op = .rem) ∧ b = 0) ∧
    (FailsWith (invoke id receiver [.int a, .int b]) w
        s!"integer overflow in {a.toInt} {op.symbol} {b.toInt}" ↔
      (∃ n, op.value? a.toInt b.toInt = some n ∧ ¬ (-2 ^ 31 ≤ n ∧ n < 2 ^ 31)) ∨
        op.Excepted a b) := by
  have call := invoke_arithmetic computes body receiver a b
  have zero_iff := op.value?_eq_none_iff computes (a := a.toInt) (b := b.toInt)
  rw [toInt_eq_zero_iff] at zero_iff
  have apart := overflow_text_ne op a b
  refine ⟨fun closed => World.binds_initial closed op, ?_⟩
  cases value : op.value? a.toInt b.toInt with
  | none =>
    simp only [value] at call
    have zero := zero_iff.mp value
    have regular : ¬ op.Excepted a b := by
      rintro ⟨-, -, rfl⟩
      exact absurd zero.2 (by decide)
    refine ⟨fun r => by simp [call], ?_, ?_⟩
    · rw [failsWith_iff call]
      exact iff_of_true rfl zero
    · rw [failsWith_iff call]
      exact iff_of_false apart.symm (by simp [regular])
  | some n =>
    simp only [value] at call
    have nonzero := mt zero_iff.mpr (by simp [value])
    by_cases given : fitsInt32 n = true ∧ ¬ op.Excepted a b
    · rw [if_pos given] at call
      have range := fitsInt32_iff.mp given.1
      have back : (Int32.ofInt n).toInt = n := Int32.toInt_ofInt_of_le range.1 (by omega)
      refine ⟨fun r => ?_, ?_, ?_⟩
      · simp only [call, EStateM.Result.ok.injEq, Value.int.injEq, and_true, Option.some.injEq,
          given.2, not_false_eq_true, ← Int32.toInt_inj, back]
      · exact iff_of_false (not_failsWith call _) nonzero
      · refine iff_of_false (not_failsWith call _) ?_
        simp [given.2]
        omega
    · rw [if_neg given] at call
      refine ⟨fun r => ?_, ?_, ?_⟩
      · refine iff_of_false (by simp [call]) ?_
        rintro ⟨same, regular⟩
        obtain rfl := Option.some.inj same
        exact given ⟨fitsInt32_toInt r, regular⟩
      · rw [failsWith_iff call]
        exact iff_of_false apart nonzero
      · rw [failsWith_iff call]
        refine iff_of_true rfl ?_
        by_cases excepted : op.Excepted a b
        · exact .inr excepted
        · exact .inl ⟨n, rfl, fun range =>
            given ⟨fitsInt32_iff.mpr ⟨range.1, by omega⟩, excepted⟩⟩

/-- Quotients toward zero, by zero and out of bounds. -/
theorem builtins_exact_quotients :
    ∃ id, (World.initial false).global "/" = .object id ∧
      ((World.initial false).object id).body = .native (.operator .div) ∧
      invoke id .undefined [.int (-7), .int 2] (World.initial false) =
        .ok (.int (-3)) (World.initial false) ∧
      FailsWith (invoke id .undefined [.int 1, .int 0]) (World.initial false) "division by zero" ∧
      FailsWith (invoke id .undefined [.int Int32.minValue, .int (-1)]) (World.initial false)
        "integer overflow in -2147483648 / -1" := by
  obtain ⟨id, -, bound, body⟩ := World.binds_initial false .div
  have exact_value (a b : Int32) := builtins_exact .div body .undefined a b
  refine ⟨id, bound, body, ?_, ?_, ?_⟩
  · refine ((exact_value (-7) 2).2.1 (-3)).mpr ⟨?_, by decide⟩
    rw [Operator.value?_div _ (by decide)]
    decide
  · exact (exact_value 1 0).2.2.1.mpr (by decide)
  · have text : (Failure.overflow .div Int32.minValue (-1)).message =
        "integer overflow in -2147483648 / -1" := by decide +kernel
    rw [← text]
    refine (exact_value Int32.minValue (-1)).2.2.2.mpr (.inl ⟨2147483648, ?_, by decide⟩)
    rw [Operator.value?_div _ (by decide)]
    decide

/-- A remainder that fits and is refused. -/
theorem exists_remainder_refused :
    ∃ id, (World.initial false).global "%" = .object id ∧
      Operator.rem.value? Int32.minValue.toInt (-1 : Int32).toInt = some 0 ∧
      FailsWith (invoke id .undefined [.int Int32.minValue, .int (-1)]) (World.initial false)
        "integer overflow in -2147483648 % -1" := by
  obtain ⟨id, -, bound, body⟩ := World.binds_initial false .rem
  have value : Operator.rem.value? Int32.minValue.toInt (-1 : Int32).toInt = some 0 := by
    rw [Operator.value?_rem _ (by decide)]
    decide
  have call := invoke_arithmetic .rem body .undefined Int32.minValue (-1)
  simp only [value] at call
  rw [if_neg (by decide)] at call
  exact ⟨id, bound, value, _, call, by decide +kernel⟩

end
end TaggedScript
