import Mathlib.Data.Nat.Init
import TaggedScript.Proofs.Syntax.Locality
import TaggedScript.Proofs.Syntax.Operands
import TaggedScript.Proofs.Syntax.Progress

/-!
Chains of operands with operators between them. The parser reads a chain from left to right, one
loop inside the other for each precedence. What it makes of it is the tree that one gets by
splitting the chain at its loosest operators, from the right.
-/
namespace TaggedScript

/-- The tokens that may go on with an expression. -/
def Token.goesOn : Token → Bool
  | op _ | assign | lparen | dot => true
  | _ => false

namespace Operator
variable {α : Type}

/-- An operator in a chain with the operand after it, and what stands on both sides. -/
structure Place (α : Type) where
  before : List (Operator × α)
  operator : Operator
  operand : α
  after : List (Operator × α)

/-- The rightmost of the loosest operators. -/
def loosest (p : Operator × α) : List (Operator × α) → Place α
  | [] => ⟨[], p.1, p.2, []⟩
  | q :: ps =>
    let later := loosest q ps
    if p.1.precedence < later.operator.precedence then ⟨[], p.1, p.2, q :: ps⟩
    else { later with before := p :: later.before }

theorem eq_loosest (p : Operator × α) (ps : List (Operator × α)) :
    p :: ps = (loosest p ps).before ++
      ((loosest p ps).operator, (loosest p ps).operand) :: (loosest p ps).after := by
  induction ps generalizing p with
  | nil => rfl
  | cons q ps ih =>
    rw [loosest]
    split
    · rfl
    · rw [List.cons_append, ← ih q]

theorem mem_loosest (p : Operator × α) (ps : List (Operator × α)) :
    ((loosest p ps).operator, (loosest p ps).operand) ∈ p :: ps := by
  have whole := eq_loosest p ps
  generalize loosest p ps = place at whole ⊢
  rw [whole]
  exact List.mem_append_right _ List.mem_cons_self

theorem length_loosest (p : Operator × α) (ps : List (Operator × α)) :
    (loosest p ps).before.length + (loosest p ps).after.length = ps.length := by
  have length := congrArg List.length (eq_loosest p ps)
  simp only [List.length_cons, List.length_append] at length
  omega

theorem loosest_of_append {o : Operator} {v : α} {p : Operator × α}
    {before after ps : List (Operator × α)} (whole : before ++ (o, v) :: after = p :: ps)
    (looser : ∀ q ∈ before, o.precedence ≤ q.1.precedence)
    (tighter : ∀ q ∈ after, o.precedence < q.1.precedence) :
    loosest p ps = ⟨before, o, v, after⟩ := by
  induction ps generalizing p before with
  | nil =>
    obtain ⟨rfl, here⟩ | ⟨x, _, none⟩ := List.append_eq_cons_iff.mp whole
    · cases here
      rfl
    · simp at none
  | cons q ps ih =>
    obtain ⟨rfl, here⟩ | ⟨before, rfl, later⟩ := List.append_eq_cons_iff.mp whole
    · cases here
      exact if_pos (tighter _ (mem_loosest q ps))
    · have bound := looser p List.mem_cons_self
      rw [loosest, ih later.symm fun x hx => looser x (List.mem_cons_of_mem p hx)]
      exact if_neg (Nat.not_lt.mpr bound)

/-- Operators that bind more tightly come first, and then one of this level or none. -/
theorem exists_tighter (level : Nat) (ps : List (Operator × α))
    (bound : ∀ p ∈ ps, level ≤ p.1.precedence) :
    ∃ tight later, ps = tight ++ later ∧ (∀ p ∈ tight, level < p.1.precedence) ∧
      (∀ p ∈ later.head?, p.1.precedence = level) := by
  induction ps with
  | nil => exact ⟨[], [], rfl, nofun, nofun⟩
  | cons p ps ih =>
    obtain tight | here := Nat.lt_or_eq_of_le (bound p List.mem_cons_self)
    · obtain ⟨tights, later, rfl, all, first⟩ := ih fun q hq => bound q (List.mem_cons_of_mem p hq)
      refine ⟨p :: tights, later, rfl, ?_, first⟩
      exact List.forall_mem_cons.mpr ⟨tight, all⟩
    · refine ⟨[], p :: ps, rfl, nofun, ?_⟩
      rintro q ⟨rfl⟩
      exact here.symm

end Operator

namespace Parser
open Operator

/-- One operand from where the cursor stands. -/
def parseUnary : Parser Expr := do unary (allowance (← get))

/-- Tokens that are read as one operand, up to the last. -/
structure Chain.Operand where
  lexemes : List Lexeme
  tree : Expr
  reads : ∃ d, parseUnary (.ofLexemes lexemes) = .ok tree d ∧ d.rest = []

def Chain.Operand.tokens (u : Chain.Operand) : List Token := u.lexemes.map (·.token)

/-- Operands with operators between them. -/
structure Chain where
  first : Chain.Operand
  later : List (Operator × Chain.Operand)

namespace Chain

/-- The tokens of operators and the operands after them. -/
def laterTokens (later : List (Operator × Operand)) : List Token :=
  later.flatMap fun p => .op p.1 :: p.2.tokens

def tokens (k : Chain) : List Token := k.first.tokens ++ laterTokens k.later

theorem laterTokens_cons (o : Operator) (v : Operand) (later : List (Operator × Operand)) :
    laterTokens ((o, v) :: later) = .op o :: tokens ⟨v, later⟩ := by
  rw [laterTokens, List.flatMap_cons, tokens, laterTokens, List.cons_append]

theorem tokens_append (u : Operand) (done later : List (Operator × Operand)) :
    tokens ⟨u, done ++ later⟩ = tokens ⟨u, done⟩ ++ laterTokens later := by
  simp only [tokens, laterTokens, List.flatMap_append, List.append_assoc]

/-- The call of the loosest operator, the rightmost of them if there are several, with the trees of
both sides. -/
def tree : Chain → Expr
  | ⟨u, []⟩ => u.tree
  | ⟨u, p :: ps⟩ =>
    let split := loosest p ps
    .binary split.operator .none (tree ⟨u, split.before⟩) (tree ⟨split.operand, split.after⟩)
termination_by k => k.later.length
decreasing_by
  all_goals
    have length := length_loosest p ps
    simp only [List.length_cons]
    omega

theorem tree_append {o : Operator} {u v : Operand} {before after : List (Operator × Operand)}
    (looser : ∀ q ∈ before, o.precedence ≤ q.1.precedence)
    (tighter : ∀ q ∈ after, o.precedence < q.1.precedence) :
    tree ⟨u, before ++ (o, v) :: after⟩ = .binary o .none (tree ⟨u, before⟩) (tree ⟨v, after⟩) := by
  obtain ⟨p, ps, whole⟩ := List.exists_cons_of_ne_nil (l := before ++ (o, v) :: after) (by simp)
  rw [whole, tree, loosest_of_append whole looser tighter]

end Chain

/-- What may come after a chain of operators that bind at least as tightly as `level`: nothing that
would go on with it. -/
structure ChainEnd (level : Nat) (after : List Token) : Prop where
  call : after.head? ≠ some .lparen
  field : after.head? ≠ some .dot
  operator : ∀ o, after.head? = some (.op o) → o.precedence < level

/-- Tighter chains end before operators of this level too. -/
theorem ChainEnd.tighter {level : Nat} {after : List Token} (ends : ChainEnd level after)
    {later : List (Operator × Chain.Operand)} (first : ∀ p ∈ later.head?, p.1.precedence = level) :
    ChainEnd (level + 1) (Chain.laterTokens later ++ after) := by
  cases later with
  | nil => exact ⟨ends.call, ends.field, fun o h => Nat.lt_succ_of_lt (ends.operator o h)⟩
  | cons p later =>
    refine ⟨nofun, nofun, ?_⟩
    rintro o ⟨rfl⟩
    exact Nat.lt_succ_of_le (Nat.le_of_eq (first p rfl))

/-- An operand is read in a chain as it is read alone. -/
theorem Chain.Operand.takes (u : Chain.Operand) {level : Nat} {after : List Token}
    (ends : ChainEnd level after) :
    Takes (16 * (u.lexemes.length + 1)) unary u.tokens after u.tree.Same := by
  intro n room c place
  obtain ⟨d, reads, all⟩ := u.reads
  obtain ⟨k, rfl⟩ := Nat.exists_eq_add_of_le' room
  -- More allowance makes no difference to the operand alone, and what comes after it neither.
  have alone : unary (k + 16 * (u.lexemes.length + 1)) (.ofLexemes u.lexemes) = .ok u.tree d := by
    rw [← reads]
    exact ((settles _ k).unary (.ofLexemes u.lexemes) (by simp [Cursor.ofLexemes]; omega)).1.symm
  obtain ⟨-, go⟩ := mimics_unary _ ends.call ends.field _ _ _ alone (.inl trivial)
  obtain ⟨a, d', result, same, place'⟩ := go c place
  refine ⟨a, d', result, same, ?_⟩
  rw [place', Cursor.tokens, all]
  rfl

/-- With enough allowance a chain of operators that bind at least as tightly as `level` is read as
its tree. -/
def ReadsChains (level : Nat) : Prop :=
  ∀ (k : Chain) (after : List Token), (∀ p ∈ k.later, level ≤ p.1.precedence) →
    ChainEnd level after → ∃ need, Takes need (binary · level) k.tokens after k.tree.Same

section
variable {level : Nat} {after : List Token}

/-- The loop of a level goes on with a chain of which `done` is behind it. -/
theorem takes_binaryTail (tighter : ReadsChains (level + 1)) (ends : ChainEnd level after)
    (u : Chain.Operand) (done later : List (Operator × Chain.Operand))
    (before : ∀ p ∈ done, level ≤ p.1.precedence) (bound : ∀ p ∈ later, level ≤ p.1.precedence)
    (first : ∀ p ∈ later.head?, p.1.precedence = level) :
    ∃ need, ∀ left, (Chain.tree ⟨u, done⟩).Same left →
      Takes need (binaryTail · level left) (Chain.laterTokens later) after
        (Chain.tree ⟨u, done ++ later⟩).Same := by
  induction length : later.length using Nat.strong_induction_on generalizing done later with
  | _ count ih =>
  cases later with
  | nil =>
    refine ⟨1, fun left same => Takes.succ fun n _ => ?_⟩
    rw [binaryTail, List.append_nil]
    exact .noOperator (fun o next => Nat.ne_of_lt (ends.operator o next)) (.pure same)
  | cons p ps =>
    obtain ⟨o, v⟩ := p
    have here : o.precedence = level := first _ rfl
    obtain ⟨loose, rest⟩ := List.forall_mem_cons.mp bound
    -- The tighter operators after `v` are on its side, and the loop goes on after them.
    obtain ⟨tight, later, rfl, all, first'⟩ := exists_tighter _ ps rest
    obtain ⟨need, right⟩ := tighter ⟨v, tight⟩ _ all (ends.tighter first')
    have grown : ∀ p ∈ done ++ (o, v) :: tight, level ≤ p.1.precedence :=
      List.forall_mem_append.mpr
        ⟨before, List.forall_mem_cons.mpr ⟨loose, fun p hp => Nat.le_of_lt (all p hp)⟩⟩
    have shorter : later.length < count := by
      rw [← length, List.length_cons, List.length_append]
      omega
    obtain ⟨need', loop⟩ := ih _ shorter (done ++ (o, v) :: tight) later grown
      (List.forall_mem_append.mp rest).2 first' rfl
    refine ⟨max need need' + 1, fun left same => Takes.succ fun n room => ?_⟩
    rw [binaryTail, Chain.laterTokens_cons, Chain.tokens_append, ← here]
    apply Accepts.operator
    intro s
    rw [here]
    apply (right n (by omega)).bind
    intro a same'
    have joined : (Chain.tree ⟨u, done ++ (o, v) :: tight⟩).Same (.binary o s left a) := by
      rw [Chain.tree_append (here ▸ before) (here ▸ all)]
      exact Expr.eraseSpans_binary o same same'
    have whole := loop _ joined n (by omega)
    rwa [List.append_assoc, List.cons_append] at whole

theorem readsChains_unaryLevel : ReadsChains unaryLevel := by
  rintro ⟨u, later⟩ after bound ends
  cases later with
  | nil =>
    rw [Chain.tokens, Chain.laterTokens, List.flatMap_nil, List.append_nil, Chain.tree]
    exact ⟨_, takes_binary_of_unary (u.takes ends)⟩
  | cons p later =>
    have tight := bound p List.mem_cons_self
    exact absurd tight (by cases p.1 <;> decide)

theorem readsChains_of_tighter (below : level < unaryLevel) (tighter : ReadsChains (level + 1)) :
    ReadsChains level := by
  rintro ⟨u, later⟩ after bound ends
  obtain ⟨tight, later, rfl, all, first⟩ := exists_tighter level later bound
  obtain ⟨tightBound, laterBound⟩ := List.forall_mem_append.mp bound
  obtain ⟨need, group⟩ := tighter ⟨u, tight⟩ _ all (ends.tighter first)
  obtain ⟨need', loop⟩ := takes_binaryTail tighter ends u tight later tightBound laterBound first
  refine ⟨max need need' + 1, Takes.succ fun n room => ?_⟩
  rw [binary, if_neg (Nat.ne_of_lt below), Chain.tokens_append]
  exact (group n (by omega)).bind fun left same => loop left same n (by omega)

theorem readsChains (bound : level ≤ unaryLevel) : ReadsChains level :=
  Nat.decreasingInduction (fun _ below => readsChains_of_tighter below) readsChains_unaryLevel bound

end

/-- A chain of any length is read to its end, and as its tree, if no token comes next that would go
on with it. -/
theorem parseExpr_chain (k : Chain) {after : List Token}
    (ends : ∀ t ∈ after.head?, t.goesOn = false) {c : Cursor}
    (place : c.tokens = k.tokens ++ after) :
    ∃ e d, parseExpr c = .ok e d ∧ e.eraseSpans = k.tree.eraseSpans ∧ c.Onward d ∧
      d.tokens = after := by
  have stops {t : Token} (more : t.goesOn = true) : after.head? ≠ some t := by
    intro next
    rw [ends t next] at more
    cases more
  have chainEnd : ChainEnd 0 after := ⟨stops rfl, stops rfl, fun o next => absurd next (stops rfl)⟩
  obtain ⟨need, chain⟩ :=
    readsChains (Nat.zero_le unaryLevel) k after (fun _ _ => Nat.zero_le _) chainEnd
  have whole : Takes (need + 1) expr k.tokens after k.tree.Same := by
    apply Takes.succ
    intro n room
    rw [expr]
    apply (chain n room).bindLast
    intro target same
    apply Accepts.nextSpan
    intro s
    exact .skip (stops rfl) (.pure same)
  obtain ⟨e, d, result, same, place'⟩ :=
    whole (need + 1 + allowance c) (Nat.le_add_right _ _) c place
  -- The allowance of the text does as well as this one.
  have room : 16 * c.rest.length + 9 ≤ allowance c := by
    simp only [allowance]
    omega
  obtain ⟨settled, onward⟩ := (settles (allowance c) (need + 1)).expr c room
  rw [← settled] at result
  rw [result] at onward
  exact ⟨e, d, result, same, onward.1, place'⟩

theorem parseExpr_chain_mixed :
    let v (x : String) : Expr := .var .none x
    let u (x : String) : Chain.Operand := ⟨[⟨.ident x, .none⟩], v x, _, rfl, rfl⟩
    let k : Chain := ⟨u "a", [(.sub, u "b"), (.mul, u "c"), (.sub, u "d"), (.eq, u "e")]⟩
    let c := Cursor.ofLexemes ((k.tokens ++ [Token.rparen]).map (⟨·, .none⟩))
    let left := Expr.binary .sub .none (v "a") (.binary .mul .none (v "b") (v "c"))
    k.tree = .binary .eq .none (.binary .sub .none left (v "d")) (v "e") ∧
    ∃ e d, parseExpr c = .ok e d ∧ e.eraseSpans = k.tree.eraseSpans ∧ c.Onward d ∧
      d.tokens = [.rparen] := by
  intro v u k c left
  refine ⟨?_, parseExpr_chain k ?_ (by rfl)⟩
  · simp [k, u, left, Chain.tree, loosest, precedence]
  · rintro t ⟨rfl⟩
    rfl

end Parser
end TaggedScript
