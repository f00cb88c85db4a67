import TaggedScript.Proofs.Syntax.Expressible

/-!
The tokens that occur in texts. Each of them is read back from its spelling, whatever comes after a
blank.
-/
namespace TaggedScript
namespace Token

/-- Whether a token occurs in some text. -/
def occurs : Token → Bool
  | int n => decide (0 ≤ n.toInt)
  | str s => isQuotable s
  | ident x => isName x
  | _ => true

/-- The text of a token. -/
def spelling : Token → String
  | varKw => "var"
  | functionKw => "function"
  | returnKw => "return"
  | ifKw => "if"
  | elseKw => "else"
  | newKw => "new"
  | thisKw => "this"
  | trueKw => "true"
  | falseKw => "false"
  | undefinedKw => "undefined"
  | lparen => "("
  | rparen => ")"
  | lbrace => "\x7b"
  | rbrace => "\x7d"
  | comma => ","
  | semi => ";"
  | dot => "."
  | colon => ":"
  | assign => "="
  | op operator => operator.symbol
  | int n => toString n.toInt.toNat
  | str s => "\"" ++ s ++ "\""
  | ident x => x

/-- A word that is not a keyword is an identifier. -/
theorem ofWord_of_notMem {x : String} (h : x ∉ keywords) : ofWord x = .ident x := by
  simp only [keywords, List.mem_cons, List.not_mem_nil, or_false, not_or] at h
  unfold ofWord
  split <;> simp_all

theorem occurs_ofWord {x : String} (h : isIdentifier x = true) : (ofWord x).occurs = true := by
  by_cases keyword : x ∈ keywords
  · simp only [keywords, List.mem_cons, List.not_mem_nil, or_false] at keyword
    obtain rfl | rfl | rfl | rfl | rfl | rfl | rfl | rfl | rfl | rfl := keyword <;> rfl
  · rw [ofWord_of_notMem keyword]
    exact isName_iff.mpr ⟨h, keyword⟩

end Token

namespace Lexer

/-- What a lexeme stands for occurs in texts. -/
def Class.Occurs : Class → Prop
  | .token t => t.occurs = true
  | .blank | .fault _ => True

theorem occurs_orEqual {alone withEqual : Class} (first : alone.Occurs) (second : withEqual.Occurs)
    (c : Char) (cs : List Char) : (orEqual alone withEqual c cs).kind.Occurs := by
  unfold orEqual
  split
  · exact second
  · exact first

theorem occurs_string (cs : List Char) : (string cs).kind.Occurs := by
  unfold string
  simp only
  split
  · simp only [Class.Occurs, Token.occurs, isQuotable, String.toList_ofList]
    exact List.all_takeWhile
  · trivial

theorem toInt_literal {n : Nat} (h : n ≤ maxInteger) : (Int32.ofNat n).toInt = n :=
  Int32.toInt_ofNat_of_lt (Nat.lt_succ_of_le h)

theorem occurs_integer (digits : List Char) : (integer digits).Occurs := by
  unfold integer
  simp only
  split
  · rename_i small
    simp [Class.Occurs, Token.occurs, toInt_literal small]
  · trivial

theorem occurs_word {c : Char} (first : isNameStart c = true) (cs : List Char) :
    (Class.token (Token.ofWord (String.ofList (c :: cs.takeWhile isNamePart)))).Occurs := by
  apply Token.occurs_ofWord
  simp [isIdentifier, String.toList_ofList, first]

theorem occurs_split (c : Char) (cs : List Char) : (split c cs).kind.Occurs := by
  unfold split
  split
  case h_13 | h_14 | h_15 | h_16 => exact occurs_orEqual (by trivial) (by trivial) _ cs
  case h_17 => exact occurs_string cs
  case h_18 =>
    split
    · trivial
    · rfl
  case h_19 =>
    split
    · trivial
    · split
      · exact occurs_integer _
      · split
        · rename_i first
          exact occurs_word first cs
        · trivial
  all_goals rfl

/-- All tokens of a text occur in texts. -/
theorem occurs_lexFrom {offset : Nat} {cs : List Char} {xs : List Lexeme}
    (h : lexFrom offset cs = .ok xs) : ∀ x ∈ xs, x.token.occurs = true := by
  induction offset, cs using lexFrom.induct generalizing xs with
  | case1 offset =>
    rw [lexFrom] at h
    cases h
    simp
  | case2 offset c cs s stop blank =>
    rename_i ih
    rw [lexFrom] at h
    simp only [s] at blank
    simp only [blank] at h
    exact ih h
  | case3 offset c cs s stop t token =>
    rename_i ih
    rw [lexFrom] at h
    simp only [s] at token
    simp only [token] at h
    have here := occurs_split c cs
    rw [token] at here
    cases later : lexFrom stop s.rest with
    | error e =>
      rw [later] at h
      cases h
    | ok rest =>
      rw [later] at h
      cases h
      rw [List.forall_mem_cons]
      exact ⟨here, ih later⟩
  | case4 offset c cs s f =>
    rename_i fault
    rw [lexFrom] at h
    simp only [s] at fault
    simp only [fault] at h
    cases h

theorem isBlank_of_isNameStart {c : Char} (h : isNameStart c = true) : isBlank c = false := by
  by_contra blank
  simp only [Bool.not_eq_false, isBlank, Bool.or_eq_true, beq_iff_eq] at blank
  obtain ((rfl | rfl) | rfl) | rfl := blank <;> exact absurd h (by decide)

theorem isBlank_of_isDigit {c : Char} (h : c.isDigit = true) : isBlank c = false := by
  by_contra blank
  simp only [Bool.not_eq_false, isBlank, Bool.or_eq_true, beq_iff_eq] at blank
  obtain ((rfl | rfl) | rfl) | rfl := blank <;> exact absurd h (by decide)

theorem isDigit_of_isNameStart {c : Char} (h : isNameStart c = true) : c.isDigit = false := by
  by_contra digit
  simp only [Bool.not_eq_false, Char.isDigit, Bool.and_eq_true, decide_eq_true_eq] at digit
  simp only [isNameStart, Bool.or_eq_true, beq_iff_eq] at h
  obtain (alpha | rfl) | rfl := h
  · obtain upper | lower : c.isUpper = true ∨ c.isLower = true := Bool.or_eq_true_iff.mp alpha
    · have low : 'A'.val ≤ c.val := (of_decide_eq_true upper).1
      exact absurd (UInt32.le_trans low digit.2) (by decide)
    · have low : 'a'.val ≤ c.val := of_decide_eq_true (Bool.and_eq_true_iff.mp lower).1
      exact absurd (UInt32.le_trans low digit.2) (by decide)
  · exact absurd digit.2 (by decide)
  · exact absurd digit.1 (by decide)

theorem split_word {c : Char} (first : isNameStart c = true) (cs : List Char) :
    split c cs =
      run (fun word => .token (Token.ofWord (String.ofList word))) isNamePart c cs := by
  unfold split
  split
  all_goals try exact absurd first (by decide)
  simp [isBlank_of_isNameStart first, isDigit_of_isNameStart first, first]

theorem split_digits {c : Char} (first : c.isDigit = true) (cs : List Char) :
    split c cs = run integer Char.isDigit c cs := by
  unfold split
  split
  all_goals try exact absurd first (by decide)
  simp [isBlank_of_isDigit first, first]

theorem run_append {p : Char → Bool} {cs rest : List Char} (inside : ∀ d ∈ cs, p d = true)
    (stops : ∀ d ∈ rest.head?, p d = false) (kind : List Char → Class) (c : Char) :
    run kind p c (cs ++ rest) = ⟨kind (c :: cs), c :: cs, rest⟩ := by
  have none : rest.takeWhile p = [] ∧ rest.dropWhile p = rest := by
    cases rest with
    | nil => exact ⟨rfl, rfl⟩
    | cons d rest => simp [stops d rfl]
  simp only [run, List.takeWhile_append_of_pos inside, List.dropWhile_append_of_pos inside,
    none, List.append_nil]

/-- The text is that of a token: before a blank it is the first lexeme. -/
def Spells (text : List Char) (t : Token) : Prop :=
  ∃ c cs, text = c :: cs ∧ isBlank c = false ∧
    ∀ rest, split c (cs ++ ' ' :: rest) = ⟨.token t, c :: cs, ' ' :: rest⟩

theorem spells_word {x : String} (h : isIdentifier x = true) :
    Spells x.toList (Token.ofWord x) := by
  unfold isIdentifier at h
  split at h
  · cases h
  · rename_i c cs text
    rw [Bool.and_eq_true] at h
    refine ⟨c, cs, text, isBlank_of_isNameStart h.1, fun rest => ?_⟩
    rw [split_word h.1, run_append (List.all_eq_true.mp h.2) (by simp; decide), ← text,
      String.ofList_toList]

theorem decimalValue_digits (n : Nat) : decimalValue (Nat.toDigits 10 n) = n := by
  rw [decimalValue, ← Nat.ofDigitChars_eq_foldl, Nat.ofDigitChars_ten_toDigits]

theorem spells_digits {n : Nat} (small : n ≤ maxInteger) :
    Spells (toString n).toList (.int (Int32.ofNat n)) := by
  rw [Nat.toString_eq_ofList_toDigits, String.toList_ofList]
  have digits : ∀ c ∈ Nat.toDigits 10 n, c.isDigit = true := fun c =>
    Nat.isDigit_of_mem_toDigits (by decide) (by decide)
  match text : Nat.toDigits 10 n with
  | [] => exact absurd text (Nat.toDigits_ne_nil)
  | c :: cs =>
    rw [text, List.forall_mem_cons] at digits
    refine ⟨c, cs, rfl, isBlank_of_isDigit digits.1, fun rest => ?_⟩
    rw [split_digits digits.1, run_append digits.2 (by simp), integer, ← text,
      decimalValue_digits]
    simp only [small, ↓reduceIte, text]

theorem spells_quoted {s : String} (h : isQuotable s = true) :
    Spells ("\"" ++ s ++ "\"").toList (.str s) := by
  have inside := List.all_eq_true.mp h
  refine ⟨'"', s.toList ++ ['"'], by simp, by decide, fun rest => ?_⟩
  have whole : split '"' (s.toList ++ ['"'] ++ ' ' :: rest) =
      string (s.toList ++ ('"' :: ' ' :: rest)) := by
    rw [List.append_assoc]
    rfl
  rw [whole]
  simp only [string, List.takeWhile_append_of_pos inside, List.dropWhile_append_of_pos inside,
    List.takeWhile_cons, List.dropWhile_cons]
  simp

/-- Every token that occurs in texts has a text. -/
theorem spells_spelling {t : Token} (h : t.occurs = true) : Spells t.spelling.toList t := by
  cases t with
  | ident x =>
    obtain ⟨word, other⟩ := isName_iff.mp h
    have spells := spells_word word
    rwa [Token.ofWord_of_notMem other] at spells
  | str s => exact spells_quoted h
  | int n =>
    simp only [Token.occurs, decide_eq_true_eq] at h
    have high : n.toInt ≤ 2147483647 := n.toInt_le
    have same : Int32.ofNat n.toInt.toNat = n := by
      rw [← Int32.toInt_inj, toInt_literal (by simp only [maxInteger]; omega), Int.toNat_of_nonneg h]
    have spells := spells_digits (n := n.toInt.toNat) (by simp only [maxInteger]; omega)
    rwa [same] at spells
  | varKw | functionKw | returnKw | ifKw | elseKw | newKw | thisKw | trueKw | falseKw
  | undefinedKw => exact spells_word (by decide)
  | op o => cases o <;> exact ⟨_, _, rfl, by decide, fun rest => rfl⟩
  | lparen | rparen | lbrace | rbrace | comma | semi | dot | colon | assign =>
    exact ⟨_, _, rfl, by decide, fun rest => rfl⟩

end Lexer

namespace Token

/-- The text of tokens, each with a blank after it. -/
def layOut (ts : List Token) : String := String.join (ts.map (·.spelling ++ " "))

theorem toList_layOut_cons (t : Token) (ts : List Token) :
    (layOut (t :: ts)).toList = t.spelling.toList ++ ' ' :: (layOut ts).toList := by
  simp [layOut]

end Token

namespace Lexer

theorem lexFrom_token {t : Token} {text : List Char} (h : Spells text t) (offset : Nat)
    (rest : List Char) :
    lexFrom offset (text ++ ' ' :: rest) =
      (lexFrom (offset + byteLength text) (' ' :: rest)).map
        (⟨t, ⟨offset, offset + byteLength text⟩⟩ :: ·) := by
  obtain ⟨c, cs, rfl, -, split⟩ := h
  rw [List.cons_append, lexFrom]
  simp only [split rest]

theorem lexFrom_blank (offset : Nat) {rest : List Char} (stops : ∀ c ∈ rest.head?, isBlank c = false) :
    lexFrom offset (' ' :: rest) = lexFrom (offset + byteLength [' ']) rest := by
  have first : split ' ' rest = ⟨.blank, [' '], rest⟩ :=
    run_append (List.forall_mem_nil _) stops (fun _ => .blank) ' '
  rw [lexFrom]
  simp only [first]

/-- Tokens that occur in texts are read back from the text that is made of them. -/
theorem lexFrom_layOut {ts : List Token} (h : ∀ t ∈ ts, t.occurs = true) (offset : Nat) :
    ∃ xs, lexFrom offset (Token.layOut ts).toList = .ok xs ∧ xs.map (·.token) = ts := by
  induction ts generalizing offset with
  | nil => exact ⟨[], by simp [Token.layOut, lexFrom], rfl⟩
  | cons t ts ih =>
    rw [List.forall_mem_cons] at h
    have stops : ∀ c ∈ (Token.layOut ts).toList.head?, isBlank c = false := by
      cases ts with
      | nil => simp [Token.layOut]
      | cons u us =>
        obtain ⟨c, cs, text, solid, -⟩ := spells_spelling (List.forall_mem_cons.mp h.2).1
        rw [Token.toList_layOut_cons, text]
        simpa using solid
    obtain ⟨xs, lexed, same⟩ := ih h.2
      (offset + byteLength t.spelling.toList + byteLength [' '])
    refine ⟨⟨t, ⟨offset, offset + byteLength t.spelling.toList⟩⟩ :: xs, ?_, by simp [same]⟩
    rw [Token.toList_layOut_cons, lexFrom_token (spells_spelling h.1), lexFrom_blank _ stops, lexed]
    rfl

end Lexer
end TaggedScript
