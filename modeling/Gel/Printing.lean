import Gel.Parsing
import Mathlib.Data.List.TakeWhile
import Mathlib.Data.List.ReduceOption

/-!
# Printing — a source form, its text and what the parser makes of it

`Source`: the forms of literals, names, operators, calls, `begin`, `when`, `cond` and lists, each
with what makes its words and literals tokens.  `print` writes a form with one space in front of
every operand, `toExpr` is the expression it stands for.

`parseExpression_print`: parsing the text of a form gives its expression and reads the text to its
end.  `Reads` is the induction: a text behind which something delimited follows is parsed whole.
-/

namespace Gel

open Faulting Lexer

/-! ### Words, literals and operators -/

/-- A name that is neither a keyword nor a class. -/
structure Name (reg : Registry) where
  first : Char
  others : List Char
  letter : first.isAlpha = true
  word : ∀ c ∈ others, isWordChar c = true
  fits : (first :: others).length < bufferSize
  not_keyword : String.ofList (first :: others) ∉ keywordList.map Prod.fst
  not_class : reg.findClass (.ofList (first :: others)) = none

namespace Name

variable {reg : Registry}

def text (x : Name reg) : List Char := x.first :: x.others

def symbol (x : Name reg) : Symbol := { name := .ofList x.text }

end Name

/-- A literal with a token of its own. -/
inductive Lit where
  | long (n : Nat) (h : n < 2 ^ 63)
  | bool (b : Bool)
  | string (s : List Char) (ascii : ∀ c ∈ s, c.toNat < 128 ∧ c ≠ '"')
      (fits : s.length < bufferSize)

namespace Lit

def print : Lit → List Char
  | long n _ => Nat.toDigits 10 n
  | bool b => ['#', if b then 't' else 'f']
  | string s _ _ => '"' :: (s ++ ['"'])

def toValue : Lit → Value
  | long n _ => .long (.ofNat n)
  | bool b => .bool b
  | string s _ _ => .string (.ofList s)

end Lit

/-- The unary operators that are written with a word. -/
def unarySpellings : List (List Char × UnaryOp) :=
  [("not".toList, .not), ("car".toList, .car), ("cdr".toList, .cdr)]

/-- The spellings of the binary operators. -/
def spellings : List (List Char × BinaryOp) :=
  [(['+'], .add), (['-'], .subtract), (['*'], .multiply), (['/'], .divide), (['%'], .modulus),
   (['='], .equals), (['&'], .binaryAnd), (['|'], .binaryOr),
   (['<'], .lessThan), (['<', '='], .lessThanEqual), (['>'], .greaterThan),
   (['>', '='], .greaterThanEqual),
   ("add".toList, .add), ("subtract".toList, .subtract), ("multiply".toList, .multiply),
   ("divide".toList, .divide), ("and".toList, .binaryAnd), ("or".toList, .binaryOr),
   ("cons".toList, .cons)]

/-! ### Forms -/

mutual

/-- A form. -/
inductive Source (reg : Registry) where
  | literal (v : Lit)
  | name (x : Name reg)
  | unary (op : { s // s ∈ unarySpellings }) (e : Source reg)
  | nary (op : { s // s ∈ spellings }) (e₁ e₂ : Source reg) (es : List (Source reg))
  | call (target : CallTarget reg) (args : List (Source reg))
  | begin (body : List (Source reg))
  | when (test : Source reg) (actions : List (Source reg))
  | cond (c : Branch reg) (cs : List (Branch reg))
  | condElse (cs : List (Branch reg)) (alternate : Source reg)
  | list (v : Lit) (es : List (Source reg))

/-- The target of a call: a name or a call. -/
inductive CallTarget (reg : Registry) where
  | name (x : Name reg)
  | call (target : CallTarget reg) (args : List (Source reg))

/-- A test and its action. -/
inductive Branch (reg : Registry) where
  | mk (test action : Source reg)

end

/-- A parenthesised form. -/
def parenthesised (head operands : List Char) : List Char :=
  '(' :: (head ++ (operands ++ [')']))

namespace Source

variable {reg : Registry}

mutual

/-- The text of a form. -/
def print : Source reg → List Char
  | literal v => v.print
  | name x => x.text
  | unary op e => parenthesised op.1.1 (' ' :: e.print)
  | nary op e₁ e₂ es =>
      parenthesised op.1.1 (' ' :: e₁.print ++ (' ' :: e₂.print ++ printAll es))
  | call target args => parenthesised (printCallee target) (printAll args)
  | .begin body => parenthesised "begin".toList (printAll body)
  | .when test actions => parenthesised "when".toList (' ' :: test.print ++ printAll actions)
  | .cond c cs => parenthesised "cond".toList (printBranch c ++ printBranches cs)
  | condElse cs alternate =>
      parenthesised "cond".toList (printBranches cs ++ ' ' :: alternate.print)
  | list v es => parenthesised v.print (printAll es)

def printCallee : CallTarget reg → List Char
  | .name x => x.text
  | .call target args => parenthesised (printCallee target) (printAll args)

def printBranch : Branch reg → List Char
  | .mk test action => ' ' :: test.print ++ ' ' :: action.print

def printAll : List (Source reg) → List Char
  | [] => []
  | e :: es => ' ' :: e.print ++ printAll es

def printBranches : List (Branch reg) → List Char
  | [] => []
  | c :: cs => printBranch c ++ printBranches cs

end

mutual

/-- The expression of a form; more than two operands associate to the left. -/
def toExpr : Source reg → Expr
  | literal v => .literal v.toValue
  | name x => .literal (.symbol x.symbol)
  | unary op e => .unary op.1.2 e.toExpr
  | nary op e₁ e₂ es =>
      (toExprs es).foldl (.binaryOp op.1.2) (.binaryOp op.1.2 e₁.toExpr e₂.toExpr)
  | call target args => .callProc (ofCallee target) (toExprs args)
  | .begin body => .begin (toExprs body)
  | .when test actions => .when test.toExpr (toExprs actions)
  | .cond c cs => .cond (ofBranch c :: ofBranches cs) none
  | condElse cs alternate => .cond (ofBranches cs) (some alternate.toExpr)
  | list v es => .list (.literal v.toValue :: toExprs es)

def ofCallee : CallTarget reg → Expr
  | .name x => .literal (.symbol x.symbol)
  | .call target args => .callProc (ofCallee target) (toExprs args)

def ofBranch : Branch reg → Clause
  | .mk test action => .mk test.toExpr [action.toExpr]

def toExprs : List (Source reg) → List Expr
  | [] => []
  | e :: es => e.toExpr :: toExprs es

def ofBranches : List (Branch reg) → List Clause
  | [] => []
  | c :: cs => ofBranch c :: ofBranches cs

end

mutual

/-- A depth of nesting, and a number of rounds of each loop, that parsing the text takes. -/
def size : Source reg → Nat
  | literal _ => 1
  | name _ => 1
  | unary _ e => 1 + e.size
  | nary _ e₁ e₂ es => 1 + (e₁.size + (e₂.size + sizeAll es))
  | call target args => 1 + (sizeCallee target + sizeAll args)
  | .begin body => 1 + sizeAll body
  | .when test actions => 1 + (test.size + sizeAll actions)
  | .cond c cs => 1 + (sizeBranch c + sizeBranches cs)
  | condElse cs alternate => 1 + (sizeBranches cs + alternate.size)
  | list _ es => 2 + sizeAll es

def sizeCallee : CallTarget reg → Nat
  | .name _ => 0
  | .call target args => 1 + (sizeCallee target + sizeAll args)

def sizeBranch : Branch reg → Nat
  | .mk test action => test.size + action.size

def sizeAll : List (Source reg) → Nat
  | [] => 1
  | e :: es => e.size + sizeAll es

def sizeBranches : List (Branch reg) → Nat
  | [] => 1
  | c :: cs => sizeBranch c + sizeBranches cs

end

end Source

variable {reg : Registry} {rest : List Char}

/-! ### The tokens of names, literals and operators -/

/-- A word that is no keyword is an identifier. -/
theorem find_keywords_eq_none {w : List Char}
    (h : String.ofList w ∉ keywordList.map Prod.fst) : keywords.find w = none := by
  rw [find_keywords, keyword, List.lookup_eq_none_iff]
  intro e he
  rw [List.mem_reverse, List.mem_map] at he
  obtain ⟨k, hk, rfl⟩ := he
  rw [bne_iff_ne]
  rintro rfl
  exact h (by simpa using ⟨k.2, hk⟩)

namespace Name

theorem scans (x : Name reg) (hd : Delimited rest) :
    Scans reg.findClass (x.text ++ rest) ⟨.identifier, .ofList x.text⟩ rest := by
  have h : Scans reg.findClass _ _ _ := scans_word x.word x.letter (Nat.le_of_lt x.fits) hd
  rwa [find_keywords_eq_none x.not_keyword] at h

end Name

/-- Whether a text is a word that fits the buffer. -/
def isWord (w : List Char) : Bool :=
  w.all isWordChar && w.head?.any Char.isAlpha && w.length ≤ bufferSize

/-- A keyword in front of a delimiter. -/
theorem scans_keyword {w : List Char} {k : Token.Kind} (hw : isWord w = true)
    (hk : keyword w = some k) (hd : Delimited rest) :
    Scans reg.findClass (w ++ rest) ⟨k, .ofList w⟩ rest := by
  simp only [isWord, Bool.and_eq_true, decide_eq_true_eq] at hw
  obtain ⟨⟨hall, hhead⟩, hlen⟩ := hw
  cases w with
  | nil => cases hhead
  | cons c w =>
      have hw : ∀ d ∈ w, isWordChar d = true := fun d hd =>
        List.all_eq_true.mp hall d (List.mem_cons_of_mem _ hd)
      have h : Scans reg.findClass _ _ _ := scans_word hw hhead hlen hd
      have hfind : keywords.find (c :: w) = some k := (find_keywords _).trans hk
      rw [hfind] at h
      exact h

/-- The token of a literal. -/
def Lit.token : Lit → Token
  | .long n _ => ⟨.literalLong, .ofList (Nat.toDigits 10 n)⟩
  | .bool b => ⟨if b then .literalTrue else .literalFalse, ""⟩
  | .string s _ _ => ⟨.literalString, .ofList s⟩

theorem Lit.scans (v : Lit) (hd : Delimited rest) :
    Scans reg.findClass (v.print ++ rest) v.token rest := by
  cases v with
  | long n h =>
      refine scans_long n ?_ hd
      have hlt : n < 10 ^ 19 := Nat.lt_trans h (by decide)
      exact Nat.le_trans (Nat.toDigits_length 10 n 19 (by decide) hlt) (by decide)
  | bool b => exact scans_bool b
  | string s ascii fits =>
      have hs : ∀ c ∈ s, c ≠ '"' ∧ c ≠ eof := by
        intro c hc
        obtain ⟨hlt, hne⟩ := ascii c hc
        refine ⟨hne, ?_⟩
        rintro rfl
        exact absurd hlt (by decide)
      rw [Lit.print, List.cons_append, List.append_assoc]
      exact scans_string hs (Nat.le_of_lt fits)

theorem Lit.token_ne_invalid (v : Lit) : v.token.kind ≠ .invalid := by
  rcases v with ⟨n, h⟩ | ⟨_ | _⟩ | ⟨s, _, _⟩ <;> simp [Lit.token]

theorem scans_unary (reg : Registry) (op : { s // s ∈ unarySpellings }) (cs : List Char) :
    Scans reg.findClass (op.1.1 ++ ' ' :: cs) ⟨.unaryOp op.1.2, .ofList op.1.1⟩ (' ' :: cs) := by
  have hwords : ∀ s ∈ unarySpellings, isWord s.1 = true ∧ keyword s.1 = some (.unaryOp s.2) := by
    decide
  obtain ⟨hw, hk⟩ := hwords op.1 op.2
  exact scans_keyword hw hk (.inl rfl)

/-- `<` and `>`, alone and with a `=`. -/
theorem scans_comparisons (cs : List Char) :
    ∀ s ∈ (spellings.drop 8).take 4, Scans reg.findClass (s.1 ++ ' ' :: cs) ⟨.binaryOp s.2, ""⟩
      (' ' :: cs) := by
  have hless : ¬ isBlank '<' := not_blank_iff.mpr (by decide)
  have hgreater : ¬ isBlank '>' := not_blank_iff.mpr (by decide)
  simp only [spellings, List.drop_succ_cons, List.drop_zero, List.take_succ_cons, List.take_zero,
    List.forall_mem_cons]
  exact ⟨(scans_comparison hless scanToken_lessThan).1,
    (scans_comparison hless scanToken_lessThan).2,
    (scans_comparison hgreater scanToken_greaterThan).1,
    (scans_comparison hgreater scanToken_greaterThan).2, by simp⟩

theorem scans_binary (reg : Registry) (op : { s // s ∈ spellings }) (cs : List Char) :
    ∃ text, Scans reg.findClass (op.1.1 ++ ' ' :: cs) ⟨.binaryOp op.1.2, text⟩ (' ' :: cs) := by
  have hkinds : ∀ s ∈ spellings,
      (isWord s.1 = true ∧ keyword s.1 = some (.binaryOp s.2)) ∨
      (s.1.length = 1 ∧ s.1.headD ' ' ∉ ['\n', '\t', '\r', ' ', ';'] ∧
        punctuation (s.1.headD ' ') = some (.binaryOp s.2)) ∨
      s ∈ (spellings.drop 8).take 4 := List.all_iff_forall_prop.mp (by decide)
  rcases hkinds op.1 op.2 with ⟨hw, hk⟩ | ⟨hone, hb, hp⟩ | h
  · exact ⟨_, scans_keyword hw hk (.inl rfl)⟩
  · obtain ⟨c, hc⟩ := List.length_eq_one_iff.mp hone
    rw [hc] at hb hp ⊢
    exact ⟨_, scans_punctuation (not_blank_iff.mpr hb) hp⟩
  · exact ⟨_, scans_comparisons cs op.1 h⟩

/-! ### Symbols -/

theorem lastIndexOf_eq_none {c : Char} {cs : List Char} (h : c ∉ cs) :
    Symbol.lastIndexOf c cs = none := by
  rw [Symbol.lastIndexOf, Option.map_eq_none_iff, List.findIdx?_eq_none_iff]
  intro d hd
  rw [List.mem_reverse] at hd
  exact beq_eq_false_iff_ne.mpr fun he => h (he ▸ hd)

theorem Symbol.split_word {cs : List Char} (h₁ : '/' ∉ cs) (h₂ : ':' ∉ cs) :
    Symbol.split cs = .ok ([], [], cs) := by
  simp [Symbol.split, lastIndexOf_eq_none h₁, lastIndexOf_eq_none h₂]

theorem Symbol.new_word {cs : List Char} (h₁ : '/' ∉ cs) (h₂ : ':' ∉ cs) :
    Symbol.new (.ofList cs) = .ok { name := .ofList cs } := by
  rw [Symbol.new, String.toList_ofList, Symbol.split_word h₁ h₂]
  change Symbol.newInternal cs = _
  rw [Symbol.newInternal, Symbol.split_word h₁ h₂]
  rfl

theorem Name.new (x : Name reg) : Symbol.new (.ofList x.text) = .ok x.symbol := by
  have hall : ∀ c ∈ x.text, isWordChar c = true := by
    intro c hc
    rcases List.mem_cons.mp hc with rfl | hc
    · exact isWordChar_of_isAlpha x.letter
    · exact x.word c hc
  exact Symbol.new_word (fun h => isWordChar_ne (hall _ h) rfl rfl)
    fun h => isWordChar_ne (hall _ h) rfl rfl

namespace Source

theorem delimited_nil : Delimited [] := trivial

theorem delimited_space : Delimited (' ' :: rest) := .inl rfl

theorem delimited_rParen : Delimited (')' :: rest) := .inr rfl

theorem size_pos (s : Source reg) : 0 < s.size := by
  cases s <;> simp [size]

/-- A list of operands is shorter than it is large. -/
theorem length_lt_sizeAll (es : List (Source reg)) : es.length < sizeAll es := by
  induction es with
  | nil => exact Nat.one_pos
  | cons s es ih =>
      rw [List.length_cons, sizeAll, Nat.add_comm s.size]
      exact Nat.add_lt_add_of_lt_of_le ih s.size_pos

theorem size_le_sizeAll {es : List (Source reg)} {s : Source reg} (hs : s ∈ es) :
    s.size ≤ sizeAll es := by
  induction es with
  | nil => cases hs
  | cons s' es ih =>
      rw [sizeAll]
      rcases List.mem_cons.mp hs with rfl | hs
      · exact Nat.le_add_right _ _
      · exact Nat.le_add_left_of_le (ih hs)

theorem printAll_eq (es : List (Source reg)) :
    printAll es = es.flatMap fun s => ' ' :: s.print := by
  induction es with
  | nil => rfl
  | cons s es ih => rw [printAll, ih, List.flatMap_cons]

theorem printAll_cons_append (s : Source reg) (es : List (Source reg)) :
    printAll (s :: es) ++ rest = ' ' :: (s.print ++ (printAll es ++ rest)) := by
  simp [printAll]

theorem delimited_printAll (es : List (Source reg)) (rest : List Char) :
    Delimited (printAll es ++ ')' :: rest) := by
  cases es with
  | nil => exact .inr rfl
  | cons s es => exact .inl rfl

theorem toExprs_eq (es : List (Source reg)) : toExprs es = es.map toExpr := by
  induction es with
  | nil => rfl
  | cons s es ih => rw [toExprs, ih, List.map_cons]

end Source

open Source

namespace Parser

/-! ### What is read whole -/

/-- The kinds of the tokens that forms start with. -/
def opens (k : Token.Kind) : Bool := startsLiteral k || k == .lParen

theorem opens_ne {k k' : Token.Kind} (h : opens k = true) (hk : opens k' = false) : k ≠ k' := by
  rintro rfl
  rw [h] at hk
  cases hk

/-- The text is parsed whole, as the expression. -/
structure Reads (reg : Registry) (text : List Char) (size : Nat) (e : Expr) : Prop where
  pos : 0 < size
  first : ∀ {rest}, Delimited rest →
    ∃ t rest', Scans reg.findClass (text ++ rest) t rest' ∧ opens t.kind = true
  parses : ∀ {n rest}, size ≤ n → Delimited rest →
    Parses reg (parseExpression reg n) (text ++ rest) (some e) rest

/-- A literal or a name. -/
theorem reads_atom {text : List Char} {t : Token} {v : Value}
    (hscan : ∀ {rest}, Delimited rest → Scans reg.findClass (text ++ rest) t rest)
    (ht : startsLiteral t.kind = true ∧ t.kind ∉ [.fn, .dispatch, .lBrace])
    (hv : ∀ {rest}, Delimited rest → Parses reg (parseLiteralValue reg) (text ++ rest) v rest) :
    Reads reg text 1 (.literal v) := by
  obtain ⟨hs, hn⟩ := ht
  have hopen : opens t.kind = true := by simp [opens, hs]
  refine ⟨Nat.one_pos, fun hd => ⟨t, _, hscan hd, hopen⟩, fun {n rest} hn' hd => ?_⟩
  obtain ⟨n, rfl⟩ := Nat.exists_eq_succ_of_ne_zero (Nat.ne_of_gt hn')
  have hvalid : t.kind ≠ .invalid := opens_ne hopen rfl
  simp only [List.mem_cons, List.not_mem_nil, or_false, not_or] at hn
  rw [parseExpression]
  refine (parses_peekKind (hscan hd) hvalid).bind ?_
  rw [if_pos hs]
  refine Parses.map ((parses_peekKind (hscan hd) hvalid).bind ?_)
  rw [if_neg (by simp [hn]), if_neg (by simp [hn])]
  exact (hv hd).bind (.pure _)

theorem reads_literal (v : Lit) : Reads reg v.print 1 (.literal v.toValue) := by
  refine reads_atom (t := v.token) v.scans ?_ fun hd => (parses_nextToken (v.scans hd)).bind ?_
  · rcases v with ⟨n, h⟩ | ⟨_ | _⟩ | ⟨s, _, _⟩ <;>
      simp [Lit.token, startsLiteral, Token.Kind.isLiteral]
  · rcases v with ⟨n, h⟩ | ⟨_ | _⟩ | ⟨s, _, _⟩
    · have hl : (Lit.long n h).token.asLong = .ofNat n := by
        rw [Token.asLong, Lit.token, String.toList_ofList, atol_toDigits h]
      change Parses reg (pure (Value.long (Lit.long n h).token.asLong)) _ _ _
      rw [hl]
      exact .pure _
    all_goals exact .pure _

theorem reads_name (x : Name reg) : Reads reg x.text 1 (.literal (.symbol x.symbol)) :=
  reads_atom x.scans ⟨rfl, by simp⟩ fun hd =>
    (parses_nextToken (x.scans hd)).bind ((Parses.lift x.new).bind (.pure _))

/-- The text of a form is read whole. -/
abbrev IsRead (s : Source reg) : Prop := Reads reg s.print s.size s.toExpr

/-! ### Operands -/

variable {text : List Char} {size n : Nat} {e : Expr} {α β : Type} {cs : List Char} {t : Token}

/-- A space in front of an expression. -/
theorem Reads.spaced (h : Reads reg text size e) (hn : size ≤ n) (hd : Delimited rest) :
    Parses reg (parseExpression reg n) (' ' :: (text ++ rest)) (some e) rest := by
  obtain ⟨n, rfl⟩ := Nat.exists_eq_succ_of_ne_zero (Nat.ne_of_gt (Nat.lt_of_lt_of_le h.pos hn))
  obtain ⟨t, rest', hscan, ht⟩ := h.first hd
  have hrun := h.parses hn hd
  rw [parseExpression, peekKind, bind_map_left] at hrun ⊢
  exact hrun.space hscan (opens_ne ht rfl)

theorem parses_nonnull_spaced (h : Reads reg text size e) (hn : size ≤ n) (hd : Delimited rest) :
    Parses reg (nonnull (parseExpression reg n)) (' ' :: (text ++ rest)) e rest :=
  parses_nonnull (h.spaced hn hd)

/-- What the closing parenthesis and the operands in front of it look like to a peek. -/
theorem parses_peekEq_spaced (h : Reads reg text size e) (hd : Delimited rest) {k : Token.Kind}
    (hk : opens k = false) :
    Parses reg (peekEq reg k) (' ' :: (text ++ rest)) false (' ' :: (text ++ rest)) := by
  obtain ⟨t, rest', hscan, ht⟩ := h.first hd
  have hrun := parses_peekEq hscan.space (opens_ne ht rfl) k
  rwa [beq_eq_false_iff_ne.mpr (opens_ne ht hk)] at hrun

theorem parses_peekEq_rParen (k : Token.Kind) :
    Parses reg (peekEq reg k) (')' :: rest) (.rParen == k) (')' :: rest) :=
  parses_peekEq scans_rParen (by decide) k

variable {es : List (Source reg)}

theorem parses_peekEq_all (hes : ∀ s ∈ es, IsRead s) {k : Token.Kind}
    (hk : opens k = false) (hr : k ≠ .rParen) :
    Parses reg (peekEq reg k) (printAll es ++ ')' :: rest) false (printAll es ++ ')' :: rest) := by
  cases es with
  | nil =>
      have hk : (Token.Kind.rParen == k) = false := beq_eq_false_iff_ne.mpr hr.symm
      rw [← hk]
      exact parses_peekEq_rParen k
  | cons s es =>
      rw [printAll_cons_append]
      exact parses_peekEq_spaced (hes s List.mem_cons_self) (delimited_printAll es _) hk

/-- A loop over operands, up to the closing parenthesis. -/
theorem parses_sources {stop : Token.Kind → Bool} {item : Parse α} {val : Source reg → α}
    (hes : ∀ s ∈ es, IsRead s)
    (hitem : ∀ s ∈ es, ∀ rest, Delimited rest →
      Parses reg item (' ' :: (s.print ++ rest)) (val s) rest)
    (hstop : ∀ k, opens k = true → stop k = false) (hend : stop .rParen = true)
    (hn : sizeAll es ≤ n) :
    Parses reg (parseUntil reg stop item n) (printAll es ++ ')' :: rest) (es.map val)
      (')' :: rest) := by
  rw [printAll_eq]
  have hdel (s : Source reg) (_ : s ∈ es) (rest : List Char) :
      Delimited ((' ' :: s.print) ++ rest) := .inl rfl
  refine parses_parseUntil (fun s hs rest hd => hitem s hs rest hd) ?_ hdel delimited_rParen
    scans_rParen (by decide) hend (Nat.lt_of_lt_of_le (length_lt_sizeAll es) hn)
  intro s hs rest hd
  obtain ⟨t, rest', hscan, ht⟩ := (hes s hs).first hd
  exact ⟨t, rest', hscan.space, opens_ne ht rfl, hstop _ ht⟩

theorem parses_operands (hes : ∀ s ∈ es, IsRead s)
    (hn : sizeAll es ≤ n) :
    Parses reg (parseOperands reg (parseExpression reg n) n) (printAll es ++ ')' :: rest)
      (toExprs es) (')' :: rest) := by
  rw [toExprs_eq]
  exact parses_sources hes
    (fun s hs rest hd => parses_nonnull_spaced (hes s hs)
      (Nat.le_trans (size_le_sizeAll hs) hn) hd)
    (fun k hk => beq_eq_false_iff_ne.mpr (opens_ne hk rfl)) rfl hn

/-- A loop over expressions that may be null. -/
theorem parses_exprs {stop : Token.Kind → Bool}
    (hes : ∀ s ∈ es, IsRead s)
    (hstop : ∀ k, opens k = true → stop k = false) (hend : stop .rParen = true)
    (hn : sizeAll es ≤ n) :
    Parses reg (parseUntil reg stop (parseExpression reg n) n) (printAll es ++ ')' :: rest)
      (es.map fun s => some s.toExpr) (')' :: rest) :=
  parses_sources hes
    (fun s hs _ hd => (hes s hs).spaced (Nat.le_trans (size_le_sizeAll hs) hn) hd) hstop hend hn

theorem reduceOption_toExpr (es : List (Source reg)) :
    (es.map fun s => some s.toExpr).reduceOption = toExprs es := by
  rw [toExprs_eq]
  induction es with
  | nil => rfl
  | cons s es ih => rw [List.map_cons, List.map_cons, List.reduceOption_cons_of_some, ih]

theorem parses_expressionList (hes : ∀ s ∈ es, IsRead s)
    (hn : sizeAll es ≤ n) :
    Parses reg (parseExpressionList reg (parseExpression reg n) n) (printAll es ++ ')' :: rest)
      (toExprs es) (')' :: rest) := by
  rw [← reduceOption_toExpr]
  have hstop (k : Token.Kind) (hk : opens k = true) : atEnd k = false := by
    have hr : k ≠ .rParen := opens_ne hk rfl
    have he : k ≠ .endOfStream := opens_ne hk rfl
    simp [atEnd, hr, he]
  exact parses_scoped (fun _ => parses_exprs hes hstop rfl hn) (.pure _)

/-! ### Forms -/

variable {head operands : List Char}

/-- A parenthesised form, from what the switch behind the parenthesis reads. -/
theorem reads_form (hs : 0 < size)
    (h : ∀ {n rest}, size ≤ n + 1 → Parses reg (parseForm reg (parseExpression reg n) n)
      (head ++ (operands ++ ')' :: rest)) (some e) (')' :: rest)) :
    Reads reg (parenthesised head operands) size e := by
  refine ⟨hs, fun _ => ⟨_, _, scans_lParen, rfl⟩, fun {n rest} hn _ => ?_⟩
  obtain ⟨n, rfl⟩ := Nat.exists_eq_succ_of_ne_zero (Nat.ne_of_gt (Nat.lt_of_lt_of_le hs hn))
  have htext : parenthesised head operands ++ rest =
      '(' :: (head ++ (operands ++ ')' :: rest)) := by
    simp [parenthesised]
  rw [htext, parseExpression]
  refine (parses_peekKind scans_lParen (by decide)).bind ?_
  rw [if_neg (by decide), if_neg (by decide)]
  exact (parses_expectNext scans_lParen).bind ((h hn).bind
    ((parses_expectNext scans_rParen).bind (.pure _)))

theorem reads_unary {s : Source reg} (op : { s // s ∈ unarySpellings })
    (h : IsRead s) :
    Reads reg (print (.unary op s)) (Source.size (.unary op s)) (toExpr (.unary op s)) := by
  refine reads_form (size_pos _) fun {n rest} hn => ?_
  rw [Source.size] at hn
  have hn' : s.size ≤ n := by omega
  have hscan := scans_unary reg op (s.print ++ ')' :: rest)
  refine (parses_peekKind hscan (by simp)).bind (Parses.map ((parses_nextToken hscan).bind ?_))
  exact (parses_nonnull_spaced h hn' delimited_rParen).bind (.pure _)

/-- The operands behind the second. -/
theorem parses_binaryRest {op : BinaryOp} {k : Nat} {left : Expr}
    (hes : ∀ s ∈ es, IsRead s ∧ s.size ≤ n) (hk : es.length < k) :
    Parses reg (parseBinaryRest reg (parseExpression reg n) op k left)
      (printAll es ++ ')' :: rest) ((toExprs es).foldl (.binaryOp op) left) (')' :: rest) := by
  induction es generalizing k left with
  | nil =>
      obtain ⟨k, rfl⟩ := Nat.exists_eq_succ_of_ne_zero (Nat.ne_of_gt hk)
      exact (parses_peekEq_rParen .rParen).bind (.pure left)
  | cons s es ih =>
      obtain ⟨k, rfl⟩ := Nat.exists_eq_succ_of_ne_zero (Nat.ne_of_gt (Nat.zero_lt_of_lt hk))
      obtain ⟨⟨h, hn⟩, hes⟩ := List.forall_mem_cons.mp hes
      have hd := delimited_printAll es rest
      rw [printAll_cons_append]
      refine (parses_peekEq_spaced h hd rfl).bind ?_
      rw [if_neg Bool.false_ne_true]
      exact (parses_nonnull_spaced h hn hd).bind (ih hes (Nat.lt_of_succ_lt_succ hk))

theorem reads_nary {s₁ s₂ : Source reg} (op : { s // s ∈ spellings })
    (h₁ : IsRead s₁) (h₂ : IsRead s₂)
    (hes : ∀ s ∈ es, IsRead s) :
    Reads reg (print (.nary op s₁ s₂ es)) (Source.size (.nary op s₁ s₂ es))
      (toExpr (.nary op s₁ s₂ es)) := by
  refine reads_form (size_pos _) fun {n rest} hn => ?_
  rw [Source.size] at hn
  have hall : s₁.size ≤ n ∧ s₂.size ≤ n ∧ sizeAll es ≤ n := by omega
  obtain ⟨hn₁, hn₂, hn₃⟩ := hall
  have htext : ' ' :: s₁.print ++ (' ' :: s₂.print ++ printAll es) ++ ')' :: rest =
      ' ' :: (s₁.print ++ ' ' :: (s₂.print ++ (printAll es ++ ')' :: rest))) := by
    simp
  rw [htext]
  obtain ⟨text, hscan⟩ := scans_binary reg op
    (s₁.print ++ ' ' :: (s₂.print ++ (printAll es ++ ')' :: rest)))
  refine (parses_peekKind hscan (by simp)).bind (Parses.map ((parses_nextToken hscan).bind ?_))
  refine (parses_nonnull_spaced h₁ hn₁ delimited_space).bind ?_
  refine (parses_nonnull_spaced h₂ hn₂ (delimited_printAll es _)).bind ?_
  exact parses_binaryRest (fun s hs => ⟨hes s hs, Nat.le_trans (size_le_sizeAll hs) hn₃⟩)
    (Nat.lt_of_lt_of_le (length_lt_sizeAll es) hn₃)

theorem reads_begin (hes : ∀ s ∈ es, IsRead s) :
    Reads reg (print (.begin es)) (Source.size (.begin es)) (toExpr (.begin es)) := by
  refine reads_form (size_pos _) fun {n rest} hn => ?_
  rw [Source.size] at hn
  have hscan : Scans reg.findClass ("begin".toList ++ (printAll es ++ ')' :: rest))
      ⟨.beginExpr, .ofList "begin".toList⟩ (printAll es ++ ')' :: rest) :=
    scans_keyword (by decide) (by decide) (delimited_printAll es _)
  refine (parses_peekKind hscan (by simp)).bind (Parses.map ((parses_expectNext hscan).bind ?_))
  have hstop (k : Token.Kind) (hk : opens k = true) : atRParen k = false :=
    beq_eq_false_iff_ne.mpr (opens_ne hk rfl)
  rw [toExpr, ← reduceOption_toExpr]
  exact parses_scoped (fun _ => parses_exprs hes hstop rfl (by omega)) (.pure _)

theorem reads_when {s : Source reg} (h : IsRead s)
    (hes : ∀ s ∈ es, IsRead s) :
    Reads reg (print (.when s es)) (Source.size (.when s es)) (toExpr (.when s es)) := by
  refine reads_form (size_pos _) fun {n rest} hn => ?_
  rw [Source.size] at hn
  have hall : s.size ≤ n ∧ sizeAll es ≤ n := by omega
  have htext : ' ' :: s.print ++ printAll es ++ ')' :: rest =
      ' ' :: (s.print ++ (printAll es ++ ')' :: rest)) := by
    simp
  rw [htext]
  have hscan : Scans reg.findClass
      ("when".toList ++ ' ' :: (s.print ++ (printAll es ++ ')' :: rest)))
      ⟨.whenExpr, .ofList "when".toList⟩ (' ' :: (s.print ++ (printAll es ++ ')' :: rest))) :=
    scans_keyword (by decide) (by decide) delimited_space
  refine (parses_peekKind hscan (by simp)).bind (Parses.map ((parses_expectNext hscan).bind ?_))
  refine (parses_nonnull_spaced h hall.1 (delimited_printAll es _)).bind ?_
  exact (parses_expressionList hes hall.2).bind (.pure _)

/-! ### Lists and calls -/

theorem reads_list (v : Lit) (hes : ∀ s ∈ es, IsRead s) :
    Reads reg (print (.list v es)) (Source.size (.list v es)) (toExpr (.list v es)) := by
  refine reads_form (size_pos _) fun {n rest} hn => ?_
  rw [Source.size] at hn
  have hall : 1 ≤ n ∧ sizeAll es ≤ n := by omega
  have hscan : Scans reg.findClass _ _ _ := v.scans (delimited_printAll es rest)
  have hlist : Parses reg (some <$> parseListExpr reg (parseExpression reg n) n)
      (v.print ++ (printAll es ++ ')' :: rest)) (some (toExpr (.list v es))) (')' :: rest) := by
    refine Parses.map (Parses.bind (parses_nonnull
      ((reads_literal v).parses hall.1 (delimited_printAll es _))) ?_)
    refine (parses_peekEq_all hes rfl (by simp)).bind ?_
    rw [if_neg Bool.false_ne_true]
    exact (parses_operands hes hall.2).bind (.pure _)
  refine (parses_peekKind hscan v.token_ne_invalid).bind ?_
  rcases v with ⟨m, h⟩ | ⟨_ | _⟩ | ⟨w, _, _⟩ <;> exact hlist

theorem parses_parseSymbol (x : Name reg) (hd : Delimited rest) :
    Parses reg (parseSymbol reg) (x.text ++ rest) x.symbol rest := by
  refine (parses_nextToken (x.scans hd)).bind ?_
  rw [if_neg (by simp)]
  refine Parses.get fun p hp => ?_
  rw [hp.current]
  exact Parses.lift x.new p hp

/-- A target, read in front of the operands of its call. -/
def IsTarget (f : CallTarget reg) : Prop :=
  ∀ {es : List (Source reg)}, (∀ s ∈ es, IsRead s) → ∀ {n rest},
    sizeCallee f + sizeAll es ≤ n →
    Parses reg (parseForm reg (parseExpression reg n) n)
      (printCallee f ++ (printAll es ++ ')' :: rest))
      (some (.callProc (ofCallee f) (toExprs es))) (')' :: rest)

theorem isTarget_name (x : Name reg) : IsTarget (.name x) := by
  intro es hes n rest hn
  rw [sizeCallee, Nat.zero_add] at hn
  have hscan := x.scans (delimited_printAll es rest)
  refine (parses_peekKind hscan (by simp)).bind (Parses.map ?_)
  refine (parses_peekEq hscan (by simp) .identifier).bind ?_
  rw [if_pos (by simp)]
  refine (parses_parseSymbol x (delimited_printAll es _)).bind ?_
  have htype : typeOf reg x.symbol = none := if_neg (by simp [Name.symbol])
  have hclass : reg.findClass x.symbol.name = none := x.not_class
  simp only [htype, hclass, Option.bind_none]
  exact (parses_operands hes hn).bind (.pure _)

/-- A call with the target, as a form. -/
theorem reads_call {f : CallTarget reg} (hf : IsTarget f)
    (hes : ∀ s ∈ es, IsRead s) :
    Reads reg (parenthesised (printCallee f) (printAll es)) (1 + (sizeCallee f + sizeAll es))
      (.callProc (ofCallee f) (toExprs es)) :=
  reads_form (by omega) fun hn => hf hes (by omega)

theorem isTarget_call {f : CallTarget reg} {args : List (Source reg)} (hf : IsTarget f)
    (hargs : ∀ s ∈ args, IsRead s) : IsTarget (.call f args) := by
  intro es hes n rest hn
  have hall : sizeCallee (.call f args) ≤ n ∧ sizeAll es ≤ n := by omega
  have hread := reads_call hf hargs
  have hscan : Scans reg.findClass (printCallee (.call f args) ++ (printAll es ++ ')' :: rest))
      ⟨.lParen, ""⟩ _ := scans_lParen
  refine (parses_peekKind hscan (by simp)).bind (Parses.map ?_)
  refine (parses_peekEq hscan (by simp) .identifier).bind ?_
  rw [if_neg (by simp)]
  refine (parses_nonnull (hread.parses hall.1 (delimited_printAll es _))).bind ?_
  exact (parses_operands hes hall.2).bind (.pure _)

/-! ### Conditionals -/

/-- A clause of which both parts are read whole. -/
def ReadsBranch : Branch reg → Prop
  | .mk test action =>
      IsRead test ∧ IsRead action

theorem printBranch_append (t a : Source reg) :
    printBranch (.mk t a) ++ rest = ' ' :: (t.print ++ ' ' :: (a.print ++ rest)) := by
  simp [printBranch]

theorem delimited_printBranches (cs : List (Branch reg)) (hd : Delimited rest) :
    Delimited (printBranches cs ++ rest) := by
  rcases cs with _ | ⟨⟨t, a⟩, cs⟩
  · exact hd
  · rw [printBranches, List.append_assoc, printBranch_append]
    exact delimited_space

/-- Neither a further clause nor an alternate looks like the end of a conditional. -/
theorem parses_peekEq_branches {c : Branch reg} {cs : List (Branch reg)} (hc : ReadsBranch c) :
    Parses reg (peekEq reg .rParen) (printBranches (c :: cs) ++ rest) false
      (printBranches (c :: cs) ++ rest) := by
  obtain ⟨t, a⟩ := c
  rw [printBranches, List.append_assoc, printBranch_append]
  exact parses_peekEq_spaced hc.1 delimited_space rfl

/-- The test and the action of a clause, in front of what the loop does behind them. -/
theorem parses_clause {c : Branch reg} {k : Nat} {r : List Clause × Option Expr} {last : Bool}
    (hc : ReadsBranch c) (hn : sizeBranch c ≤ n) (hd : Delimited rest)
    (hpeek : Parses reg (peekEq reg .rParen) rest last rest)
    (hmore : Parses reg (if last then pure ([], none)
      else parseCondClauses reg (parseExpression reg n) k) rest r cs) :
    Parses reg (parseCondClauses reg (parseExpression reg n) (k + 1)) (printBranch c ++ rest)
      (ofBranch c :: r.1, r.2) cs := by
  obtain ⟨t, a⟩ := c
  rw [sizeBranch] at hn
  rw [printBranch_append]
  refine (parses_nonnull_spaced hc.1 (Nat.le_of_add_right_le hn) delimited_space).bind ?_
  refine (parses_peekEq_spaced hc.2 hd rfl).bind ?_
  rw [if_neg Bool.false_ne_true]
  refine (parses_nonnull_spaced hc.2 (Nat.le_of_add_left_le hn) hd).bind (hpeek.bind ?_)
  cases last with
  | true =>
      intro p hp
      obtain ⟨q, hq, hat, hk⟩ := hmore p hp
      cases hq
      exact ⟨p, rfl, hat, hk⟩
  | false => exact Parses.bind hmore (.pure _)

/-- Clauses without an alternate. -/
theorem parses_clauses {c : Branch reg} {cs : List (Branch reg)} {k : Nat}
    (hcs : ∀ c' ∈ c :: cs, ReadsBranch c' ∧ sizeBranch c' ≤ n) (hk : cs.length < k) :
    Parses reg (parseCondClauses reg (parseExpression reg n) k)
      (printBranches (c :: cs) ++ ')' :: rest) (ofBranches (c :: cs), none) (')' :: rest) := by
  induction cs generalizing c k with
  | nil =>
      obtain ⟨k, rfl⟩ := Nat.exists_eq_succ_of_ne_zero (Nat.ne_of_gt hk)
      obtain ⟨⟨hc, hn⟩, -⟩ := List.forall_mem_cons.mp hcs
      rw [printBranches, List.append_assoc]
      exact parses_clause hc hn delimited_rParen (parses_peekEq_rParen .rParen) (.pure _)
  | cons c' cs ih =>
      obtain ⟨k, rfl⟩ := Nat.exists_eq_succ_of_ne_zero (Nat.ne_of_gt (Nat.zero_lt_of_lt hk))
      obtain ⟨⟨hc, hn⟩, hcs⟩ := List.forall_mem_cons.mp hcs
      have hpeek : Parses reg (peekEq reg .rParen) (printBranches (c' :: cs) ++ ')' :: rest) false
          (printBranches (c' :: cs) ++ ')' :: rest) :=
        parses_peekEq_branches (List.forall_mem_cons.mp hcs).1.1
      rw [printBranches, List.append_assoc]
      exact parses_clause hc hn (delimited_printBranches _ delimited_rParen) hpeek
        (ih hcs (Nat.lt_of_succ_lt_succ hk))

/-- Clauses in front of an alternate. -/
theorem parses_clauses_else {cs : List (Branch reg)} {alt : Source reg} {k : Nat}
    (hcs : ∀ c ∈ cs, ReadsBranch c ∧ sizeBranch c ≤ n)
    (ha : IsRead alt) (hn : alt.size ≤ n) (hk : cs.length < k) :
    Parses reg (parseCondClauses reg (parseExpression reg n) k)
      (printBranches cs ++ ' ' :: (alt.print ++ ')' :: rest)) (ofBranches cs, some alt.toExpr)
      (')' :: rest) := by
  induction cs generalizing k with
  | nil =>
      obtain ⟨k, rfl⟩ := Nat.exists_eq_succ_of_ne_zero (Nat.ne_of_gt hk)
      refine (parses_nonnull_spaced ha hn delimited_rParen).bind ?_
      exact (parses_peekEq_rParen .rParen).bind (.pure _)
  | cons c cs ih =>
      obtain ⟨k, rfl⟩ := Nat.exists_eq_succ_of_ne_zero (Nat.ne_of_gt (Nat.zero_lt_of_lt hk))
      obtain ⟨⟨hc, hnc⟩, hcs⟩ := List.forall_mem_cons.mp hcs
      have hpeek : Parses reg (peekEq reg .rParen)
          (printBranches cs ++ ' ' :: (alt.print ++ ')' :: rest)) false
          (printBranches cs ++ ' ' :: (alt.print ++ ')' :: rest)) := by
        rcases cs with _ | ⟨c', cs⟩
        · exact parses_peekEq_spaced ha delimited_rParen rfl
        · exact parses_peekEq_branches (List.forall_mem_cons.mp hcs).1.1
      rw [printBranches, List.append_assoc]
      exact parses_clause hc hnc (delimited_printBranches _ delimited_space) hpeek
        (ih hcs (Nat.lt_of_succ_lt_succ hk))

theorem sizeBranch_le {cs : List (Branch reg)} {c : Branch reg} (hc : c ∈ cs) :
    sizeBranch c ≤ sizeBranches cs := by
  induction cs with
  | nil => cases hc
  | cons c' cs ih =>
      rw [sizeBranches]
      rcases List.mem_cons.mp hc with rfl | hc
      · exact Nat.le_add_right _ _
      · exact Nat.le_add_left_of_le (ih hc)

theorem length_lt_sizeBranches (cs : List (Branch reg)) : cs.length < sizeBranches cs := by
  induction cs with
  | nil => exact Nat.one_pos
  | cons c cs ih =>
      obtain ⟨t, a⟩ := c
      have ht := t.size_pos
      rw [List.length_cons, sizeBranches, sizeBranch]
      omega

theorem reads_cond {c : Branch reg} {cs : List (Branch reg)}
    (hcs : ∀ c' ∈ c :: cs, ReadsBranch c') :
    Reads reg (print (.cond c cs)) (Source.size (.cond c cs)) (toExpr (.cond c cs)) := by
  refine reads_form (size_pos _) fun {n rest} hn => ?_
  have hsize : sizeBranches (c :: cs) ≤ n := by
    rw [Source.size] at hn
    rw [sizeBranches]
    omega
  have hlen := length_lt_sizeBranches (c :: cs)
  have hscan : Scans reg.findClass ("cond".toList ++ (printBranches (c :: cs) ++ ')' :: rest))
      ⟨.cond, .ofList "cond".toList⟩ (printBranches (c :: cs) ++ ')' :: rest) :=
    scans_keyword (by decide) (by decide) (delimited_printBranches _ delimited_rParen)
  refine (parses_peekKind hscan (by simp)).bind (Parses.map ((parses_expectNext hscan).bind ?_))
  refine (parses_clauses (fun c' hc => ⟨hcs c' hc, Nat.le_trans (sizeBranch_le hc) hsize⟩) ?_).bind
    (.pure _)
  rw [List.length_cons] at hlen
  omega

theorem reads_condElse {cs : List (Branch reg)} {alt : Source reg}
    (hcs : ∀ c ∈ cs, ReadsBranch c) (ha : IsRead alt) :
    Reads reg (print (.condElse cs alt)) (Source.size (.condElse cs alt))
      (toExpr (.condElse cs alt)) := by
  refine reads_form (size_pos _) fun {n rest} hn => ?_
  rw [Source.size] at hn
  have hall : sizeBranches cs ≤ n ∧ alt.size ≤ n := by omega
  have htext : printBranches cs ++ ' ' :: alt.print ++ ')' :: rest =
      printBranches cs ++ ' ' :: (alt.print ++ ')' :: rest) := by
    simp
  rw [htext]
  have hscan : Scans reg.findClass
      ("cond".toList ++ (printBranches cs ++ ' ' :: (alt.print ++ ')' :: rest)))
      ⟨.cond, .ofList "cond".toList⟩ (printBranches cs ++ ' ' :: (alt.print ++ ')' :: rest)) :=
    scans_keyword (by decide) (by decide) (delimited_printBranches _ delimited_space)
  refine (parses_peekKind hscan (by simp)).bind (Parses.map ((parses_expectNext hscan).bind ?_))
  exact (parses_clauses_else
    (fun c hc => ⟨hcs c hc, Nat.le_trans (sizeBranch_le hc) hall.1⟩) ha hall.2
    (Nat.lt_of_lt_of_le (length_lt_sizeBranches cs) hall.1)).bind (.pure _)

/-! ### Every form -/

mutual

/-- The text of every form is read whole. -/
theorem reads : (s : Source reg) → IsRead s
  | .literal v => reads_literal v
  | .name x => reads_name x
  | .unary op s => reads_unary op (reads s)
  | .nary op s₁ s₂ es => reads_nary op (reads s₁) (reads s₂) (reads_all es)
  | .call f args => reads_call (isTarget f) (reads_all args)
  | .begin body => reads_begin (reads_all body)
  | .when test actions => reads_when (reads test) (reads_all actions)
  | .cond (.mk t a) cs => 
      reads_cond (List.forall_mem_cons.mpr ⟨⟨reads t, reads a⟩, reads_branches cs⟩)
  | .condElse cs alt => reads_condElse (reads_branches cs) (reads alt)
  | .list v es => reads_list v (reads_all es)

theorem isTarget : (f : CallTarget reg) → IsTarget f
  | .name x => isTarget_name x
  | .call f args => isTarget_call (isTarget f) (reads_all args)

theorem reads_all : (es : List (Source reg)) → ∀ s ∈ es, IsRead s
  | [] => fun _ h => absurd h List.not_mem_nil
  | s :: es => List.forall_mem_cons.mpr ⟨reads s, reads_all es⟩

theorem reads_branches : (cs : List (Branch reg)) → ∀ c ∈ cs, ReadsBranch c
  | [] => fun _ h => absurd h List.not_mem_nil
  | .mk t a :: cs => List.forall_mem_cons.mpr ⟨⟨reads t, reads a⟩, reads_branches cs⟩

end

/-- **Parsing the text of a form gives its expression**, and the end of the input is next. -/
theorem parseExpression_print (s : Source reg) (scope : ScopeId) (scopes : Scopes) (k : Nat) :
    ∃ p q, parseExpression reg (s.size + k) (ofString (.ofList s.print) scope scopes) =
        .ok (some s.toExpr, p) ∧
      nextToken reg p = .ok (⟨.endOfStream, ""⟩, q) := by
  have hat : At reg (ofString (.ofList s.print) scope scopes) (s.print ++ []) := by
    refine ⟨rfl, Option.some_ne_none _, .inl ⟨rfl, ?_, rfl, (by decide : (-1 : Int) < 0)⟩⟩
    simp [ofString]
  obtain ⟨p, h, hp, -⟩ := (reads s).parses (Nat.le_add_right _ k) delimited_nil _ hat
  obtain ⟨q, hq, -⟩ := parses_nextToken scans_nil p hp
  exact ⟨p, q, h, hq⟩

end Parser

end Gel
