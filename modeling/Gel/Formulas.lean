import Gel.Printing
import Gel.Core

/-!
# Formulas — forms that only compute

`Formula`: literals, operators, calls of natives by their names, and `cond` with one clause and an
alternate.  `Formula.value` is what such a form means, with the natives as functions of their
arguments; `toSource` is the form as the parser reads it and `toCore` what the compiler makes of it.

* `Formula.eval_of_value`: the core expression of a formula has the value of the formula.
* `Parser.quiet`: parsing the text of a formula touches neither scopes nor lambdas.
-/

namespace Gel

open Faulting Lexer

theorem Lit.isSymbol_toValue (v : Lit) : v.toValue.isSymbol = false := by
  cases v <;> rfl

/-- A form that only computes. -/
inductive Formula (reg : Registry) where
  | literal (v : Lit)
  | unary (op : { s // s ∈ unarySpellings }) (e : Formula reg)
  | nary (op : { s // s ∈ spellings }) (e₁ e₂ : Formula reg) (es : List (Formula reg))
  | call (f : Name reg) (args : List (Formula reg))
  | cond (test action alternate : Formula reg)

namespace Formula

variable {reg : Registry}

mutual

def toSource : Formula reg → Source reg
  | literal v => .literal v
  | unary op e => .unary op e.toSource
  | nary op e₁ e₂ es => .nary op e₁.toSource e₂.toSource (toSources es)
  | call f args => .call (.name f) (toSources args)
  | cond t a e => .condElse [.mk t.toSource a.toSource] e.toSource

def toSources : List (Formula reg) → List (Source reg)
  | [] => []
  | e :: es => e.toSource :: toSources es

end

mutual

/-- The core expression of a formula; more than two operands associate to the left. -/
def toCore : Formula reg → CoreExpr
  | literal v => .literal v.toValue v.isSymbol_toValue
  | unary op e => .unary op.1.2 e.toCore
  | nary op e₁ e₂ es => foldCores op.1.2 (.binary op.1.2 e₁.toCore e₂.toCore) es
  | call f args => .call (.symbol f.symbol) (toCores args)
  | cond t a e => .cond t.toCore a.toCore e.toCore

def foldCores (op : BinaryOp) (left : CoreExpr) : List (Formula reg) → CoreExpr
  | [] => left
  | e :: es => foldCores op (.binary op left e.toCore) es

def toCores : List (Formula reg) → List CoreExpr
  | [] => []
  | e :: es => e.toCore :: toCores es

end

/-- What the natives compute. -/
abbrev Natives := Symbol → List Value → Option Value

mutual

/-- The value of a formula, where it has one.  Of a `cond` only the branch that is selected needs
one. -/
def value (fns : Natives) : Formula reg → Option Value
  | literal v => some v.toValue
  | unary op e => do (op.1.2.apply (← e.value fns)).toOption
  | nary op e₁ e₂ es => do
      let x ← e₁.value fns
      let y ← e₂.value fns
      foldValues fns op.1.2 (← (op.1.2.apply x y).toOption) es
  | call f args => do fns f.symbol (← valueAll fns args)
  | cond t a e => do if (← t.value fns).truth then a.value fns else e.value fns

def foldValues (fns : Natives) (op : BinaryOp) (left : Value) : List (Formula reg) → Option Value
  | [] => some left
  | e :: es => do foldValues fns op (← (op.apply left (← e.value fns)).toOption) es

def valueAll (fns : Natives) : List (Formula reg) → Option (List Value)
  | [] => some []
  | e :: es => do return (← e.value fns) :: (← valueAll fns es)

end

/-- The text of a formula. -/
def print (e : Formula reg) : List Char := e.toSource.print

/-- The expression the parser makes of it. -/
def toExpr (e : Formula reg) : Expr := e.toSource.toExpr

/-! ### The core expression -/

mutual

theorem toExpr_toCore : ∀ e : Formula reg, e.toCore.toExpr = e.toSource.toExpr
  | literal v => rfl
  | unary op e => by rw [toCore, toSource, CoreExpr.toExpr, Source.toExpr, toExpr_toCore e]
  | nary op e₁ e₂ es => by
      rw [toCore, toSource, Source.toExpr, toExpr_foldCores, CoreExpr.toExpr, toExpr_toCore e₁,
        toExpr_toCore e₂]
  | call f args => by
      rw [toCore, toSource, CoreExpr.toExpr, Source.toExpr, Source.ofCallee, toExprs_toCores args]
  | cond t a e => by
      rw [toCore, toSource, CoreExpr.toExpr, Source.toExpr, Source.ofBranches, Source.ofBranches,
        Source.ofBranch, toExpr_toCore t, toExpr_toCore a, toExpr_toCore e]

theorem toExpr_foldCores (op : BinaryOp) (left : CoreExpr) : ∀ es : List (Formula reg),
    (foldCores op left es).toExpr
      = (Source.toExprs (toSources es)).foldl (.binaryOp op) left.toExpr
  | [] => rfl
  | e :: es => by
      rw [foldCores, toSources, Source.toExprs, List.foldl_cons, toExpr_foldCores, CoreExpr.toExpr,
        toExpr_toCore e]

theorem toExprs_toCores : ∀ es : List (Formula reg),
    CoreExpr.toExprs (toCores es) = Source.toExprs (toSources es)
  | [] => rfl
  | e :: es => by
      rw [toCores, CoreExpr.toExprs, toSources, Source.toExprs, toExpr_toCore e, toExprs_toCores es]

end

/-! ### Values -/

/-- The calls of natives are what the natives compute, in the memories that `P` says. -/
def CallsAre (fns : Natives) (env : Env) (apply : Application) (P : Memory → Prop) : Prop :=
  ∀ f args v m, fns f args = some v → P m →
    ∃ x m', env.procedure (.symbol f) = some x ∧ apply x args m = some (v, m') ∧ P m'

section Values

variable {fns : Natives} {env : Env} {apply : Application} {P : Memory → Prop}

mutual

/-- **The core expression of a formula** has the formula's value. -/
theorem eval_of_value (hcalls : CallsAre fns env apply P) : ∀ (e : Formula reg) {v : Value}
    {m : Memory}, e.value fns = some v → P m →
      ∃ m', e.toCore.eval env apply m = some (v, m') ∧ P m'
  | literal x, v, m, hv, hm => by
      cases hv
      exact ⟨m, rfl, hm⟩
  | unary op e, v, m, hv, hm => by
      obtain ⟨x, hx, hv⟩ := Option.bind_eq_some_iff.mp hv
      obtain ⟨m₁, he, hm₁⟩ := eval_of_value hcalls e hx hm
      refine ⟨m₁, ?_, hm₁⟩
      rw [toCore, CoreExpr.eval, he]
      simp [hv]
  | nary op e₁ e₂ es, v, m, hv, hm => by
      obtain ⟨x, hx, hv⟩ := Option.bind_eq_some_iff.mp hv
      obtain ⟨y, hy, hv⟩ := Option.bind_eq_some_iff.mp hv
      obtain ⟨z, hz, hv⟩ := Option.bind_eq_some_iff.mp hv
      obtain ⟨m₁, he₁, hm₁⟩ := eval_of_value hcalls e₁ hx hm
      obtain ⟨m₂, he₂, hm₂⟩ := eval_of_value hcalls e₂ hy hm₁
      have hfirst : (CoreExpr.binary op.1.2 e₁.toCore e₂.toCore).eval env apply m
          = some (z, m₂) := by
        rw [CoreExpr.eval, he₁]
        simp [he₂, hz]
      exact foldCores_of_value hcalls op.1.2 es hv hfirst hm₂
  | call f args, v, m, hv, hm => by
      obtain ⟨vs, hvs, hv⟩ := Option.bind_eq_some_iff.mp hv
      obtain ⟨m₁, hargs, hm₁⟩ := evalAll_of_value hcalls args hvs hm
      obtain ⟨x, m₂, hx, happly, hm₂⟩ := hcalls f.symbol vs v m₁ hv hm₁
      refine ⟨m₂, ?_, hm₂⟩
      rw [toCore, CoreExpr.eval, hargs]
      simp [hx, happly]
  | cond t a e, v, m, hv, hm => by
      obtain ⟨x, hx, hv⟩ := Option.bind_eq_some_iff.mp hv
      obtain ⟨m₁, ht, hm₁⟩ := eval_of_value hcalls t hx hm
      rw [toCore, CoreExpr.eval, ht]
      split at hv
      · rename_i htrue
        obtain ⟨m₂, ha, hm₂⟩ := eval_of_value hcalls a hv hm₁
        exact ⟨m₂, by simp [htrue, ha], hm₂⟩
      · rename_i hfalse
        obtain ⟨m₂, he, hm₂⟩ := eval_of_value hcalls e hv hm₁
        exact ⟨m₂, by simp [hfalse, he], hm₂⟩

theorem foldCores_of_value (hcalls : CallsAre fns env apply P) (op : BinaryOp) :
    ∀ (es : List (Formula reg)) {left : CoreExpr} {x v : Value} {m m' : Memory},
      foldValues fns op x es = some v → left.eval env apply m = some (x, m') → P m' →
      ∃ m'', (foldCores op left es).eval env apply m = some (v, m'') ∧ P m''
  | [], _, _, _, _, m', hv, hleft, hm => by
      cases hv
      exact ⟨m', hleft, hm⟩
  | e :: es, left, x, v, m, m', hv, hleft, hm => by
      obtain ⟨y, hy, hv⟩ := Option.bind_eq_some_iff.mp hv
      obtain ⟨z, hz, hv⟩ := Option.bind_eq_some_iff.mp hv
      obtain ⟨m₁, he, hm₁⟩ := eval_of_value hcalls e hy hm
      have hnext : (CoreExpr.binary op left e.toCore).eval env apply m = some (z, m₁) := by
        rw [CoreExpr.eval, hleft]
        simp [he, hz]
      exact foldCores_of_value hcalls op es hv hnext hm₁

theorem evalAll_of_value (hcalls : CallsAre fns env apply P) : ∀ (es : List (Formula reg))
    {vs : List Value} {m : Memory}, valueAll fns es = some vs → P m →
      ∃ m', CoreExpr.evalAll env apply (toCores es) m = some (vs, m') ∧ P m'
  | [], _, m, hvs, hm => by
      cases hvs
      exact ⟨m, rfl, hm⟩
  | e :: es, _, m, hvs, hm => by
      obtain ⟨x, hx, hvs⟩ := Option.bind_eq_some_iff.mp hvs
      obtain ⟨xs, hxs, hvs⟩ := Option.bind_eq_some_iff.mp hvs
      cases hvs
      obtain ⟨m₁, he, hm₁⟩ := eval_of_value hcalls e hx hm
      obtain ⟨m₂, hes, hm₂⟩ := evalAll_of_value hcalls es hxs hm₁
      refine ⟨m₂, ?_, hm₂⟩
      rw [toCores, CoreExpr.evalAll, he]
      simp [hes]

end

end Values

end Formula

/-! ### Parsing -/

namespace Parser

open Source

/-- The scope, the scopes and the lambdas are as they were. -/
structure Untouched (p q : Parser) : Prop where
  scope : q.scope = p.scope
  scopes : q.scopes = p.scopes
  lambdas : q.lambdas = p.lambdas

theorem Untouched.refl (p : Parser) : Untouched p p := ⟨rfl, rfl, rfl⟩

theorem Untouched.trans {p q r : Parser} (h : Untouched p q) (h' : Untouched q r) : Untouched p r :=
  ⟨h'.scope.trans h.scope, h'.scopes.trans h.scopes, h'.lambdas.trans h.lambdas⟩

instance : Blind Untouched := ⟨Untouched.mk⟩

/-- `Parses`, and neither a scope nor a lambda is touched. -/
structure Quiet {α : Type} (reg : Registry) (x : Parse α) (cs : List Char) (a : α)
    (rest : List Char) : Prop where
  parses : Parses reg x cs a rest
  untouched : ∀ {p b q}, At reg p cs → x p = .ok (b, q) → Untouched p q

variable {reg : Registry} {α β : Type} {x : Parse α} {f : α → Parse β} {cs mid rest : List Char}
  {a : α} {b : β} {t : Token} {k : Token.Kind} {n : Nat}

namespace Quiet

theorem of_steps (h : Parses reg x cs a rest) (hs : Steps Untouched x) : Quiet reg x cs a rest :=
  ⟨h, fun _ hrun => hs hrun⟩

theorem pure (a : α) : Quiet reg (pure a) cs a cs := ⟨.pure a, fun {p _ q} _ hrun => by
  cases hrun
  exact .refl p⟩

theorem bind (hx : Quiet reg x cs a mid) (hf : Quiet reg (f a) mid b rest) :
    Quiet reg (x >>= f) cs b rest := by
  refine ⟨hx.parses.bind hf.parses, fun {p _ r} hp hrun => ?_⟩
  obtain ⟨a', q, h₁, h₂⟩ := bind_eq_ok.mp hrun
  obtain ⟨q', h₁', hq, -⟩ := hx.parses p hp
  cases h₁'.symm.trans h₁
  exact (hx.untouched hp h₁).trans (hf.untouched hq h₂)

theorem map {g : α → β} (hx : Quiet reg x cs a rest) : Quiet reg (g <$> x) cs (g a) rest := by
  refine ⟨hx.parses.map, fun {p _ q} hp hrun => ?_⟩
  obtain ⟨a', hx', -⟩ := map_eq_ok.mp hrun
  exact hx.untouched hp hx'

theorem lift {y : Except Fault α} (h : y = .ok a) : Quiet reg (liftM y) cs a cs :=
  ⟨.lift h, fun {p _ _} _ hrun => (lift_eq_ok.mp hrun).2 ▸ .refl p⟩

/-- A space in front of what is peeked first. -/
theorem space {f : Token → Parse β} (hf : Quiet reg (peekToken reg >>= f) cs b rest)
    (h : Scans reg.findClass cs t mid) (ht : t.kind ≠ .invalid) :
    Quiet reg (peekToken reg >>= f) (' ' :: cs) b rest := by
  refine ⟨hf.parses.space h ht, fun {p c r} hp hrun => ?_⟩
  obtain ⟨t', q, h₁, h₂⟩ := bind_eq_ok.mp hrun
  obtain ⟨q', h₁', -, hc, hs, hpeek, hl⟩ := peekToken_run h.space ht hp
  cases h₁'.symm.trans h₁
  have htoken : Steps Untouched (peekToken reg) := Lexical.peek
  have hq := htoken h₁
  have hrest : Untouched q r :=
    hf.untouched ⟨hc, hs, .inr ⟨t, mid, hpeek, ht, hl, h⟩⟩
      ((bind_run (peekToken_some hpeek)).trans h₂)
  exact hq.trans hrest

end Quiet

theorem quiet_nextToken (h : Scans reg.findClass cs t rest) :
    Quiet reg (nextToken reg) cs t rest := .of_steps (parses_nextToken h) Lexical.next

theorem quiet_peekKind (h : Scans reg.findClass cs t rest) (ht : t.kind ≠ .invalid) :
    Quiet reg (peekKind reg) cs t.kind cs := .of_steps (parses_peekKind h ht) peekKind_steps

theorem quiet_peekEq {c : Bool} (h : Parses reg (peekEq reg k) cs c cs) :
    Quiet reg (peekEq reg k) cs c cs := .of_steps h (peekEq_steps k)

theorem quiet_expectNext (h : Scans reg.findClass cs t rest) :
    Quiet reg (expectNext reg t.kind) cs t rest := by
  refine (quiet_nextToken h).bind ?_
  rw [if_neg (not_not.mpr rfl)]
  exact .pure t

theorem quiet_nonnull {expr : ParseExpr} {e : Expr} (h : Quiet reg expr cs (some e) rest) :
    Quiet reg (nonnull expr) cs e rest := h.bind (.pure e)

/-- The text of a form is read whole, quietly. -/
def IsQuiet (s : Source reg) : Prop := ∀ {n rest}, s.size ≤ n → Delimited rest →
  Quiet reg (parseExpression reg n) (s.print ++ rest) (some s.toExpr) rest

variable {s s₁ s₂ : Source reg} {es : List (Source reg)}

theorem quiet_spaced (h : IsQuiet s) (hn : s.size ≤ n) (hd : Delimited rest) :
    Quiet reg (nonnull (parseExpression reg n)) (' ' :: (s.print ++ rest)) s.toExpr rest := by
  obtain ⟨n, rfl⟩ := Nat.exists_eq_succ_of_ne_zero (Nat.ne_of_gt (Nat.lt_of_lt_of_le s.size_pos hn))
  obtain ⟨t, rest', hscan, ht⟩ := (reads s).first hd
  have hrun := h hn hd
  rw [parseExpression, peekKind, bind_map_left] at hrun
  refine quiet_nonnull ?_
  rw [parseExpression, peekKind, bind_map_left]
  exact hrun.space hscan (opens_ne ht rfl)

/-- A literal or a name. -/
theorem quiet_atom {text : List Char} {t : Token} {v : Value}
    (hscan : ∀ {rest}, Delimited rest → Scans reg.findClass (text ++ rest) t rest)
    (ht : startsLiteral t.kind = true ∧ t.kind ∉ [.fn, .dispatch, .lBrace])
    (hv : ∀ {rest}, Delimited rest → Quiet reg (parseLiteralValue reg) (text ++ rest) v rest)
    (hn : 1 ≤ n) (hd : Delimited rest) :
    Quiet reg (parseExpression reg n) (text ++ rest) (some (.literal v)) rest := by
  obtain ⟨n, rfl⟩ := Nat.exists_eq_succ_of_ne_zero (Nat.ne_of_gt hn)
  obtain ⟨hs, hk⟩ := ht
  have hvalid : t.kind ≠ .invalid := opens_ne (by simp [opens, hs]) rfl
  have hpeek : Quiet reg (peekKind reg) (text ++ rest) t.kind (text ++ rest) :=
    quiet_peekKind (hscan hd) hvalid
  simp only [List.mem_cons, List.not_mem_nil, or_false, not_or] at hk
  rw [parseExpression]
  refine hpeek.bind ?_
  rw [if_pos hs]
  refine Quiet.map (hpeek.bind ?_)
  rw [if_neg (by simp [hk]), if_neg (by simp [hk])]
  exact (hv hd).bind (.pure _)

theorem quiet_literal (v : Lit) : IsQuiet (Source.literal v : Source reg) := by
  refine quiet_atom v.scans ?_ fun hd => (quiet_nextToken (v.scans hd)).bind ?_
  · rcases v with ⟨m, h⟩ | ⟨_ | _⟩ | ⟨w, _, _⟩ <;>
      simp [Lit.token, startsLiteral, Token.Kind.isLiteral]
  · rcases v with ⟨m, h⟩ | ⟨_ | _⟩ | ⟨w, _, _⟩
    · have hl : (Lit.long m h).token.asLong = .ofNat m := by
        rw [Token.asLong, Lit.token, String.toList_ofList, atol_toDigits h]
      change Quiet reg (pure (Value.long (Lit.long m h).token.asLong)) _ _ _
      rw [hl]
      exact .pure _
    all_goals exact .pure _

theorem quiet_name (x : Name reg) : IsQuiet (Source.name x : Source reg) :=
  quiet_atom x.scans ⟨rfl, by simp⟩ fun hd =>
    (quiet_nextToken (x.scans hd)).bind ((Quiet.lift x.new).bind (.pure _))

/-- A parenthesised form. -/
theorem quiet_form {head operands : List Char} {size : Nat} {e : Expr} (hs : 0 < size)
    (h : ∀ {n rest}, size ≤ n + 1 → Quiet reg (parseForm reg (parseExpression reg n) n)
      (head ++ (operands ++ ')' :: rest)) (some e) (')' :: rest)) (hn : size ≤ n) :
    Quiet reg (parseExpression reg n) (parenthesised head operands ++ rest) (some e) rest := by
  obtain ⟨n, rfl⟩ := Nat.exists_eq_succ_of_ne_zero (Nat.ne_of_gt (Nat.lt_of_lt_of_le hs hn))
  have htext : parenthesised head operands ++ rest =
      '(' :: (head ++ (operands ++ ')' :: rest)) := by
    simp [parenthesised]
  rw [htext, parseExpression]
  refine (quiet_peekKind scans_lParen (by decide)).bind ?_
  rw [if_neg (by decide), if_neg (by decide)]
  exact (quiet_expectNext scans_lParen).bind ((h hn).bind
    ((quiet_expectNext scans_rParen).bind (.pure _)))

theorem quiet_unary (op : { s // s ∈ unarySpellings }) (h : IsQuiet s) :
    IsQuiet (.unary op s) := by
  intro n rest hn _
  refine quiet_form (size_pos _) (fun {n rest} hn => ?_) hn
  rw [Source.size] at hn
  have hn' : s.size ≤ n := by omega
  have hscan := scans_unary reg op (s.print ++ ')' :: rest)
  refine (quiet_peekKind hscan (by simp)).bind (Quiet.map ((quiet_nextToken hscan).bind ?_))
  exact (quiet_spaced h hn' delimited_rParen).bind (.pure _)

/-- The operands behind the second. -/
theorem quiet_binaryRest {op : BinaryOp} {k : Nat} {left : Expr}
    (hes : ∀ s ∈ es, IsQuiet s ∧ s.size ≤ n) (hk : es.length < k) :
    Quiet reg (parseBinaryRest reg (parseExpression reg n) op k left)
      (printAll es ++ ')' :: rest) ((toExprs es).foldl (.binaryOp op) left) (')' :: rest) := by
  induction es generalizing k left with
  | nil =>
      obtain ⟨k, rfl⟩ := Nat.exists_eq_succ_of_ne_zero (Nat.ne_of_gt hk)
      exact (quiet_peekEq (parses_peekEq_rParen .rParen)).bind (.pure left)
  | cons s es ih =>
      obtain ⟨k, rfl⟩ := Nat.exists_eq_succ_of_ne_zero (Nat.ne_of_gt (Nat.zero_lt_of_lt hk))
      obtain ⟨⟨h, hn⟩, hes⟩ := List.forall_mem_cons.mp hes
      have hd := delimited_printAll es rest
      rw [printAll_cons_append]
      refine (quiet_peekEq (parses_peekEq_spaced (reads s) hd rfl)).bind ?_
      rw [if_neg Bool.false_ne_true]
      exact (quiet_spaced h hn hd).bind (ih hes (Nat.lt_of_succ_lt_succ hk))

theorem quiet_nary (op : { s // s ∈ spellings }) (h₁ : IsQuiet s₁) (h₂ : IsQuiet s₂)
    (hes : ∀ s ∈ es, IsQuiet s) : IsQuiet (.nary op s₁ s₂ es) := by
  intro n rest hn _
  refine quiet_form (size_pos _) (fun {n rest} hn => ?_) hn
  rw [Source.size] at hn
  have hall : s₁.size ≤ n ∧ s₂.size ≤ n ∧ sizeAll es ≤ n := by omega
  obtain ⟨hn₁, hn₂, hn₃⟩ := hall
  have htext : ' ' :: s₁.print ++ (' ' :: s₂.print ++ printAll es) ++ ')' :: rest =
      ' ' :: (s₁.print ++ ' ' :: (s₂.print ++ (printAll es ++ ')' :: rest))) := by
    simp
  rw [htext]
  obtain ⟨text, hscan⟩ := scans_binary reg op
    (s₁.print ++ ' ' :: (s₂.print ++ (printAll es ++ ')' :: rest)))
  refine (quiet_peekKind hscan (by simp)).bind (Quiet.map ((quiet_nextToken hscan).bind ?_))
  refine (quiet_spaced h₁ hn₁ delimited_space).bind ?_
  refine (quiet_spaced h₂ hn₂ (delimited_printAll es _)).bind ?_
  exact quiet_binaryRest (fun s hs => ⟨hes s hs, Nat.le_trans (size_le_sizeAll hs) hn₃⟩)
    (Nat.lt_of_lt_of_le (length_lt_sizeAll es) hn₃)

/-- The operands of a call. -/
theorem quiet_operands {k : Nat} (hes : ∀ s ∈ es, IsQuiet s ∧ s.size ≤ n) (hk : es.length < k) :
    Quiet reg (parseUntil reg atRParen (nonnull (parseExpression reg n)) k)
      (printAll es ++ ')' :: rest) (toExprs es) (')' :: rest) := by
  induction es generalizing k with
  | nil =>
      obtain ⟨k, rfl⟩ := Nat.exists_eq_succ_of_ne_zero (Nat.ne_of_gt hk)
      refine (quiet_peekKind scans_rParen (by decide)).bind ?_
      rw [if_pos (by decide)]
      exact .pure _
  | cons s es ih =>
      obtain ⟨k, rfl⟩ := Nat.exists_eq_succ_of_ne_zero (Nat.ne_of_gt (Nat.zero_lt_of_lt hk))
      obtain ⟨⟨h, hn⟩, hes⟩ := List.forall_mem_cons.mp hes
      have hd := delimited_printAll es rest
      obtain ⟨t, rest', hscan, ht⟩ := (reads s).first hd
      have hstop : atRParen t.kind = false := beq_eq_false_iff_ne.mpr (opens_ne ht rfl)
      rw [printAll_cons_append]
      refine (quiet_peekKind hscan.space (opens_ne ht rfl)).bind ?_
      rw [if_neg (by simp [hstop])]
      exact (quiet_spaced h hn hd).bind ((ih hes (Nat.lt_of_succ_lt_succ hk)).bind (.pure _))

theorem quiet_parseSymbol (x : Name reg) (hd : Delimited rest) :
    Quiet reg (parseSymbol reg) (x.text ++ rest) x.symbol rest := by
  refine ⟨parses_parseSymbol x hd, fun {p b q} hp hrun => ?_⟩
  obtain ⟨t, r, h₁, h₂⟩ := bind_eq_ok.mp hrun
  have hnext : Steps Untouched (nextToken reg) := Lexical.next
  have hr := hnext h₁
  suffices hsame : q = r from hsame ▸ hr
  split at h₂
  · cases h₂
  · obtain ⟨r', r'', hget, h₂⟩ := bind_eq_ok.mp h₂
    cases hget
    cases hc : r.current with
    | none =>
        rw [hc] at h₂
        exact (lift_eq_ok.mp h₂).2
    | some ns =>
        rw [hc] at h₂
        exact (lift_eq_ok.mp h₂).2

/-- A call of a name. -/
theorem quiet_call (x : Name reg) (hes : ∀ s ∈ es, IsQuiet s) :
    IsQuiet (.call (.name x) es) := by
  intro n rest hn _
  refine quiet_form (size_pos _) (fun {n rest} hn => ?_) hn
  rw [Source.size, sizeCallee] at hn
  have hn' : sizeAll es ≤ n := by omega
  have hscan := x.scans (delimited_printAll es rest)
  refine (quiet_peekKind hscan (by simp)).bind (Quiet.map ?_)
  refine (quiet_peekEq (parses_peekEq hscan (by simp) .identifier)).bind ?_
  rw [if_pos (by simp)]
  refine (quiet_parseSymbol x (delimited_printAll es _)).bind ?_
  have htype : typeOf reg x.symbol = none := if_neg (by simp [Name.symbol])
  have hclass : reg.findClass x.symbol.name = none := x.not_class
  simp only [htype, hclass, Option.bind_none]
  have hoperands : Quiet reg (parseOperands reg (parseExpression reg n) n)
      (printAll es ++ ')' :: rest) (toExprs es) (')' :: rest) :=
    quiet_operands (fun s hs => ⟨hes s hs, Nat.le_trans (size_le_sizeAll hs) hn'⟩)
      (Nat.lt_of_lt_of_le (length_lt_sizeAll es) hn')
  exact hoperands.bind (.pure _)

/-- A list that starts with a literal. -/
theorem quiet_list (v : Lit) (hes : ∀ s ∈ es, IsQuiet s) : IsQuiet (.list v es) := by
  intro n rest hn _
  refine quiet_form (size_pos _) (fun {n rest} hn => ?_) hn
  rw [Source.size] at hn
  have hall : 1 ≤ n ∧ sizeAll es ≤ n := by omega
  have hscan : Scans reg.findClass _ _ _ := v.scans (delimited_printAll es rest)
  have hoperands : Quiet reg (parseOperands reg (parseExpression reg n) n)
      (printAll es ++ ')' :: rest) (toExprs es) (')' :: rest) :=
    quiet_operands (fun s hs => ⟨hes s hs, Nat.le_trans (size_le_sizeAll hs) hall.2⟩)
      (Nat.lt_of_lt_of_le (length_lt_sizeAll es) hall.2)
  have hlist : Quiet reg (some <$> parseListExpr reg (parseExpression reg n) n)
      (v.print ++ (printAll es ++ ')' :: rest)) (some (toExpr (.list v es))) (')' :: rest) := by
    refine Quiet.map (Quiet.bind (quiet_nonnull
      (quiet_literal v hall.1 (delimited_printAll es _))) ?_)
    refine (quiet_peekEq (parses_peekEq_all (fun s _ => reads s) rfl (by simp))).bind ?_
    rw [if_neg Bool.false_ne_true]
    exact hoperands.bind (.pure _)
  refine (quiet_peekKind hscan v.token_ne_invalid).bind ?_
  rcases v with ⟨m, h⟩ | ⟨_ | _⟩ | ⟨w, _, _⟩ <;> exact hlist

/-- A conditional of one clause and an alternate. -/
theorem quiet_condElse (h : IsQuiet s) (h₁ : IsQuiet s₁) (h₂ : IsQuiet s₂) :
    IsQuiet (.condElse [.mk s s₁] s₂) := by
  intro n rest hn _
  refine quiet_form (size_pos _) (fun {n rest} hn => ?_) hn
  rw [Source.size, sizeBranches, sizeBranches, sizeBranch] at hn
  have hall : s.size ≤ n ∧ s₁.size ≤ n ∧ s₂.size ≤ n ∧ 2 ≤ n := by
    have hpos := s.size_pos
    omega
  obtain ⟨hn₀, hn₁, hn₂, hn₃⟩ := hall
  have htext : printBranches [.mk s s₁] ++ ' ' :: s₂.print ++ ')' :: rest =
      ' ' :: (s.print ++ ' ' :: (s₁.print ++ ' ' :: (s₂.print ++ ')' :: rest))) := by
    simp [printBranches, printBranch]
  rw [htext]
  have hscan : Scans reg.findClass
      ("cond".toList ++ ' ' :: (s.print ++ ' ' :: (s₁.print ++ ' ' :: (s₂.print ++ ')' :: rest))))
      ⟨.cond, .ofList "cond".toList⟩
      (' ' :: (s.print ++ ' ' :: (s₁.print ++ ' ' :: (s₂.print ++ ')' :: rest)))) :=
    scans_keyword (by decide) (by decide) delimited_space
  refine (quiet_peekKind hscan (by simp)).bind (Quiet.map ((quiet_expectNext hscan).bind ?_))
  obtain ⟨k, rfl⟩ := Nat.exists_eq_add_of_le' hn₃
  have hpeek : ∀ {s : Source reg} {rest}, Delimited rest →
      Quiet reg (peekEq reg .rParen) (' ' :: (s.print ++ rest)) false (' ' :: (s.print ++ rest)) :=
    fun {s _} hd => quiet_peekEq (parses_peekEq_spaced (reads s) hd rfl)
  have halternate : Quiet reg (parseCondClauses reg (parseExpression reg (k + 2)) (k + 1))
      (' ' :: (s₂.print ++ ')' :: rest)) ([], some s₂.toExpr) (')' :: rest) :=
    (quiet_spaced h₂ hn₂ delimited_rParen).bind
      ((quiet_peekEq (parses_peekEq_rParen .rParen)).bind (.pure _))
  have hclauses : Quiet reg (parseCondClauses reg (parseExpression reg (k + 2)) (k + 2))
      (' ' :: (s.print ++ ' ' :: (s₁.print ++ ' ' :: (s₂.print ++ ')' :: rest))))
      ([.mk s.toExpr [s₁.toExpr]], some s₂.toExpr) (')' :: rest) := by
    refine (quiet_spaced h hn₀ delimited_space).bind ((hpeek delimited_space).bind ?_)
    rw [if_neg Bool.false_ne_true]
    refine (quiet_spaced h₁ hn₁ delimited_space).bind ((hpeek delimited_rParen).bind ?_)
    exact halternate.bind (.pure _)
  exact hclauses.bind (.pure _)

mutual

/-- **Parsing the text of a formula** touches neither scopes nor lambdas. -/
theorem quiet : ∀ e : Formula reg, IsQuiet e.toSource
  | .literal v => quiet_literal v
  | .unary op e => quiet_unary op (quiet e)
  | .nary op e₁ e₂ es => quiet_nary op (quiet e₁) (quiet e₂) (quiet_all es)
  | .call f args => quiet_call f (quiet_all args)
  | .cond t a e => quiet_condElse (quiet t) (quiet a) (quiet e)

theorem quiet_all : ∀ es : List (Formula reg), ∀ s ∈ Formula.toSources es, IsQuiet s
  | [] => fun _ h => absurd h List.not_mem_nil
  | e :: es => List.forall_mem_cons.mpr ⟨quiet e, quiet_all es⟩

end

end Parser

end Gel
