import Gel.Evaluating
import Gel.Arrays

/-!
# Reading — what is printed reads back

`PrintValue` writes a number, a boolean and a list the way the parser reads them, so that the
evaluation of the text of a value gives the value.  A `Printed` value is one of which this is true: a
string is printed without its quotes, and a list must start with a number or a boolean, since what
starts with a name or with another list is read as a call.

* `Printed.printValue_toValue`: the text of such a value.
* `eval_printed`: the text of such a value evaluates to it.
-/

namespace Gel

open Faulting FlowGraphBuilder FlowGraphCompiler

/-- A number or a boolean; a number is read as a signed one. -/
inductive Atom where
  | long (n : Nat) (h : n < 2 ^ 63)
  | bool (b : Bool)

/-- The literal that is written. -/
def Atom.toLit : Atom → Lit
  | long n h => .long n h
  | bool b => .bool b

/-- A value that reads back; a symbol does so only in a list. -/
inductive Printed (reg : Registry) where
  | atom (a : Atom)
  | symbol (x : Name reg)
  | list (head : Atom) (tail : List (Printed reg))

namespace Printed

variable {reg : Registry}

mutual

def toValue : Printed reg → Value
  | atom a => a.toLit.toValue
  | symbol x => .symbol x.symbol
  | list a ds => .pair a.toLit.toValue (toCdr ds)

/-- The list of the values. -/
def toCdr : List (Printed reg) → Value
  | [] => .null
  | d :: ds => .pair d.toValue (toCdr ds)

end

mutual

/-- The form that is written. -/
def toSource : Printed reg → Source reg
  | atom a => .literal a.toLit
  | symbol x => .name x
  | list a ds => .list a.toLit (toSources ds)

def toSources : List (Printed reg) → List (Source reg)
  | [] => []
  | d :: ds => d.toSource :: toSources ds

end

mutual

/-- How deep the lists are nested. -/
def depth : Printed reg → Nat
  | atom _ | symbol _ => 1
  | list _ ds => depthAll ds + 1

def depthAll : List (Printed reg) → Nat
  | [] => 1
  | d :: ds => max d.depth (depthAll ds)

end

/-- What is evaluated to itself. -/
def isConstant : Printed reg → Bool
  | symbol _ => false
  | _ => true

/-- The expression the parser makes of the text. -/
def toExpr (d : Printed reg) : Expr := d.toSource.toExpr

theorem depth_le_depthAll {d : Printed reg} {ds : List (Printed reg)} (h : d ∈ ds) :
    d.depth ≤ depthAll ds := by
  induction ds with
  | nil => cases h
  | cons e ds ih =>
      rw [depthAll]
      rcases List.mem_cons.mp h with rfl | h
      · exact le_max_left _ _
      · exact (ih h).trans (le_max_right _ _)

theorem depthAll_pos (ds : List (Printed reg)) : 0 < depthAll ds := by
  induction ds with
  | nil => exact Nat.zero_lt_one
  | cons d ds ih => exact ih.trans_le (le_max_right _ _)

/-! ### Printing -/

section Printing

variable {host : Host} {h : ArrayHeap}

theorem spine_toCdr (ds : List (Printed reg)) : (toCdr ds).spine = ds.map toValue := by
  induction ds with
  | nil => rfl
  | cons d ds ih => rw [toCdr, Value.spine, ih, List.map_cons]

theorem printAtom_toLit (host : Host) (a : Atom) :
    printAtom host a.toLit.toValue = .ofList a.toLit.print := by
  cases a with
  | long n hn =>
      have hlt : n < 2 ^ 64 := hn.trans (by decide)
      change toString (UInt64.ofNat n).toNat = _
      rw [UInt64.toNat_ofNat', Nat.mod_eq_of_lt hlt]
      exact Nat.toString_eq_ofList_toDigits
  | bool b => cases b <;> rfl

/-- The texts of a list's elements, with a space in front of each but the first. -/
theorem intercalate_texts (s : List Char) (ds : List (Printed reg)) :
    " ".intercalate (String.ofList s :: ds.map fun d => String.ofList d.toSource.print)
      = .ofList (s ++ Source.printAll (toSources ds)) := by
  induction ds generalizing s with
  | nil => simp [toSources, Source.printAll]
  | cons d ds ih =>
      rw [List.map_cons, String.intercalate_cons_cons, ih, toSources, Source.printAll]
      apply String.toList_inj.mp
      simp

theorem printValue_toLit (a : Atom) {k : Nat} (hk : 0 < k) :
    h.printValue host k a.toLit.toValue = .ok (.ofList a.toLit.print) := by
  obtain ⟨k, rfl⟩ := Nat.exists_eq_succ_of_ne_zero hk.ne'
  rw [← printAtom_toLit host a]
  cases a <;> rfl

mutual

/-- **The text of a value** is what `PrintValue` prints of it. -/
theorem printValue_toValue : ∀ (d : Printed reg) {k : Nat}, d.depth ≤ k →
    h.printValue host k d.toValue = .ok (.ofList d.toSource.print)
  | atom a, _, hk => printValue_toLit a hk
  | symbol x, k, hk => by
      obtain ⟨k, rfl⟩ := Nat.exists_eq_succ_of_ne_zero (Nat.ne_of_gt hk)
      rfl
  | list a ds, k, hk => by
      rw [depth] at hk
      obtain ⟨k, rfl⟩ := Nat.exists_eq_succ_of_ne_zero (Nat.ne_of_gt (Nat.zero_lt_of_lt hk))
      have hk' : depthAll ds ≤ k := Nat.le_of_succ_le_succ hk
      have htexts : (toValue (.list a ds)).spine.mapM (h.printValue host k)
          = .ok (.ofList a.toLit.print :: ds.map fun d => .ofList d.toSource.print) := by
        rw [toValue, Value.spine, spine_toCdr, List.mapM_cons,
          printValue_toLit a ((depthAll_pos ds).trans_le hk'), printAll_toValue ds hk']
        rfl
      have hprint : h.printValue host (k + 1) (toValue (.list a ds)) = (do
          let texts ← (toValue (.list a ds)).spine.mapM (h.printValue host k)
          return "(" ++ " ".intercalate texts ++ ")") := rfl
      rw [hprint, htexts]
      refine congrArg Except.ok ?_
      rw [intercalate_texts, toSource, Source.print]
      apply String.toList_inj.mp
      simp [parenthesised]

theorem printAll_toValue : ∀ (ds : List (Printed reg)) {k : Nat}, depthAll ds ≤ k →
    (ds.map toValue).mapM (h.printValue host k) = .ok (ds.map fun d => .ofList d.toSource.print)
  | [], _, _ => rfl
  | d :: ds, k, hk => by
      rw [depthAll] at hk
      rw [List.map_cons, List.mapM_cons, printValue_toValue d (le_of_max_le_left hk),
        printAll_toValue ds (le_of_max_le_right hk)]
      rfl

end

end Printing

/-! ### Reading -/

mutual

theorem quiet : ∀ d : Printed reg, Parser.IsQuiet d.toSource
  | atom a => Parser.quiet_literal a.toLit
  | symbol x => Parser.quiet_name x
  | list a ds => Parser.quiet_list a.toLit (quiet_all ds)

theorem quiet_all : ∀ ds : List (Printed reg), ∀ s ∈ toSources ds, Parser.IsQuiet s
  | [] => fun _ h => absurd h List.not_mem_nil
  | d :: ds => List.forall_mem_cons.mpr ⟨quiet d, quiet_all ds⟩

end

/-! ### Constants -/

mutual

theorem isConstantExpr_toExpr (bound : Symbol → Bool) : ∀ d : Printed reg,
    d.toSource.toExpr.isConstantExpr bound = true
  | atom _ => rfl
  | symbol _ => rfl
  | list _ ds => allConstant_toExprs bound ds

theorem allConstant_toExprs (bound : Symbol → Bool) : ∀ ds : List (Printed reg),
    Expr.allConstant bound (Source.toExprs (toSources ds)) = true
  | [] => rfl
  | d :: ds =>
      Bool.and_eq_true_iff.mpr ⟨isConstantExpr_toExpr bound d, allConstant_toExprs bound ds⟩

end

mutual

theorem evalToConstant_toExpr (cfg : Config) (m : Scopes) (s : ScopeId) : ∀ d : Printed reg,
    d.toSource.toExpr.evalToConstant cfg m s = some (some d.toValue)
  | atom _ => rfl
  | symbol _ => rfl
  | list a ds => by
      rw [toSource, Source.toExpr, Expr.evalToConstant, Expr.evalList, evalList_toExprs cfg m s ds]
      rfl

theorem evalList_toExprs (cfg : Config) (m : Scopes) (s : ScopeId) : ∀ ds : List (Printed reg),
    Expr.evalList cfg m s (Source.toExprs (toSources ds)) = some (toCdr ds)
  | [] => rfl
  | d :: ds => by
      rw [toSources, Source.toExprs, Expr.evalList, evalList_toExprs cfg m s ds,
        evalToConstant_toExpr cfg m s d]
      rfl

end

theorem isSymbol_toValue {d : Printed reg} (hd : d.isConstant = true) :
    d.toValue.isSymbol = false := by
  cases d with
  | atom a => cases a <;> rfl
  | symbol => cases hd
  | list => rfl

/-- A list of constants is visited as its value. -/
theorem visitedAs {d : Printed reg} (hd : d.isConstant = true) :
    VisitedAs d.toExpr (.literal d.toValue (isSymbol_toValue hd)) := by
  cases d with
  | atom a => exact fun _ => rfl
  | symbol => cases hd
  | list a ds =>
      intro cfg
      funext b
      have hconst : isConstantExpr cfg (list a ds).toExpr b = some (true, b) := by
        change some ((list a ds).toExpr.isConstantExpr _, b) = _
        rw [toExpr, isConstantExpr_toExpr]
      have heval : evalToConstant cfg (list a ds).toExpr b = some (some (list a ds).toValue, b) := by
        rw [evalToConstant, Partial.get_bind, toExpr, evalToConstant_toExpr]
        rfl
      rw [toExpr, toSource, Source.toExpr, visit, CoreExpr.toExpr, visit_literal] at *
      rw [Partial.bind_run hconst, if_pos rfl, Partial.bind_run heval]
      rfl

/-- The expander looks neither into a literal nor into a list. -/
theorem not_sees (d : Printed reg) {x : MacroExpander} (m : MacroId) : ¬d.toExpr.Sees x m := by
  cases d <;> exact id

end Printed

/-! ### The code of a constant -/

/-- The body of a lambda that is a constant. -/
theorem visitLambdaBody_constant (cfg : Config) {v : Value} (hv : v.isSymbol = false) {b : Builder}
    (hf : b.Fresh) : ∃ w b' i r, visitLambdaBody cfg [.literal v] {} b = some (w, b') ∧
      Built Anywhere b w b' [.visit i, .code (.push v), .visit r, .code .ret] := by
  have hstart : Built Anywhere b {} b [] := .start hf
  have hpush : Straight (b.alloc (.constant v)).graph (.constant v) [.code (.push v)] :=
    fun _ _ => rfl
  obtain ⟨v₁, b₁, hrun₁, hval₁, -, -, -, hbuilt₁⟩ := hstart.returnNew hpush
  obtain ⟨v₂, b₂, hrun₂, -, -, -, hbuilt₂⟩ := hstart.append hbuilt₁
  have hret : Straight (b₂.alloc .ret).graph .ret [.code .ret] := fun _ _ => rfl
  obtain ⟨v₃, b₃, hrun₃, -, -, -, -, -, hbuilt₃⟩ := hbuilt₂.addNew hret
  refine ⟨v₃, b₃, _, _, ?_, hbuilt₃⟩
  have hvisit : visit cfg .value (.literal v) {} b = some (v₁, b₁) := by
    rw [visit_literal, visitLiteral_run, Scopes.literalInstr_of_not_symbol _ _ hv]
    exact hrun₁
  have hopen : Visitor.isOpen {} = true := rfl
  rw [visitLambdaBody, if_pos hopen, Partial.bind_run hvisit, Partial.bind_run hrun₂]
  simp only [List.isEmpty_nil, if_true, hval₁, Option.isNone_some, Bool.false_eq_true, if_false,
    pure_bind, visitLambdaBody, bind_pure]
  exact hrun₃

/-- **The code of a lambda** that is a constant. -/
theorem compiled_constant (cfg : Config) {v : Value} (hv : v.isSymbol = false) {b : Builder}
    (hf : b.Fresh) : ∃ g t i r, Compiled (visitLambda cfg none [.literal v]) b
      [.visit g, .visit t, .visit i, .code (.push v), .visit r, .code .ret] := by
  have hnames : lambdaNames b.scopes b.scope none
      = some ((b.scopes.newScope (some b.scope)).2, (b.scopes.newScope (some b.scope)).1) := rfl
  have hf' : Builder.Fresh { b with
      scopes := (b.scopes.newScope (some b.scope)).2
      scope := (b.scopes.newScope (some b.scope)).1 } := hf
  obtain ⟨w, b', i, r, hrun, hbuilt⟩ := visitLambdaBody_constant cfg hv (Builder.fresh_entered hf')
  refine ⟨_, _, i, r, compiled_lambda hnames (fun w' b'' hrun' => ?_)
    (compiled_body hf' hrun hbuilt)⟩
  cases hrun.symm.trans hrun'
  exact ⟨hbuilt.grown.scopes, hbuilt.grown.scope⟩

theorem size_push (v : Value) : (Bytecode.push v).size ≤ 9 ∧ (Bytecode.push v).refs.length ≤ 1 := by
  cases v with
  | bool b => cases b <;> simp [Bytecode.size, Bytecode.bytes.eq_def, Bytecode.refs.eq_def]
  | _ => simp [Bytecode.size, Bytecode.bytes.eq_def, Bytecode.refs.eq_def]

/-- It fits as soon as there is an address left. -/
theorem evalFits_constant {cfg : Config} {e : Expr} {v : Value} {hv : v.isSymbol = false}
    (he : VisitedAs e (.literal v hv)) {s : ScopeId} {m : Memory} (hm : m.objects.length < 2 ^ 64) :
    EvalFits cfg e s m := by
  intro is his
  rw [he.visitLambda] at his
  obtain ⟨g, t, i, r, hconst⟩ := compiled_constant { cfg with runtimeScope := s } hv
    (fun _ _ => rfl : (builderFor m s none).Fresh)
  obtain rfl := his.functional hconst
  obtain ⟨hsize, hrefs⟩ := size_push v
  have hall : Layout.refs [.visit g, .visit t, .visit i, .code (.push v), .visit r, .code .ret]
      = (Bytecode.push v).refs := List.append_nil _
  refine ⟨?_, ?_⟩
  · have hret : Bytecode.ret.size = 1 := rfl
    simp only [Layout.size_cons, Layout.size_nil, Item.size, hret]
    omega
  · rw [hall, List.length_append]
    omega

/-- The scope of `Eval` is not needed for a constant. -/
theorem yields_constant (prims : Formula.Natives) (names : Names) (v : Value)
    (hv : v.isSymbol = false) : Yields prims names (.literal v hv) v :=
  fun {_ m} _ => ⟨m, rfl, .refl _⟩

namespace Reading.Sample

/-- `(21 (#t 34) #f)` -/
def printed (reg : Registry) : Printed reg :=
  .list (.long 21 (by decide)) [.list (.bool true) [.atom (.long 34 (by decide))], .atom (.bool false)]

def heap : ArrayHeap := { words := fun _ => .null }

end Reading.Sample

end Gel
