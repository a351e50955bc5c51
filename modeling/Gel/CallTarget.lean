import Gel.Cond
import Gel.Counting

/-!
# CallTarget — the procedure a call invokes

`VisitCallProcExpr` visits the target of a call in a visitor of its own and keeps only the last
definition: `CreateCallFor` invokes it when it is the constant of a procedure, and otherwise looks
up the symbol it is taken to be.

`Denotes` says which procedure the target of a call evaluates to.  `Expr.isStatement` are the forms
whose visitors return no definition, whatever their value is meant to be.

* `callFor`: what is emitted for a call of a target whose definition is known.
* `invokes_iff`: the calls that invoke what their target evaluates to.
-/

namespace Gel

open FlowGraphCompiler FlowGraphBuilder Layout Interpreter

/-- The forms without a definition of their own. -/
def Expr.isStatement : Expr → Bool
  | .begin _ | .while .. | .cond .. | .when .. | .case .. | .localDef .. | .setLocal .. | .setField ..
  | .import | .throw _ => true
  | _ => false

/-- The procedure that the target of a call evaluates to, behind its arguments: the value of an
expression of the core, the procedure that a literal stands for when the call is compiled, a quoted
procedure, or, of a symbol that is not bound then, the value of its variable when the call runs.
The value of a statement is left open. -/
inductive Denotes (env : Env) (apply : Application) (names : Names) (a : Activation) :
    Expr → Memory → Value → Memory → Prop where
  | core {e : CoreExpr} {m m' : Memory} {f : Value} (h : e.eval env apply m = some (f, m')) :
      Denotes env apply names a e.toExpr m f m'
  | known {t f : Value} {m : Memory} (h : env.procedure t = some f) :
      Denotes env apply names a (.literal t) m f m
  | quoted {f : Value} {m : Memory} : Denotes env apply names a (.quoted f) m f m
  | statement {e : Expr} {f : Value} {m m' : Memory} (h : e.isStatement = true) :
      Denotes env apply names a e m f m'
  | symbol {x : Symbol} {f : Value} {m : Memory}
      (hx : names.1.lookup names.2 x.fullyQualifiedName = none)
      (h : (m.scopes.lookup a.scope x.fullyQualifiedName).bind m.scopes.valueOf = some f) :
      Denotes env apply names a (.literal (.symbol x)) m f m

/-- The call of a target with arguments from the core, in value position. -/
def visitCall (cfg : Config) (args : List CoreExpr) (target : Expr) (b : Builder) :
    Option (Visitor × Builder) :=
  visit cfg .value (.callProc target (CoreExpr.toExprs args)) {} b

/-- The instruction of a call of a definition with the constant value `f`. -/
def callInstr (f : Option Value) (defn : InstrId) (n : UInt64) : Instr :=
  match f with
  | some (.native _) => .invokeNative defn n
  | some (.lambda _) => .invoke defn n
  | _ => .invokeDynamic n

/-- Each instruction of the target is one that the code of the call goes through, or the constant
that the instruction of the call names. -/
def ExecutesTarget (cfg : Config) (args : List CoreExpr) (target : Expr) (b : Builder)
    (v : Visitor) (b' : Builder) (c : List Item) : Prop :=
  ∀ v₁ b₁ v₂ b₂ ct, visitArgs cfg (CoreExpr.toExprs args) {} b = some (v₁, b₁) →
    visit cfg .value target {} b₁ = some (v₂, b₂) → Emits b₂.graph v₂.entry ct →
    ∀ i, Item.visit i ∈ ct → Item.visit i ∈ c ∨ ∃ k n, v.value = some k ∧
      (b'.graph.instr? k = some (.invoke i n) ∨ b'.graph.instr? k = some (.invokeNative i n))

/-- The code of the call executes the target, and from a state of the machine in which it has been
loaded it leaves the result `r` of the call and the memory `m'`. -/
def Invokes (cfg : Config) (args : List CoreExpr) (target : Expr) (b : Builder) (host : Host)
    (callN : CallWithNArgs) (a : Activation) (s : List Value) (m : Memory) (r : Value)
    (m' : Memory) : Prop :=
  ∃ v b' c, visitCall cfg args target b = some (v, b') ∧ Emits b'.graph v.entry c ∧
    ExecutesTarget cfg args target b v b' c ∧
    ∀ pre post, (∀ l, b.numBlocks ≤ l → l < b'.numBlocks → Item.bind l ∉ pre) →
      Loaded (pre ++ (c ++ post)) a.region m →
      Passes host callN a (size pre) s m (size (pre ++ c)) (r :: s) m'

/-- Whatever is emitted for the call lies in memory. -/
def CallLoaded (cfg : Config) (args : List CoreExpr) (target : Expr) (b : Builder)
    (a : Activation) (m : Memory) : Prop :=
  ∀ v b' c, visitCall cfg args target b = some (v, b') → Emits b'.graph v.entry c →
    ∃ pre post, (∀ l, b.numBlocks ≤ l → l < b'.numBlocks → Item.bind l ∉ pre) ∧
      Loaded (pre ++ (c ++ post)) a.region m

/-- The target is compiled to the constant `y`. -/
def ConstantOf (names : Names) (target : Expr) (y : Value) : Prop :=
  target = .quoted y ∨ ∃ w, target = .literal w ∧ names.1.literalInstr names.2 w = .constant y

/-- The target is a quoted value, or a literal that is compiled to a constant: it is not a symbol
that resolves to a variable without a value. -/
def ConstantTarget (names : Names) (target : Expr) : Prop := ∃ y, ConstantOf names target y

/-! ### The value of a visitor -/

section Values

variable {cfg : Config} {b b' : Builder} {v v' : Visitor} {x : Instr} {i k : InstrId}

/-- The definition that a value visitor returns is its exit. -/
theorem returnDefinition_eq_some (h : returnDefinition .value v i b = some (v', b')) :
    v'.value = some i ∧ v'.exit = some i ∧ b'.graph.instrs = b.graph.instrs := by
  obtain ⟨v₁, b₁, hadd, h⟩ := Partial.bind_eq_some.mp h
  cases h
  obtain ⟨hinstrs, hexit⟩ := add_spec hadd
  exact ⟨rfl, hexit, hinstrs⟩

/-- A visitor returns the instruction `x`. -/
def Defines (v : Visitor) (b : Builder) (x : Instr) : Prop :=
  ∃ d, v.value = some d ∧ v.exit = some d ∧ b.graph.instr? d = some x

theorem defines_of_returnNew (h : returnNew .value v x b = some (v', b')) : Defines v' b' x := by
  rw [FlowGraphBuilder.returnNew, Partial.bind_run (newInstr_alloc x b)] at h
  obtain ⟨hval, hexit, hinstrs⟩ := returnDefinition_eq_some h
  refine ⟨b.graph.size, hval, hexit, ?_⟩
  rw [Graph.instr?, hinstrs]
  exact b.instr?_alloc x

/-- A call returns the instruction of the call. -/
theorem defines_of_returnCallTo {n : UInt64} (h : returnCallTo cfg .value v i n b = some (v', b')) :
    Defines v' b' (callInstr (b.graph.constantValue i) i n) := by
  have hdyn : ∀ {v' : Visitor} {b' : Builder}, (do
      let v ← FlowGraphBuilder.add v i
      let v ← FlowGraphBuilder.addInstanceOf cfg v .symbol
      let v ← FlowGraphBuilder.addNew v .lookup
      let invoke ← newInstr (.invokeDynamic n)
      let v ← FlowGraphBuilder.addInstanceOf cfg v .procedure
      returnDefinition .value v invoke : Build Visitor) b = some (v', b') →
      Defines v' b' (.invokeDynamic n) := by
    intro v' b' h
    obtain ⟨_, _, -, h⟩ := Partial.bind_eq_some.mp h
    obtain ⟨_, _, -, h⟩ := Partial.bind_eq_some.mp h
    obtain ⟨_, b₃, -, h⟩ := Partial.bind_eq_some.mp h
    rw [Partial.bind_run (newInstr_alloc _ b₃)] at h
    obtain ⟨v₄, b₄, hcheck, h⟩ := Partial.bind_eq_some.mp h
    obtain ⟨hval, hexit, hinstrs⟩ := returnDefinition_eq_some h
    refine ⟨b₃.graph.size, hval, hexit, ?_⟩
    rw [Graph.instr?, hinstrs]
    obtain ⟨r, hr⟩ := addInstanceOf_instrs hcheck
    have halloc := b₃.instr?_alloc (.invokeDynamic n)
    rw [Graph.instr?] at halloc
    rw [← hr, List.getElem?_append_left (List.getElem?_eq_some_iff.mp halloc).1]
    exact halloc
  rw [FlowGraphBuilder.returnCallTo, Partial.get_bind] at h
  cases hf : b.graph.constantValue i with
  | none =>
      rw [hf] at h
      exact hdyn h
  | some f =>
      rw [hf] at h
      cases f with
      | native | lambda => exact defines_of_returnNew h
      | _ => exact hdyn h

/-! ### Statements -/

section Statements

variable {o : Option InstrId} {rhs : Visitor} {cs : List Clause} {join alt target : InstrId}
  {key : Visitor → Build Visitor}

/-- The visitor has the value `o`. -/
def Visitor.Valued (o : Option InstrId) (v : Visitor) : Prop := v.value = o

theorem yields_add (h : v.Valued o) : Partial.Yields (Visitor.Valued o) (add v i) := by
  unfold FlowGraphBuilder.add
  split
  · exact .pure h
  · split
    · exact .failure
    · exact .behind fun _ => .pure h

theorem yields_addNew (h : v.Valued o) : Partial.Yields (Visitor.Valued o) (addNew v x) :=
  .behind fun _ => yields_add h

theorem yields_append (h : v.Valued o) : Partial.Yields (Visitor.Valued o) (append v rhs) := by
  unfold FlowGraphBuilder.append
  split
  · exact .pure h
  · split
    · exact .pure h
    · split
      · exact .failure
      · exact .behind fun _ => .pure h

theorem yields_addInstanceOf {c : ClassId} (h : v.Valued o) :
    Partial.Yields (Visitor.Valued o) (addInstanceOf cfg v c) := by
  unfold FlowGraphBuilder.addInstanceOf
  split
  · exact yields_addNew h
  · exact .pure h

theorem yields_visitSequence (es : List Expr) (h : v.Valued o) :
    Partial.Yields (Visitor.Valued o) (visitSequence cfg es v) := by
  induction es generalizing v with
  | nil =>
      rw [visitSequence]
      exact .pure h
  | cons e es ih =>
      rw [visitSequence]
      split
      · exact .behind fun _ => (yields_append h).bind fun _ h => ih h
      · exact .pure h

theorem yields_visitCondClauses (h : v.Valued o) :
    Partial.Yields (Visitor.Valued o) (visitCondClauses cfg alt join cs v) := by
  induction cs generalizing v with
  | nil =>
      rw [visitCondClauses]
      exact .pure h
  | cons cl cs ih =>
      obtain ⟨t, actions⟩ := cl
      rw [visitCondClauses]
      refine .behind fun target => .behind fun _ => .behind fun _ => .behind fun _ => ?_
      split
      · exact .behind fun _ => (yields_append h).bind fun _ h => .behind fun _ =>
          (yields_append h).bind fun _ h => (yields_addNew h).bind fun _ h => ih h
      · exact .behind fun _ => (yields_append h).bind fun _ h =>
          (yields_addNew h).bind fun _ h => ih h

theorem yields_visitCaseClauses (h : v.Valued o) :
    Partial.Yields (Visitor.Valued o) (visitCaseClauses cfg key join cs v) := by
  induction cs generalizing v with
  | nil =>
      rw [visitCaseClauses]
      exact .pure h
  | cons cl cs ih =>
      obtain ⟨t, actions⟩ := cl
      rw [visitCaseClauses]
      -- the visitors of the clause and of its test are others
      iterate 8 refine .behind fun _ => ?_
      exact (yields_append h).bind fun _ h => ih h

/-- **A statement** leaves the definition of the visitor as it was. -/
theorem yields_visit_of_isStatement {m : Mode} {e : Expr} (he : e.isStatement = true)
    (h : v.Valued o) : Partial.Yields (Visitor.Valued o) (visit cfg m e v) := by
  cases e with
  | begin body =>
      rw [visit]
      exact yields_visitSequence body h
  | «while» test body =>
      rw [visit]
      refine .behind fun _ => (yields_add h).bind fun _ h => ?_
      iterate 10 refine .behind fun _ => ?_
      exact .pure h
  | cond clauses alternate =>
      rw [visit]
      exact .behind fun _ => .behind fun _ => (yields_visitCondClauses h).bind fun _ h =>
        .behind fun _ => .pure h
  | when test actions =>
      rw [visit]
      iterate 6 refine .behind fun _ => ?_
      exact (yields_append h).bind fun _ h => (yields_addNew h).bind fun _ h => .pure h
  | case key clauses =>
      rw [visit]
      exact .behind fun _ => (yields_visitCaseClauses h).bind fun _ h => .pure h
  | localDef l e | setLocal l e =>
      rw [visit]
      exact .behind fun _ => (yields_append h).bind fun _ h => .behind fun _ => yields_addNew h
  | setField field inst e =>
      rw [visit]
      exact .behind fun _ => (yields_append h).bind fun _ h => .behind fun _ =>
        (yields_append h).bind fun _ h => yields_addNew h
  | «import» =>
      rw [visit]
      exact .pure h
  | throw e =>
      rw [visit]
      exact .behind fun _ => (yields_append h).bind fun _ h =>
        (yields_addInstanceOf h).bind fun _ h => yields_addNew h
  | _ => cases he

end Statements

/-- Each step of a visitor that links or allocates keeps the instructions there are. -/
def Allocates (b b' : Builder) : Prop := b.graph.instrs <+: b'.graph.instrs

theorem allocates_addNew : Partial.Leads Allocates (addNew v x) := by
  rintro b v' b' h
  rw [FlowGraphBuilder.addNew, Partial.bind_run (newInstr_alloc x b)] at h
  rw [Allocates, (add_spec h).1]
  exact List.prefix_append _ _

theorem allocates_addInstanceOf (c : ClassId) : Partial.Leads Allocates (addInstanceOf cfg v c) :=
  fun _ _ _ h => addInstanceOf_instrs h

theorem allocates_returnDefinition : Partial.Leads Allocates (returnDefinition .value v i) := by
  rintro b v' b' h
  rw [Allocates, (returnDefinition_eq_some h).2.2]

theorem allocates_returnNew : Partial.Leads Allocates (returnNew .value v x) := by
  rintro b v' b' h
  rw [FlowGraphBuilder.returnNew, Partial.bind_run (newInstr_alloc x b)] at h
  rw [Allocates, (returnDefinition_eq_some h).2.2]
  exact List.prefix_append _ _

theorem allocates_returnCallTo (n : UInt64) :
    Partial.Leads Allocates (returnCallTo cfg .value v i n) := by
  have htrans : ∀ {b b' b'' : Builder}, Allocates b b' → Allocates b' b'' → Allocates b b'' :=
    fun h h' => h.trans h'
  have hdyn : Partial.Leads Allocates (do
      let v ← FlowGraphBuilder.add v i
      let v ← FlowGraphBuilder.addInstanceOf cfg v .symbol
      let v ← FlowGraphBuilder.addNew v .lookup
      let invoke ← newInstr (.invokeDynamic n)
      let v ← FlowGraphBuilder.addInstanceOf cfg v .procedure
      returnDefinition .value v invoke : Build Visitor) := by
    refine .bind htrans (fun b v' b' h => ?_) fun v =>
      .bind htrans (allocates_addInstanceOf _) fun v => .bind htrans allocates_addNew fun v =>
        .bind htrans (fun b i' b' h => ?_) fun i' =>
          .bind htrans (allocates_addInstanceOf _) fun v => allocates_returnDefinition
    · rw [Allocates, (add_spec h).1]
    · cases (newInstr_alloc _ b).symm.trans h
      exact List.prefix_append _ _
  unfold FlowGraphBuilder.returnCallTo
  refine .bind htrans (.get fun b => List.prefix_refl _) fun b => ?_
  cases b.graph.constantValue i with
  | none => exact hdyn
  | some f => cases f with
      | native | lambda => exact allocates_returnNew
      | _ => exact hdyn

end Values

/-! ### Emitted instructions -/

theorem visit_not_mem_itemsOf {g : Graph} {x : Instr} {is : List Item} {i : InstrId}
    (h : itemsOf g x = some is) : Item.visit i ∉ is := by
  cases x with
  | invoke | invokeNative | goto =>
      obtain ⟨_, -, rfl⟩ := Option.map_eq_some_iff.mp h
      simp
  | branch => cases h
  | _ =>
      cases h
      simp

/-- What a chain visits are instructions of the graph. -/
theorem FlowGraphCompiler.Emits.visit_lt {g : Graph} {e : Option InstrId} {is : List Item}
    {i : InstrId} (h : Emits g e is) (hi : Item.visit i ∈ is) : i < g.size := by
  have hlt : ∀ {j x}, g.instr? j = some x → j < g.size := fun hx =>
    (List.getElem?_eq_some_iff.mp hx).1
  induction h with
  | done => cases hi
  | instr hx his _ ih =>
      simp only [List.mem_cons, List.mem_append, Item.visit.injEq] at hi
      rcases hi with rfl | hi | hi
      · exact hlt hx
      · exact absurd hi (visit_not_mem_itemsOf his)
      · exact ih hi
  | branch hx _ _ _ _ _ iht ihj ihk =>
      simp only [List.mem_cons, List.mem_append, Item.visit.injEq, reduceCtorEq, false_or] at hi
      rcases hi with rfl | hi | hi | hi
      · exact hlt hx
      · exact iht hi
      · exact ihj hi
      · exact ihk hi
  | branchElse hx _ _ _ _ _ _ _ iht ihf ihj ihk =>
      simp only [List.mem_cons, List.mem_append, Item.visit.injEq, reduceCtorEq, false_or] at hi
      rcases hi with rfl | hi | hi | hi | hi
      · exact hlt hx
      · exact iht hi
      · exact ihf hi
      · exact ihj hi
      · exact ihk hi

/-- What is emitted for a call visits the definition of the target and what comes after it. -/
theorem visit_callItems {cfg : Config} {f : Option Value} {d k i : InstrId} {is : List Item}
    {n : UInt64} (hi : Item.visit i ∈ callItems cfg f d k is n) (his : Item.visit i ∉ is) :
    i = d ∨ k ≤ i := by
  have hcheck : ∀ {j c}, Item.visit i ∈ checkItems cfg j c → i = j := by
    intro j c h
    unfold checkItems at h
    split at h <;> simp at h
    exact h
  unfold callItems at hi
  split at hi
  · simp at hi
    exact .inr hi.ge
  · simp at hi
    exact .inr hi.ge
  · have hk : k ≤ if cfg.pedantic = true then k + 1 else k := by
      split
      · exact Nat.le_succ k
      · exact le_rfl
    simp only [List.mem_cons, List.mem_append, Item.visit.injEq, reduceCtorEq, List.not_mem_nil,
      false_or, or_false] at hi
    rcases hi with rfl | hi | hi | rfl | hi | rfl
    · exact .inl rfl
    · exact absurd hi his
    · exact .inr (hcheck hi).ge
    · exact .inr hk
    · exact .inr ((hcheck hi).symm ▸ hk.trans (Nat.le_add_right _ 2))
    · exact .inr (hk.trans (Nat.le_succ _))

/-! ### The code of a call -/

/-- The target has been visited behind the arguments: it returns the instruction `x` at `d`, the end
of its chain. -/
structure TargetFor (cfg : Config) (target : Expr) (b : Builder) (v : Visitor) (b' : Builder)
    (d : InstrId) (x : Instr) (is : List Item) : Prop where
  run : visit cfg .value target {} b = some (v, b')
  value : v.value = some d
  grown : Grown ∅ b b'
  later : b.graph.size ≤ d
  instr : b'.graph.instr? d = some x
  straight : Straight b'.graph x is
  last : b'.graph.next d = none

section Calls

variable {cfg : Config} {args : List CoreExpr} {target : Expr} {b b₁ b₂ : Builder}
  {v₁ v₂ : Visitor} {c₁ is : List Item} {d : InstrId} {x : Instr}

/-- **The code of a call** whose target has been visited. -/
theorem callFor (h₁ : CodeForAll cfg args b {} [] b v₁ b₁ c₁)
    (h₂ : TargetFor cfg target b₁ v₂ b₂ d x is) :
    ∃ v b', visitCall cfg args target b = some (v, b') ∧ b'.numBlocks = b₂.numBlocks ∧
      Defines v b' (callInstr (b₂.graph.constantValue d) d (.ofNat args.length)) ∧
      Built Anywhere b v b' (c₁ ++ callItems cfg (b₂.graph.constantValue d) d b₂.graph.size is
        (.ofNat args.length)) := by
  obtain ⟨v, b', hrun, -, hblocks, hbuilt⟩ := h₁.built.returnCallTo cfg (.ofNat args.length)
    h₂.grown h₂.later h₂.instr h₂.straight h₂.last
  refine ⟨v, b', ?_, hblocks, defines_of_returnCallTo hrun, hbuilt⟩
  rw [visitCall, visit, Partial.bind_run h₁.run, Partial.bind_run h₂.run, h₂.value,
    CoreExpr.length_toExprs]
  exact hrun

/-- The target of a literal. -/
theorem targetFor_literal (cfg : Config) (w : Value) (hf : b.Fresh) :
    TargetFor cfg (.literal w) b ⟨some b.graph.size, some b.graph.size, some b.graph.size⟩
      (b.alloc (b.scopes.literalInstr b.scope w)) b.graph.size (b.scopes.literalInstr b.scope w)
      [.code (literalCode (b.scopes.literalInstr b.scope w))] where
  run := visit_literal_start w b
  value := rfl
  grown := grown_alloc _ _ _
  later := le_rfl
  instr := b.instr?_alloc _
  straight := Scopes.literalInstr_straight _ _ _ _
  last := hf _ le_rfl

/-- A constant target. -/
theorem targetFor_constant {y : Value} (cfg : Config) (hf : b.Fresh)
    (h : ConstantOf (b.scopes, b.scope) target y) :
    TargetFor cfg target b ⟨some b.graph.size, some b.graph.size, some b.graph.size⟩
      (b.alloc (.constant y)) b.graph.size (.constant y) [.code (.push y)] := by
  rcases h with rfl | ⟨w, rfl, hw⟩
  · refine ⟨?_, rfl, grown_alloc _ _ _, le_rfl, b.instr?_alloc _, fun _ _ => rfl, hf _ le_rfl⟩
    rw [visit_quoted]
    rfl
  · have hw : b.scopes.literalInstr b.scope w = .constant y := hw
    have h := targetFor_literal cfg w hf
    rwa [hw] at h

end Calls

/-! ### Running a call -/

section Machine

variable {host : Host} {callN : CallWithNArgs} {a : Activation} {apply : Application}
  {m m₁ m₂ m' : Memory} {s s₁ s₂ rs : List Value} {f r : Value} {lo mid hi : Nat} {cfg : Config}
  {xs ys c c' : List Item} {bc : Bytecode} {d k : InstrId} {x : Symbol} {n : BlockId}

/-- An operation that fails ends every run. -/
theorem Loaded.stuck_code {e : Fault} (h : Loaded (xs ++ .code bc :: ys) a.region m)
    (hbc : bc.isJump = false) (hret : bc ≠ .ret)
    (hexec : exec host callN a.region (size xs) bc (a.state (size xs + bc.size) s m) = .error e)
    (p : Nat) (rt : Runtime) : ¬ Steps host callN a.region (a.state (size xs) s m) p rt := by
  rintro ⟨-, hstep⟩
  rw [step, Loaded.fetch_of_decode (h.decode_code hbc)] at hstep
  simp only [if_neg hret] at hstep
  have herror := congrArg (Outcome.running <$> ·) hexec
  cases hstep.symm.trans herror

/-- A run that is stuck has not passed anything further on. -/
theorem Passes.le_of_stuck (h : Passes host callN a lo s m mid s₁ m₁)
    (hstuck : ∀ p rt, ¬ Steps host callN a.region (a.state mid s₁ m₁) p rt)
    (h' : Passes host callN a lo s m hi s₂ m₂) : hi ≤ mid := by
  obtain ⟨ps, hrun, hps⟩ := h
  obtain ⟨qs, hrun', -⟩ := h'
  rcases hrun.prefix_or (steps_deterministic host callN a.region) hrun' with
    ⟨cs, -, hcs⟩ | ⟨cs, rfl, hcs⟩
  · cases hcs with
    | refl => exact le_rfl
    | head hs _ => exact absurd hs (hstuck _ _)
  · cases hcs with
    | refl => exact le_rfl
    | @head p _ _ _ _ hs _ =>
        have hp := (hps p (List.mem_append_right qs List.mem_cons_self)).2
        obtain rfl : hi = p := congrArg Address.pos (Option.some.inj hs.1)
        exact hp.le

/-- Code without labels behind other code that leaves the memory. -/
theorem Computes.behind (h : Computes host callN a c n n s m s₁ m)
    (h' : Computes host callN a c' n n s₁ m s₂ m₂) :
    Computes host callN a (c ++ c') n n s m s₂ m₂ :=
  h.append h' (.refl a m) le_rfl le_rfl fun _ h₁ h₂ => absurd h₁ (Nat.not_le.mpr h₂)

/-- A symbol that is looked up when the call runs. -/
theorem computes_symbolCall (hr : ReadsAs callN a apply)
    (hx : (m.scopes.lookup a.scope x.fullyQualifiedName).bind m.scopes.valueOf = some f)
    (hf : f.isProcedure = true) (happ : apply f rs m = some (r, m')) (hlt : rs.length < 2 ^ 64) :
    Computes host callN a (callItems cfg (some (.symbol x)) d k [.code (.push (.symbol x))]
      (.ofNat rs.length)) n n (rs.reverse ++ s) m (r :: s) m' := by
  have hlookup : ∀ q, popLookup (a.state q (.symbol x :: (rs.reverse ++ s)) m)
      = .ok (a.state q (f :: (rs.reverse ++ s)) m) := fun q => by
    change (a.state q (rs.reverse ++ s) m).push
      (((m.scopes.lookup a.scope x.fullyQualifiedName).bind m.scopes.valueOf).getD .null) = _
    rw [hx]
    rfl
  have hn : (UInt64.ofNat rs.length).toNat = rs.length := by
    rw [UInt64.toNat_ofNat', Nat.mod_eq_of_lt hlt]
  have hinvoke : ∀ q, invoke host callN f (.ofNat rs.length) (a.state q (rs.reverse ++ s) m)
      = .ok (a.state q (r :: s) m') := fun q => by
    rw [invoke, if_pos hf, hn, hr.returns q s happ]
  have hproc : f.type.isInstanceOf .procedure = true := by
    cases f with
    | native | lambda => rfl
    | _ => cases hf
  have hpush : Computes host callN a [.visit d, .code (.push (.symbol x))] n n
      (rs.reverse ++ s) m (.symbol x :: (rs.reverse ++ s)) m :=
    .instr rfl (by simp) fun p q => a.exec_push _
  have hcall : ∀ j, Computes host callN a [.visit j, .code (.invokeDynamic (.ofNat rs.length))] n n
      (f :: (rs.reverse ++ s)) m (r :: s) m' :=
    fun j => .instr rfl (by simp) fun p q => hinvoke q
  have hfound : ∀ j, Computes host callN a [.visit j, .code .lookup] n n
      (.symbol x :: (rs.reverse ++ s)) m (f :: (rs.reverse ++ s)) m :=
    fun j => .instr rfl (by simp) fun p q => hlookup q
  exact hpush.behind ((computes_checkItems rfl).behind
    ((hfound _).behind ((computes_checkItems hproc).behind (hcall _))))

/-- A procedure is not looked up: its check fails, and so does the lookup. -/
theorem stuck_lookup {pre post : List Item} {j : InstrId} {rest : List Item}
    (hf : f.isProcedure = true)
    (hl : Loaded (pre ++ (checkItems cfg k .symbol ++ (.visit j :: .code .lookup :: rest) ++ post))
      a.region m) (p : Nat) (rt : Runtime) :
    ¬ Steps host callN a.region (a.state (size pre) (f :: s) m) p rt := by
  unfold checkItems at hl
  split at hl
  · have hl : Loaded ((pre ++ [.visit k]) ++ .code (.checkInstance (.cls .symbol)) ::
        (.visit j :: .code .lookup :: rest ++ post)) a.region m := by simpa using hl
    have hexec : ∀ q q', exec host callN a.region q (.checkInstance (.cls .symbol))
        (a.state q' (f :: s) m) = .error .fatal := by
      intro q q'
      change (if f.type.isInstanceOf .symbol = true then _ else _) = _
      cases f with
      | native | lambda => rfl
      | _ => cases hf
    have hstuck : ¬ Steps host callN a.region _ p rt := hl.stuck_code rfl (by simp) (hexec _ _) p rt
    simpa [Item.size] using hstuck
  · have hl : Loaded ((pre ++ [.visit j]) ++ .code .lookup :: (rest ++ post)) a.region m := by
      simpa using hl
    have hexec : ∀ q q', exec host callN a.region q .lookup (a.state q' (f :: s) m)
        = .error .fatal := by
      intro q q'
      cases f with
      | native | lambda => rfl
      | _ => cases hf
    have hstuck : ¬ Steps host callN a.region _ p rt := hl.stuck_code rfl (by simp) (hexec _ _) p rt
    simpa [Item.size] using hstuck

end Machine

/-! ### Targets that are not constants -/

/-- The entry of a fragment belongs to it. -/
theorem Fragment.entry_mem {ctx : Graph → Prop} {h : Graph} {own : Set InstrId} {e : InstrId}
    {sh : Shape} (hf : Fragment ctx h own e sh) : e ∈ own := by
  obtain ⟨n, hn⟩ := hf.walk
  cases n with
  | zero =>
      have he : e = sh.tail := hn
      rw [he]
      exact hf.tail_mem
  | succ n => exact hn.1

theorem FlowGraphCompiler.Emits.visit_head {g : Graph} {e : InstrId} {is : List Item}
    (h : Emits g (some e) is) : Item.visit e ∈ is := by
  cases h <;> exact List.mem_cons_self

/-- What an instruction emits stays the same while the graph grows. -/
theorem straight_callInstr {h g : Graph} {i : InstrId} {x : Instr} {n : UInt64}
    (hx : h.instr? i = some x) (hg : h.instrs <+: g.instrs) :
    ∃ is, Straight g (callInstr (h.constantValue i) i n) is := by
  have hstay : ∀ g' : Graph, g.instrs <+: g'.instrs → g'.constantValue i = h.constantValue i := by
    intro g' hg'
    have hag : h.Agrees g' ∅ ∅ := ⟨hg.trans hg', fun _ hk => absurd hk (Set.notMem_empty _)⟩
    rw [Graph.constantValue, Graph.constantValue, hag.instr? hx, hx]
  cases hf : h.constantValue i with
  | none => exact ⟨_, fun _ _ => rfl⟩
  | some f => cases f with
      | native y =>
          refine ⟨[.code (.invokeNative (.native y) n)], fun g' hg' => ?_⟩
          rw [callInstr, itemsOf, hstay g' hg', hf]
          rfl
      | lambda y =>
          refine ⟨[.code (.invoke (.lambda y) n)], fun g' hg' => ?_⟩
          rw [callInstr, itemsOf, hstay g' hg', hf]
          rfl
      | _ => exact ⟨_, fun _ _ => rfl⟩

theorem callInstr_ne_constant (f : Option Value) (i : InstrId) (n : UInt64) (y : Value) :
    callInstr f i n ≠ .constant y := by
  unfold callInstr
  split <;> simp

section Targets

variable {cfg : Config} {args : List CoreExpr} {e : CoreExpr} {b b₁ b₂ : Builder}
  {v₁ v₂ : Visitor} {c₁ ct is : List Item} {d : InstrId} {x : Instr}

/-- Every core expression but a `cond` returns an instruction; it is a constant only for a
literal. -/
theorem defines_core (hf : b.Fresh) (hcond : ∀ t y z, e ≠ .cond t y z)
    (hrun : visit cfg .value e.toExpr {} b = some (v₂, b₂))
    (hconst : ¬ ConstantTarget (b.scopes, b.scope) e.toExpr) :
    ∃ x is, Defines v₂ b₂ x ∧ Straight b₂.graph x is ∧ ∀ y, x ≠ .constant y := by
  have hliteral : ∀ w, e.toExpr = .literal w → ∃ x is, Defines v₂ b₂ x ∧
      Straight b₂.graph x is ∧ ∀ y, x ≠ .constant y := by
    intro w hw
    have h := targetFor_literal cfg w hf
    cases (hw ▸ hrun).symm.trans h.run
    refine ⟨_, _, ⟨_, rfl, rfl, h.instr⟩, h.straight, fun y hy => hconst ⟨y, .inr ⟨w, hw, hy⟩⟩⟩
  cases e with
  | literal w h => exact hliteral w rfl
  | param x => exact hliteral _ rfl
  | cond t y z => exact absurd rfl (hcond t y z)
  | unary op e =>
      rw [CoreExpr.toExpr, visit] at hrun
      obtain ⟨_, _, -, hrun⟩ := Partial.bind_eq_some.mp hrun
      obtain ⟨_, _, -, hrun⟩ := Partial.bind_eq_some.mp hrun
      have hret : Defines v₂ b₂ (.unaryOp op) := by
        split at hrun
        · obtain ⟨_, _, -, hrun⟩ := Partial.bind_eq_some.mp hrun
          exact defines_of_returnNew hrun
        · exact defines_of_returnNew hrun
      exact ⟨_, _, hret, fun _ _ => rfl, fun y => by simp⟩
  | binary op l r =>
      rw [CoreExpr.toExpr, visit] at hrun
      obtain ⟨_, _, -, hrun⟩ := Partial.bind_eq_some.mp hrun
      obtain ⟨_, _, -, hrun⟩ := Partial.bind_eq_some.mp hrun
      obtain ⟨_, _, -, hrun⟩ := Partial.bind_eq_some.mp hrun
      obtain ⟨_, _, -, hrun⟩ := Partial.bind_eq_some.mp hrun
      exact ⟨_, _, defines_of_returnNew hrun, fun _ _ => rfl, fun y => by simp⟩
  | call target es =>
      rw [CoreExpr.toExpr, visit] at hrun
      obtain ⟨v, b', -, hrun⟩ := Partial.bind_eq_some.mp hrun
      rw [Partial.bind_run (visit_literal_start target b')] at hrun
      obtain ⟨is, his⟩ := straight_callInstr (n := .ofNat (CoreExpr.toExprs es).length)
        (b'.instr?_alloc _) (allocates_returnCallTo _ hrun)
      exact ⟨_, is, defines_of_returnCallTo hrun, his, callInstr_ne_constant _ _ _⟩

/-- The target that returns the end of its code. -/
theorem CodeFor.targetFor (h : CodeFor cfg e b v₂ b₂ ct) (hret : Defines v₂ b₂ x)
    (hs : Straight b₂.graph x is) : ∃ d entry, v₂.entry = some entry ∧ b.graph.size ≤ entry ∧
      TargetFor cfg e.toExpr b v₂ b₂ d x is := by
  obtain ⟨d, hval, hexit, hx⟩ := hret
  obtain ⟨own, ho⟩ := h.built
  have hcode := ho.code
  unfold Code at hcode
  split at hcode
  next =>
      have hpos := h.size_pos
      rw [hcode.1] at hpos
      exact absurd hpos (Nat.lt_irrefl _)
  next entry he =>
      obtain ⟨y, l, hy, hf⟩ := hcode
      obtain rfl : d = y := Option.some.inj (hexit.symm.trans hy)
      exact ⟨d, entry, he, ho.owned _ hf.entry_mem, h.run, hval, h.built.grown,
        ho.owned _ hf.exit_mem, hx, hs, hf.exit_end⟩

end Targets

/-! ### The calls that invoke their target -/

section Calls

variable {cfg : Config} {args : List CoreExpr} {target : Expr} {e : CoreExpr} {b b₁ b₂ : Builder}
  {v₁ v₂ : Visitor} {c₁ ct is : List Item} {d : InstrId} {x : Instr} {host : Host}
  {callN : CallWithNArgs} {a : Activation} {env : Env} {apply : Application}
  {m m₁ m₂ m₃ : Memory} {s rs : List Value} {f r : Value}

/-- A constant target stands for the procedure, or for the symbol whose variable holds it. -/
theorem Denotes.of_constant {y : Value} (hm : env.Holds b.scopes b.scope a m)
    (ht : Denotes env apply (b.scopes, b.scope) a target m₁ f m₂)
    (hy : ConstantOf (b.scopes, b.scope) target y) :
    m₂ = m₁ ∧ (y = f ∨ ∃ x, y = .symbol x ∧
      (m₁.scopes.lookup a.scope x.fullyQualifiedName).bind m₁.scopes.valueOf = some f) := by
  rcases hy with rfl | ⟨w, htgt, hy⟩
  · generalize htgt : Expr.quoted y = target at ht
    cases ht with
    | @core e _ _ _ h => cases e <;> cases htgt
    | quoted =>
        cases htgt
        exact ⟨rfl, .inl rfl⟩
    | statement he =>
        cases htgt
        cases he
    | _ => cases htgt
  cases ht with
  | quoted => cases htgt
  | statement he =>
      rw [htgt] at he
      cases he
  | @core e _ _ _ h =>
      cases e with
      | literal w' hw' =>
          cases htgt
          cases h
          rw [Scopes.literalInstr_of_not_symbol _ _ hw'] at hy
          cases hy
          exact ⟨rfl, .inl rfl⟩
      | param x =>
          cases htgt
          obtain ⟨v, hv, h⟩ := Option.map_eq_some_iff.mp h
          obtain ⟨l, idx, hload, -⟩ := hm.param hv
          rw [hload] at hy
          cases hy
      | _ => cases htgt
  | known h =>
      cases htgt
      rw [(hm.procedure h).1] at hy
      cases hy
      exact ⟨rfl, .inl rfl⟩
  | symbol hx h =>
      cases htgt
      rw [Scopes.literalInstr, hx] at hy
      cases hy
      exact ⟨rfl, .inr ⟨_, rfl, h⟩⟩

/-- The arguments of a call. -/
theorem codeForAll_start (cfg : Config) (args : List CoreExpr) (hf : b.Fresh) :
    ∃ v₁ b₁ c₁, CodeForAll cfg args b {} [] b v₁ b₁ c₁ :=
  codeForAll (fun e _ => (CoreExpr.compiles cfg e).code) (Built.start hf)

/-- **A constant target** is invoked. -/
theorem invokes_of_constant (host : Host) (hf : b.Fresh) (hr : ReadsAs callN a apply)
    (hm : env.Holds b.scopes b.scope a m) (s : List Value)
    (hargs : CoreExpr.evalAll env apply args m = some (rs, m₁))
    (ht : Denotes env apply (b.scopes, b.scope) a target m₁ f m₂) (hp : f.isProcedure = true)
    (happ : apply f rs m₂ = some (r, m₃)) (hc : ConstantTarget (b.scopes, b.scope) target) :
    Invokes cfg args target b host callN a s m r m₃ := by
  obtain ⟨y, hy⟩ := hc
  obtain ⟨v₁, b₁, c₁, h₁⟩ := codeForAll_start cfg args hf
  obtain ⟨hm₂, hyf⟩ := ht.of_constant hm hy
  rw [hm₂] at happ
  rw [← h₁.built.grown.scopes, ← h₁.built.grown.scope] at hy
  have h₂ := targetFor_constant cfg h₁.built.fresh hy
  obtain ⟨v, b', hrun, hblocks, hret, hbuilt⟩ := callFor h₁ h₂
  have hconst : (b₁.alloc (.constant y)).graph.constantValue b₁.graph.size = some y := by
    rw [Graph.constantValue, h₂.instr]
  rw [hconst] at hret hbuilt
  refine ⟨v, b', _, hrun, hbuilt.emits, ?_, ?_⟩
  · intro u₁ a₁ u₂ a₂ ct hu₁ hu₂ hct i hi
    cases h₁.run.symm.trans hu₁
    cases h₂.run.symm.trans hu₂
    have hown := Emits.instr h₂.instr (h₂.straight _ (List.prefix_refl _)) (h₂.last ▸ Emits.done)
    obtain rfl := hown.functional hct
    obtain rfl : i = b₁.graph.size := by simpa using hi
    obtain ⟨k, hk, -, hinstr⟩ := hret
    cases y with
    | native => exact .inr ⟨k, _, hk, .inr hinstr⟩
    | lambda => exact .inr ⟨k, _, hk, .inl hinstr⟩
    | _ => exact .inl (List.mem_append_right _ List.mem_cons_self)
  · intro pre post hfree hl
    have hlen := CoreExpr.length_evalAll hargs
    have hlt : rs.length < 2 ^ 64 := by
      have hsize := hl.size_lt
      have hle := h₁.size_le
      simp only [size_append] at hsize
      omega
    have hcall : Computes host callN a (callItems cfg (some y) b₁.graph.size
        (b₁.alloc (.constant y)).graph.size [.code (.push y)] (.ofNat args.length))
        b₁.numBlocks b₁.numBlocks (rs.reverse ++ s) m₁ (r :: s) m₃ := by
      rw [← hlen]
      rcases hyf with rfl | ⟨x, rfl, hx⟩
      · exact computes_callItems hr hp hlt happ
      · exact computes_symbolCall hr hx hp happ hlt
    have hblocks : b'.numBlocks = b₁.numBlocks := hblocks
    have hall := (h₁.computes host hr hm s hargs).append hcall (CoreExpr.evalAll_keeps hr hargs)
      h₁.blocks le_rfl fun _ h₁ h₂ => absurd h₁ (Nat.not_le.mpr h₂)
    exact hall pre post (fun l h₁ h₂ => hfree l h₁ (hblocks ▸ h₂)) hl

/-- A target with instructions in front of its definition is not executed. -/
theorem not_executesTarget {v : Visitor} {b' : Builder} {entry : InstrId} {n : UInt64}
    (h₁ : CodeForAll cfg args b {} [] b v₁ b₁ c₁) (h₂ : TargetFor cfg target b₁ v₂ b₂ d x is)
    (hct : Emits b₂.graph v₂.entry ct) (he : v₂.entry = some entry)
    (hle : b₁.graph.size ≤ entry) (hne : entry ≠ d) (hret : Defines v b' (callInstr none d n)) :
    ¬ ExecutesTarget cfg args target b v b'
      (c₁ ++ callItems cfg none d b₂.graph.size is n) := by
  intro hex
  have hentry : Item.visit entry ∈ ct := (he ▸ hct).visit_head
  obtain ⟨k, hk, -, hinstr⟩ := hret
  rcases hex _ _ _ _ _ h₁.run h₂.run hct entry hentry with hmem | ⟨k', n', hk', hop⟩
  · rcases List.mem_append.mp hmem with hmem | hmem
    · exact absurd (h₁.built.emits.visit_lt hmem) (Nat.not_lt.mpr hle)
    · have his : Item.visit entry ∉ is :=
        visit_not_mem_itemsOf (h₂.straight _ (List.prefix_refl _))
      rcases visit_callItems hmem his with rfl | hlate
      · exact hne rfl
      · exact absurd (hct.visit_lt hentry) (Nat.not_lt.mpr hlate)
  · obtain rfl : k = k' := Option.some.inj (hk.symm.trans hk')
    rcases hop with hop | hop <;> cases hinstr.symm.trans hop

/-- A target that is one instruction leaves the procedure where a symbol is looked for. -/
theorem not_passes_call (host : Host) (hr : ReadsAs callN a apply)
    (hm : env.Holds b.scopes b.scope a m)
    (hargs : CoreExpr.evalAll env apply args m = some (rs, m₁))
    (ht : e.eval env apply m₁ = some (f, m₂)) (hp : f.isProcedure = true)
    (h₁ : CodeForAll cfg args b {} [] b v₁ b₁ c₁)
    (hcode : CodeFor cfg e b₁ v₂ b₂ ct) (h₂ : TargetFor cfg e.toExpr b₁ v₂ b₂ d x is)
    (he : v₂.entry = some d) {n : UInt64} {pre post : List Item}
    (hfree : ∀ l, b.numBlocks ≤ l → l < b₂.numBlocks → Item.bind l ∉ pre)
    (hl : Loaded (pre ++ (c₁ ++ callItems cfg none d b₂.graph.size is n ++ post)) a.region m) :
    ¬ Passes host callN a (size pre) s m
      (size (pre ++ (c₁ ++ callItems cfg none d b₂.graph.size is n))) (r :: s) m₃ := by
  intro hpass
  have hitems := h₂.straight _ (List.prefix_refl _)
  have hown := Emits.instr h₂.instr hitems (h₂.last ▸ Emits.done)
  obtain rfl : ct = .visit d :: (is ++ []) :=
    (he ▸ hcode.built.emits : Emits b₂.graph (some d) ct).functional hown
  rw [List.append_nil] at hcode
  have hk := CoreExpr.evalAll_keeps hr hargs
  have hm₁ : env.Holds b₁.scopes b₁.scope a m₁ := by
    rw [h₁.built.grown.scopes, h₁.built.grown.scope]
    exact hm.keeps hk
  have hfront := (h₁.computes host hr hm s hargs).append (hcode.computes host hr hm₁ _ ht) hk
    h₁.blocks h₂.grown.blocks fun l hl _ => h₁.labels.not_bind (.inr hl)
  obtain ⟨k', rest, hrest⟩ : ∃ k' rest, callItems cfg none d b₂.graph.size is n =
      .visit d :: (is ++ (checkItems cfg b₂.graph.size .symbol ++
        (.visit k' :: .code .lookup :: rest))) := ⟨_, _, rfl⟩
  rw [hrest] at hl hpass
  have hpre := hfront pre (checkItems cfg b₂.graph.size .symbol ++
    (.visit k' :: .code .lookup :: rest) ++ post) hfree (by simpa using hl)
  have hloaded : Loaded (pre ++ (c₁ ++ .visit d :: is) ++ (checkItems cfg b₂.graph.size .symbol ++
      (.visit k' :: .code .lookup :: rest) ++ post)) a.region m₂ :=
    (hk.trans (CoreExpr.eval_keeps hr ht)).loaded (by simpa using hl)
  have hle := hpre.le_of_stuck (stuck_lookup hp (by simpa using hloaded)) hpass
  have hpos : 0 < Bytecode.lookup.size := Bytecode.size_pos rfl
  simp only [size_append, size_cons, Item.size] at hle
  omega

/-- A statement returns no definition, and the null pointer is read. -/
theorem not_invokes_statement (he : target.isStatement = true) :
    ¬ Invokes cfg args target b host callN a s m r m₃ := by
  rintro ⟨v, b', c, hrun, -⟩
  rw [visitCall, visit] at hrun
  obtain ⟨v₁, b₁, -, hrun⟩ := Partial.bind_eq_some.mp hrun
  obtain ⟨v₂, b₂, htarget, hrun⟩ := Partial.bind_eq_some.mp hrun
  have hstart : ({} : Visitor).Valued none := rfl
  have hnone : v₂.value = none := yields_visit_of_isStatement he hstart htarget
  rw [hnone] at hrun
  cases hrun

/-- **A target that is no constant** is not invoked. -/
theorem not_invokes_core (hf : b.Fresh) (hr : ReadsAs callN a apply)
    (hm : env.Holds b.scopes b.scope a m)
    (hargs : CoreExpr.evalAll env apply args m = some (rs, m₁))
    (ht : e.eval env apply m₁ = some (f, m₂)) (hp : f.isProcedure = true)
    (hl : CallLoaded cfg args e.toExpr b a m)
    (hc : ¬ ConstantTarget (b.scopes, b.scope) e.toExpr) :
    ¬ Invokes cfg args e.toExpr b host callN a s m r m₃ := by
  by_cases hcond : ∃ t y z, e = .cond t y z
  · obtain ⟨t, y, z, rfl⟩ := hcond
    exact not_invokes_statement rfl
  · rintro ⟨v, b', c, hrun, hem, hex, hpass⟩
    obtain ⟨v₁, b₁, c₁, h₁⟩ := codeForAll_start cfg args hf
    have hfresh := h₁.built.fresh
    obtain ⟨v₂, b₂, ct, hcode⟩ := (CoreExpr.compiles cfg e).code b₁ hfresh
    rw [← h₁.built.grown.scopes, ← h₁.built.grown.scope] at hc
    obtain ⟨x, is, hret, hs, hx⟩ := defines_core hfresh
      (fun t y z he => hcond ⟨t, y, z, he⟩) hcode.run hc
    obtain ⟨d, entry, he, hlate, h₂⟩ := hcode.targetFor hret hs
    have hnone : b₂.graph.constantValue d = none := by
      rw [Graph.constantValue, h₂.instr]
      cases x with
      | constant y => exact absurd rfl (hx y)
      | _ => rfl
    obtain ⟨v', b'', hrun', hblocks, hret', hbuilt⟩ := callFor h₁ h₂
    cases hrun'.symm.trans hrun
    rw [hnone] at hbuilt hret'
    obtain rfl := hbuilt.emits.functional hem
    by_cases hne : entry = d
    · obtain rfl := hne
      obtain ⟨pre, post, hfree, hloaded⟩ := hl _ _ _ hrun hem
      exact not_passes_call host hr hm hargs ht hp h₁ hcode h₂ he
        (fun l h₁ h₂ => hfree l h₁ (hblocks ▸ h₂)) hloaded (hpass pre post hfree hloaded)
    · exact not_executesTarget h₁ h₂ hcode.built.emits he hlate hne hret' hex

end Calls

namespace CallTarget.Sample

open CoreExpr.Sample

def x : Symbol := { name := "x" }

def native : Value := .native { name := "count" }

/-- The native in the slot of the parameter. -/
def bound : Scopes := { names with locals := [{ name := "x", index := 0, value := some native }] }

def env : Env where
  param y := if y = x then some native else none
  procedure f := if f = native then some f else none

/-- `(count x)`. -/
def known : List Item :=
  [.visit 0, .code (.loadLocal 0), .visit 2, .code (.invokeNative native 1)]

/-- `(x 1)`. -/
def unknown : List Item :=
  [.visit 0, .code (.push (.long 1)), .visit 1, .code (.loadLocal 0),
    .visit 2, .code (.checkInstance (.cls .symbol)), .visit 3, .code .lookup,
    .visit 5, .code (.checkInstance (.cls .procedure)), .visit 4, .code (.invokeDynamic 1)]

def builder : Builder := { scope := 0, scopes := names }

def memory (code : List Item) : Memory := Memory.load { scopes := bound } code

theorem fresh : builder.Fresh := fun _ _ => rfl

/-- What was emitted has been loaded. -/
theorem loaded {args : List CoreExpr} {target : Expr} {code : List Item}
    (hcode : ((visitCall {} args target builder).bind fun r => emission r.2.graph 20 r.1.entry)
      = some code) (hsize : size code < 2 ^ 63) (hrefs : (refs code).length ≤ 2 ^ 64) :
    CallLoaded {} args target builder activation (memory code) := by
  intro v b' c hrun hem
  rw [hrun] at hcode
  obtain rfl : c = code := hem.functional (emits_of_emission hcode)
  refine ⟨[], [], fun _ _ _ h => (List.not_mem_nil h).elim, ?_⟩
  rw [List.nil_append, List.append_nil]
  exact .load _ hsize hrefs

theorem holds (code : List Item)
    (hslot : activation.slot (memory code) 0 = some native) :
    env.Holds builder.scopes builder.scope activation (memory code) := by
  refine ⟨fun {y v} h => ?_, fun {t f} h => ?_⟩
  · obtain ⟨rfl, rfl⟩ : y = x ∧ v = native := by simpa [env, eq_comm] using h
    exact ⟨0, 0, by decide, hslot⟩
  · obtain ⟨rfl, rfl⟩ : t = native ∧ t = f := by simpa [env] using h
    exact ⟨by decide, rfl⟩

end CallTarget.Sample

end Gel
