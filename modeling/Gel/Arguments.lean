import Gel.Branches

/-!
# Arguments — whether a call finds its own operands

A `CallLike` is a node for which the builder emits an operation with a number of arguments: a call,
a list, a new instance, a map and an operator of a `let:rx`.  Its code agrees with the number when
all of it but the operation leaves as many values as the operation takes.  It does so exactly when
the values of the operands add up to the number (`CallLike.agrees_iff`): an assignment as an operand
leaves nothing, an operator's source is pushed and not counted, and a constant `new` without an
instance is counted and not pushed.
-/

namespace Gel

open FlowGraphCompiler FlowGraphBuilder

/-- A node whose code ends in an operation with a number of arguments. -/
inductive CallLike where
  | call (target : Expr) (args : List Expr)
  | list (values : List Expr)
  | new (target : ClassId) (args : List Expr)
  | map (data : List Entry)
  | rx (l : LocalId) (symbol : Symbol) (args : List Expr)

namespace CallLike

/-- What the visitor does for the node, up to the operation: a map is bound before it is returned,
and an operator is one turn of the loop over the operators. -/
def visit (cfg : Config) (m : Mode) : CallLike → Build Visitor
  | call target args => FlowGraphBuilder.visit cfg m (.callProc target args) {}
  | list values => FlowGraphBuilder.visit cfg m (.list values) {}
  | new c args => FlowGraphBuilder.visit cfg m (.new c args) {}
  | map data => do
      let v ← visitEntries cfg data {}
      let defn ← newInstr (.new .map (.ofNat (data.length * 2)))
      add v defn
  | rx l symbol args => do
      let v ← addNew {} (← loadLocal l)
      let v ← visitArgs cfg args v
      addRxCall v symbol (.ofNat args.length)

/-- The number of arguments that stands in the operation. -/
def count : CallLike → Nat
  | call _ args | list args | new _ args | rx _ _ args => Expr.count args
  | map data => (UInt64.ofNat (data.length * 2)).toNat

/-- What the entries of a map leave, the keys among them. -/
def entriesLeave (cfg : Config) (names : Names) : List Entry → Option Int
  | [] => some 0
  | .mk _ e :: es => do return 1 + (← e.leaves cfg names .value) + (← entriesLeave cfg names es)

/-- The procedure that an operator names. -/
def operatorOf (names : Names) (symbol : Symbol) : Option Value :=
  (names.1.lookup names.2 symbol.fullyQualifiedName).bind names.1.valueOf

/-- How many values the operands leave, an operator's source among them; none where the node is
evaluated when it is compiled. -/
def operands (cfg : Config) (names : Names) : CallLike → Option (Option Int)
  | call target args => do
      let _ ← target.targetInstr names
      return some (← Expr.leavesAll cfg names .value args)
  | list values =>
      if (Expr.list values).isConstantIn cfg names then
        match (Expr.list values).evalToConstant cfg names.1 names.2 with
        | some (some _) => some none
        | _ => none
      else (Expr.leavesAll cfg names .value values).map some
  | new c args =>
      if (Expr.new c args).isConstantIn cfg names then
        match (Expr.new c args).evalToConstant cfg names.1 names.2 with
        | some (some _) => some none
        | some none => some (some 0)
        | none => none
      else (Expr.leavesAll cfg names .value args).map some
  | map data => (entriesLeave cfg names data).map some
  | rx l symbol args =>
      if l < names.1.locals.length ∧ (operatorOf names symbol).any Value.isProcedure then do
        return some (1 + (← Expr.leavesAll cfg names .value args))
      else none

end CallLike

/-- The operation at the end of code finds the values it takes, and no others. -/
def Agrees (c : List Item) : Prop :=
  ∀ front i bc, c = front ++ [.visit i, .code bc] → bc.isCall = true → Leaves front bc.pops

theorem Calling.agrees {b₀ b : Builder} {v : Visitor} {k : Int} {n : Nat}
    (h : Calling b₀ v b k n) : ∃ c, Built Anywhere b₀ v b c ∧ (Agrees c ↔ k = n) := by
  obtain ⟨front, i, bc, hbuilt, -, hcall, hleaves⟩ := h
  refine ⟨_, hbuilt, fun hagrees => ?_, fun hk => ?_⟩
  · have hsame := hleaves.unique (hagrees front i bc rfl hcall)
    rw [add_comm, add_sub_assoc] at hsame
    exact sub_eq_zero.mp (add_eq_left.mp hsame)
  · intro front' i' bc' he hcall'
    obtain ⟨rfl, hlast⟩ := List.append_inj' he rfl
    cases hlast
    rwa [hk, add_sub_cancel_left] at hleaves

/-- Code without such an operation at its end. -/
theorem agrees_constant {c : List Item} {y : Value}
    (hc : c = [] ∨ ∃ i, c = [.visit i, .code (.push y)]) : Agrees c := by
  rintro front i bc rfl hcall
  rcases hc with hc | ⟨i', hc⟩
  · simp at hc
  · obtain rfl : front = [] := by simpa using congrArg List.length hc
    cases hc
    cases hcall

namespace CallLike

variable {cfg : Config} {names : Names} {m : Mode} {b : Builder} {k : Int}

/-- A node that is evaluated when it is compiled. -/
theorem agrees_evaluated {e : Expr} {y : Value} (g f : Build Visitor)
    (hvisit : FlowGraphBuilder.visit cfg m e {} = do
      if ← FlowGraphBuilder.isConstantExpr cfg e then
        match ← FlowGraphBuilder.evalToConstant cfg e with
        | some y => FlowGraphBuilder.returnNew m {} (.constant y)
        | none => g
      else f)
    (hf : b.Fresh) (hn : (b.scopes, b.scope) = names) (hc : e.isConstantIn cfg names = true)
    (he : e.evalToConstant cfg names.1 names.2 = some (some y)) :
    ∃ v b' c, FlowGraphBuilder.visit cfg m e {} b = some (v, b') ∧ Built Anywhere b v b' c ∧
      Agrees c := by
  obtain ⟨v', b', hrun, -, hbuilt⟩ := (Built.start hf : Built Anywhere b {} b []).return m
    (x := .constant y) (l := [.code (.push y)]) fun _ _ => rfl
  refine ⟨v', b', _, ?_, hbuilt, agrees_constant (y := y) ?_⟩
  · subst hn
    rw [hvisit, isConstantExpr_bind, if_pos hc, evalToConstant_bind, he]
    exact hrun
  · rw [List.nil_append]
    split
    · exact .inl rfl
    · exact .inr ⟨_, rfl⟩

/-- The entries of a map. -/
theorem visits_entries {data : List Entry} {b₀ : Builder} {v : Visitor} {k₀ : Int}
    (h : Stacks b₀ v b k₀) (hn : (b₀.scopes, b₀.scope) = names)
    (hk : entriesLeave cfg names data = some k) :
    ∃ v' b', visitEntries cfg data v b = some (v', b') ∧ Stacks b₀ v' b' (k₀ + k) := by
  induction data generalizing v b k k₀ with
  | nil =>
      cases hk
      exact ⟨v, b, by rw [visitEntries]; rfl, by rwa [add_zero]⟩
  | cons entry data ih =>
      obtain ⟨key, e⟩ := entry
      simp only [entriesLeave, Option.bind_eq_bind, Option.bind_eq_some_iff, Option.pure_def,
        Option.some.injEq] at hk
      obtain ⟨ke, hke, kd, hkd, rfl⟩ := hk
      obtain ⟨v₁, b₁, hrun₁, h₁⟩ := h.addNew (.constant (.symbol key)) (.push (.symbol key))
        (fun _ _ => rfl) trivial
      obtain ⟨v₂, b₂, v₃, b₃, hrun₂, hrun₃, h₃⟩ :=
        ((Expr.visit_counts cfg names e).visits .value).append h₁ hn hke
      obtain ⟨v₄, b₄, hrun₄, h₄⟩ := ih h₃ hkd
      refine ⟨v₄, b₄, ?_, ?_⟩
      · rw [visitEntries, Partial.bind_run hrun₁, Partial.bind_run hrun₂, Partial.bind_run hrun₃]
        exact hrun₄
      · simpa [Bytecode.pushes, Bytecode.pops, add_assoc] using h₄

/-- **A map.** -/
theorem calls_map {data : List Entry} (hf : b.Fresh) (hn : (b.scopes, b.scope) = names)
    (hk : entriesLeave cfg names data = some k) :
    ∃ v b', visit cfg m (.map data) b = some (v, b') ∧ Calling b v b' k (count (.map data)) := by
  obtain ⟨v₁, b₁, hrun₁, h₁⟩ := visits_entries (Stacks.start hf) hn hk
  rw [zero_add] at h₁
  obtain ⟨c, hbuilt, hlabels, hleaves⟩ := h₁
  obtain ⟨v₂, b₂, hrun₂, -, -, -, -, hblocks, hbuilt₂⟩ := hbuilt.addNew
    (x := .new .map (.ofNat (data.length * 2)))
    (l := [.code (.new (.cls .map) (.ofNat (data.length * 2)))]) fun _ _ => rfl
  refine ⟨v₂, b₂, ?_, .of_built hbuilt₂ (hblocks ▸ hlabels) hleaves rfl rfl⟩
  rw [visit, Partial.bind_run hrun₁]
  exact hrun₂

/-- **An operator**: its source lies under its arguments. -/
theorem calls_rx {l : LocalId} {symbol : Symbol} {args : List Expr} (hf : b.Fresh)
    (hn : (b.scopes, b.scope) = names) (hl : l < names.1.locals.length)
    (ho : (operatorOf names symbol).any Value.isProcedure = true)
    (hk : Expr.leavesAll cfg names .value args = some k) :
    ∃ v b', visit cfg m (.rx l symbol args) b = some (v, b') ∧
      Calling b v b' (1 + k) (count (.rx l symbol args)) := by
  have hload : loadLocal l b = some (.loadLocal l names.1.locals[l].index, b) := by
    have hx : b.scopes.locals[l]? = some names.1.locals[l] := by
      rw [← List.getElem?_eq_getElem hl, ← hn]
    rw [loadLocal, Partial.get_bind, hx]
    rfl
  obtain ⟨v₁, b₁, hrun₁, h₁⟩ := (Stacks.start hf).addNew
    (.loadLocal l names.1.locals[l].index) (.loadLocal names.1.locals[l].index)
    (fun _ _ => rfl) trivial
  obtain ⟨v₂, b₂, hrun₂, h₂⟩ := visits_args
    (fun e he => (Expr.visitAll_counts cfg names args e he).visits .value) h₁ hn hk
  obtain ⟨c, hbuilt, hlabels, hleaves⟩ := h₂
  have hn₂ : (b₂.scopes, b₂.scope) = names := by
    rw [hbuilt.grown.scopes, hbuilt.grown.scope]
    exact hn
  -- the operator is a constant, allocated in front of the call
  obtain ⟨y, hy, hproc⟩ : ∃ y, operatorOf names symbol = some y ∧ y.isProcedure = true := by
    cases hop : operatorOf names symbol with
    | none =>
        rw [hop] at ho
        cases ho
    | some y =>
        rw [hop] at ho
        exact ⟨y, rfl, ho⟩
  obtain ⟨x, hx, hvalue⟩ := Option.bind_eq_some_iff.mp hy
  have hconst : ∀ (i : Instr) (g : Graph),
      ((b₂.alloc (.constant y)).alloc i).graph.instrs <+: g.instrs →
        g.constantValue b₂.graph.size = some y := by
    intro i g hg
    have hag : (b₂.alloc (.constant y)).graph.Agrees g ∅ ∅ :=
      ⟨(grown_alloc ∅ (b₂.alloc (.constant y)) i).graph.instrs.trans hg,
        fun _ hk => absurd hk (Set.notMem_empty _)⟩
    rw [Graph.constantValue, hag.instr? (b₂.instr?_alloc _)]
  have hcall : ∀ (i : Instr) (bc : Bytecode),
      Straight ((b₂.alloc (.constant y)).alloc i).graph i [.code bc] → bc.isCall = true →
      bc.pops = count (.rx l symbol args) → ∃ v b',
        addNew v₂ i (b₂.alloc (.constant y)) = some (v, b') ∧
        Calling b v b' (1 + k) (count (.rx l symbol args)) := by
    intro i bc hi hcall hpops
    obtain ⟨v₃, b₃, hrun₃, -, -, -, -, hblocks₃, hbuilt₃⟩ :=
      (hbuilt.mono (grown_alloc ∅ b₂ (.constant y))).addNew hi
    refine ⟨v₃, b₃, hrun₃, .of_built hbuilt₃ (hblocks₃ ▸ hlabels) ?_ hcall hpops⟩
    simpa [Bytecode.pushes, Bytecode.pops] using hleaves
  have hscopes : b₂.scopes = names.1 := congrArg Prod.fst hn₂
  have hscope : b₂.scope = names.2 := congrArg Prod.snd hn₂
  rw [visit, Partial.bind_run hload]
  refine (show _ from ?_ : ∃ v b', (do
      let v ← addNew {} (.loadLocal l names.1.locals[l].index)
      let v ← visitArgs cfg args v
      addRxCall v symbol (.ofNat args.length) : Build Visitor) b = some (v, b') ∧ _)
  rw [Partial.bind_run hrun₁, Partial.bind_run hrun₂, addRxCall, Partial.get_bind, hscopes, hscope,
    hx]
  simp only [hvalue]
  rw [Partial.bind_run (newInstr_alloc _ b₂)]
  cases y with
  | native s =>
      obtain ⟨v, b', hrun, h⟩ := hcall (.invokeNative b₂.graph.size (.ofNat args.length))
        (.invokeNative (.native s) (.ofNat args.length))
        (fun g hg => by rw [itemsOf, hconst _ g hg]; rfl) rfl rfl
      exact ⟨v, b', hrun, h⟩
  | lambda id =>
      obtain ⟨v, b', hrun, h⟩ := hcall (.invoke b₂.graph.size (.ofNat args.length))
        (.invoke (.lambda id) (.ofNat args.length))
        (fun g hg => by rw [itemsOf, hconst _ g hg]; rfl) rfl rfl
      exact ⟨v, b', hrun, h⟩
  | _ => cases hproc

namespace Sample

/-- The source of a `let:rx` and an operator. -/
def scopes : Scopes where
  locals := [{ name := ".", index := 0 },
    { name := "rx/map", index := 1, value := some (.native { ns := "rx", name := "map" }) }]
  scopes := [{ parent := none, locals := [0, 1] }]

def builder : Builder := { scope := 0, scopes }

/-- `(list (set! . 1))`. -/
def assigned : CallLike := .call (.literal (.native listSymbol)) [.setLocal 0 (.literal (.long 1))]

/-- `(rx:map 1)`, as an operator. -/
def operator : CallLike := .rx 0 { ns := "rx", name := "map" } [.literal (.long 1)]

end Sample

/-- The builder returns a map that it has bound already. -/
theorem visit_newMap (cfg : Config) (m : Mode) (data : List Entry) {b b' : Builder} {v : Visitor}
    (h : visit cfg m (.map data) b = some (v, b')) :
    ∃ d, v.exit = some d ∧
      FlowGraphBuilder.visit cfg m (.newMap data) {} b = returnDefinition m v d b' := by
  obtain ⟨v₁, b₁, h₁, h⟩ := Partial.bind_eq_some.mp h
  rw [Partial.bind_run (newInstr_alloc _ b₁)] at h
  refine ⟨b₁.graph.size, (add_spec h).2, ?_⟩
  rw [FlowGraphBuilder.visit, Partial.bind_run h₁, Partial.bind_run (newInstr_alloc _ b₁),
    Partial.bind_run h]

/-- The builder appends each operator of a `let:rx`. -/
theorem visitOperators_cons (cfg : Config) (m : Mode) (l : LocalId) (symbol : Symbol)
    (args : List Expr) (ops : List RxOp) {v f : Visitor} {b b' : Builder} (hv : v.isOpen = true)
    (h : visit cfg m (.rx l symbol args) b = some (f, b')) :
    visitOperators cfg m l (.mk symbol args :: ops) v b = (do
      let v ← append v f
      if ops.isEmpty then
        if symbol.equals subscribeSymbol || symbol.equals completeSymbol then
          returnNew m v (.constant .null)
        else returnNew m v (← loadLocal l)
      else visitOperators cfg m l ops v : Build Visitor) b' := by
  obtain ⟨x, b₁, h₁, h⟩ := Partial.bind_eq_some.mp h
  obtain ⟨v₂, b₂, h₂, h⟩ := Partial.bind_eq_some.mp h
  obtain ⟨v₃, b₃, h₃, h⟩ := Partial.bind_eq_some.mp h
  rw [visitOperators, if_pos hv, Partial.bind_run h₁, Partial.bind_run h₂, Partial.bind_run h₃,
    Partial.bind_run h]

end CallLike

end Gel
