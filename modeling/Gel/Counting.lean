import Gel.Clauses
import Gel.StackDepth

/-!
# Counting — what the steps of a visitor leave on the operand stack

`Expr.leaves` counts from an expression what its code leaves, for the forms whose code is emitted
once: an assignment leaves nothing, a cast to a class other than `Observable` loses its operand, a
block of several calls leaves a value for each.

`Stacks b₀ v b k` says that the visitor `v` has built code that leaves `k` values since `b₀`, and
`Calling b₀ v b k n` that it has built the operands of a call of `n` arguments, which leave `k`, and
the call.  Each step of a visitor adds what its instruction leaves: `Stacks.append`,
`Stacks.addNew`, `Stacks.returnNew`, `Stacks.returnCallTo`.
-/

namespace Gel

open FlowGraphCompiler FlowGraphBuilder

/-! ### Counting -/

/-- What a visitor leaves of a constant. -/
def Mode.constantLeaves : Mode → Int
  | .effect => 0
  | .value => 1

namespace Expr

/-- `IsConstantExpr`, as the builder asks for it. -/
def isConstantIn (cfg : Config) (names : Names) (e : Expr) : Bool :=
  e.isConstantExpr fun x =>
    ((names.1.lookup cfg.runtimeScope x.fullyQualifiedName).bind names.1.valueOf).isSome

/-- The definition of a call target that is one instruction. -/
def targetInstr (names : Names) : Expr → Option Instr
  | .literal v => some (names.1.literalInstr names.2 v)
  | .quoted v => some (.constant v)
  | _ => none

/-- The number of arguments that stands in an instruction. -/
def count {α : Type} (args : List α) : Nat := (UInt64.ofNat args.length).toNat

mutual

/-- How many values the code of an expression leaves. -/
def leaves (cfg : Config) (names : Names) (m : Mode) : Expr → Option Int
  | .literal v => match names.1.literalInstr names.2 v with
      | .constant _ => some m.constantLeaves
      | _ => some 1
  | .quoted _ => some m.constantLeaves
  | .unary _ e => e.leaves cfg names .value
  | .binaryOp _ l r => do
      return (← l.leaves cfg names .value) + (← r.leaves cfg names .value) - 1
  | .begin body => leavesAll cfg names .effect body
  | .cond [.mk key actions] alternate => do
      let test ← match key with
        | .binaryOp .equals l r => do
            pure ((← l.leaves cfg names .value) + (← r.leaves cfg names .value) - 2)
        | key => do pure ((← key.leaves cfg names .value) - 1)
      let forActions ← leavesAll cfg names .value actions
      let forAlternate ← match alternate with
        | none => some 0
        | some e => e.leaves cfg names .value
      if forActions = forAlternate then some (test + forActions) else none
  | .when test actions => do
      let test ← test.leaves cfg names .value
      let forActions ← leavesAll cfg names .effect actions
      if forActions = 0 then some (test - 1) else none
  | .localDef l e | .setLocal l e => do
      let k ← e.leaves cfg names .value
      if l < names.1.locals.length then some (k - 1) else none
  | .setField _ inst e => do
      return (← e.leaves cfg names .value) + (← inst.leaves cfg names .value) - 2
  | .loadField inst _ => inst.leaves cfg names .value
  | .import => some 0
  | .callProc target args => do
      let _ ← target.targetInstr names
      return (← leavesAll cfg names .value args) - count args + 1
  | .list values =>
      if (list values).isConstantIn cfg names then
        match (list values).evalToConstant cfg names.1 names.2 with
        | some (some _) => some m.constantLeaves
        | _ => none
      else do return (← leavesAll cfg names .value values) - count values + 1
  | .instanceOf c e =>
      if (instanceOf c e).isConstantIn cfg names then
        match (instanceOf c e).evalToConstant cfg names.1 names.2 with
        | some (some _) => some m.constantLeaves
        | _ => none
      else e.leaves cfg names .value
  | .cast c e => do
      return (← e.leaves cfg names .value) - 1 + if c = .observable then 1 else 0
  | .new c args =>
      if (new c args).isConstantIn cfg names then
        match (new c args).evalToConstant cfg names.1 names.2 with
        | some (some _) => some m.constantLeaves
        | some none => some (1 - count args)
        | none => none
      else do return (← leavesAll cfg names .value args) - count args + 1
  | .cond [] _ | .cond (_ :: _ :: _) _ | .while .. | .case .. | .binding .. | .let .. | .letRx ..
  | .throw .. | .newMap .. | .loadInstanceMethod .. => none

/-- How many values the code of several expressions leaves. -/
def leavesAll (cfg : Config) (names : Names) (m : Mode) : List Expr → Option Int
  | [] => some 0
  | e :: es => do return (← e.leaves cfg names m) + (← leavesAll cfg names m es)

end

theorem leaves_quoted (cfg : Config) (names : Names) (m : Mode) (value : Value) :
    (quoted value).leaves cfg names m = some m.constantLeaves := by rw [leaves]

theorem leavesAll_nil (cfg : Config) (names : Names) (m : Mode) :
    leavesAll cfg names m [] = some 0 := by rw [leavesAll]

end Expr

/-! ### What the steps of a visitor leave -/

/-- A visitor of this kind drops the instruction it is to return. -/
def Mode.drops (m : Mode) : Instr → Bool
  | .constant _ => m = .effect
  | _ => false

theorem newInstr_alloc (x : Instr) (b : Builder) :
    newInstr x b = some (b.graph.size, b.alloc x) := rfl

theorem returnDefinition_effect (v : Visitor) (d : InstrId) (b : Builder) :
    returnDefinition .effect v d b
      = if b.graph.isConstant d then some (v, b) else FlowGraphBuilder.add v d b := by
  rw [returnDefinition]
  refine (Partial.get_bind _ _).trans ?_
  split
  · rfl
  · rfl

/-- An effect visitor returns what is not a constant as a value visitor does. -/
theorem returnDefinition_effect_of_value {v v' : Visitor} {d : InstrId} {b b' : Builder}
    (hd : b.graph.isConstant d = false)
    (h : returnDefinition .value v d b = some (v', b')) :
    ∃ y, returnDefinition .effect v d b = some ({ v' with value := y }, b') := by
  obtain ⟨w, b₁, hadd, hrest⟩ := Partial.bind_eq_some.mp h
  cases hrest
  refine ⟨w.value, ?_⟩
  rw [returnDefinition_effect, if_neg (by simp [hd])]
  exact hadd

/-- `ReturnDefinition` of a new instruction, on a visitor of either kind. -/
theorem Built.return {ctx : Graph → Prop} {b₀ b : Builder} {v : Visitor} {c l : List Item}
    {x : Instr} (m : Mode) (h : Built ctx b₀ v b c) (hx : Straight (b.alloc x).graph x l) :
    ∃ v' b', FlowGraphBuilder.returnNew m v x b = some (v', b') ∧ b'.numBlocks = b.numBlocks ∧
      Built ctx b₀ v' b' (c ++ if m.drops x then [] else .visit b.graph.size :: l) := by
  have hinstr := b.instr?_alloc x
  by_cases hd : m.drops x = true
  · obtain ⟨y, rfl⟩ : ∃ y, x = .constant y := by
      cases x <;> first | exact ⟨_, rfl⟩ | cases hd
    obtain rfl : m = .effect := by simpa [Mode.drops] using hd
    refine ⟨v, b.alloc (.constant y), ?_, rfl, ?_⟩
    · have hconst : (b.alloc (.constant y)).graph.isConstant b.graph.size = true := by
        rw [Graph.isConstant, Graph.constantValue, hinstr]
        rfl
      rw [FlowGraphBuilder.returnNew, Partial.bind_run (newInstr_alloc _ b),
        returnDefinition_effect, if_pos hconst]
    · rw [if_pos hd, List.append_nil]
      exact h.mono (grown_alloc ∅ b _)
  · rw [if_neg hd]
    obtain ⟨v', b', hrun, -, -, -, hblocks, hbuilt⟩ := h.returnNew hx
    cases m with
    | value => exact ⟨v', b', hrun, hblocks, hbuilt⟩
    | effect =>
        have hconst : (b.alloc x).graph.isConstant b.graph.size = false := by
          rw [Graph.isConstant, Graph.constantValue, hinstr]
          cases x <;> first | rfl | exact absurd rfl hd
        rw [FlowGraphBuilder.returnNew, Partial.bind_run (newInstr_alloc x b)] at hrun
        obtain ⟨y, hrun⟩ := returnDefinition_effect_of_value hconst hrun
        refine ⟨{ v' with value := y }, b', ?_, hblocks, hbuilt.value y⟩
        rw [FlowGraphBuilder.returnNew, Partial.bind_run (newInstr_alloc x b)]
        exact hrun

/-- Since `b₀` the visitor has built code that leaves `k` values. -/
def Stacks (b₀ : Builder) (v : Visitor) (b : Builder) (k : Int) : Prop :=
  ∃ c, Built Anywhere b₀ v b c ∧ LabelsIn b₀.numBlocks b.numBlocks c ∧ Leaves c k

namespace Stacks

variable {b₀ b b₁ : Builder} {v f : Visitor} {k k' : Int}

theorem start (hf : b.Fresh) : Stacks b {} b 0 := ⟨[], .start hf, .nil _ _, .nil⟩

theorem fresh (h : Stacks b₀ v b k) : b.Fresh := by
  obtain ⟨c, hbuilt, -⟩ := h
  exact hbuilt.fresh

theorem names (h : Stacks b₀ v b k) : (b.scopes, b.scope) = (b₀.scopes, b₀.scope) := by
  obtain ⟨c, hbuilt, -⟩ := h
  rw [hbuilt.grown.scopes, hbuilt.grown.scope]

theorem isOpen (h : Stacks b₀ v b k) : v.isOpen = true := by
  obtain ⟨c, hbuilt, -⟩ := h
  exact hbuilt.isOpen

/-- What is allocated elsewhere. -/
theorem mono (h : Stacks b₀ v b k) (hg : Grown ∅ b b₁) : Stacks b₀ v b₁ k := by
  obtain ⟨c, hbuilt, hlabels, hleaves⟩ := h
  exact ⟨c, hbuilt.mono hg, hlabels.mono le_rfl hg.blocks, hleaves⟩

/-- **`Append`** adds up. -/
theorem append (h : Stacks b₀ v b k) (hf : Stacks b f b₁ k') :
    ∃ v' b', FlowGraphBuilder.append v f b₁ = some (v', b') ∧ Stacks b₀ v' b' (k + k') := by
  obtain ⟨c, hbuilt, hlabels, hleaves⟩ := h
  obtain ⟨c', hbuilt', hlabels', hleaves'⟩ := hf
  obtain ⟨v', b', hrun, -, -, hblocks, happ⟩ := hbuilt.append hbuilt'
  have hle := hbuilt.grown.blocks
  have hle' := hbuilt'.grown.blocks
  refine ⟨v', b', hrun, c ++ c', happ, ?_, hleaves.append hleaves'
    (.of_labelsIn hlabels hlabels' (.inl le_rfl)) (.of_labelsIn hlabels' hlabels (.inr le_rfl))⟩
  rw [hblocks]
  exact (hlabels.mono le_rfl hle').append (hlabels'.mono hle le_rfl)

/-- Code with one more instruction. -/
theorem snoc {v' : Visitor} {b' : Builder} {c : List Item} {i : InstrId} {bc : Bytecode}
    (hbuilt : Built Anywhere b₀ v' b' (c ++ [.visit i, .code bc]))
    (hlabels : LabelsIn b₀.numBlocks b'.numBlocks c) (h : Leaves c k)
    (hbc : (Item.code bc).Continues) : Stacks b₀ v' b' (k + (bc.pushes - bc.pops)) := by
  have hone : LabelsIn b'.numBlocks b'.numBlocks [.visit i, .code bc] := .instr _ _ _ _
  refine ⟨_, hbuilt, hlabels.append (.instr _ _ _ _), h.append (.instr i bc hbc) ?_ ?_⟩
  · exact .of_labelsIn hlabels hone (.inl le_rfl)
  · exact .of_labelsIn hone hlabels (.inr le_rfl)

/-- **A new instruction.** -/
theorem addNew (x : Instr) (bc : Bytecode) (h : Stacks b₀ v b k)
    (hx : Straight (b.alloc x).graph x [.code bc]) (hbc : (Item.code bc).Continues) :
    ∃ v' b', FlowGraphBuilder.addNew v x b = some (v', b') ∧
      Stacks b₀ v' b' (k + (bc.pushes - bc.pops)) := by
  obtain ⟨c, hbuilt, hlabels, hleaves⟩ := h
  obtain ⟨v', b', hrun, -, -, -, -, hblocks, hbuilt'⟩ := hbuilt.addNew hx
  exact ⟨v', b', hrun, snoc hbuilt' (hblocks ▸ hlabels) hleaves hbc⟩

/-- **A new instruction that is returned.** -/
theorem returnNew (m : Mode) (x : Instr) (bc : Bytecode) (h : Stacks b₀ v b k)
    (hx : Straight (b.alloc x).graph x [.code bc]) (hbc : (Item.code bc).Continues) :
    ∃ v' b', FlowGraphBuilder.returnNew m v x b = some (v', b') ∧
      Stacks b₀ v' b' (k + if m.drops x then 0 else (bc.pushes - bc.pops : Int)) := by
  obtain ⟨c, hbuilt, hlabels, hleaves⟩ := h
  obtain ⟨v', b', hrun, hblocks, hbuilt'⟩ := hbuilt.return m hx
  refine ⟨v', b', hrun, ?_⟩
  by_cases hd : m.drops x = true
  · rw [if_pos hd, List.append_nil] at hbuilt'
    rw [if_pos hd, add_zero]
    exact ⟨c, hbuilt', hblocks ▸ hlabels, hleaves⟩
  · rw [if_neg hd] at hbuilt' ⊢
    exact snoc hbuilt' (hblocks ▸ hlabels) hleaves hbc

/-- A constant that is returned. -/
theorem returnConstant (m : Mode) (y : Value) (h : Stacks b₀ v b k) :
    ∃ v' b', FlowGraphBuilder.returnNew m v (.constant y) b = some (v', b') ∧
      Stacks b₀ v' b' (k + m.constantLeaves) := by
  have h' := h.returnNew m (.constant y) (.push y) (fun _ _ => rfl) trivial
  cases m <;> exact h'

/-- **`AddInstanceOf`** leaves the value it checks. -/
theorem addInstanceOf (cfg : Config) (cl : ClassId) (h : Stacks b₀ v b k) :
    ∃ v' b', FlowGraphBuilder.addInstanceOf cfg v cl b = some (v', b') ∧ Stacks b₀ v' b' k := by
  unfold FlowGraphBuilder.addInstanceOf
  by_cases hp : cfg.pedantic = true
  · obtain ⟨v', b', hrun, h'⟩ := h.addNew (.instanceOf cl) (.checkInstance (.cls cl))
      (fun _ _ => rfl) trivial
    rw [if_pos hp]
    exact ⟨v', b', hrun, by simpa [Bytecode.pushes, Bytecode.pops] using h'⟩
  · rw [if_neg hp]
    exact ⟨v, b, rfl, h⟩

end Stacks

/-! ### Calls -/

/-- Code that names no label, behind other code. -/
theorem Leaves.behind {c c' : List Item} {k k' : Int} (h : Leaves c k) (h' : Leaves c' k')
    (hno : LabelsIn 0 0 c') : Leaves (c ++ c') (k + k') := by
  refine h.append h' ?_ ?_
  · intro x _ b _
    exact hno.not_bind (.inr (Nat.zero_le b))
  · intro x hx b hb
    exact absurd (hno x hx b hb).2 (Nat.not_lt_zero b)

theorem leaves_checkItems (cfg : Config) (i : InstrId) (cl : ClassId) :
    Leaves (checkItems cfg i cl) 0 := by
  unfold checkItems
  split
  · simpa [Bytecode.pushes, Bytecode.pops] using
      Leaves.instr i (.checkInstance (.cls cl)) trivial
  · exact .nil

/-- Since `b₀` the visitor has built code that leaves `k` arguments, and a call of `n` arguments
behind it; a procedure that is looked up lies on top of them. -/
def Calling (b₀ : Builder) (v : Visitor) (b : Builder) (k : Int) (n : Nat) : Prop :=
  ∃ front i bc, Built Anywhere b₀ v b (front ++ [.visit i, .code bc]) ∧
    LabelsIn b₀.numBlocks b.numBlocks front ∧ bc.isCall = true ∧ Leaves front (k + bc.pops - n)

namespace Calling

variable {b₀ b : Builder} {v : Visitor} {k : Int} {n : Nat}

theorem counts (h : Calling b₀ v b k n) : Stacks b₀ v b (k - n + 1) := by
  obtain ⟨front, i, bc, hbuilt, hlabels, hcall, hleaves⟩ := h
  have hpushes : bc.pushes = 1 ∧ (Item.code bc).Continues := by
    cases bc <;> first | exact ⟨rfl, trivial⟩ | cases hcall
  have hall := Stacks.snoc hbuilt hlabels hleaves hpushes.2
  rw [hpushes.1] at hall
  rwa [show k + bc.pops - n + ((1 : Nat) - bc.pops) = k - n + 1 by push_cast; ring] at hall

end Calling

/-- `Add` makes the instruction the exit, and only links. -/
theorem add_spec {v v' : Visitor} {i : InstrId} {b b' : Builder}
    (h : FlowGraphBuilder.add v i b = some (v', b')) :
    b'.graph.instrs = b.graph.instrs ∧ v'.exit = some i := by
  unfold FlowGraphBuilder.add at h
  by_cases he : v.isEmpty = true
  · rw [if_pos he] at h
    cases h
    exact ⟨rfl, rfl⟩
  · rw [if_neg he] at h
    cases hx : v.exit with
    | none =>
        rw [hx] at h
        cases h
    | some x =>
        rw [hx] at h
        cases h
        exact ⟨rfl, rfl⟩

theorem addInstanceOf_instrs {cfg : Config} {v v' : Visitor} {c : ClassId} {b b' : Builder}
    (h : FlowGraphBuilder.addInstanceOf cfg v c b = some (v', b')) :
    b.graph.instrs <+: b'.graph.instrs := by
  unfold FlowGraphBuilder.addInstanceOf at h
  split at h
  · rw [FlowGraphBuilder.addNew, Partial.bind_run (newInstr_alloc _ b)] at h
    rw [(add_spec h).1]
    exact List.prefix_append _ _
  · cases h
    exact List.prefix_refl _

/-- A definition that is not a constant. -/
theorem isConstant_of_instr? {g : Graph} {d : InstrId} {x : Instr} (h : g.instr? d = some x)
    (hx : ∀ y, x ≠ .constant y) : g.isConstant d = false := by
  rw [Graph.isConstant, Graph.constantValue, h]
  cases x <;> first | rfl | exact absurd rfl (hx _)

/-- The two visitors call in the same way. -/
theorem returnCallTo_effect {cfg : Config} {v v' : Visitor} {d : InstrId} {n : UInt64}
    {b b' : Builder} (h : FlowGraphBuilder.returnCallTo cfg .value v d n b = some (v', b')) :
    ∃ y, FlowGraphBuilder.returnCallTo cfg .effect v d n b = some ({ v' with value := y }, b') := by
  have hnew : ∀ {x : Instr}, (∀ y, x ≠ .constant y) →
      FlowGraphBuilder.returnNew .value v x b = some (v', b') →
      ∃ y, FlowGraphBuilder.returnNew .effect v x b = some ({ v' with value := y }, b') := by
    intro x hx hrun
    rw [FlowGraphBuilder.returnNew, Partial.bind_run (newInstr_alloc x b)] at hrun ⊢
    exact returnDefinition_effect_of_value (isConstant_of_instr? (b.instr?_alloc x) hx) hrun
  have hdyn : ∀ {v' : Visitor} {b' : Builder}, (do
        let v ← FlowGraphBuilder.add v d
        let v ← FlowGraphBuilder.addInstanceOf cfg v .symbol
        let v ← FlowGraphBuilder.addNew v .lookup
        let invoke ← newInstr (.invokeDynamic n)
        let v ← FlowGraphBuilder.addInstanceOf cfg v .procedure
        returnDefinition .value v invoke : Build Visitor) b = some (v', b') →
      ∃ y, (do
        let v ← FlowGraphBuilder.add v d
        let v ← FlowGraphBuilder.addInstanceOf cfg v .symbol
        let v ← FlowGraphBuilder.addNew v .lookup
        let invoke ← newInstr (.invokeDynamic n)
        let v ← FlowGraphBuilder.addInstanceOf cfg v .procedure
        returnDefinition .effect v invoke : Build Visitor) b = some ({ v' with value := y }, b') := by
    intro v' b' hrun
    obtain ⟨v₁, b₁, h₁, hrun⟩ := Partial.bind_eq_some.mp hrun
    obtain ⟨v₂, b₂, h₂, hrun⟩ := Partial.bind_eq_some.mp hrun
    obtain ⟨v₃, b₃, h₃, hrun⟩ := Partial.bind_eq_some.mp hrun
    rw [Partial.bind_run (newInstr_alloc _ b₃)] at hrun
    obtain ⟨v₄, b₄, h₄, hrun⟩ := Partial.bind_eq_some.mp hrun
    have hinstr : b₄.graph.instr? b₃.graph.size = some (.invokeDynamic n) := by
      obtain ⟨r, hr⟩ := addInstanceOf_instrs h₄
      have halloc := b₃.instr?_alloc (.invokeDynamic n)
      rw [Graph.instr?] at halloc ⊢
      rw [← hr, List.getElem?_append_left (List.getElem?_eq_some_iff.mp halloc).1]
      exact halloc
    obtain ⟨y, hy⟩ := returnDefinition_effect_of_value (isConstant_of_instr? hinstr (by simp)) hrun
    refine ⟨y, ?_⟩
    rw [Partial.bind_run h₁, Partial.bind_run h₂, Partial.bind_run h₃,
      Partial.bind_run (newInstr_alloc _ b₃), Partial.bind_run h₄]
    exact hy
  rw [FlowGraphBuilder.returnCallTo, Partial.get_bind] at h ⊢
  cases hc : b.graph.constantValue d with
  | none =>
      rw [hc] at h
      exact hdyn h
  | some y =>
      rw [hc] at h
      cases y with
      | native x => exact hnew (by simp) h
      | lambda id => exact hnew (by simp) h
      | _ => exact hdyn h

/-- What is emitted for a call, with its last operation apart. -/
theorem callItems_split (cfg : Config) (f : Option Value) (d k : InstrId) {bc : Bytecode}
    (n : UInt64) (hbc : (Item.code bc).Continues) (hone : bc.pushes = bc.pops + 1) :
    ∃ front i call, callItems cfg f d k [.code bc] n = front ++ [.visit i, .code call] ∧
      LabelsIn 0 0 front ∧ call.isCall = true ∧ Leaves front (call.pops - n.toNat) := by
  have hconst : ∀ {call : Bytecode}, call.isCall = true → call.pops = n.toNat →
      ∃ front i c, ([.visit k, .code call] : List Item) = front ++ [.visit i, .code c] ∧
        LabelsIn 0 0 front ∧ c.isCall = true ∧ Leaves front (c.pops - n.toNat) := by
    intro call hcall hpops
    refine ⟨[], k, call, rfl, .nil 0 0, hcall, ?_⟩
    rw [hpops, sub_self]
    exact .nil
  have hdyn : ∃ front i call, callItems cfg none d k [.code bc] n
      = front ++ [.visit i, .code call] ∧ LabelsIn 0 0 front ∧ call.isCall = true ∧
        Leaves front (call.pops - n.toNat) := by
    unfold callItems
    refine ⟨[.visit d, .code bc] ++ checkItems cfg k .symbol ++
      [.visit (if cfg.pedantic then k + 1 else k), .code .lookup] ++
        checkItems cfg ((if cfg.pedantic then k + 1 else k) + 2) .procedure,
      (if cfg.pedantic then k + 1 else k) + 1, .invokeDynamic n, ?_, ?_, rfl, ?_⟩
    · simp only [List.append_assoc, List.cons_append, List.nil_append]
    · exact (((LabelsIn.instr _ _ 0 0).append (labelsIn_checkItems cfg _ _ 0 0)).append
        (.instr _ _ 0 0)).append (labelsIn_checkItems cfg _ _ 0 0)
    · have htarget : Leaves [.visit d, .code bc] 1 := by
        have h := Leaves.instr d bc hbc
        rwa [hone, Nat.cast_add, Nat.cast_one, add_sub_cancel_left] at h
      have hlookup := Leaves.instr (if cfg.pedantic then k + 1 else k) .lookup trivial
      have hall := ((htarget.behind (leaves_checkItems cfg k .symbol)
        (labelsIn_checkItems cfg _ _ 0 0)).behind hlookup (.instr _ _ 0 0)).behind
          (leaves_checkItems cfg ((if cfg.pedantic then k + 1 else k) + 2) .procedure)
          (labelsIn_checkItems cfg _ _ 0 0)
      simpa [Bytecode.pushes, Bytecode.pops] using hall
  cases f with
  | none => exact hdyn
  | some f => cases f with
      | native y => exact hconst rfl rfl
      | lambda id => exact hconst rfl rfl
      | _ => exact hdyn

/-- **`ReturnCallTo`** a definition that has just been allocated. -/
theorem Stacks.returnCallTo {b₀ b : Builder} {v : Visitor} {k : Int} (cfg : Config) (m : Mode)
    (n : UInt64) (x : Instr) (bc : Bytecode) (h : Stacks b₀ v b k)
    (hx : Straight (b.alloc x).graph x [.code bc]) (hbc : (Item.code bc).Continues)
    (hone : bc.pushes = bc.pops + 1) :
    ∃ v' b', FlowGraphBuilder.returnCallTo cfg m v b.graph.size n (b.alloc x) = some (v', b') ∧
      Calling b₀ v' b' k n.toNat := by
  obtain ⟨c, hbuilt, hlabels, hleaves⟩ := h
  obtain ⟨v', b', hrun, -, hblocks, hbuilt'⟩ := hbuilt.returnCallTo cfg n (grown_alloc ∅ b x)
    le_rfl (b.instr?_alloc x) hx (hbuilt.fresh _ le_rfl)
  obtain ⟨front, i, call, hitems, hno, hcall, hfront⟩ := callItems_split cfg
    ((b.alloc x).graph.constantValue b.graph.size) b.graph.size (b.alloc x).graph.size n hbc hone
  rw [hitems, ← List.append_assoc] at hbuilt'
  have hcalling : ∀ y, Calling b₀ { v' with value := y } b' k n.toNat := by
    intro y
    refine ⟨c ++ front, i, call, hbuilt'.value y, ?_, hcall, ?_⟩
    · rw [hblocks]
      refine hlabels.append fun it hm l hl => ?_
      exact absurd (hno it hm l hl).2 (Nat.not_lt_zero l)
    · rw [add_sub_assoc]
      exact hleaves.behind hfront hno
  cases m with
  | value => exact ⟨v', b', hrun, hcalling v'.value⟩
  | effect =>
      obtain ⟨y, hy⟩ := returnCallTo_effect hrun
      exact ⟨_, b', hy, hcalling y⟩

/-- A new operation with a number of arguments, behind them. -/
theorem Calling.of_built {b₀ b' : Builder} {v' : Visitor} {k : Int} {bc : Bytecode} {n : UInt64}
    {c : List Item} {i : InstrId} (hbuilt : Built Anywhere b₀ v' b' (c ++ [.visit i, .code bc]))
    (hlabels : LabelsIn b₀.numBlocks b'.numBlocks c) (h : Leaves c k) (hcall : bc.isCall = true)
    (hn : bc.pops = n.toNat) : Calling b₀ v' b' k n.toNat := by
  refine ⟨c, i, bc, hbuilt, hlabels, hcall, ?_⟩
  rwa [hn, add_sub_cancel_right]

end Gel
