import Gel.Core

/-!
# Correctness — the code of the expression core

For every core expression the builder succeeds and emits code that, wherever it lies, pushes the
expression's value: `CoreExpr.code_runs`.  The proof is by induction on the expression.  What
carries it is that code is emitted in front of everything behind it (`Built`), that the labels of an
expression are its own (`LabelsIn`), and that what runs in front of an expression leaves the code
and the frame alone (`Activation.Keeps`).
-/

namespace Gel

open FlowGraphCompiler FlowGraphBuilder Layout

/-- No condition on the graph. -/
def Anywhere : Graph → Prop := fun _ => True

namespace LabelsIn

theorem instr (i : InstrId) (bc : Bytecode) (lo hi : BlockId) :
    LabelsIn lo hi [.visit i, .code bc] :=
  .cons nofun (.cons nofun (.nil _ _))

end LabelsIn

section Machine

variable {host : Host} {callN : Interpreter.CallWithNArgs} {a : Activation} {m m' m'' : Memory}
  {s s' s'' : List Value} {c c' : List Item} {lo hi : BlockId}

/-- An instruction that emits one operation. -/
theorem Computes.instr {i : InstrId} {bc : Bytecode} (hbc : bc.isJump = false) (hret : bc ≠ .ret)
    (hexec : ∀ p q, Interpreter.exec host callN a.region p bc (a.state q s m)
      = .ok (a.state q s' m')) :
    Computes host callN a [.visit i, .code bc] lo hi s m s' m' := by
  intro pre post hf hl
  have hc : Computes host callN a [.code bc] lo hi s m s' m' := .code hbc hret hexec
  have h := hc (pre ++ [.visit i]) post (by simpa using hf) (by simpa using hl)
  simpa [Item.size] using h

/-- Appending one more instruction. -/
theorem Computes.snoc {i : InstrId} {bc : Bytecode}
    (h : Computes host callN a c lo hi s m s' m') (hk : a.Keeps m m') (hle : lo ≤ hi)
    (hbc : bc.isJump = false) (hret : bc ≠ .ret)
    (hexec : ∀ p q, Interpreter.exec host callN a.region p bc (a.state q s' m')
      = .ok (a.state q s'' m'')) :
    Computes host callN a (c ++ [.visit i, .code bc]) lo hi s m s'' m'' :=
  h.append (.instr hbc hret hexec) hk hle le_rfl
    fun _ h₁ h₂ => absurd h₁ (Nat.not_le.mpr h₂)

end Machine

/-! ### The steps of the visitors -/

/-- A visitor's code does not need the condition on the graph to be weak. -/
theorem Built.ofAnywhere {ctx : Graph → Prop} {b₀ b : Builder} {v : Visitor} {c : List Item}
    (h : Built Anywhere b₀ v b c) : Built ctx b₀ v b c := by
  obtain ⟨own, h⟩ := h
  exact ⟨own, h.imp fun _ _ => trivial⟩

/-- An empty visitor emits nothing, and another one what its fragment emits. -/
theorem Built.emits {b₀ b : Builder} {v : Visitor} {c : List Item} (h : Built Anywhere b₀ v b c) :
    Emits b.graph v.entry c := by
  obtain ⟨own, h⟩ := h
  have hcode := h.code
  unfold Code at hcode
  split at hcode
  next he =>
      rw [he, hcode.1]
      exact .done
  next e he =>
      obtain ⟨x, l, -, hf⟩ := hcode
      rw [he]
      exact (Block.ofFragment hf).emits b.graph trivial (.refl _ _ _)

/-- The check of `AddInstanceOf`, as the instruction `i`. -/
def checkItems (cfg : Config) (i : InstrId) (cl : ClassId) : List Item :=
  if cfg.pedantic then [.visit i, .code (.checkInstance (.cls cl))] else []

theorem labelsIn_checkItems (cfg : Config) (i : InstrId) (cl : ClassId) (lo hi : BlockId) :
    LabelsIn lo hi (checkItems cfg i cl) := by
  unfold checkItems
  split
  · exact .instr _ _ lo hi
  · exact .nil lo hi

/-- A check leaves an instance on the stack. -/
theorem computes_checkItems {cfg : Config} {i : InstrId} {cl : ClassId} {host : Host}
    {callN : Interpreter.CallWithNArgs} {a : Activation} {s : List Value} {m : Memory} {x : Value}
    {lo hi : BlockId} (hx : x.type.isInstanceOf cl = true) :
    Computes host callN a (checkItems cfg i cl) lo hi (x :: s) m (x :: s) m := by
  unfold checkItems
  split
  · exact .instr rfl nofun fun p q => a.exec_checkInstance hx
  · exact .nil _ _ _ _

/-- **`AddInstanceOf`** emits its check behind the fragment. -/
theorem Built.addInstanceOf {b₀ b : Builder} {v : Visitor} {c : List Item} (cfg : Config)
    (cl : ClassId) (h : Built Anywhere b₀ v b c) :
    ∃ v' b', FlowGraphBuilder.addInstanceOf cfg v cl b = some (v', b') ∧ v'.value = v.value ∧
      b'.numBlocks = b.numBlocks ∧
      b'.graph.size = (if cfg.pedantic then b.graph.size + 1 else b.graph.size) ∧
      Built Anywhere b₀ v' b' (c ++ checkItems cfg b.graph.size cl) := by
  unfold checkItems FlowGraphBuilder.addInstanceOf
  by_cases hp : cfg.pedantic = true
  · have hadd := h.addNew (x := .instanceOf cl) (l := [.code (.checkInstance (.cls cl))])
      fun _ _ => rfl
    obtain ⟨v', b', hrun, hval, -, -, hsize, hblocks, hbuilt⟩ := hadd
    rw [if_pos hp, if_pos hp, if_pos hp]
    exact ⟨v', b', hrun, hval, hblocks, hsize, hbuilt⟩
  · rw [if_neg hp, if_neg hp, if_neg hp, List.append_nil]
    exact ⟨v, b, rfl, rfl, rfl, rfl, h⟩

/-- A checked definition: the instruction is allocated before its check and added behind it. -/
theorem Built.returnChecked {b₀ b : Builder} {v : Visitor} {c l : List Item} {x : Instr}
    (cfg : Config) (cl : ClassId) (h : Built Anywhere b₀ v b c)
    (hx : Straight (b.alloc x).graph x l) :
    ∃ v' b', (do
        let i ← newInstr x
        let v ← FlowGraphBuilder.addInstanceOf cfg v cl
        returnDefinition .value v i : Build Visitor) b = some (v', b') ∧
      v'.value = some b.graph.size ∧ b'.numBlocks = b.numBlocks ∧
      Built Anywhere b₀ v' b'
        (c ++ (checkItems cfg (b.graph.size + 1) cl ++ .visit b.graph.size :: l)) := by
  have hg : Grown ∅ b (b.alloc x) := grown_alloc _ _ _
  unfold checkItems FlowGraphBuilder.addInstanceOf
  by_cases hp : cfg.pedantic = true
  · obtain ⟨own, h⟩ := h
    -- the check comes first
    obtain ⟨v₁, b₁, hrun₁, -, -, -, -, hblocks₁, hg₁, h₁⟩ := (h.later hg).addNew
      (x := .instanceOf cl) (l := [.code (.checkInstance (.cls cl))]) fun _ _ => rfl
    have hnot : b.graph.size ∉ own := fun hm => absurd (h.inside _ hm) (Nat.lt_irrefl _)
    have hlt : b.graph.size < (b.alloc x).graph.size := by
      rw [Builder.size_alloc]
      exact Nat.lt_succ_self _
    have hfrag : Fragment Anywhere b₁.graph {b.graph.size} b.graph.size
        (.linear b.graph.size b.graph.size (.visit b.graph.size :: l)) := by
      refine .instr (hg₁.graph.instr? (b.instr?_alloc x)) (fun g hgr => hx g ?_) ?_
      · exact hg₁.graph.instrs.trans hgr.instrs
      · exact (hg₁.graph.next _ ⟨hlt, hnot⟩ (Set.notMem_empty _)).trans (h.fresh _ le_rfl)
    obtain ⟨v₂, b₂, hrun₂, -, -, -, hblocks₂, -, h₂⟩ := h₁.add hfrag
      (Set.disjoint_singleton_right.mpr (by simp [hnot])) fun k hk => hk ▸ h.grown.size_le
    refine ⟨{ v₂ with value := some b.graph.size }, b₂, ?_, rfl, hblocks₂.trans hblocks₁, ?_⟩
    · rw [Partial.bind_run (newInstr_run x b), if_pos hp]
      refine (Partial.bind_run hrun₁).trans ?_
      rw [returnDefinition, Partial.bind_run hrun₂]
      rfl
    · rw [if_pos hp, ← List.append_assoc, ← Builder.size_alloc b x]
      exact Built.value ⟨_, h₂⟩ _
  · obtain ⟨v', b', hrun, hval, -, -, hblocks, hbuilt⟩ := h.returnNew hx
    rw [if_neg hp, if_neg hp, List.nil_append]
    rw [FlowGraphBuilder.returnNew] at hrun
    exact ⟨v', b', hrun, hval, hblocks, hbuilt⟩

/-- What a call emits behind its arguments: `f` is the value of the target's definition `d` when
that is a constant, `is` what the definition emits, and `k` the next instruction to be allocated. -/
def callItems (cfg : Config) (f : Option Value) (d k : InstrId) (is : List Item) (n : UInt64) :
    List Item :=
  match f with
  | some (.native x) => [.visit k, .code (.invokeNative (.native x) n)]
  | some (.lambda id) => [.visit k, .code (.invoke (.lambda id) n)]
  | _ =>
      let k' := if cfg.pedantic then k + 1 else k
      .visit d :: (is ++ (checkItems cfg k .symbol ++ (.visit k' :: .code .lookup ::
        (checkItems cfg (k' + 2) .procedure ++ [.visit (k' + 1), .code (.invokeDynamic n)]))))

/-- **`ReturnCallTo`** a definition that was made since. -/
theorem Built.returnCallTo {b₀ b b₁ : Builder} {v : Visitor} {c l : List Item} {d : InstrId}
    {x : Instr} (cfg : Config) (n : UInt64) (h : Built Anywhere b₀ v b c) (hg : Grown ∅ b b₁)
    (hd : b.graph.size ≤ d) (hx : b₁.graph.instr? d = some x) (his : Straight b₁.graph x l)
    (hn : b₁.graph.next d = none) :
    ∃ v' b', FlowGraphBuilder.returnCallTo cfg .value v d n b₁ = some (v', b') ∧
      v'.value.isSome = true ∧ b'.numBlocks = b₁.numBlocks ∧
      Built Anywhere b₀ v' b'
        (c ++ callItems cfg (b₁.graph.constantValue d) d b₁.graph.size l n) := by
  have hconst : ∀ (y : Instr) (f : Value), b₁.graph.constantValue d = some f →
      (∀ g : Graph, (b₁.alloc y).graph.instrs <+: g.instrs → g.constantValue d = some f) := by
    intro y f hf g hgr
    have hag : b₁.graph.Agrees g ∅ ∅ :=
      ⟨(grown_alloc ∅ b₁ y).graph.instrs.trans hgr, fun _ hk => absurd hk (Set.notMem_empty _)⟩
    have hgd := hag.instr? hx
    unfold Graph.constantValue at hf ⊢
    rw [hgd, ← hx]
    exact hf
  have hdyn : ∃ v' b', (do
        let v ← FlowGraphBuilder.add v d
        let v ← FlowGraphBuilder.addInstanceOf cfg v .symbol
        let v ← FlowGraphBuilder.addNew v .lookup
        let invoke ← newInstr (.invokeDynamic n)
        let v ← FlowGraphBuilder.addInstanceOf cfg v .procedure
        returnDefinition .value v invoke : Build Visitor) b₁ = some (v', b') ∧
      v'.value.isSome = true ∧ b'.numBlocks = b₁.numBlocks ∧
      Built Anywhere b₀ v' b' (c ++ callItems cfg none d b₁.graph.size l n) := by
    obtain ⟨v₁, b₂, hrun₁, -, -, hsize₁, hblocks₁, hbuilt₁⟩ := h.add hg
      (.instr hx (fun g hgr => his g hgr.instrs) hn) fun k hk => by
        obtain rfl := hk
        exact hd
    obtain ⟨v₂, b₃, hrun₂, -, hblocks₂, hsize₂, hbuilt₂⟩ := hbuilt₁.addInstanceOf cfg .symbol
    obtain ⟨v₃, b₄, hrun₃, -, -, -, hsize₃, hblocks₃, hbuilt₃⟩ :=
      hbuilt₂.addNew (x := .lookup) (l := [.code .lookup]) fun _ _ => rfl
    obtain ⟨v₄, b₅, hrun₄, hval₄, hblocks₄, hbuilt₄⟩ :=
      hbuilt₃.returnChecked (x := .invokeDynamic n) (l := [.code (.invokeDynamic n)]) cfg .procedure
        fun _ _ => rfl
    refine ⟨v₄, b₅, ?_, by rw [hval₄]; rfl,
      hblocks₄.trans (hblocks₃.trans (hblocks₂.trans hblocks₁)), ?_⟩
    · rw [Partial.bind_run hrun₁, Partial.bind_run hrun₂, Partial.bind_run hrun₃]
      exact hrun₄
    · rw [hsize₃, hsize₂, hsize₁] at hbuilt₄
      simpa [callItems, List.append_assoc] using hbuilt₄
  rw [FlowGraphBuilder.returnCallTo, Partial.get_bind]
  cases hf : b₁.graph.constantValue d with
  | none => exact hdyn
  | some f => cases f with
      | native y =>
          obtain ⟨v', b', hrun, hval, -, -, hblocks, hbuilt⟩ :=
            (h.mono hg).returnNew (x := .invokeNative d n) (l := [.code (.invokeNative (.native y) n)])
              fun g hgr => by rw [itemsOf, hconst _ _ hf g hgr]; rfl
          exact ⟨v', b', hrun, by rw [hval]; rfl, hblocks, hbuilt⟩
      | lambda id =>
          obtain ⟨v', b', hrun, hval, -, -, hblocks, hbuilt⟩ :=
            (h.mono hg).returnNew (x := .invoke d n) (l := [.code (.invoke (.lambda id) n)])
              fun g hgr => by rw [itemsOf, hconst _ _ hf g hgr]; rfl
          exact ⟨v', b', hrun, by rw [hval]; rfl, hblocks, hbuilt⟩
      | _ => exact hdyn

/-- What the instruction of a literal emits. -/
def literalCode : Instr → Bytecode
  | .constant v => .push v
  | .loadLocal _ idx => .loadLocal idx
  | _ => .nop

theorem Scopes.literalInstr_cases (m : Scopes) (s : ScopeId) (v : Value) :
    (∃ y, m.literalInstr s v = .constant y) ∨ ∃ l idx, m.literalInstr s v = .loadLocal l idx := by
  unfold literalInstr
  split
  next =>
      split
      next => exact .inl ⟨_, rfl⟩
      next =>
          split
          · exact .inl ⟨_, rfl⟩
          · exact .inr ⟨_, _, rfl⟩
          · exact .inl ⟨_, rfl⟩
  next => exact .inl ⟨_, rfl⟩

theorem Scopes.literalInstr_straight (m : Scopes) (s : ScopeId) (v : Value) (h : Graph) :
    Straight h (m.literalInstr s v) [.code (literalCode (m.literalInstr s v))] := by
  obtain ⟨y, hy⟩ | ⟨l, idx, hl⟩ := m.literalInstr_cases s v
  · rw [hy]
    exact fun _ _ => rfl
  · rw [hl]
    exact fun _ _ => rfl

/-! ### Values and tests -/

/-- The code of a core expression in value position: what the builder does, and what the items do to
a stack. -/
structure CodeFor (cfg : Config) (e : CoreExpr) (b : Builder) (v : Visitor) (b' : Builder)
    (c : List Item) : Prop where
  run : visit cfg .value e.toExpr {} b = some (v, b')
  built : Built Anywhere b v b' c
  labels : LabelsIn b.numBlocks b'.numBlocks c
  size_pos : 0 < size c
  value : (∃ t x y, e = .cond t x y ∧ v.value = none ∧ ∃ j, v.exit = some j ∧
      b'.graph.isJoinEntry j = true) ∨ v.value.isSome = true
  computes : ∀ (host : Host) {callN a env apply}, ReadsAs callN a apply → ∀ {m},
    env.Holds b.scopes b.scope a m → ∀ s {r m'}, e.eval env apply m = some (r, m') →
      Computes host callN a c b.numBlocks b'.numBlocks s m (r :: s) m'

/-- The builder compiles an expression wherever it stands; it also compiles the operands of an
equality on their own, because a `cond` leaves them to its branch. -/
structure Compiles (cfg : Config) (e : CoreExpr) : Prop where
  code : ∀ b : Builder, b.Fresh → ∃ v b' c, CodeFor cfg e b v b' c
  operands : ∀ l r, e = .binary .equals l r →
    (∀ b : Builder, b.Fresh → ∃ v b' c, CodeFor cfg l b v b' c) ∧
    ∀ b : Builder, b.Fresh → ∃ v b' c, CodeFor cfg r b v b' c

/-- The code of arguments, behind what a visitor has built already. -/
structure CodeForAll (cfg : Config) (es : List CoreExpr) (b₀ : Builder) (v₀ : Visitor)
    (c₀ : List Item) (b : Builder) (v : Visitor) (b' : Builder) (c : List Item) : Prop where
  run : visitArgs cfg (CoreExpr.toExprs es) v₀ b = some (v, b')
  built : Built Anywhere b₀ v b' (c₀ ++ c)
  blocks : b.numBlocks ≤ b'.numBlocks
  labels : LabelsIn b.numBlocks b'.numBlocks c
  size_le : es.length ≤ size c
  value : v.value = v₀.value
  computes : ∀ (host : Host) {callN a env apply}, ReadsAs callN a apply → ∀ {m},
    env.Holds b.scopes b.scope a m → ∀ s {rs m'}, CoreExpr.evalAll env apply es m = some (rs, m') →
      Computes host callN a c b.numBlocks b'.numBlocks s m (rs.reverse ++ s) m'

section Cases

variable {cfg : Config} {b : Builder}

/-- Literals and parameters. -/
theorem codeFor_literal {e : CoreExpr} {value : Value} (he : e.toExpr = .literal value)
    (hf : b.Fresh)
    (heval : ∀ {host : Host} {callN a env apply}, ReadsAs callN a apply → ∀ {m},
      env.Holds b.scopes b.scope a m → ∀ {r m'}, e.eval env apply m = some (r, m') → ∀ p q s,
      Interpreter.exec host callN a.region p (literalCode (b.scopes.literalInstr b.scope value))
        (a.state q s m) = .ok (a.state q (r :: s) m')) :
    ∃ v b' c, CodeFor cfg e b v b' c := by
  obtain ⟨v, b', hrun, hval, -, -, hblocks, hbuilt⟩ := (Built.start hf : Built Anywhere b {} b []).returnNew
    (b.scopes.literalInstr_straight b.scope value _)
  have hbc : (literalCode (b.scopes.literalInstr b.scope value)).isJump = false ∧
      literalCode (b.scopes.literalInstr b.scope value) ≠ .ret := by
    obtain ⟨y, hy⟩ | ⟨l, idx, hl⟩ := b.scopes.literalInstr_cases b.scope value
    · rw [hy]
      exact ⟨rfl, nofun⟩
    · rw [hl]
      exact ⟨rfl, nofun⟩
  refine ⟨v, b', _, ?_, hbuilt, ?_, ?_, .inr (by rw [hval]; rfl), ?_⟩
  · rw [he, visit, visitLiteral_run]
    exact hrun
  · exact .instr _ _ _ _
  · simpa [Item.size] using Bytecode.size_pos hbc.1
  · intro host callN a env apply hr m hm s r m' h
    exact .instr hbc.1 hbc.2 fun p q => heval hr hm h p q s

/-- The value a unary operation is checked for is there when the operation is defined. -/
theorem isInstanceOf_pair_of_apply {op : UnaryOp} {x y : Value} (hop : op = .car ∨ op = .cdr)
    (h : op.apply x = .ok y) : x.type.isInstanceOf .pair = true := by
  obtain rfl | rfl := hop <;> cases x <;> first | rfl | cases h

theorem toOption_eq_some {α : Type} {x : Except Fault α} {y : α} (h : x.toOption = some y) :
    x = .ok y := by
  cases x with
  | error => cases h
  | ok => exact congrArg _ (Option.some.inj h)

theorem codeFor_unary {op : UnaryOp} {e : CoreExpr} (hf : b.Fresh)
    (ih : ∃ v b' c, CodeFor cfg e b v b' c) : ∃ v b' c, CodeFor cfg (.unary op e) b v b' c := by
  obtain ⟨v₁, b₁, c₁, h₁⟩ := ih
  obtain ⟨v₂, b₂, hrun₂, -, -, hblocks₂, hbuilt₂⟩ := (Built.start hf).append h₁.built
  -- the check that only `car` and `cdr` have
  obtain ⟨v₃, b₃, c₃, hrun₃, hblocks₃, hbuilt₃, hlabels₃, hcomp₃⟩ : ∃ v₃ b₃ c₃,
      (if op = .car ∨ op = .cdr then FlowGraphBuilder.addInstanceOf cfg v₂ .pair else pure v₂) b₂
        = some (v₃, b₃) ∧ b₃.numBlocks = b₂.numBlocks ∧
      Built Anywhere b v₃ b₃ ([] ++ c₁ ++ c₃) ∧ (∀ lo hi, LabelsIn lo hi c₃) ∧
      ∀ host callN (a : Activation) s m x y lo hi, op.apply x = .ok y →
        Computes host callN a c₃ lo hi (x :: s) m (x :: s) m := by
    by_cases hop : op = .car ∨ op = .cdr
    · obtain ⟨v₃, b₃, hrun, -, hblocks, -, hbuilt⟩ := hbuilt₂.addInstanceOf cfg .pair
      exact ⟨v₃, b₃, _, by rw [if_pos hop]; exact hrun, hblocks, hbuilt,
        labelsIn_checkItems cfg _ _, fun _ _ _ _ _ _ _ _ _ hy =>
          computes_checkItems (isInstanceOf_pair_of_apply hop hy)⟩
    · exact ⟨v₂, b₂, [], by rw [if_neg hop]; rfl, rfl, by rwa [List.append_nil],
        fun lo hi => .nil lo hi, fun _ _ _ _ _ _ _ _ _ _ => .nil _ _ _ _⟩
  obtain ⟨v₄, b₄, hrun₄, hval₄, -, -, hblocks₄, hbuilt₄⟩ :=
    hbuilt₃.returnNew (x := .unaryOp op) (l := [.code (.unary op)]) fun _ _ => rfl
  have hle : b.numBlocks ≤ b₁.numBlocks := h₁.built.grown.blocks
  have hblocks : b₄.numBlocks = b₁.numBlocks := by rw [hblocks₄, hblocks₃, hblocks₂]
  refine ⟨v₄, b₄, _, ?_, hbuilt₄, ?_, ?_, .inr (by rw [hval₄]; rfl), ?_⟩
  · rw [CoreExpr.toExpr, visit, Partial.bind_run h₁.run, Partial.bind_run hrun₂]
    by_cases hop : op = .car ∨ op = .cdr
    · rw [if_pos hop] at hrun₃ ⊢
      rw [Partial.bind_run hrun₃]
      exact hrun₄
    · rw [if_neg hop] at hrun₃ ⊢
      rw [Partial.bind_run hrun₃]
      exact hrun₄
  · rw [hblocks]
    exact ((h₁.labels.append (hlabels₃ _ _))).append (.instr _ _ _ _)
  · have := h₁.size_pos
    simp only [List.nil_append, size_append]
    omega
  · intro host callN a env apply hr m hm s r m' h
    simp only [CoreExpr.eval, Option.bind_eq_bind, Option.bind_eq_some_iff, Option.pure_def,
      Option.some.injEq, Prod.mk.injEq] at h
    obtain ⟨⟨x, m₁⟩, hx, y, hy, rfl, rfl⟩ := h
    have hop : op.apply x = .ok y := toOption_eq_some hy
    have hk := CoreExpr.eval_keeps hr hx
    have hchecked : Computes host callN a ([] ++ c₁ ++ c₃) b.numBlocks b₁.numBlocks s m
        (x :: s) m₁ :=
      (h₁.computes host hr hm s hx).append (hcomp₃ host callN a s m₁ x y _ _ hop) hk hle le_rfl
        fun _ h₁ h₂ => absurd h₁ (Nat.not_le.mpr h₂)
    rw [hblocks]
    exact hchecked.snoc hk hle rfl (by simp) fun p q => a.exec_unary hop

/-- The code of the two operands of a binary operation. -/
theorem codeFor_operands {l r : CoreExpr} {b₀ : Builder} {ctx : Graph → Prop} {v : Visitor}
    {c : List Item} (h : Built ctx b₀ v b c)
    (ihl : ∀ b : Builder, b.Fresh → ∃ v b' c, CodeFor cfg l b v b' c)
    (ihr : ∀ b : Builder, b.Fresh → ∃ v b' c, CodeFor cfg r b v b' c) :
    ∃ v₁ b₁ v₂ b₂ v₃ b₃ v₄ b₄ c', visit cfg .value l.toExpr {} b = some (v₁, b₁) ∧
      FlowGraphBuilder.append v v₁ b₁ = some (v₂, b₂) ∧
      visit cfg .value r.toExpr {} b₂ = some (v₃, b₃) ∧
      FlowGraphBuilder.append v₂ v₃ b₃ = some (v₄, b₄) ∧ v₄.value = v.value ∧
      (∀ ctx, Extends ctx b₀ v b v₄ b₄ c') ∧
      b.numBlocks ≤ b₄.numBlocks ∧
      LabelsIn b.numBlocks b₄.numBlocks c' ∧ 0 < size c' ∧
      ∀ (host : Host) {callN a env apply}, ReadsAs callN a apply → ∀ {m},
        env.Holds b.scopes b.scope a m → ∀ s {x m₁ y m₂}, l.eval env apply m = some (x, m₁) →
          r.eval env apply m₁ = some (y, m₂) →
            Computes host callN a c' b.numBlocks b₄.numBlocks s m (y :: x :: s) m₂ := by
  obtain ⟨v₁, b₁, c₁, h₁⟩ := ihl b h.fresh
  obtain ⟨v₂, b₂, hrun₂, hval₂, -, hblocks₂, hbuilt₂⟩ := h.append h₁.built.ofAnywhere
  obtain ⟨v₃, b₃, c₃, h₃⟩ := ihr b₂ hbuilt₂.fresh
  obtain ⟨v₄, b₄, hrun₄, hval₄, -, hblocks₄, -⟩ := hbuilt₂.append h₃.built.ofAnywhere
  have hle₁ : b.numBlocks ≤ b₂.numBlocks := hblocks₂ ▸ h₁.built.grown.blocks
  have hle₂ : b₂.numBlocks ≤ b₄.numBlocks := hblocks₄ ▸ h₃.built.grown.blocks
  have hlabels₁ : LabelsIn b.numBlocks b₂.numBlocks c₁ := hblocks₂ ▸ h₁.labels
  have hlabels₃ : LabelsIn b₂.numBlocks b₄.numBlocks c₃ := hblocks₄ ▸ h₃.labels
  refine ⟨v₁, b₁, v₂, b₂, v₃, b₃, v₄, b₄, c₁ ++ c₃, h₁.run, hrun₂, h₃.run, hrun₄,
    hval₄.trans hval₂, fun ctx => ?_, hle₁.trans hle₂, ?_, ?_, ?_⟩
  · exact (Extends.append h₁.built.ofAnywhere hrun₂).trans (.append h₃.built.ofAnywhere hrun₄)
  · exact (hlabels₁.mono le_rfl hle₂).append (hlabels₃.mono hle₁ le_rfl)
  · have := h₁.size_pos
    rw [size_append]
    omega
  · intro host callN a env apply hr m hm s x m₁ y m₂ hx hy
    have hk := CoreExpr.eval_keeps hr hx
    have hm₂ : env.Holds b₂.scopes b₂.scope a m₁ := by
      rw [hbuilt₂.grown.scopes, hbuilt₂.grown.scope, ← h.grown.scopes, ← h.grown.scope]
      exact hm.keeps hk
    have hfirst : Computes host callN a c₁ b.numBlocks b₂.numBlocks s m (x :: s) m₁ :=
      hblocks₂ ▸ h₁.computes host hr hm s hx
    have hsecond : Computes host callN a c₃ b₂.numBlocks b₄.numBlocks (x :: s) m₁ (y :: x :: s) m₂ :=
      hblocks₄ ▸ h₃.computes host hr hm₂ (x :: s) hy
    exact hfirst.append hsecond hk hle₁ hle₂ fun l h₁ _ => hlabels₁.not_bind (.inr h₁)

theorem codeFor_binary {op : BinaryOp} {l r : CoreExpr} (hf : b.Fresh)
    (ihl : ∀ b : Builder, b.Fresh → ∃ v b' c, CodeFor cfg l b v b' c)
    (ihr : ∀ b : Builder, b.Fresh → ∃ v b' c, CodeFor cfg r b v b' c) :
    ∃ v b' c, CodeFor cfg (.binary op l r) b v b' c := by
  obtain ⟨v₁, b₁, v₂, b₂, v₃, b₃, v₄, b₄, c, hrun₁, hrun₂, hrun₃, hrun₄, -, hbuilt₄, hle, hlabels,
    hpos, hcomp⟩ := codeFor_operands (Built.start hf : Built Anywhere b {} b []) ihl ihr
  obtain ⟨v₅, b₅, hrun₅, hval₅, -, -, hblocks₅, hbuilt₅⟩ :=
    ((hbuilt₄ _).built (.start hf)).returnNew (x := .binaryOp op) (l := [.code (.binary op)]) fun _ _ => rfl
  refine ⟨v₅, b₅, _, ?_, hbuilt₅, ?_, ?_, .inr (by rw [hval₅]; rfl), ?_⟩
  · rw [CoreExpr.toExpr, visit, Partial.bind_run hrun₁, Partial.bind_run hrun₂, Partial.bind_run hrun₃,
      Partial.bind_run hrun₄]
    exact hrun₅
  · rw [hblocks₅]
    exact hlabels.append (.instr _ _ _ _)
  · simp only [List.nil_append, size_append]
    omega
  · intro host callN a env apply hr m hm s z m' h
    simp only [CoreExpr.eval, Option.bind_eq_bind, Option.bind_eq_some_iff, Option.pure_def,
      Option.some.injEq, Prod.mk.injEq] at h
    obtain ⟨⟨x, m₁⟩, hx, ⟨y, m₂⟩, hy, z', hz, rfl, rfl⟩ := h
    have hop : op.apply x y = .ok z' := toOption_eq_some hz
    have hk := (CoreExpr.eval_keeps hr hx).trans (CoreExpr.eval_keeps hr hy)
    rw [hblocks₅]
    exact (hcomp host hr hm s hx hy).snoc hk hle rfl (by simp) fun p q => a.exec_binary hop

/-- The code of arguments. -/
theorem codeForAll {es : List CoreExpr}
    (ih : ∀ e ∈ es, ∀ b : Builder, b.Fresh → ∃ v b' c, CodeFor cfg e b v b' c) {b₀ : Builder}
    {v : Visitor} {c : List Item} (h : Built Anywhere b₀ v b c) :
    ∃ v' b' c', CodeForAll cfg es b₀ v c b v' b' c' := by
  induction es generalizing v b c with
  | nil =>
      refine ⟨v, b, [], rfl, by rwa [List.append_nil], le_rfl, .nil _ _, le_rfl, rfl, ?_⟩
      intro host callN a env apply hr m hm s rs m' he
      cases he
      exact .nil _ _ _ _
  | cons e es ihs =>
      obtain ⟨v₁, b₁, c₁, h₁⟩ := ih e List.mem_cons_self b h.fresh
      obtain ⟨v₂, b₂, hrun₂, hval₂, -, hblocks₂, hbuilt₂⟩ := h.append h₁.built
      obtain ⟨v₃, b₃, c₃, h₃⟩ := ihs (fun x hx => ih x (List.mem_cons_of_mem _ hx)) hbuilt₂
      have hle : b.numBlocks ≤ b₂.numBlocks := hblocks₂ ▸ h₁.built.grown.blocks
      have hlabels₁ : LabelsIn b.numBlocks b₂.numBlocks c₁ := hblocks₂ ▸ h₁.labels
      refine ⟨v₃, b₃, c₁ ++ c₃, ?_, by rw [← List.append_assoc]; exact h₃.built,
        hle.trans h₃.blocks, ?_, ?_, h₃.value.trans hval₂, ?_⟩
      · rw [CoreExpr.toExprs, visitArgs, if_pos h.isOpen, Partial.bind_run h₁.run,
          Partial.bind_run hrun₂]
        exact h₃.run
      · exact (hlabels₁.mono le_rfl h₃.blocks).append (h₃.labels.mono hle le_rfl)
      · have := h₁.size_pos
        have := h₃.size_le
        rw [size_append, List.length_cons]
        omega
      · intro host callN a env apply hr m hm s rs m' he
        simp only [CoreExpr.evalAll, Option.bind_eq_bind, Option.bind_eq_some_iff, Option.pure_def,
          Option.some.injEq, Prod.mk.injEq] at he
        obtain ⟨⟨x, m₁⟩, hx, ⟨xs, m₂⟩, hxs, rfl, rfl⟩ := he
        have hk := CoreExpr.eval_keeps hr hx
        have hm₂ : env.Holds b₂.scopes b₂.scope a m₁ := by
          rw [hbuilt₂.grown.scopes, hbuilt₂.grown.scope, ← h.grown.scopes, ← h.grown.scope]
          exact hm.keeps hk
        have hfirst : Computes host callN a c₁ b.numBlocks b₂.numBlocks s m (x :: s) m₁ :=
          hblocks₂ ▸ h₁.computes host hr hm s hx
        have hrest := h₃.computes host hr hm₂ (x :: s) hxs
        have hall := hfirst.append hrest hk hle h₃.blocks fun l h₁ _ => hlabels₁.not_bind (.inr h₁)
        simpa using hall

/-- A call target that is a literal is one instruction. -/
theorem visit_literal_start (value : Value) (b : Builder) :
    visit cfg .value (.literal value) {} b =
      some (⟨some b.graph.size, some b.graph.size, some b.graph.size⟩,
        b.alloc (b.scopes.literalInstr b.scope value)) := by
  rw [visit, visitLiteral_run]
  rfl

/-- What is emitted for a call names no label. -/
theorem labelsIn_callItems (cfg : Config) (f : Option Value) (d k : InstrId) {is : List Item}
    (n : UInt64) {lo hi : BlockId} (h : LabelsIn lo hi is) :
    LabelsIn lo hi (callItems cfg f d k is n) := by
  unfold callItems
  split
  · exact .instr _ _ lo hi
  · exact .instr _ _ lo hi
  · refine .cons nofun (h.append ((labelsIn_checkItems cfg _ _ lo hi).append ?_))
    exact .cons nofun (.cons nofun ((labelsIn_checkItems cfg _ _ lo hi).append (.instr _ _ lo hi)))

theorem size_callItems_pos (cfg : Config) (f : Option Value) (d k : InstrId) (is : List Item)
    (n : UInt64) : 0 < size (callItems cfg f d k is n) := by
  unfold callItems
  split
  · simpa [Item.size] using Bytecode.size_pos rfl
  · simpa [Item.size] using Bytecode.size_pos rfl
  · have : 0 < Bytecode.lookup.size := Bytecode.size_pos rfl
    simp only [size_cons, size_append, Item.size]
    omega

/-- A call of a constant procedure does what the procedure does. -/
theorem computes_callItems {host : Host} {callN : Interpreter.CallWithNArgs} {a : Activation}
    {apply : Application} (hr : ReadsAs callN a apply) {f : Value} (hf : f.isProcedure = true)
    {d k : InstrId} {is : List Item} {args : List Value} {s : List Value} {m m' : Memory} {r : Value}
    {lo hi : BlockId} (hlt : args.length < 2 ^ 64) (happ : apply f args m = some (r, m')) :
    Computes host callN a (callItems cfg (some f) d k is (.ofNat args.length)) lo hi
      (args.reverse ++ s) m (r :: s) m' := by
  have hn : (UInt64.ofNat args.length).toNat = args.length := by
    rw [UInt64.toNat_ofNat', Nat.mod_eq_of_lt hlt]
  cases f with
  | native x =>
      refine .instr rfl nofun fun p q => ?_
      rw [a.exec_invokeNative hf, hn, hr.returns q s happ]
  | lambda id =>
      refine .instr rfl nofun fun p q => ?_
      rw [a.exec_invoke hf, hn, hr.returns q s happ]
  | _ => cases hf

theorem codeFor_call {target : Value} {args : List CoreExpr} (hfr : b.Fresh)
    (ih : ∀ e ∈ args, ∀ b : Builder, b.Fresh → ∃ v b' c, CodeFor cfg e b v b' c) :
    ∃ v b' c, CodeFor cfg (.call target args) b v b' c := by
  obtain ⟨v₁, b₁, c₁, h₁⟩ := codeForAll ih (Built.start hfr)
  have hx := b₁.instr?_alloc (b₁.scopes.literalInstr b₁.scope target)
  obtain ⟨v₂, b₂, hrun₂, hval₂, hblocks₂, hbuilt₂⟩ := h₁.built.returnCallTo cfg
    (.ofNat (CoreExpr.toExprs args).length) (grown_alloc _ _ _) le_rfl hx
    (Scopes.literalInstr_straight _ _ _ _) (h₁.built.fresh _ le_rfl)
  have hblocks : b₂.numBlocks = b₁.numBlocks := hblocks₂
  refine ⟨v₂, b₂, _, ?_, hbuilt₂, ?_, ?_, .inr hval₂, ?_⟩
  · rw [CoreExpr.toExpr, visit, Partial.bind_run h₁.run, Partial.bind_run (visit_literal_start _ _)]
    exact hrun₂
  · rw [hblocks]
    exact h₁.labels.append (labelsIn_callItems cfg _ _ _ _ (.cons (fun _ hl => by cases hl) (.nil _ _)))
  · have := size_callItems_pos cfg ((b₁.alloc (b₁.scopes.literalInstr b₁.scope target)).graph.constantValue
      b₁.graph.size) b₁.graph.size (b₁.alloc (b₁.scopes.literalInstr b₁.scope target)).graph.size
      [.code (literalCode (b₁.scopes.literalInstr b₁.scope target))]
      (.ofNat (CoreExpr.toExprs args).length)
    rw [size_append]
    omega
  · intro host callN a env apply hr m hm s r m' h
    simp only [CoreExpr.eval, Option.bind_eq_bind, Option.bind_eq_some_iff] at h
    obtain ⟨⟨vs, m₁⟩, hvs, f, hf, happ⟩ := h
    obtain ⟨hconst, hproc⟩ := hm.procedure hf
    rw [← h₁.built.grown.scopes, ← h₁.built.grown.scope] at hconst
    have hlen := CoreExpr.length_evalAll hvs
    have hargs := h₁.computes host hr hm s hvs
    have hk := CoreExpr.evalAll_keeps hr hvs
    have hvalue : (b₁.alloc (b₁.scopes.literalInstr b₁.scope target)).graph.constantValue
        b₁.graph.size = some f := by
      rw [Graph.constantValue, hx, hconst]
    rw [hblocks, hvalue, CoreExpr.length_toExprs, ← hlen]
    intro pre post hfree hl
    have hlt : vs.length < 2 ^ 64 := by
      have hsize := hl.size_lt
      have := h₁.size_le
      simp only [size_append] at hsize
      omega
    exact (hargs.append (computes_callItems hr hproc hlt happ) hk h₁.blocks le_rfl
      fun _ h₁ h₂ => absurd h₁ (Nat.not_le.mpr h₂)) pre post hfree hl

end Cases

end Gel
