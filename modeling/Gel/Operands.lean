import Gel.Counting

/-!
# Operands — the code of the forms without a branch

`Visits cfg names m e`: where the expression `e` is counted, the visitor builds code that leaves
what is counted.  One lemma for each form; a form that calls says where its arguments lie
(`calls_callProc`, `calls_list`, `calls_new`).
-/

namespace Gel

open FlowGraphCompiler FlowGraphBuilder

/-- Where an expression is counted, the visitor builds code that leaves what is counted. -/
def Visits (cfg : Config) (names : Names) (m : Mode) (e : Expr) : Prop :=
  ∀ (k : Int) (b : Builder), b.Fresh → (b.scopes, b.scope) = names →
    e.leaves cfg names m = some k → ∃ v b', visit cfg m e {} b = some (v, b') ∧ Stacks b v b' k

section Straight

variable {cfg : Config} {names : Names} {m : Mode} {b₀ b : Builder} {v : Visitor} {k k₀ : Int}
  {e l r : Expr} {es : List Expr}

/-- The code of an expression, appended. -/
theorem Visits.append (ih : Visits cfg names m e) (h : Stacks b₀ v b k₀)
    (hn : (b₀.scopes, b₀.scope) = names) (hk : e.leaves cfg names m = some k) :
    ∃ v₁ b₁ v₂ b₂, visit cfg m e {} b = some (v₁, b₁) ∧
      FlowGraphBuilder.append v v₁ b₁ = some (v₂, b₂) ∧ Stacks b₀ v₂ b₂ (k₀ + k) := by
  obtain ⟨v₁, b₁, hrun₁, h₁⟩ := ih k b h.fresh (h.names.trans hn) hk
  obtain ⟨v₂, b₂, hrun₂, h₂⟩ := h.append h₁
  exact ⟨v₁, b₁, v₂, b₂, hrun₁, hrun₂, h₂⟩

/-- **A loop of visitors**, each appended. -/
theorem visits_loop {f : List Expr → Visitor → Build Visitor} (hnil : ∀ v, f [] v = pure v)
    (hcons : ∀ e es v, f (e :: es) v
      = if v.isOpen then do f es (← append v (← visit cfg m e {})) else pure v)
    (ih : ∀ e ∈ es, Visits cfg names m e) (h : Stacks b₀ v b k₀)
    (hn : (b₀.scopes, b₀.scope) = names) (hk : Expr.leavesAll cfg names m es = some k) :
    ∃ v' b', f es v b = some (v', b') ∧ Stacks b₀ v' b' (k₀ + k) := by
  induction es generalizing v b k k₀ with
  | nil =>
      rw [Expr.leavesAll, Option.some.injEq] at hk
      rw [hnil, ← hk, add_zero]
      exact ⟨v, b, rfl, h⟩
  | cons e es ihs =>
      simp only [Expr.leavesAll, Option.bind_eq_bind, Option.bind_eq_some_iff, Option.pure_def,
        Option.some.injEq] at hk
      obtain ⟨k₁, hk₁, k₂, hk₂, rfl⟩ := hk
      obtain ⟨v₁, b₁, v₂, b₂, hrun₁, hrun₂, h₂⟩ := (ih e List.mem_cons_self).append h hn hk₁
      obtain ⟨v₃, b₃, hrun₃, h₃⟩ := ihs (fun x hx => ih x (List.mem_cons_of_mem _ hx)) h₂ hk₂
      refine ⟨v₃, b₃, ?_, by rwa [← add_assoc]⟩
      rw [hcons, if_pos h.isOpen, Partial.bind_run hrun₁, Partial.bind_run hrun₂]
      exact hrun₃

theorem visits_args (ih : ∀ e ∈ es, Visits cfg names .value e) (h : Stacks b₀ v b k₀)
    (hn : (b₀.scopes, b₀.scope) = names) (hk : Expr.leavesAll cfg names .value es = some k) :
    ∃ v' b', visitArgs cfg es v b = some (v', b') ∧ Stacks b₀ v' b' (k₀ + k) :=
  visits_loop (fun _ => by rw [visitArgs]) (fun _ _ _ => by rw [visitArgs]) ih h hn hk

/-- The instruction of a literal pushes one value. -/
theorem literalCode_pushes (names : Names) (value : Value) :
    (Item.code (literalCode (names.1.literalInstr names.2 value))).Continues ∧
      (literalCode (names.1.literalInstr names.2 value)).pushes = 1 ∧
      (literalCode (names.1.literalInstr names.2 value)).pops = 0 := by
  obtain ⟨y, hy⟩ | ⟨l, idx, hl⟩ := names.1.literalInstr_cases names.2 value
  · rw [hy]
    exact ⟨trivial, rfl, rfl⟩
  · rw [hl]
    exact ⟨trivial, rfl, rfl⟩

theorem visits_literal (value : Value) : Visits cfg names m (.literal value) := by
  rintro k b hf rfl hk
  obtain ⟨hcont, hpushes, hpops⟩ := literalCode_pushes (b.scopes, b.scope) value
  obtain ⟨v', b', hrun, h'⟩ := (Stacks.start hf).returnNew m _ _
    (b.scopes.literalInstr_straight b.scope value _) hcont
  rw [visit, visitLiteral_run]
  refine ⟨v', b', hrun, ?_⟩
  rw [hpushes, hpops, zero_add] at h'
  rw [Expr.leaves] at hk
  obtain ⟨y, hy⟩ | ⟨l, idx, hl⟩ := b.scopes.literalInstr_cases b.scope value
  · rw [hy] at h' hk
    cases hk
    cases m <;> exact h'
  · rw [hl] at h' hk
    cases hk
    exact h'

theorem visits_quoted (value : Value) : Visits cfg names m (.quoted value) := by
  rintro k b hf rfl hk
  rw [Expr.leaves] at hk
  cases hk
  obtain ⟨v', b', hrun, h'⟩ := (Stacks.start hf).returnConstant m value
  rw [visit]
  exact ⟨v', b', hrun, zero_add m.constantLeaves ▸ h'⟩

theorem visits_unary {op : UnaryOp} (ih : Visits cfg names .value e) :
    Visits cfg names m (.unary op e) := by
  intro k b hf hn hk
  rw [Expr.leaves] at hk
  obtain ⟨v₁, b₁, v₂, b₂, hrun₁, hrun₂, h₂⟩ := ih.append (.start hf) hn hk
  -- the check that only `car` and `cdr` have
  obtain ⟨v₃, b₃, hrun₃, h₃⟩ : ∃ v₃ b₃,
      (if op = .car ∨ op = .cdr then FlowGraphBuilder.addInstanceOf cfg v₂ .pair else pure v₂) b₂
        = some (v₃, b₃) ∧ Stacks b v₃ b₃ (0 + k) := by
    by_cases hop : op = .car ∨ op = .cdr
    · rw [if_pos hop]
      exact h₂.addInstanceOf cfg .pair
    · rw [if_neg hop]
      exact ⟨v₂, b₂, rfl, h₂⟩
  obtain ⟨v₄, b₄, hrun₄, h₄⟩ := h₃.returnNew m (.unaryOp op) (.unary op)
    (fun _ _ => rfl) trivial
  refine ⟨v₄, b₄, ?_, by simpa [Mode.drops, Bytecode.pushes, Bytecode.pops] using h₄⟩
  rw [visit, Partial.bind_run hrun₁, Partial.bind_run hrun₂]
  by_cases hop : op = .car ∨ op = .cdr
  · rw [if_pos hop] at hrun₃ ⊢
    rw [Partial.bind_run hrun₃]
    exact hrun₄
  · rw [if_neg hop] at hrun₃ ⊢
    rw [Partial.bind_run hrun₃]
    exact hrun₄

theorem visits_binaryOp {op : BinaryOp} (ihl : Visits cfg names .value l)
    (ihr : Visits cfg names .value r) : Visits cfg names m (.binaryOp op l r) := by
  intro k b hf hn hk
  simp only [Expr.leaves, Option.bind_eq_bind, Option.bind_eq_some_iff, Option.pure_def,
    Option.some.injEq] at hk
  obtain ⟨kl, hkl, kr, hkr, rfl⟩ := hk
  obtain ⟨v₁, b₁, v₂, b₂, hrun₁, hrun₂, h₂⟩ := ihl.append (.start hf) hn hkl
  obtain ⟨v₃, b₃, v₄, b₄, hrun₃, hrun₄, h₄⟩ := ihr.append h₂ hn hkr
  obtain ⟨v₅, b₅, hrun₅, h₅⟩ := h₄.returnNew m (.binaryOp op) (.binary op)
    (fun _ _ => rfl) trivial
  refine ⟨v₅, b₅, ?_, ?_⟩
  · rw [visit, Partial.bind_run hrun₁, Partial.bind_run hrun₂, Partial.bind_run hrun₃,
      Partial.bind_run hrun₄]
    exact hrun₅
  · simpa [Mode.drops, Bytecode.pushes, Bytecode.pops, add_assoc, sub_eq_add_neg] using h₅

theorem visits_begin (ih : ∀ e ∈ es, Visits cfg names .effect e) :
    Visits cfg names m (.begin es) := by
  intro k b hf hn hk
  rw [Expr.leaves] at hk
  obtain ⟨v', b', hrun, h'⟩ := visits_loop (f := visitSequence cfg)
    (fun _ => by rw [visitSequence]) (fun _ _ _ => by rw [visitSequence]) ih (.start hf) hn hk
  rw [visit]
  exact ⟨v', b', hrun, zero_add k ▸ h'⟩

theorem storeLocal_run {l : LocalId} {x : LocalVariable} (hl : b.scopes.locals[l]? = some x) :
    storeLocal l b = some (.storeLocal l x.index, b) := by
  rw [storeLocal, Partial.get_bind, hl]
  rfl

/-- A definition and an assignment: what is left of the value is stored. -/
theorem visits_store {e' : Expr} {l : LocalId} (ih : Visits cfg names .value e)
    (hvisit : ∀ v, visit cfg m e' v = do
      let v ← FlowGraphBuilder.append v (← visit cfg .value e {})
      FlowGraphBuilder.addNew v (← storeLocal l))
    (hleaves : e'.leaves cfg names m = do
      let k ← e.leaves cfg names .value
      if l < names.1.locals.length then some (k - 1) else none) : Visits cfg names m e' := by
  intro k b hf hn hk
  rw [hleaves] at hk
  simp only [Option.bind_eq_bind, Option.bind_eq_some_iff] at hk
  obtain ⟨ke, hke, hk⟩ := hk
  split at hk
  next hl =>
      cases hk
      obtain ⟨v₁, b₁, v₂, b₂, hrun₁, hrun₂, h₂⟩ := ih.append (.start hf) hn hke
      have hx : b₂.scopes.locals[l]? = some names.1.locals[l] := by
        rw [← List.getElem?_eq_getElem hl, ← hn, ← h₂.names]
      obtain ⟨v₃, b₃, hrun₃, h₃⟩ := h₂.addNew (.storeLocal l names.1.locals[l].index)
        (.storeLocal names.1.locals[l].index) (fun _ _ => rfl) trivial
      refine ⟨v₃, b₃, ?_, by simpa [Bytecode.pushes, Bytecode.pops, sub_eq_add_neg] using h₃⟩
      rw [hvisit, Partial.bind_run hrun₁, Partial.bind_run hrun₂,
        Partial.bind_run (storeLocal_run hx)]
      exact hrun₃
  next => cases hk

theorem visits_setField {field : Value} {inst : Expr} (ih : Visits cfg names .value e)
    (ihi : Visits cfg names .value inst) : Visits cfg names m (.setField field inst e) := by
  intro k b hf hn hk
  simp only [Expr.leaves, Option.bind_eq_bind, Option.bind_eq_some_iff, Option.pure_def,
    Option.some.injEq] at hk
  obtain ⟨ke, hke, ki, hki, rfl⟩ := hk
  obtain ⟨v₁, b₁, v₂, b₂, hrun₁, hrun₂, h₂⟩ := ih.append (.start hf) hn hke
  obtain ⟨v₃, b₃, v₄, b₄, hrun₃, hrun₄, h₄⟩ := ihi.append h₂ hn hki
  obtain ⟨v₅, b₅, hrun₅, h₅⟩ := h₄.addNew (.storeField field) (.storeField field)
    (fun _ _ => rfl) trivial
  refine ⟨v₅, b₅, ?_, ?_⟩
  · rw [visit, Partial.bind_run hrun₁, Partial.bind_run hrun₂, Partial.bind_run hrun₃,
      Partial.bind_run hrun₄]
    exact hrun₅
  · simpa [Bytecode.pushes, Bytecode.pops, add_assoc, sub_eq_add_neg] using h₅

/-- A value and an instruction that makes another value of it. -/
theorem visits_convert {e' : Expr} {x : Instr} {bc : Bytecode} {d : Int}
    (ih : Visits cfg names .value e) (hvisit : ∀ v, visit cfg m e' v = do
      let v ← FlowGraphBuilder.append v (← visit cfg .value e {})
      FlowGraphBuilder.returnNew m v x)
    (hleaves : ∀ k, e'.leaves cfg names m = some k →
      ∃ ke, e.leaves cfg names .value = some ke ∧ k = ke + d)
    (hx : ∀ h, Straight h x [.code bc]) (hdrop : m.drops x = false)
    (hbc : (Item.code bc).Continues) (hd : (bc.pushes - bc.pops : Int) = d) :
    Visits cfg names m e' := by
  intro k b hf hn hk
  obtain ⟨ke, hke, rfl⟩ := hleaves k hk
  obtain ⟨v₁, b₁, v₂, b₂, hrun₁, hrun₂, h₂⟩ := ih.append (.start hf) hn hke
  obtain ⟨v₃, b₃, hrun₃, h₃⟩ := h₂.returnNew m x bc (hx _) hbc
  rw [hdrop, hd, zero_add] at h₃
  refine ⟨v₃, b₃, ?_, h₃⟩
  rw [hvisit, Partial.bind_run hrun₁, Partial.bind_run hrun₂]
  exact hrun₃

theorem visits_loadField {field : Value} (ih : Visits cfg names .value e) :
    Visits cfg names m (.loadField e field) := by
  refine visits_convert (x := .loadField field) (d := 0) ih (fun v => by rw [visit])
    (fun k hk => ?_) (fun _ _ _ => rfl) rfl trivial rfl
  rw [Expr.leaves] at hk
  exact ⟨k, hk, (add_zero k).symm⟩

theorem visits_cast {c : ClassId} (ih : Visits cfg names .value e) :
    Visits cfg names m (.cast c e) := by
  refine visits_convert (x := .cast c) (d := -1 + if c = .observable then 1 else 0) ih
    (fun v => by rw [visit]) (fun k hk => ?_) (fun _ _ _ => rfl) rfl trivial ?_
  · simp only [Expr.leaves, Option.bind_eq_bind, Option.bind_eq_some_iff, Option.pure_def,
      Option.some.injEq] at hk
    obtain ⟨ke, hke, rfl⟩ := hk
    exact ⟨ke, hke, by ring⟩
  · by_cases hc : c = .observable
    · simp [Bytecode.pushes, Bytecode.pops, hc]
    · simp [Bytecode.pushes, Bytecode.pops, hc]

theorem visits_import : Visits cfg names m .import := by
  intro k b hf hn hk
  rw [Expr.leaves] at hk
  cases hk
  exact ⟨{}, b, rfl, .start hf⟩

/-- The definition of a call target that is one instruction. -/
theorem targetInstr_run (cfg : Config) {target : Expr} {x : Instr}
    (h : target.targetInstr names = some x) (hn : (b.scopes, b.scope) = names) :
    visit cfg .value target {} b = some (⟨some b.graph.size, some b.graph.size,
      some b.graph.size⟩, b.alloc x) ∧ ∃ bc, (∀ h, Straight h x [.code bc]) ∧
        (Item.code bc).Continues ∧ bc.pushes = bc.pops + 1 := by
  subst hn
  cases target with
  | literal value =>
      cases h
      obtain ⟨hcont, hpushes, hpops⟩ := literalCode_pushes (b.scopes, b.scope) value
      exact ⟨visit_literal_start value b, _, b.scopes.literalInstr_straight b.scope value, hcont,
        by rw [hpushes, hpops]⟩
  | quoted value =>
      cases h
      refine ⟨?_, .push value, fun _ _ _ => rfl, trivial, rfl⟩
      rw [visit]
      rfl
  | _ => cases h

/-- **A call**: its arguments and what is emitted for it. -/
theorem calls_callProc {target : Expr} {x : Instr} (ih : ∀ e ∈ es, Visits cfg names .value e)
    (hf : b.Fresh) (hn : (b.scopes, b.scope) = names) (ht : target.targetInstr names = some x)
    (hk : Expr.leavesAll cfg names .value es = some k) :
    ∃ v b', visit cfg m (.callProc target es) {} b = some (v, b') ∧
      Calling b v b' k (Expr.count es) := by
  obtain ⟨v₁, b₁, hrun₁, h₁⟩ := visits_args ih (.start hf) hn hk
  rw [zero_add] at h₁
  obtain ⟨hrun₂, bc, hx, hbc, hone⟩ := targetInstr_run cfg ht (h₁.names.trans hn)
  obtain ⟨v₃, b₃, hrun₃, h₃⟩ := h₁.returnCallTo cfg m (.ofNat es.length) x bc (hx _) hbc hone
  refine ⟨v₃, b₃, ?_, h₃⟩
  rw [visit, Partial.bind_run hrun₁, Partial.bind_run hrun₂]
  exact hrun₃

/-- Whether an expression is constant is asked in the names of the builder. -/
theorem isConstantExpr_bind {β : Type} (e : Expr) (f g : Build β) (b : Builder) :
    (do if ← FlowGraphBuilder.isConstantExpr cfg e then f else g : Build β) b
      = if e.isConstantIn cfg (b.scopes, b.scope) then f b else g b := by
  change (if e.isConstantIn cfg (b.scopes, b.scope) then f else g) b = _
  split
  · rfl
  · rfl

theorem evalToConstant_bind {β : Type} (e : Expr) (f : Option Value → Build β) (b : Builder) :
    (do f (← FlowGraphBuilder.evalToConstant cfg e) : Build β) b
      = match e.evalToConstant cfg b.scopes b.scope with
        | some y => f y b
        | none => none := by
  have hrun : FlowGraphBuilder.evalToConstant cfg e b
      = (e.evalToConstant cfg b.scopes b.scope).map fun y => (y, b) := by
    rw [FlowGraphBuilder.evalToConstant, Partial.get_bind]
    cases e.evalToConstant cfg b.scopes b.scope <;> rfl
  cases hv : e.evalToConstant cfg b.scopes b.scope with
  | none =>
      rw [hv] at hrun
      exact Partial.bind_run_none hrun
  | some y =>
      rw [hv] at hrun
      exact Partial.bind_run hrun

/-- **A list** that is not constant is a call. -/
theorem calls_list (ih : ∀ e ∈ es, Visits cfg names .value e) (hf : b.Fresh)
    (hn : (b.scopes, b.scope) = names) (hc : (Expr.list es).isConstantIn cfg names = false)
    (hk : Expr.leavesAll cfg names .value es = some k) :
    ∃ v b', visit cfg m (.list es) {} b = some (v, b') ∧ Calling b v b' k (Expr.count es) := by
  obtain ⟨v₁, b₁, hrun₁, h₁⟩ := visits_args ih (.start hf) hn hk
  rw [zero_add] at h₁
  obtain ⟨v₃, b₃, hrun₃, h₃⟩ := h₁.returnCallTo cfg m (.ofNat es.length)
    (.constant (.native listSymbol)) (.push (.native listSymbol)) (fun _ _ => rfl) trivial rfl
  refine ⟨v₃, b₃, ?_, h₃⟩
  rw [visit, isConstantExpr_bind, hn, if_neg (by simp [hc]), Partial.bind_run hrun₁,
    Partial.bind_run (newInstr_alloc _ _)]
  exact hrun₃

/-- A new operation that takes what the visitor has left. -/
theorem Stacks.returnCalling {x : Instr} {bc : Bytecode} {n : UInt64} (h : Stacks b₀ v b k)
    (hx : Straight (b.alloc x).graph x [.code bc]) (hdrop : m.drops x = false)
    (hcall : bc.isCall = true) (hn : bc.pops = n.toNat) :
    ∃ v' b', FlowGraphBuilder.returnNew m v x b = some (v', b') ∧ Calling b₀ v' b' k n.toNat := by
  obtain ⟨c, hbuilt, hlabels, hleaves⟩ := h
  obtain ⟨v', b', hrun, hblocks, hbuilt'⟩ := hbuilt.return m hx
  rw [if_neg (by simp [hdrop])] at hbuilt'
  exact ⟨v', b', hrun, .of_built hbuilt' (hblocks ▸ hlabels) hleaves hcall hn⟩

/-- **A new instance** of something that is not constant. -/
theorem calls_new {c : ClassId} (ih : ∀ e ∈ es, Visits cfg names .value e) (hf : b.Fresh)
    (hn : (b.scopes, b.scope) = names) (hc : (Expr.new c es).isConstantIn cfg names = false)
    (hk : Expr.leavesAll cfg names .value es = some k) :
    ∃ v b', visit cfg m (.new c es) {} b = some (v, b') ∧ Calling b v b' k (Expr.count es) := by
  obtain ⟨v₁, b₁, hrun₁, h₁⟩ := visits_args ih (.start hf) hn hk
  rw [zero_add] at h₁
  obtain ⟨v₃, b₃, hrun₃, h₃⟩ := h₁.returnCalling (x := .new c (.ofNat es.length)) (m := m)
    (fun _ _ => rfl) rfl rfl rfl
  refine ⟨v₃, b₃, ?_, h₃⟩
  rw [visit, isConstantExpr_bind, hn, if_neg (by simp [hc]), Partial.bind_run hrun₁]
  exact hrun₃

/-- **A constant without an instance** is made of arguments that are not there. -/
theorem calls_new_null {c : ClassId} (hf : b.Fresh) (hn : (b.scopes, b.scope) = names)
    (hc : (Expr.new c es).isConstantIn cfg names = true)
    (he : (Expr.new c es).evalToConstant cfg names.1 names.2 = some none) :
    ∃ v b', visit cfg m (.new c es) {} b = some (v, b') ∧ Calling b v b' 0 (Expr.count es) := by
  obtain ⟨v₃, b₃, hrun₃, h₃⟩ := (Stacks.start hf).returnCalling (x := .new c (.ofNat es.length))
    (m := m) (fun _ _ => rfl) rfl rfl rfl
  refine ⟨v₃, b₃, ?_, h₃⟩
  subst hn
  rw [visit, isConstantExpr_bind, if_pos hc, evalToConstant_bind, he]
  exact hrun₃

/-- An expression that is evaluated when it is compiled. -/
theorem visits_constant {y : Value} {e : Expr} {f : Build Visitor} (g : Build Visitor)
    (hvisit : visit cfg m e {} = do
      if ← FlowGraphBuilder.isConstantExpr cfg e then
        match ← FlowGraphBuilder.evalToConstant cfg e with
        | some y => FlowGraphBuilder.returnNew m {} (.constant y)
        | none => g
      else f)
    (hf : b.Fresh) (hn : (b.scopes, b.scope) = names) (hc : e.isConstantIn cfg names = true)
    (he : e.evalToConstant cfg names.1 names.2 = some (some y)) :
    ∃ v b', visit cfg m e {} b = some (v, b') ∧ Stacks b v b' m.constantLeaves := by
  obtain ⟨v', b', hrun, h'⟩ := (Stacks.start hf).returnConstant m y
  refine ⟨v', b', ?_, zero_add m.constantLeaves ▸ h'⟩
  subst hn
  rw [hvisit, isConstantExpr_bind, if_pos hc, evalToConstant_bind, he]
  exact hrun

theorem visits_list (ih : ∀ e ∈ es, Visits cfg names .value e) : Visits cfg names m (.list es) := by
  intro k b hf hn hk
  rw [Expr.leaves] at hk
  split at hk
  next hc =>
      split at hk
      next y he =>
          cases hk
          exact visits_constant failure rfl hf hn hc he
      next => cases hk
  next hc =>
      simp only [Option.bind_eq_bind, Option.bind_eq_some_iff, Option.pure_def,
        Option.some.injEq] at hk
      obtain ⟨ka, hka, rfl⟩ := hk
      obtain ⟨v, b', hrun, h⟩ := calls_list ih hf hn (by simpa using hc) hka
      exact ⟨v, b', hrun, h.counts⟩

theorem visits_new {c : ClassId} (ih : ∀ e ∈ es, Visits cfg names .value e) :
    Visits cfg names m (.new c es) := by
  intro k b hf hn hk
  rw [Expr.leaves] at hk
  split at hk
  next hc =>
      split at hk
      next y he =>
          cases hk
          exact visits_constant _ rfl hf hn hc he
      next he =>
          cases hk
          obtain ⟨v, b', hrun, h⟩ := calls_new_null (m := m) hf hn hc he
          have hcount := h.counts
          rw [show (0 : Int) - Expr.count es + 1 = 1 - Expr.count es by ring] at hcount
          exact ⟨v, b', hrun, hcount⟩
      next => cases hk
  next hc =>
      simp only [Option.bind_eq_bind, Option.bind_eq_some_iff, Option.pure_def,
        Option.some.injEq] at hk
      obtain ⟨ka, hka, rfl⟩ := hk
      obtain ⟨v, b', hrun, h⟩ := calls_new ih hf hn (by simpa using hc) hka
      exact ⟨v, b', hrun, h.counts⟩

theorem visits_instanceOf {c : ClassId} (ih : Visits cfg names .value e) :
    Visits cfg names m (.instanceOf c e) := by
  intro k b hf hn hk
  rw [Expr.leaves] at hk
  split at hk
  next hc =>
      split at hk
      next y he =>
          cases hk
          exact visits_constant failure rfl hf hn hc he
      next => cases hk
  next hc =>
      obtain ⟨v₁, b₁, v₂, b₂, hrun₁, hrun₂, h₂⟩ := ih.append (.start hf) hn hk
      obtain ⟨v₃, b₃, hrun₃, h₃⟩ := h₂.addNew (.constant (.cls c)) (.push (.cls c))
        (fun _ _ => rfl) trivial
      obtain ⟨v₄, b₄, hrun₄, h₄⟩ := h₃.returnNew m (.binaryOp .instanceOf) (.binary .instanceOf)
        (fun _ _ => rfl) trivial
      refine ⟨v₄, b₄, ?_, by simpa [Mode.drops, Bytecode.pushes, Bytecode.pops] using h₄⟩
      rw [visit, isConstantExpr_bind, hn, if_neg hc, Partial.bind_run hrun₁,
        Partial.bind_run hrun₂, Partial.bind_run hrun₃]
      exact hrun₄

end Straight

end Gel
