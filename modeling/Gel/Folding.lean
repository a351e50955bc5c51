import Gel.Correctness

/-!
# Folding — constant expressions

`IsConstantExpr` lets the visitors of lists, instance-of tests and `new` push the value
`EvalToConstant` computes instead of the code of the expression.  `visitOrdinary` is the other
branch of these visitors: what they emit for an expression they do not fold.  `ordinary` is what
that code computes (`ordinary_runs`), and the two agree on an expression and on the constant
expressions in it exactly when it is `Foldable` (`folding_iff`).
-/

namespace Gel

open FlowGraphBuilder Layout

namespace FlowGraphBuilder

mutual

/-- A value visitor that never folds. -/
def visitOrdinary (cfg : Config) : Expr → Visitor → Build Visitor
  | .literal value, v => visitLiteral .value v value
  | .binaryOp op l r, v => do
      let v ← append v (← visitOrdinary cfg l {})
      let v ← append v (← visitOrdinary cfg r {})
      returnNew .value v (.binaryOp op)
  | .list values, v => do
      let v ← visitOrdinaryArgs cfg values v
      returnCallTo cfg .value v (← newInstr (.constant (.native listSymbol)))
        (.ofNat values.length)
  | .instanceOf c e, v => do
      let v ← append v (← visitOrdinary cfg e {})
      let v ← addNew v (.constant (.cls c))
      returnNew .value v (.binaryOp .instanceOf)
  | .new c args, v => do
      let v ← visitOrdinaryArgs cfg args v
      returnNew .value v (.new c (.ofNat args.length))
  | e, v => visit cfg .value e v

def visitOrdinaryArgs (cfg : Config) : List Expr → Visitor → Build Visitor
  | [], v => return v
  | e :: es, v => do
      if v.isOpen then visitOrdinaryArgs cfg es (← append v (← visitOrdinary cfg e {})) else return v

end

end FlowGraphBuilder

/-- What the code of a procedure works with besides its own operations: the names it is compiled
with, the values in its slots, its calls and the instances it creates. -/
structure Surroundings where
  names : Scopes
  scope : ScopeId
  slot : UInt64 → Option Value
  apply : Application
  create : ClassId → List Value → Memory → Option (Value × Memory)

/-- What the ordinary code of a literal pushes: a symbol that resolves to a variable stands for what
the variable holds. -/
def Surroundings.read (w : Surroundings) (v : Value) : Option Value :=
  match w.names.literalInstr w.scope v with
  | .loadLocal _ idx => w.slot idx
  | .constant y => some y
  | _ => none

namespace Expr

mutual

/-- What the ordinary code of an expression computes, and the memory it leaves. -/
def ordinary (w : Surroundings) : Expr → Memory → Option (Value × Memory)
  | literal v, m => (w.read v).map fun x => (x, m)
  | binaryOp op l r, m => do
      let (x, m) ← l.ordinary w m
      let (y, m) ← r.ordinary w m
      return (← (op.apply x y).toOption, m)
  | list values, m => do
      let (vs, m) ← ordinaryAll w values m
      w.apply (.native listSymbol) vs m
  | instanceOf c e, m => do
      let (x, m) ← e.ordinary w m
      return (.bool (x.type.isInstanceOf c), m)
  | new c args, m => do
      let (vs, m) ← ordinaryAll w args m
      w.create c vs m
  | _, _ => none

def ordinaryAll (w : Surroundings) : List Expr → Memory → Option (List Value × Memory)
  | [], m => some ([], m)
  | e :: es, m => do
      let (v, m) ← e.ordinary w m
      let (vs, m) ← ordinaryAll w es m
      return (v :: vs, m)

end

end Expr

/-- The machine has these surroundings while it runs an activation from a memory on. -/
structure Surroundings.Holds (w : Surroundings) (host : Host) (callN : Interpreter.CallWithNArgs)
    (a : Activation) (m : Memory) : Prop where
  reads : ReadsAs callN a w.apply
  slot : ∀ {idx v}, w.slot idx = some v → a.slot m idx = some v
  creates : ∀ {c vs m v m'}, w.create c vs m = some (v, m') → host.newInstance c vs m = .ok (v, m')
  keeps : ∀ {c vs m v m'}, w.create c vs m = some (v, m') → a.Keeps m m'

theorem Surroundings.Holds.later {w : Surroundings} {host : Host}
    {callN : Interpreter.CallWithNArgs} {a : Activation} {m m' : Memory}
    (h : w.Holds host callN a m) (hk : a.Keeps m m') : w.Holds host callN a m' where
  reads := h.reads
  slot hv := (hk.slots _).trans (h.slot hv)
  creates := h.creates
  keeps := h.keeps

/-! ### The ordinary code -/

/-- The ordinary code of an expression: what the builder does, and what the items do to a stack. -/
structure OrdinaryFor (cfg : Config) (e : Expr) (b : Builder) (v : Visitor) (b' : Builder)
    (c : List Item) : Prop where
  run : visitOrdinary cfg e {} b = some (v, b')
  built : Built Anywhere b v b' c
  labels : LabelsIn b.numBlocks b'.numBlocks c
  size_pos : 0 < size c
  computes : ∀ {w : Surroundings} {host callN a m}, w.names = b.scopes → w.scope = b.scope →
    w.Holds host callN a m → ∀ s {r m'}, e.ordinary w m = some (r, m') →
      a.Keeps m m' ∧ Computes host callN a c b.numBlocks b'.numBlocks s m (r :: s) m'

/-- The ordinary code of arguments, behind what a visitor has built already. -/
structure OrdinaryForAll (cfg : Config) (es : List Expr) (b₀ : Builder) (v₀ : Visitor)
    (c₀ : List Item) (b : Builder) (v : Visitor) (b' : Builder) (c : List Item) : Prop where
  run : visitOrdinaryArgs cfg es v₀ b = some (v, b')
  built : Built Anywhere b₀ v b' (c₀ ++ c)
  blocks : b.numBlocks ≤ b'.numBlocks
  labels : LabelsIn b.numBlocks b'.numBlocks c
  size_le : es.length ≤ size c
  computes : ∀ {w : Surroundings} {host callN a m}, w.names = b.scopes → w.scope = b.scope →
    w.Holds host callN a m → ∀ s {rs m'}, Expr.ordinaryAll w es m = some (rs, m') →
      a.Keeps m m' ∧ rs.length = es.length ∧
        Computes host callN a c b.numBlocks b'.numBlocks s m (rs.reverse ++ s) m'

/-- `new` takes its arguments off the stack and pushes an instance. -/
theorem Activation.exec_new {host : Host} {callN : Interpreter.CallWithNArgs} (a : Activation)
    {c : ClassId} {vs s : List Value} {v : Value} {m m' : Memory} {n : UInt64} {p q : Nat}
    (hn : n.toNat = vs.length) (h : host.newInstance c vs m = .ok (v, m')) :
    Interpreter.exec host callN a.region p (.new (.cls c) n) (a.state q (vs.reverse ++ s) m)
      = .ok (a.state q (v :: s) m') := by
  have htake : (vs.reverse ++ s).take vs.length = vs.reverse := by
    rw [← List.length_reverse, List.take_left]
  have hdrop : (vs.reverse ++ s).drop vs.length = s := by
    rw [← List.length_reverse, List.drop_left]
  have hpop : (a.state q (vs.reverse ++ s) m).popN n.toNat = (vs, a.state q s m) := by
    simp [Runtime.popN, hn, htake, hdrop]
  change (host.newInstance c ((a.state q (vs.reverse ++ s) m).popN n.toNat).1
    ((a.state q (vs.reverse ++ s) m).popN n.toNat).2.memory >>= fun p =>
      { ((a.state q (vs.reverse ++ s) m).popN n.toNat).2 with memory := p.2 }.push p.1) = _
  rw [hpop]
  change (host.newInstance c vs m >>= fun p => (a.state q s p.2).push p.1) = _
  rw [h]
  rfl

section Cases

variable {cfg : Config} {b : Builder}

theorem ordinaryFor_literal (value : Value) (hf : b.Fresh) :
    ∃ v b' c, OrdinaryFor cfg (.literal value) b v b' c := by
  obtain ⟨v, b', hrun, -, -, -, hblocks, hbuilt⟩ :=
    (Built.start hf : Built Anywhere b {} b []).returnNew
      (b.scopes.literalInstr_straight b.scope value _)
  refine ⟨v, b', _, ?_, hbuilt, .instr _ _ _ _, ?_, ?_⟩
  · rw [visitOrdinary, visitLiteral_run]
    exact hrun
  · obtain ⟨y, hy⟩ | ⟨l, idx, hl⟩ := b.scopes.literalInstr_cases b.scope value
    · rw [hy]
      simpa [Item.size] using Bytecode.size_pos rfl
    · rw [hl]
      simpa [Item.size] using Bytecode.size_pos rfl
  · intro w host callN a m hnames hscope hw s r m' h
    obtain ⟨x, hx, he⟩ := Option.map_eq_some_iff.mp h
    cases he
    rw [Surroundings.read, hnames, hscope] at hx
    obtain ⟨y, hy⟩ | ⟨l, idx, hl⟩ := b.scopes.literalInstr_cases b.scope value
    · rw [hy] at hx ⊢
      cases hx
      exact ⟨.refl _ _, .instr rfl (by simp [literalCode]) fun p q => a.exec_push _⟩
    · rw [hl] at hx ⊢
      exact ⟨.refl _ _, .instr rfl (by simp [literalCode]) fun p q => a.loadLocal_state q s _ (hw.slot hx)⟩

theorem ordinaryForAll {es : List Expr}
    (ih : ∀ e ∈ es, ∀ b : Builder, b.Fresh → ∃ v b' c, OrdinaryFor cfg e b v b' c) {b₀ : Builder}
    {v : Visitor} {c : List Item} (h : Built Anywhere b₀ v b c) :
    ∃ v' b' c', OrdinaryForAll cfg es b₀ v c b v' b' c' := by
  induction es generalizing v b c with
  | nil =>
      refine ⟨v, b, [], rfl, by rwa [List.append_nil], le_rfl, .nil _ _, le_rfl, ?_⟩
      intro w host callN a m hnames hscope hw s rs m' he
      cases he
      exact ⟨.refl _ _, rfl, .nil _ _ _ _⟩
  | cons e es ihs =>
      obtain ⟨v₁, b₁, c₁, h₁⟩ := ih e List.mem_cons_self b h.fresh
      obtain ⟨v₂, b₂, hrun₂, -, -, hblocks₂, hbuilt₂⟩ := h.append h₁.built
      obtain ⟨v₃, b₃, c₃, h₃⟩ := ihs (fun x hx => ih x (List.mem_cons_of_mem _ hx)) hbuilt₂
      have hle : b.numBlocks ≤ b₂.numBlocks := hblocks₂ ▸ h₁.built.grown.blocks
      have hlabels₁ : LabelsIn b.numBlocks b₂.numBlocks c₁ := hblocks₂ ▸ h₁.labels
      refine ⟨v₃, b₃, c₁ ++ c₃, ?_, by rw [← List.append_assoc]; exact h₃.built,
        hle.trans h₃.blocks, ?_, ?_, ?_⟩
      · rw [visitOrdinaryArgs, if_pos h.isOpen, Partial.bind_run h₁.run, Partial.bind_run hrun₂]
        exact h₃.run
      · exact (hlabels₁.mono le_rfl h₃.blocks).append (h₃.labels.mono hle le_rfl)
      · have := h₁.size_pos
        have := h₃.size_le
        rw [size_append, List.length_cons]
        omega
      · intro w host callN a m hnames hscope hw s rs m' he
        simp only [Expr.ordinaryAll, Option.bind_eq_bind, Option.bind_eq_some_iff, Option.pure_def,
          Option.some.injEq, Prod.mk.injEq] at he
        obtain ⟨⟨x, m₁⟩, hx, ⟨xs, m₂⟩, hxs, rfl, rfl⟩ := he
        obtain ⟨hk₁, hfirst⟩ := h₁.computes hnames hscope hw s hx
        have hnames₂ : w.names = b₂.scopes := by
          rw [hnames, hbuilt₂.grown.scopes, ← h.grown.scopes]
        have hscope₂ : w.scope = b₂.scope := by rw [hscope, hbuilt₂.grown.scope, ← h.grown.scope]
        obtain ⟨hk₂, hlen, hrest⟩ := h₃.computes hnames₂ hscope₂ (hw.later hk₁) (x :: s) hxs
        rw [← hblocks₂] at hfirst
        have hall := hfirst.append hrest hk₁ hle h₃.blocks fun l h₁ _ => hlabels₁.not_bind (.inr h₁)
        exact ⟨hk₁.trans hk₂, by simp [hlen], by simpa using hall⟩

theorem ordinaryFor_binary {op : BinaryOp} {l r : Expr} (hf : b.Fresh)
    (ihl : ∀ b : Builder, b.Fresh → ∃ v b' c, OrdinaryFor cfg l b v b' c)
    (ihr : ∀ b : Builder, b.Fresh → ∃ v b' c, OrdinaryFor cfg r b v b' c) :
    ∃ v b' c, OrdinaryFor cfg (.binaryOp op l r) b v b' c := by
  obtain ⟨v₁, b₁, c₁, h₁⟩ := ihl b hf
  obtain ⟨v₂, b₂, hrun₂, -, -, hblocks₂, hbuilt₂⟩ :=
    (Built.start hf : Built Anywhere b {} b []).append h₁.built
  obtain ⟨v₃, b₃, c₃, h₃⟩ := ihr b₂ hbuilt₂.fresh
  obtain ⟨v₄, b₄, hrun₄, -, -, hblocks₄, hbuilt₄⟩ := hbuilt₂.append h₃.built
  obtain ⟨v₅, b₅, hrun₅, -, -, -, hblocks₅, hbuilt₅⟩ :=
    hbuilt₄.returnNew (x := .binaryOp op) (l := [.code (.binary op)]) fun _ _ => rfl
  have hle₁ : b.numBlocks ≤ b₂.numBlocks := hblocks₂ ▸ h₁.built.grown.blocks
  have hle₃ : b₂.numBlocks ≤ b₅.numBlocks := by
    rw [hblocks₅, hblocks₄]
    exact h₃.built.grown.blocks
  have hlabels₁ : LabelsIn b.numBlocks b₂.numBlocks c₁ := hblocks₂ ▸ h₁.labels
  have hlabels₃ : LabelsIn b₂.numBlocks b₅.numBlocks c₃ := by
    rw [hblocks₅, hblocks₄]
    exact h₃.labels
  refine ⟨v₅, b₅, _, ?_, hbuilt₅, ?_, ?_, ?_⟩
  · rw [visitOrdinary, Partial.bind_run h₁.run, Partial.bind_run hrun₂, Partial.bind_run h₃.run,
      Partial.bind_run hrun₄]
    exact hrun₅
  · exact ((hlabels₁.mono le_rfl hle₃).append (hlabels₃.mono hle₁ le_rfl)).append (.instr _ _ _ _)
  · have := h₁.size_pos
    simp only [List.nil_append, size_append]
    omega
  · intro w host callN a m hnames hscope hw s z m' h
    simp only [Expr.ordinary, Option.bind_eq_bind, Option.bind_eq_some_iff, Option.pure_def,
      Option.some.injEq, Prod.mk.injEq] at h
    obtain ⟨⟨x, m₁⟩, hx, ⟨y, m₂⟩, hy, z', hz, rfl, rfl⟩ := h
    obtain ⟨hk₁, hfirst⟩ := h₁.computes hnames hscope hw s hx
    have hnames₂ : w.names = b₂.scopes := hnames.trans hbuilt₂.grown.scopes.symm
    have hscope₂ : w.scope = b₂.scope := hscope.trans hbuilt₂.grown.scope.symm
    obtain ⟨hk₃, hsecond⟩ := h₃.computes hnames₂ hscope₂ (hw.later hk₁) (x :: s) hy
    rw [← hblocks₂] at hfirst
    rw [← hblocks₄, ← hblocks₅] at hsecond
    have hboth := hfirst.append hsecond hk₁ hle₁ hle₃ fun l h₁ _ => hlabels₁.not_bind (.inr h₁)
    exact ⟨hk₁.trans hk₃, hboth.snoc (hk₁.trans hk₃) (hle₁.trans hle₃) rfl (by simp)
      fun p q => a.exec_binary (toOption_eq_some hz)⟩

theorem ordinaryFor_list {es : List Expr} (hf : b.Fresh)
    (ih : ∀ e ∈ es, ∀ b : Builder, b.Fresh → ∃ v b' c, OrdinaryFor cfg e b v b' c) :
    ∃ v b' c, OrdinaryFor cfg (.list es) b v b' c := by
  obtain ⟨v₁, b₁, c₁, h₁⟩ := ordinaryForAll ih (Built.start hf : Built Anywhere b {} b [])
  have hx := b₁.instr?_alloc (.constant (.native listSymbol))
  obtain ⟨v₂, b₂, hrun₂, -, hblocks₂, hbuilt₂⟩ := h₁.built.returnCallTo cfg (.ofNat es.length)
    (grown_alloc _ _ _) le_rfl hx (l := [.code (.push (.native listSymbol))]) (fun _ _ => rfl)
    (h₁.built.fresh _ le_rfl)
  have hblocks : b₂.numBlocks = b₁.numBlocks := hblocks₂
  refine ⟨v₂, b₂, _, ?_, hbuilt₂, ?_, ?_, ?_⟩
  · rw [visitOrdinary, Partial.bind_run h₁.run, Partial.bind_run (newInstr_run _ _)]
    exact hrun₂
  · rw [hblocks]
    exact h₁.labels.append (labelsIn_callItems cfg _ _ _ _ (.cons (fun _ hl => by cases hl) (.nil _ _)))
  · have := size_callItems_pos cfg ((b₁.alloc (.constant (.native listSymbol))).graph.constantValue
      b₁.graph.size) b₁.graph.size (b₁.alloc (.constant (.native listSymbol))).graph.size
      [.code (.push (.native listSymbol))] (.ofNat es.length)
    rw [size_append]
    omega
  · intro w host callN a m hnames hscope hw s r m' h
    simp only [Expr.ordinary, Option.bind_eq_bind, Option.bind_eq_some_iff] at h
    obtain ⟨⟨vs, m₁⟩, hvs, happ⟩ := h
    obtain ⟨hk, hlen, hargs⟩ := h₁.computes hnames hscope hw s hvs
    have hvalue : (b₁.alloc (.constant (.native listSymbol))).graph.constantValue b₁.graph.size
        = some (.native listSymbol) := by
      rw [Graph.constantValue, hx]
    refine ⟨hk.trans (hw.reads.keeps happ), ?_⟩
    rw [hblocks, hvalue, ← hlen]
    intro pre post hfree hl
    have hlt : vs.length < 2 ^ 64 := by
      have hsize := hl.size_lt
      have := h₁.size_le
      simp only [size_append] at hsize
      omega
    exact (hargs.append (computes_callItems hw.reads rfl hlt happ) hk h₁.blocks le_rfl
      fun _ h₁ h₂ => absurd h₁ (Nat.not_le.mpr h₂)) pre post hfree hl

theorem ordinaryFor_instanceOf {cl : ClassId} {e : Expr} (hf : b.Fresh)
    (ih : ∀ b : Builder, b.Fresh → ∃ v b' c, OrdinaryFor cfg e b v b' c) :
    ∃ v b' c, OrdinaryFor cfg (.instanceOf cl e) b v b' c := by
  obtain ⟨v₁, b₁, c₁, h₁⟩ := ih b hf
  obtain ⟨v₂, b₂, hrun₂, -, -, hblocks₂, hbuilt₂⟩ :=
    (Built.start hf : Built Anywhere b {} b []).append h₁.built
  obtain ⟨v₃, b₃, hrun₃, -, -, -, -, hblocks₃, hbuilt₃⟩ :=
    hbuilt₂.addNew (x := .constant (.cls cl)) (l := [.code (.push (.cls cl))]) fun _ _ => rfl
  obtain ⟨v₄, b₄, hrun₄, -, -, -, hblocks₄, hbuilt₄⟩ :=
    hbuilt₃.returnNew (x := .binaryOp .instanceOf) (l := [.code (.binary .instanceOf)])
      fun _ _ => rfl
  have hle : b.numBlocks ≤ b₁.numBlocks := h₁.built.grown.blocks
  have hblocks : b₄.numBlocks = b₁.numBlocks := by rw [hblocks₄, hblocks₃, hblocks₂]
  refine ⟨v₄, b₄, _, ?_, hbuilt₄, ?_, ?_, ?_⟩
  · rw [visitOrdinary, Partial.bind_run h₁.run, Partial.bind_run hrun₂, Partial.bind_run hrun₃]
    exact hrun₄
  · rw [hblocks]
    exact (h₁.labels.append (.instr _ _ _ _)).append (.instr _ _ _ _)
  · have := h₁.size_pos
    simp only [List.nil_append, size_append]
    omega
  · intro w host callN a m hnames hscope hw s r m' h
    simp only [Expr.ordinary, Option.bind_eq_bind, Option.bind_eq_some_iff, Option.pure_def,
      Option.some.injEq, Prod.mk.injEq] at h
    obtain ⟨⟨x, m₁⟩, hx, rfl, rfl⟩ := h
    obtain ⟨hk, hvalue⟩ := h₁.computes hnames hscope hw s hx
    have hpush : Computes host callN a ([] ++ c₁ ++ [.visit b₂.graph.size, .code (.push (.cls cl))])
        b.numBlocks b₁.numBlocks s m (.cls cl :: x :: s) m₁ :=
      hvalue.snoc hk hle rfl (by simp) fun p q => a.exec_push _
    rw [hblocks]
    exact ⟨hk, hpush.snoc hk hle rfl (by simp) fun p q => a.exec_binary rfl⟩

theorem ordinaryFor_new {cl : ClassId} {es : List Expr} (hf : b.Fresh)
    (ih : ∀ e ∈ es, ∀ b : Builder, b.Fresh → ∃ v b' c, OrdinaryFor cfg e b v b' c) :
    ∃ v b' c, OrdinaryFor cfg (.new cl es) b v b' c := by
  obtain ⟨v₁, b₁, c₁, h₁⟩ := ordinaryForAll ih (Built.start hf : Built Anywhere b {} b [])
  obtain ⟨v₂, b₂, hrun₂, -, -, -, hblocks₂, hbuilt₂⟩ :=
    h₁.built.returnNew (x := .new cl (.ofNat es.length))
      (l := [.code (.new (.cls cl) (.ofNat es.length))]) fun _ _ => rfl
  refine ⟨v₂, b₂, _, ?_, hbuilt₂, ?_, ?_, ?_⟩
  · rw [visitOrdinary, Partial.bind_run h₁.run]
    exact hrun₂
  · rw [hblocks₂]
    exact h₁.labels.append (.instr _ _ _ _)
  · have hpos : 0 < (Bytecode.new (.cls cl) (.ofNat es.length)).size := Bytecode.size_pos rfl
    simp only [List.nil_append, size_append, size_cons, Item.size]
    omega
  · intro w host callN a m hnames hscope hw s r m' h
    simp only [Expr.ordinary, Option.bind_eq_bind, Option.bind_eq_some_iff] at h
    obtain ⟨⟨vs, m₁⟩, hvs, hnew⟩ := h
    obtain ⟨hk, hlen, hargs⟩ := h₁.computes hnames hscope hw s hvs
    refine ⟨hk.trans (hw.keeps hnew), ?_⟩
    rw [hblocks₂, List.nil_append]
    intro pre post hfree hl
    have hn : (UInt64.ofNat es.length).toNat = vs.length := by
      have hsize := hl.size_lt
      have := h₁.size_le
      simp only [size_append] at hsize
      rw [UInt64.toNat_ofNat', Nat.mod_eq_of_lt (by omega), hlen]
    have hall : Computes host callN a
        (c₁ ++ [.visit b₁.graph.size, .code (.new (.cls cl) (.ofNat es.length))])
        b.numBlocks b₁.numBlocks s m (r :: s) m' :=
      hargs.snoc hk h₁.blocks rfl (by simp) fun p q => a.exec_new hn (hw.creates hnew)
    exact hall pre post hfree hl

end Cases

namespace Expr

mutual

/-- Built from literals, binary operations, lists, instance-of tests and `new`. -/
def isData : Expr → Bool
  | literal _ => true
  | binaryOp _ l r => l.isData && r.isData
  | list es | new _ es => allData es
  | instanceOf _ e => e.isData
  | _ => false

def allData : List Expr → Bool
  | [] => true
  | e :: es => e.isData && allData es

end

mutual

/-- The builder compiles every such expression. -/
theorem ordinaryFor (cfg : Config) : ∀ e : Expr, e.isData = true → ∀ b : Builder, b.Fresh →
    ∃ v b' c, OrdinaryFor cfg e b v b' c
  | literal v, _ => fun _ hf => ordinaryFor_literal v hf
  | binaryOp _ l r, h => fun _ hf =>
      ordinaryFor_binary hf (ordinaryFor cfg l (Bool.and_eq_true_iff.mp h).1)
        (ordinaryFor cfg r (Bool.and_eq_true_iff.mp h).2)
  | list es, h => fun _ hf => ordinaryFor_list hf (ordinaryFor_all cfg es h)
  | instanceOf _ e, h => fun _ hf => ordinaryFor_instanceOf hf (ordinaryFor cfg e h)
  | new _ es, h => fun _ hf => ordinaryFor_new hf (ordinaryFor_all cfg es h)

theorem ordinaryFor_all (cfg : Config) : ∀ es : List Expr, allData es = true → ∀ e ∈ es,
    ∀ b : Builder, b.Fresh → ∃ v b' c, OrdinaryFor cfg e b v b' c
  | [], _ => nofun
  | e :: es, h => by
      obtain ⟨he, hes⟩ := Bool.and_eq_true_iff.mp h
      have hhead := ordinaryFor cfg e he
      have htail := ordinaryFor_all cfg es hes
      intro x hx
      rcases List.mem_cons.mp hx with rfl | hx
      · exact hhead
      · exact htail x hx

end

end Expr

/-! ### Folding -/

/-- The list of some values. -/
def Value.ofList : List Value → Value := List.foldr .pair .null

/-- Whether the runtime's current scope binds a symbol to a value. -/
def Surroundings.bound (w : Surroundings) (cfg : Config) (x : Symbol) : Bool :=
  ((w.names.lookup cfg.runtimeScope x.fullyQualifiedName).bind w.names.valueOf).isSome

/-- The instances of a class are values: the one that `NewInstance` creates for some arguments when
the code is compiled is the one it creates for them at any time later. -/
def Surroundings.HasValues (w : Surroundings) (cfg : Config) (c : ClassId) : Prop :=
  ∀ vs m, (w.create c vs m).map Prod.fst = cfg.newInstance c vs

/-- What folding relies on besides the code of an expression: the native `list` makes a list of its
arguments, and a class whose instances are not values creates a different one each time. -/
structure Surroundings.Regular (w : Surroundings) (cfg : Config) : Prop where
  list : ∀ vs m, w.apply (.native listSymbol) vs m = some (Value.ofList vs, m)
  new : ∀ c, w.HasValues cfg c ∨
    ∀ {vs m v m'}, w.create c vs m = some (v, m') → cfg.newInstance c vs ≠ some v

/-- Folding the expression gives a value, and that is what its ordinary code computes. -/
def FoldsTo (cfg : Config) (w : Surroundings) (e : Expr) : Prop :=
  ∃ v, e.evalToConstant cfg w.names w.scope = some (some v) ∧
    ∀ m, ∃ m', e.ordinary w m = some (v, m')

namespace Expr

mutual

/-- Folding is sound for the expression, and for every expression in it that folding looks into.  A
symbol that is an argument of `new` is not folded: it stands for its variable. -/
def Folds (cfg : Config) (w : Surroundings) : Expr → Prop
  | binaryOp op l r => FoldsTo cfg w (.binaryOp op l r) ∧ l.Folds cfg w ∧ r.Folds cfg w
  | list es => FoldsTo cfg w (.list es) ∧ AllFold cfg w es
  | instanceOf c e => FoldsTo cfg w (.instanceOf c e) ∧ e.Folds cfg w
  | new c es => FoldsTo cfg w (.new c es) ∧ ArgsFold cfg w es
  | e => FoldsTo cfg w e

def AllFold (cfg : Config) (w : Surroundings) : List Expr → Prop
  | [] => True
  | e :: es => e.Folds cfg w ∧ AllFold cfg w es

def ArgsFold (cfg : Config) (w : Surroundings) : List Expr → Prop
  | [] => True
  | literal (.symbol _) :: es => ArgsFold cfg w es
  | e :: es => e.Folds cfg w ∧ ArgsFold cfg w es

end

mutual

/-- The shape that folding is sound for: no sequence, no operation but arithmetic, no symbol that
stands for anything but itself; `new` only of a class whose instances are values, with arguments of
that shape or symbols that are bound to a value. -/
def Foldable (cfg : Config) (w : Surroundings) : Expr → Prop
  | literal v => w.read v = some v
  | binaryOp op l r =>
      op ∈ [.add, .subtract, .multiply, .divide, .modulus] ∧ l.Foldable cfg w ∧ r.Foldable cfg w
  | list es => AllFoldable cfg w es
  | instanceOf _ e => e.Foldable cfg w
  | new c es => w.HasValues cfg c ∧ ArgsFoldable cfg w es
  | _ => False

def AllFoldable (cfg : Config) (w : Surroundings) : List Expr → Prop
  | [] => True
  | e :: es => e.Foldable cfg w ∧ AllFoldable cfg w es

def ArgsFoldable (cfg : Config) (w : Surroundings) : List Expr → Prop
  | [] => True
  | literal (.symbol x) :: es =>
      ((w.names.lookup w.scope x.fullyQualifiedName).bind w.names.valueOf).isSome ∧
        ArgsFoldable cfg w es
  | e :: es => e.Foldable cfg w ∧ ArgsFoldable cfg w es

end

/-- An argument of `new` that is no symbol is an expression like any other. -/
def IsSymbol (e : Expr) : Prop := ∃ x, e = literal (.symbol x)

variable {cfg : Config} {w : Surroundings} {e : Expr} {es : List Expr}

theorem argsFold_cons (h : ¬e.IsSymbol) :
    ArgsFold cfg w (e :: es) ↔ e.Folds cfg w ∧ ArgsFold cfg w es := by
  rw [ArgsFold]
  exact fun x hx => h ⟨x, hx⟩

theorem argsFoldable_cons (h : ¬e.IsSymbol) :
    ArgsFoldable cfg w (e :: es) ↔ e.Foldable cfg w ∧ ArgsFoldable cfg w es := by
  rw [ArgsFoldable]
  exact fun x hx => h ⟨x, hx⟩

theorem allConstantArgs_cons {bound : Symbol → Bool} (h : ¬e.IsSymbol) :
    allConstantArgs bound (e :: es) = (e.isConstantExpr bound && allConstantArgs bound es) := by
  rw [allConstantArgs]
  exact fun x hx => h ⟨x, hx⟩

theorem evalArgs_cons (h : ¬e.IsSymbol) :
    evalArgs cfg w.names w.scope (e :: es) = if e.isConstantExpr (w.bound cfg) then do
      let v ← e.evalToConstant cfg w.names w.scope
      (fun vs => vs.map (v.getD .null :: ·)) <$> evalArgs cfg w.names w.scope es
    else some none := by
  rw [evalArgs]
  · rfl
  · exact fun x hx => h ⟨x, hx⟩

/-- A symbol bound to a value stands for that value. -/
theorem read_bound {x : Symbol} {y : Value}
    (h : (w.names.lookup w.scope x.fullyQualifiedName).bind w.names.valueOf = some y) :
    w.read (.symbol x) = some y := by
  obtain ⟨l, hl, hy⟩ := Option.bind_eq_some_iff.mp h
  simp [Surroundings.read, Scopes.literalInstr, hl, hy]

theorem read_of_bound {x : Symbol}
    (h : ((w.names.lookup w.scope x.fullyQualifiedName).bind w.names.valueOf).isSome) :
    ∃ y, (w.names.lookup w.scope x.fullyQualifiedName).bind w.names.valueOf = some y ∧
      w.read (.symbol x) = some y := by
  obtain ⟨y, hy⟩ := Option.isSome_iff_exists.mp h
  exact ⟨y, hy, read_bound hy⟩

theorem ordinaryAll_cons_eq {m m' : Memory} {vs : List Value}
    (h : ordinaryAll w (e :: es) m = some (vs, m')) : ∃ v m₁ vs', e.ordinary w m = some (v, m₁) ∧
      ordinaryAll w es m₁ = some (vs', m') ∧ vs = v :: vs' := by
  simp only [ordinaryAll, Option.bind_eq_bind, Option.bind_eq_some_iff, Option.pure_def,
    Option.some.injEq, Prod.mk.injEq] at h
  obtain ⟨⟨v, m₁⟩, hv, ⟨vs', m₂⟩, hvs, rfl, rfl⟩ := h
  exact ⟨v, m₁, vs', hv, hvs, rfl⟩

theorem ordinary_binary_eq {op : BinaryOp} {l r : Expr} {m m' : Memory} {z : Value}
    (h : (binaryOp op l r).ordinary w m = some (z, m')) : ∃ x m₁ y, l.ordinary w m = some (x, m₁) ∧
      r.ordinary w m₁ = some (y, m') ∧ (op.apply x y).toOption = some z := by
  simp only [ordinary, Option.bind_eq_bind, Option.bind_eq_some_iff, Option.pure_def,
    Option.some.injEq, Prod.mk.injEq] at h
  obtain ⟨⟨x, m₁⟩, hx, ⟨y, m₂⟩, hy, z', hz, rfl, rfl⟩ := h
  exact ⟨x, m₁, y, hx, hy, hz⟩

theorem ordinary_list_eq (hw : w.Regular cfg) {m m' : Memory} {z : Value}
    (h : (list es).ordinary w m = some (z, m')) :
    ∃ vs, ordinaryAll w es m = some (vs, m') ∧ z = Value.ofList vs := by
  simp only [ordinary, Option.bind_eq_bind, Option.bind_eq_some_iff, hw.list, Option.some.injEq,
    Prod.mk.injEq] at h
  obtain ⟨⟨vs, m₁⟩, hvs, rfl, rfl⟩ := h
  exact ⟨vs, hvs, rfl⟩

theorem ordinary_instanceOf_eq {c : ClassId} {m m' : Memory} {z : Value}
    (h : (instanceOf c e).ordinary w m = some (z, m')) :
    ∃ x, e.ordinary w m = some (x, m') ∧ z = .bool (x.type.isInstanceOf c) := by
  simp only [ordinary, Option.bind_eq_bind, Option.bind_eq_some_iff, Option.pure_def,
    Option.some.injEq, Prod.mk.injEq] at h
  obtain ⟨⟨x, m₁⟩, hx, rfl, rfl⟩ := h
  exact ⟨x, hx, rfl⟩

theorem ordinary_new_eq {c : ClassId} {m m' : Memory} {z : Value}
    (h : (new c es).ordinary w m = some (z, m')) :
    ∃ vs m₁, ordinaryAll w es m = some (vs, m₁) ∧ w.create c vs m₁ = some (z, m') := by
  simp only [ordinary, Option.bind_eq_bind, Option.bind_eq_some_iff] at h
  obtain ⟨⟨vs, m₁⟩, hvs, hz⟩ := h
  exact ⟨vs, m₁, hvs, hz⟩

/-! What the ordinary code of a foldable expression computes does not depend on the memory. -/

mutual

theorem Foldable.steady (hw : w.Regular cfg) : ∀ {e : Expr}, e.Foldable cfg w → ∀ {m v m₁},
    e.ordinary w m = some (v, m₁) → ∀ m', ∃ m₁', e.ordinary w m' = some (v, m₁')
  | literal v, _, m, z, m₁, h, m' => by
      obtain ⟨x, hx, he⟩ := Option.map_eq_some_iff.mp h
      cases he
      exact ⟨m', by rw [ordinary, hx]; rfl⟩
  | binaryOp op l r, hf, m, z, m₁, h, m' => by
      obtain ⟨-, hl, hr⟩ := hf
      obtain ⟨x, m₂, y, hx, hy, hz⟩ := ordinary_binary_eq h
      obtain ⟨m₁', hx'⟩ := hl.steady hw hx m'
      obtain ⟨m₂', hy'⟩ := hr.steady hw hy m₁'
      exact ⟨m₂', by simp [ordinary, hx', hy', hz]⟩
  | list es, hf, m, z, m₁, h, m' => by
      obtain ⟨vs, hvs, rfl⟩ := ordinary_list_eq hw h
      have hes : AllFoldable cfg w es := hf
      obtain ⟨m₁', hvs'⟩ := hes.steady hw hvs m'
      exact ⟨m₁', by simp [ordinary, hvs', hw.list]⟩
  | instanceOf c e, hf, m, z, m₁, h, m' => by
      obtain ⟨x, hx, rfl⟩ := ordinary_instanceOf_eq h
      obtain ⟨m₁', hx'⟩ := Foldable.steady hw (e := e) hf hx m'
      exact ⟨m₁', by simp [ordinary, hx']⟩
  | new c es, hf, m, z, m₁, h, m' => by
      obtain ⟨hc, hes⟩ := hf
      obtain ⟨vs, m₂, hvs, hz⟩ := ordinary_new_eq h
      obtain ⟨m₂', hvs'⟩ := hes.steady hw hvs m'
      have hsame : (w.create c vs m₂').map Prod.fst = some z := by
        rw [hc vs m₂', ← hc vs m₂, hz]
        rfl
      obtain ⟨⟨z', m₁'⟩, hz', rfl⟩ := Option.map_eq_some_iff.mp hsame
      exact ⟨m₁', by simp [ordinary, hvs', hz']⟩

theorem AllFoldable.steady (hw : w.Regular cfg) : ∀ {es : List Expr}, AllFoldable cfg w es →
    ∀ {m vs m₁}, ordinaryAll w es m = some (vs, m₁) → ∀ m', ∃ m₁',
      ordinaryAll w es m' = some (vs, m₁')
  | [], _, m, vs, m₁, h, m' => by
      cases h
      exact ⟨m', rfl⟩
  | e :: es, hf, m, vs, m₁, h, m' => by
      obtain ⟨he, hes⟩ := hf
      obtain ⟨v, m₂, vs', hv, hvs, rfl⟩ := ordinaryAll_cons_eq h
      obtain ⟨m₂', hv'⟩ := he.steady hw hv m'
      obtain ⟨m₁', hvs'⟩ := AllFoldable.steady hw hes hvs m₂'
      exact ⟨m₁', by simp [ordinaryAll, hv', hvs']⟩

theorem ArgsFoldable.steady (hw : w.Regular cfg) : ∀ {es : List Expr}, ArgsFoldable cfg w es →
    ∀ {m vs m₁}, ordinaryAll w es m = some (vs, m₁) → ∀ m', ∃ m₁',
      ordinaryAll w es m' = some (vs, m₁')
  | [], _, m, vs, m₁, h, m' => by
      cases h
      exact ⟨m', rfl⟩
  | e :: es, hf, m, vs, m₁, h, m' => by
      obtain ⟨v, m₂, vs', hv, hvs, rfl⟩ := ordinaryAll_cons_eq h
      have hhead : e.Foldable cfg w → ∃ m₂', e.ordinary w m' = some (v, m₂') :=
        fun he => he.steady hw hv m'
      have htail : ∀ (hes : ArgsFoldable cfg w es) (m'), ∃ m₁',
          ordinaryAll w es m' = some (vs', m₁') := fun hes => ArgsFoldable.steady hw hes hvs
      by_cases hsym : e.IsSymbol
      · obtain ⟨x, rfl⟩ := hsym
        obtain ⟨y, hy, he⟩ := Option.map_eq_some_iff.mp hv
        cases he
        obtain ⟨m₁', hvs'⟩ := htail hf.2 m'
        exact ⟨m₁', by simp [ordinaryAll, ordinary, hy, hvs']⟩
      · obtain ⟨he, hes⟩ := (argsFoldable_cons hsym).mp hf
        obtain ⟨m₂', hv'⟩ := hhead he
        obtain ⟨m₁', hvs'⟩ := htail hes m₂'
        exact ⟨m₁', by simp [ordinaryAll, hv', hvs']⟩

end

/-! A foldable expression folds to what its ordinary code computes. -/

theorem evalToConstant_binary {op : BinaryOp} {l r : Expr} {x y : Value} {m : Scopes} {s : ScopeId}
    (hop : op ∈ [.add, .subtract, .multiply, .divide, .modulus])
    (hl : l.evalToConstant cfg m s = some (some x))
    (hr : r.evalToConstant cfg m s = some (some y)) :
    (binaryOp op l r).evalToConstant cfg m s = (op.apply x y).toOption.map some := by
  simp only [List.mem_cons, List.not_mem_nil, or_false] at hop
  rcases hop with rfl | rfl | rfl | rfl | rfl <;>
  · simp only [evalToConstant, hl, hr, Option.bind_eq_bind, Option.bind_some]
    split <;> simp_all [Except.toOption]

mutual

theorem Foldable.folds (hw : w.Regular cfg) : ∀ {e : Expr}, e.Foldable cfg w →
    e.isConstantExpr (w.bound cfg) = true → ∀ {m v m'}, e.ordinary w m = some (v, m') →
      e.evalToConstant cfg w.names w.scope = some (some v) ∧ e.Folds cfg w
  | literal v, hf, _, m, z, m₁, h => by
      obtain ⟨x, hx, he⟩ := Option.map_eq_some_iff.mp h
      cases he
      cases hf.symm.trans hx
      refine ⟨rfl, v, rfl, fun m' => ⟨m', ?_⟩⟩
      rw [ordinary, hx]
      rfl
  | binaryOp op l r, hf, hc, m, z, m₁, h => by
      have hsteady := Foldable.steady hw hf h
      obtain ⟨hop, hl, hr⟩ := hf
      obtain ⟨hcl, hcr⟩ := Bool.and_eq_true_iff.mp hc
      obtain ⟨x, m₂, y, hx, hy, hz⟩ := ordinary_binary_eq h
      obtain ⟨hvl, hfl⟩ := hl.folds hw hcl hx
      obtain ⟨hvr, hfr⟩ := hr.folds hw hcr hy
      have hv : (binaryOp op l r).evalToConstant cfg w.names w.scope = some (some z) := by
        rw [evalToConstant_binary hop hvl hvr, hz]
        rfl
      exact ⟨hv, ⟨z, hv, hsteady⟩, hfl, hfr⟩
  | list es, hf, hc, m, z, m₁, h => by
      have hsteady := Foldable.steady (e := list es) hw hf h
      obtain ⟨vs, hvs, rfl⟩ := ordinary_list_eq hw h
      have hes : AllFoldable cfg w es := hf
      obtain ⟨hl, hall⟩ := hes.folds hw hc hvs
      have hv : (list es).evalToConstant cfg w.names w.scope = some (some (Value.ofList vs)) := by
        rw [evalToConstant, hl]
        rfl
      exact ⟨hv, ⟨_, hv, hsteady⟩, hall⟩
  | instanceOf c e, hf, hc, m, z, m₁, h => by
      have hsteady := Foldable.steady (e := instanceOf c e) hw hf h
      obtain ⟨x, hx, rfl⟩ := ordinary_instanceOf_eq h
      obtain ⟨hvx, hfx⟩ := Foldable.folds hw (e := e) hf hc hx
      have hv : (instanceOf c e).evalToConstant cfg w.names w.scope
          = some (some (.bool (x.type.isInstanceOf c))) := by
        simp [evalToConstant, hvx]
      exact ⟨hv, ⟨_, hv, hsteady⟩, hfx⟩
  | new c es, hf, hc, m, z, m₁, h => by
      have hsteady := Foldable.steady (e := new c es) hw hf h
      obtain ⟨hclass, hes⟩ := hf
      obtain ⟨vs, m₂, hvs, hz⟩ := ordinary_new_eq h
      obtain ⟨ha, hall⟩ := hes.folds hw hc hvs
      have hv : (new c es).evalToConstant cfg w.names w.scope = some (some z) := by
        have hnew : cfg.newInstance c vs = some z := by
          rw [← hclass vs m₂, hz]
          rfl
        simp [evalToConstant, ha, hnew]
      exact ⟨hv, ⟨z, hv, hsteady⟩, hall⟩

theorem AllFoldable.folds (hw : w.Regular cfg) : ∀ {es : List Expr}, AllFoldable cfg w es →
    allConstant (w.bound cfg) es = true → ∀ {m vs m'}, ordinaryAll w es m = some (vs, m') →
      evalList cfg w.names w.scope es = some (Value.ofList vs) ∧ AllFold cfg w es
  | [], _, _, m, vs, m', h => by
      cases h
      exact ⟨rfl, trivial⟩
  | e :: es, hf, hc, m, vs, m', h => by
      obtain ⟨he, hes⟩ := hf
      obtain ⟨hce, hces⟩ := Bool.and_eq_true_iff.mp hc
      obtain ⟨v, m₁, vs', hv, hvs, rfl⟩ := ordinaryAll_cons_eq h
      obtain ⟨hve, hfe⟩ := he.folds hw hce hv
      obtain ⟨hves, hfes⟩ := AllFoldable.folds hw hes hces hvs
      refine ⟨?_, hfe, hfes⟩
      simp [evalList, hves, hve, Value.ofList]

theorem ArgsFoldable.folds (hw : w.Regular cfg) : ∀ {es : List Expr}, ArgsFoldable cfg w es →
    allConstantArgs (w.bound cfg) es = true → ∀ {m vs m'}, ordinaryAll w es m = some (vs, m') →
      evalArgs cfg w.names w.scope es = some (some vs) ∧ ArgsFold cfg w es
  | [], _, _, m, vs, m', h => by
      cases h
      exact ⟨rfl, trivial⟩
  | e :: es, hf, hc, m, vs, m', h => by
      obtain ⟨v, m₁, vs', hv, hvs, rfl⟩ := ordinaryAll_cons_eq h
      have hhead := fun (he : e.Foldable cfg w) hce => he.folds hw hce hv
      have htail := fun (hes : ArgsFoldable cfg w es) hces => hes.folds hw hces hvs
      by_cases hsym : e.IsSymbol
      · obtain ⟨x, rfl⟩ := hsym
        obtain ⟨hbound, hes⟩ := hf
        obtain ⟨y, hy, hread⟩ := read_of_bound hbound
        obtain ⟨z, hz, he⟩ := Option.map_eq_some_iff.mp hv
        cases he
        cases hread.symm.trans hz
        obtain ⟨hves, hfes⟩ := htail hes (Bool.and_eq_true_iff.mp hc).2
        refine ⟨?_, hfes⟩
        simp [evalArgs, hy, hves]
      · obtain ⟨he, hes⟩ := (argsFoldable_cons hsym).mp hf
        obtain ⟨hce, hces⟩ := Bool.and_eq_true_iff.mp ((allConstantArgs_cons hsym).symm.trans hc)
        obtain ⟨hve, hfe⟩ := hhead he hce
        obtain ⟨hves, hfes⟩ := htail hes hces
        refine ⟨?_, (argsFold_cons hsym).mpr ⟨hfe, hfes⟩⟩
        simp [evalArgs_cons hsym, hce, hve, hves]

end

/-! Where folding is sound, the expression has the shape. -/

theorem foldable_op {op : BinaryOp} {l r : Expr} {x y z : Value}
    (hl : l.evalToConstant cfg w.names w.scope = some (some x))
    (hr : r.evalToConstant cfg w.names w.scope = some (some y))
    (h : (binaryOp op l r).evalToConstant cfg w.names w.scope = some (some z)) :
    op ∈ [.add, .subtract, .multiply, .divide, .modulus] := by
  simp only [evalToConstant, hl, hr, Option.bind_eq_bind, Option.bind_some] at h
  cases op <;> first | cases h | simp

theorem Folds.foldsTo : ∀ {e : Expr}, e.Folds cfg w → FoldsTo cfg w e
  | binaryOp .., h | list _, h | instanceOf .., h | new .., h => h.1
  | literal _, h | quoted _, h | unary .., h | begin _, h | .while .., h | cond .., h | when .., h
  | case .., h | localDef .., h | setLocal .., h | setField .., h | loadField .., h | .import, h
  | callProc .., h | binding .., h | .let .., h | letRx .., h | .throw _, h | cast .., h
  | newMap _, h | loadInstanceMethod .., h => h

mutual

theorem Folds.foldable (hw : w.Regular cfg) : ∀ {e : Expr}, e.Folds cfg w → e.Foldable cfg w
  | literal v, h => by
      obtain ⟨x, hx, hv⟩ := h.foldsTo
      cases hx
      obtain ⟨m', hm⟩ := hv {}
      obtain ⟨y, hy, he⟩ := Option.map_eq_some_iff.mp hm
      cases he
      exact hy
  | binaryOp op l r, h => by
      obtain ⟨⟨z, hz, -⟩, hl, hr⟩ := h
      obtain ⟨x, hx, -⟩ := hl.foldsTo
      obtain ⟨y, hy, -⟩ := hr.foldsTo
      exact ⟨foldable_op hx hy hz, hl.foldable hw, hr.foldable hw⟩
  | list es, h => by
      have hes : AllFold cfg w es := h.2
      exact hes.foldable hw
  | instanceOf c e, h => by
      have he : e.Folds cfg w := h.2
      exact he.foldable hw
  | new c es, h => by
      obtain ⟨⟨z, hz, hv⟩, hes⟩ := h
      rw [evalToConstant] at hz
      cases ha : evalArgs cfg w.names w.scope es with
      | none => simp [ha] at hz
      | some r =>
          cases r with
          | none => simp [ha] at hz
          | some vs =>
              have hnew : cfg.newInstance c vs = some z := by
                simp only [ha, Option.bind_eq_bind, Option.bind_some] at hz
                obtain ⟨z', hz', he⟩ := Option.bind_eq_some_iff.mp hz
                cases he
                exact hz'
              obtain ⟨hf, hsame⟩ := ArgsFold.foldable hw hes ha
              obtain ⟨m', hm⟩ := hv {}
              obtain ⟨vs', m₁, hvs, hcreate⟩ := ordinary_new_eq hm
              cases hsame hvs
              rcases hw.new c with hc | hc
              · exact ⟨hc, hf⟩
              · exact absurd hnew (hc hcreate)
  | quoted _, h | unary .., h | begin _, h | .while .., h | cond .., h | when .., h | case .., h
  | localDef .., h | setLocal .., h | setField .., h | loadField .., h | .import, h
  | callProc .., h | binding .., h | .let .., h | letRx .., h | .throw _, h | cast .., h
  | newMap _, h | loadInstanceMethod .., h => by
      obtain ⟨v, hv, -⟩ := h.foldsTo
      cases hv

theorem AllFold.foldable (hw : w.Regular cfg) : ∀ {es : List Expr}, AllFold cfg w es →
    AllFoldable cfg w es
  | [], _ => trivial
  | _ :: _, h => ⟨h.1.foldable hw, AllFold.foldable hw h.2⟩

theorem ArgsFold.foldable (hw : w.Regular cfg) : ∀ {es : List Expr}, ArgsFold cfg w es →
    ∀ {vs}, evalArgs cfg w.names w.scope es = some (some vs) → ArgsFoldable cfg w es ∧
      ∀ {m vs' m'}, ordinaryAll w es m = some (vs', m') → vs' = vs
  | [], _, vs, h => by
      cases h
      refine ⟨trivial, ?_⟩
      intro m vs' m' h'
      cases h'
      rfl
  | e :: es, hf, vs, h => by
      have hhead : e.Folds cfg w → e.Foldable cfg w := fun he => he.foldable hw
      have htail : ArgsFold cfg w es → ∀ {vs}, evalArgs cfg w.names w.scope es = some (some vs) →
          ArgsFoldable cfg w es ∧ ∀ {m vs' m'}, ordinaryAll w es m = some (vs', m') → vs' = vs :=
        fun hes => hes.foldable hw
      by_cases hsym : e.IsSymbol
      · obtain ⟨x, rfl⟩ := hsym
        rw [evalArgs] at h
        cases hy : (w.names.lookup w.scope x.fullyQualifiedName).bind w.names.valueOf with
        | none => simp [hy] at h
        | some y =>
            cases ha : evalArgs cfg w.names w.scope es with
            | none => simp [hy, ha] at h
            | some r =>
                cases r with
                | none => simp [hy, ha] at h
                | some ys =>
                    obtain rfl : y :: ys = vs := by simpa [hy, ha] using h
                    obtain ⟨hes, hsame⟩ := htail hf ha
                    refine ⟨⟨by rw [hy]; rfl, hes⟩, ?_⟩
                    intro m vs' m' h'
                    obtain ⟨z, m₁, zs, hz, hzs, rfl⟩ := ordinaryAll_cons_eq h'
                    obtain ⟨z', hread, he⟩ := Option.map_eq_some_iff.mp hz
                    cases he
                    cases (read_bound hy).symm.trans hread
                    rw [hsame hzs]
      · obtain ⟨he, hes⟩ := (argsFold_cons hsym).mp hf
        obtain ⟨v, hv, hord⟩ := he.foldsTo
        rw [evalArgs_cons hsym] at h
        cases ha : evalArgs cfg w.names w.scope es with
        | none => simp [hv, ha] at h
        | some r =>
            cases r with
            | none => simp [hv, ha] at h
            | some ys =>
                obtain rfl : v :: ys = vs := by
                  split at h
                  · simpa [hv, ha] using h
                  · cases h
                obtain ⟨hfes, hsame⟩ := htail hes ha
                refine ⟨(argsFoldable_cons hsym).mpr ⟨hhead he, hfes⟩, ?_⟩
                intro m vs' m' h'
                obtain ⟨z, m₁, zs, hz, hzs, rfl⟩ := ordinaryAll_cons_eq h'
                obtain ⟨m₂, hz'⟩ := hord m
                cases hz.symm.trans hz'
                rw [hsame hzs]

end

end Expr

/-- The unfolded code of an expression computes what `ordinary` says, and folding is sound for a
constant expression, and for the expressions in it, exactly when it has the shape and its ordinary
code has a value. -/
theorem folding_iff {cfg : Config} {w : Surroundings} {e : Expr} (hw : w.Regular cfg)
    (hc : e.isConstantExpr (w.bound cfg) = true) :
    (e.isData = true → ∀ b : Builder, b.Fresh → ∃ v b' c, OrdinaryFor cfg e b v b' c) ∧
      (e.Folds cfg w ↔ e.Foldable cfg w ∧ ∃ m, (e.ordinary w m).isSome) := by
  refine ⟨e.ordinaryFor cfg, fun h => ⟨h.foldable hw, {}, ?_⟩, fun ⟨hf, m, hm⟩ => ?_⟩
  · obtain ⟨v, -, hv⟩ := h.foldsTo
    obtain ⟨m', hm⟩ := hv {}
    rw [hm]
    rfl
  · obtain ⟨⟨v, m'⟩, hv⟩ := Option.isSome_iff_exists.mp hm
    exact (hf.folds hw hc hv).2

/-- No names, no slots, and no call or class but `list`. -/
def Surroundings.bare : Surroundings where
  names := {}
  scope := 0
  slot _ := none
  apply f vs m := if f = .native listSymbol then some (Value.ofList vs, m) else none
  create _ _ _ := none

theorem Surroundings.bare_regular : Surroundings.bare.Regular {} where
  list _ _ := by simp [bare]
  new _ := .inl fun _ _ => rfl

/-- `(list 7 (+ 1 2))` is folded to the list of `7` and `3`. -/
theorem folding_iff_sample :
    Expr.Folds {} .bare (.list [.literal (.long 7),
      .binaryOp .add (.literal (.long 1)) (.literal (.long 2))]) :=
  (folding_iff Surroundings.bare_regular rfl).2.mpr
    ⟨⟨rfl, ⟨by decide, rfl, rfl⟩, trivial⟩, {}, rfl⟩

/-- `(= 1 1)` is a constant expression whose ordinary code computes true, and folding it aborts. -/
theorem folding_comparison_aborts :
    let e := Expr.binaryOp .equals (.literal (.long 1)) (.literal (.long 1))
    e.isConstantExpr (Surroundings.bare.bound {}) = true ∧
      (e.ordinary .bare {}).map Prod.fst = some (.bool true) ∧ ¬FoldsTo {} .bare e := by
  refine ⟨rfl, rfl, ?_⟩
  rintro ⟨v, hv, -⟩
  cases hv

end Gel
