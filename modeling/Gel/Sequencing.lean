import Gel.Branches
import Gel.Cond

/-!
# Sequencing — expressions one after the other

`begin`, `when`, and the bodies of lambdas and scripts, over the expression core.  The expressions
of `begin` and `when` are compiled by effect visitors, which drop the constants and nothing else:
their code leaves the values in `kept`.

* `effectFor`: the code of a core expression in effect position.
* `sequenceFor`: the code of a `begin` and of a `when`.
-/

namespace Gel

open FlowGraphCompiler FlowGraphBuilder Layout Interpreter

namespace CoreExpr

def isLiteral : CoreExpr → Bool
  | literal .. => true
  | _ => false

/-- The values of expressions, without those of the literals. -/
def kept : List CoreExpr → List Value → List Value
  | e :: es, v :: vs => if e.isLiteral then kept es vs else v :: kept es vs
  | _, _ => []

theorem evalAll_cons {env : Env} {apply : Application} {e : CoreExpr} {es : List CoreExpr}
    {m m' : Memory} {vs : List Value} :
    evalAll env apply (e :: es) m = some (vs, m') ↔ ∃ v m₁ ws, e.eval env apply m = some (v, m₁) ∧
      evalAll env apply es m₁ = some (ws, m') ∧ vs = v :: ws := by
  simp only [evalAll, Option.bind_eq_bind, Option.bind_eq_some_iff, Option.pure_def,
    Option.some.injEq, Prod.mk.injEq]
  constructor
  · rintro ⟨⟨v, m₁⟩, h₁, ⟨ws, m₂⟩, h₂, rfl, rfl⟩
    exact ⟨v, m₁, ws, h₁, h₂, rfl⟩
  · rintro ⟨v, m₁, ws, h₁, h₂, rfl⟩
    exact ⟨(v, m₁), h₁, (ws, m'), h₂, rfl, rfl⟩

end CoreExpr

/-! ### Effect position -/

/-- The items push the values of expressions that are not literals. -/
def ComputesKept (names : Names) (es : List CoreExpr) (c : List Item) (lo hi : BlockId) : Prop :=
  ∀ (host : Host) {callN a env apply}, ReadsAs callN a apply → ∀ {m},
    env.Holds names.1 names.2 a m → ∀ s {rs m'}, CoreExpr.evalAll env apply es m = some (rs, m') →
      Computes host callN a c lo hi s m ((CoreExpr.kept es rs).reverse ++ s) m'

namespace ComputesKept

variable {names : Names} {e : CoreExpr} {es : List CoreExpr} {c c' : List Item}
  {lo mid hi : BlockId}

theorem nil (names : Names) (lo hi : BlockId) : ComputesKept names [] [] lo hi := by
  intro host callN a env apply hr m hm s rs m' he
  cases he
  exact .nil _ _ _ _

/-- One expression in front of others. -/
theorem cons (h : ComputesKept names [e] c lo mid) (h' : ComputesKept names es c' mid hi)
    (hlo : lo ≤ mid) (hhi : mid ≤ hi) (hlabels : LabelsIn lo mid c) :
    ComputesKept names (e :: es) (c ++ c') lo hi := by
  intro host callN a env apply hr m hm s rs m' he
  obtain ⟨v, m₁, ws, hv, hws, rfl⟩ := CoreExpr.evalAll_cons.mp he
  have hk := CoreExpr.eval_keeps hr hv
  have hone : CoreExpr.evalAll env apply [e] m = some ([v], m₁) :=
    CoreExpr.evalAll_cons.mpr ⟨v, m₁, [], hv, rfl, rfl⟩
  have hall := (h host hr hm s hone).append (h' host hr (hm.keeps hk) _ hws) hk hlo hhi
    fun l h₁ _ => hlabels.not_bind (.inr h₁)
  cases hl : e.isLiteral with
  | true => simpa [CoreExpr.kept, hl] using hall
  | false => simpa [CoreExpr.kept, hl] using hall

end ComputesKept

/-- The code of a core expression in effect position. -/
structure EffectFor (cfg : Config) (e : CoreExpr) (b : Builder) (v : Visitor) (b' : Builder)
    (c : List Item) : Prop where
  run : visit cfg .effect e.toExpr {} b = some (v, b')
  built : Built Anywhere b v b' c
  labels : LabelsIn b.numBlocks b'.numBlocks c
  computes : ComputesKept (b.scopes, b.scope) [e] c b.numBlocks b'.numBlocks

section Effect

variable {cfg : Config} {b b' : Builder} {v v' : Visitor} {c : List Item}

/-- The two visitors return a new instruction in the same way, unless it is a constant. -/
theorem returnNew_effect_of_value {x : Instr} (hx : ∀ y, x ≠ .constant y)
    (h : FlowGraphBuilder.returnNew .value v x b = some (v', b')) :
    ∃ y, FlowGraphBuilder.returnNew .effect v x b = some ({ v' with value := y }, b') := by
  rw [FlowGraphBuilder.returnNew, Partial.bind_run (newInstr_alloc x b)] at h ⊢
  exact returnDefinition_effect_of_value (isConstant_of_instr? (b.instr?_alloc x) hx) h

/-- Behind the same steps. -/
theorem effect_bind {α : Type} {p : Build α} {f g : α → Build Visitor}
    (hfg : ∀ x {b v' b'}, f x b = some (v', b') → ∃ y, g x b = some ({ v' with value := y }, b'))
    (h : (p >>= f) b = some (v', b')) :
    ∃ y, (p >>= g) b = some ({ v' with value := y }, b') := by
  obtain ⟨x, b₁, h₁, h₂⟩ := Partial.bind_eq_some.mp h
  rw [Partial.bind_run h₁]
  exact hfg x h₂

/-- An expression that is neither a literal nor a parameter is compiled by an effect visitor as by a
value visitor. -/
theorem visit_effect_of_value {e : CoreExpr} (he : ∀ value, e.toExpr ≠ .literal value)
    (h : visit cfg .value e.toExpr {} b = some (v, b')) :
    ∃ y, visit cfg .effect e.toExpr {} b = some ({ v with value := y }, b') := by
  cases e with
  | literal value h => exact absurd rfl (he value)
  | param x => exact absurd rfl (he (.symbol x))
  | unary op e =>
      rw [CoreExpr.toExpr, visit] at h ⊢
      refine effect_bind (fun f _ _ _ h => effect_bind (fun w _ _ _ h => ?_) h) h
      -- the check that only `car` and `cdr` have
      by_cases hop : op = .car ∨ op = .cdr
      · rw [if_pos hop] at h ⊢
        exact effect_bind (fun _ _ _ _ h => returnNew_effect_of_value (by simp) h) h
      · rw [if_neg hop] at h ⊢
        exact effect_bind (fun _ _ _ _ h => returnNew_effect_of_value (by simp) h) h
  | binary op l r =>
      rw [CoreExpr.toExpr, visit] at h ⊢
      exact effect_bind (fun _ _ _ _ h => effect_bind (fun _ _ _ _ h => effect_bind
        (fun _ _ _ _ h => effect_bind
          (fun _ _ _ _ h => returnNew_effect_of_value (by simp) h) h) h) h) h
  | call target args =>
      rw [CoreExpr.toExpr, visit] at h ⊢
      refine effect_bind (fun _ _ _ _ h => effect_bind (fun f _ _ _ h => ?_) h) h
      cases hv : f.value with
      | none =>
          rw [hv] at h
          cases h
      | some defn =>
          rw [hv] at h
          exact returnCallTo_effect h
  | cond t x y =>
      rw [CoreExpr.toExpr, visit] at h ⊢
      exact ⟨v.value, h⟩

/-- What a value visitor builds, an effect visitor builds as well. -/
theorem CodeFor.effect {e : CoreExpr} (he : ∀ value, e.toExpr ≠ .literal value)
    (h : CodeFor cfg e b v b' c) : ∃ v' b' c', EffectFor cfg e b v' b' c' := by
  obtain ⟨y, hrun⟩ := visit_effect_of_value he h.run
  refine ⟨_, b', c, hrun, h.built.value y, h.labels, ?_⟩
  intro host callN a env apply hr m hm s rs m' hrs
  obtain ⟨r, m₁, ws, hv, hws, rfl⟩ := CoreExpr.evalAll_cons.mp hrs
  cases hws
  have hl : e.isLiteral = false := by
    cases e with
    | literal value h => exact absurd rfl (he value)
    | _ => rfl
  simpa [CoreExpr.kept, hl] using h.computes host hr hm s hv

/-- Literals and parameters: a constant is dropped. -/
theorem effectFor_literal {e : CoreExpr} {value : Value} (he : e.toExpr = .literal value)
    (hf : b.Fresh)
    (heval : ∀ {host : Host} {callN a env apply}, ReadsAs callN a apply → ∀ {m},
      env.Holds b.scopes b.scope a m → ∀ {r m'}, e.eval env apply m = some (r, m') → ∀ s lo hi,
      Computes host callN a (if Mode.effect.drops (b.scopes.literalInstr b.scope value) then []
        else [.visit b.graph.size,
          .code (literalCode (b.scopes.literalInstr b.scope value))]) lo hi s m
        ((CoreExpr.kept [e] [r]).reverse ++ s) m') :
    ∃ v b' c, EffectFor cfg e b v b' c := by
  obtain ⟨v, b', hrun, hblocks, hbuilt⟩ :=
    (Built.start hf : Built Anywhere b {} b []).return .effect
      (b.scopes.literalInstr_straight b.scope value _)
  refine ⟨v, b', _, ?_, hbuilt, ?_, ?_⟩
  · rw [he, visit, visitLiteral_run]
    exact hrun
  · rw [List.nil_append]
    split
    · exact .nil _ _
    · exact .instr _ _ _ _
  · intro host callN a env apply hr m hm s rs m' hrs
    obtain ⟨r, m₁, ws, hv, hws, rfl⟩ := CoreExpr.evalAll_cons.mp hrs
    cases hws
    exact heval hr hm hv s _ _

/-- **The code of a core expression in effect position.** -/
theorem effectFor (cfg : Config) (e : CoreExpr) {b : Builder} (hf : b.Fresh) :
    ∃ v b' c, EffectFor cfg e b v b' c := by
  cases e with
  | literal value hs =>
      refine effectFor_literal rfl hf fun {_ _ _ _ _} _ {_} _ {_ _} he s lo hi => ?_
      cases he
      rw [b.scopes.literalInstr_of_not_symbol b.scope hs]
      exact .nil _ _ _ _
  | param x =>
      refine effectFor_literal rfl hf fun {_ _ a _ _} _ {_} hm {_ _} he s lo hi => ?_
      obtain ⟨v, hv, he⟩ := Option.map_eq_some_iff.mp he
      cases he
      obtain ⟨l, idx, hi, hslot⟩ := hm.param hv
      rw [hi]
      exact .instr rfl nofun fun p q => a.loadLocal_state q s _ hslot
  | _ =>
      obtain ⟨v, b', c, h⟩ := (CoreExpr.compiles cfg _).code b hf
      exact h.effect (by simp [CoreExpr.toExpr])

/-- **Expressions in effect position**, behind what a visitor has built already. -/
theorem effectsFor (cfg : Config) (es : List CoreExpr) {b₀ b : Builder} {v : Visitor} {c : List Item}
    (h : Built Anywhere b₀ v b c) :
    ∃ v' b' c', visitSequence cfg (CoreExpr.toExprs es) v b = some (v', b') ∧ v'.value = v.value ∧
      Built Anywhere b₀ v' b' (c ++ c') ∧ b.numBlocks ≤ b'.numBlocks ∧
      LabelsIn b.numBlocks b'.numBlocks c' ∧
      ComputesKept (b.scopes, b.scope) es c' b.numBlocks b'.numBlocks := by
  induction es generalizing v b c with
  | nil => exact ⟨v, b, [], rfl, rfl, by rwa [List.append_nil], le_rfl, .nil _ _, .nil _ _ _⟩
  | cons e es ihs =>
      obtain ⟨v₁, b₁, c₁, h₁⟩ := effectFor cfg e h.fresh
      obtain ⟨v₂, b₂, hrun₂, hval₂, -, hblocks₂, hbuilt₂⟩ := h.append h₁.built
      obtain ⟨v₃, b₃, c₃, hrun₃, hval₃, hbuilt₃, hle₃, hlabels₃, hcomp₃⟩ := ihs hbuilt₂
      have hle : b.numBlocks ≤ b₂.numBlocks := hblocks₂ ▸ h₁.built.grown.blocks
      have hlabels₁ : LabelsIn b.numBlocks b₂.numBlocks c₁ := hblocks₂ ▸ h₁.labels
      have hnames : (b₂.scopes, b₂.scope) = (b.scopes, b.scope) := by
        rw [hbuilt₂.grown.scopes, hbuilt₂.grown.scope, ← h.grown.scopes, ← h.grown.scope]
      refine ⟨v₃, b₃, c₁ ++ c₃, ?_, hval₃.trans hval₂, by rw [← List.append_assoc]; exact hbuilt₃,
        hle.trans hle₃, ?_, ?_⟩
      · rw [CoreExpr.toExprs, visitSequence, if_pos h.isOpen, Partial.bind_run h₁.run,
          Partial.bind_run hrun₂]
        exact hrun₃
      · exact (hlabels₁.mono le_rfl hle₃).append (hlabels₃.mono hle le_rfl)
      · exact .cons (hblocks₂ ▸ h₁.computes) (hnames ▸ hcomp₃) hle hle₃ hlabels₁

/-- **The expressions of a block** in effect position. -/
theorem conseqFor (cfg : Config) (es : List CoreExpr) {b₀ b : Builder} {own : Set InstrId} {target : InstrId}
    {c : List Item} (h : Chaining Anywhere b₀ own target b c) :
    ∃ b' own' c', visitConseq cfg target (CoreExpr.toExprs es) b = some ((), b') ∧
      Grown own b b' ∧ Chaining Anywhere b₀ own' target b' (c ++ c') ∧
      LabelsIn b.numBlocks b'.numBlocks c' ∧
      ComputesKept (b.scopes, b.scope) es c' b.numBlocks b'.numBlocks := by
  induction es generalizing b own c with
  | nil => exact ⟨b, own, [], rfl, .refl _ _, by rwa [List.append_nil], .nil _ _, .nil _ _ _⟩
  | cons e es ihs =>
      obtain ⟨v₁, b₁, c₁, h₁⟩ := effectFor cfg e h.fresh
      obtain ⟨b₂, own₂, hrun₂, hg₂, -, hblocks₂, hown₂, hchain₂⟩ := h.appendFragment h₁.built
      obtain ⟨b₃, own₃, c₃, hrun₃, hg₃, hchain₃, hlabels₃, hcomp₃⟩ := ihs hchain₂
      have hlabels₁ : LabelsIn b.numBlocks b₂.numBlocks c₁ := hblocks₂ ▸ h₁.labels
      have hnames : (b₂.scopes, b₂.scope) = (b.scopes, b.scope) := by rw [hg₂.scopes, hg₂.scope]
      refine ⟨b₃, own₃, c₁ ++ c₃, ?_, ?_, by rwa [← List.append_assoc], ?_, ?_⟩
      · rw [CoreExpr.toExprs, visitConseq, Partial.bind_run h₁.run, Partial.bind_run hrun₂]
        exact hrun₃
      · refine hg₂.trans hg₃ fun i hi hlt => ?_
        exact (hown₂ i hi).resolve_right (Nat.not_le.mpr hlt)
      · exact (hlabels₁.mono le_rfl hg₃.blocks).append (hlabels₃.mono hg₂.blocks le_rfl)
      · exact .cons (hblocks₂ ▸ h₁.computes) (hnames ▸ hcomp₃) hg₂.blocks hg₃.blocks hlabels₁

end Effect

/-! ### `begin` and `when` -/

/-- A `begin` or a `when` over the core. -/
inductive Sequence where
  | begin (body : List CoreExpr)
  | when (test : CoreExpr) (body : List CoreExpr)

namespace Sequence

def toExpr : Sequence → Expr
  | begin body => .begin (CoreExpr.toExprs body)
  | .when test body => .when test.toExpr (CoreExpr.toExprs body)

def body : Sequence → List CoreExpr
  | begin body | .when _ body => body

/-- The values of the expressions that are evaluated, in source order: those of a `when` only when
its test is true. -/
def eval (env : Env) (apply : Application) : Sequence → Memory → Option (List Value × Memory)
  | begin body, m => CoreExpr.evalAll env apply body m
  | .when test body, m => do
      let (r, m) ← test.eval env apply m
      if r.truth then CoreExpr.evalAll env apply body m else return ([], m)

end Sequence

/-- The code of a sequence in value position. -/
structure SequenceFor (cfg : Config) (f : Sequence) (b : Builder) (v : Visitor) (b' : Builder)
    (c : List Item) : Prop where
  run : visit cfg .value f.toExpr {} b = some (v, b')
  value : v.value = none
  built : Built Anywhere b v b' c
  labels : LabelsIn b.numBlocks b'.numBlocks c
  join : ∀ test body, f = .when test body → ∃ j, v.exit = some j ∧
    b'.graph.isJoinEntry j = true
  computes : ∀ (host : Host) {callN a env apply}, ReadsAs callN a apply → ∀ {m},
    env.Holds b.scopes b.scope a m → ∀ s {rs m'}, f.eval env apply m = some (rs, m') →
      Computes host callN a c b.numBlocks b'.numBlocks s m
        ((CoreExpr.kept f.body rs).reverse ++ s) m'

section Sequence

variable {cfg : Config} {b : Builder}

theorem codeFor_begin (body : List CoreExpr) (hf : b.Fresh) :
    ∃ v b' c, SequenceFor cfg (.begin body) b v b' c := by
  obtain ⟨v, b', c, hrun, hval, hbuilt, -, hlabels, hcomp⟩ :=
    effectsFor cfg body (Built.start hf)
  refine ⟨v, b', c, ?_, hval, hbuilt, hlabels, nofun, hcomp⟩
  rw [Sequence.toExpr, visit]
  exact hrun

/-- The code of a `when` runs the test, and the body when the test is true. -/
theorem computes_when {names : Names} {test : CoreExpr} {body : List CoreExpr} {k : WhenCode}
    {n mid hi : BlockId} (hmid : n + 2 ≤ mid) (hhi : mid ≤ hi)
    (hlabels : LabelsIn (n + 2) mid k.actions)
    (hactions : ComputesKept names body k.actions (n + 2) mid) (hlabelsT : LabelsIn mid hi k.test)
    (htest : ∀ (host : Host) {callN a env apply}, ReadsAs callN a apply → ∀ {m},
      env.Holds names.1 names.2 a m → ∀ s {r m'}, test.eval env apply m = some (r, m') →
        Computes host callN a k.test mid hi s m (r :: s) m')
    (host : Host) {callN : CallWithNArgs} {a : Activation} {env : Env} {apply : Application}
    (hr : ReadsAs callN a apply) {m : Memory} (hm : env.Holds names.1 names.2 a m)
    (s : List Value) {rs : List Value} {m' : Memory}
    (he : (Sequence.when test body).eval env apply m = some (rs, m')) :
    Computes host callN a (k.items n) n hi s m ((CoreExpr.kept body rs).reverse ++ s) m' := by
  intro pre post hfree hl
  simp only [Sequence.eval, Option.bind_eq_bind, Option.bind_eq_some_iff] at he
  obtain ⟨⟨r, m₁⟩, hv, hsel⟩ := he
  have hk := CoreExpr.eval_keeps hr hv
  have hn : n < hi := (Nat.lt_add_of_pos_right (by decide)).trans_le (hmid.trans hhi)
  have hpre : Item.bind n ∉ pre := hfree n le_rfl hn
  have hnT : Item.bind n ∉ k.test :=
    hlabelsT.not_bind (.inl ((Nat.lt_add_of_pos_right (by decide)).trans_le hmid))
  have hnA : Item.bind n ∉ k.actions :=
    hlabels.not_bind (.inl (Nat.lt_add_of_pos_right (by decide)))
  have hp := htest host hr hm s hv pre (.visit k.branch :: .jump (branchOp .true) n ::
    .bind (n + 1) :: (.visit k.target :: (k.actions ++ [.visit k.goto, .jump .jump n]) ++
      [.bind n, .visit k.join]) ++ post)
    (fun l h₁ h₂ => hfree l ((Nat.le_add_right n 2).trans (hmid.trans h₁)) h₂)
    (by simpa [WhenCode.items] using hl)
  have hp₁ : Passes host callN a (size pre) s m (size (pre ++ (k.test ++ [.visit k.branch])))
      (r :: s) m₁ := by
    simpa [Item.size] using hp
  cases htruth : r.truth with
  | true =>
      rw [if_pos htruth] at hsel
      have hl₁ : Loaded ((pre ++ (k.test ++ [.visit k.branch])) ++ .jump (branchOp .true) n ::
          (.bind (n + 1) :: (.visit k.target :: (k.actions ++ [.visit k.goto, .jump .jump n]) ++
            [.bind n, .visit k.join]) ++ post)) a.region m₁ := by
        refine hk.loaded ?_
        simpa [WhenCode.items] using hl
      have hleg₁ := Leg.stay s m₁ hp₁ hl₁ (branchOp_mem _) fun target => by
        rw [branchOp, Activation.jump_jnz, if_pos htruth]
      have hstart : size (pre ++ (k.test ++ [.visit k.branch])) + 9
          = size (pre ++ (k.test ++ [.visit k.branch, .jump (branchOp .true) n, .bind (n + 1),
            .visit k.target])) := by
        simp [Item.size]
        omega
      have hp₂ := hactions host hr (hm.keeps hk) s hsel
        (pre ++ (k.test ++ [.visit k.branch, .jump (branchOp .true) n, .bind (n + 1),
          .visit k.target])) (.visit k.goto :: .jump .jump n :: .bind n :: .visit k.join :: post)
        (fun l h₁ h₂ hmem => by
          have h₃ := hfree l ((Nat.le_add_right n 2).trans h₁) (h₂.trans_le hhi)
          have h₄ := hlabelsT.not_bind (.inl h₂)
          have h₅ : l ≠ n + 1 := (Nat.lt_of_succ_le h₁).ne'
          simp [h₃, h₄, h₅] at hmem)
        (hk.loaded (by simpa [WhenCode.items] using hl))
      have hk₂ := CoreExpr.evalAll_keeps hr hsel
      have hl₂ : Loaded ((pre ++ (k.test ++ .visit k.branch :: .jump (branchOp .true) n ::
          .bind (n + 1) :: .visit k.target :: (k.actions ++ [.visit k.goto]))) ++ .jump .jump n ::
            ([] ++ .bind n :: (.visit k.join :: post))) a.region m' := by
        refine (hk.trans hk₂).loaded ?_
        simpa [WhenCode.items] using hl
      have hp₃ : Passes host callN a (size (pre ++ (k.test ++ [.visit k.branch,
          .jump (branchOp .true) n, .bind (n + 1), .visit k.target]))) s m₁
          (size (pre ++ (k.test ++ .visit k.branch :: .jump (branchOp .true) n :: .bind (n + 1) ::
            .visit k.target :: (k.actions ++ [.visit k.goto]))))
          ((CoreExpr.kept body rs).reverse ++ s) m' := by
        simpa [Item.size] using hp₂
      have hleg₂ := Leg.forward ((CoreExpr.kept body rs).reverse ++ s) m' hp₃ hl₂ (by decide)
        (by simp [hpre, hnT, hnA]) (List.not_mem_nil) fun target => rfl
      rw [hstart] at hleg₁
      have hall := (hleg₁.passes (by rw [← hstart]; omega)).trans (hleg₂.passes (by simp [Item.size]))
      simpa [WhenCode.items, Item.size] using hall
  | false =>
      rw [if_neg (by simp [htruth])] at hsel
      cases hsel
      have hl₁ : Loaded ((pre ++ (k.test ++ [.visit k.branch])) ++ .jump (branchOp .true) n ::
          ((.bind (n + 1) :: .visit k.target :: (k.actions ++ [.visit k.goto, .jump .jump n])) ++
            .bind n :: (.visit k.join :: post))) a.region m₁ := by
        refine hk.loaded ?_
        simpa [WhenCode.items] using hl
      have hleg := Leg.forward s m₁ hp₁ hl₁ (branchOp_mem _) (by simp [hpre, hnT])
        (by simp [hnA]) fun target => by
          rw [branchOp, Activation.jump_jnz, if_neg (by simp [htruth])]
      have hall := hleg.passes (by simp [Item.size])
      have hkept : CoreExpr.kept body [] = [] := by cases body <;> rfl
      simpa [WhenCode.items, Item.size, hkept] using hall

theorem codeFor_when (test : CoreExpr) (body : List CoreExpr) (hf : b.Fresh) :
    ∃ v b' c, SequenceFor cfg (.when test body) b v b' c := by
  obtain ⟨v, b', k, h⟩ : ∃ v b' k, WhenFor cfg .value test.toExpr (CoreExpr.toExprs body)
      (ComputesKept (b.scopes, b.scope) body)
      (fun c lo hi => ∀ (host : Host) {callN a env apply}, ReadsAs callN a apply → ∀ {m},
        env.Holds b.scopes b.scope a m → ∀ s {r m'}, test.eval env apply m = some (r, m') →
          Computes host callN a c lo hi s m (r :: s) m') b v b' k := by
    refine whenFor hf (fun b₁ hf₁ hn₁ => ?_) fun b₄ hf₄ hn₄ => ?_
    · obtain ⟨b₃, own₃, c₃, hrun₃, hg₃, hchain₃, hlabels₃, hcomp₃⟩ :=
        conseqFor cfg body (Chaining.start hf₁ fun _ => rfl : Chaining Anywhere b₁
          {b₁.graph.size} b₁.graph.size (b₁.allocBlock .targetEntry) [.visit b₁.graph.size])
      exact ⟨b₃, own₃, c₃, hrun₃, hg₃, hchain₃, hlabels₃, hn₁ ▸ hcomp₃⟩
    · obtain ⟨v₅, b₅, c₅, h₅⟩ := (CoreExpr.compiles cfg test).code b₄ hf₄
      obtain ⟨hscopes, hscope⟩ := Prod.mk.inj hn₄
      refine ⟨v₅, b₅, c₅, h₅.run, h₅.built, h₅.labels, ?_⟩
      rw [← hscopes, ← hscope]
      exact h₅.computes
  obtain ⟨mid, hmid, hle, hlabels, hactions, hlabelsT, htest⟩ := h.parts
  refine ⟨v, b', _, h.run, h.value, h.built, h.labels, fun _ _ _ => ⟨k.join, h.exit, h.isJoin⟩, ?_⟩
  exact computes_when hmid hle hlabels hactions hlabelsT htest

/-- **The code of a sequence.** -/
theorem sequenceFor (cfg : Config) (f : Sequence) (hf : b.Fresh) :
    ∃ v b' c, SequenceFor cfg f b v b' c := by
  cases f with
  | begin body => exact codeFor_begin body hf
  | when test body => exact codeFor_when test body hf

end Sequence

/-- **A run through a part of the code leads to one state.** -/
theorem Passes.unique {host : Host} {callN : CallWithNArgs} {a : Activation} {lo hi : Nat}
    {s s₁ s₂ : List Value} {m m₁ m₂ : Memory} (h : Passes host callN a lo s m hi s₁ m₁)
    (h' : Passes host callN a lo s m hi s₂ m₂) : s₁ = s₂ ∧ m₁ = m₂ := by
  obtain ⟨ps, hrun, hps⟩ := h
  obtain ⟨qs, hrun', hqs⟩ := h'
  have hstop : ∀ {cs s t m n}, Runs.Run (Steps host callN a.region) cs (a.state hi s m)
      (a.state hi t n) → (∀ p ∈ cs, p < hi) → s = t ∧ m = n := by
    intro cs s t m n hcs hlt
    cases hcs with
    | refl => exact ⟨rfl, rfl⟩
    | head hs _ =>
        cases hs.1
        exact absurd (hlt _ List.mem_cons_self) (Nat.lt_irrefl _)
  rcases hrun.prefix_or (steps_deterministic host callN a.region) hrun' with
    ⟨cs, rfl, hcs⟩ | ⟨cs, rfl, hcs⟩
  · exact hstop hcs fun p hp => (hqs p (List.mem_append_right _ hp)).2
  · obtain ⟨rfl, rfl⟩ := hstop hcs fun p hp => (hps p (List.mem_append_right _ hp)).2
    exact ⟨rfl, rfl⟩

end Gel
