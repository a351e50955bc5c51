import Gel.BuilderSteps
import Gel.Balance
import Gel.Labels
import Mathlib.Data.List.Find

/-!
# Growth — what a run only adds to

Variables are never taken out of a scope, the parent of a scope is an older scope, and code that has
been compiled stays where it is.  Building a flow graph keeps this (`Builder.Steps.kept`), so does
one operation of the interpreter (`exec_kept`), and by induction every run, at any depth of calls
(`Ends.kept`), if the natives, the event loop and the parser only add to the memory as well.

* `compiled_once`: a lambda is compiled once, and its code decodes to the same operations ever after.
* `variable_stays`: a variable keeps its scope, its slot and its name, and scopes end at a root.
* `blocks_distinct`: no two blocks of a flow graph have one id.
-/

namespace Gel

open FlowGraphBuilder FlowGraphCompiler Faulting

/-! ### Scopes -/

/-- Nothing is taken out of a scope. -/
structure Scopes.Kept (m m' : Scopes) : Prop where
  extended : m.Extended m'
  locals : ∀ s, m.localsOf s <+: m'.localsOf s

/-- The parent of a scope is an older one. -/
def Scopes.Rooted (m : Scopes) : Prop := ∀ s p, m.parentOf s = some p → p < s

namespace Scopes

variable {m m' m'' : Scopes} {s t p : ScopeId} {l : LocalId}

theorem parentOf_lt (h : m.parentOf s = some p) : s < m.scopes.length := by
  by_contra hs
  rw [parentOf, List.getElem?_eq_none (Nat.le_of_not_lt hs)] at h
  cases h

theorem parentOf_newScope (m : Scopes) (parent : Option ScopeId) (locals : List LocalId)
    (s : ScopeId) :
    ({ m with scopes := m.scopes ++ [{ parent, locals }] } : Scopes).parentOf s
      = if s = m.scopes.length then parent else m.parentOf s := by
  rcases Nat.lt_trichotomy s m.scopes.length with hs | rfl | hs
  · simp [parentOf, List.getElem?_append_left hs, hs.ne]
  · simp [parentOf]
  · have hnew : (m.scopes ++ [LocalScope.mk parent locals]).length ≤ s := by
      rw [List.length_append]
      exact hs
    rw [if_neg hs.ne', parentOf, parentOf, List.getElem?_eq_none hs.le,
      List.getElem?_eq_none hnew]

theorem localsOf_newScope_prefix (m : Scopes) (parent : Option ScopeId) (locals : List LocalId)
    (s : ScopeId) :
    m.localsOf s <+:
      ({ m with scopes := m.scopes ++ [{ parent, locals }] } : Scopes).localsOf s := by
  by_cases hs : s < m.scopes.length
  · rw [localsOf, localsOf, List.getElem?_append_left hs]
  · rw [localsOf, List.getElem?_eq_none (Nat.le_of_not_lt hs)]
    exact List.nil_prefix

theorem localsOf_push_prefix (m : Scopes) (t : ScopeId) (l : LocalId) (s : ScopeId) :
    m.localsOf s <+: (m.push t l).localsOf s := by
  by_cases hs : t = s
  · subst hs
    cases hx : m.scopes[t]? <;> simp [localsOf, push, hx]
  · simp [localsOf, push, hs]

namespace Kept

theorem refl (m : Scopes) : m.Kept m := ⟨.refl m, fun _ => List.prefix_refl _⟩

theorem trans (h : m.Kept m') (h' : m'.Kept m'') : m.Kept m'' :=
  ⟨h.extended.trans h'.extended, fun s => (h.locals s).trans (h'.locals s)⟩

/-- What is at a place of a scope stays there. -/
theorem getLocalAt (h : m.Kept m') {idx : Nat} (hl : m.getLocalAt s idx = some l) :
    m'.getLocalAt s idx = some l := by
  obtain ⟨r, hr⟩ := h.locals s
  have hlt : idx < (m.localsOf s).length := (List.getElem?_eq_some_iff.mp hl).1
  rw [Scopes.getLocalAt, ← hr, List.getElem?_append_left hlt]
  exact hl

/-- A variable keeps its name and its index. -/
theorem named (h : m.Kept m') {x : LocalVariable} (hx : m.locals[l]? = some x) :
    ∃ y, m'.locals[l]? = some y ∧ y.name = x.name ∧ y.index = x.index := by
  have hmap := List.prefix_iff_getElem?.mp h.extended.locals l
    (by simpa using (List.getElem?_eq_some_iff.mp hx).1)
  rw [List.getElem?_map, Option.map_eq_some_iff] at hmap
  obtain ⟨y, hy, hpair⟩ := hmap
  obtain ⟨hlt, rfl⟩ := List.getElem?_eq_some_iff.mp hx
  simp only [List.getElem_map, Prod.mk.injEq] at hpair
  exact ⟨y, hy, hpair⟩

/-- A name that a scope has is the same variable ever after. -/
theorem lookupHere (h : m.Kept m') (hs : ∀ k ∈ m.localsOf s, k < m.locals.length) {name : String}
    (hl : m.lookupHere s name = some l) : m'.lookupHere s name = some l := by
  have hsame : ∀ k ∈ m.localsOf s, (m.locals[k]?.any fun x => x.name == name)
      = m'.locals[k]?.any fun x => x.name == name := by
    intro k hk
    have hx := List.getElem?_eq_getElem (hs k hk)
    obtain ⟨y, hy, hname, -⟩ := h.named hx
    simp [hx, hy, hname]
  refine (h.locals s).find?_eq_some ?_
  rw [← List.find?_congr hsame]
  exact hl

end Kept

/-- **A step** takes nothing out of a scope. -/
theorem Step.kept (h : Step m m') : m.Kept m' := by
  cases h with
  | newScope parent locals hparent =>
      exact ⟨⟨by simp, List.prefix_refl _⟩, localsOf_newScope_prefix m parent locals⟩
  | newLocal s name value => exact ⟨.newLocal m s name value, fun _ => List.prefix_refl _⟩
  | push s l hnew => exact ⟨.modifyScope m s (· ++ [l]), localsOf_push_prefix m s l⟩
  | setValue l value => exact ⟨.setValue m l value, fun _ => List.prefix_refl _⟩

theorem Evolves.kept (h : m.Evolves m') : m.Kept m' := by
  induction h with
  | refl => exact .refl m
  | tail _ hstep ih => exact ih.trans hstep.kept

/-- A new scope below an older one. -/
theorem Rooted.newScope (h : m.Rooted) {parent : Option ScopeId} (locals : List LocalId)
    (hparent : ∀ p ∈ parent, p < m.scopes.length) :
    Rooted { m with scopes := m.scopes ++ [{ parent, locals }] } := by
  intro s p hp
  rw [parentOf_newScope] at hp
  split at hp
  · rename_i hs
    exact hs ▸ hparent p hp
  · exact h s p hp

theorem Rooted.of_parents (h : m.Rooted) (hparents : ∀ s, m'.parentOf s = m.parentOf s) :
    m'.Rooted := fun s p hp => h s p ((hparents s).symm.trans hp)

/-- **A step** leaves the parent of a scope an older one. -/
theorem Step.rooted (h : Step m m') (hm : m.Rooted) : m'.Rooted := by
  cases h with
  | newScope parent locals hparent => exact hm.newScope locals hparent
  | newLocal s name value => exact hm
  | push s l hnew =>
      refine hm.of_parents fun t => ?_
      by_cases ht : s = t
      · subst ht
        cases hx : m.scopes[s]? <;> simp [parentOf, Scopes.push, hx]
      · simp [parentOf, Scopes.push, ht]
  | setValue l value => exact hm

theorem Evolves.rooted (h : m.Evolves m') (hm : m.Rooted) : m'.Rooted := by
  induction h with
  | refl => exact hm
  | tail _ hstep ih => exact hstep.rooted ih

theorem Kept.length_le (h : m.Kept m') : m.scopes.length ≤ m'.scopes.length :=
  h.extended.length_le

/-- The chain of scopes around `s` is no longer than `s`. -/
theorem Rooted.lookupWithin_eq (hm : m.Rooted) (name : String) {n n' : Nat} (hn : s < n)
    (hn' : s < n') : m.lookupWithin name n s = m.lookupWithin name n' s := by
  induction n generalizing s n' with
  | zero => cases hn
  | succ n ih =>
      obtain ⟨n', rfl⟩ := Nat.exists_eq_add_one_of_ne_zero (Nat.ne_zero_of_lt hn')
      rw [lookupWithin, lookupWithin]
      cases m.lookupHere s name with
      | some l => rfl
      | none =>
          cases hp : m.parentOf s with
          | none => rfl
          | some p =>
              have hlt := hm s p hp
              exact ih (hlt.trans_le (Nat.le_of_lt_succ hn)) (hlt.trans_le (Nat.le_of_lt_succ hn'))

end Scopes

/-! ### Flow graphs -/

/-- The current scope is there, and below a root. -/
def Builder.Rooted (b : Builder) : Prop := b.scopes.Rooted ∧ b.scope < b.scopes.scopes.length

/-- The ids of the blocks, below a bound and each for one block. -/
structure Graph.BlocksBelow (g : Graph) (n : Nat) : Prop where
  below : ∀ i x k, g.instr? i = some x → x.blockId = some k → k < n
  distinct : ∀ i j x y k, g.instr? i = some x → x.blockId = some k → g.instr? j = some y →
    y.blockId = some k → i = j

namespace Builder

variable {b b' : Builder}

theorem Step.kept (h : Step b b') : b.scopes.Kept b'.scopes := by
  cases h with
  | scopes m hm => exact hm.kept
  | enter locals =>
      exact ⟨⟨by simp, List.prefix_refl _⟩,
        Scopes.localsOf_newScope_prefix b.scopes (some b.scope) locals⟩
  | _ => exact .refl _

theorem Steps.kept (h : b.Steps b') : b.scopes.Kept b'.scopes := by
  induction h with
  | refl => exact .refl _
  | tail _ hstep ih => exact ih.trans hstep.kept

theorem Step.rooted (h : Step b b') (hb : b.Rooted) : b'.Rooted := by
  cases h with
  | scopes m hm => exact ⟨hm.rooted hb.1, hb.2.trans_le hm.kept.length_le⟩
  | enter locals =>
      refine ⟨hb.1.newScope locals ?_, by simp⟩
      rintro p ⟨⟩
      exact hb.2
  | leave p hp => exact ⟨hb.1, (hb.1 _ _ hp).trans hb.2⟩
  | _ => exact hb

theorem Steps.rooted (h : b.Steps b') (hb : b.Rooted) : b'.Rooted := by
  induction h with
  | refl => exact hb
  | tail _ hstep ih => exact hstep.rooted ih

theorem instr?_of_alloc {g : Graph} {x y : Instr} {i : InstrId}
    (h : (g.alloc x).2.instr? i = some y) :
    g.instr? i = some y ∨ i = g.instrs.length ∧ y = x := by
  rcases Nat.lt_or_ge i g.instrs.length with hi | hi
  · rw [Graph.instr?, Graph.alloc, List.getElem?_append_left hi] at h
    exact .inl h
  · rw [Graph.instr?, Graph.alloc, List.getElem?_append_right hi] at h
    obtain ⟨hlt, rfl⟩ := List.getElem?_eq_some_iff.mp h
    have hi' : i = g.instrs.length :=
      Nat.le_antisymm (Nat.sub_eq_zero_iff_le.mp (Nat.lt_one_iff.mp hlt)) hi
    exact .inr ⟨hi', by simp [hi']⟩

/-- **A step** gives a block an id of its own. -/
theorem Step.blocksBelow (h : Step b b') (hb : b.graph.BlocksBelow b.numBlocks) :
    b'.graph.BlocksBelow b'.numBlocks := by
  cases h with
  | alloc x hx =>
      have hold : ∀ i y k, (b.graph.alloc x).2.instr? i = some y → y.blockId = some k →
          b.graph.instr? i = some y := by
        intro i y k hi hk
        rcases instr?_of_alloc hi with hi | ⟨-, rfl⟩
        · exact hi
        · cases hx.symm.trans hk
      exact ⟨fun i y k hi hk => hb.below i y k (hold i y k hi hk) hk,
        fun i j y z k hi hk hj hk' =>
          hb.distinct i j y z k (hold i y k hi hk) hk (hold j z k hj hk') hk'⟩
  | block x hx =>
      refine ⟨fun i y k hi hk => ?_, fun i j y z k hi hk hj hk' => ?_⟩
      · rcases instr?_of_alloc hi with hi | ⟨-, rfl⟩
        · exact Nat.lt_succ_of_lt (hb.below i y k hi hk)
        · cases (hx _).symm.trans hk
          exact Nat.lt_succ_self _
      · rcases instr?_of_alloc hi with hi | ⟨rfl, rfl⟩ <;>
          rcases instr?_of_alloc hj with hj | ⟨rfl, rfl⟩
        · exact hb.distinct i j y z k hi hk hj hk'
        · cases (hx _).symm.trans hk'
          exact absurd (hb.below i y _ hi hk) (Nat.lt_irrefl _)
        · cases (hx _).symm.trans hk
          exact absurd (hb.below j z _ hj hk') (Nat.lt_irrefl _)
        · rfl
  | link i k => exact ⟨hb.below, hb.distinct⟩
  | _ => exact hb

theorem Steps.blocksBelow (h : b.Steps b') (hb : b.graph.BlocksBelow b.numBlocks) :
    b'.graph.BlocksBelow b'.numBlocks := by
  induction h with
  | refl => exact hb
  | tail _ hstep ih => exact hstep.blocksBelow ih

end Builder

/-- The steps of building a flow graph. -/
theorem Builder.steps_of_build {visitor : Visitor → Build Visitor}
    (hv : FlowGraphBuilder.Steps (visitor {})) {b b' : Builder} {entry : InstrId}
    (h : build visitor b = some (entry, b')) : b.Steps b' := by
  obtain ⟨_, hsteps, rfl, -⟩ := steps_build hv b rfl h
  exact hsteps

/-! ### The memory -/

/-- A lambda keeps what it is called and declared with, and its code once it has code. -/
structure Lambda.Kept (f f' : Lambda) : Prop where
  symbol : f'.symbol = f.symbol
  args : f'.args = f.args
  scope : f'.scope = f.scope
  code : ∀ r ∈ f.code, f'.code = some r

/-- A script keeps its scope, and its code once it has code. -/
structure Script.Kept (f f' : Script) : Prop where
  scope : f'.scope = f.scope
  code : ∀ r ∈ f.code, f'.code = some r

/-- Scopes, code, the objects in code, lambdas and scripts are only added to. -/
structure Memory.Kept (m m' : Memory) : Prop where
  scopes : m.scopes.Kept m'.scopes
  regions : m.regions <+: m'.regions
  objects : m.objects <+: m'.objects
  lambdas : ∀ (id : Nat) (f : Lambda), m.lambdas[id]? = some f →
    ∃ f', m'.lambdas[id]? = some f' ∧ f.Kept f'
  scripts : ∀ (id : Nat) (f : Script), m.scripts[id]? = some f →
    ∃ f', m'.scripts[id]? = some f' ∧ f.Kept f'

theorem Lambda.Kept.refl (f : Lambda) : f.Kept f := ⟨rfl, rfl, rfl, fun _ => id⟩

theorem Lambda.Kept.trans {f f' f'' : Lambda} (h : f.Kept f') (h' : f'.Kept f'') : f.Kept f'' :=
  ⟨h'.symbol.trans h.symbol, h'.args.trans h.args, h'.scope.trans h.scope,
    fun r hr => h'.code r (h.code r hr)⟩

theorem Script.Kept.refl (f : Script) : f.Kept f := ⟨rfl, fun _ => id⟩

theorem Script.Kept.trans {f f' f'' : Script} (h : f.Kept f') (h' : f'.Kept f'') : f.Kept f'' :=
  ⟨h'.scope.trans h.scope, fun r hr => h'.code r (h.code r hr)⟩

namespace Memory

variable {m m' m'' : Memory}

namespace Kept

theorem refl (m : Memory) : m.Kept m :=
  ⟨.refl _, List.prefix_refl _, List.prefix_refl _, fun _ f hf => ⟨f, hf, .refl f⟩,
    fun _ f hf => ⟨f, hf, .refl f⟩⟩

theorem trans (h : m.Kept m') (h' : m'.Kept m'') : m.Kept m'' where
  scopes := h.scopes.trans h'.scopes
  regions := h.regions.trans h'.regions
  objects := h.objects.trans h'.objects
  lambdas id f hf := by
    obtain ⟨f₁, hf₁, hkept⟩ := h.lambdas id f hf
    obtain ⟨f₂, hf₂, hkept'⟩ := h'.lambdas id f₁ hf₁
    exact ⟨f₂, hf₂, hkept.trans hkept'⟩
  scripts id f hf := by
    obtain ⟨f₁, hf₁, hkept⟩ := h.scripts id f hf
    obtain ⟨f₂, hf₂, hkept'⟩ := h'.scripts id f₁ hf₁
    exact ⟨f₂, hf₂, hkept.trans hkept'⟩

/-- Only scopes have changed. -/
theorem of_scopes {s : Scopes} (h : m.scopes.Kept s) : m.Kept { m with scopes := s } :=
  { refl m with scopes := h }

end Kept

/-- What natives, the event loop and the parser do to the memory: they add to it, new scopes below
older ones. -/
structure Added (m m' : Memory) : Prop where
  kept : m.Kept m'
  rooted : m.scopes.Rooted → m'.scopes.Rooted

end Memory

/-- The current scope is there, and below a root. -/
def Runtime.Rooted (rt : Runtime) : Prop :=
  rt.memory.scopes.Rooted ∧ ∀ s ∈ rt.scope, s < rt.memory.scopes.scopes.length

/-- The memory is only added to, and the current scope stays below a root. -/
structure Runtime.Kept (rt rt' : Runtime) : Prop where
  memory : rt.memory.Kept rt'.memory
  rooted : rt.Rooted → rt'.Rooted

namespace Runtime

variable {rt rt' rt'' : Runtime}

namespace Kept

theorem refl (rt : Runtime) : rt.Kept rt := ⟨.refl _, id⟩

theorem trans (h : rt.Kept rt') (h' : rt'.Kept rt'') : rt.Kept rt'' :=
  ⟨h.memory.trans h'.memory, fun hr => h'.rooted (h.rooted hr)⟩

/-- What changes neither the memory nor the scope. -/
theorem of_eq (hm : rt'.memory = rt.memory) (hs : rt'.scope = rt.scope) : rt.Kept rt' := by
  refine ⟨hm ▸ .refl _, fun hr => ?_⟩
  rw [Runtime.Rooted, hm, hs]
  exact hr

/-- What adds to the memory. -/
theorem added {m : Memory} (h : rt.memory.Added m) : rt.Kept { rt with memory := m } :=
  ⟨h.kept, fun hr => ⟨h.rooted hr.1, fun s hs => (hr.2 s hs).trans_le h.kept.scopes.length_le⟩⟩

/-- What takes steps on the scopes. -/
theorem evolves {m : Scopes} (h : rt.memory.scopes.Evolves m) :
    rt.Kept { rt with memory := { rt.memory with scopes := m } } :=
  added ⟨.of_scopes h.kept, h.rooted⟩

theorem pushScope (rt : Runtime) : rt.Kept rt.pushScope.2 := by
  refine ⟨.of_scopes ?_, fun hr => ⟨hr.1.newScope [] hr.2, ?_⟩⟩
  · exact ⟨.newScope _ _, Scopes.localsOf_newScope_prefix rt.memory.scopes rt.scope []⟩
  · rintro s ⟨⟩
    simp [Runtime.pushScope, Scopes.newScope]

theorem popScope (rt : Runtime) : rt.Kept rt.popScope := by
  refine ⟨.refl _, fun hr => ⟨hr.1, fun p hp => ?_⟩⟩
  obtain ⟨s, hs, hparent⟩ := Option.bind_eq_some_iff.mp hp
  exact (hr.1 s p hparent).trans (hr.2 s hs)

theorem popFrame (h : rt.popFrame = .ok rt') : rt.Kept rt' := by
  refine of_eq (popFrame_memory h) ?_
  rw [Runtime.popFrame] at h
  split at h
  · cases h
  · cases h
    dsimp only
    split <;> split <;> rfl

theorem push {v : Value} (h : rt.push v = .ok rt') : rt.Kept rt' := by
  rw [Runtime.push] at h
  split at h
  · cases h
    exact of_eq rfl rfl
  · cases h

end Kept

end Runtime

/-! ### Foreign code -/

/-- The changes of a native or of a callback add to the memory. -/
def Foreign.Adds : Foreign → Prop
  | .done | .throws _ => True
  | .access change _ next => (∀ rt : Runtime, rt.memory.Added (change rt)) ∧ ∀ rt, (next rt).Adds
  | .push _ next | .call _ _ next => next.Adds
  | .callPop _ _ next => ∀ v, (next v).Adds

/-- Natives, the event loop and the parser add to the memory. -/
structure World.Adds (W : World) : Prop where
  newInstance : ∀ {c args m v m'}, W.host.newInstance c args m = .ok (v, m') → m.Added m'
  newObservable : ∀ {v m o m'}, W.host.newObservable v m = .ok (o, m') → m.Added m'
  setField : ∀ {i f v m m'}, W.host.setField i f v m = .ok m' → m.Added m'
  natives : ∀ x args, (W.natives x args).Adds
  events : ∀ rt, (W.events rt).Adds
  parse : ∀ text s (m : Memory), m.Added (W.parse text s m).2

/-- The foreign code of an activity adds to the memory. -/
def Activity.Adds : Activity → Prop
  | .foreign code => code.Adds
  | _ => True

/-- The state a run ends in. -/
def Exit.runtime : Exit → Runtime
  | .returned rt | .threw _ rt => rt

/-! ### Operations -/

/-- What an operation that calls nothing does to the memory. -/
inductive MemoryEffect (host : Host) (m : Memory) : Memory → Prop where
  | none : MemoryEffect host m m
  | store (l : LocalId) (v : Value) :
      MemoryEffect host m { m with scopes := m.scopes.setValue l (some v) }
  | newInstance {c args v m'} (h : host.newInstance c args m = .ok (v, m')) : MemoryEffect host m m'
  | newObservable {v o m'} (h : host.newObservable v m = .ok (o, m')) : MemoryEffect host m m'
  | setField {i f v m'} (h : host.setField i f v m = .ok m') : MemoryEffect host m m'

section Exec

variable {host : Host} {region start : Nat} {code : Bytecode} {rt rt' : Runtime}

theorem push_memory {v : Value} (h : rt.push v = .ok rt') : rt'.memory = rt.memory := by
  rw [Runtime.push] at h
  split at h <;> cases h
  rfl

theorem pop_memory {v : Value} (h : rt.pop = .ok (v, rt')) : rt'.memory = rt.memory := by
  rw [Runtime.pop] at h
  split at h <;> cases h
  rfl

theorem jumpTo_memory {target : Int} (h : rt.jumpTo region target = .ok rt') :
    rt'.memory = rt.memory := by
  rw [Runtime.jumpTo] at h
  split at h <;> cases h
  rfl

theorem jump_memory {op : Op} {target : Int}
    (h : Interpreter.jump region op target rt = .ok rt') : rt'.memory = rt.memory := by
  cases op with
  | jump => exact jumpTo_memory h
  | jnz =>
      obtain ⟨⟨v, rt₁⟩, hp, h⟩ := result_bind_eq_ok.mp h
      change (if v.truth = true then Except.ok rt₁ else rt₁.jumpTo region target) = _ at h
      rw [← pop_memory hp]
      split at h
      · cases h
        rfl
      · exact jumpTo_memory h
  | jne =>
      obtain ⟨⟨v, rt₁⟩, hp, h⟩ := result_bind_eq_ok.mp h
      obtain ⟨⟨w, rt₂⟩, hq, h⟩ := result_bind_eq_ok.mp h
      obtain ⟨r, -, h⟩ := result_bind_eq_ok.mp h
      change (if r = true then Except.ok rt₂ else rt₂.jumpTo region target) = _ at h
      rw [← pop_memory hp, ← pop_memory hq]
      split at h
      · cases h
        rfl
      · exact jumpTo_memory h
  | _ => cases h

/-- An operation with the memory as it was. -/
theorem MemoryEffect.of_eq (h : rt'.memory = rt.memory) :
    MemoryEffect host rt.memory rt'.memory := h ▸ .none

/-- **What an operation does to the memory**, when it calls nothing. -/
theorem exec_memory (hc : callee? code rt = none)
    (h : Interpreter.exec host noCall region start code rt = .ok rt') :
    MemoryEffect host rt.memory rt'.memory := by
  cases code with
  | nop | ret =>
      cases h
      exact .none
  | push v => exact .of_eq (push_memory h)
  | pop =>
      obtain ⟨p, hp, rfl⟩ := result_map_eq_ok.mp h
      exact .of_eq (pop_memory hp)
  | dup => cases h
  | lookup =>
      obtain ⟨⟨v, rt₁⟩, hp, h⟩ := result_bind_eq_ok.mp h
      dsimp only at h
      split at h
      · exact .of_eq ((push_memory h).trans (pop_memory hp))
      · cases h
      · cases h
  | throw =>
      obtain ⟨⟨v, rt₁⟩, hp, h⟩ := result_bind_eq_ok.mp h
      dsimp only at h
      split at h <;> cases h
  | storeLocal idx =>
      change Interpreter.storeLocal idx rt = _ at h
      rw [Interpreter.storeLocal] at h
      split at h
      · cases h
      · rename_i l hl
        obtain ⟨⟨v, rt₁⟩, hp, h⟩ := result_bind_eq_ok.mp h
        cases h
        rw [← pop_memory hp]
        exact .store l v
  | loadLocal idx =>
      change Interpreter.loadLocal idx rt = _ at h
      rw [Interpreter.loadLocal] at h
      split at h
      · cases h
      · exact .of_eq (push_memory h)
  | invoke f n | invokeNative f n =>
      rw [callee?] at hc
      split at hc
      · cases hc
      · rename_i hf
        change (if f.isProcedure then _ else _) = _ at h
        rw [if_neg hf] at h
        exact absurd h invalid_not_ok
  | invokeDynamic n =>
      obtain ⟨⟨f, rt₁⟩, hp, h⟩ := result_bind_eq_ok.mp h
      rw [callee?, hp] at hc
      dsimp only at hc
      split at hc
      · cases hc
      · rename_i hf
        change (if f.isProcedure then _ else _) = _ at h
        rw [if_neg hf] at h
        exact absurd h invalid_not_ok
  | checkInstance c =>
      change Interpreter.checkInstance c rt = _ at h
      unfold Interpreter.checkInstance at h
      split at h
      · split at h
        · cases h
          exact .none
        · cases h
      · cases h
      · cases h
  | jump op offset => exact .of_eq (jump_memory h)
  | cast c =>
      obtain ⟨⟨v, rt₁⟩, hp, h⟩ := result_bind_eq_ok.mp h
      rw [← pop_memory hp]
      dsimp only at h
      split at h
      · obtain ⟨⟨o, m⟩, hm, h⟩ := result_bind_eq_ok.mp h
        rw [push_memory h]
        exact .newObservable hm
      · cases h
        exact .none
  | new c n =>
      cases c with
      | cls c =>
          obtain ⟨⟨v, m⟩, hm, h⟩ := result_bind_eq_ok.mp h
          have hpop : (rt.popN n.toNat).2.memory = rt.memory := by
            rw [Runtime.popN]
            split <;> rfl
          rw [push_memory h]
          apply MemoryEffect.newInstance (c := c)
          rw [← hpop]
          exact hm
      | _ => cases h
  | loadField f =>
      obtain ⟨⟨v, rt₁⟩, hp, h⟩ := result_bind_eq_ok.mp h
      obtain ⟨x, -, h⟩ := result_bind_eq_ok.mp h
      exact .of_eq ((push_memory h).trans (pop_memory hp))
  | storeField f =>
      obtain ⟨⟨v, rt₁⟩, hp, h⟩ := result_bind_eq_ok.mp h
      obtain ⟨⟨x, rt₂⟩, hq, h⟩ := result_bind_eq_ok.mp h
      obtain ⟨m, hm, h⟩ := result_bind_eq_ok.mp h
      cases h
      rw [← pop_memory hp, ← pop_memory hq]
      exact .setField hm
  | unary op =>
      obtain ⟨⟨v, rt₁⟩, hp, h⟩ := result_bind_eq_ok.mp h
      obtain ⟨x, -, h⟩ := result_bind_eq_ok.mp h
      exact .of_eq ((push_memory h).trans (pop_memory hp))
  | binary op =>
      obtain ⟨⟨v, rt₁⟩, hp, h⟩ := result_bind_eq_ok.mp h
      obtain ⟨⟨w, rt₂⟩, hq, h⟩ := result_bind_eq_ok.mp h
      obtain ⟨x, -, h⟩ := result_bind_eq_ok.mp h
      exact .of_eq ((push_memory h).trans ((pop_memory hq).trans (pop_memory hp)))

/-- A change of the memory by an operation adds to it. -/
theorem MemoryEffect.added {W : World} (hW : W.Adds) {m m' : Memory}
    (h : MemoryEffect W.host m m') : m.Added m' := by
  cases h with
  | none => exact ⟨.refl _, id⟩
  | store l v =>
      have hevolves : m.scopes.Evolves (m.scopes.setValue l (some v)) := .single (.setValue _ _ _)
      exact ⟨.of_scopes hevolves.kept, hevolves.rooted⟩
  | newInstance h => exact hW.newInstance h
  | newObservable h => exact hW.newObservable h
  | setField h => exact hW.setField h

/-- **An operation** that calls nothing only adds to the memory. -/
theorem exec_kept {W : World} (hW : W.Adds) (hc : callee? code rt = none)
    (h : Interpreter.exec W.host noCall region start code rt = .ok rt') : rt.Kept rt' := by
  have hadded := (exec_memory hc h).added hW
  have hscope := (exec_stays W.host_extends hc h).scope
  refine (Runtime.Kept.added hadded).trans (.of_eq rfl hscope)

end Exec

/-! ### Compiling -/

namespace FlowGraphCompiler

variable {c c' : FlowGraphCompiler}

theorem objects_patch {bound : Int} {n : Nat} {a a' : Assembler} {l : Label}
    (h : a.patch bound n l = some a') : a'.objects = a.objects := by
  induction n generalizing a l with
  | zero =>
      rw [Assembler.patch] at h
      split at h <;> cases h
      rfl
  | succ n ih =>
      rw [Assembler.patch] at h
      split at h
      · obtain ⟨next, -, h⟩ := Option.bind_eq_some_iff.mp h
        have hrest := ih h
        exact hrest
      · cases h
        rfl

/-- An item adds objects to the table. -/
theorem objects_runItem {i : Item} (h : c.runItem i = some c') :
    c.assembler.objects <+: c'.assembler.objects := by
  cases i with
  | visit i =>
      cases h
      exact List.prefix_refl _
  | code bc =>
      cases h
      rw [FlowGraphCompiler.emit, Bytecode.emit_eq]
      exact List.prefix_append _ _
  | jump op b =>
      cases h
      have hsame : (c.assembler.jump op (c.labels b)).2.objects = c.assembler.objects := by
        rw [Assembler.jump]
        split <;> rfl
      rw [← hsame]
      exact List.prefix_refl _
  | bind b =>
      obtain ⟨⟨l, a⟩, hbind, hc⟩ := Option.bind_eq_some_iff.mp h
      obtain ⟨a', hpatch, hl⟩ := Option.map_eq_some_iff.mp hbind
      cases hc
      cases hl
      rw [← objects_patch hpatch]

theorem objects_runItems {is : List Item} (h : runItems is c = some c') :
    c.assembler.objects <+: c'.assembler.objects := by
  induction is generalizing c with
  | nil =>
      cases h
      exact List.prefix_refl _
  | cons i is ih =>
      obtain ⟨d, hd, h⟩ := Option.bind_eq_some_iff.mp h
      exact (objects_runItem hd).trans (ih h)

theorem builderFor_evolves (m : Memory) (scope : ScopeId) (execScope : Option ScopeId) :
    (m.scopes.newScope (some scope)).2.Evolves (builderFor m scope execScope).scopes := by
  cases execScope with
  | none => exact .refl _
  | some e => exact .addScope _ _ e

/-- Compiling adds a region, objects and scopes. -/
theorem compileTarget_kept {fuel region : Nat} {visitor : Visitor → Build Visitor}
    (hv : FlowGraphBuilder.Steps (visitor {})) {scope : ScopeId} {execScope : Option ScopeId}
    {m m' : Memory} (h : compileTarget fuel visitor scope execScope m = some (region, m')) :
    m.Kept m' ∧ m'.lambdas = m.lambdas ∧
      (m.scopes.Rooted → scope < m.scopes.scopes.length → m'.scopes.Rooted) := by
  obtain ⟨⟨entry, b⟩, hbuild, h⟩ := Option.bind_eq_some_iff.mp h
  obtain ⟨c, hiter, h⟩ := Option.bind_eq_some_iff.mp h
  obtain ⟨is, -, hc⟩ := emits_of_iterate hiter
  cases h
  have hsteps := Builder.steps_of_build hv hbuild
  have hstart := builderFor_evolves m scope execScope
  have hscopes : m.scopes.Kept b.scopes := by
    have hnew : m.scopes.Kept (m.scopes.newScope (some scope)).2 :=
      ⟨.newScope _ _, Scopes.localsOf_newScope_prefix m.scopes (some scope) []⟩
    exact (hnew.trans hstart.kept).trans hsteps.kept
  refine ⟨⟨hscopes, List.prefix_append _ _, objects_runItems hc, fun _ f hf => ⟨f, hf, .refl f⟩,
    fun _ f hf => ⟨f, hf, .refl f⟩⟩, rfl, fun hm hscope => (hsteps.rooted ⟨?_, ?_⟩).1⟩
  · refine hstart.rooted (hm.newScope [] ?_)
    rintro p ⟨⟩
    exact hscope
  · refine Nat.lt_of_lt_of_le ?_ hstart.kept.length_le
    simp [builderFor, Scopes.newScope]

end FlowGraphCompiler

namespace Runtime

variable {W : World} {rt rt' rt₁ : Runtime}

/-- Compiling a lambda in the current scope. -/
theorem compileLambda_kept {cfg : Config} {fuel id region : Nat} {locals : ScopeId}
    (hscope : rt.scope = some locals)
    (h : compileLambda cfg fuel id locals rt = .ok (region, rt')) : rt.Kept rt' := by
  rw [compileLambda] at h
  split at h
  · cases h
  · rename_i f hf
    split at h
    · cases h
      exact .refl _
    · rename_i hcode
      split at h
      · cases h
      · dsimp only at h
        split at h
        · cases h
        · rename_i r m hm
          cases h
          obtain ⟨hkept, hlambdas, hrooted⟩ :=
            FlowGraphCompiler.compileTarget_kept (steps_visitLambda _ _ _ _) hm
          have hset : m.Kept
              { m with lambdas := m.lambdas.set id { f with code := some region } } := by
            refine { Memory.Kept.refl m with lambdas := fun k g hg => ?_ }
            by_cases hk : id = k
            · subst hk
              have hlt := (List.getElem?_eq_some_iff.mp hg).1
              cases hf.symm.trans ((congrArg (·[id]?) hlambdas).symm.trans hg)
              exact ⟨_, List.getElem?_set_self hlt, rfl, rfl, rfl,
                fun r hr => by rw [hcode] at hr; cases hr⟩
            · exact ⟨g, (List.getElem?_set_ne hk).trans hg, .refl g⟩
          refine ⟨hkept.trans hset, fun hr => ⟨hrooted hr.1 (hr.2 _ hscope), fun s hs => ?_⟩⟩
          exact (hr.2 s hs).trans_le hkept.scopes.length_le

theorem bindArgs_evolves {locals : ScopeId} {ps : List Argument} {vs : List Value}
    {m m' : Scopes} (h : bindArgs locals ps vs m = .ok m') : m.Evolves m' := by
  induction ps generalizing vs m with
  | nil =>
      cases h
      exact .refl _
  | cons p ps ih =>
      cases vs with
      | nil => cases h
      | cons v vs =>
          rw [bindArgs] at h
          dsimp only at h
          split at h
          · have hnew := Scopes.Evolves.single (.newLocal m locals p.name (some v))
            exact (hnew.trans (.addLocal _ _ _)).trans (ih h)
          · cases h

/-- The scope of a call of a lambda. -/
theorem bindLambda_kept {id : Nat} {f : Lambda} {args : List Value} {locals : ScopeId}
    (h : bindLambda id f args rt = .ok (locals, rt')) : rt.Kept rt' := by
  rw [bindLambda] at h
  dsimp only at h
  split at h
  · cases h
  · obtain ⟨scopes, hargs, h⟩ := result_bind_eq_ok.mp h
    cases h
    refine (Kept.pushScope rt).trans (.evolves ?_)
    exact ((Scopes.Evolves.single (.newLocal _ _ _ _)).trans (.addLocal _ _ _)).trans
      (bindArgs_evolves hargs)

theorem enterEval_kept (rt : Runtime) :
    rt.Kept rt.enterEval.2.2 ∧ rt.enterEval.2.2.scope = some rt.enterEval.1 := by
  have hscopes : rt.pushScope.2.memory.scopes.Evolves rt.enterEval.2.2.memory.scopes :=
    (Scopes.Evolves.single (.newLocal _ _ _ _)).trans (.addLocal _ _ _)
  refine ⟨(Kept.pushScope rt).trans (.added ⟨⟨hscopes.kept, List.prefix_refl _, List.prefix_refl _,
    fun id f hf => ⟨f, ?_, .refl f⟩, fun _ f hf => ⟨f, hf, .refl f⟩⟩, hscopes.rooted⟩), rfl⟩
  exact List.getElem?_append_left (List.getElem?_eq_some_iff.mp hf).1 ▸ hf

theorem setBody_kept (id : Nat) (body : List Expr) (m : Memory) : m.Kept (setBody id body m) := by
  refine { Memory.Kept.refl m with lambdas := fun k f hf => ?_ }
  by_cases hk : id = k
  · subst hk
    exact ⟨{ f with body }, by simp [setBody, hf], rfl, rfl, rfl, fun _ hr => hr⟩
  · exact ⟨f, by simp [setBody, hf, hk], .refl f⟩

end Runtime

/-! ### Runs -/

section Runs

open Gel.Runtime

variable {W : World} {a : Activity} {rt rt₁ : Runtime} {e : Exit}

/-- Entering a callee. -/
theorem Enters.kept (hW : W.Adds) {c : Callee} (h : Enters W c rt a rt₁) :
    rt.Kept rt₁ ∧ a.Adds := by
  cases h with
  | @lambda id fuel region locals args f _ rt₁ rt₂ hf hbind hcode =>
      obtain ⟨scopes, -, -, hrt₁⟩ := bindLambda_spec hbind
      have hscope : rt₁.scope = some locals := hrt₁ ▸ rfl
      exact ⟨((bindLambda_kept hbind).trans (compileLambda_kept hscope hcode)).trans (.of_eq rfl rfl),
        trivial⟩
  | native =>
      refine ⟨((Kept.pushScope rt).trans (.evolves ?_)).trans (.of_eq rfl rfl), hW.natives _ _⟩
      exact .foldl _ _ fun m p => .addValue m _ _ _
  | script hf hcode =>
      refine ⟨((Kept.pushScope rt).trans (.evolves ?_)).trans (.of_eq rfl rfl), trivial⟩
      exact .addScope _ _ _

theorem takeArgs_kept {ps : List Argument} {n : Nat} {args : List Value}
    (h : takeArgs ps n rt = .ok (args, rt₁)) : rt.Kept rt₁ := by
  obtain ⟨s, -, rfl⟩ := takeArgs_spec h
  exact .of_eq rfl rfl

theorem callee_kept {code : Bytecode} {f : Value} {n : Nat}
    (h : callee? code rt = some (f, n, rt₁)) : rt.Kept rt₁ := by
  cases code with
  | invoke g k | invokeNative g k =>
      rw [callee?] at h
      split at h
      · cases h
        exact .refl _
      · cases h
  | invokeDynamic k =>
      rw [callee?] at h
      split at h
      · rename_i hp
        split at h
        · cases h
          exact .of_eq (pop_memory hp) (Stays.pop hp).scope
        · cases h
      · cases h
  | _ => cases h

theorem takeResult_kept (rt : Runtime) : rt.Kept rt.takeResult.2 := by
  refine .of_eq (takeResult_memory rt) ?_
  rw [takeResult]
  split <;> rfl

theorem current_kept (rt : Runtime) (x : Option Address) : rt.Kept { rt with current := x } :=
  .of_eq rfl rfl

theorem parse_added (hW : W.Adds) {text : String} {s : ScopeId} {m m' : Memory}
    {r : Except String (List Expr)} (h : W.parse text s m = (r, m')) : m.Added m' := by
  have hparsed := hW.parse text s m
  rw [h] at hparsed
  exact hparsed

/-- `Eval` up to the call of its lambda. -/
theorem compileEval_kept (hW : W.Adds) {text : String} {body : List Expr} {m : Memory}
    {fuel region : Nat}
    (hparse : W.parse text rt.enterEval.1 rt.enterEval.2.2.memory = (.ok body, m))
    (hcode : compileLambda W.cfg fuel rt.enterEval.2.1 rt.enterEval.1
      { rt.enterEval.2.2 with memory := setBody rt.enterEval.2.1 body m } = .ok (region, rt₁)) :
    rt.Kept rt₁ := by
  obtain ⟨hkept, hscope⟩ := enterEval_kept rt
  have hbody : m.Added (setBody rt.enterEval.2.1 body m) := ⟨setBody_kept _ _ _, id⟩
  have hparsed : Runtime.Kept rt.enterEval.2.2
      { rt.enterEval.2.2 with memory := setBody rt.enterEval.2.1 body m } :=
    (Kept.added (parse_added hW hparse)).trans (.added hbody)
  have hcompiled : Runtime.Kept
      { rt.enterEval.2.2 with memory := setBody rt.enterEval.2.1 body m } rt₁ :=
    compileLambda_kept hscope hcode
  exact (hkept.trans hparsed).trans hcompiled

/-- **Runs.**  From any state every activity, at any depth of calls, only adds to the memory. -/
theorem Ends.kept (hW : W.Adds) (h : Ends W a rt e) (ha : a.Adds) : rt.Kept e.runtime := by
  induction h with
  | step hf hc hret hx hrun ih =>
      exact ((current_kept _ _).trans (exec_kept hW hc hx)).trans (ih trivial)
  | stepThrows hf hc hret hx hs => exact .of_eq rfl rfl
  | invoke hf hc hargs hcall hrun ihcall ihrun =>
      have hcallee := (current_kept _ _).trans ((callee_kept hc).trans (takeArgs_kept hargs))
      exact (hcallee.trans (ihcall trivial)).trans (ihrun trivial)
  | invokeThrows hf hc hargs hcall ihcall =>
      have hcallee := (current_kept _ _).trans ((callee_kept hc).trans (takeArgs_kept hargs))
      exact hcallee.trans (ihcall trivial)
  | ret hf hevents ih => exact (current_kept _ _).trans (ih (hW.events _))
  | done => exact .refl _
  | throws => exact .refl _
  | access h ih => exact (Kept.added (ha.1 _)).trans (ih (ha.2 _))
  | push hpush h ih => exact (Kept.push hpush).trans (ih ha)
  | callback hcall h ihcall ih => exact (ihcall trivial).trans (ih ha)
  | callbackThrows hcall ihcall => exact ihcall trivial
  | callPop hcall h ihcall ih =>
      exact ((ihcall trivial).trans (takeResult_kept _)).trans (ih (ha _))
  | callPopThrows hcall ihcall => exact ihcall trivial
  | call henter hbody hpop ih =>
      obtain ⟨hkept, hbody⟩ := henter.kept hW
      exact ((hkept.trans (ih hbody)).trans (.popFrame hpop)).trans (.popScope _)
  | callThrows henter hbody ih =>
      obtain ⟨hkept, hbody⟩ := henter.kept hW
      exact hkept.trans (ih hbody)
  | @eval text rt s id body m fuel region rt₂ rt₃ henter hparse hcode hcall ih =>
      obtain ⟨rfl, rfl⟩ := henter
      exact ((compileEval_kept hW hparse hcode).trans (ih trivial)).trans
        ((takeResult_kept _).trans (.popScope _))
  | @evalParse text rt message m hparse =>
      exact (enterEval_kept rt).1.trans (.added (parse_added hW hparse))
  | @evalThrows text rt s id body m fuel region rt₂ message rt₃ henter hparse hcode hcall ih =>
      obtain ⟨rfl, rfl⟩ := henter
      exact (compileEval_kept hW hparse hcode).trans (ih trivial)

end Runs

/-! ### Code -/

theorem getElem?_extended {α : Type} {xs ys : List α} (h : xs <+: ys) {i : Nat} {x : α}
    (hx : xs[i]? = some x) : ys[i]? = some x := by
  obtain ⟨zs, rfl⟩ := h
  rw [List.getElem?_append_left (List.getElem?_eq_some_iff.mp hx).1]
  exact hx

/-- What is decoded is decoded with more objects behind those there are. -/
theorem Bytecode.decode_prefix {objects objects' : List Value} (hobjects : objects <+: objects')
    {region : List UInt8} {pos : Nat} {x : Bytecode × Nat}
    (h : decode objects region pos = some x) : decode objects' region pos = some x := by
  have hobject : ∀ {p : Nat} {v : Value}, object? objects region p = some v →
      object? objects' region p = some v := by
    intro p v hv
    obtain ⟨w, hw, hv⟩ := Option.bind_eq_some_iff.mp hv
    exact Option.bind_eq_some_iff.mpr ⟨w, hw, getElem?_extended hobjects hv⟩
  rw [decode] at h ⊢
  obtain ⟨byte, hbyte, h⟩ := Option.bind_eq_some_iff.mp h
  obtain ⟨op, hop, h⟩ := Option.bind_eq_some_iff.mp h
  refine Option.bind_eq_some_iff.mpr ⟨byte, hbyte, Option.bind_eq_some_iff.mpr ⟨op, hop, ?_⟩⟩
  cases op with
  | invoke | invokeNative | checkInstance | pushQ | cast | new | loadField | storeField =>
      obtain ⟨v, hv, h⟩ := Option.bind_eq_some_iff.mp h
      exact Option.bind_eq_some_iff.mpr ⟨v, hobject hv, h⟩
  | _ => exact h

/-- What the interpreter fetches from code that was there before. -/
theorem Memory.Kept.fetch {rt rt' : Runtime} (h : rt.memory.Kept rt'.memory) {a : Address}
    {region : Nat} {x : Nat × Bytecode × Nat}
    (hx : Interpreter.fetch region { rt with current := some a } = some x) :
    Interpreter.fetch region { rt' with current := some a } = some x := by
  rw [Interpreter.fetch] at hx ⊢
  obtain ⟨_, ⟨⟩, hx⟩ := Option.bind_eq_some_iff.mp hx
  refine Option.bind_eq_some_iff.mpr ⟨a, rfl, ?_⟩
  split at hx
  · rename_i ha
    obtain ⟨b, hb, hx⟩ := Option.bind_eq_some_iff.mp hx
    obtain ⟨y, hy, hx⟩ := Option.bind_eq_some_iff.mp hx
    rw [if_pos ha]
    exact Option.bind_eq_some_iff.mpr ⟨b, getElem?_extended h.regions hb,
      Option.bind_eq_some_iff.mpr ⟨y, Bytecode.decode_prefix h.objects hy, hx⟩⟩
  · cases hx

/-- **Code.**  However a run ends, a lambda that had code before it has the same code after it: the
next call compiles nothing, and whatever the interpreter could fetch from the region it still
fetches, operand by operand. -/
theorem compiled_once {W : World} (hW : W.Adds) {a : Activity} (ha : a.Adds) {rt : Runtime}
    {e : Exit} (h : Ends W a rt e) {id r : Nat} {f : Lambda}
    (hf : rt.memory.lambdas[id]? = some f) (hcode : f.code = some r) :
    (∀ cfg fuel locals, Runtime.compileLambda cfg fuel id locals e.runtime = .ok (r, e.runtime)) ∧
      ∀ pos x, Interpreter.fetch r { rt with current := some ⟨r, pos⟩ } = some x →
        Interpreter.fetch r { e.runtime with current := some ⟨r, pos⟩ } = some x := by
  have hkept := (h.kept hW ha).memory
  obtain ⟨f', hf', hkeeps⟩ := hkept.lambdas id f hf
  refine ⟨fun cfg fuel locals => ?_, fun pos x hx => hkept.fetch hx⟩
  rw [Runtime.compileLambda, hf']
  dsimp only
  rw [hkeeps.code r hcode]

theorem World.bare_adds : World.bare.Adds :=
  ⟨nofun, nofun, nofun, fun _ _ => trivial, fun _ => trivial, fun _ _ _ => ⟨.refl _, id⟩⟩

namespace Growth.Sample

/-- A scope with one variable, and a lambda that has its code already. -/
def caller : Runtime where
  memory :=
    { lambdas := [{ code := some 0 }], regions := [[Op.ret.raw]]
      scopes := { locals := [{ name := "x", index := 0 }]
                  scopes := [{ parent := none, locals := [0] }] } }
  scope := some 0

theorem returns :
    ∃ rt', Ends World.bare (.call (.procedure (.lambda 0) [])) caller (.returned rt') :=
  ⟨_, .call (Balance.Sample.entersLambda rfl rfl rfl) (.ret rfl .done) rfl⟩

theorem rooted : caller.Rooted := by
  refine ⟨fun s p hp => ?_, fun s hs => ?_⟩
  · cases s with
    | zero => cases hp
    | succ s => cases hp
  · cases hs
    exact Nat.zero_lt_one

end Growth.Sample

open Growth.Sample in
theorem compiled_once_sample : ∃ rt',
    Ends World.bare (.call (.procedure (.lambda 0) [])) caller (.returned rt') ∧
      Runtime.compileLambda {} 0 0 0 rt' = .ok (0, rt') := by
  obtain ⟨rt', h⟩ := returns
  exact ⟨rt', h, (compiled_once World.bare_adds (a := .call _) trivial h rfl rfl).1 {} 0 0⟩

/-! ### Variables -/

/-- A lookup in a scope that is there comes to an end: more steps than there are scopes find
nothing else. -/
theorem Scopes.Rooted.lookup_eq {m : Scopes} (hm : m.Rooted) {s : ScopeId}
    (hs : s < m.scopes.length) (name : String) {n : Nat} (hn : m.scopes.length ≤ n) :
    m.lookupWithin name n s = m.lookup s name :=
  hm.lookupWithin_eq name (hs.trans_le hn) hs

/-- **Variables.**  However a run ends, the variables there were have the slots, the names and the
indices they had, the scopes have the parents they had, a name that a scope had is the variable it
was, and scopes are still below roots, so that every lookup ends. -/
theorem variable_stays {W : World} (hW : W.Adds) {a : Activity} (ha : a.Adds) {rt : Runtime}
    {e : Exit} (h : Ends W a rt e) (hrt : rt.Rooted) :
    e.runtime.Rooted ∧
      (∀ s, s < rt.memory.scopes.scopes.length →
        e.runtime.memory.scopes.parentOf s = rt.memory.scopes.parentOf s) ∧
      (∀ s idx l, rt.memory.scopes.getLocalAt s idx = some l →
        e.runtime.memory.scopes.getLocalAt s idx = some l) ∧
      (∀ (l : Nat) (x : LocalVariable), rt.memory.scopes.locals[l]? = some x →
        ∃ y : LocalVariable, e.runtime.memory.scopes.locals[l]? = some y ∧
          y.name = x.name ∧ y.index = x.index) ∧
      (∀ s name l, (∀ k ∈ rt.memory.scopes.localsOf s, k < rt.memory.scopes.locals.length) →
        rt.memory.scopes.lookupHere s name = some l →
        e.runtime.memory.scopes.lookupHere s name = some l) ∧
      ∀ s name n, s < e.runtime.memory.scopes.scopes.length →
        e.runtime.memory.scopes.scopes.length ≤ n →
        e.runtime.memory.scopes.lookupWithin name n s = e.runtime.memory.scopes.lookup s name := by
  have hkept := h.kept hW ha
  have hscopes := hkept.memory.scopes
  have hrooted := hkept.rooted hrt
  exact ⟨hrooted, fun s hs => hscopes.extended.parentOf hs, fun s idx l => hscopes.getLocalAt,
    fun l x => hscopes.named, fun s name l hs => hscopes.lookupHere hs,
    fun s name n hs hn => hrooted.1.lookup_eq hs name hn⟩

open Growth.Sample in
theorem variable_stays_sample : ∃ rt',
    Ends World.bare (.call (.procedure (.lambda 0) [])) caller (.returned rt') ∧
      rt'.Rooted ∧ rt'.memory.scopes.getLocalAt 0 0 = some 0 := by
  obtain ⟨rt', h⟩ := returns
  obtain ⟨hrooted, -, hslots, -⟩ := variable_stays World.bare_adds (a := .call _) trivial h rooted
  exact ⟨rt', h, hrooted, hslots 0 0 0 rfl⟩

/-! ### Blocks -/

/-- **Blocks.**  In the flow graph of a lambda or of a script no two entries have one block id, and
all ids are below the number of blocks. -/
theorem blocks_distinct {cfg : Config} {body : List Expr} {visitor : Visitor → Build Visitor}
    (hvisitor : IsBody cfg body visitor) {b b' : Builder} (hb : b.graph = {}) {entry : InstrId}
    (hrun : build visitor b = some (entry, b')) :
    (∀ i k, blockId b'.graph i = some k → k < b'.numBlocks) ∧
      ∀ i j k, blockId b'.graph i = some k → blockId b'.graph j = some k → i = j := by
  have hsteps : b.Steps b' := by
    cases hvisitor with
    | lambda scope => exact Builder.steps_of_build (steps_visitLambda cfg scope body _) hrun
    | script => exact Builder.steps_of_build (steps_visitScript cfg body _) hrun
  have hstart : b.graph.BlocksBelow b.numBlocks := by
    have hnone : ∀ i : InstrId, b.graph.instr? i = none := fun i => by rw [hb]; rfl
    refine ⟨fun i x k hi => ?_, fun i j x y k hi => ?_⟩
    · cases (hnone i).symm.trans hi
    · cases (hnone i).symm.trans hi
  have hblocks := hsteps.blocksBelow hstart
  refine ⟨fun i k hk => ?_, fun i j k hi hj => ?_⟩
  · obtain ⟨x, hx, hk⟩ := Option.bind_eq_some_iff.mp hk
    exact hblocks.below i x k hx hk
  · obtain ⟨x, hx, hxk⟩ := Option.bind_eq_some_iff.mp hi
    obtain ⟨y, hy, hyk⟩ := Option.bind_eq_some_iff.mp hj
    exact hblocks.distinct i j x y k hx hxk hy hyk

theorem blocks_distinct_sample : ∃ r, build (visitScript {} [resolvedSample]) { scope := 0 } = some r ∧
    ∀ i j k, blockId r.2.graph i = some k → blockId r.2.graph j = some k → i = j := by
  have hsome : (build (visitScript {} [resolvedSample]) { scope := 0 }).isSome = true := by
    decide +kernel
  obtain ⟨⟨entry, b'⟩, hrun⟩ := Option.isSome_iff_exists.mp hsome
  exact ⟨_, hrun, (blocks_distinct .script rfl hrun).2⟩

end Gel
