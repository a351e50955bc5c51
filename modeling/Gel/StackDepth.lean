import Gel.Building
import Gel.Interpreter
import Gel.Support.Faulting
import Mathlib.Logic.Relation

/-!
# StackDepth — how many values code leaves

`Path is` follows control through items, from what is left of them to what is left then, with the
number of values on the operand stack; the numbers are those of the interpreter (`exec_depth`).
`Leaves c k` says that on each path through `c` there are `k` values more behind it than in front
of it.  Code that shares no label with what is around it leaves as many there (`Path.through`), and
from this come the rules for code behind other code and for a branch with its blocks.
-/

namespace Gel

namespace Bytecode

/-- How many values the interpreter takes from the operand stack.  A call takes its arguments, and
a dynamic one the procedure on top of them. -/
def pops : Bytecode → Nat
  | pop | dup | lookup | ret | throw | storeLocal _ | checkInstance _ | cast _ | loadField _
  | unary _ => 1
  | storeField _ | binary _ => 2
  | invoke _ n | invokeNative _ n | new _ n => n.toNat
  | invokeDynamic n => n.toNat + 1
  | nop | push _ | loadLocal _ => 0
  | jump op _ => match op with
      | .jz | .jnz => 1
      | .jeq | .jne => 2
      | _ => 0

/-- How many values it puts there.  A cast to a class other than `Observable` puts back nothing. -/
def pushes : Bytecode → Nat
  | dup => 2
  | lookup | push _ | loadLocal _ | checkInstance _ | loadField _ | unary _ | binary _
  | invoke .. | invokeNative .. | new .. | invokeDynamic _ => 1
  | cast c => if c = .cls .observable then 1 else 0
  | _ => 0

/-- The operations with a number of arguments. -/
def isCall : Bytecode → Bool
  | invoke .. | invokeNative .. | invokeDynamic _ | new .. => true
  | _ => false

end Bytecode

/-! ### The interpreter's stack -/

namespace Runtime

/-- The number of values on the operation stack. -/
def depth (rt : Runtime) : Nat := (rt.stack?.getD []).length

theorem depth_of_stack {rt : Runtime} {s : List Value} (h : rt.stack? = some s) :
    rt.depth = s.length := by
  simp [depth, h]

theorem stack_setStack {rt : Runtime} {s : List Value} (h : rt.stack? = some s)
    (s' : List Value) : (rt.setStack s').stack? = some s' := by
  unfold stack? at h ⊢
  unfold setStack
  cases hf : rt.frames with
  | nil =>
      rw [hf] at h
      cases h
  | cons f fs => rfl

theorem depth_push {rt rt' : Runtime} {v : Value} (h : rt.push v = .ok rt') :
    rt'.depth = rt.depth + 1 := by
  unfold push at h
  split at h
  next s hs =>
      cases h
      rw [depth_of_stack (stack_setStack hs _), depth_of_stack hs]
      rfl
  next => cases h

theorem depth_pop {rt rt' : Runtime} {v : Value} (h : rt.pop = .ok (v, rt')) :
    rt.depth = rt'.depth + 1 := by
  unfold pop at h
  split at h
  next x s hs =>
      cases h
      rw [depth_of_stack (stack_setStack hs _), depth_of_stack hs]
      rfl
  next => cases h

theorem depth_popN {rt : Runtime} {n : Nat} (hn : n ≤ rt.depth) :
    (rt.popN n).2.depth + n = rt.depth := by
  unfold popN
  split
  next s hs =>
      rw [depth_of_stack hs] at hn ⊢
      rw [depth_of_stack (stack_setStack hs _), List.length_drop]
      exact Nat.sub_add_cancel hn
  next hs =>
      simp only [depth, hs, Option.getD_none, List.length_nil, Nat.le_zero] at hn ⊢
      rw [hn]

end Runtime

namespace Interpreter

/-- Calls take as many arguments as they are told and leave one value. -/
def TakesArgs (call : CallWithNArgs) : Prop :=
  ∀ f n rt rt', n ≤ rt.depth → call f n rt = .ok rt' → rt'.depth + n = rt.depth + 1

theorem throw_ne_ok {rt rt' : Runtime} : throw rt ≠ .ok rt' := by
  intro h
  obtain ⟨⟨v, rt₁⟩, -, h⟩ := Faulting.result_bind_eq_ok.mp h
  cases v <;> cases h

variable {host : Host} {call : CallWithNArgs} {region start : Nat} {rt rt' : Runtime}

theorem invoke_depth (hc : TakesArgs call) {f : Value} {n : UInt64} (hn : n.toNat ≤ rt.depth)
    (h : invoke host call f n rt = .ok rt') : rt'.depth + n.toNat = rt.depth + 1 := by
  unfold invoke at h
  split at h
  · exact hc f n.toNat rt rt' hn h
  · obtain ⟨rt₁, -, h⟩ := Faulting.result_bind_eq_ok.mp h
    exact absurd h throw_ne_ok

/-- Pushing what has been allocated. -/
theorem depth_push_memory (m : Memory) {v : Value}
    (h : Runtime.push v { rt with memory := m } = .ok rt') : rt'.depth = rt.depth + 1 := by
  have hd : rt'.depth = Runtime.depth { rt with memory := m } + 1 := Runtime.depth_push h
  exact hd

/-- A jump of the interpreter moves control only. -/
theorem jumpTo_depth {target : Int} (h : rt.jumpTo region target = .ok rt') :
    rt'.depth = rt.depth := by
  unfold Runtime.jumpTo at h
  split at h
  · cases h
    rfl
  · cases h

theorem jump_depth {op : Op} {target offset : Int} (h : jump region op target rt = .ok rt') :
    rt'.depth + (Bytecode.jump op offset).pops = rt.depth := by
  cases op with
  | jump => exact jumpTo_depth h
  | jnz =>
      obtain ⟨⟨v, rt₁⟩, hp, h⟩ := Faulting.result_bind_eq_ok.mp h
      have hd := Runtime.depth_pop hp
      replace h : (if v.truth then .ok rt₁ else rt₁.jumpTo region target) = .ok rt' := h
      split at h
      · cases h
        exact hd.symm
      · rw [jumpTo_depth h]
        exact hd.symm
  | jne =>
      obtain ⟨⟨r, rt₁⟩, hr, h⟩ := Faulting.result_bind_eq_ok.mp h
      obtain ⟨⟨l, rt₂⟩, hl, h⟩ := Faulting.result_bind_eq_ok.mp h
      obtain ⟨b, -, h⟩ := Faulting.result_bind_eq_ok.mp h
      have hd : rt₂.depth + 2 = rt.depth := by
        rw [Runtime.depth_pop hr, Runtime.depth_pop hl]
      replace h : (if b then .ok rt₂ else rt₂.jumpTo region target) = .ok rt' := h
      split at h
      · cases h
        exact hd
      · rw [jumpTo_depth h]
        exact hd
  | _ => cases h

/-- **What the interpreter does to the number of values**, for an operation that finds the values
it takes. -/
theorem exec_depth (hc : TakesArgs call) {bc : Bytecode} (hret : bc ≠ .ret)
    (hn : bc.pops ≤ rt.depth) (h : exec host call region start bc rt = .ok rt') :
    rt'.depth + bc.pops = rt.depth + bc.pushes := by
  cases bc with
  | nop =>
      cases h
      rfl
  | ret => exact absurd rfl hret
  | dup => cases h
  | throw => exact absurd h throw_ne_ok
  | push v => exact Runtime.depth_push h
  | pop =>
      cases hp : rt.pop with
      | error e =>
          simp only [exec, hp] at h
          cases h
      | ok r =>
          simp only [exec, hp] at h
          cases h
          exact (Runtime.depth_pop hp).symm
  | lookup =>
      obtain ⟨⟨v, rt₁⟩, hp, h⟩ := Faulting.result_bind_eq_ok.mp h
      have hd := Runtime.depth_pop hp
      simp only at h
      split at h
      · rw [Runtime.depth_push h, hd]
        rfl
      · cases h
      · cases h
  | storeLocal idx =>
      simp only [exec, storeLocal] at h
      split at h
      · cases h
      · obtain ⟨⟨v, rt₁⟩, hp, h⟩ := Faulting.result_bind_eq_ok.mp h
        cases h
        exact (Runtime.depth_pop hp).symm
  | loadLocal idx =>
      simp only [exec, loadLocal] at h
      split at h
      · cases h
      · exact Runtime.depth_push h
  | invoke f n => exact invoke_depth hc hn h
  | invokeNative f n => exact invoke_depth hc hn h
  | invokeDynamic n =>
      obtain ⟨⟨f, rt₁⟩, hp, h⟩ := Faulting.result_bind_eq_ok.mp h
      have hd := Runtime.depth_pop hp
      have hn₁ : n.toNat ≤ rt₁.depth := by
        rw [hd] at hn
        exact Nat.le_of_succ_le_succ hn
      rw [Bytecode.pops, ← Nat.add_assoc, invoke_depth hc hn₁ h, hd]
      rfl
  | checkInstance c =>
      simp only [exec, checkInstance] at h
      split at h
      · split at h
        · cases h
          rfl
        · cases h
      · cases h
      · cases h
  | jump op offset => exact jump_depth h
  | cast c =>
      obtain ⟨⟨v, rt₁⟩, hp, h⟩ := Faulting.result_bind_eq_ok.mp h
      have hd := Runtime.depth_pop hp
      simp only at h
      split at h
      next hobs =>
          obtain ⟨⟨o, m⟩, -, h⟩ := Faulting.result_bind_eq_ok.mp h
          have hpush : rt'.depth = rt₁.depth + 1 := depth_push_memory m h
          rw [hpush, Bytecode.pushes, if_pos hobs, hd]
          rfl
      next hobs =>
          cases h
          rw [Bytecode.pushes, if_neg hobs]
          exact hd.symm
  | new c n =>
      simp only [exec] at h
      split at h
      · obtain ⟨⟨o, m⟩, -, h⟩ := Faulting.result_bind_eq_ok.mp h
        have hpush : rt'.depth = (rt.popN n.toNat).2.depth + 1 := depth_push_memory m h
        have hpop : (rt.popN n.toNat).2.depth + n.toNat = rt.depth := Runtime.depth_popN hn
        rw [hpush, Bytecode.pops, Bytecode.pushes, Nat.add_right_comm, hpop]
      · cases h
  | loadField f =>
      obtain ⟨⟨v, rt₁⟩, hp, h⟩ := Faulting.result_bind_eq_ok.mp h
      obtain ⟨y, -, h⟩ := Faulting.result_bind_eq_ok.mp h
      rw [Runtime.depth_push h, Runtime.depth_pop hp]
      rfl
  | storeField f =>
      obtain ⟨⟨i, rt₁⟩, hi, h⟩ := Faulting.result_bind_eq_ok.mp h
      obtain ⟨⟨v, rt₂⟩, hv, h⟩ := Faulting.result_bind_eq_ok.mp h
      obtain ⟨m, -, h⟩ := Faulting.result_bind_eq_ok.mp h
      cases h
      rw [Runtime.depth_pop hi, Runtime.depth_pop hv]
      rfl
  | unary op =>
      obtain ⟨⟨v, rt₁⟩, hp, h⟩ := Faulting.result_bind_eq_ok.mp h
      obtain ⟨y, -, h⟩ := Faulting.result_bind_eq_ok.mp h
      rw [Runtime.depth_push h, Runtime.depth_pop hp]
      rfl
  | binary op =>
      obtain ⟨⟨r, rt₁⟩, hr, h⟩ := Faulting.result_bind_eq_ok.mp h
      obtain ⟨⟨l, rt₂⟩, hl, h⟩ := Faulting.result_bind_eq_ok.mp h
      obtain ⟨y, -, h⟩ := Faulting.result_bind_eq_ok.mp h
      rw [Runtime.depth_push h, Runtime.depth_pop hr, Runtime.depth_pop hl]
      rfl

end Interpreter

/-! ### Paths -/

namespace Item

def pops : Item → Nat
  | .code bc => bc.pops
  | .jump op _ => (Bytecode.jump op 0).pops
  | _ => 0

def pushes : Item → Nat
  | .code bc => bc.pushes
  | _ => 0

/-- Control goes on behind the item. -/
def Continues : Item → Prop
  | .code .ret | .code .throw | .jump .jump _ => False
  | _ => True

end Item

/-- Control goes from the items that are left to others: on, or to where a label is bound. -/
inductive Goes (is : List Item) : List Item × Int → List Item × Int → Prop where
  | on {x : Item} {r : List Item} {d : Int} (h : x.Continues) :
      Goes is (x :: r, d) (r, d - x.pops + x.pushes)
  | jump {op : Op} {b : BlockId} {pre r r' : List Item} {d : Int} (h : is = pre ++ .bind b :: r') :
      Goes is (.jump op b :: r, d) (r', d - (Item.jump op b).pops)

/-- Control follows the items. -/
abbrev Path (is : List Item) : List Item × Int → List Item × Int → Prop :=
  Relation.ReflTransGen (Goes is)

/-- On each path through the items, `k` values are left. -/
def Leaves (c : List Item) (k : Int) : Prop :=
  Path c (c, 0) ([], k) ∧ ∀ d, Path c (c, 0) ([], d) → d = k

/-- No label that the code names is bound in the items. -/
def Apart (c is : List Item) : Prop :=
  ∀ x ∈ c, ∀ b, x.label? = some b → Item.bind b ∉ is

namespace Apart

variable {c c' is is' : List Item}

theorem nil (c : List Item) : Apart c [] := fun _ _ _ _ hm => nomatch hm

theorem append (h : Apart c is) (h' : Apart c is') : Apart c (is ++ is') := by
  intro x hx b hb hm
  rcases List.mem_append.mp hm with hm | hm
  · exact h x hx b hb hm
  · exact h' x hx b hb hm

/-- Items that bind no label. -/
theorem cons {x : Item} (hx : ∀ y ∈ c, ∀ b, y.label? = some b → x ≠ .bind b) (h : Apart c is) :
    Apart c (x :: is) := by
  intro y hy b hb hm
  rcases List.mem_cons.mp hm with he | hm
  · exact hx y hy b hb he.symm
  · exact h y hy b hb hm

/-- Code whose labels lie in different ranges. -/
theorem of_labelsIn {lo hi lo' hi' : BlockId} (h : LabelsIn lo hi c) (h' : LabelsIn lo' hi' is)
    (hd : hi ≤ lo' ∨ hi' ≤ lo) : Apart c is := by
  intro x hx b hb
  obtain ⟨hlo, hlt⟩ := h x hx b hb
  refine h'.not_bind ?_
  rcases hd with hd | hd
  · exact .inl (hlt.trans_le hd)
  · exact .inr (hd.trans hlo)

end Apart

section Paths

variable {is pre c post r : List Item} {d e k : Int} {x : Item} {op : Op} {b : BlockId}

theorem Path.done : Path is ([], d) ([], e) ↔ e = d := by
  constructor
  · intro hp
    rcases Relation.ReflTransGen.cases_head hp with he | ⟨y, hy, -⟩
    · exact (Prod.mk.inj he).2.symm
    · cases hy
  · rintro rfl
    exact .refl

/-- An item that control passes. -/
theorem Path.on (h : x.Continues) (hx : x.label? = none) :
    Path is (x :: r, d) ([], e) ↔ Path is (r, d - x.pops + x.pushes) ([], e) := by
  constructor
  · intro hp
    rcases Relation.ReflTransGen.cases_head hp with he | ⟨y, hy, hp⟩
    · cases he
    · cases hy with
      | on => exact hp
      | jump => cases hx
  · exact fun hp => .head (.on h) hp

theorem Path.visit {i : InstrId} :
    Path is (.visit i :: r, d) ([], e) ↔ Path is (r, d) ([], e) := by
  rw [Path.on (by trivial) rfl]
  simp [Item.pops, Item.pushes]

/-- A label that is bound. -/
theorem Path.bind : Path is (.bind b :: r, d) ([], e) ↔ Path is (r, d) ([], e) := by
  have hd : d - (Item.bind b).pops + (Item.bind b).pushes = d := by simp [Item.pops, Item.pushes]
  constructor
  · intro hp
    rcases Relation.ReflTransGen.cases_head hp with he | ⟨y, hy, hp⟩
    · cases he
    · cases hy with
      | on => rwa [hd] at hp
  · intro hp
    refine .head (.on trivial) ?_
    rwa [hd]

/-- A label that is bound neither in front of code nor behind it is bound inside. -/
theorem bind_inside {p r' : List Item} (h : pre ++ (c ++ post) = p ++ .bind b :: r')
    (hpre : Item.bind b ∉ pre) (hpost : Item.bind b ∉ post) :
    ∃ q w, c = q ++ .bind b :: w ∧ r' = w ++ post := by
  rw [← List.append_assoc] at h
  -- not behind
  obtain ⟨w, hw, rfl⟩ : ∃ w, pre ++ c = p ++ .bind b :: w ∧ r' = w ++ post := by
    rcases List.append_eq_append_iff.mp h with ⟨w, -, hw⟩ | ⟨w, hw, hrest⟩
    · simp [hw] at hpost
    · rcases w with - | ⟨y, w⟩
      · rw [List.nil_append] at hrest
        simp [← hrest] at hpost
      · obtain ⟨hy, htail⟩ := List.cons.inj hrest
        exact ⟨w, by rw [hw, hy], htail⟩
  -- not in front
  rcases List.append_eq_append_iff.mp hw with ⟨q, -, hq⟩ | ⟨q, hq, hrest⟩
  · exact ⟨q, w, hq, rfl⟩
  · rcases q with - | ⟨y, q⟩
    · exact ⟨[], w, hrest.symm, rfl⟩
    · obtain ⟨hy, -⟩ := List.cons.inj hrest
      simp [hq, hy] at hpre

/-- A label that is bound once leads to one place. -/
theorem bound_once {p r r' : List Item} (h : is = pre ++ .bind b :: r)
    (hpre : Item.bind b ∉ pre) (hr : Item.bind b ∉ r) (h' : is = p ++ .bind b :: r') :
    r' = r := by
  obtain ⟨q, w, hq, rfl⟩ := bind_inside (c := [.bind b]) (h.symm.trans h') hpre hr
  rcases q with - | ⟨y, q⟩
  · rw [(List.cons.inj hq).2.symm, List.nil_append]
  · simp at hq

/-- A jump that is always taken. -/
theorem Path.jump {r' : List Item} (h : is = pre ++ .bind b :: r') (hpre : Item.bind b ∉ pre)
    (hr : Item.bind b ∉ r') : Path is (.jump .jump b :: r, d) ([], e) ↔ Path is (r', d) ([], e) := by
  have hd : d - (Item.jump .jump b).pops = d := by simp [Item.pops, Bytecode.pops]
  constructor
  · intro hp
    rcases Relation.ReflTransGen.cases_head hp with he | ⟨y, hy, hp⟩
    · cases he
    · cases hy with
      | on hc => cases hc
      | jump h' =>
          rw [bound_once h hpre hr h', hd] at hp
          exact hp
  · intro hp
    refine .head (.jump h) ?_
    rwa [hd]

/-- A jump that may be taken. -/
theorem Path.branch {r' : List Item} (hop : (Item.jump op b).Continues)
    (h : is = pre ++ .bind b :: r') (hpre : Item.bind b ∉ pre) (hr : Item.bind b ∉ r') :
    Path is (.jump op b :: r, d) ([], e) ↔
      Path is (r, d - (Item.jump op b).pops) ([], e) ∨
        Path is (r', d - (Item.jump op b).pops) ([], e) := by
  have hd : d - (Item.jump op b).pops + (Item.jump op b).pushes = d - (Item.jump op b).pops := by
    simp [Item.pushes]
  constructor
  · intro hp
    rcases Relation.ReflTransGen.cases_head hp with he | ⟨y, hy, hp⟩
    · cases he
    · cases hy with
      | on =>
          rw [hd] at hp
          exact .inl hp
      | jump h' =>
          rw [bound_once h hpre hr h'] at hp
          exact .inr hp
  · rintro (hp | hp)
    · refine .head (.on hop) ?_
      rwa [hd]
    · exact .head (.jump h) hp

/-- A path inside code, with other items around it. -/
theorem Goes.inside {r r' : List Item} {d d' : Int} (h : Goes c (r, d) (r', d'))
    (his : is = pre ++ (c ++ post)) (n : Int) :
    Goes is (r ++ post, n + d) (r' ++ post, n + d') := by
  cases h with
  | @on x _ _ hx =>
      have hgo := @Goes.on is x (r' ++ post) (n + d) hx
      rwa [show n + d - x.pops + x.pushes = n + (d - x.pops + x.pushes) by ring] at hgo
  | @jump op b p r₀ _ _ hc =>
      have hgo := @Goes.jump is op b (pre ++ p) (r₀ ++ post) (r' ++ post) (n + d)
        (by rw [his, hc]; simp)
      rwa [show n + d - (Item.jump op b).pops = n + (d - (Item.jump op b).pops) by ring] at hgo

theorem Path.inside {x y : List Item × Int} (h : Path c x y) (his : is = pre ++ (c ++ post))
    (n : Int) : Path is (x.1 ++ post, n + x.2) (y.1 ++ post, n + y.2) := by
  induction h with
  | refl => exact .refl
  | tail _ hg ih => exact ih.tail (hg.inside his n)

/-- **Code between items that bind none of its labels**: control is inside, or has left it. -/
theorem Path.through (his : is = pre ++ (c ++ post)) (hpre : Apart c pre) (hpost : Apart c post)
    {y : List Item × Int} (h : Path is (c ++ post, d) y) :
    (∃ r k, r <:+ c ∧ y = (r ++ post, d + k) ∧ Path c (c, 0) (r, k)) ∨
      ∃ k, Path c (c, 0) ([], k) ∧ Path is (post, d + k) y := by
  induction h with
  | refl => exact .inl ⟨c, 0, List.suffix_refl c, by rw [add_zero], .refl⟩
  | @tail y z _ hg ih =>
      rcases ih with ⟨r, k, hr, rfl, hp⟩ | ⟨k, hp, hrest⟩
      · rcases r with - | ⟨x, r⟩
        · exact .inr ⟨k, hp, .single hg⟩
        · have hx : x ∈ c := hr.subset List.mem_cons_self
          have hr' : r <:+ c := (List.suffix_cons x r).trans hr
          left
          cases hg with
          | on hc =>
              exact ⟨r, k - x.pops + x.pushes, hr', by rw [add_sub_assoc, add_assoc]; simp,
                hp.tail (.on hc)⟩
          | @jump op b p _ r' _ hb =>
              -- the label is bound inside
              obtain ⟨q, w, rfl, rfl⟩ := bind_inside (his.symm.trans hb) (hpre _ hx b rfl)
                (hpost _ hx b rfl)
              exact ⟨w, k - (Item.jump op b).pops, ⟨q ++ [.bind b], by simp⟩,
                by rw [add_sub_assoc], hp.tail (.jump rfl)⟩
      · exact .inr ⟨k, hp, hrest.tail hg⟩

end Paths

namespace Leaves

variable {is pre post c c' : List Item} {d e k k' : Int}

theorem nil : Leaves [] 0 := by
  refine ⟨.refl, fun d h => ?_⟩
  rcases Relation.ReflTransGen.cases_head h with h | ⟨y, hy, -⟩
  · cases h
    rfl
  · cases hy

theorem unique (h : Leaves c k) (h' : Leaves c k') : k = k' := h'.2 k h.1

/-- What is left is found at the end of every path. -/
theorem of_path (hc : c = is) (h : ∀ e, Path is (c, 0) ([], e) ↔ e = k) : Leaves is k := by
  subst hc
  exact ⟨(h k).mpr rfl, fun e he => (h e).mp he⟩

/-- A path that starts in front of code goes on behind it. -/
theorem passes (h : Leaves c k) (his : is = pre ++ (c ++ post)) (hpre : Apart c pre)
    (hpost : Apart c post) : Path is (c ++ post, d) ([], e) ↔ Path is (post, d + k) ([], e) := by
  constructor
  · intro hp
    rcases Path.through his hpre hpost hp with ⟨r, k', -, he, hin⟩ | ⟨k', hin, hrest⟩
    · obtain ⟨hr, rfl⟩ := Prod.mk.injEq .. ▸ he
      obtain ⟨rfl, rfl⟩ := List.append_eq_nil_iff.mp hr.symm
      rw [h.2 k' hin]
    · rwa [h.2 k' hin] at hrest
  · intro hp
    have hin := h.1.inside his d
    rw [add_zero, List.nil_append] at hin
    exact hin.trans hp

/-- **Code behind other code.** -/
theorem append (h : Leaves c k) (h' : Leaves c' k') (ha : Apart c c') (ha' : Apart c' c) :
    Leaves (c ++ c') (k + k') := by
  refine of_path rfl fun e => ?_
  rw [h.passes (List.nil_append _).symm (.nil _) ha, zero_add, ← List.append_nil c',
    h'.passes rfl ha' (.nil _), Path.done]

/-- One instruction. -/
theorem instr (i : InstrId) (bc : Bytecode) (hbc : (Item.code bc).Continues) :
    Leaves [.visit i, .code bc] (bc.pushes - bc.pops) := by
  refine of_path rfl fun e => ?_
  rw [Path.visit, Path.on hbc rfl, Path.done, zero_sub, neg_add_eq_sub]
  rfl

section Branches

variable {i j t f g : InstrId} {op : Op} {bt bf bj : BlockId} {ts fs tail : List Item} {kt kf : Int}

/-- **A branch without a false target**, whose block leaves nothing. -/
theorem branch (hop : (Item.jump op bj).Continues) (h : Leaves ts 0)
    (hts : Apart ts [.bind bt, .bind bj]) (hb : bt ≠ bj) (hj : Item.bind bj ∉ ts) :
    Leaves (.visit i :: .jump op bj :: .bind bt ::
      (.visit t :: (ts ++ [.visit g, .jump .jump bj]) ++ [.bind bj, .visit j]))
      (-(Item.jump op bj).pops) := by
  generalize his : (Item.visit i :: .jump op bj :: .bind bt ::
    (.visit t :: (ts ++ [.visit g, .jump .jump bj]) ++ [.bind bj, .visit j])) = is
  have hjoin : is = (.visit i :: .jump op bj :: .bind bt :: .visit t ::
      (ts ++ [.visit g, .jump .jump bj])) ++ .bind bj :: [.visit j] := by
    rw [← his]
    simp
  have hblock : is = [.visit i, .jump op bj, .bind bt, .visit t] ++
      (ts ++ [.visit g, .jump .jump bj, .bind bj, .visit j]) := by
    rw [← his]
    simp
  have hpre : Item.bind bj ∉ .visit i :: .jump op bj :: .bind bt :: .visit t ::
      (ts ++ [.visit g, .jump .jump bj]) := by
    simp [hj, hb.symm]
  have hpost : Item.bind bj ∉ [Item.visit j] := by simp
  have hfront : Apart ts [.visit i, .jump op bj, .bind bt, .visit t] := by
    intro x hx b hb
    have hne := hts x hx b hb
    simp only [List.mem_cons, Item.bind.injEq, List.not_mem_nil, or_false, not_or] at hne
    simp [hne.1]
  have hbehind : Apart ts [.visit g, .jump .jump bj, .bind bj, .visit j] := by
    intro x hx b hb
    have hne := hts x hx b hb
    simp only [List.mem_cons, Item.bind.injEq, List.not_mem_nil, or_false, not_or] at hne
    simp [hne.2]
  refine of_path his fun e => ?_
  rw [Path.visit, Path.branch hop hjoin hpre hpost, Path.bind, List.cons_append, Path.visit,
    List.append_assoc]
  have hts' := h.passes (d := 0 - (Item.jump op bj).pops) (e := e) hblock hfront hbehind
  rw [add_zero, Path.visit, Path.jump hjoin hpre hpost] at hts'
  rw [show ∀ x y z w : Item, [x, y] ++ [z, w] = [x, y, z, w] from fun _ _ _ _ => rfl, hts',
    or_self, Path.visit, Path.done, zero_sub]

/-- **A branch with a false target**: both blocks leave the same.  The second one may end without
a jump to the join, which is behind it. -/
theorem branchElse (hop : (Item.jump op bf).Continues) (h : Leaves ts k) (h' : Leaves fs k)
    (hts : Apart ts (.bind bt :: .bind bf :: .bind bj :: fs))
    (hfs : Apart fs (.bind bt :: .bind bf :: .bind bj :: ts))
    (hb : bt ≠ bf ∧ bt ≠ bj ∧ bf ≠ bj) (hf : Item.bind bf ∉ ts ++ fs)
    (hj : Item.bind bj ∉ ts ++ fs) (htail : tail = [] ∨ ∃ g', tail = [.visit g', .jump .jump bj]) :
    Leaves (.visit i :: .jump op bf :: .bind bt ::
      (.visit t :: (ts ++ [.visit g, .jump .jump bj]) ++ .bind bf ::
        (.visit f :: (fs ++ tail) ++ [.bind bj, .visit j])))
      (k - (Item.jump op bf).pops) := by
  have htail' : ∀ b, Item.bind b ∉ tail := by
    rcases htail with rfl | ⟨g', rfl⟩ <;> simp
  generalize his : (Item.visit i :: .jump op bf :: .bind bt ::
      (.visit t :: (ts ++ [.visit g, .jump .jump bj]) ++ .bind bf ::
        (.visit f :: (fs ++ tail) ++ [.bind bj, .visit j]))) = is
  have hjoin : is = (.visit i :: .jump op bf :: .bind bt :: .visit t ::
      (ts ++ [.visit g, .jump .jump bj] ++ .bind bf :: .visit f :: (fs ++ tail))) ++
        .bind bj :: [.visit j] := by
    rw [← his]
    simp
  have helse : is = (.visit i :: .jump op bf :: .bind bt :: .visit t ::
      (ts ++ [.visit g, .jump .jump bj])) ++ .bind bf ::
        (.visit f :: (fs ++ tail) ++ [.bind bj, .visit j]) := by
    rw [← his]
    simp
  have htsAt : is = [.visit i, .jump op bf, .bind bt, .visit t] ++
      (ts ++ (.visit g :: .jump .jump bj :: .bind bf ::
        (.visit f :: (fs ++ tail) ++ [.bind bj, .visit j]))) := by
    rw [← his]
    simp
  have hfsAt : is = (.visit i :: .jump op bf :: .bind bt :: .visit t ::
      (ts ++ [.visit g, .jump .jump bj, .bind bf, .visit f])) ++
        (fs ++ (tail ++ [.bind bj, .visit j])) := by
    rw [← his]
    simp
  have hjpre : Item.bind bj ∉ .visit i :: .jump op bf :: .bind bt :: .visit t ::
      (ts ++ [.visit g, .jump .jump bj] ++ .bind bf :: .visit f :: (fs ++ tail)) := by
    simp only [List.mem_append, not_or] at hj
    simp [hj, hb.2.1.symm, hb.2.2.symm, htail']
  have hfpre : Item.bind bf ∉ .visit i :: .jump op bf :: .bind bt :: .visit t ::
      (ts ++ [.visit g, .jump .jump bj]) := by
    simp only [List.mem_append, not_or] at hf
    simp [hf, hb.1.symm]
  have hfpost : Item.bind bf ∉ .visit f :: (fs ++ tail) ++ [.bind bj, .visit j] := by
    simp only [List.mem_append, not_or] at hf
    simp [hf, hb.2.2, htail']
  have hjpost : Item.bind bj ∉ [Item.visit j] := by simp
  -- the rest of a path behind either block
  have hend : ∀ d e, Path is ([.visit j], d) ([], e) ↔ e = d := fun d e => by
    rw [Path.visit, Path.done]
  have hthen : ∀ d e, Path is (ts ++ (.visit g :: .jump .jump bj :: .bind bf ::
      (.visit f :: (fs ++ tail) ++ [.bind bj, .visit j])), d) ([], e) ↔ e = d + k := by
    intro d e
    rw [h.passes htsAt ?_ ?_, Path.visit, Path.jump hjoin hjpre hjpost, hend]
    · intro x hx b hb
      have hne := hts x hx b hb
      simp only [List.mem_cons, Item.bind.injEq, not_or] at hne
      simp [hne]
    · intro x hx b hb
      have hne := hts x hx b hb
      simp only [List.mem_cons, Item.bind.injEq, not_or] at hne
      simp [hne, htail']
  have hotherwise : ∀ d e, Path is (fs ++ (tail ++ [.bind bj, .visit j]), d) ([], e) ↔
      e = d + k := by
    intro d e
    rw [h'.passes hfsAt ?_ ?_]
    · rcases htail with rfl | ⟨g', rfl⟩
      · rw [List.nil_append, Path.bind, hend]
      · rw [List.cons_append, Path.visit, List.cons_append, Path.jump hjoin hjpre hjpost, hend]
    · intro x hx b hb
      have hne := hfs x hx b hb
      simp only [List.mem_cons, Item.bind.injEq, not_or] at hne
      simp [hne]
    · intro x hx b hb
      have hne := hfs x hx b hb
      simp only [List.mem_cons, Item.bind.injEq, not_or] at hne
      simp [hne, htail']
  refine of_path his fun e => ?_
  rw [Path.visit, Path.branch hop helse hfpre hfpost, Path.bind, List.cons_append, Path.visit,
    List.cons_append, Path.visit]
  simp only [List.append_assoc, List.cons_append, List.nil_append] at hthen hotherwise ⊢
  rw [hthen, hotherwise, or_self, zero_sub, neg_add_eq_sub]

end Branches

end Leaves

end Gel
