import Gel.Emission
import Mathlib.Data.Set.BooleanAlgebra
import Mathlib.Order.CompletePartialOrder
import Mathlib.Data.Fintype.Card

/-!
# Fragment — the part of a flow graph that one visitor built

A visitor's fragment is entered at one instruction and continued at two places: at its exit, where
`Add` and `Append` link what follows, and at the tail of its chain, where `AppendFragment` does.
After a branch the two are different, because the exit is then the join.

`Fragment ctx h own e s` says what the chain at `e` emits in every graph that grows out of `h`
without touching the instructions in `own`, as a function of what is emitted behind the exit and
behind the tail.

* `Fragment.linked`, `Fragment.append`: fragments compose by a link at the exit.
* `Fragment.branch`, `Fragment.branchElse`: a branch with its blocks is a fragment.
* `last_of_walk`: the end of a fragment's chain, where `AppendFragment` links.
-/

namespace Gel

open FlowGraphCompiler

namespace Graph

/-- The number of instructions allocated. -/
def size (h : Graph) : Nat := h.instrs.length

/-- `g` has grown out of `h`: it has the instructions of `h`, and the links of the instructions in
`own` but for the holes. -/
structure Agrees (h g : Graph) (own hole : Set InstrId) : Prop where
  instrs : h.instrs <+: g.instrs
  next : ∀ i ∈ own, i ∉ hole → g.next i = h.next i

theorem Agrees.instr? {h g : Graph} {own hole : Set InstrId} (ha : h.Agrees g own hole)
    {i : InstrId} {x : Instr} (hi : h.instr? i = some x) : g.instr? i = some x := by
  obtain ⟨r, hr⟩ := ha.instrs
  have hlt : i < h.instrs.length := (List.getElem?_eq_some_iff.mp hi).1
  rw [Graph.instr?, ← hr, List.getElem?_append_left hlt]
  exact hi

theorem Agrees.blockId {h g : Graph} {own hole : Set InstrId} (ha : h.Agrees g own hole)
    {i : InstrId} {b : BlockId} (hi : blockId h i = some b) : blockId g i = some b := by
  obtain ⟨x, hx, hb⟩ := Option.bind_eq_some_iff.mp hi
  rw [FlowGraphCompiler.blockId, ha.instr? hx]
  exact hb

theorem Agrees.mono {h g : Graph} {own own' hole hole' : Set InstrId} (ha : h.Agrees g own hole)
    (hown : own' ⊆ own) (hhole : ∀ i ∈ own', i ∈ hole → i ∈ hole') : h.Agrees g own' hole' where
  instrs := ha.instrs
  next i hi hn := ha.next i (hown hi) fun hm => hn (hhole i hi hm)

theorem Agrees.trans {h h' g : Graph} {own hole : Set InstrId} (ha : h.Agrees h' own ∅)
    (hb : h'.Agrees g own hole) : h.Agrees g own hole where
  instrs := ha.instrs.trans hb.instrs
  next i hi hn := (hb.next i hi hn).trans (ha.next i hi (Set.notMem_empty i))

theorem Agrees.refl (h : Graph) (own hole : Set InstrId) : h.Agrees h own hole where
  instrs := List.prefix_refl _
  next _ _ _ := rfl

/-- Linking at a hole. -/
theorem agrees_link (h : Graph) {own hole : Set InstrId} {i : InstrId} (j : InstrId)
    (hi : i ∈ own → i ∈ hole) : h.Agrees (h.link i j) own hole where
  instrs := List.prefix_refl _
  next k hk hn := by
    refine Function.update_of_ne (fun he => hn ?_) _ _
    rw [he] at hk ⊢
    exact hi hk

@[simp] theorem next_link_self (h : Graph) (i j : InstrId) : (h.link i j).next i = some j :=
  Function.update_self _ _ _

theorem next_link_of_ne (h : Graph) {i k : InstrId} (j : InstrId) (hk : k ≠ i) :
    (h.link i j).next k = h.next k :=
  Function.update_of_ne hk _ _

@[simp] theorem instrs_link (h : Graph) (i j : InstrId) : (h.link i j).instrs = h.instrs := rfl

@[simp] theorem size_link (h : Graph) (i j : InstrId) : (h.link i j).size = h.size := rfl

/-! ### The end of a chain -/

/-- A chain of `n` links from one instruction to another, through the instructions in `own`. -/
def Walk (h : Graph) (own : Set InstrId) : Nat → InstrId → InstrId → Prop
  | 0, a, t => a = t
  | n + 1, a, t => a ∈ own ∧ ∃ j, h.next a = some j ∧ Walk h own n j t

variable {h h' : Graph} {own own' : Set InstrId}

theorem Walk.trans {n k : Nat} {a b t : InstrId} (hw : h.Walk own n a b) (hw' : h.Walk own k b t) :
    h.Walk own (n + k) a t := by
  induction n generalizing a with
  | zero =>
      obtain rfl := hw
      rwa [Nat.zero_add]
  | succ n ih =>
      obtain ⟨ha, j, hj, hrest⟩ := hw
      rw [Nat.add_right_comm]
      exact ⟨ha, j, hj, ih hrest⟩

/-- A chain stays when its links do. -/
theorem Walk.mono {n : Nat} {a t : InstrId} (hw : h.Walk own n a t) (hown : own ⊆ own')
    (hnext : ∀ i ∈ own, ∀ j, h.next i = some j → h'.next i = some j) : h'.Walk own' n a t := by
  induction n generalizing a with
  | zero => exact hw
  | succ n ih =>
      obtain ⟨ha, j, hj, hrest⟩ := hw
      exact ⟨hown ha, j, hnext a ha j hj, ih hrest⟩

/-- The length of a chain that ends is determined. -/
theorem Walk.length_unique {n k : Nat} {a t t' : InstrId} (hw : h.Walk own n a t)
    (hw' : h.Walk own k a t') (ht : h.next t = none) (ht' : h.next t' = none) : n = k := by
  induction n generalizing a k with
  | zero =>
      obtain rfl := hw
      cases k with
      | zero => rfl
      | succ k =>
          obtain ⟨-, j, hj, -⟩ := hw'
          exact nomatch ht.symm.trans hj
  | succ n ih =>
      obtain ⟨-, j, hj, hrest⟩ := hw
      cases k with
      | zero =>
          obtain rfl := hw'
          exact nomatch ht'.symm.trans hj
      | succ k =>
          obtain ⟨-, j', hj', hrest'⟩ := hw'
          obtain rfl := Option.some.inj (hj.symm.trans hj')
          rw [ih hrest hrest']

/-- The instruction after `k` links. -/
theorem Walk.split {n k : Nat} {a t : InstrId} (hw : h.Walk own (n + k) a t) :
    ∃ b, h.Walk own n a b ∧ h.Walk own k b t := by
  induction n generalizing a with
  | zero => exact ⟨a, rfl, by rwa [Nat.zero_add] at hw⟩
  | succ n ih =>
      rw [Nat.add_right_comm] at hw
      obtain ⟨ha, j, hj, hrest⟩ := hw
      obtain ⟨b, h₁, h₂⟩ := ih hrest
      exact ⟨b, ⟨ha, j, hj, h₁⟩, h₂⟩

/-- A chain that ends has no more links than there are instructions. -/
theorem Walk.lt_size {n : Nat} {a t : InstrId} (hw : h.Walk own n a t) (ht : h.next t = none)
    (hown : ∀ i ∈ own, i < h.size) (hlt : t < h.size) : n < h.size := by
  have hnode : ∀ k ≤ n, ∃ b, b < h.size ∧ h.Walk own (n - k) b t := by
    intro k hk
    obtain ⟨m, rfl⟩ := Nat.exists_eq_add_of_le hk
    obtain ⟨b, -, hb⟩ := hw.split
    rw [Nat.add_sub_cancel_left]
    refine ⟨b, ?_, hb⟩
    cases m with
    | zero =>
        obtain rfl := hb
        exact hlt
    | succ m => exact hown _ hb.1
  choose f hf hfw using hnode
  -- the instructions along the chain are distinct, because the rest of the chain has a length
  have hinj : Function.Injective fun k : Fin (n + 1) =>
      (⟨f k (Nat.le_of_lt_succ k.2), hf _ _⟩ : Fin h.size) := by
    intro k k' he
    have hk := hfw k (Nat.le_of_lt_succ k.2)
    have hk' := hfw k' (Nat.le_of_lt_succ k'.2)
    rw [Fin.mk.inj he] at hk
    have hlen := hk.length_unique hk' ht ht
    omega
  have hcard := Fintype.card_le_of_injective _ hinj
  rwa [Fintype.card_fin, Fintype.card_fin] at hcard

theorem lastWithin_of_walk {n k : Nat} {a t : InstrId} (hw : h.Walk own n a t)
    (ht : h.next t = none) (hk : n < k) : h.lastWithin k a = some t := by
  induction n generalizing a k with
  | zero =>
      obtain rfl := hw
      obtain ⟨k, rfl⟩ : ∃ l, k = l + 1 := ⟨k - 1, by omega⟩
      rw [lastWithin, ht]
  | succ n ih =>
      obtain ⟨-, j, hj, hrest⟩ := hw
      obtain ⟨k, rfl⟩ : ∃ l, k = l + 1 := ⟨k - 1, by omega⟩
      rw [lastWithin, hj]
      exact ih hrest (by omega)

/-- **The end of a chain** is what `Instruction::Append` finds. -/
theorem last_of_walk {n : Nat} {a t : InstrId} (hw : h.Walk own n a t) (ht : h.next t = none)
    (hown : ∀ i ∈ own, i < h.size) (hlt : t < h.size) : h.last a = some t :=
  lastWithin_of_walk hw ht (hw.lt_size ht hown hlt)

end Graph

/-! ### Fragments -/

/-- Where a fragment is continued, and what it emits around what is emitted there: behind the exit,
and behind the tail when that is another instruction. -/
structure Shape where
  exit : InstrId
  tail : InstrId
  items : List Item → List Item → List Item

namespace Shape

/-- The instructions at which a fragment is continued. -/
def holes (s : Shape) : Set InstrId := {s.exit, s.tail}

/-- What a graph emits behind a fragment. -/
def Filled (s : Shape) (g : Graph) (k₁ k₂ : List Item) : Prop :=
  Emits g (g.next s.exit) k₁ ∧ if s.exit = s.tail then k₂ = [] else Emits g (g.next s.tail) k₂

/-- A fragment linked at the exit of another one. -/
def append (s t : Shape) : Shape :=
  if s.exit = s.tail then
    { exit := t.exit, tail := t.tail, items := fun k₁ k₂ => s.items (t.items k₁ k₂) [] }
  else { exit := t.exit, tail := s.tail, items := fun k₁ k₂ => s.items (t.items k₁ []) k₂ }

/-- A fragment that emits its code in front of everything behind it. -/
def linear (exit tail : InstrId) (c : List Item) : Shape :=
  { exit, tail, items := fun k₁ k₂ => c ++ (k₁ ++ k₂) }

theorem append_linear (x t x' t' : InstrId) (c c' : List Item) :
    (linear x t c).append (linear x' t' c') =
      linear x' (if x = t then t' else t) (c ++ c') := by
  by_cases h : x = t <;> simp [append, linear, h]

end Shape

/-- The chain at `e` is a fragment of the shape `s` in every graph that grows out of `h`, where
`ctx` holds. -/
structure Fragment (ctx : Graph → Prop) (h : Graph) (own : Set InstrId) (e : InstrId)
    (s : Shape) : Prop where
  inside : ∀ i ∈ own, i < h.size
  exit_mem : s.exit ∈ own
  tail_mem : s.tail ∈ own
  exit_end : h.next s.exit = none
  tail_end : h.next s.tail = none
  walk : ∃ n, h.Walk own n e s.tail
  emits : ∀ g, ctx g → h.Agrees g own s.holes → ∀ k₁ k₂, s.Filled g k₁ k₂ →
    Emits g (some e) (s.items k₁ k₂)

namespace Fragment

variable {ctx : Graph → Prop} {h h' : Graph} {own own' : Set InstrId} {e e' : InstrId}
  {s t : Shape}

/-- Building elsewhere leaves a fragment alone. -/
theorem mono (hf : Fragment ctx h own e s) (ha : h.Agrees h' own ∅) (hown : own ⊆ own')
    (hin : ∀ i ∈ own', i < h'.size) : Fragment ctx h' own' e s where
  inside := hin
  exit_mem := hown hf.exit_mem
  tail_mem := hown hf.tail_mem
  exit_end := (ha.next _ hf.exit_mem (Set.notMem_empty _)).trans hf.exit_end
  tail_end := (ha.next _ hf.tail_mem (Set.notMem_empty _)).trans hf.tail_end
  walk := by
    obtain ⟨n, hn⟩ := hf.walk
    exact ⟨n, hn.mono hown fun i hi j hj => (ha.next i hi (Set.notMem_empty i)).trans hj⟩
  emits g hctx hg k₁ k₂ hk :=
    hf.emits g hctx (ha.trans (hg.mono hown fun _ _ hm => hm)) k₁ k₂ hk

/-- An instruction that is not a branch. -/
theorem instr {i : InstrId} {x : Instr} {is : List Item} (hi : h.instr? i = some x)
    (his : ∀ g, h.Agrees g {i} {i} → itemsOf g x = some is) (hn : h.next i = none) :
    Fragment ctx h {i} i (.linear i i (.visit i :: is)) where
  inside j hj := by
    obtain rfl := hj
    exact (List.getElem?_eq_some_iff.mp hi).1
  exit_mem := rfl
  tail_mem := rfl
  exit_end := hn
  tail_end := hn
  walk := ⟨0, rfl⟩
  emits g _ hg k₁ k₂ hk := by
    obtain ⟨h₁, h₂⟩ := hk
    obtain rfl : k₂ = [] := by simpa [Shape.linear] using h₂
    have hg' : h.Agrees g {i} {i} := hg.mono subset_rfl fun _ hj _ => hj
    simpa [Shape.linear] using Emits.instr (hg.instr? hi) (his g hg') h₁

/-- **Fragments compose** by a link at the exit of the first.  The first fragment may have been
built long before the second one, as long as nothing but its exit has been linked since. -/
theorem linked (hs : Fragment ctx h own e s) (ha : h.Agrees h' own {s.exit})
    (hlink : h'.next s.exit = some e') (ht : Fragment ctx h' own' e' t) (hd : Disjoint own own') :
    Fragment ctx h' (own ∪ own') e (s.append t) := by
  have hne : ∀ i ∈ own, ∀ j ∈ own', i ≠ j := fun i hi j hj he =>
    Set.disjoint_left.mp hd hi (he ▸ hj)
  have hkeep : ∀ i ∈ own, i ≠ s.exit → h'.next i = h.next i := fun i hi hx => ha.next i hi hx
  have hstay : ∀ i ∈ own, ∀ j, h.next i = some j → h'.next i = some j := by
    intro i hi j hj
    rw [hkeep i hi fun he => ?_]
    · exact hj
    · rw [he, hs.exit_end] at hj
      cases hj
  have hin : ∀ i ∈ own ∪ own', i < h'.size := by
    rintro i (hi | hi)
    · exact (hs.inside i hi).trans_le ha.instrs.length_le
    · exact ht.inside i hi
  obtain ⟨n, hwalk⟩ := hs.walk
  obtain ⟨n', hwalk'⟩ := ht.walk
  by_cases hx : s.exit = s.tail
  · -- the second fragment ends the chain of the first
    rw [Shape.append, if_pos hx]
    refine ⟨hin, .inr ht.exit_mem, .inr ht.tail_mem, ht.exit_end, ht.tail_end,
      ⟨n + (n' + 1), ?_⟩, ?_⟩
    · have h₁ := hwalk.mono (Set.subset_union_left (t := own')) hstay
      rw [← hx] at h₁
      exact h₁.trans ⟨.inl hs.exit_mem, e', hlink,
        hwalk'.mono Set.subset_union_right fun _ _ _ hj => hj⟩
    · intro g hctx hg k₁ k₂ hk
      have hnot : ∀ i ∈ own, i ∉ ({t.exit, t.tail} : Set InstrId) := by
        rintro i hi (he | he)
        · exact hne i hi _ ht.exit_mem he
        · exact hne i hi _ ht.tail_mem he
      have hnext : g.next s.exit = some e' :=
        (hg.next _ (.inl hs.exit_mem) (hnot _ hs.exit_mem)).trans hlink
      have hgt : h'.Agrees g own' t.holes := hg.mono Set.subset_union_right fun _ _ hm => hm
      have hgs : h.Agrees g own s.holes :=
        ⟨ha.instrs.trans hg.instrs, fun i hi hn => (hg.next i (.inl hi) (hnot i hi)).trans
          (hkeep i hi fun he => hn (.inl he))⟩
      refine hs.emits g hctx hgs _ [] ⟨?_, ?_⟩
      · rw [hnext]
        exact ht.emits g hctx hgt k₁ k₂ hk
      · rw [if_pos hx]
  · -- the second fragment ends what is behind the join of the first
    rw [Shape.append, if_neg hx]
    refine ⟨hin, .inr ht.exit_mem, .inl hs.tail_mem, ht.exit_end,
      (hkeep _ hs.tail_mem (Ne.symm hx)).trans hs.tail_end,
      ⟨n, hwalk.mono Set.subset_union_left hstay⟩, ?_⟩
    intro g hctx hg k₁ k₂ hk
    obtain ⟨hk₁, hk₂⟩ := hk
    rw [if_neg (hne _ hs.tail_mem _ ht.exit_mem).symm] at hk₂
    have hnext : g.next s.exit = some e' := by
      rw [hg.next _ (.inl hs.exit_mem) ?_, hlink]
      rintro (he | he)
      · exact hne _ hs.exit_mem _ ht.exit_mem he
      · exact hx he
    have hgt : h'.Agrees g own' t.holes := by
      refine hg.mono Set.subset_union_right fun i hi hm => ?_
      rcases hm with he | he
      · exact .inl he
      · exact absurd he.symm (hne _ hs.tail_mem i hi)
    have hgs : h.Agrees g own s.holes := by
      refine ⟨ha.instrs.trans hg.instrs, fun i hi hn => (hg.next i (.inl hi) ?_).trans
        (hkeep i hi fun he => hn (.inl he))⟩
      rintro (he | he)
      · exact hne i hi _ ht.exit_mem he
      · exact hn (.inr he)
    have htk : t.Filled g k₁ [] := by
      refine ⟨hk₁, ?_⟩
      by_cases hxt : t.exit = t.tail
      · rw [if_pos hxt]
      · rw [if_neg hxt, hg.next _ (.inr ht.tail_mem) ?_, ht.tail_end]
        · exact .done
        · rintro (he | he)
          · exact hxt he.symm
          · exact hne _ hs.tail_mem _ ht.tail_mem he.symm
    refine hs.emits g hctx hgs _ k₂ ⟨?_, ?_⟩
    · rw [hnext]
      exact ht.emits g hctx hgt k₁ [] htk
    · rwa [if_neg hx]

/-- Linking two fragments. -/
theorem append (hs : Fragment ctx h own e s) (ht : Fragment ctx h own' e' t)
    (hd : Disjoint own own') :
    Fragment ctx (h.link s.exit e') (own ∪ own') e (s.append t) :=
  hs.linked (Graph.agrees_link h e' fun _ => rfl) (h.next_link_self _ _)
    (ht.mono (Graph.agrees_link h e' fun hm =>
      absurd hm (Set.disjoint_left.mp hd hs.exit_mem)) subset_rfl ht.inside) hd

/-- A fragment whose exit is not continued: only the tail is left. -/
theorem close {x l : InstrId} {c : List Item} (hf : Fragment ctx h own e (.linear x l c)) :
    Fragment ctx h own e (.linear l l c) where
  inside := hf.inside
  exit_mem := hf.tail_mem
  tail_mem := hf.tail_mem
  exit_end := hf.tail_end
  tail_end := hf.tail_end
  walk := hf.walk
  emits g hctx hg k₁ k₂ hk := by
    obtain ⟨h₁, h₂⟩ := hk
    obtain rfl : k₂ = [] := by simpa [Shape.linear] using h₂
    by_cases hx : x = l
    · obtain rfl := hx
      exact hf.emits g hctx hg k₁ [] ⟨h₁, by simp [Shape.linear]⟩
    · have hg' : h.Agrees g own (Shape.linear x l c).holes :=
        hg.mono subset_rfl fun i _ hi => .inr (by simpa [Shape.holes, Shape.linear] using hi)
      have hnext : g.next x = none := by
        rw [hg.next x hf.exit_mem ?_]
        · exact hf.exit_end
        · simpa [Shape.holes, Shape.linear] using hx
      have hk : (Shape.linear x l c).Filled g [] k₁ := by
        refine ⟨?_, ?_⟩
        · exact hnext ▸ .done
        · simpa [Shape.linear, hx] using h₁
      simpa [Shape.linear] using hf.emits g hctx hg' [] k₁ hk

/-- A fragment appended to the end of a chain. -/
theorem behind {x l x' l' : InstrId} {c c' : List Item}
    (hs : Fragment ctx h own e (.linear x l c)) (ht : Fragment ctx h own' e' (.linear x' l' c'))
    (hd : Disjoint own own') :
    Fragment ctx (h.link l e') (own ∪ own') e (.linear l' l' (c ++ c')) := by
  have hf := hs.close.append ht hd
  rw [Shape.append_linear, if_pos rfl] at hf
  exact hf.close

/-- The end of the chain of a fragment. -/
theorem last (hf : Fragment ctx h own e s) : h.last e = some s.tail := by
  obtain ⟨n, hn⟩ := hf.walk
  exact Graph.last_of_walk hn hf.tail_end hf.inside (hf.inside _ hf.tail_mem)

end Fragment

/-! ### Blocks -/

/-- A chain that nothing more is linked to, and what it emits. -/
structure Block (ctx : Graph → Prop) (h : Graph) (own : Set InstrId) (e : InstrId)
    (is : List Item) : Prop where
  inside : ∀ i ∈ own, i < h.size
  emits : ∀ g, ctx g → h.Agrees g own ∅ → Emits g (some e) is

namespace Block

variable {ctx : Graph → Prop} {h h' : Graph} {own own' : Set InstrId} {e : InstrId}
  {is : List Item}

theorem mono (hb : Block ctx h own e is) (ha : h.Agrees h' own ∅) : Block ctx h' own e is where
  inside i hi := (hb.inside i hi).trans_le ha.instrs.length_le
  emits g hctx hg := hb.emits g hctx (ha.trans hg)

theorem imp {ctx' : Graph → Prop} (hb : Block ctx h own e is) (hctx : ∀ g, ctx' g → ctx g) :
    Block ctx' h own e is where
  inside := hb.inside
  emits g hc := hb.emits g (hctx g hc)

/-- A fragment with nothing behind it. -/
theorem ofFragment {x l : InstrId} {c : List Item}
    (hf : Fragment ctx h own e (.linear x l c)) : Block ctx h own e c where
  inside := hf.inside
  emits g hctx hg := by
    have hx : g.next x = none :=
      (hg.next x hf.exit_mem (Set.notMem_empty x)).trans hf.exit_end
    have hl : g.next l = none :=
      (hg.next l hf.tail_mem (Set.notMem_empty l)).trans hf.tail_end
    have hk : (Shape.linear x l c).Filled g [] [] := by
      refine ⟨hx ▸ .done, ?_⟩
      split
      · rfl
      · exact hl ▸ .done
    simpa [Shape.linear] using
      hf.emits g hctx (hg.mono subset_rfl fun _ _ hm => absurd hm (Set.notMem_empty _)) [] [] hk

end Block

namespace Fragment

variable {ctx : Graph → Prop} {h : Graph} {own own' : Set InstrId} {i t f j : InstrId}
  {condition : Condition} {bt bf bj : BlockId} {ts fs : List Item}

/-- **A branch without a false target**, with its block and its join. -/
theorem branch (hi : h.instr? i = some (.branch condition t none j))
    (hj : h.instr? j = some (.joinEntry bj)) (ht : blockId h t = some bt)
    (hts : Block ctx h own t ts) (hni : h.next i = none) (hnj : h.next j = none)
    (hij : i ≠ j) (hio : i ∉ own) (hjo : j ∉ own) :
    Fragment ctx h ({i, j} ∪ own) i
      (.linear j i (.visit i :: .jump (branchOp condition) bj :: .bind bt ::
        (ts ++ [.bind bj, .visit j]))) where
  inside k hk := by
    obtain (rfl | rfl) | hk := hk
    · exact (List.getElem?_eq_some_iff.mp hi).1
    · exact (List.getElem?_eq_some_iff.mp hj).1
    · exact hts.inside k hk
  exit_mem := .inl (.inr rfl)
  tail_mem := .inl (.inl rfl)
  exit_end := hnj
  tail_end := hni
  walk := ⟨0, rfl⟩
  emits g hctx hg k₁ k₂ hk := by
    obtain ⟨h₁, h₂⟩ := hk
    rw [Shape.linear, if_neg hij.symm] at h₂
    have hown : h.Agrees g own ∅ := hg.mono Set.subset_union_right fun k hk hm => by
      obtain rfl | rfl := hm
      · exact absurd hk hjo
      · exact absurd hk hio
    have hbj : blockId h j = some bj := by rw [blockId, hj]; rfl
    have hem := Emits.branch (hg.instr? hi) (hg.blockId ht) (hg.blockId hbj)
      (hts.emits g hctx hown) (.instr (hg.instr? hj) rfl h₁) h₂
    simpa [Shape.linear] using hem

/-- **A branch with a false target**, with its blocks and its join. -/
theorem branchElse {own₁ own₂ : Set InstrId}
    (hi : h.instr? i = some (.branch condition t (some f) j))
    (hj : h.instr? j = some (.joinEntry bj)) (ht : blockId h t = some bt)
    (hf : blockId h f = some bf) (hts : Block ctx h own₁ t ts) (hfs : Block ctx h own₂ f fs)
    (hni : h.next i = none) (hnj : h.next j = none) (hij : i ≠ j)
    (hio : i ∉ own₁ ∪ own₂) (hjo : j ∉ own₁ ∪ own₂) :
    Fragment ctx h ({i, j} ∪ (own₁ ∪ own₂)) i
      (.linear j i (.visit i :: .jump (branchOp condition) bf :: .bind bt ::
        (ts ++ .bind bf :: (fs ++ [.bind bj, .visit j])))) where
  inside k hk := by
    obtain (rfl | rfl) | hk | hk := hk
    · exact (List.getElem?_eq_some_iff.mp hi).1
    · exact (List.getElem?_eq_some_iff.mp hj).1
    · exact hts.inside k hk
    · exact hfs.inside k hk
  exit_mem := .inl (.inr rfl)
  tail_mem := .inl (.inl rfl)
  exit_end := hnj
  tail_end := hni
  walk := ⟨0, rfl⟩
  emits g hctx hg k₁ k₂ hk := by
    obtain ⟨h₁, h₂⟩ := hk
    rw [Shape.linear, if_neg hij.symm] at h₂
    have hown : h.Agrees g (own₁ ∪ own₂) ∅ := hg.mono Set.subset_union_right fun k hk hm => by
      obtain rfl | rfl := hm
      · exact absurd hk hjo
      · exact absurd hk hio
    have hbj : blockId h j = some bj := by rw [blockId, hj]; rfl
    have hem := Emits.branchElse (hg.instr? hi) (hg.blockId ht) (hg.blockId hf) (hg.blockId hbj)
      (hts.emits g hctx (hown.mono Set.subset_union_left fun _ _ hm => hm))
      (hfs.emits g hctx (hown.mono Set.subset_union_right fun _ _ hm => hm))
      (.instr (hg.instr? hj) rfl h₁) h₂
    simpa [Shape.linear] using hem

end Fragment

end Gel
