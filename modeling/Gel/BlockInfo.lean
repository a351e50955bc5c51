import Gel.Core

/-!
# BlockInfo — the compiler's table of labels

`FlowGraphCompiler` keeps the labels of blocks in a vector, hands out pointers into it and lets it
grow at a request.  `iterate` names a label by the id of its block; the vector is what the code does
with that id.

* `labelsKept_iff`: the sequences of requests and uses for which a pointer stays the label of its
  block.
* `labelOps_iterate`, `labelOps_labels`: the sequence of a compilation, and what it makes of the labels.
-/

namespace Gel

/-- `FlowGraphCompiler::BlockInfo`. -/
structure BlockInfo where
  id : BlockId := 0
  label : Label := {}

/-- A `Label*`: the storage of the vector it points into and the element. -/
structure LabelPtr where
  storage : Nat
  index : Nat
  deriving DecidableEq

/-- `info_`.  Growing moves the elements to other storage. -/
structure BlockTable where
  info : List BlockInfo := [{}]
  storage : Nat := 0

namespace BlockTable

/-- The `resize` of `GetBlockInfo`. -/
def grow (t : BlockTable) (idx : BlockId) : BlockTable :=
  if idx > t.info.length then
    { info := t.info ++ List.replicate (idx + 1 - t.info.length) {}, storage := t.storage + 1 }
  else t

/-- `GetBlockInfo`, and the address of the label it returns. -/
def getBlockLabel (t : BlockTable) (idx : BlockId) : Except Fault (LabelPtr × BlockTable) :=
  let t := t.grow idx
  match t.info[idx]? with
  | none => .error .undefined
  | some e =>
      let t := if e.id ≠ idx then { t with info := t.info.set idx { id := idx } } else t
      .ok (⟨t.storage, idx⟩, t)

/-- A read and a write through a pointer, which dangles when the elements have moved. -/
def update (t : BlockTable) (p : LabelPtr) (f : Label → Label) : Except Fault BlockTable :=
  if p.storage = t.storage then
    match t.info[p.index]? with
    | none => .error .undefined
    | some e => .ok { t with info := t.info.set p.index { e with label := f e.label } }
  else .error .undefined

end BlockTable

/-- What a compilation does with labels: a request for the label of a block, and a jump to a label
or the binding of one, through the pointer of the request with that number. -/
inductive LabelOp where
  | request (b : BlockId)
  | use (k : Nat) (f : Label → Label)

namespace LabelOp

/-- The requests of a sequence. -/
def requests : List LabelOp → List BlockId
  | [] => []
  | request b :: ops => b :: requests ops
  | use .. :: ops => requests ops

/-- The label of each block when a label is the block's own, after the requests in `held`. -/
def labels : List LabelOp → List BlockId → (BlockId → Label) → BlockId → Label
  | [], _, ls => ls
  | request b :: ops, held, ls => labels ops (held ++ [b]) ls
  | use k f :: ops, held, ls => match held[k]? with
      | none => labels ops held ls
      | some b => labels ops held (Function.update ls b (f (ls b)))

/-- A sequence on the table, with the pointers in hand. -/
def run : List LabelOp → List LabelPtr × BlockTable → Except Fault (List LabelPtr × BlockTable)
  | [], s => .ok s
  | request b :: ops, (held, t) => do
      let (p, t) ← t.getBlockLabel b
      run ops (held ++ [p], t)
  | use k f :: ops, (held, t) => match held[k]? with
      | none => .error .undefined
      | some p => do run ops (held, ← t.update p f)

/-- A sequence that the table serves, from `size` elements, after `count` requests of which the first
`moved` were made before the elements moved: no request is for the element just past the end, and no
use is through a pointer from before a move. -/
def Safe : List LabelOp → Nat → Nat → Nat → Prop
  | [], _, _, _ => True
  | request b :: ops, size, count, moved => b ≠ size ∧
      if b > size then Safe ops (b + 1) (count + 1) count else Safe ops size (count + 1) moved
  | use k _ :: ops, size, count, moved => moved ≤ k ∧ k < count ∧ Safe ops size count moved

instance decidableSafe : (ops : List LabelOp) → (size count moved : Nat) →
    Decidable (Safe ops size count moved)
  | [], _, _, _ => .isTrue trivial
  | request b :: ops, size, count, moved =>
      have := decidableSafe ops (b + 1) (count + 1) count
      have := decidableSafe ops size (count + 1) moved
      inferInstanceAs (Decidable (b ≠ size ∧
        if b > size then Safe ops (b + 1) (count + 1) count else Safe ops size (count + 1) moved))
  | use k _ :: ops, size, count, moved =>
      have := decidableSafe ops size count moved
      inferInstanceAs (Decidable (moved ≤ k ∧ k < count ∧ Safe ops size count moved))

end LabelOp

/-- The pointers in hand and the table agree with labels that are their blocks' own. -/
structure TableAgrees (ids : List BlockId) (ls : BlockId → Label) (held : List LabelPtr)
    (t : BlockTable) : Prop where
  index : held.map LabelPtr.index = ids
  entry : ∀ b ∈ ids, ∃ e, t.info[b]? = some e ∧ e.id = b ∧ e.label = ls b

/-- At every point of a sequence nothing has been read or written outside the table or through a
dangling pointer, and the pointers and the table agree with the blocks' own labels. -/
def LabelsKept (ops : List LabelOp) : Prop :=
  ∀ pre, pre <+: ops → ∃ held t, LabelOp.run pre ([], {}) = .ok (held, t) ∧
    TableAgrees (LabelOp.requests pre) (LabelOp.labels pre [] fun _ => {}) held t

/-! ### The invariant -/

/-- What the table keeps: an element with its own position for its id has its block's label, the
elements of requested blocks have theirs, and a pointer is into the present storage if and only if
it was requested since the last move. -/
structure TableInv (ids : List BlockId) (ls : BlockId → Label) (held : List LabelPtr)
    (t : BlockTable) (moved : Nat) : Prop where
  index : held.map LabelPtr.index = ids
  requested : ∀ b ∈ ids, ∃ e, t.info[b]? = some e ∧ e.id = b
  label : ∀ b e, t.info[b]? = some e → e.id = b → e.label = ls b
  untouched : ∀ b, b ∉ ids → ls b = {}
  nonempty : 0 < t.info.length
  storage : ∀ k p, held[k]? = some p → p.storage ≤ t.storage ∧ (p.storage = t.storage ↔ moved ≤ k)
  moved_le : moved ≤ held.length

namespace TableInv

variable {ids : List BlockId} {ls : BlockId → Label} {held : List LabelPtr} {t : BlockTable}
  {moved : Nat} {b : BlockId}

theorem initial : TableInv [] (fun _ => {}) [] {} 0 where
  index := rfl
  requested _ h := nomatch h
  label b e h _ := by
    rcases b with _ | b
    · cases h
      rfl
    · cases h
  untouched _ _ := rfl
  nonempty := Nat.one_pos
  storage _ _ h := by cases h
  moved_le := le_rfl

theorem agrees (h : TableInv ids ls held t moved) : TableAgrees ids ls held t where
  index := h.index
  entry b hb := by
    obtain ⟨e, he, hid⟩ := h.requested b hb
    exact ⟨e, he, hid, h.label b e he hid⟩

/-- Growing moves the elements and adds elements without a block. -/
theorem grow (h : TableInv ids ls held t moved) (hb : t.info.length < b) :
    TableInv ids ls held (t.grow b) held.length := by
  have hgrow : t.grow b = { info := t.info ++ List.replicate (b + 1 - t.info.length) {}
                            storage := t.storage + 1 } := if_pos hb
  rw [hgrow]
  refine ⟨h.index, fun c hc => ?_, fun c e he hid => ?_, h.untouched, ?_, fun k p hp => ?_, le_rfl⟩
  · obtain ⟨e, he, hid⟩ := h.requested c hc
    exact ⟨e, by rw [List.getElem?_append_left (List.getElem?_eq_some_iff.mp he).1, he], hid⟩
  · rcases Nat.lt_or_ge c t.info.length with hlt | hge
    · rw [List.getElem?_append_left hlt] at he
      exact h.label c e he hid
    · -- an added element has id 0, and is not the first
      rw [List.getElem?_append_right hge, List.getElem?_replicate] at he
      split at he
      · cases he
        have hzero : 0 = c := hid
        have hpos := h.nonempty
        rw [← hzero] at hge
        exact absurd hge hpos.not_ge
      · cases he
  · rw [List.length_append]
    exact Nat.add_pos_left h.nonempty _
  · have hle := (h.storage k p hp).1
    have hk : k < held.length := (List.getElem?_eq_some_iff.mp hp).1
    exact ⟨hle.trans (Nat.le_succ _), iff_of_false (Nat.lt_succ_of_le hle).ne hk.not_ge⟩

/-- An element that gets its position for its id. -/
theorem requested_set (h : TableInv ids ls held t moved) (hb : b < t.info.length) {e : BlockInfo}
    (hid : e.id = b) {c : BlockId} (hc : c ∈ ids ∨ c = b) :
    ∃ x, (t.info.set b e)[c]? = some x ∧ x.id = c := by
  by_cases hcb : b = c
  · subst hcb
    exact ⟨e, List.getElem?_set_self hb, hid⟩
  · rw [List.getElem?_set_ne hcb]
    exact h.requested c (hc.resolve_right (Ne.symm hcb))

theorem label_set (h : TableInv ids ls held t moved) (hb : b < t.info.length) {e : BlockInfo}
    {c : BlockId} {x : BlockInfo} (hx : (t.info.set b e)[c]? = some x) (hid : x.id = c) :
    x.label = Function.update ls b e.label c := by
  by_cases hcb : b = c
  · subst hcb
    rw [List.getElem?_set_self hb] at hx
    cases hx
    rw [Function.update_self]
  · rw [List.getElem?_set_ne hcb] at hx
    rw [Function.update_of_ne (Ne.symm hcb), h.label c x hx hid]

/-- A request for an element that is there. -/
theorem request (h : TableInv ids ls held t moved) (hb : b < t.info.length) :
    ∃ p n, t.getBlockLabel b = .ok (p, n) ∧ n.info.length = t.info.length ∧
      TableInv (ids ++ [b]) ls (held ++ [p]) n moved := by
  have hgrow : t.grow b = t := if_neg hb.not_gt
  have he := List.getElem?_eq_getElem hb
  -- the element as it is, or a new one with its position for its id
  obtain ⟨e, heq, hid, hlabel⟩ : ∃ e, t.getBlockLabel b =
      .ok (⟨t.storage, b⟩, { t with info := t.info.set b e }) ∧ e.id = b ∧ e.label = ls b := by
    rw [BlockTable.getBlockLabel, hgrow]
    simp only [he]
    by_cases hid : t.info[b].id = b
    · refine ⟨t.info[b], ?_, hid, h.label b _ he hid⟩
      rw [if_neg (not_not_intro hid), List.set_getElem_self]
    · refine ⟨{ id := b }, by rw [if_pos hid], rfl, (h.untouched b fun hmem => ?_).symm⟩
      obtain ⟨x, hx, hxid⟩ := h.requested b hmem
      cases he.symm.trans hx
      exact hid hxid
  have hsame : Function.update ls b e.label = ls := by rw [hlabel, Function.update_eq_self]
  refine ⟨_, _, heq, List.length_set .., ?_, fun c hc => ?_, fun c x hx hxid => ?_, fun c hc => ?_,
    by simpa using h.nonempty, fun k p hp => ?_, ?_⟩
  · rw [List.map_append, h.index]
    rfl
  · exact h.requested_set hb hid (by simpa using hc)
  · rw [← hsame]
    exact h.label_set hb hx hxid
  · exact h.untouched c fun hmem => hc (List.mem_append_left _ hmem)
  · rcases Nat.lt_or_ge k held.length with hlt | hge
    · rw [List.getElem?_append_left hlt] at hp
      exact h.storage k p hp
    · rw [List.getElem?_append_right hge] at hp
      have hp' : p = ⟨t.storage, b⟩ := by
        rcases hk : k - held.length with _ | j
        · rw [hk] at hp
          exact (Option.some.inj hp).symm
        · simp [hk] at hp
      rw [hp']
      exact ⟨le_rfl, iff_of_true rfl (h.moved_le.trans hge)⟩
  · rw [List.length_append]
    exact h.moved_le.trans (Nat.le_add_right _ _)

/-- A use through a pointer from after the last move. -/
theorem use (h : TableInv ids ls held t moved) {k : Nat} {p : LabelPtr} (hp : held[k]? = some p)
    (hk : moved ≤ k) (f : Label → Label) :
    ids[k]? = some p.index ∧ ∃ n, t.update p f = .ok n ∧ n.info.length = t.info.length ∧
      TableInv ids (Function.update ls p.index (f (ls p.index))) held n moved := by
  have hids : ids[k]? = some p.index := by rw [← h.index, List.getElem?_map, hp, Option.map_some]
  have hmem : p.index ∈ ids := List.mem_of_getElem? hids
  obtain ⟨e, he, hid⟩ := h.requested p.index hmem
  have hb : p.index < t.info.length := (List.getElem?_eq_some_iff.mp he).1
  have hlabel := h.label p.index e he hid
  refine ⟨hids, { t with info := t.info.set p.index { e with label := f e.label } }, ?_,
    List.length_set .., h.index, fun c hc => ?_, fun c x hx hxid => ?_, fun c hc => ?_,
    by simpa using h.nonempty, h.storage, h.moved_le⟩
  · rw [BlockTable.update, if_pos ((h.storage k p hp).2.mpr hk), he]
  · have hid' : ({ e with label := f e.label } : BlockInfo).id = p.index := hid
    exact h.requested_set hb hid' (.inl hc)
  · rw [← hlabel]
    exact h.label_set hb hx hxid
  · have hne : c ≠ p.index := by
      rintro rfl
      exact hc hmem
    rw [Function.update_of_ne hne]
    exact h.untouched c hc

end TableInv

/-! ### Sequences -/

namespace LabelOp

variable {ids : List BlockId} {ls : BlockId → Label} {held : List LabelPtr} {t : BlockTable}
  {moved : Nat}

/-- **A sequence runs if and only if it is safe**, and then the table agrees with the blocks' own
labels. -/
theorem run_iff (ops : List LabelOp) (h : TableInv ids ls held t moved) :
    (Safe ops t.info.length held.length moved ↔ ∃ s, run ops (held, t) = .ok s) ∧
      ∀ s, run ops (held, t) = .ok s → TableAgrees (ids ++ requests ops) (labels ops ids ls) s.1 s.2 := by
  induction ops generalizing ids ls held t moved with
  | nil =>
      refine ⟨iff_of_true trivial ⟨_, rfl⟩, ?_⟩
      rintro s hs
      cases hs
      simpa [requests, labels] using h.agrees
  | cons op ops ih =>
      cases op with
      | request b =>
          rcases Nat.lt_trichotomy b t.info.length with hb | hb | hb
          · obtain ⟨p, n, heq, hlen, hn⟩ := h.request hb
            have hstep : run (request b :: ops) (held, t) = run ops (held ++ [p], n) := by
              rw [run, heq]
              rfl
            obtain ⟨hsafe, hagrees⟩ := ih hn
            rw [hstep, Safe, if_neg hb.not_gt]
            refine ⟨?_, fun s hs => ?_⟩
            · rw [← hsafe, hlen, List.length_append]
              exact and_iff_right hb.ne
            · simpa [requests, labels] using hagrees s hs
          · -- just past the end
            have herror : run (request b :: ops) (held, t) = .error .undefined := by
              have hnone : t.info[b]? = none := List.getElem?_eq_none hb.ge
              rw [run, BlockTable.getBlockLabel, show t.grow b = t from if_neg hb.not_gt]
              simp only [hnone]
              rfl
            rw [herror, Safe]
            refine ⟨iff_of_false (fun hs => hs.1 hb) ?_, ?_⟩
            · rintro ⟨s, hs⟩
              cases hs
            · rintro s hs
              cases hs
          · have hgrown := h.grow hb
            have hlength : (t.grow b).info.length = b + 1 := by
              rw [BlockTable.grow, if_pos hb]
              simp only [List.length_append, List.length_replicate]
              omega
            have hlt : b < (t.grow b).info.length := by rw [hlength]; exact Nat.lt_succ_self b
            obtain ⟨p, n, heq, hlen, hn⟩ := hgrown.request hlt
            have hsame : t.getBlockLabel b = (t.grow b).getBlockLabel b := by
              have hgrow : (t.grow b).grow b = t.grow b := if_neg hlt.not_gt
              rw [BlockTable.getBlockLabel, BlockTable.getBlockLabel, hgrow]
            have hstep : run (request b :: ops) (held, t) = run ops (held ++ [p], n) := by
              rw [run, hsame, heq]
              rfl
            obtain ⟨hsafe, hagrees⟩ := ih hn
            rw [hstep, Safe, if_pos hb]
            refine ⟨?_, fun s hs => ?_⟩
            · rw [← hsafe, hlen, hlength, List.length_append]
              exact and_iff_right hb.ne'
            · simpa [requests, labels] using hagrees s hs
      | use k f =>
          rw [Safe]
          cases hp : held[k]? with
          | none =>
              have hk : ¬ k < held.length := fun hlt => by simp [List.getElem?_eq_getElem hlt] at hp
              have herror : run (use k f :: ops) (held, t) = .error .undefined := by
                simp only [run, hp]
              rw [herror]
              refine ⟨iff_of_false (fun hs => hk hs.2.1) ?_, ?_⟩
              · rintro ⟨s, hs⟩
                cases hs
              · rintro s hs
                cases hs
          | some p =>
              have hk : k < held.length := (List.getElem?_eq_some_iff.mp hp).1
              by_cases hmoved : moved ≤ k
              · obtain ⟨hid, n, heq, hlen, hn⟩ := h.use hp hmoved f
                have hstep : run (use k f :: ops) (held, t) = run ops (held, n) := by
                  simp only [run, hp, heq]
                  rfl
                obtain ⟨hsafe, hagrees⟩ := ih hn
                rw [hstep, ← hsafe, hlen]
                refine ⟨by simp [hmoved, hk], fun s hs => ?_⟩
                simpa [requests, labels, hid] using hagrees s hs
              · -- the elements have moved since
                have herror : run (use k f :: ops) (held, t) = .error .undefined := by
                  have hstale : p.storage ≠ t.storage := fun hs =>
                    hmoved ((h.storage k p hp).2.mp hs)
                  simp only [run, hp, BlockTable.update, if_neg hstale]
                  rfl
                rw [herror]
                refine ⟨iff_of_false (fun hs => hmoved hs.1) ?_, ?_⟩
                · rintro ⟨s, hs⟩
                  cases hs
                · rintro s hs
                  cases hs

theorem Safe.prefix {pre rest : List LabelOp} {size count moved : Nat}
    (h : Safe (pre ++ rest) size count moved) : Safe pre size count moved := by
  induction pre generalizing size count moved with
  | nil => trivial
  | cons op pre ih =>
      cases op with
      | request b =>
          obtain ⟨hne, hrest⟩ := h
          refine ⟨hne, ?_⟩
          split at hrest
          · rename_i hb
            rw [if_pos hb]
            exact ih hrest
          · rename_i hb
            rw [if_neg hb]
            exact ih hrest
      | use k f => exact ⟨h.1, h.2.1, ih h.2.2⟩

end LabelOp

theorem LabelsKept.safe {ops : List LabelOp} (h : LabelsKept ops) : LabelOp.Safe ops 1 0 0 := by
  obtain ⟨held, t, hrun, -⟩ := h ops (List.prefix_refl ops)
  exact (LabelOp.run_iff ops TableInv.initial).1.mpr ⟨_, hrun⟩

/-- **Labels.**  Whatever labels are requested and used in whatever order, every access is inside
the table and every pointer stays the label of its block if and only if no request is for the
element just past the end of the table and no label is used that was requested before the table
last grew. -/
theorem labelsKept_iff (ops : List LabelOp) : LabelsKept ops ↔ LabelOp.Safe ops 1 0 0 := by
  constructor
  · intro h
    exact h.safe
  · rintro h pre ⟨rest, rfl⟩
    obtain ⟨hsafe, hagrees⟩ := LabelOp.run_iff pre TableInv.initial
    obtain ⟨s, hs⟩ := hsafe.mp h.prefix
    exact ⟨s.1, s.2, hs, hagrees s hs⟩

/-! ### The sequence of a compilation -/

namespace FlowGraphCompiler

/-- What `jmp`, `jnz` and `jne` do to their label. -/
def jumpLabel (a : Assembler) (op : Op) (l : Label) : Label := (a.jump op l).1

/-- What `Bind` does to its label. -/
def bindLabel (a : Assembler) (l : Label) : Label := ((a.bind l).map Prod.fst).getD l

/-- `iterate`, with the requests and uses it makes after `k` requests: a branch requests the labels
of its targets and of its join before it jumps, and holds them while it compiles its targets; a
jump requests its label anew. -/
def labelOps (g : Graph) :
    Nat → Option InstrId → Nat → FlowGraphCompiler → Option (List LabelOp × FlowGraphCompiler)
  | _, none, _, c => some ([], c)
  | 0, some _, _, _ => none
  | n + 1, some i, k, c => do
      let (ops, c) ← match ← g.instr? i with
        | .branch condition t f j => do
            let tbranch ← blockId g t
            let join ← blockId g j
            match f with
            | none =>
                let d := c.jump (branchOp condition) join
                let (ops₁, c₁) ← labelOps g n (some t) (k + 2) (← d.bind tbranch)
                let (ops₂, c₂) ← labelOps g n (some j) (k + 2 + (LabelOp.requests ops₁).length)
                  (← c₁.bind join)
                pure ([.request tbranch, .request join,
                    .use (k + 1) (jumpLabel c.assembler (branchOp condition)),
                    .use k (bindLabel d.assembler)] ++ ops₁ ++
                  [.use (k + 1) (bindLabel c₁.assembler)] ++ ops₂, c₂)
            | some f =>
                let fbranch ← blockId g f
                let d := c.jump (branchOp condition) fbranch
                let (ops₁, c₁) ← labelOps g n (some t) (k + 3) (← d.bind tbranch)
                let (ops₂, c₂) ← labelOps g n (some f) (k + 3 + (LabelOp.requests ops₁).length)
                  (← c₁.bind fbranch)
                let (ops₃, c₃) ← labelOps g n (some j)
                  (k + 3 + (LabelOp.requests ops₁).length + (LabelOp.requests ops₂).length)
                  (← c₂.bind join)
                pure ([.request tbranch, .request fbranch, .request join,
                    .use (k + 1) (jumpLabel c.assembler (branchOp condition)),
                    .use k (bindLabel d.assembler)] ++ ops₁ ++
                  [.use (k + 1) (bindLabel c₁.assembler)] ++ ops₂ ++
                  [.use (k + 2) (bindLabel c₂.assembler)] ++ ops₃, c₃)
        | .goto target => do
            let b ← blockId g target
            pure ([.request b, .use k (jumpLabel c.assembler .jump)], c.jump .jump b)
        | instr => (compileInstr g instr c).map fun c => ([], c)
      let (ops', c') ← labelOps g n (g.next i) (k + (LabelOp.requests ops).length) c
      return (ops ++ ops', c')

/-- Forgetting the first component of every result. -/
theorem map_snd_bind {α β γ δ : Type} {x : Option (α × β)} {y : Option β}
    {F : α × β → Option (γ × δ)} {G : β → Option δ} (hx : x.map Prod.snd = y)
    (hF : ∀ a b, (F (a, b)).map Prod.snd = G b) : (x.bind F).map Prod.snd = y.bind G := by
  subst hx
  rcases x with _ | ⟨a, b⟩
  · rfl
  · exact hF a b

theorem bind_map_snd {α γ δ : Type} {x : Option α} {F : α → Option (γ × δ)} {G : α → Option δ}
    (hF : ∀ a, (F a).map Prod.snd = G a) : (x.bind F).map Prod.snd = x.bind G := by
  rcases x with _ | a
  · rfl
  · exact hF a

/-- What the last walk returns is returned. -/
theorem map_snd_last {α β γ : Type} {x : Option (α × β)} {y : Option β} {F : α × β → Option (γ × β)}
    (hx : x.map Prod.snd = y) (hF : ∀ a b, (F (a, b)).map Prod.snd = some b) :
    (x.bind F).map Prod.snd = y :=
  (map_snd_bind hx hF).trans (Option.bind_fun_some y)

/-- Without its list, the walk is `iterate`. -/
theorem labelOps_iterate (g : Graph) (n : Nat) (i : Option InstrId) (k : Nat)
    (c : FlowGraphCompiler) : (labelOps g n i k c).map Prod.snd = iterate g n i c := by
  induction n generalizing i k c with
  | zero => cases i <;> rfl
  | succ n ih =>
      cases i with
      | none => rfl
      | some i =>
          rw [labelOps, iterate]
          refine bind_map_snd fun instr => ?_
          cases instr with
          | branch condition t f j =>
              cases f with
              | none =>
                  simp only [Option.bind_eq_bind, Option.pure_def, Option.bind_some]
                  exact bind_map_snd fun tbranch => bind_map_snd fun join => bind_map_snd fun d =>
                    map_snd_bind (ih _ _ d) fun ops₁ c₁ => bind_map_snd fun d =>
                      map_snd_bind (ih _ _ d) fun ops₂ c₂ => map_snd_last (ih _ _ c₂) fun _ _ => rfl
              | some f =>
                  simp only [Option.bind_eq_bind, Option.pure_def, Option.bind_some]
                  exact bind_map_snd fun tbranch => bind_map_snd fun join =>
                    bind_map_snd fun fbranch => bind_map_snd fun d =>
                      map_snd_bind (ih _ _ d) fun ops₁ c₁ => bind_map_snd fun d =>
                        map_snd_bind (ih _ _ d) fun ops₂ c₂ => bind_map_snd fun d =>
                          map_snd_bind (ih _ _ d) fun ops₃ c₃ =>
                            map_snd_last (ih _ _ c₃) fun _ _ => rfl
          | goto target =>
              simp only [Option.bind_eq_bind, Option.pure_def, Option.bind_some]
              change _ = ((blockId g target).map _).bind _
              rw [Option.bind_map]
              exact bind_map_snd fun b => map_snd_last (ih _ _ (c.jump .jump b)) fun _ _ => rfl
          | _ =>
              simp only [Option.bind_eq_bind, Option.pure_def, Option.bind_map]
              exact bind_map_snd fun d => map_snd_last (ih _ _ d) fun _ _ => rfl

end FlowGraphCompiler

namespace LabelOp

theorem requests_append (ops ops' : List LabelOp) :
    requests (ops ++ ops') = requests ops ++ requests ops' := by
  induction ops with
  | nil => rfl
  | cons op ops ih => cases op <;> simp [requests, ih]

theorem labels_append (ops ops' : List LabelOp) (held : List BlockId) (ls : BlockId → Label) :
    labels (ops ++ ops') held ls = labels ops' (held ++ requests ops) (labels ops held ls) := by
  induction ops generalizing held ls with
  | nil => simp [labels, requests]
  | cons op ops ih =>
      cases op with
      | request b => simp [labels, requests, ih]
      | use k f =>
          simp only [List.cons_append, labels, requests]
          cases held[k]? <;> exact ih _ _

theorem labels_use {k : Nat} {f : Label → Label} {held : List BlockId} {ls : BlockId → Label}
    {b : BlockId} (h : held[k]? = some b) :
    labels [use k f] held ls = Function.update ls b (f (ls b)) := by simp only [labels, h]

/-- A label that is in hand is used in its block's place. -/
theorem labels_use_append {k : Nat} {f : Label → Label} {held held' : List BlockId}
    {ls : BlockId → Label} {b : BlockId} (h : held[k]? = some b) :
    labels [use k f] (held ++ held') ls = Function.update ls b (f (ls b)) := by
  refine labels_use ?_
  rw [List.getElem?_append_left (List.getElem?_eq_some_iff.mp h).1, h]

end LabelOp

namespace FlowGraphCompiler

open LabelOp

theorem bind_labels {c d : FlowGraphCompiler} {b : BlockId} (h : c.bind b = some d) :
    d.labels = Function.update c.labels b (bindLabel c.assembler (c.labels b)) := by
  rw [bind] at h
  obtain ⟨⟨l, a⟩, hbind, hd⟩ := Option.bind_eq_some_iff.mp h
  cases hd
  rw [bindLabel, hbind]
  rfl

/-- Instructions other than jumps leave the labels alone. -/
theorem compileInstr_labels {g : Graph} {instr : Instr} {c d : FlowGraphCompiler}
    (hgoto : ∀ target, instr ≠ .goto target) (h : compileInstr g instr c = some d) :
    d.labels = c.labels := by
  cases instr with
  | goto target => exact absurd rfl (hgoto target)
  | branch condition t f j => cases h
  | invoke target n | invokeNative target n =>
      rw [compileInstr] at h
      split at h <;> cases h
      rfl
  | _ =>
      cases h
      rfl

/-- **The labels of a compilation are what its sequence makes of them.** -/
theorem labelOps_labels {g : Graph} {n k : Nat} {i : Option InstrId} {c c' : FlowGraphCompiler}
    {ops : List LabelOp} (h : labelOps g n i k c = some (ops, c')) (held : List BlockId)
    (hk : held.length = k) : LabelOp.labels ops held c.labels = c'.labels := by
  induction n generalizing i k c c' ops held with
  | zero =>
      cases i with
      | none =>
          cases h
          rfl
      | some i => cases h
  | succ n ih =>
      cases i with
      | none =>
          cases h
          rfl
      | some i =>
          rw [labelOps] at h
          obtain ⟨instr, -, h⟩ := Option.bind_eq_some_iff.mp h
          -- the rest of the chain, after the instruction
          have htail : ∀ {ops₁ : List LabelOp} {d : FlowGraphCompiler},
              ((labelOps g n (g.next i) (k + (requests ops₁).length) d).bind fun r =>
                some (ops₁ ++ r.1, r.2)) = some (ops, c') →
              LabelOp.labels ops₁ held c.labels = d.labels → LabelOp.labels ops held c.labels = c'.labels := by
            intro ops₁ d htail hlabels
            obtain ⟨⟨ops₂, e⟩, hrest, heq⟩ := Option.bind_eq_some_iff.mp htail
            cases heq
            rw [labels_append, hlabels]
            exact ih hrest _ (by rw [List.length_append, hk])
          cases instr with
          | branch condition t f j =>
              cases f with
              | none =>
                  simp only [Option.bind_eq_bind, Option.pure_def, Option.bind_some,
                    Option.bind_eq_some_iff] at h
                  obtain ⟨tbranch, -, join, -, d, hd, ⟨ops₁, c₁⟩, h₁, e, he, ⟨ops₂, c₂⟩, h₂, h⟩ := h
                  refine htail (Option.bind_eq_some_iff.mpr h) ?_
                  have ht : (held ++ [tbranch, join])[k]? = some tbranch := by simp [← hk]
                  have hj : (held ++ [tbranch, join])[k + 1]? = some join := by simp [← hk]
                  have hlen : (held ++ [tbranch, join]).length = k + 2 := by simp [hk]
                  rw [labels_append, labels_append, labels_append, requests_append, requests_append]
                  simp only [LabelOp.requests, List.append_nil]
                  have hhead : LabelOp.labels [.request tbranch, .request join,
                      .use (k + 1) (jumpLabel c.assembler (branchOp condition)),
                      .use k (bindLabel (c.jump (branchOp condition) join).assembler)] held c.labels
                      = d.labels := by
                    rw [bind_labels hd]
                    simp only [LabelOp.labels, List.append_assoc, List.singleton_append, ht, hj]
                    rfl
                  rw [hhead, ih h₁ _ hlen, ← List.append_assoc, labels_use_append hj, ← bind_labels he]
                  exact ih h₂ _ (by rw [List.length_append, hlen])
              | some f =>
                  simp only [Option.bind_eq_bind, Option.pure_def, Option.bind_some,
                    Option.bind_eq_some_iff] at h
                  obtain ⟨tbranch, -, join, -, fbranch, -, d, hd, ⟨ops₁, c₁⟩, h₁, e, he, ⟨ops₂, c₂⟩, h₂,
                    e', he', ⟨ops₃, c₃⟩, h₃, h⟩ := h
                  refine htail (Option.bind_eq_some_iff.mpr h) ?_
                  have ht : (held ++ [tbranch, fbranch, join])[k]? = some tbranch := by simp [← hk]
                  have hf : (held ++ [tbranch, fbranch, join])[k + 1]? = some fbranch := by simp [← hk]
                  have hj : (held ++ [tbranch, fbranch, join])[k + 2]? = some join := by simp [← hk]
                  have hlen : (held ++ [tbranch, fbranch, join]).length = k + 3 := by simp [hk]
                  rw [labels_append, labels_append, labels_append, labels_append, labels_append,
                    requests_append, requests_append, requests_append, requests_append]
                  simp only [LabelOp.requests, List.append_nil]
                  have hhead : LabelOp.labels [.request tbranch, .request fbranch, .request join,
                      .use (k + 1) (jumpLabel c.assembler (branchOp condition)),
                      .use k (bindLabel (c.jump (branchOp condition) fbranch).assembler)] held c.labels
                      = d.labels := by
                    rw [bind_labels hd]
                    simp only [LabelOp.labels, List.append_assoc, List.cons_append, List.nil_append, ht,
                      hf]
                    rfl
                  have hj' : (held ++ [tbranch, fbranch, join] ++ LabelOp.requests ops₁)[k + 2]? =
                      some join := by
                    rw [List.getElem?_append_left (List.getElem?_eq_some_iff.mp hj).1, hj]
                  rw [hhead, ih h₁ _ hlen]
                  simp only [← List.append_assoc]
                  rw [labels_use_append hf, ← bind_labels he, ih h₂ _ (by rw [List.length_append, hlen]),
                    labels_use_append hj', ← bind_labels he']
                  exact ih h₃ _ (by rw [List.length_append, List.length_append, hlen])
          | goto target =>
              simp only [Option.bind_eq_bind, Option.pure_def, Option.bind_some,
                Option.bind_eq_some_iff] at h
              obtain ⟨b, -, h⟩ := h
              refine htail (Option.bind_eq_some_iff.mpr h) ?_
              have hb : (held ++ [b])[k]? = some b := by simp [← hk]
              simp only [LabelOp.labels, hb]
              rfl
          | _ =>
              simp only [Option.bind_eq_bind, Option.pure_def, Option.bind_map,
                Option.bind_eq_some_iff] at h
              obtain ⟨d, hd, h⟩ := h
              exact @htail [] d h (compileInstr_labels (fun _ heq => by cases heq) hd).symm

end FlowGraphCompiler

namespace BlockInfo.Sample

/-- `(cond (x (cond (x 1) 2)) 0)`. -/
def nested : CoreExpr :=
  .cond (.param { name := "x" })
    (.cond (.param { name := "x" }) (.long 1) (.long 2))
    (.long 0)

/-- One parameter, in the first slot. -/
def names : Scopes where
  locals := [{ name := "x", index := 0 }]
  scopes := [{ parent := none, locals := [0] }]

/-- The sequence of the compilation of an expression. -/
def compiled (e : CoreExpr) : Option (List LabelOp × FlowGraphCompiler) :=
  (FlowGraphBuilder.visit {} .value e.toExpr {} { scope := 0, scopes := names }).bind fun r =>
    FlowGraphCompiler.labelOps r.2.graph 30 r.1.entry 0 {}

end BlockInfo.Sample

open BlockInfo.Sample in
/-- The inner branch makes the table grow while the outer one holds its labels. -/
theorem not_labelsKept_nested : ¬ ∀ (g : Graph) (n : Nat) (i : Option InstrId)
    (c c' : FlowGraphCompiler) (ops : List LabelOp),
    FlowGraphCompiler.labelOps g n i 0 c = some (ops, c') → LabelsKept ops := by
  intro h
  have hsafe : (compiled nested).map (fun r => decide (LabelOp.Safe r.1 1 0 0)) = some false := by
    decide +kernel
  rw [compiled] at hsafe
  obtain ⟨⟨ops, c'⟩, hr, hfalse⟩ := Option.map_eq_some_iff.mp hsafe
  obtain ⟨r, -, hops⟩ := Option.bind_eq_some_iff.mp hr
  exact of_decide_eq_false hfalse (h _ _ _ _ c' ops hops).safe

end Gel
