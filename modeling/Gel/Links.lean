import Gel.CodeBuffer
import Gel.Support.Faulting

/-!
# Links — pending operands threaded through the code buffer

The operands of the jumps to a label that is not bound form a list in the buffer itself: the label
leads to the last operand, and each operand to the one before.  `Bind` goes through the list and
patches it.

`Reaches` keeps, next to a buffer and its labels, the positions that have been linked to each label
since it was last bound.

* `linked_of_reaches`: the lists in the buffer are these positions, and the lists of different labels
  lie apart.
* `bind_patches`: `Bind` patches the positions of its label and touches nothing else.
-/

namespace Gel

/-- What is done to a buffer and its labels. -/
inductive AsmOp where
  /-- `Emit`, of values that take some bytes. -/
  | emit (bytes : List UInt8)
  | emitLabel (b : BlockId)
  | emitLabelLink (b : BlockId)
  | jump (op : Op) (b : BlockId)
  | bind (b : BlockId)
  deriving DecidableEq, Repr

namespace BufferedCompiler

def emit (d : BufferedCompiler) (bytes : List UInt8) : Except Fault BufferedCompiler :=
  (d.buffer.emit bytes).map fun buffer => { d with buffer }

/-- `EmitLabelLink`. -/
def emitLabelLink (d : BufferedCompiler) (b : BlockId) : Except Fault BufferedCompiler :=
  (d.buffer.emit (Words.encode (Words.ofInt (d.labels b).pos))).map fun buffer =>
    { d with buffer, labels := Function.update d.labels b (.linkTo d.buffer.current) }

/-- `EmitLabel`. -/
def emitLabel (d : BufferedCompiler) (b : BlockId) : Except Fault BufferedCompiler :=
  if (d.labels b).isBound then
    d.emit (Words.encode (Words.ofInt ((d.labels b).getPos - d.buffer.current)))
  else d.emitLabelLink b

end BufferedCompiler

namespace AsmOp

open BufferedCompiler

def run (d : BufferedCompiler) : AsmOp → Except Fault BufferedCompiler
  | emit bytes => d.emit bytes
  | emitLabel b => d.emitLabel b
  | emitLabelLink b => d.emitLabelLink b
  | jump op b => d.jump op b
  | bind b => d.bind b

/-- The positions that are linked to each label behind an operation, the last one first. -/
def links (d : BufferedCompiler) (pending : BlockId → List Nat) : AsmOp → BlockId → List Nat
  | emit _ => pending
  | emitLabel b =>
      if (d.labels b).isBound then pending
      else Function.update pending b (d.buffer.current :: pending b)
  | emitLabelLink b => Function.update pending b (d.buffer.current :: pending b)
  | jump _ b =>
      if (d.labels b).isBound then pending
      else Function.update pending b ((d.buffer.current + 1) :: pending b)
  | bind b => Function.update pending b []

end AsmOp

/-- A buffer of `cap` bytes with its labels, after any operations that stay inside it, and the
positions linked to each label. -/
inductive Reaches (cap : Nat) : BufferedCompiler → (BlockId → List Nat) → Prop where
  | start (objs : List Value) : Reaches cap (.start cap objs) fun _ => []
  | step {d d' : BufferedCompiler} {pending : BlockId → List Nat} {op : AsmOp}
      (h : Reaches cap d pending) (hrun : op.run d = .ok d') :
      Reaches cap d' (op.links d pending)

/-- A list of operands in a buffer: the word leads to the first of them, and each of them holds the
word that leads to the next. -/
def LinkChain (memory : List UInt8) : Int → List Nat → Prop
  | x, [] => x ≤ 0
  | x, p :: ps => x = (p : Int) + 8 ∧
      ∃ w, Words.loadWord memory p = some w ∧ LinkChain memory (Words.toInt w) ps

/-- Two words do not overlap. -/
def WordsApart (p q : Nat) : Prop := p + 8 ≤ q ∨ q + 8 ≤ p

/-- Every label leads to the positions linked to it, which lie inside the code and apart. -/
structure Linked (cap : Nat) (d : BufferedCompiler) (pending : BlockId → List Nat) : Prop where
  capacity : d.buffer.memory.length = cap
  current : d.buffer.current ≤ cap
  chain : ∀ b, LinkChain d.buffer.memory (d.labels b).pos (pending b)
  range : ∀ b, -2 ^ 63 ≤ (d.labels b).pos ∧ (d.labels b).pos < 2 ^ 63
  inside : ∀ b, ∀ p ∈ pending b, p + 8 ≤ d.buffer.current
  apart : ∀ b, (pending b).Pairwise WordsApart
  separate : ∀ b b', b ≠ b' → ∀ p ∈ pending b, ∀ q ∈ pending b', WordsApart p q

/-- `Bind` of a label did what it is for. -/
structure Patches (d d' : BufferedCompiler) (pending : BlockId → List Nat) (b : BlockId) :
    Prop where
  /-- The positions are the pending links of the label. -/
  links : LinkChain d.buffer.memory (d.labels b).pos (pending b)
  bound : (d'.labels b).isBound = true
  current : d'.buffer.current = d.buffer.current
  operands : ∀ p ∈ pending b,
    Words.loadWord d'.buffer.memory p = some (Words.ofInt (d.buffer.current + 1 - p))
  bytes : ∀ i, (∀ p ∈ pending b, i < p ∨ p + 8 ≤ i) →
    d'.buffer.memory[i]? = d.buffer.memory[i]?
  labels : ∀ b', b' ≠ b → d'.labels b' = d.labels b'
  chains : ∀ b', b' ≠ b → LinkChain d'.buffer.memory (d'.labels b').pos (pending b')

theorem WordsApart.symm {p q : Nat} (h : WordsApart p q) : WordsApart q p := Or.symm h

/-- A list of operands does not see the rest of the buffer. -/
theorem LinkChain.congr {memory memory' : List UInt8} {x : Int} {ps : List Nat}
    (h : LinkChain memory x ps)
    (hm : ∀ p ∈ ps, Words.loadWord memory' p = Words.loadWord memory p) :
    LinkChain memory' x ps := by
  induction ps generalizing x with
  | nil => exact h
  | cons p ps ih =>
      obtain ⟨hx, w, hw, hrest⟩ := h
      refine ⟨hx, w, (hm p List.mem_cons_self).trans hw, ?_⟩
      exact ih hrest fun q hq => hm q (List.mem_cons_of_mem p hq)

namespace AssemblerBuffer

variable {buffer buffer' : AssemblerBuffer} {bytes : List UInt8} {pos q : Nat}

theorem storeAt_word (hpos : pos + 8 ≤ buffer.memory.length) (w : UInt64) :
    buffer.storeAt pos (Words.encode w)
      = .ok { buffer with memory := Words.storeWord buffer.memory pos w } := by
  rw [storeAt, Words.length_encode, if_pos hpos, Words.storeWord, List.append_assoc]

/-- What an emission does: there was room, the cursor has moved, and nothing in front of it has
changed. -/
theorem emit_eq_ok (h : buffer.emit bytes = .ok buffer') :
    buffer.current + bytes.length ≤ buffer.memory.length ∧
      buffer'.current = buffer.current + bytes.length ∧
      buffer'.memory = buffer.memory.take buffer.current ++
        (bytes ++ buffer.memory.drop (buffer.current + bytes.length)) := by
  rw [emit, storeAt] at h
  by_cases hroom : buffer.current + bytes.length ≤ buffer.memory.length
  · rw [if_pos hroom] at h
    cases h
    exact ⟨hroom, rfl, rfl⟩
  · rw [if_neg hroom] at h
    cases h

theorem length_emit (h : buffer.emit bytes = .ok buffer') :
    buffer'.memory.length = buffer.memory.length := by
  obtain ⟨hroom, -, hmem⟩ := emit_eq_ok h
  rw [hmem, List.length_append, List.length_append, List.length_take, List.length_drop]
  omega

/-- A word in front of the cursor stays. -/
theorem loadWord_emit (h : buffer.emit bytes = .ok buffer') (hq : q + 8 ≤ buffer.current) :
    Words.loadWord buffer'.memory q = Words.loadWord buffer.memory q := by
  obtain ⟨hroom, -, hmem⟩ := emit_eq_ok h
  have hlen : (buffer.memory.take buffer.current).length = buffer.current := by
    rw [List.length_take]
    exact Nat.min_eq_left ((Nat.le_add_right _ _).trans hroom)
  have hfront : q + 8 ≤ (buffer.memory.take buffer.current).length := by rwa [hlen]
  have hold := Words.loadWord_append_left (buffer.memory.drop buffer.current) hfront
  rw [List.take_append_drop] at hold
  rw [hmem, Words.loadWord_append_left _ hfront, hold]

/-- A word that was emitted stands where the cursor was. -/
theorem loadWord_emit_self {w : UInt64} (h : buffer.emit (Words.encode w) = .ok buffer') :
    Words.loadWord buffer'.memory buffer.current = some w := by
  obtain ⟨hroom, -, hmem⟩ := emit_eq_ok h
  have hlen : (buffer.memory.take buffer.current).length = buffer.current := by
    rw [List.length_take]
    exact Nat.min_eq_left ((Nat.le_add_right _ _).trans hroom)
  have hload := Words.loadWord_append (buffer.memory.take buffer.current) w
    (buffer.memory.drop (buffer.current + (Words.encode w).length))
  rw [hlen] at hload
  rw [hmem]
  exact hload

end AssemblerBuffer

/-! ### The loop of `Bind` -/

section Patch

variable {memory : List UInt8} {bound : Int} {ps : List Nat} {q i : Nat}

/-- The operands at some positions, patched to lead to `bound`. -/
def patchAll (bound : Int) (ps : List Nat) (memory : List UInt8) : List UInt8 :=
  ps.foldl (fun memory p => Words.storeWord memory p (Words.ofInt (bound - p))) memory

theorem length_patchAll (h : ∀ p ∈ ps, p + 8 ≤ memory.length) :
    (patchAll bound ps memory).length = memory.length := by
  induction ps generalizing memory with
  | nil => rfl
  | cons p ps ih =>
      have hstore := Words.length_storeWord (Words.ofInt (bound - p)) (h p List.mem_cons_self)
      refine (ih fun q hq => ?_).trans hstore
      rw [hstore]
      exact h q (List.mem_cons_of_mem p hq)

/-- A byte outside the operands stays. -/
theorem getElem?_patchAll (h : ∀ p ∈ ps, p + 8 ≤ memory.length)
    (hi : ∀ p ∈ ps, i < p ∨ p + 8 ≤ i) : (patchAll bound ps memory)[i]? = memory[i]? := by
  induction ps generalizing memory with
  | nil => rfl
  | cons p ps ih =>
      have hp := h p List.mem_cons_self
      have hstore := Words.length_storeWord (Words.ofInt (bound - p)) hp
      refine (ih (fun q hq => ?_) fun q hq => hi q (List.mem_cons_of_mem p hq)).trans ?_
      · rw [hstore]
        exact h q (List.mem_cons_of_mem p hq)
      · exact Words.getElem?_storeWord _ hp (hi p List.mem_cons_self)

/-- A word apart from the operands stays. -/
theorem loadWord_patchAll_of_apart (h : ∀ p ∈ ps, p + 8 ≤ memory.length)
    (hq : ∀ p ∈ ps, WordsApart q p) :
    Words.loadWord (patchAll bound ps memory) q = Words.loadWord memory q := by
  induction ps generalizing memory with
  | nil => rfl
  | cons p ps ih =>
      have hp := h p List.mem_cons_self
      have hstore := Words.length_storeWord (Words.ofInt (bound - p)) hp
      refine (ih (fun r hr => ?_) fun r hr => hq r (List.mem_cons_of_mem p hr)).trans ?_
      · rw [hstore]
        exact h r (List.mem_cons_of_mem p hr)
      · exact Words.loadWord_storeWord_of_disjoint _ hp (hq p List.mem_cons_self)

/-- The operands lead to `bound`. -/
theorem loadWord_patchAll (h : ∀ p ∈ ps, p + 8 ≤ memory.length) (hps : ps.Pairwise WordsApart)
    (hq : q ∈ ps) :
    Words.loadWord (patchAll bound ps memory) q = some (Words.ofInt (bound - q)) := by
  induction ps generalizing memory with
  | nil => cases hq
  | cons p ps ih =>
      have hp := h p List.mem_cons_self
      have hstore := Words.length_storeWord (Words.ofInt (bound - p)) hp
      obtain ⟨hfirst, hrest⟩ := List.pairwise_cons.mp hps
      have hinside : ∀ r ∈ ps, r + 8 ≤
          (Words.storeWord memory p (Words.ofInt (bound - p))).length := by
        intro r hr
        rw [hstore]
        exact h r (List.mem_cons_of_mem p hr)
      rcases List.mem_cons.mp hq with rfl | hq
      · exact (loadWord_patchAll_of_apart hinside hfirst).trans (Words.loadWord_storeWord _ hp)
      · exact ih hinside hrest hq

/-- **The loop of `Bind`** goes through the list of the label, and patches it. -/
theorem patch_linkChain {buffer : AssemblerBuffer} {label : Label} {n : Nat}
    (hc : LinkChain buffer.memory label.pos ps) (hin : ∀ p ∈ ps, p + 8 ≤ buffer.memory.length)
    (hps : ps.Pairwise WordsApart) (hn : ps.length ≤ n) :
    BufferedCompiler.patch bound n buffer label
      = .ok { buffer with memory := patchAll bound ps buffer.memory } := by
  induction ps generalizing buffer label n with
  | nil =>
      have hl : label.isLinked = false := decide_eq_false (Int.not_lt.mpr hc)
      cases n <;> simp [BufferedCompiler.patch, hl, patchAll]
  | cons p ps ih =>
      obtain ⟨k, rfl⟩ := Nat.exists_eq_add_of_le' hn
      obtain ⟨hpos, w, hw, hrest⟩ := hc
      obtain ⟨hfirst, hapart⟩ := List.pairwise_cons.mp hps
      have hp := hin p List.mem_cons_self
      have hstore := Words.length_storeWord (Words.ofInt (bound - p)) hp
      have hl : label.isLinked = true := decide_eq_true (by omega)
      have hlink : label.getLinkPos.toNat = p := by
        rw [Label.getLinkPos]
        omega
      have hload : buffer.loadAt p = .ok w := by rw [AssemblerBuffer.loadAt, hw]
      -- the rest of the list lies apart from the operand that is patched
      have hchain : LinkChain (Words.storeWord buffer.memory p (Words.ofInt (bound - p)))
          (Words.toInt w) ps :=
        hrest.congr fun q hq =>
          Words.loadWord_storeWord_of_disjoint _ hp (hfirst q hq).symm
      have hinside : ∀ q ∈ ps,
          q + 8 ≤ (Words.storeWord buffer.memory p (Words.ofInt (bound - p))).length := by
        intro q hq
        rw [hstore]
        exact hin q (List.mem_cons_of_mem p hq)
      have hnext : BufferedCompiler.patch bound (k + ps.length)
          { buffer with memory := Words.storeWord buffer.memory p (Words.ofInt (bound - p)) }
          ⟨Words.toInt w⟩
          = .ok { buffer with memory := patchAll bound (p :: ps) buffer.memory } :=
        ih hchain hinside hapart (Nat.le_add_left _ _)
      rw [List.length_cons, ← Nat.add_assoc]
      simp only [BufferedCompiler.patch, hl, if_true, hlink, hload, Bind.bind, Except.bind,
        AssemblerBuffer.storeAt_word hp]
      exact hnext

end Patch

/-! ### The invariant -/

section Invariant

variable {cap : Nat} {d d' : BufferedCompiler} {pending : BlockId → List Nat} {b : BlockId}
  {bytes : List UInt8}

/-- The positions linked to a label are no more than the bytes in front of the cursor. -/
theorem Linked.length_le (h : Linked cap d pending) (b : BlockId) :
    (pending b).length ≤ d.buffer.current := by
  have hnodup : (pending b).Nodup := by
    refine (h.apart b).imp fun {p q} hpq => ?_
    rintro rfl
    have hlt : p < p + 8 := Nat.lt_add_of_pos_right (by decide)
    rcases hpq with hpq | hpq <;> exact absurd hpq hlt.not_ge
  have hsub : pending b ⊆ List.range d.buffer.current := fun p hp =>
    List.mem_range.mpr ((Nat.lt_add_of_pos_right (by decide)).trans_le (h.inside b p hp))
  exact (hnodup.subperm hsub).length_le.trans_eq List.length_range

theorem linked_start (cap : Nat) (objs : List Value) :
    Linked cap (.start cap objs) fun _ => [] where
  capacity := List.length_replicate
  current := Nat.zero_le _
  chain _ := le_refl 0
  range _ := by
    change -2 ^ 63 ≤ (0 : Int) ∧ (0 : Int) < 2 ^ 63
    decide
  inside _ _ h := (List.not_mem_nil h).elim
  apart _ := .nil
  separate _ _ _ _ h := (List.not_mem_nil h).elim

theorem emit_eq_ok (hrun : d.emit bytes = .ok d') :
    d.buffer.emit bytes = .ok d'.buffer ∧ d'.labels = d.labels := by
  rw [BufferedCompiler.emit] at hrun
  cases hb : d.buffer.emit bytes with
  | error e =>
      rw [hb] at hrun
      cases hrun
  | ok buffer =>
      rw [hb] at hrun
      cases hrun
      exact ⟨rfl, rfl⟩

theorem emitLabelLink_eq_ok (hrun : d.emitLabelLink b = .ok d') :
    d.buffer.emit (Words.encode (Words.ofInt (d.labels b).pos)) = .ok d'.buffer ∧
      d'.labels = Function.update d.labels b (.linkTo d.buffer.current) := by
  rw [BufferedCompiler.emitLabelLink] at hrun
  cases hb : d.buffer.emit (Words.encode (Words.ofInt (d.labels b).pos)) with
  | error e =>
      rw [hb] at hrun
      cases hrun
  | ok buffer =>
      rw [hb] at hrun
      cases hrun
      exact ⟨rfl, rfl⟩

/-- **`Emit`** leaves every list as it is. -/
theorem Linked.emit (h : Linked cap d pending) (hrun : d.emit bytes = .ok d') :
    Linked cap d' pending := by
  obtain ⟨hb, hlabels⟩ := emit_eq_ok hrun
  obtain ⟨hroom, hcur, -⟩ := AssemblerBuffer.emit_eq_ok hb
  refine ⟨(AssemblerBuffer.length_emit hb).trans h.capacity, ?_, fun b => ?_, fun b => ?_,
    fun b p hp => ?_, h.apart, h.separate⟩
  · rw [hcur, ← h.capacity]
    exact hroom
  · rw [hlabels]
    exact (h.chain b).congr fun p hp => AssemblerBuffer.loadWord_emit hb (h.inside b p hp)
  · rw [hlabels]
    exact h.range b
  · rw [hcur]
    exact (h.inside b p hp).trans (Nat.le_add_right _ _)

/-- **`EmitLabelLink`** puts the position of the operand in front of the label's list. -/
theorem Linked.emitLabelLink (hcap : cap + 9 ≤ 2 ^ 63) (h : Linked cap d pending)
    (hrun : d.emitLabelLink b = .ok d') :
    Linked cap d' (Function.update pending b (d.buffer.current :: pending b)) := by
  obtain ⟨hb, hlabels⟩ := emitLabelLink_eq_ok hrun
  obtain ⟨hroom, hcur, -⟩ := AssemblerBuffer.emit_eq_ok hb
  rw [Words.length_encode] at hroom hcur
  have hold : ∀ b', LinkChain d'.buffer.memory (d.labels b').pos (pending b') := fun b' =>
    (h.chain b').congr fun p hp => AssemblerBuffer.loadWord_emit hb (h.inside b' p hp)
  have hbehind : ∀ b' p, p ∈ pending b' → WordsApart d.buffer.current p := fun b' p hp =>
    .inr (h.inside b' p hp)
  refine ⟨(AssemblerBuffer.length_emit hb).trans h.capacity, ?_, fun b' => ?_, fun b' => ?_,
    fun b' => ?_, fun b' => ?_, fun b₁ b₂ hne => ?_⟩
  · rw [hcur, ← h.capacity]
    exact hroom
  · by_cases hb' : b' = b
    · subst hb'
      rw [hlabels, Function.update_self, Function.update_self]
      refine ⟨rfl, _, AssemblerBuffer.loadWord_emit_self hb, ?_⟩
      rw [Words.toInt_ofInt (h.range b').1 (h.range b').2]
      exact hold b'
    · rw [hlabels, Function.update_of_ne hb', Function.update_of_ne hb']
      exact hold b'
  · by_cases hb' : b' = b
    · subst hb'
      have hle := h.current
      rw [hlabels, Function.update_self, Label.linkTo]
      dsimp only
      omega
    · rw [hlabels, Function.update_of_ne hb']
      exact h.range b'
  · by_cases hb' : b' = b
    · subst hb'
      rw [Function.update_self, hcur]
      intro p hp
      rcases List.mem_cons.mp hp with rfl | hp
      · exact Nat.le_refl _
      · exact (h.inside b' p hp).trans (Nat.le_add_right _ _)
    · rw [Function.update_of_ne hb', hcur]
      exact fun p hp => (h.inside b' p hp).trans (Nat.le_add_right _ _)
  · by_cases hb' : b' = b
    · subst hb'
      rw [Function.update_self]
      exact List.pairwise_cons.mpr ⟨hbehind b', h.apart b'⟩
    · rw [Function.update_of_ne hb']
      exact h.apart b'
  · intro p hp q hq
    by_cases h₁ : b₁ = b
    · subst h₁
      rw [Function.update_self] at hp
      rw [Function.update_of_ne (Ne.symm hne)] at hq
      rcases List.mem_cons.mp hp with rfl | hp
      · exact hbehind b₂ q hq
      · exact h.separate b₁ b₂ hne p hp q hq
    · rw [Function.update_of_ne h₁] at hp
      by_cases h₂ : b₂ = b
      · subst h₂
        rw [Function.update_self] at hq
        rcases List.mem_cons.mp hq with rfl | hq
        · exact (hbehind b₁ p hp).symm
        · exact h.separate b₁ b₂ hne p hp q hq
      · rw [Function.update_of_ne h₂] at hq
        exact h.separate b₁ b₂ hne p hp q hq

/-- **`Bind`** patches the list of its label, which ends, and nothing else. -/
theorem Linked.patches (h : Linked cap d pending) (b : BlockId) :
    ∃ d', d.bind b = .ok d' ∧ Patches d d' pending b ∧
      d'.buffer.memory.length = d.buffer.memory.length ∧
      d'.labels = Function.update d.labels b (.bindTo (d.buffer.current + 1)) := by
  have hin : ∀ b', ∀ p ∈ pending b', p + 8 ≤ d.buffer.memory.length := fun b' p hp =>
    (h.inside b' p hp).trans (h.current.trans_eq h.capacity.symm)
  have hpatch : BufferedCompiler.patch (d.buffer.current + 1) d.buffer.current d.buffer (d.labels b)
      = .ok { d.buffer with
          memory := patchAll (d.buffer.current + 1) (pending b) d.buffer.memory } :=
    patch_linkChain (h.chain b) (hin b) (h.apart b) (h.length_le b)
  have hbound : (Label.bindTo (d.buffer.current + 1)).isBound = true :=
    decide_eq_true (by rw [Label.bindTo]; dsimp only; omega)
  refine ⟨{ d with
      buffer := { d.buffer with
        memory := patchAll (d.buffer.current + 1) (pending b) d.buffer.memory }
      labels := Function.update d.labels b (.bindTo (d.buffer.current + 1)) },
    ?_, ⟨h.chain b, ?_, rfl, ?_, ?_, ?_, ?_⟩, length_patchAll (hin b), rfl⟩
  · simp only [BufferedCompiler.bind, hpatch, Bind.bind, Except.bind, Pure.pure, Except.pure]
  · dsimp only
    rw [Function.update_self]
    exact hbound
  · exact fun p hp => loadWord_patchAll (hin b) (h.apart b) hp
  · exact fun i hi => getElem?_patchAll (hin b) hi
  · exact fun b' hb' => Function.update_of_ne hb' _ _
  · intro b' hb'
    dsimp only
    rw [Function.update_of_ne hb']
    refine (h.chain b').congr fun q hq => ?_
    exact loadWord_patchAll_of_apart (hin b) fun p hp => h.separate b' b hb' q hq p hp

/-- `Bind` keeps the lists of the other labels, and its own is empty. -/
theorem Linked.bind (hcap : cap + 9 ≤ 2 ^ 63) (h : Linked cap d pending)
    (hrun : d.bind b = .ok d') : Linked cap d' (Function.update pending b []) := by
  obtain ⟨d'', hd'', hp, hlen, hlabels⟩ := h.patches b
  rw [hrun] at hd''
  cases hd''
  have hself : d'.labels b = .bindTo (d.buffer.current + 1) := by
    rw [hlabels]
    exact Function.update_self ..
  have hcur := h.current
  refine ⟨hlen.trans h.capacity, hp.current.trans_le hcur, fun b' => ?_, fun b' => ?_,
    fun b' => ?_, fun b' => ?_, fun b₁ b₂ hne => ?_⟩
  · by_cases hb' : b' = b
    · subst hb'
      rw [Function.update_self, hself]
      change -((d.buffer.current : Int) + 1) - 8 ≤ 0
      omega
    · rw [Function.update_of_ne hb']
      exact hp.chains b' hb'
  · by_cases hb' : b' = b
    · subst hb'
      rw [hself, Label.bindTo]
      dsimp only
      omega
    · rw [hp.labels b' hb']
      exact h.range b'
  · by_cases hb' : b' = b
    · subst hb'
      rw [Function.update_self]
      exact fun p hp => (List.not_mem_nil hp).elim
    · rw [Function.update_of_ne hb', hp.current]
      exact h.inside b'
  · by_cases hb' : b' = b
    · subst hb'
      rw [Function.update_self]
      exact .nil
    · rw [Function.update_of_ne hb']
      exact h.apart b'
  · intro p hp q hq
    by_cases h₁ : b₁ = b
    · subst h₁
      rw [Function.update_self] at hp
      exact (List.not_mem_nil hp).elim
    · by_cases h₂ : b₂ = b
      · subst h₂
        rw [Function.update_self] at hq
        exact (List.not_mem_nil hq).elim
      · rw [Function.update_of_ne h₁] at hp
        rw [Function.update_of_ne h₂] at hq
        exact h.separate b₁ b₂ hne p hp q hq

/-- `EmitLabel` leaves the lists as they are, or links one more operand. -/
theorem Linked.emitLabel (hcap : cap + 9 ≤ 2 ^ 63) (h : Linked cap d pending)
    (hrun : d.emitLabel b = .ok d') :
    Linked cap d' ((AsmOp.emitLabel b).links d pending) := by
  rw [BufferedCompiler.emitLabel] at hrun
  rw [AsmOp.links]
  by_cases hbound : (d.labels b).isBound
  · rw [if_pos hbound] at hrun ⊢
    exact h.emit hrun
  · rw [if_neg hbound] at hrun ⊢
    exact h.emitLabelLink hcap hrun

/-- `Jump` emits its operation, and then the label. -/
theorem jump_eq_ok {op : Op} (hrun : d.jump op b = .ok d') :
    ∃ d₁, d.emit [op.raw] = .ok d₁ ∧ d₁.buffer.current = d.buffer.current + 1 ∧
      if (d.labels b).isBound then
        d₁.emit (Words.encode (Words.ofInt ((d.labels b).getPos - d.buffer.current))) = .ok d'
      else d₁.emitLabelLink b = .ok d' := by
  rw [BufferedCompiler.jump] at hrun
  obtain ⟨buffer, hbuffer, hrun⟩ := Faulting.result_bind_eq_ok.mp hrun
  have hd₁ : d.emit [op.raw] = .ok { d with buffer } := by
    rw [BufferedCompiler.emit, hbuffer]
    rfl
  refine ⟨_, hd₁, (AssemblerBuffer.emit_eq_ok hbuffer).2.1, ?_⟩
  by_cases hbound : (d.labels b).isBound
  · rw [if_pos hbound] at hrun ⊢
    obtain ⟨buffer', hbuffer', hd'⟩ := Faulting.result_bind_eq_ok.mp hrun
    rw [BufferedCompiler.emit, hbuffer']
    exact hd'
  · rw [if_neg hbound] at hrun ⊢
    obtain ⟨buffer', hbuffer', hd'⟩ := Faulting.result_bind_eq_ok.mp hrun
    rw [BufferedCompiler.emitLabelLink, hbuffer']
    exact hd'

theorem Linked.jump {op : Op} (hcap : cap + 9 ≤ 2 ^ 63) (h : Linked cap d pending)
    (hrun : d.jump op b = .ok d') : Linked cap d' ((AsmOp.jump op b).links d pending) := by
  obtain ⟨d₁, hop, hcur, hrun⟩ := jump_eq_ok hrun
  have h₁ := h.emit hop
  rw [AsmOp.links]
  by_cases hbound : (d.labels b).isBound
  · rw [if_pos hbound] at hrun ⊢
    exact h₁.emit hrun
  · rw [if_neg hbound] at hrun ⊢
    rw [← hcur]
    exact h₁.emitLabelLink hcap hrun

/-- **One operation** keeps the invariant. -/
theorem Linked.step {op : AsmOp} (hcap : cap + 9 ≤ 2 ^ 63) (h : Linked cap d pending)
    (hrun : op.run d = .ok d') : Linked cap d' (op.links d pending) := by
  cases op with
  | emit bytes => exact h.emit hrun
  | emitLabel b => exact h.emitLabel hcap hrun
  | emitLabelLink b => exact h.emitLabelLink hcap hrun
  | jump op b => exact h.jump hcap hrun
  | bind b => exact h.bind hcap hrun

/-- **Any operations**: the lists in the buffer are the positions that have been linked. -/
theorem linked_of_reaches (hcap : cap + 9 ≤ 2 ^ 63) (h : Reaches cap d pending) :
    Linked cap d pending := by
  induction h with
  | start objs => exact linked_start cap objs
  | step _ hrun ih => exact ih.step hcap hrun

end Invariant

/-- **Back-patching touches only its own links.**  After any operations on an assembler's buffer,
`Bind` ends; it patches the positions that are linked to its label, changes no other byte, leaves
the lists of the other labels as they are, and binds the label. -/
theorem bind_patches {d : BufferedCompiler} {pending : BlockId → List Nat}
    (h : Reaches AssemblerBuffer.defaultInitSize d pending) (b : BlockId) :
    ∃ d', d.bind b = .ok d' ∧ Patches d d' pending b := by
  have hcap : AssemblerBuffer.defaultInitSize + 9 ≤ 2 ^ 63 := by decide
  obtain ⟨d', hrun, hp, -⟩ := (linked_of_reaches hcap h).patches b
  exact ⟨d', hrun, hp⟩

open BufferedCompiler in
/-- Three jumps: the operands of the first and the last lead to one label. -/
theorem bind_patches_sample : ∃ d pending d',
    Reaches AssemblerBuffer.defaultInitSize d pending ∧ pending 0 = [19, 1] ∧ pending 1 = [10] ∧
      d.bind 0 = .ok d' ∧ Patches d d' pending 0 := by
  have h₀ := backs_start AssemblerBuffer.defaultInitSize []
  obtain ⟨d₁, hrun₁, h₁⟩ := h₀.jump .jz 0 (by decide)
  obtain ⟨d₂, hrun₂, h₂⟩ := h₁.jump .jump 1 (by decide)
  obtain ⟨d₃, hrun₃, -⟩ := h₂.jump .jump 0 (by decide)
  have hstart : Reaches AssemblerBuffer.defaultInitSize (.start _ []) fun _ => [] := .start []
  have hreaches : Reaches AssemblerBuffer.defaultInitSize d₃
      ((AsmOp.jump .jump 0).links d₂ ((AsmOp.jump .jump 1).links d₁
        ((AsmOp.jump .jz 0).links (.start AssemblerBuffer.defaultInitSize []) fun _ => []))) :=
    .step (.step (.step hstart hrun₁) hrun₂) hrun₃
  obtain ⟨d', hbind, hp⟩ := bind_patches hreaches 0
  have hcur₁ : d₁.buffer.current = 9 := h₁.buffer.current
  have hcur₂ : d₂.buffer.current = 18 := h₂.buffer.current
  have hfree₀ : ((start AssemblerBuffer.defaultInitSize []).labels 0).isBound = false := rfl
  have hcur₀ : (start AssemblerBuffer.defaultInitSize []).buffer.current = 0 := rfl
  have hfree₁ : (d₁.labels 1).isBound = false := by
    rw [h₁.labels]
    rfl
  have hfree₂ : (d₂.labels 0).isBound = false := by
    rw [h₂.labels]
    rfl
  refine ⟨d₃, _, d', hreaches, ?_, ?_, hbind, hp⟩
  · simp [AsmOp.links, hfree₀, hfree₁, hfree₂, hcur₀, hcur₁, hcur₂]
  · simp [AsmOp.links, hfree₀, hfree₁, hfree₂, hcur₀, hcur₁, hcur₂]

end Gel
