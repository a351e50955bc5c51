import Gel.Correctness
import Gel.Runtime

/-!
# CodeBuffer — the memory the code is assembled in

`AssemblerBuffer` has a fixed number of bytes and a cursor, and nothing in a release build keeps
the cursor inside.  Here the buffer is that memory: a write outside it is the fault `undefined`.
`BufferedCompiler` does the items of a flow graph (`Emission`) on it, as `FlowGraphCompiler` does
them on a buffer that is as long as the code.

* `BufferedCompiler.runItems_holds`, `BufferedCompiler.runItems_full`: the items are done, and the
  memory starts with the code, exactly when the code fits.
* `codeFits_iff`: `CompileTarget` stays inside the buffer exactly when the instructions of the flow
  graph take at most 4096 bytes.
-/

namespace Gel

/-- `AssemblerBuffer`: the allocated memory, and how far the cursor is from its start. -/
structure AssemblerBuffer where
  memory : List UInt8
  current : Nat := 0

namespace AssemblerBuffer

/-- `kDefaultInitSize`. -/
def defaultInitSize : Nat := 4096

/-- The constructor: a fresh memory region. -/
def new (initSize : Nat) : AssemblerBuffer := { memory := List.replicate initSize 0 }

/-- `StoreAt`.  Its bounds are an assertion, which a release build does not have. -/
def storeAt (b : AssemblerBuffer) (pos : Nat) (bytes : List UInt8) : Except Fault AssemblerBuffer :=
  if pos + bytes.length ≤ b.memory.length then
    .ok { b with memory := b.memory.take pos ++ (bytes ++ b.memory.drop (pos + bytes.length)) }
  else .error .undefined

/-- `LoadAt`, of a word. -/
def loadAt (b : AssemblerBuffer) (pos : Nat) : Except Fault UInt64 :=
  match Words.loadWord b.memory pos with
  | some w => .ok w
  | none => .error .undefined

/-- `Emit`: a store at the cursor, which then moves behind it. -/
def emit (b : AssemblerBuffer) (bytes : List UInt8) : Except Fault AssemblerBuffer :=
  (b.storeAt b.current bytes).map fun b => { b with current := b.current + bytes.length }

/-- `Assemble`: as many bytes from the start as the cursor has passed. -/
def assemble (b : AssemblerBuffer) : List UInt8 := b.memory.take b.current

/-- The memory of `cap` bytes starts with `bs`, and the cursor is behind them. -/
structure Holds (cap : Nat) (b : AssemblerBuffer) (bs : List UInt8) : Prop where
  current : b.current = bs.length
  content : ∃ rest, b.memory = bs ++ rest
  capacity : b.memory.length = cap

variable {cap pos : Nat} {b : AssemblerBuffer} {bs xs : List UInt8} {w : UInt64}

theorem holds_new (cap : Nat) : Holds cap (new cap) [] where
  current := rfl
  content := ⟨_, rfl⟩
  capacity := List.length_replicate

theorem Holds.length_le (h : Holds cap b bs) : bs.length ≤ cap := by
  obtain ⟨rest, hrest⟩ := h.content
  rw [← h.capacity, hrest, List.length_append]
  exact Nat.le_add_right _ _

theorem Holds.assemble (h : Holds cap b bs) : b.assemble = bs := by
  obtain ⟨rest, hrest⟩ := h.content
  rw [AssemblerBuffer.assemble, hrest, h.current, List.take_left]

/-- An emission with room for it. -/
theorem Holds.emit (h : Holds cap b bs) (hroom : bs.length + xs.length ≤ cap) :
    ∃ b', b.emit xs = .ok b' ∧ Holds cap b' (bs ++ xs) := by
  obtain ⟨rest, hrest⟩ := h.content
  have hfit : b.current + xs.length ≤ b.memory.length := by rwa [h.current, h.capacity]
  refine ⟨_, by rw [AssemblerBuffer.emit, storeAt, if_pos hfit]; rfl, ?_, ⟨?_, ?_⟩, ?_⟩
  · simp [h.current]
  · exact rest.drop xs.length
  · simp [hrest, h.current]
  · rw [← h.capacity] at hroom ⊢
    simp only [List.length_append, List.length_take, List.length_drop, h.current]
    omega

/-- An emission without room for it. -/
theorem Holds.emit_full (h : Holds cap b bs) (hfull : cap < bs.length + xs.length) :
    b.emit xs = .error .undefined := by
  have hout : ¬ b.current + xs.length ≤ b.memory.length := by
    rw [h.current, h.capacity]
    exact hfull.not_ge
  rw [AssemblerBuffer.emit, storeAt, if_neg hout]
  rfl

theorem le_of_loadWord (hw : Words.loadWord bs pos = some w) : pos + 8 ≤ bs.length := by
  by_contra hout
  rw [Words.loadWord, if_neg hout] at hw
  cases hw

/-- A word of what has been emitted reads as it is. -/
theorem Holds.loadAt (h : Holds cap b bs) (hw : Words.loadWord bs pos = some w) :
    b.loadAt pos = .ok w := by
  obtain ⟨rest, hrest⟩ := h.content
  rw [AssemblerBuffer.loadAt, hrest, Words.loadWord_append_left rest (le_of_loadWord hw), hw]

/-- Patching a word of what has been emitted. -/
theorem Holds.storeAt (h : Holds cap b bs) (hpos : pos + 8 ≤ bs.length) (w : UInt64) :
    ∃ b', b.storeAt pos (Words.encode w) = .ok b' ∧ Holds cap b' (Words.storeWord bs pos w) := by
  obtain ⟨rest, hrest⟩ := h.content
  have hlen : (Words.encode w).length = 8 := Words.length_encode w
  have hle := h.length_le
  have hfit : pos + (Words.encode w).length ≤ b.memory.length := by
    rw [hlen, h.capacity]
    exact hpos.trans hle
  have hstore := Words.length_storeWord w hpos
  refine ⟨_, by rw [AssemblerBuffer.storeAt, if_pos hfit], ?_, ⟨rest, ?_⟩, ?_⟩
  · rw [hstore]
    exact h.current
  · simp only [hrest, hlen, Words.storeWord]
    rw [List.take_append_of_le_length (by omega), List.drop_append_of_le_length hpos]
    simp
  · rw [← h.capacity] at hle ⊢
    simp only [List.length_append, List.length_take, List.length_drop, hlen]
    omega

end AssemblerBuffer

open FlowGraphBuilder FlowGraphCompiler Layout

/-- A `FlowGraphCompiler` whose assembler has a buffer of a fixed size. -/
structure BufferedCompiler where
  buffer : AssemblerBuffer
  objects : List Value
  labels : BlockId → Label := fun _ => {}

namespace BufferedCompiler

/-- The assembler's methods that emit an operation and its operands. -/
def code (d : BufferedCompiler) (bc : Bytecode) : Except Fault BufferedCompiler :=
  (d.buffer.emit (bc.bytes d.objects.length)).map fun buffer =>
    { d with buffer, objects := d.objects ++ bc.refs }

/-- `Jump`, and `EmitLabelLink`. -/
def jump (d : BufferedCompiler) (op : Op) (b : BlockId) : Except Fault BufferedCompiler := do
  let label := d.labels b
  let buffer ← d.buffer.emit [op.raw]
  if label.isBound then
    let offset := Words.ofInt (label.getPos - d.buffer.current)
    return { d with buffer := ← buffer.emit (Words.encode offset) }
  else
    return { d with
      buffer := ← buffer.emit (Words.encode (Words.ofInt label.pos))
      labels := Function.update d.labels b (.linkTo buffer.current) }

/-- The loop of `Bind`, over at most `n` operands. -/
def patch (bound : Int) : Nat → AssemblerBuffer → Label → Except Fault AssemblerBuffer
  | 0, buffer, label => if label.isLinked then .error .timeout else .ok buffer
  | n + 1, buffer, label =>
      if label.isLinked then do
        let pos := label.getLinkPos.toNat
        let next ← buffer.loadAt pos
        let buffer ← buffer.storeAt pos (Words.encode (Words.ofInt (bound - pos)))
        patch bound n buffer ⟨Words.toInt next⟩
      else .ok buffer

/-- `Bind`. -/
def bind (d : BufferedCompiler) (b : BlockId) : Except Fault BufferedCompiler := do
  let bound : Int := d.buffer.current + 1
  let buffer ← patch bound d.buffer.current d.buffer (d.labels b)
  return { d with buffer, labels := Function.update d.labels b (.bindTo bound) }

/-- Do one item. -/
def runItem (d : BufferedCompiler) : Item → Except Fault BufferedCompiler
  | .visit _ => .ok d
  | .code bc => d.code bc
  | .jump op b => d.jump op b
  | .bind b => d.bind b

/-- Do items in order. -/
def runItems (is : List Item) (d : BufferedCompiler) : Except Fault BufferedCompiler :=
  is.foldlM runItem d

/-- A buffer of `initSize` bytes, and a table of objects. -/
def start (initSize : Nat) (objs : List Value) : BufferedCompiler :=
  { buffer := .new initSize, objects := objs }

/-- The compiler with the buffer of a fixed size holds what the other one holds. -/
structure Backs (cap : Nat) (d : BufferedCompiler) (c : FlowGraphCompiler) : Prop where
  buffer : d.buffer.Holds cap c.assembler.buffer
  objects : d.objects = c.assembler.objects
  labels : d.labels = c.labels

variable {cap : Nat} {d : BufferedCompiler} {c c' : FlowGraphCompiler} {objs : List Value}
  {is : List Item}

theorem backs_start (cap : Nat) (objs : List Value) : Backs cap (start cap objs) (Layout.start objs)
    where
  buffer := AssemblerBuffer.holds_new cap
  objects := rfl
  labels := rfl

/-! ### One item -/

theorem Backs.code (h : Backs cap d c) (bc : Bytecode)
    (hroom : c.assembler.buffer.length + bc.size ≤ cap) :
    ∃ d', d.code bc = .ok d' ∧ Backs cap d' (c.emit bc.emit) := by
  have hlen := Bytecode.length_bytes bc d.objects.length
  obtain ⟨buffer, hemit, hholds⟩ := h.buffer.emit (hlen ▸ hroom)
  refine ⟨{ d with buffer, objects := d.objects ++ bc.refs }, ?_, ?_, ?_, h.labels⟩
  · rw [BufferedCompiler.code, hemit]
    rfl
  · simpa only [FlowGraphCompiler.emit, Bytecode.emit_eq, h.objects] using hholds
  · simp only [FlowGraphCompiler.emit, Bytecode.emit_eq, h.objects]

theorem Backs.jump (h : Backs cap d c) (op : Op) (b : BlockId)
    (hroom : c.assembler.buffer.length + 9 ≤ cap) :
    ∃ d', d.jump op b = .ok d' ∧ Backs cap d' (c.jump op b) := by
  have hemit : ∃ buffer, d.buffer.emit [op.raw] = .ok buffer ∧
      buffer.Holds cap (c.assembler.buffer ++ [op.raw]) :=
    h.buffer.emit (by simp only [List.length_singleton]; omega)
  obtain ⟨buffer, hop, hholds⟩ := hemit
  have hword : ∀ w, ∃ buffer', buffer.emit (Words.encode w) = .ok buffer' ∧
      buffer'.Holds cap (c.assembler.buffer ++ [op.raw] ++ Words.encode w) := fun w =>
    hholds.emit (by simp only [List.length_append, List.length_singleton, Words.length_encode]; omega)
  have hcur : (d.buffer.current : Int) = c.assembler.buffer.length := by rw [h.buffer.current]
  by_cases hbound : (c.labels b).isBound
  · obtain ⟨buffer', hoffset, hholds'⟩ :=
      hword (Words.ofInt ((c.labels b).getPos - c.assembler.buffer.length))
    refine ⟨{ d with buffer := buffer' }, ?_, ?_, ?_, ?_⟩
    · simp only [BufferedCompiler.jump, h.labels, hop, hbound, hcur, Bind.bind, Except.bind, if_true,
        hoffset, Pure.pure, Except.pure]
    · simpa [FlowGraphCompiler.jump, Assembler.jump, Assembler.emitOp, Assembler.emit, hbound]
        using hholds'
    · simpa [FlowGraphCompiler.jump, Assembler.jump, Assembler.emitOp, Assembler.emit, hbound]
        using h.objects
    · simpa [FlowGraphCompiler.jump, Assembler.jump, hbound] using h.labels
  · obtain ⟨buffer', hlink, hholds'⟩ := hword (Words.ofInt (c.labels b).pos)
    refine ⟨{ d with
        buffer := buffer', labels := Function.update d.labels b (.linkTo buffer.current) },
      ?_, ?_, ?_, ?_⟩
    · simp only [BufferedCompiler.jump, h.labels, hop, hbound, Bind.bind, Except.bind, if_false,
        hlink, Pure.pure, Except.pure, Bool.false_eq_true]
    · simpa [FlowGraphCompiler.jump, Assembler.jump, Assembler.emitLabelLink, Assembler.emitOp,
        Assembler.emit, hbound] using hholds'
    · simpa [FlowGraphCompiler.jump, Assembler.jump, Assembler.emitLabelLink, Assembler.emitOp,
        Assembler.emit, hbound] using h.objects
    · simp [FlowGraphCompiler.jump, Assembler.jump, Assembler.emitLabelLink, Assembler.emitOp, hbound,
        h.labels, hholds.current]

/-- The loop of `Bind` patches what the other one patches. -/
theorem patch_holds {bound : Int} {n : Nat} {a a' : Assembler} {buffer : AssemblerBuffer}
    {l : Label} (h : buffer.Holds cap a.buffer) (hpatch : Assembler.patch bound n a l = some a') :
    ∃ buffer', patch bound n buffer l = .ok buffer' ∧ buffer'.Holds cap a'.buffer ∧
      a'.objects = a.objects := by
  induction n generalizing a buffer l with
  | zero =>
      by_cases hl : l.isLinked
      · simp [Assembler.patch, hl] at hpatch
      · obtain rfl : a = a' := by simpa [Assembler.patch, hl] using hpatch
        exact ⟨buffer, by simp [patch, hl], h, rfl⟩
  | succ n ih =>
      by_cases hl : l.isLinked
      · simp only [Assembler.patch, hl, if_true, Option.bind_eq_bind, Option.bind_eq_some_iff]
          at hpatch
        obtain ⟨next, hnext, hpatch⟩ := hpatch
        have hpos := AssemblerBuffer.le_of_loadWord hnext
        obtain ⟨buffer₁, hstore, hholds⟩ :=
          h.storeAt hpos (Words.ofInt (bound - l.getLinkPos.toNat))
        obtain ⟨buffer', hrest, hholds', hobjects⟩ := ih hholds hpatch
        refine ⟨buffer', ?_, hholds', hobjects⟩
        simp only [patch, hl, if_true, h.loadAt hnext, Bind.bind, Except.bind, hstore, hrest]
      · obtain rfl : a = a' := by simpa [Assembler.patch, hl] using hpatch
        exact ⟨buffer, by simp [patch, hl], h, rfl⟩

theorem Backs.bind (h : Backs cap d c) {b : BlockId} (hbind : c.bind b = some c') :
    ∃ d', d.bind b = .ok d' ∧ Backs cap d' c' := by
  simp only [FlowGraphCompiler.bind, Assembler.bind, Option.bind_eq_bind, Option.pure_def,
    Option.bind_eq_some_iff, Option.map_eq_some_iff, Option.some.injEq] at hbind
  obtain ⟨-, ⟨a, hpatch, rfl⟩, rfl⟩ := hbind
  obtain ⟨buffer, hrun, hholds, hobjects⟩ := patch_holds h.buffer hpatch
  refine ⟨{ d with
      buffer, labels := Function.update d.labels b (.bindTo (d.buffer.current + 1)) },
    ?_, hholds, h.objects.trans hobjects.symm, ?_⟩
  · simp only [BufferedCompiler.bind, h.labels, h.buffer.current, hrun, Bind.bind, Except.bind,
      Pure.pure, Except.pure]
  · simp only [h.labels, h.buffer.current]

/-- An item with room for it is done as on a buffer as long as the code. -/
theorem Backs.item (h : Backs cap d c) {i : Item} (hrun : c.runItem i = some c')
    (hroom : c.assembler.buffer.length + i.size ≤ cap) :
    ∃ d', d.runItem i = .ok d' ∧ Backs cap d' c' := by
  cases i with
  | visit i =>
      cases hrun
      exact ⟨d, rfl, h⟩
  | code bc =>
      cases hrun
      exact h.code bc hroom
  | jump op b =>
      cases hrun
      exact h.jump op b hroom
  | bind b => exact h.bind hrun

/-- An item without room for it leaves the buffer. -/
theorem Backs.item_full (h : Backs cap d c) {i : Item}
    (hfull : cap < c.assembler.buffer.length + i.size) : d.runItem i = .error .undefined := by
  have hle := h.buffer.length_le
  cases i with
  | visit i | bind b => exact absurd hle (Nat.not_le.mpr hfull)
  | code bc =>
      have hlen := Bytecode.length_bytes bc d.objects.length
      rw [runItem, BufferedCompiler.code, h.buffer.emit_full (hlen ▸ hfull)]
      rfl
  | jump op b =>
      -- the operation may still have room, its operand has none
      by_cases hop : c.assembler.buffer.length + 1 ≤ cap
      · have hemit : ∃ buffer, d.buffer.emit [op.raw] = .ok buffer ∧
            buffer.Holds cap (c.assembler.buffer ++ [op.raw]) := h.buffer.emit hop
        obtain ⟨buffer, hraw, hholds⟩ := hemit
        have hword : ∀ w, buffer.emit (Words.encode w) = .error .undefined := fun w =>
          hholds.emit_full (by
            simp only [List.length_append, List.length_singleton, Words.length_encode]
            exact hfull)
        simp only [runItem, BufferedCompiler.jump, hraw, Bind.bind, Except.bind, hword]
        split <;> rfl
      · have hraw : d.buffer.emit [op.raw] = .error .undefined :=
          h.buffer.emit_full (Nat.lt_of_not_le hop)
        simp only [runItem, BufferedCompiler.jump, hraw, Bind.bind, Except.bind]

/-! ### A run of items -/

/-- **The code fits.**  Items that fit are all done, and the buffer then holds their code. -/
theorem runItems_holds (objs : List Value) (hcap : cap < 2 ^ 63) (his : size is ≤ cap) :
    ∃ d c w, runItems is (start cap objs) = .ok d ∧
      FlowGraphCompiler.runItems is (Layout.start objs) = some c ∧ Backs cap d c ∧
      LaidWith objs is w c := by
  induction is using List.reverseRecOn with
  | nil => exact ⟨_, _, _, rfl, rfl, backs_start cap objs, laidWith_start objs⟩
  | append_singleton is i ih =>
      rw [size_append, size_cons, size_nil, Nat.add_zero] at his
      obtain ⟨d, c, w, hd, hc, hbacks, hlaid⟩ := ih ((Nat.le_add_right _ _).trans his)
      have hfit : size (is ++ [i]) < 2 ^ 63 := by
        rw [size_append, size_cons, size_nil, Nat.add_zero]
        exact his.trans_lt hcap
      obtain ⟨w', c', hc', hlaid'⟩ := hlaid.item i hfit
      obtain ⟨d', hd', hbacks'⟩ := hbacks.item hc' (hlaid.length ▸ his)
      refine ⟨d', c', w', ?_, ?_, hbacks', hlaid'⟩
      · rw [runItems] at hd ⊢
        rw [List.foldlM_append, hd]
        exact (bind_pure _).trans hd'
      · rw [runItems_append]
        simp only [hc, Option.bind_some, runItems_cons, hc', runItems_nil]

/-- **The code does not fit.**  The first item without room leaves the buffer. -/
theorem runItems_full (hcap : cap < 2 ^ 63) (his : cap < size is) :
    runItems is (start cap objs) = .error .undefined := by
  induction is using List.reverseRecOn with
  | nil => exact absurd his (Nat.not_lt_zero _)
  | append_singleton is i ih =>
      rw [size_append, size_cons, size_nil, Nat.add_zero] at his
      by_cases hroom : size is ≤ cap
      · obtain ⟨d, c, w, hd, -, hbacks, hlaid⟩ := runItems_holds objs hcap hroom
        rw [runItems] at hd ⊢
        rw [List.foldlM_append, hd]
        exact (bind_pure _).trans (hbacks.item_full (hlaid.length ▸ his))
      · have herror := ih (Nat.lt_of_not_le hroom)
        rw [runItems] at herror ⊢
        rw [List.foldlM_append, herror]
        rfl

end BufferedCompiler

namespace FlowGraphCompiler

/-- `CompileTarget` with an assembler buffer of `initSize` bytes. -/
def compileTargetIn (initSize fuel : Nat) (visitor : Visitor → Build Visitor) (scope : ScopeId)
    (execScope : Option ScopeId) (m : Memory) : Option (Except Fault (Nat × Memory)) := do
  let (entry, b) ← (FlowGraphBuilder.build visitor).run (builderFor m scope execScope)
  let is ← emission b.graph fuel (some entry)
  return (BufferedCompiler.runItems is (.start initSize m.objects)).map fun d =>
    (m.regions.length,
      { m with scopes := b.scopes, nextObject := b.nextObject, objects := d.objects
               regions := m.regions ++ [d.buffer.assemble] })

/-- The number of bytes that the instructions of the flow graph take: one for an operation and
eight for an operand. -/
def codeSize (fuel : Nat) (visitor : Visitor → Build Visitor) (scope : ScopeId)
    (execScope : Option ScopeId) (m : Memory) : Option Nat := do
  let (entry, b) ← (FlowGraphBuilder.build visitor).run (builderFor m scope execScope)
  (emission b.graph fuel (some entry)).map size

end FlowGraphCompiler

/-- The target is compiled inside the buffer, and the region it gets is the code. -/
def CodeFits (fuel : Nat) (visitor : Visitor → Build Visitor) (scope : ScopeId)
    (execScope : Option ScopeId) (m : Memory) : Prop :=
  ∃ r, compileTargetIn AssemblerBuffer.defaultInitSize fuel visitor scope execScope m = some (.ok r) ∧
    compileTarget fuel visitor scope execScope m = some r

section

variable {fuel n : Nat} {visitor : Visitor → Build Visitor} {scope : ScopeId}
  {execScope : Option ScopeId} {m : Memory}

/-- Code that is copied whole fits into the buffer. -/
theorem CodeFits.le (hfits : CodeFits fuel visitor scope execScope m)
    (h : codeSize fuel visitor scope execScope m = some n) :
    n ≤ AssemblerBuffer.defaultInitSize := by
  simp only [codeSize, Option.bind_eq_bind, Option.bind_eq_some_iff, Option.map_eq_some_iff] at h
  obtain ⟨⟨entry, b⟩, hbuild, is, his, rfl⟩ := h
  obtain ⟨r, hrun, -⟩ := hfits
  have hcap : AssemblerBuffer.defaultInitSize < 2 ^ 63 := by decide
  by_contra hfull
  simp only [compileTargetIn, hbuild, his, Option.bind_eq_bind, Option.bind_some, Option.pure_def,
    BufferedCompiler.runItems_full hcap (Nat.lt_of_not_le hfull), Option.some.injEq] at hrun
  cases hrun

/-- **Compiling a lambda or a script.**  Every byte is emitted and patched inside the buffer, and
`Assemble` copies the code, if and only if the instructions of the flow graph take at most as many
bytes as the buffer has. -/
theorem codeFits_iff (h : codeSize fuel visitor scope execScope m = some n) :
    CodeFits fuel visitor scope execScope m ↔ n ≤ AssemblerBuffer.defaultInitSize := by
  constructor
  · intro hfits
    exact hfits.le h
  · intro hfit
    simp only [codeSize, Option.bind_eq_bind, Option.bind_eq_some_iff, Option.map_eq_some_iff] at h
    obtain ⟨⟨entry, b⟩, hbuild, is, his, rfl⟩ := h
    have hcap : AssemblerBuffer.defaultInitSize < 2 ^ 63 := by decide
    obtain ⟨d, c, w, hd, hc, hbacks, -⟩ := BufferedCompiler.runItems_holds m.objects hcap hfit
    have hiter : iterate b.graph fuel (some entry) (Layout.start m.objects) = some c := by
      rw [iterate_of_emission his, hc]
    rw [Layout.start] at hiter
    refine ⟨(m.regions.length, { m with
      scopes := b.scopes, nextObject := b.nextObject, objects := d.objects
      regions := m.regions ++ [d.buffer.assemble] }), ?_, ?_⟩
    · simp only [compileTargetIn, hbuild, his, Option.bind_eq_bind, Option.bind_some,
        Option.pure_def, hd]
      rfl
    · simp only [compileTarget, hbuild, hiter, Option.bind_eq_bind, Option.bind_some,
        Option.pure_def, hbacks.objects, hbacks.buffer.assemble]

end

/-! ### A script of sums -/

/-- The code of an expression takes `k` bytes, wherever it stands. -/
def TakesBytes (cfg : Config) (e : Expr) (k : Nat) : Prop :=
  ∀ b : Builder, b.Fresh → ∃ v b' c, visit cfg .value e {} b = some (v, b') ∧
    Built Anywhere b v b' c ∧ size c = k ∧ v.value.isSome

theorem takesBytes_long (cfg : Config) (k : UInt64) : TakesBytes cfg (.literal (.long k)) 9 := by
  intro b hf
  have hcode : Straight (b.alloc (.constant (.long k))).graph (.constant (.long k))
      [.code (.push (.long k))] := fun _ _ => rfl
  obtain ⟨v, b', hrun, hval, -, -, -, hbuilt⟩ :=
    (Built.start hf : Built Anywhere b {} b []).returnNew hcode
  refine ⟨v, b', _, hrun, hbuilt, ?_, by rw [hval]; rfl⟩
  simp [Item.size, Bytecode.size, Bytecode.bytes.eq_def]

/-- A binary operation takes one byte behind its operands. -/
theorem takesBytes_binaryOp {cfg : Config} {op : BinaryOp} {l r : Expr} {j k : Nat}
    (hl : TakesBytes cfg l j) (hr : TakesBytes cfg r k) : TakesBytes cfg (.binaryOp op l r) (j + k + 1) := by
  intro b hf
  obtain ⟨v₁, b₁, c₁, hrun₁, hbuilt₁, hsize₁, -⟩ := hl b hf
  obtain ⟨v₂, b₂, hrun₂, -, -, -, hbuilt₂⟩ :=
    (Built.start hf : Built Anywhere b {} b []).append hbuilt₁
  obtain ⟨v₃, b₃, c₃, hrun₃, hbuilt₃, hsize₃, -⟩ := hr b₂ hbuilt₂.fresh
  obtain ⟨v₄, b₄, hrun₄, -, -, -, hbuilt₄⟩ := hbuilt₂.append hbuilt₃
  obtain ⟨v, b', hrun, hval, -, -, -, hbuilt⟩ :=
    hbuilt₄.returnNew (x := .binaryOp op) (l := [.code (.binary op)]) fun _ _ => rfl
  refine ⟨v, b', _, ?_, hbuilt, ?_, by rw [hval]; rfl⟩
  · rw [visit, Partial.bind_run hrun₁, Partial.bind_run hrun₂, Partial.bind_run hrun₃,
      Partial.bind_run hrun₄, hrun]
  · simp [hsize₁, hsize₃, Item.size, Bytecode.size, Bytecode.bytes.eq_def, Nat.add_assoc]

/-- The body of a script that repeats an expression. -/
theorem visitScriptBody_replicate {cfg : Config} {e : Expr} {k : Nat} (he : TakesBytes cfg e k) (n : Nat)
    {b₀ b : Builder} {v : Visitor} {c : List Item} (r : Option InstrId)
    (h : Built Anywhere b₀ v b c) :
    ∃ v' r' b' c', visitScriptBody cfg (List.replicate n e) v r b = some ((v', r'), b') ∧
      Built Anywhere b₀ v' b' (c ++ c') ∧ size c' = k * n ∧ (r'.isSome ∨ n = 0) := by
  induction n generalizing v b c r with
  | zero => exact ⟨v, r, b, [], rfl, by rwa [List.append_nil], rfl, .inr rfl⟩
  | succ n ih =>
      obtain ⟨f, b₁, c₁, hvisit, hbuilt₁, hsize₁, hval⟩ := he b h.fresh
      obtain ⟨v₂, b₂, hrun₂, -, -, -, hbuilt₂⟩ := h.append hbuilt₁
      obtain ⟨v', r', b', c', hrest, hbuilt', hsize, hvalue⟩ := ih f.value hbuilt₂
      refine ⟨v', r', b', c₁ ++ c', ?_, by rwa [List.append_assoc] at hbuilt', ?_, .inl ?_⟩
      · rw [List.replicate_succ, visitScriptBody, if_pos h.isOpen, Partial.bind_run hvisit,
          Partial.bind_run hrun₂, hrest]
      · rw [size_append, hsize₁, hsize, Nat.mul_succ, Nat.add_comm]
      · rcases hvalue with hvalue | rfl
        · exact hvalue
        · cases hrest
          exact hval

/-- A script that repeats an expression takes the bytes of each, and one for the return. -/
theorem codeSize_replicate {cfg : Config} {e : Expr} {k : Nat} (he : TakesBytes cfg e k) (n : Nat)
    (scope : ScopeId) (m : Memory) :
    ∃ N, codeSize N (visitScript cfg (List.replicate (n + 1) e)) scope none m =
      some (k * (n + 1) + 1) := by
  set b := builderFor m scope none with hb
  have hf : b.Fresh := fun _ _ => rfl
  obtain ⟨v₁, r, b₁, c, hbody, hbuilt₁, hsize, hvalue⟩ := visitScriptBody_replicate he (n + 1) none
    (Built.start (Builder.fresh_entered hf) : Built Anywhere b.entered {} b.entered [])
  obtain ⟨v₂, b₂, hret, -, -, -, -, -, hbuilt₂⟩ :=
    hbuilt₁.addNew (x := .ret) (l := [.code .ret]) fun _ _ => rfl
  have hr : r.isNone = false := by
    rcases hvalue with hvalue | hzero
    · rw [← Option.not_isSome, hvalue]
      rfl
    · cases hzero
  have hrun : visitScript cfg (List.replicate (n + 1) e) {} b.entered = some (v₂, b₂) := by
    rw [visitScript, Partial.bind_run hbody]
    simp only [hr]
    exact hret
  obtain ⟨b', own, hbuild, hblock⟩ := build_block hf hrun hbuilt₂
  obtain ⟨N, hN⟩ := emission_of_emits (hblock.emits b'.graph trivial (.refl _ _ _))
  refine ⟨N, ?_⟩
  simp only [codeSize, ← hb, StateT.run, hbuild, hN N le_rfl, Option.bind_eq_bind, Option.bind_some,
    Option.map_some]
  simp [hsize, Item.size, Bytecode.size, Bytecode.bytes.eq_def]

/-- `(+ 1 1)`. -/
def CodeBuffer.Sample.sum : Expr := .binaryOp .add (.literal (.long 1)) (.literal (.long 1))

open CodeBuffer.Sample

theorem takesBytes_sum : TakesBytes {} sum 19 := takesBytes_binaryOp (takesBytes_long _ _) (takesBytes_long _ _)

theorem codeFits_sums : ∃ fuel, CodeFits fuel (visitScript {} (List.replicate 215 sum)) 0 none {} := by
  obtain ⟨N, hN⟩ := codeSize_replicate takesBytes_sum 214 0 {}
  exact ⟨N, (codeFits_iff hN).mpr (by decide)⟩

/-- One sum more, and the code takes 4105 bytes. -/
theorem not_codeFits_sums : ¬ ∀ (fuel : Nat) (body : List Expr),
    (codeSize fuel (visitScript {} body) 0 none {}).isSome →
      CodeFits fuel (visitScript {} body) 0 none {} := by
  intro h
  obtain ⟨N, hN⟩ := codeSize_replicate takesBytes_sum 215 0 {}
  exact absurd ((h N _ (by rw [hN]; rfl)).le hN) (by decide)

end Gel
