import Gel.Collector
import Gel.Support.Runs

/-!
# NewZone — allocation, and the walk over what is allocated

`NewZone::TryAllocate` moves a pointer through the semispace in use, a collection fills the other
one in the same way, and `NewZone::Iterator` walks from header to header.

* `zone_laid`: after any run the live blocks lie one after the other in the semispace in use, and
  their headers have the sizes asked for.
* `zoneOk_iff`: the iterator returns exactly these blocks when the semispace in use is the
  first one.
-/

namespace Gel

namespace Heap

/-- `NewZone::TryAllocate`, after which the memory of the object is zero; fatal when there is no
room. -/
def tryAllocate (size : Nat) (h : Heap) : Option Heap :=
  let totalSize := sizeofPointer + size
  if h.fromspace + h.semisize ≤ h.current + totalSize then none
  else
    some { h.write h.current { size, object := .other [] none } with
      current := h.current + totalSize }

/-- The constructor of a `NewZone` of twice the semisize at `start`. -/
def newZone (start semisize : Nat) (memory : HeapAddress → Option Header) : Heap where
  memory
  fromspace := start
  tospace := start + semisize
  semisize
  current := start
  classes := []
  modules := []
  values := []
  scopes := []

/-- What `NewZone::Iterator` returns from an address on, in at most `n` steps. -/
def pointersFrom (h : Heap) : Nat → HeapAddress → Option (List HeapAddress)
  | 0, a => if a < h.current then none else some []
  | n + 1, a =>
      if a < h.current then do
        let next ← h.memory a
        return a :: (← h.pointersFrom n (a + next.totalSize))
      else some []

/-- `NewZone::Iterator`, which starts at the zone's starting address: the pointers that
`VisitAllPointers` and `VisitAllMarkedPointers` go through. -/
def iterator (start : HeapAddress) (h : Heap) : Option (List HeapAddress) :=
  h.pointersFrom (h.current - start) start

end Heap

/-- A block: the address of its header, and the size asked for. -/
abbrev ZoneBlock := HeapAddress × Nat

/-- The end of a block. -/
def ZoneBlock.finish (b : ZoneBlock) : HeapAddress := b.1 + sizeofPointer + b.2

theorem ZoneBlock.lt_finish (b : ZoneBlock) : b.1 < b.finish := by
  rw [ZoneBlock.finish, Nat.add_assoc]
  exact Nat.lt_add_of_pos_right (Nat.add_pos_left (by decide) _)

namespace Collector

/-- The sizes in headers, and where the next copy goes. -/
structure Same (c c' : Collector) : Prop where
  fromspace : c'.heap.fromspace = c.heap.fromspace
  tospace : c'.heap.tospace = c.heap.tospace
  semisize : c'.heap.semisize = c.heap.semisize
  next : c'.nextAddress = c.nextAddress
  sizes : ∀ a, (c'.heap.memory a).map Header.size = (c.heap.memory a).map Header.size

/-- The blocks that `CopyPointer` asks for on the way from one state of a collection to another; in
between the fields of objects change. -/
inductive Copies : Collector → List ZoneBlock → Collector → Prop where
  | refl (c : Collector) : Copies c [] c
  | change {c c₁ c' : Collector} {bs : List ZoneBlock} (hs : Same c c₁) (h : Copies c₁ bs c') :
      Copies c bs c'
  | copy {c c' : Collector} {bs : List ZoneBlock} {a : HeapAddress} {x : Header}
      (hx : c.heap.memory a = some x)
      (hroom : c.nextAddress + x.totalSize < c.heap.fromspace + c.heap.semisize)
      (h : Copies (processed c a x) bs c') : Copies c ((c.nextAddress, x.size) :: bs) c'

end Collector

/-- What happens to a zone. -/
inductive ZoneOp where
  | allocate (size : Nat)
  | collect
  | mutate
  deriving DecidableEq

/-- A step of a zone with its live blocks.  Between allocations and collections the program changes
objects and roots, and no header. -/
inductive ZoneStep : Heap × List ZoneBlock → ZoneOp → Heap × List ZoneBlock → Prop where
  | allocate {h h' : Heap} {bs : List ZoneBlock} {size : Nat} (ha : h.tryAllocate size = some h') :
      ZoneStep (h, bs) (.allocate size) (h', bs ++ [(h.current, size)])
  | collect {h h' : Heap} {bs bs' : List ZoneBlock} {c : Collector} (hc : h.collect = some h')
      (hcopies : Collector.Copies ⟨h.swapSpaces, h.tospace⟩ bs' c)
      (hmemory : h'.memory = c.heap.memory) (hcurrent : h'.current = c.nextAddress) :
      ZoneStep (h, bs) .collect (h', bs')
  | mutate {h h' : Heap} {bs : List ZoneBlock} (hspaces : h'.fromspace = h.fromspace ∧
        h'.tospace = h.tospace ∧ h'.semisize = h.semisize ∧ h'.current = h.current)
      (hsizes : ∀ a, (h'.memory a).map Header.size = (h.memory a).map Header.size) :
      ZoneStep (h, bs) .mutate (h', bs)

/-- What is wanted of the live blocks of a zone: each header has the size asked for, the blocks are
disjoint and in the semispace in use, and the iterator returns each of them once, in the order of
addresses. -/
structure ZoneOk (start : HeapAddress) (h : Heap) (bs : List ZoneBlock) : Prop where
  records : ∀ b ∈ bs, (h.memory b.1).map Header.size = some b.2
  inside : ∀ b ∈ bs, h.fromspace ≤ b.1 ∧ b.finish ≤ h.fromspace + h.semisize
  disjoint : bs.Pairwise fun b d => b.finish ≤ d.1
  enumerated : h.iterator start = some (bs.map Prod.fst)

/-! ### Blocks one after the other -/

section Laid

variable {memory memory' : HeapAddress → Option Header} {a e : HeapAddress} {bs : List ZoneBlock}

/-- The blocks fill the memory between two addresses, and their headers have their sizes. -/
def Laid (memory : HeapAddress → Option Header) : HeapAddress → HeapAddress → List ZoneBlock → Prop
  | a, e, [] => a = e
  | a, e, b :: bs => b.1 = a ∧ (memory a).map Header.size = some b.2 ∧ Laid memory b.finish e bs

theorem Laid.le (h : Laid memory a e bs) : a ≤ e := by
  induction bs generalizing a with
  | nil => exact h.le
  | cons b bs ih =>
      obtain ⟨rfl, -, hrest⟩ := h
      exact b.lt_finish.le.trans (ih hrest)

/-- Only the sizes before the end matter. -/
theorem Laid.congr (h : Laid memory a e bs)
    (hm : ∀ b, a ≤ b → b < e → (memory' b).map Header.size = (memory b).map Header.size) :
    Laid memory' a e bs := by
  induction bs generalizing a with
  | nil => exact h
  | cons b bs ih =>
      obtain ⟨rfl, hsize, hrest⟩ := h
      have hlt := b.lt_finish.trans_le hrest.le
      exact ⟨rfl, (hm b.1 le_rfl hlt).trans hsize, ih hrest fun d hd => hm d (b.lt_finish.le.trans hd)⟩

/-- One block more. -/
theorem Laid.concat {size : Nat} (h : Laid memory a e bs)
    (hsize : (memory e).map Header.size = some size) :
    Laid memory a (e + sizeofPointer + size) (bs ++ [(e, size)]) := by
  induction bs generalizing a with
  | nil =>
      cases h
      exact ⟨rfl, hsize, rfl⟩
  | cons b bs ih => exact ⟨h.1, h.2.1, ih h.2.2⟩

theorem Laid.records (h : Laid memory a e bs) : ∀ b ∈ bs, (memory b.1).map Header.size = some b.2 := by
  induction bs generalizing a with
  | nil => simp
  | cons b bs ih =>
      obtain ⟨rfl, hsize, hrest⟩ := h
      intro d hd
      rcases List.mem_cons.mp hd with rfl | hd
      · exact hsize
      · exact ih hrest d hd

theorem Laid.inside (h : Laid memory a e bs) : ∀ b ∈ bs, a ≤ b.1 ∧ b.finish ≤ e := by
  induction bs generalizing a with
  | nil => simp
  | cons b bs ih =>
      obtain ⟨rfl, -, hrest⟩ := h
      intro d hd
      rcases List.mem_cons.mp hd with rfl | hd
      · exact ⟨le_rfl, hrest.le⟩
      · obtain ⟨hle, hfinish⟩ := ih hrest d hd
        exact ⟨b.lt_finish.le.trans hle, hfinish⟩

theorem Laid.disjoint (h : Laid memory a e bs) : bs.Pairwise fun b d => b.finish ≤ d.1 := by
  induction bs generalizing a with
  | nil => exact .nil
  | cons b bs ih =>
      obtain ⟨rfl, -, hrest⟩ := h
      exact .cons (fun d hd => (hrest.inside d hd).1) (ih hrest)

/-- The walk from the first block returns the blocks. -/
theorem Laid.pointersFrom {h : Heap} {n : Nat} (hl : Laid h.memory a h.current bs)
    (hn : h.current - a ≤ n) : h.pointersFrom n a = some (bs.map Prod.fst) := by
  induction bs generalizing a n with
  | nil =>
      cases hl
      cases n <;> simp [Heap.pointersFrom]
  | cons b bs ih =>
      obtain ⟨rfl, hsize, hrest⟩ := hl
      obtain ⟨x, hx, hxsize⟩ := Option.map_eq_some_iff.mp hsize
      have hlt : b.1 < h.current := b.lt_finish.trans_le hrest.le
      have hnext : b.1 + x.totalSize = b.finish := by
        rw [Header.totalSize, ZoneBlock.finish, hxsize, Nat.add_assoc]
      cases n with
      | zero => exact absurd (Nat.sub_eq_zero_iff_le.mp (Nat.le_zero.mp hn)) hlt.not_ge
      | succ n =>
          rw [Heap.pointersFrom, if_pos hlt, hx]
          have hrest' := ih hrest (Nat.le_of_lt_succ ((Nat.sub_lt_sub_left hlt b.lt_finish).trans_le hn))
          simp [hnext, hrest']

end Laid

/-! ### Collections -/

namespace Collector

variable {c c' c₁ : Collector} {a : HeapAddress} {bs bs' : List ZoneBlock} {x : Header}

theorem Copies.trans (h : Copies c bs c₁) (h' : Copies c₁ bs' c') : Copies c (bs ++ bs') c' := by
  induction h with
  | refl => exact h'
  | change hs _ ih => exact .change hs (ih h')
  | copy hx hroom _ ih => exact .copy hx hroom (ih h')

/-- A collection goes from one state to another by copies. -/
def Copying (c c' : Collector) : Prop := ∃ bs, Copies c bs c'

theorem Copying.refl (c : Collector) : Copying c c := ⟨[], .refl c⟩

theorem Copying.trans (h : Copying c c₁) (h' : Copying c₁ c') : Copying c c' := by
  obtain ⟨bs, hbs⟩ := h
  obtain ⟨bs', hbs'⟩ := h'
  exact ⟨bs ++ bs', hbs.trans hbs'⟩

theorem Copying.same (h : Same c c') : Copying c c' := ⟨[], .change h (.refl c')⟩

theorem sizeAt_modifyHeader {h : Heap} {f : Header → Header} (hf : ∀ y, (f y).size = y.size)
    (b : HeapAddress) :
    ((h.modifyHeader a f).memory b).map Header.size = (h.memory b).map Header.size := by
  by_cases hb : b = a
  · subst hb
    rw [memory_modifyHeader_self]
    cases h.memory b <;> simp [hf]
  · rw [memory_modifyHeader_ne hb]

/-- A copy has the size of its original, and every header before it keeps its size. -/
theorem sizeAt_processed : ((processed c a x).heap.memory c.nextAddress).map Header.size = some x.size ∧
    ∀ b, b < c.nextAddress → ((processed c a x).heap.memory b).map Header.size =
      (c.heap.memory b).map Header.size := by
  constructor
  · rw [processed, sizeAt_modifyHeader, sizeAt_modifyHeader, memory_write_self]
    · rfl
    · exact fun _ => rfl
    · exact fun _ => rfl
  · intro b hb
    rw [processed, sizeAt_modifyHeader, sizeAt_modifyHeader]
    · rw [objectAt_write (fun h => absurd h.1 hb.not_ge) (totalSize_pos _)]
    · exact fun _ => rfl
    · exact fun _ => rfl

theorem Copies.spaces (h : Copies c bs c') : c'.heap.fromspace = c.heap.fromspace ∧
    c'.heap.tospace = c.heap.tospace ∧ c'.heap.semisize = c.heap.semisize := by
  induction h with
  | refl => exact ⟨rfl, rfl, rfl⟩
  | change hs _ ih => exact ⟨ih.1.trans hs.fromspace, ih.2.1.trans hs.tospace, ih.2.2.trans hs.semisize⟩
  | copy _ _ _ ih => exact ih

/-- The copies lie one after the other in the semispace that is copied to. -/
theorem Copies.laid {s : HeapAddress} {ds : List ZoneBlock} (h : Copies c bs c')
    (hl : Laid c.heap.memory s c.nextAddress ds)
    (hroom : c.nextAddress ≤ c.heap.fromspace + c.heap.semisize) :
    Laid c'.heap.memory s c'.nextAddress (ds ++ bs) ∧
      c'.nextAddress ≤ c.heap.fromspace + c.heap.semisize := by
  induction h generalizing ds with
  | refl => exact ⟨by rwa [List.append_nil], hroom⟩
  | change hs _ ih =>
      have hl' := hl.congr fun b _ _ => hs.sizes b
      rw [← hs.next] at hl'
      have hspace := ih hl' (by rw [hs.next, hs.fromspace, hs.semisize]; exact hroom)
      rwa [hs.fromspace, hs.semisize] at hspace
  | @copy c c' bs a x hx hfits _ ih =>
      obtain ⟨hnew, hold⟩ := sizeAt_processed (c := c) (a := a) (x := x)
      have hl' := (hl.congr fun b _ hb => hold b hb).concat hnew
      rw [Nat.add_assoc] at hl'
      have hspace := ih hl' hfits.le
      rwa [List.append_assoc] at hspace

theorem process_copying (a : HeapAddress) : Partial.Leads Copying (process a) := by
  intro c u c' h
  obtain ⟨x, hx, hroom, hr⟩ := process_eq_some h
  cases hr
  exact ⟨_, .copy hx hroom (.refl _)⟩

theorem visit_copying (a : HeapAddress) : Partial.Leads Copying (visit a) := by
  rw [visit]
  by_cases ha : a = 0
  · rw [if_pos ha]
    intro c b c' h
    cases h
  · rw [if_neg ha]
    exact .bind .trans (.get .refl) fun _ => .bind .trans (.lift .refl _) fun _ => by
      split
      · exact .pure .refl _
      · exact .bind .trans (process_copying a) fun _ => .pure .refl _

theorem visitAll_copying (as : List HeapAddress) : Partial.Leads Copying (visitAll as) := by
  induction as with
  | nil => exact .pure .refl _
  | cons a as ih =>
      exact .bind .trans (visit_copying a) fun _ => .bind .trans ih fun _ => .pure .refl _

/-- Fields that hold other addresses leave the headers alone. -/
theorem setObject_copying (a : HeapAddress) (x : Contents) :
    Partial.Leads Copying (setObject a x) :=
  .modify fun _ => .same ⟨rfl, rfl, rfl, rfl, sizeAt_modifyHeader fun _ => rfl⟩

theorem visitLocals_copying (ls : List LocalId) : Partial.Leads Copying (visitLocals ls) := by
  induction ls with
  | nil => exact .pure .refl _
  | cons l ls ih =>
      refine .bind .trans (.get .refl) fun _ => .bind .trans (.lift .refl _) fun value =>
        .bind .trans (visit_copying value) fun _ => .bind .trans (.modify fun _ => ?_) fun _ => ih
      exact .same ⟨rfl, rfl, rfl, rfl, fun _ => rfl⟩

theorem visitPointers_copying (a : HeapAddress) : Partial.Leads Copying (visitPointers a) := by
  refine .bind .trans (.get .refl) fun _ => .bind .trans (.lift .refl _) fun x => ?_
  cases x with
  | module name scope namespaces macros init initialized =>
      exact .bind .trans (visit_copying name) fun _ => .bind .trans (.get .refl) fun _ =>
        .bind .trans (visitLocals_copying _) fun _ =>
          .bind .trans (visitAll_copying namespaces) fun _ => setObject_copying a _
  | error message => exact .bind .trans (visit_copying message) fun _ => setObject_copying a _
  | cls | other => exact .pure .refl _

theorem processRoots_copying (as : List HeapAddress) : Partial.Leads Copying (processRoots as) := by
  induction as with
  | nil => exact .pure .refl _
  | cons a as ih => exact .bind .trans (process_copying a) fun _ => ih

theorem processFromspace_copying (k : Nat) (curr : HeapAddress) :
    Partial.Leads Copying (processFromspace k curr) := by
  induction k generalizing curr with
  | zero => exact .failure
  | succ k ih =>
      refine .bind .trans (.get .refl) fun c => ?_
      split
      · exact .pure .refl _
      · exact .bind .trans (visitPointers_copying curr) fun _ => .bind .trans (.get .refl) fun _ =>
          .bind .trans (.lift .refl _) fun _ => ih _

end Collector

/-- Every collection that succeeds is a list of copies. -/
theorem Heap.collect_copies {h h' : Heap} (hc : h.collect = some h') :
    ∃ bs c, Collector.Copies ⟨h.swapSpaces, h.tospace⟩ bs c ∧ h'.memory = c.heap.memory ∧
      h'.current = c.nextAddress ∧ h'.fromspace = h.tospace ∧ h'.tospace = h.fromspace ∧
      h'.semisize = h.semisize := by
  simp only [collect, Collector.notifyRoots, Option.bind_eq_bind, Option.bind_eq_some_iff,
    Option.pure_def, Option.some.injEq] at hc
  obtain ⟨⟨u, c⟩, hrun, h₁, ⟨classes, hclasses, modules, hmodules, rfl⟩, rfl⟩ := hc
  have hcopying : Partial.Leads Collector.Copying (do
      Collector.processRoots (h.swapSpaces.classes ++ h.swapSpaces.modules)
      Collector.processFromspace (h.swapSpaces.semisize + 1) h.swapSpaces.fromspace) :=
    .bind .trans (Collector.processRoots_copying _) fun _ => Collector.processFromspace_copying _ _
  obtain ⟨bs, hcopies⟩ := hcopying hrun
  obtain ⟨hfrom, hto, hsemi⟩ := hcopies.spaces
  exact ⟨bs, c, hcopies, rfl, rfl, hfrom, hto, hsemi⟩

/-! ### Runs -/

/-- The zone has two semispaces, one after the other, and the live blocks fill the one in use up to
the present address. -/
structure ZoneInv (start : HeapAddress) (s : Heap × List ZoneBlock) : Prop where
  laid : Laid s.1.memory s.1.fromspace s.1.current s.2
  room : s.1.current ≤ s.1.fromspace + s.1.semisize
  spaces : s.1.fromspace = start ∧ s.1.tospace = start + s.1.semisize ∨
    s.1.fromspace = start + s.1.semisize ∧ s.1.tospace = start

theorem ZoneInv.step {start : HeapAddress} ⦃s : Heap × List ZoneBlock⦄ ⦃op : ZoneOp⦄
    ⦃t : Heap × List ZoneBlock⦄ (h : ZoneInv start s) (hstep : ZoneStep s op t) : ZoneInv start t := by
  cases hstep with
  | @allocate g g' bs size ha =>
      rw [Heap.tryAllocate] at ha
      split at ha
      · cases ha
      · rename_i hroom
        cases ha
        have hbelow : ∀ b, g.fromspace ≤ b → b < g.current →
            ((g.write g.current { size, object := .other [] none }).memory b).map Header.size =
              (g.memory b).map Header.size := by
          intro b _ hb
          rw [Collector.objectAt_write (fun hin => absurd hin.1 hb.not_ge)
            (Collector.totalSize_pos _)]
        have hnew : ((g.write g.current { size, object := .other [] none }).memory g.current).map
            Header.size = some size := by
          rw [Collector.memory_write_self]
          rfl
        have hlaid := (h.laid.congr hbelow).concat hnew
        rw [Nat.add_assoc] at hlaid
        exact ⟨hlaid, (Nat.lt_of_not_le hroom).le, h.spaces⟩
  | @collect g g' bs bs' c hc hcopies hmemory hcurrent =>
      obtain ⟨-, -, -, -, -, hfrom, hto, hsemi⟩ := Heap.collect_copies hc
      have hempty : Laid g.memory g.tospace g.tospace [] := rfl
      have hlaid := hcopies.laid hempty (Nat.le_add_right _ _)
      refine ⟨?_, ?_, ?_⟩
      · change Laid g'.memory g'.fromspace g'.current bs'
        rw [hmemory, hcurrent, hfrom]
        exact hlaid.1
      · change g'.current ≤ g'.fromspace + g'.semisize
        rw [hcurrent, hfrom, hsemi]
        exact hlaid.2
      · change g'.fromspace = start ∧ g'.tospace = start + g'.semisize ∨
          g'.fromspace = start + g'.semisize ∧ g'.tospace = start
        rw [hfrom, hto, hsemi]
        exact h.spaces.symm.imp And.symm And.symm
  | @mutate g g' bs hspaces hsizes =>
      obtain ⟨hfrom, hto, hsemi, hcurrent⟩ := hspaces
      have hlaid := h.laid.congr fun b _ _ => hsizes b
      have hroom := h.room
      have hsp := h.spaces
      simp only [← hfrom, ← hto, ← hsemi, ← hcurrent] at hlaid hroom hsp
      exact ⟨hlaid, hroom, hsp⟩

section Run

open Runs

variable {start : HeapAddress} {semisize : Nat} {memory : HeapAddress → Option Header}
  {ops : List ZoneOp} {h : Heap} {bs : List ZoneBlock}

theorem zone_invariant (hrun : Run ZoneStep ops (Heap.newZone start semisize memory, []) (h, bs)) :
    ZoneInv start (h, bs) :=
  hrun.invariant ZoneInv.step ⟨rfl, Nat.le_add_right _ _, .inl ⟨rfl, rfl⟩⟩

/-- **Allocation.**  After any run the headers of the live blocks have the sizes asked for, and the
blocks are disjoint and in the semispace in use. -/
theorem zone_laid (hrun : Run ZoneStep ops (Heap.newZone start semisize memory, []) (h, bs)) :
    (∀ b ∈ bs, (h.memory b.1).map Header.size = some b.2) ∧
    (∀ b ∈ bs, h.fromspace ≤ b.1 ∧ b.finish ≤ h.fromspace + h.semisize) ∧
    bs.Pairwise fun b d => b.finish ≤ d.1 := by
  obtain ⟨hlaid, hroom, -⟩ := zone_invariant hrun
  refine ⟨hlaid.records, fun b hb => ?_, hlaid.disjoint⟩
  obtain ⟨hle, hfinish⟩ := hlaid.inside b hb
  exact ⟨hle, hfinish.trans hroom⟩

/-- **The zone after a run.**  Its live blocks are as they should be, and the iterator returns them,
if and only if the semispace in use is at the start of the zone. -/
theorem zoneOk_iff (hrun : Run ZoneStep ops (Heap.newZone start semisize memory, []) (h, bs)) :
    ZoneOk start h bs ↔ h.fromspace = start := by
  obtain ⟨hlaid, hroom, hspaces⟩ := zone_invariant hrun
  obtain ⟨hrecords, hinside, hdisjoint⟩ := zone_laid hrun
  constructor
  · intro hok
    by_contra hne
    obtain ⟨hfrom, -⟩ := hspaces.resolve_left fun hfirst => hne hfirst.1
    have hfrom : h.fromspace = start + h.semisize := hfrom
    have hlt : start < h.fromspace :=
      lt_of_le_of_ne (by rw [hfrom]; exact Nat.le_add_right _ _) (Ne.symm hne)
    have hlt' : start < h.current := hlt.trans_le hlaid.le
    -- the iterator starts at an address before the semispace in use
    have hwalk := hok.enumerated
    obtain ⟨n, hn⟩ := Nat.exists_eq_succ_of_ne_zero (Nat.sub_pos_of_lt hlt').ne'
    rw [Heap.iterator, hn, Heap.pointersFrom, if_pos hlt'] at hwalk
    simp only [Option.bind_eq_bind, Option.bind_eq_some_iff, Option.pure_def, Option.some.injEq] at hwalk
    obtain ⟨x, -, rest, -, hstart⟩ := hwalk
    have hmem : start ∈ bs.map Prod.fst := by rw [← hstart]; exact .head _
    obtain ⟨b, hb, hb1⟩ := List.mem_map.mp hmem
    exact absurd (hb1 ▸ (hinside b hb).1) hlt.not_ge
  · intro hfrom
    refine ⟨hrecords, hinside, hdisjoint, ?_⟩
    rw [Heap.iterator, ← hfrom]
    exact hlaid.pointersFrom le_rfl

end Run

namespace NewZone.Sample

/-- A zone of 8192 bytes at 4096. -/
def zone : Heap := Heap.newZone 4096 4096 fun _ => none

/-- A long has been allocated. -/
def allocated : Heap where
  __ := zone.write 4096 { size := 8, object := .other [] none }
  current := 4120

theorem allocated_run : Runs.Run ZoneStep [.allocate 8] (zone, []) (allocated, [(4096, 8)]) :=
  .single (.allocate rfl)

/-- Nothing is a root, and the other semispace is in use. -/
def collected : Heap := { allocated.swapSpaces with current := 8192 }

theorem collected_run :
    Runs.Run ZoneStep [.allocate 8, .collect] (zone, []) (collected, []) :=
  allocated_run.trans (.single (.collect rfl (.refl _) rfl rfl))

end NewZone.Sample

open NewZone.Sample in
theorem zoneOk_allocated : ZoneOk 4096 allocated [(4096, 8)] := (zoneOk_iff allocated_run).mpr rfl

open NewZone.Sample in
/-- After one collection the iterator starts in the semispace that is not in use. -/
theorem not_zoneOk_collected : ¬ ∀ (start semisize : Nat) (memory : HeapAddress → Option Header)
    (ops : List ZoneOp) (h : Heap) (bs : List ZoneBlock),
    Runs.Run ZoneStep ops (Heap.newZone start semisize memory, []) (h, bs) → ZoneOk start h bs := by
  intro h
  have hok := (h 4096 4096 (fun _ => none) _ collected [] collected_run).enumerated
  have hwalk : collected.iterator 4096 = some [4096] ∨ collected.iterator 4096 = none := by
    right
    rfl
  rcases hwalk with hwalk | hwalk
  · cases hwalk.symm.trans hok
  · cases hwalk.symm.trans hok

end Gel
