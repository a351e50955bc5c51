import Gel.FlowGraphCompiler

/-!
# Emission — the order in which a graph is compiled

Compiling a graph does four things in some order: it visits an instruction, emits an operation,
emits a jump to a block, or binds the label of a block.  `Emits g i is` says that compiling the
chain that starts at `i` does `is`, and `runItems` is what doing `is` makes of a compiler.

* `iterate_of_emits`, `emits_of_iterate`: the `InstructionIterator` loop returns exactly when the
  chain emits some items, and has then done those items.
* `Emits.functional`: a chain emits at most one list of items.
-/

namespace Gel

/-- What compiling does next. -/
inductive Item where
  | visit (i : InstrId)
  | code (c : Bytecode)
  | jump (op : Op) (b : BlockId)
  | bind (b : BlockId)
  deriving DecidableEq, Repr

namespace Bytecode

/-- The assembler's method for an operation; jumps go through labels and have none. -/
def emit (c : Bytecode) (a : Assembler) : Assembler :=
  match c with
  | nop => a.emitOp .nop
  | pop => a.emitOp .pop
  | dup => a.emitOp .dup
  | lookup => a.emitOp .lookup
  | ret => a.emitOp .ret
  | throw => a.emitOp .throw
  | push v => a.push v
  | storeLocal idx => a.storeLocal idx
  | loadLocal idx => a.loadLocal idx
  | invoke f n => a.invoke f n
  | invokeDynamic n => a.invokeDynamic n
  | invokeNative f n => a.invokeNative f n
  | checkInstance c => (a.emitOp .checkInstance).emitAddress c
  | jump .. => a
  | cast c => (a.emitOp .cast).emitAddress c
  | new c n => ((a.emitOp .new).emitAddress c).emit n
  | loadField f => a.ldfield f
  | storeField f => a.stfield f
  | unary op => a.emitOp (.unary op)
  | binary op => a.emitOp (.binary op)

end Bytecode

namespace FlowGraphCompiler

/-- What compiling an instruction that is not a branch does. -/
def itemsOf (g : Graph) : Instr → Option (List Item)
  | .graphEntry _ | .targetEntry _ | .joinEntry _ => some []
  | .constant v => some [.code (.push v)]
  | .loadLocal _ idx => some [.code (.loadLocal idx)]
  | .storeLocal _ idx => some [.code (.storeLocal idx)]
  | .unaryOp op => some [.code (.unary op)]
  | .binaryOp op => some [.code (.binary op)]
  | .invoke target n => (g.constantValue target).map fun f => [.code (.invoke f n)]
  | .invokeNative target n => (g.constantValue target).map fun f => [.code (.invokeNative f n)]
  | .invokeDynamic n => some [.code (.invokeDynamic n)]
  | .lookup => some [.code .lookup]
  | .ret => some [.code .ret]
  | .goto target => (blockId g target).map fun b => [.jump .jump b]
  | .throw => some [.code .throw]
  | .instanceOf type => some [.code (.checkInstance (.cls type))]
  | .cast target => some [.code (.cast (.cls target))]
  | .new target n => some [.code (.new (.cls target) n)]
  | .loadField f => some [.code (.loadField f)]
  | .storeField f => some [.code (.storeField f)]
  | .branch .. => none

/-- Do one item. -/
def runItem (c : FlowGraphCompiler) : Item → Option FlowGraphCompiler
  | .visit _ => some c
  | .code bc => some (c.emit bc.emit)
  | .jump op b => some (c.jump op b)
  | .bind b => c.bind b

/-- Do items in order. -/
def runItems : List Item → FlowGraphCompiler → Option FlowGraphCompiler
  | [], c => some c
  | i :: is, c => (c.runItem i).bind (runItems is)

@[simp] theorem runItems_nil (c : FlowGraphCompiler) : runItems [] c = some c := rfl

theorem runItems_cons (i : Item) (is : List Item) :
    runItems (i :: is) = fun c => (c.runItem i).bind (runItems is) := rfl

theorem runItems_append (is ks : List Item) :
    runItems (is ++ ks) = fun c => (runItems is c).bind (runItems ks) := by
  induction is with
  | nil => rfl
  | cons i is ih =>
      funext c
      simp only [List.cons_append, runItems_cons, ih, Option.bind_assoc]

/-- `Compile` does the items of the instruction. -/
theorem compileInstr_eq (g : Graph) (i : Instr) (c : FlowGraphCompiler) :
    compileInstr g i c = (itemsOf g i).bind fun is => runItems is c := by
  cases i with
  | goto target =>
      simp only [compileInstr, itemsOf, blockId]
      cases (g.instr? target).bind Instr.blockId <;> rfl
  | invoke target n | invokeNative target n =>
      simp only [compileInstr, itemsOf]
      cases g.constantValue target <;> rfl
  | _ => rfl

/-- The chain at `i` is compiled by doing the items, in that order. -/
inductive Emits (g : Graph) : Option InstrId → List Item → Prop where
  | done : Emits g none []
  | instr {i : InstrId} {instr : Instr} {is ks : List Item}
      (hi : g.instr? i = some instr) (his : itemsOf g instr = some is)
      (hk : Emits g (g.next i) ks) : Emits g (some i) (.visit i :: (is ++ ks))
  | branch {i : InstrId} {condition : Condition} {t j : InstrId} {bt bj : BlockId}
      {ts js ks : List Item}
      (hi : g.instr? i = some (.branch condition t none j))
      (ht : blockId g t = some bt) (hj : blockId g j = some bj)
      (hts : Emits g (some t) ts) (hjs : Emits g (some j) js) (hk : Emits g (g.next i) ks) :
      Emits g (some i)
        (.visit i :: .jump (branchOp condition) bj :: .bind bt :: (ts ++ .bind bj :: (js ++ ks)))
  | branchElse {i : InstrId} {condition : Condition} {t f j : InstrId} {bt bf bj : BlockId}
      {ts fs js ks : List Item}
      (hi : g.instr? i = some (.branch condition t (some f) j))
      (ht : blockId g t = some bt) (hf : blockId g f = some bf) (hj : blockId g j = some bj)
      (hts : Emits g (some t) ts) (hfs : Emits g (some f) fs) (hjs : Emits g (some j) js)
      (hk : Emits g (g.next i) ks) :
      Emits g (some i)
        (.visit i :: .jump (branchOp condition) bf :: .bind bt ::
          (ts ++ .bind bf :: (fs ++ .bind bj :: (js ++ ks))))

/-- A chain emits at most one list of items. -/
theorem Emits.functional {g : Graph} {i : Option InstrId} {is ks : List Item}
    (h : Emits g i is) (h' : Emits g i ks) : is = ks := by
  induction h generalizing ks with
  | done => cases h'; rfl
  | instr hi his _ ih =>
      cases h' with
      | instr hi' his' hk' =>
          obtain rfl := Option.some.inj (hi.symm.trans hi')
          obtain rfl := Option.some.inj (his.symm.trans his')
          rw [ih hk']
      | branch hi' | branchElse hi' =>
          obtain rfl := Option.some.inj (hi.symm.trans hi')
          cases his
  | branch hi ht hj _ _ _ iht ihj ihk =>
      cases h' with
      | instr hi' his' =>
          obtain rfl := Option.some.inj (hi.symm.trans hi')
          cases his'
      | branch hi' ht' hj' hts' hjs' hk' =>
          cases Option.some.inj (hi.symm.trans hi')
          obtain rfl := Option.some.inj (ht.symm.trans ht')
          obtain rfl := Option.some.inj (hj.symm.trans hj')
          rw [iht hts', ihj hjs', ihk hk']
      | branchElse hi' => cases Option.some.inj (hi.symm.trans hi')
  | branchElse hi ht hf hj _ _ _ _ iht ihf ihj ihk =>
      cases h' with
      | instr hi' his' =>
          obtain rfl := Option.some.inj (hi.symm.trans hi')
          cases his'
      | branch hi' => cases Option.some.inj (hi.symm.trans hi')
      | branchElse hi' ht' hf' hj' hts' hfs' hjs' hk' =>
          cases Option.some.inj (hi.symm.trans hi')
          obtain rfl := Option.some.inj (ht.symm.trans ht')
          obtain rfl := Option.some.inj (hf.symm.trans hf')
          obtain rfl := Option.some.inj (hj.symm.trans hj')
          rw [iht hts', ihf hfs', ihj hjs', ihk hk']

/-- The items a chain emits, where the walk is at most `n` long and deep. -/
def emission (g : Graph) : Nat → Option InstrId → Option (List Item)
  | _, none => some []
  | 0, some _ => none
  | n + 1, some i => do
      let ks ← emission g n (g.next i)
      match ← g.instr? i with
      | .branch condition t none j =>
          let ts ← emission g n (some t)
          let js ← emission g n (some j)
          return .visit i :: .jump (branchOp condition) (← blockId g j) :: .bind (← blockId g t) ::
            (ts ++ .bind (← blockId g j) :: (js ++ ks))
      | .branch condition t (some f) j =>
          let ts ← emission g n (some t)
          let fs ← emission g n (some f)
          let js ← emission g n (some j)
          return .visit i :: .jump (branchOp condition) (← blockId g f) :: .bind (← blockId g t) ::
            (ts ++ .bind (← blockId g f) :: (fs ++ .bind (← blockId g j) :: (js ++ ks)))
      | instr => return .visit i :: ((← itemsOf g instr) ++ ks)

theorem emits_of_emission {g : Graph} {n : Nat} {i : Option InstrId} {is : List Item}
    (h : emission g n i = some is) : Emits g i is := by
  induction n generalizing i is with
  | zero =>
      cases i with
      | none =>
          cases h
          exact .done
      | some i => cases h
  | succ n ih =>
      cases i with
      | none =>
          cases h
          exact .done
      | some i =>
          simp only [emission, Option.bind_eq_bind, Option.bind_eq_some_iff] at h
          obtain ⟨ks, hks, x, hx, h⟩ := h
          cases x with
          | branch condition t f j =>
              cases f with
              | none =>
                  simp only [Option.bind_eq_some_iff, Option.pure_def, Option.some.injEq] at h
                  obtain ⟨ts, hts, js, hjs, bj, hbj, bt, hbt, bj', hbj', rfl⟩ := h
                  obtain rfl := Option.some.inj (hbj.symm.trans hbj')
                  exact .branch hx hbt hbj (ih hts) (ih hjs) (ih hks)
              | some f =>
                  simp only [Option.bind_eq_some_iff, Option.pure_def, Option.some.injEq] at h
                  obtain ⟨ts, hts, fs, hfs, js, hjs, bf, hbf, bt, hbt, bf', hbf', bj, hbj, rfl⟩ := h
                  obtain rfl := Option.some.inj (hbf.symm.trans hbf')
                  exact .branchElse hx hbt hbf hbj (ih hts) (ih hfs) (ih hjs) (ih hks)
          | _ =>
              simp only [Option.bind_eq_some_iff, Option.pure_def, Option.some.injEq] at h
              obtain ⟨xs, hxs, rfl⟩ := h
              exact .instr hx hxs (ih hks)

/-! ### The loop and the relation -/

@[simp] theorem iterate_none (g : Graph) (n : Nat) (c : FlowGraphCompiler) :
    iterate g n none c = some c := by
  cases n <;> rfl

/-- One turn of the loop at an instruction that is not a branch. -/
theorem iterate_instr {g : Graph} {i : InstrId} {instr : Instr} {is : List Item}
    (hi : g.instr? i = some instr) (his : itemsOf g instr = some is) (n : Nat)
    (c : FlowGraphCompiler) :
    iterate g (n + 1) (some i) c = (runItems is c).bind (iterate g n (g.next i)) := by
  have hc : compileInstr g instr c = runItems is c := by rw [compileInstr_eq, his]; rfl
  cases instr with
  | branch => cases his
  | _ => simp only [iterate, hi, Option.bind_eq_bind, Option.bind_some, hc]

/-- One turn of the loop at a branch without a false target. -/
theorem iterate_branch {g : Graph} {i t j : InstrId} {condition : Condition} {bt bj : BlockId}
    (hi : g.instr? i = some (.branch condition t none j))
    (ht : blockId g t = some bt) (hj : blockId g j = some bj) (n : Nat) (c : FlowGraphCompiler) :
    iterate g (n + 1) (some i) c =
      ((c.jump (branchOp condition) bj).bind bt).bind fun c =>
      (iterate g n (some t) c).bind fun c => (c.bind bj).bind fun c =>
      (iterate g n (some j) c).bind (iterate g n (g.next i)) := by
  simp only [iterate, hi, ht, hj, Option.bind_eq_bind, Option.bind_some]

/-- One turn of the loop at a branch with a false target. -/
theorem iterate_branchElse {g : Graph} {i t f j : InstrId} {condition : Condition}
    {bt bf bj : BlockId}
    (hi : g.instr? i = some (.branch condition t (some f) j))
    (ht : blockId g t = some bt) (hf : blockId g f = some bf) (hj : blockId g j = some bj)
    (n : Nat) (c : FlowGraphCompiler) :
    iterate g (n + 1) (some i) c =
      ((c.jump (branchOp condition) bf).bind bt).bind fun c =>
      (iterate g n (some t) c).bind fun c => (c.bind bf).bind fun c =>
      (iterate g n (some f) c).bind fun c => (c.bind bj).bind fun c =>
      (iterate g n (some j) c).bind (iterate g n (g.next i)) := by
  simp only [iterate, hi, ht, hf, hj, Option.bind_eq_bind, Option.bind_some]

/-- With enough turns the loop does what the chain emits. -/
theorem iterate_of_emits {g : Graph} {i : Option InstrId} {is : List Item} (h : Emits g i is) :
    ∃ N, ∀ n, N ≤ n → ∀ c, iterate g n i c = runItems is c := by
  induction h with
  | done => exact ⟨0, fun n _ c => iterate_none g n c⟩
  | instr hi his _ ih =>
      obtain ⟨N, hN⟩ := ih
      refine ⟨N + 1, fun n hn c => ?_⟩
      obtain ⟨n, rfl⟩ : ∃ m, n = m + 1 := ⟨n - 1, by omega⟩
      simp only [iterate_instr hi his, runItems_cons, runItem, Option.bind_some, runItems_append,
        funext (hN n (by omega))]
  | branch hi ht hj _ _ _ iht ihj ihk =>
      obtain ⟨Nt, hNt⟩ := iht
      obtain ⟨Nj, hNj⟩ := ihj
      obtain ⟨Nk, hNk⟩ := ihk
      refine ⟨Nt + Nj + Nk + 1, fun n hn c => ?_⟩
      obtain ⟨n, rfl⟩ : ∃ m, n = m + 1 := ⟨n - 1, by omega⟩
      rw [iterate_branch hi ht hj]
      simp only [runItems_cons, runItem, Option.bind_some, runItems_append, hNt n (by omega),
        hNj n (by omega), funext (hNk n (by omega))]
  | branchElse hi ht hf hj _ _ _ _ iht ihf ihj ihk =>
      obtain ⟨Nt, hNt⟩ := iht
      obtain ⟨Nf, hNf⟩ := ihf
      obtain ⟨Nj, hNj⟩ := ihj
      obtain ⟨Nk, hNk⟩ := ihk
      refine ⟨Nt + Nf + Nj + Nk + 1, fun n hn c => ?_⟩
      obtain ⟨n, rfl⟩ : ∃ m, n = m + 1 := ⟨n - 1, by omega⟩
      rw [iterate_branchElse hi ht hf hj]
      simp only [runItems_cons, runItem, Option.bind_some, runItems_append, hNt n (by omega),
        hNf n (by omega), hNj n (by omega), funext (hNk n (by omega))]

/-- The case of `emits_of_iterate` at an instruction whose compilation is no list of items of its
own: a branch, or one that does not compile. -/
private theorem emits_of_iterate_none {g : Graph} {n : Nat} {i : InstrId} {instr : Instr}
    {c c' : FlowGraphCompiler}
    (ih : ∀ {i : Option InstrId} {c c' : FlowGraphCompiler}, iterate g n i c = some c' →
      ∃ is, Emits g i is ∧ runItems is c = some c')
    (hi : g.instr? i = some instr) (his : itemsOf g instr = none)
    (h : iterate g (n + 1) (some i) c = some c') :
    ∃ is, Emits g (some i) is ∧ runItems is c = some c' := by
  have hdead : ∀ c, compileInstr g instr c = none := fun c => by rw [compileInstr_eq, his]; rfl
  cases instr with
  | branch condition t f j =>
      cases ht : blockId g t with
      | none => simp [iterate, hi, ht] at h
      | some bt =>
      cases hj : blockId g j with
      | none => simp [iterate, hi, ht, hj] at h
      | some bj =>
      cases f with
      | none =>
          rw [iterate_branch hi ht hj] at h
          simp only [Option.bind_eq_some_iff] at h
          obtain ⟨c₁, h₁, c₂, h₂, c₃, h₃, c₄, h₄, h₅⟩ := h
          obtain ⟨ts, hts, hrt⟩ := ih h₂
          obtain ⟨js, hjs, hrj⟩ := ih h₄
          obtain ⟨ks, hks, hrk⟩ := ih h₅
          refine ⟨_, .branch hi ht hj hts hjs hks, ?_⟩
          simp only [runItems_cons, runItem, Option.bind_some, runItems_append, h₁, hrt, h₃, hrj,
            hrk]
      | some f =>
          cases hf : blockId g f with
          | none => simp [iterate, hi, ht, hj, hf] at h
          | some bf =>
              rw [iterate_branchElse hi ht hf hj] at h
              simp only [Option.bind_eq_some_iff] at h
              obtain ⟨c₁, h₁, c₂, h₂, c₃, h₃, c₄, h₄, c₅, h₅, c₆, h₆, h₇⟩ := h
              obtain ⟨ts, hts, hrt⟩ := ih h₂
              obtain ⟨fs, hfs, hrf⟩ := ih h₄
              obtain ⟨js, hjs, hrj⟩ := ih h₆
              obtain ⟨ks, hks, hrk⟩ := ih h₇
              refine ⟨_, .branchElse hi ht hf hj hts hfs hjs hks, ?_⟩
              simp only [runItems_cons, runItem, Option.bind_some, runItems_append, h₁, hrt, h₃,
                hrf, h₅, hrj, hrk]
  | _ => simp only [iterate, hi, hdead, Option.bind_eq_bind, Option.bind_some, Option.bind_none,
      reduceCtorEq] at h

/-- When the loop returns, the chain emits some items and the loop has done them. -/
theorem emits_of_iterate {g : Graph} {n : Nat} {i : Option InstrId} {c c' : FlowGraphCompiler}
    (h : iterate g n i c = some c') : ∃ is, Emits g i is ∧ runItems is c = some c' := by
  induction n generalizing i c c' with
  | zero =>
      cases i with
      | none => exact ⟨[], .done, h⟩
      | some i => cases h
  | succ n ih =>
      cases i with
      | none => exact ⟨[], .done, h⟩
      | some i =>
          cases hi : g.instr? i with
          | none => simp [iterate, hi] at h
          | some instr =>
              cases his : itemsOf g instr with
              | some is =>
                  rw [iterate_instr hi his, Option.bind_eq_some_iff] at h
                  obtain ⟨c₁, h₁, h₂⟩ := h
                  obtain ⟨ks, hk, hks⟩ := ih h₂
                  refine ⟨_, .instr hi his hk, ?_⟩
                  simp only [runItems_cons, runItem, Option.bind_some, runItems_append, h₁, hks]
              | none => exact emits_of_iterate_none ih hi his h

/-- A walk that is long and deep enough lists what the chain emits. -/
theorem emission_of_emits {g : Graph} {i : Option InstrId} {is : List Item}
    (h : Emits g i is) : ∃ N, ∀ n, N ≤ n → emission g n i = some is := by
  induction h with
  | done => exact ⟨0, fun n _ => by cases n <;> rfl⟩
  | @instr i x is ks hi his _ ih =>
      obtain ⟨N, hN⟩ := ih
      refine ⟨N + 1, fun n hn => ?_⟩
      obtain ⟨n, rfl⟩ : ∃ m, n = m + 1 := ⟨n - 1, by omega⟩
      cases x with
      | branch => cases his
      | _ => simp only [emission, hN n (by omega), hi, his, Option.bind_eq_bind, Option.bind_some,
          Option.pure_def]
  | branch hi ht hj _ _ _ iht ihj ihk =>
      obtain ⟨Nt, hNt⟩ := iht
      obtain ⟨Nj, hNj⟩ := ihj
      obtain ⟨Nk, hNk⟩ := ihk
      refine ⟨Nt + Nj + Nk + 1, fun n hn => ?_⟩
      obtain ⟨n, rfl⟩ : ∃ m, n = m + 1 := ⟨n - 1, by omega⟩
      simp only [emission, hi, ht, hj, hNt n (by omega), hNj n (by omega), hNk n (by omega),
        Option.bind_eq_bind, Option.bind_some, Option.pure_def]
  | branchElse hi ht hf hj _ _ _ _ iht ihf ihj ihk =>
      obtain ⟨Nt, hNt⟩ := iht
      obtain ⟨Nf, hNf⟩ := ihf
      obtain ⟨Nj, hNj⟩ := ihj
      obtain ⟨Nk, hNk⟩ := ihk
      refine ⟨Nt + Nf + Nj + Nk + 1, fun n hn => ?_⟩
      obtain ⟨n, rfl⟩ : ∃ m, n = m + 1 := ⟨n - 1, by omega⟩
      simp only [emission, hi, ht, hf, hj, hNt n (by omega), hNf n (by omega), hNj n (by omega),
        hNk n (by omega), Option.bind_eq_bind, Option.bind_some, Option.pure_def]

/-- The loop does the items that the walk of the same depth lists. -/
theorem iterate_of_emission {g : Graph} {n : Nat} {i : Option InstrId} {is : List Item}
    (h : emission g n i = some is) (c : FlowGraphCompiler) : iterate g n i c = runItems is c := by
  induction n generalizing i is c with
  | zero =>
      cases i with
      | none =>
          cases h
          rfl
      | some i => cases h
  | succ n ih =>
      cases i with
      | none =>
          cases h
          exact iterate_none g _ c
      | some i =>
          simp only [emission, Option.bind_eq_bind, Option.bind_eq_some_iff] at h
          obtain ⟨ks, hks, x, hx, h⟩ := h
          cases x with
          | branch condition t f j =>
              cases f with
              | none =>
                  simp only [Option.bind_eq_some_iff, Option.pure_def, Option.some.injEq] at h
                  obtain ⟨ts, hts, js, hjs, bj, hbj, bt, hbt, bj', hbj', rfl⟩ := h
                  obtain rfl := Option.some.inj (hbj.symm.trans hbj')
                  rw [iterate_branch hx hbt hbj]
                  simp only [runItems_cons, runItem, Option.bind_some, runItems_append, ih hts,
                    ih hjs, funext (ih hks)]
              | some f =>
                  simp only [Option.bind_eq_some_iff, Option.pure_def, Option.some.injEq] at h
                  obtain ⟨ts, hts, fs, hfs, js, hjs, bf, hbf, bt, hbt, bf', hbf', bj, hbj, rfl⟩ := h
                  obtain rfl := Option.some.inj (hbf.symm.trans hbf')
                  rw [iterate_branchElse hx hbt hbf hbj]
                  simp only [runItems_cons, runItem, Option.bind_some, runItems_append, ih hts,
                    ih hfs, ih hjs, funext (ih hks)]
          | _ =>
              simp only [Option.bind_eq_some_iff, Option.pure_def, Option.some.injEq] at h
              obtain ⟨xs, hxs, rfl⟩ := h
              rw [iterate_instr hx hxs]
              simp only [runItems_cons, runItem, Option.bind_some, runItems_append,
                funext (ih hks)]

end FlowGraphCompiler

end Gel
