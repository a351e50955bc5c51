import Gel.Object
import Mathlib.Data.List.TakeWhile

/-!
# Modules — importing a file

`Module::FindOrLoad` looks for a registered module with the name it is given, and otherwise loads
the file of that name.  `Parser::ParseModuleFrom` names the module after the file: what is behind
the last slash, up to the first dot of that.  A name with a slash or a dot is never the name of a
module, so its file is loaded again by every import.

* `idempotent_iff`: the names whose file is loaded once.
-/

namespace Gel

/-- A module as it is registered, with the file it was parsed from. -/
structure LoadedModule where
  name : List Char
  path : List Char

/-- What a file does when it is loaded: the imports its parser meets, and, unless it has no
expressions, whether its init function leaves the field `initialized` true. -/
structure ModuleFile where
  imports : List (List Char) := []
  init : Option Bool := none

/-- The variable `GEL_HOME`, and the files that can be read and parsed. -/
structure ModuleFiles where
  home : Option (List Char)
  files : List Char → Option ModuleFile

/-- `modules_`, and the files whose init function was called. -/
structure ModuleTable where
  modules : List LoadedModule := []
  initialized : List (List Char) := []

/-- What is behind the last slash. -/
def fileName (path : List Char) : List Char := (path.reverse.takeWhile (· ≠ '/')).reverse

/-- The name `ParseModuleFrom` gives to the module of a file. -/
def moduleName (path : List Char) : List Char := (fileName path).takeWhile (· ≠ '.')

/-- `{home}/lib/{name}`. -/
def libPath (home name : List Char) : List Char := home ++ "/lib/".toList ++ name

namespace ModuleTable

variable (t : ModuleTable)

/-- The first module with the name. -/
def find (name : List Char) : Option Nat := t.modules.findIdx? fun m => m.name = name

/-- `Module::New`, which registers the module. -/
def register (path : List Char) : ModuleTable :=
  { t with modules := t.modules ++ [{ name := moduleName path, path }] }

/-- The init function of the module of the file was called. -/
def callInit (path : List Char) : ModuleTable :=
  { t with initialized := t.initialized ++ [path] }

end ModuleTable

namespace Module

/-- The parse of the imports of a file; a module that is not found ends the process. -/
def importAll (find : List Char → ModuleTable → Except Fault (Option Nat × ModuleTable)) :
    List (List Char) → ModuleTable → Except Fault ModuleTable
  | [], t => .ok t
  | name :: names, t => do
      let (m, t) ← find name t
      if m.isSome then importAll find names t else throw .fatal

/-- `Module::LoadFrom` and `Module::Init`: the module is registered before the file is parsed. -/
def loadFrom (w : ModuleFiles)
    (find : List Char → ModuleTable → Except Fault (Option Nat × ModuleTable))
    (path : List Char) (t : ModuleTable) : Except Fault (Option Nat × ModuleTable) :=
  match w.files path with
  | none => .error .fatal
  | some file => do
      let t' ← importAll find file.imports (t.register path)
      match file.init with
      | none => return (some t.modules.length, t')
      | some true => return (some t.modules.length, t'.callInit path)
      | some false => throw .fatal

/-- `Module::FindOrLoad`; `depth` bounds the files that are being parsed at one time. -/
def findOrLoad (w : ModuleFiles) :
    Nat → List Char → ModuleTable → Except Fault (Option Nat × ModuleTable)
  | 0, _, _ => .error .timeout
  | depth + 1, name, t =>
      match t.find name with
      | some m => .ok (some m, t)
      | none => match w.home with
          | none => .ok (none, t)
          | some home => loadFrom w (findOrLoad w depth) (libPath home name) t

/-- Calls of `Module::FindOrLoad` one after the other. -/
def findAll (w : ModuleFiles) (depth : Nat) :
    List (List Char) → ModuleTable → Except Fault (List (Option Nat) × ModuleTable)
  | [], t => .ok ([], t)
  | name :: names, t => do
      let (m, t) ← findOrLoad w depth name t
      let (ms, t) ← findAll w depth names t
      return (m :: ms, t)

/-- One module was registered for the file, and its init function was called once if it has one. -/
def LoadedOnce (path : List Char) (file : ModuleFile) (t : ModuleTable) : Prop :=
  (t.modules.map LoadedModule.path).count path = 1 ∧
    t.initialized.count path = if file.init.isSome then 1 else 0

/-- From the table `t` any number of imports of the name give one module and load its file once, as
do all imports of the name in any run of imports that returns. -/
structure Idempotent (w : ModuleFiles) (path : List Char) (file : ModuleFile) (name : List Char)
    (t : ModuleTable) : Prop where
  repeated : ∀ k, ∃ depth m t', findAll w depth (List.replicate (k + 1) name) t
    = .ok (List.replicate (k + 1) (some m), t') ∧ LoadedOnce path file t'
  among : ∀ depth names ms t', 
    findAll w depth (name :: names) t = .ok (ms, t') →
    (∃ m, ∀ i : Nat, (name :: names)[i]? = some name → ms[i]? = some (some m)) ∧
      LoadedOnce path file t'

/-! ### Names -/

section Names

variable {pre name path : List Char}

theorem fileName_append : fileName (pre ++ '/' :: name) = fileName name := by
  rw [fileName, fileName, List.reverse_append, List.reverse_cons, List.append_assoc,
    List.takeWhile_append]
  by_cases h : (name.reverse.takeWhile (· ≠ '/')).length = name.reverse.length
  · rw [if_pos h, List.singleton_append, List.takeWhile_cons_of_neg (by simp), List.append_nil,
      (List.takeWhile_prefix _).eq_of_length h]
  · rw [if_neg h]

theorem moduleName_libPath (home name : List Char) :
    moduleName (libPath home name) = moduleName name := by
  have h : libPath home name = (home ++ "/lib".toList) ++ '/' :: name := by simp [libPath]
  rw [moduleName, moduleName, h, fileName_append]

theorem libPath_injective {home a b : List Char} (h : libPath home a = libPath home b) : a = b :=
  List.append_cancel_left h

/-- The name of a module has no slash and no dot. -/
theorem notMem_moduleName : '.' ∉ moduleName path ∧ '/' ∉ moduleName path := by
  refine ⟨fun h => ?_, fun h => ?_⟩
  · have := List.mem_takeWhile_imp h
    simp at this
  · have hmem : '/' ∈ fileName path := (List.takeWhile_prefix _).subset h
    rw [fileName, List.mem_reverse] at hmem
    have := List.mem_takeWhile_imp hmem
    simp at this

/-- A name that has neither is the name of its module. -/
theorem moduleName_eq (hd : '.' ∉ name) (hs : '/' ∉ name) : moduleName name = name := by
  have hfile : fileName name = name := by
    rw [fileName, List.takeWhile_eq_self_iff.mpr, List.reverse_reverse]
    intro c hc
    have : c ≠ '/' := fun h => hs (h ▸ List.mem_reverse.mp hc)
    simpa using this
  rw [moduleName, hfile, List.takeWhile_eq_self_iff]
  intro c hc
  have : c ≠ '.' := fun h => hd (h ▸ hc)
  simpa using this

end Names

/-! ### The table -/

section Table

variable {w : ModuleFiles} {home name path : List Char} {t t' : ModuleTable} {m n depth : Nat}
  {r : Option Nat}

/-- Modules are named after their files. -/
def Valid (t : ModuleTable) : Prop := ∀ m ∈ t.modules, m.name = moduleName m.path

/-- The file was not loaded. -/
def Unloaded (path : List Char) (t : ModuleTable) : Prop :=
  path ∉ t.modules.map LoadedModule.path ∧ path ∉ t.initialized

/-- The module `m` is found by the name, and was the only one loaded from the file; its init
function was called `n` times. -/
structure Stands (name path : List Char) (m n : Nat) (t : ModuleTable) : Prop where
  find : t.find name = some m
  loaded : (t.modules.map LoadedModule.path).count path = 1
  initialized : t.initialized.count path = n

theorem Valid.register (hv : Valid t) (path : List Char) : Valid (t.register path) := by
  intro m hm
  rcases List.mem_append.mp hm with hm | hm
  · exact hv m hm
  · rw [List.mem_singleton.mp hm]

/-- A module that is found is found after another is registered. -/
theorem find_register (h : t.find name = some m) (path : List Char) :
    (t.register path).find name = some m := by
  rw [ModuleTable.find, ModuleTable.register, List.findIdx?_append]
  rw [ModuleTable.find] at h
  rw [h]
  rfl

theorem Stands.register {path' : List Char} (h : Stands name path m n t) (hne : path' ≠ path) :
    Stands name path m n (t.register path') := by
  refine ⟨find_register h.find path', ?_, h.initialized⟩
  rw [ModuleTable.register, List.map_append, List.count_append, h.loaded]
  simp [hne]

theorem Stands.callInit {path' : List Char} (h : Stands name path m n t) (hne : path' ≠ path) :
    Stands name path m n (t.callInit path') := by
  refine ⟨h.find, h.loaded, ?_⟩
  rw [ModuleTable.callInit, List.count_append, h.initialized]
  simp [hne]

theorem findOrLoad_found (h : t.find name = some m) :
    findOrLoad w (depth + 1) name t = .ok (some m, t) := by
  rw [findOrLoad, h]

theorem findOrLoad_load (h : t.find name = none) (hhome : w.home = some home) :
    findOrLoad w (depth + 1) name t = loadFrom w (findOrLoad w depth) (libPath home name) t := by
  rw [findOrLoad, h, hhome]

/-- What a load does: the module is registered, the imports are parsed, and the init function is
called if the file has one. -/
theorem loadFrom_eq_ok {find : List Char → ModuleTable → Except Fault (Option Nat × ModuleTable)}
    (h : loadFrom w find path t = .ok (r, t')) :
    ∃ file t₁, w.files path = some file ∧ importAll find file.imports (t.register path) = .ok t₁ ∧
      r = some t.modules.length ∧ t' = if file.init.isSome then t₁.callInit path else t₁ := by
  rw [loadFrom] at h
  rcases hfile : w.files path with - | file
  · rw [hfile] at h
    cases h
  rw [hfile] at h
  rcases himp : importAll find file.imports (t.register path) with e | t₁
  · simp only [himp, Bind.bind, Except.bind] at h
    cases h
  simp only [himp, Bind.bind, Except.bind] at h
  refine ⟨file, t₁, rfl, himp, ?_⟩
  rcases hinit : file.init with - | ok
  · rw [hinit] at h
    cases h
    exact ⟨rfl, rfl⟩
  · rw [hinit] at h
    cases ok with
    | true =>
        cases h
        exact ⟨rfl, rfl⟩
    | false => cases h

/-- What each import preserves, the imports of a file preserve. -/
theorem importAll_preserves {P : ModuleTable → Prop}
    {find : List Char → ModuleTable → Except Fault (Option Nat × ModuleTable)}
    (hfind : ∀ {y t t' r}, find y t = .ok (r, t') → P t → P t') {names : List (List Char)} :
    ∀ {t t' : ModuleTable}, importAll find names t = .ok t' → P t → P t' := by
  induction names with
  | nil =>
      intro t t' h hP
      cases h
      exact hP
  | cons name names ih =>
      intro t t' h hP
      rw [importAll] at h
      rcases hone : find name t with e | ⟨m, t₁⟩
      · rw [hone] at h
        cases h
      rw [hone] at h
      rcases m with - | m
      · cases h
      · exact ih h (hfind hone hP)

/-- What registering a module and calling its init function preserve, an import preserves. -/
theorem findOrLoad_preserves {P : ModuleTable → Prop} (hhome : w.home = some home)
    (hreg : ∀ t y, P t → t.find y = none → P (t.register (libPath home y)))
    (hinit : ∀ t t₁ y, P t → t.find y = none → P t₁ → P (t₁.callInit (libPath home y))) :
    ∀ {y : List Char} {t t' : ModuleTable} {r : Option Nat},
      findOrLoad w depth y t = .ok (r, t') → P t → P t' := by
  induction depth with
  | zero =>
      intro y t t' r h
      cases h
  | succ depth ih =>
      intro y t t' r h hP
      rcases hfind : t.find y with - | m
      · rw [findOrLoad_load hfind hhome] at h
        obtain ⟨file, t₁, -, himp, -, rfl⟩ := loadFrom_eq_ok h
        have hP₁ : P t₁ := importAll_preserves ih himp (hreg t y hP hfind)
        by_cases hf : file.init.isSome = true
        · rw [if_pos hf]
          exact hinit t t₁ y hP hfind hP₁
        · rwa [if_neg hf]
      · rw [findOrLoad_found hfind] at h
        cases h
        exact hP

/-- Imports keep tables valid. -/
theorem Valid.findOrLoad (hhome : w.home = some home) (hv : Valid t)
    (h : findOrLoad w depth name t = .ok (r, t')) : Valid t' :=
  findOrLoad_preserves hhome (fun _ _ hv _ => hv.register _) (fun _ _ _ _ _ hv => hv) h hv

/-- Imports do not remove modules. -/
theorem le_length_findOrLoad (hhome : w.home = some home) {k : Nat} (hk : k ≤ t.modules.length)
    (h : findOrLoad w depth name t = .ok (r, t')) : k ≤ t'.modules.length := by
  refine findOrLoad_preserves (P := fun t => k ≤ t.modules.length) hhome ?_
    (fun _ _ _ _ _ h => h) h hk
  intro t y hk _
  rw [ModuleTable.register, List.length_append]
  exact Nat.le_add_right_of_le hk

/-- An import leaves a module that stands as it is: its name is found, so only other files are
loaded. -/
theorem Stands.findOrLoad {y : List Char} (hhome : w.home = some home)
    (hs : Stands name (libPath home name) m n t) (h : findOrLoad w depth y t = .ok (r, t')) :
    Stands name (libPath home name) m n t' := by
  have hne {t : ModuleTable} {y : List Char} (hs : Stands name (libPath home name) m n t)
      (hy : t.find y = none) : libPath home y ≠ libPath home name := by
    intro heq
    rw [libPath_injective heq, hs.find] at hy
    cases hy
  exact findOrLoad_preserves hhome (fun _ _ hs hy => hs.register (hne hs hy))
    (fun _ _ _ hs hy hs₁ => hs₁.callInit (hne hs hy)) h hs

/-- The first import of a name that is the name of its module. -/
theorem stands_of_load {file : ModuleFile} (hhome : w.home = some home)
    (hfile : w.files (libPath home name) = some file) (hname : moduleName name = name)
    (hnone : t.find name = none) (hu : Unloaded (libPath home name) t)
    (h : Module.findOrLoad w depth name t = .ok (r, t')) :
    r = some t.modules.length ∧ Stands name (libPath home name) t.modules.length
      (if file.init.isSome then 1 else 0) t' := by
  rcases depth with - | depth
  · cases h
  rw [findOrLoad_load hnone hhome] at h
  obtain ⟨file', t₁, hfile', himp, rfl, rfl⟩ := loadFrom_eq_ok h
  rw [hfile] at hfile'
  cases hfile'
  have hreg : Stands name (libPath home name) t.modules.length 0
      (t.register (libPath home name)) := by
    refine ⟨?_, ?_, List.count_eq_zero.mpr hu.2⟩
    · rw [ModuleTable.find] at hnone
      rw [ModuleTable.find, ModuleTable.register, List.findIdx?_append, hnone, moduleName_libPath,
        hname]
      simp
    · rw [ModuleTable.register, List.map_append, List.count_append, List.count_eq_zero.mpr hu.1]
      simp
  have hs := importAll_preserves (fun h hs => hs.findOrLoad hhome h) himp hreg
  refine ⟨rfl, ?_⟩
  by_cases hf : file.init.isSome = true
  · rw [if_pos hf, if_pos hf]
    refine ⟨hs.find, hs.loaded, ?_⟩
    rw [ModuleTable.callInit, List.count_append, hs.initialized]
    simp
  · rwa [if_neg hf, if_neg hf]

end Table

/-! ### Runs of imports -/

section Runs

variable {w : ModuleFiles} {home name : List Char} {names : List (List Char)} {t t' : ModuleTable}
  {m n depth : Nat} {ms : List (Option Nat)}

theorem findAll_cons {r : Option Nat} (h : findOrLoad w depth name t = .ok (r, t')) :
    findAll w depth (name :: names) t
      = (fun p => (r :: p.1, p.2)) <$> findAll w depth names t' := by
  rw [findAll, h]
  rfl

theorem findAll_cons_eq_ok (h : findAll w depth (name :: names) t = .ok (ms, t')) :
    ∃ r t₁ ms', findOrLoad w depth name t = .ok (r, t₁) ∧ findAll w depth names t₁ = .ok (ms', t') ∧
      ms = r :: ms' := by
  rcases hone : findOrLoad w depth name t with e | ⟨r, t₁⟩
  · rw [findAll, hone] at h
    cases h
  rw [findAll_cons hone] at h
  rcases hrest : findAll w depth names t₁ with e | ⟨ms', t₂⟩
  · rw [hrest] at h
    cases h
  · rw [hrest] at h
    cases h
    exact ⟨r, t₁, ms', rfl, hrest, rfl⟩

/-- Imports of a name that is found. -/
theorem findAll_found (h : t.find name = some m) (k : Nat) :
    findAll w (depth + 1) (List.replicate k name) t = .ok (List.replicate k (some m), t) := by
  induction k with
  | zero => rfl
  | succ k ih =>
      rw [List.replicate_succ, findAll_cons (findOrLoad_found h), ih]
      rfl

/-- Among any imports a module that stands is the result of every import of its name. -/
theorem Stands.findAll (hhome : w.home = some home) : ∀ {t t' : ModuleTable}
    {ms : List (Option Nat)}, Stands name (libPath home name) m n t →
      findAll w depth names t = .ok (ms, t') →
      (∀ i : Nat, names[i]? = some name → ms[i]? = some (some m)) ∧
        Stands name (libPath home name) m n t' := by
  induction names with
  | nil =>
      intro t t' ms hs h
      cases h
      exact ⟨by simp, hs⟩
  | cons y names ih =>
      intro t t' ms hs h
      obtain ⟨r, t₁, ms', hone, hrest, rfl⟩ := findAll_cons_eq_ok h
      obtain ⟨hms, hs'⟩ := ih (hs.findOrLoad hhome hone) hrest
      refine ⟨fun i hi => ?_, hs'⟩
      cases i with
      | zero =>
          rw [List.getElem?_cons_zero, Option.some.injEq] at hi
          rcases depth with - | depth
          · cases hone
          rw [hi, findOrLoad_found hs.find] at hone
          cases hone
          rfl
      | succ i => exact hms i hi

/-- No table of modules that are named after their files has a name with a slash or a dot. -/
theorem Valid.find_eq_none (hv : Valid t) (hname : moduleName name ≠ name) :
    t.find name = none := by
  rw [ModuleTable.find, List.findIdx?_eq_none_iff]
  intro m hm
  rw [decide_eq_false_iff_not, hv m hm]
  intro heq
  have hn := @notMem_moduleName m.path
  rw [heq] at hn
  exact hname (moduleName_eq hn.1 hn.2)

variable {file : ModuleFile}

/-- A name of its own module that no module has yet. -/
theorem idempotent_of (hhome : w.home = some home)
    (hfile : w.files (libPath home name) = some file) (hu : Unloaded (libPath home name) t)
    (hload : ∃ depth r, findOrLoad w depth name t = .ok r) (hname : moduleName name = name)
    (hnone : t.find name = none) : Idempotent w (libPath home name) file name t := by
  refine ⟨fun k => ?_, fun depth names ms t' h => ?_⟩
  · obtain ⟨depth, ⟨r, t'⟩, h⟩ := hload
    obtain ⟨rfl, hs⟩ := stands_of_load hhome hfile hname hnone hu h
    rcases depth with - | depth
    · cases h
    refine ⟨depth + 1, t.modules.length, t', ?_, hs.loaded, hs.initialized⟩
    rw [List.replicate_succ, findAll_cons h, findAll_found hs.find]
    rfl
  · obtain ⟨r, t₁, ms', hone, hrest, rfl⟩ := findAll_cons_eq_ok h
    obtain ⟨rfl, hs⟩ := stands_of_load hhome hfile hname hnone hu hone
    obtain ⟨hms, hs'⟩ := hs.findAll hhome hrest
    refine ⟨⟨t.modules.length, fun i hi => ?_⟩, hs'.loaded, hs'.initialized⟩
    cases i with
    | zero => rfl
    | succ i => exact hms i hi

/-- Two imports that give one module, the only one of the file, found no module by the name, and the
name is that of its module. -/
theorem Idempotent.name_of (hhome : w.home = some home) (hv : Valid t)
    (hu : Unloaded (libPath home name) t) (h : Idempotent w (libPath home name) file name t) :
    moduleName name = name ∧ t.find name = none := by
  obtain ⟨depth, m, t', hrun, honce⟩ := h.repeated 1
  obtain ⟨r, t₁, ms, hone, hrest, hms⟩ := findAll_cons_eq_ok hrun
  obtain ⟨r', t₂, ms', htwo, hnil, hms'⟩ := findAll_cons_eq_ok hrest
  cases hnil
  cases hms
  cases hms'
  rcases depth with - | depth
  · cases hone
  have hnone : t.find name = none := by
    rcases hfind : t.find name with - | m'
    · rfl
    rw [findOrLoad_found hfind] at hone
    cases hone
    rw [findOrLoad_found hfind] at htwo
    cases htwo
    rw [LoadedOnce, List.count_eq_zero.mpr hu.1] at honce
    cases honce.1
  refine ⟨?_, hnone⟩
  by_contra hname
  have hnone₁ := (hv.findOrLoad hhome hone).find_eq_none hname
  rw [findOrLoad_load hnone hhome] at hone
  rw [findOrLoad_load hnone₁ hhome] at htwo
  obtain ⟨file₁, t₃, -, himp, hr, rfl⟩ := loadFrom_eq_ok hone
  obtain ⟨file₂, t₄, -, -, hr', -⟩ := loadFrom_eq_ok htwo
  cases hr
  -- the second module is behind the first
  have hlt : t.modules.length + 1 ≤ t₃.modules.length :=
    importAll_preserves (P := fun t' => t.modules.length + 1 ≤ t'.modules.length)
      (fun h hk => le_length_findOrLoad hhome hk h) himp (by simp [ModuleTable.register])
  have heq : t.modules.length = t₃.modules.length := by
    by_cases hf : file₁.init.isSome = true
    · rw [if_pos hf] at hr'
      exact Option.some.inj hr'
    · rw [if_neg hf] at hr'
      exact Option.some.inj hr'
  exact absurd (heq ▸ hlt) (Nat.not_succ_le_self _)

/-- A file that loads is loaded once by all imports of its name exactly when the name has no dot and
no slash, and no module has the name before. -/
theorem idempotent_iff (hhome : w.home = some home)
    (hfile : w.files (libPath home name) = some file) (hv : Valid t)
    (hu : Unloaded (libPath home name) t)
    (hload : ∃ depth r, findOrLoad w depth name t = .ok r) :
    Idempotent w (libPath home name) file name t ↔
      ('.' ∉ name ∧ '/' ∉ name) ∧ t.find name = none := by
  constructor
  · intro h
    obtain ⟨hname, hnone⟩ := h.name_of hhome hv hu
    have hn := @notMem_moduleName name
    rw [hname] at hn
    exact ⟨hn, hnone⟩
  · rintro ⟨⟨hd, hs⟩, hnone⟩
    exact idempotent_of hhome hfile hu hload (moduleName_eq hd hs) hnone

end Runs

/-! ### A file with an extension -/

namespace Sample

/-- Two files without expressions. -/
def files : ModuleFiles where
  home := some ['h']
  files path :=
    if path = libPath ['h'] "math".toList ∨ path = libPath ['h'] "math.cl".toList then some {}
    else none

theorem unloaded_empty (path : List Char) : Unloaded path {} :=
  ⟨List.not_mem_nil, List.not_mem_nil⟩

theorem valid_empty : Valid {} := fun _ h => absurd h List.not_mem_nil

end Sample

open Sample

/-- Importing `math`. -/
theorem idempotent_math : Idempotent files (libPath ['h'] "math".toList) {} "math".toList {} :=
  (idempotent_iff rfl rfl valid_empty (unloaded_empty _) ⟨1, _, rfl⟩).mpr (by decide)

/-- Importing `math.cl` twice gives two modules. -/
theorem not_idempotent_math_cl :
    ¬ Idempotent files (libPath ['h'] "math.cl".toList) {} "math.cl".toList {} := by
  intro h
  exact absurd (h.name_of rfl valid_empty (unloaded_empty _)).1 (by decide)

end Module

end Gel
