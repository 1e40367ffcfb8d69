import ShadowStack.Lkm.Device
import Mathlib.Data.Finset.Basic
import Mathlib.Data.Finset.Filter

/-!
# Loading and unloading

`lkm/main.c`, `lkm/core/chrdev.c`, `lkm/core/pt_bindings.c` and the set-up of `lkm/core/debug.c`: what the
module enters in the tables of the kernel when it is loaded, and takes back when loading fails half-way or when
it is unloaded.

Those tables are one set of entries, which other drivers change as well.  Releasing an entry that is not there
is an error of the caller and has no result here.
-/

namespace ShadowStack.Lkm

open Lib

/-! ## The tables of the kernel -/

/-- What a driver can enter. -/
inductive Registration where
  /-- The probe `kp` of `resolve_symbols`. -/
  | kprobe
  /-- A device number taken by `alloc_chrdev_region`. -/
  | region (dev : Nat)
  | cdev (dev : Nat)
  | cls (name : String)
  /-- A device of a class, with its node under `/dev`. -/
  | node (cls : String) (dev : Nat)
  | debugfs (path : List String)
deriving DecidableEq, Repr

abbrev Registry := Finset Registration

/-- Whether an entry is a debugfs directory or something in it. -/
def Registration.under (dir : List String) : Registration → Bool
  | .debugfs path => dir.isPrefixOf path
  | _ => false

@[simp] theorem Registration.under_append (dir rest : List String) :
    (Registration.debugfs (dir ++ rest)).under dir = true :=
  List.isPrefixOf_iff_prefix.mpr (List.prefix_append dir rest)

/-- Release an entry. -/
def unregister (e : Registration) (k : Registry) : Option Registry := if e ∈ k then some (k.erase e) else none

theorem unregister_insert {e : Registration} {k : Registry} (h : e ∉ k) :
    unregister e (insert e k) = some k := by
  rw [unregister, if_pos (Finset.mem_insert_self e k), Finset.erase_insert h]

/-! ## Symbols -/

/-- `KERNEL_VERSION`. -/
def kernelVersion (a b c : Nat) : Nat := a * 2 ^ 16 + b * 2 ^ 8 + min c 255

/-- The function pointers of `pt_bindings.c`. -/
inductive Binding where
  | p4dAlloc | pudAlloc | pmdAlloc | pteAlloc | flushTlbMmRange | pteOffsetMapLock | pagetableFreeKernel
deriving DecidableEq, Repr

/-- What the module is compiled for: `LINUX_VERSION_CODE` and `CONFIG_ASYNC_KERNEL_PGTABLE_FREE`. -/
structure Config where
  version : Nat
  asyncFree : Bool

/-- The symbols `resolve_symbols` looks up, in turn. -/
def Config.wanted (c : Config) : List (Binding × String) :=
  [(.p4dAlloc, "__p4d_alloc"), (.pudAlloc, "__pud_alloc"), (.pmdAlloc, "__pmd_alloc"),
    (.pteAlloc, "__pte_alloc"), (.flushTlbMmRange, "flush_tlb_mm_range")] ++
  (if kernelVersion 7 0 0 ≤ c.version then [(.pteOffsetMapLock, "pte_offset_map_lock")]
    else if kernelVersion 6 4 0 ≤ c.version then [(.pteOffsetMapLock, "__pte_offset_map_lock")] else []) ++
  (if kernelVersion 6 18 7 ≤ c.version then [(.pagetableFreeKernel, "pagetable_free_kernel")] else [])

/-- The pointers that the functions of `pt_bindings.h` jump through: `my_pte_offset_map_lock` and
`my_pagetable_free_kernel` only do so on some kernels. -/
def Config.calls (c : Config) : Binding → Prop
  | .pteOffsetMapLock => kernelVersion 7 0 0 ≤ c.version ∨ kernelVersion 6 5 0 ≤ c.version
  | .pagetableFreeKernel => kernelVersion 6 18 7 ≤ c.version ∧ c.asyncFree
  | _ => True

/-- The lookups: each pointer is assigned before it is tested. -/
def bindAll (lookup : String → Nat) : List (Binding × String) → (Binding → Nat) → Int × (Binding → Nat)
  | [], bnd => (0, bnd)
  | (b, symbol) :: rest, bnd =>
      let bnd := Function.update bnd b (lookup symbol)
      if lookup symbol = 0 then (-1, bnd) else bindAll lookup rest bnd

/-- A number the kernel reports an error by. -/
abbrev KErr := {e : Int // e < 0}

/-- How the kernel answers the requests of one `insmod`. -/
structure LoadAnswers where
  /-- `boot_cpu_has(X86_FEATURE_PTI)`. -/
  pti : Bool
  /-- The address at which the probe on `kallsyms_lookup_name` is put, 0 where it is not. -/
  kprobe : Nat
  /-- `kallsyms_lookup_name`. -/
  lookup : String → Nat
  /-- `debugfs_create_dir`. -/
  debugDir : Bool
  /-- The creation of a file in that directory. -/
  debugFile : String → Bool
  /-- `alloc_chrdev_region`. -/
  region : Except KErr Nat
  /-- `cdev_add`. -/
  cdevAdd : Option KErr
  /-- `class_create`. -/
  classCreate : Option KErr
  /-- `device_create_with_groups`. -/
  deviceCreate : Option KErr

/-- `resolve_symbols`. -/
def resolveSymbols (c : Config) (ans : LoadAnswers) (bnd : Binding → Nat) (k : Registry) :
    Int × (Binding → Nat) × Registry :=
  let k := if ans.kprobe = 0 then k else insert .kprobe k
  let ksymsLookup := ans.kprobe
  let k := k.erase .kprobe
  if ksymsLookup = 0 then (-1, bnd, k)
  else
    let r := bindAll ans.lookup c.wanted bnd
    (r.1, r.2, k)

/-! ## The variables of the module -/

/-- `device.dev`, `device.class`, `debug_dir` and the function pointers.  A `debug_dir` that holds an error is
`none`. -/
structure Statics where
  dev : Nat
  cls : Option String
  debugDir : Option (List String)
  bindings : Binding → Nat

/-- The variables of a module that has just been put into memory. -/
def Statics.zero : Statics := ⟨0, none, none, fun _ ↦ 0⟩

def deviceClass : String := "shadowstack_cls"

/-! ## debugfs -/

def debugPath : List String := ["ss_dbg"]

/-- `debugfs_create_u32` and `debugfs_create_file`: nothing happens where there is no directory. -/
def debugfsCreate (parent : Option (List String)) (name : String) (ok : Bool) (k : Registry) : Registry :=
  match parent with
  | none => k
  | some dir => if ok then insert (.debugfs (dir ++ [name])) k else k

/-- `debug_init`. -/
def debugInit (ans : LoadAnswers) (k : Registry) : Option (List String) × Registry :=
  let dir := if ans.debugDir then some debugPath else none
  let k := if ans.debugDir then insert (.debugfs debugPath) k else k
  let k := debugfsCreate dir "target_pid" (ans.debugFile "target_pid") k
  let k := debugfsCreate dir "pgd_hi" (ans.debugFile "pgd_hi") k
  let k := debugfsCreate dir "pgd_lo" (ans.debugFile "pgd_lo") k
  (dir, k)

/-- `debug_exit`: `debugfs_remove_recursive`. -/
def debugExit (dir : Option (List String)) (k : Registry) : Registry :=
  match dir with
  | none => k
  | some dir => k.filter fun e ↦ !e.under dir

/-! ## The device -/

/-- `class_destroy`, which accepts `NULL`. -/
def classDestroy (cls : Option String) (k : Registry) : Option Registry :=
  match cls with
  | none => some k
  | some c => unregister (.cls c) k

/-- `device_destroy`, which does not. -/
def deviceDestroy (cls : Option String) (dev : Nat) (k : Registry) : Option Registry :=
  match cls with
  | none => none
  | some c => unregister (.node c dev) k

/-- The label `out` of `chrdev_init`. -/
def chrdevOut (err : Int) (st : Statics) (k : Registry) : Option (Int × Statics × Registry) :=
  match unregister (.region st.dev) k with
  | none => none
  | some k => some (err, { st with dev := 0 }, k)

/-- The label `out2`. -/
def chrdevOut2 (err : Int) (st : Statics) (k : Registry) : Option (Int × Statics × Registry) :=
  match unregister (.cdev st.dev) k with
  | none => none
  | some k => chrdevOut err st k

/-- The label `out3`. -/
def chrdevOut3 (err : Int) (st : Statics) (k : Registry) : Option (Int × Statics × Registry) :=
  match classDestroy st.cls k with
  | none => none
  | some k => chrdevOut2 err { st with cls := none } k

/-- `chrdev_init`. -/
def chrdevInit (ans : LoadAnswers) (st : Statics) (k : Registry) : Option (Int × Statics × Registry) :=
  match ans.region with
  | .error err => some (err, st, k)
  | .ok dev =>
      let st := { st with dev := dev }
      let k := insert (.region dev) k
      match ans.cdevAdd with
      | some err => chrdevOut err st k
      | none =>
          let k := insert (.cdev dev) k
          match ans.classCreate with
          | some err => chrdevOut2 err st k
          | none =>
              let st := { st with cls := some deviceClass }
              let k := insert (.cls deviceClass) k
              match ans.deviceCreate with
              | some err => chrdevOut3 err st k
              | none => some (0, st, insert (.node deviceClass dev) k)

/-- `chrdev_cleanup`. -/
def chrdevCleanup (st : Statics) (k : Registry) : Option (Statics × Registry) :=
  match deviceDestroy st.cls st.dev k with
  | none => none
  | some k =>
      match classDestroy st.cls k with
      | none => none
      | some k =>
          match unregister (.cdev st.dev) k with
          | none => none
          | some k =>
              match unregister (.region st.dev) k with
              | none => none
              | some k => some ({ st with cls := none, dev := 0 }, k)

/-! ## The module -/

/-- `runtime_init`. -/
def runtimeInit (c : Config) (ans : LoadAnswers) (k : Registry) : Option (Int × Statics × Registry) :=
  let st := Statics.zero
  if ans.pti then some (Errno.EINVAL.code, st, k)
  else
    let (res, bindings, k) := resolveSymbols c ans st.bindings k
    let st := { st with bindings := bindings }
    if res < 0 then some (-1, st, k)
    else
      let (dir, k) := debugInit ans k
      let st := { st with debugDir := dir }
      match chrdevInit ans st k with
      | none => none
      | some (err, st, k) =>
          if err ≠ 0 then some (err, st, debugExit st.debugDir k) else some (err, st, k)

/-- A loaded module. -/
structure Loaded where
  statics : Statics
  device : Device

/-- `runtime_exit`. -/
def runtimeExit (m : Loaded) (k : Registry) : Option (Registry × State) :=
  let k := debugExit m.statics.debugDir k
  match chrdevCleanup m.statics k with
  | none => none
  | some (_, k) => some (k, m.device.lkm.vmaFree)

/-- The kernel, with the module in it or not. -/
structure Machine where
  kernel : Registry
  loaded : Option Loaded

/-- Whether an entry is the module's. -/
def Statics.Owns (st : Statics) (e : Registration) : Prop :=
  e = .region st.dev ∨ e = .cdev st.dev ∨
    (∃ c ∈ st.cls, e = .cls c ∨ e = .node c st.dev) ∨ ∃ dir ∈ st.debugDir, e.under dir

/-- Whether the module is loaded and an entry is its own. -/
def Machine.Owns (s : Machine) (e : Registration) : Prop := ∃ m ∈ s.loaded, m.statics.Owns e

/-- What the kernel promises of its answers: a device number and a class that nothing is entered under yet, and
a new directory. -/
structure LoadAnswers.Honest (ans : LoadAnswers) (k : Registry) : Prop where
  region : ∀ dev, ans.region = .ok dev → .region dev ∉ k ∧ .cdev dev ∉ k ∧ .node deviceClass dev ∉ k
  cls : ans.classCreate = none → .cls deviceClass ∉ k
  debugDir : ans.debugDir → ∀ e ∈ k, e.under debugPath = false

/-- What happens to the kernel. -/
inductive Happening where
  | insmod (ans : LoadAnswers)
  | rmmod
  | syscall (e : Task × Syscall)
  /-- Another driver enters or releases something. -/
  | register (e : Registration)
  | release (e : Registration)

/-- One step.  A module is loaded if `runtime_init` returns 0, and unloaded while no file of it is open. -/
inductive Happens (c : Config) (s : Machine) : Happening → Machine → Prop
  | loads {ans : LoadAnswers} {st : Statics} {k : Registry} {l5 : Bool} {mms : MmId → Mm}
      {data : Page → PageData} {layouts : MmId → MmFields} (hfree : s.loaded = none)
      (hans : ans.Honest s.kernel) (hinit : runtimeInit c ans s.kernel = some (0, st, k)) :
      Happens c s (.insmod ans) ⟨k, some ⟨st, .init l5 mms data layouts⟩⟩
  | fails {ans : LoadAnswers} {err : Int} {st : Statics} {k : Registry} (hfree : s.loaded = none)
      (hans : ans.Honest s.kernel) (herr : err ≠ 0) (hinit : runtimeInit c ans s.kernel = some (err, st, k)) :
      Happens c s (.insmod ans) ⟨k, none⟩
  | rmmod {m : Loaded} {k : Registry} {lkm : State} (hm : s.loaded = some m) (hfiles : m.device.files = [])
      (hexit : runtimeExit m s.kernel = some (k, lkm)) : Happens c s .rmmod ⟨k, none⟩
  | syscall {m : Loaded} {e : Task × Syscall} {d : Device} (hm : s.loaded = some m)
      (hsys : SysStep m.device e d) :
      Happens c s (.syscall e) { s with loaded := some { m with device := d } }
  | register {e : Registration} (hnew : e ∉ s.kernel) (hprobe : e ≠ .kprobe) (hother : ¬s.Owns e) :
      Happens c s (.register e) { s with kernel := insert e s.kernel }
  | release {e : Registration} (hold : e ∈ s.kernel) (hother : ¬s.Owns e) :
      Happens c s (.release e) { s with kernel := s.kernel.erase e }

/-- The kernel before the module is loaded for the first time. -/
def Machine.boot (k : Registry) : Machine := ⟨k, none⟩

/-- What the other drivers do to the tables; the module has no part in it. -/
def others (k : Registry) : Happening → Registry
  | .register e => insert e k
  | .release e => k.erase e
  | _ => k

/-! ## Loading -/

/-- A pointer that is set stays set or is set again, and all that were wanted are set in the end. -/
theorem bindAll_ne {lookup : String → Nat} {l : List (Binding × String)} {bnd : Binding → Nat} {b : Binding}
    (h : (bindAll lookup l bnd).1 = 0) (hb : bnd b ≠ 0 ∨ ∃ symbol, (b, symbol) ∈ l) :
    (bindAll lookup l bnd).2 b ≠ 0 := by
  induction l generalizing bnd with
  | nil =>
      obtain hb | ⟨symbol, hmem⟩ := hb
      · exact hb
      · exact absurd hmem List.not_mem_nil
  | cons entry rest ih =>
      obtain ⟨b', symbol'⟩ := entry
      rw [bindAll] at h ⊢
      by_cases hzero : lookup symbol' = 0
      · rw [if_pos hzero] at h
        exact absurd h (show (-1 : Int) ≠ 0 by decide)
      · rw [if_neg hzero] at h ⊢
        apply ih h
        by_cases hbb : b = b'
        · left
          rw [hbb, Function.update_self]
          exact hzero
        · rw [Function.update_of_ne hbb]
          obtain hb | ⟨symbol, hmem⟩ := hb
          · exact .inl hb
          · obtain heq | hmem := List.mem_cons.mp hmem
            · exact absurd (congrArg Prod.fst heq) hbb
            · exact .inr ⟨symbol, hmem⟩

theorem bindAll_neg_or (lookup : String → Nat) (l : List (Binding × String)) (bnd : Binding → Nat) :
    (bindAll lookup l bnd).1 < 0 ∨ (bindAll lookup l bnd).1 = 0 := by
  induction l generalizing bnd with
  | nil => exact .inr rfl
  | cons entry rest ih =>
      rw [bindAll]
      split
      · exact .inl (show (-1 : Int) < 0 by decide)
      · exact ih _

/-- Whatever the functions jump through is looked up. -/
theorem Config.wanted_of_calls {c : Config} {b : Binding} (h : c.calls b) :
    ∃ symbol, (b, symbol) ∈ c.wanted := by
  simp only [Config.wanted, List.mem_append, List.mem_cons]
  cases b with
  | pteOffsetMapLock =>
      by_cases h7 : kernelVersion 7 0 0 ≤ c.version
      · exact ⟨"pte_offset_map_lock", .inl (.inr (by rw [if_pos h7]; exact List.mem_singleton_self _))⟩
      · have h6 : kernelVersion 6 4 0 ≤ c.version :=
          le_trans (by decide) (h.resolve_left h7)
        refine ⟨"__pte_offset_map_lock", .inl (.inr ?_)⟩
        rw [if_neg h7, if_pos h6]
        exact List.mem_singleton_self _
  | pagetableFreeKernel =>
      refine ⟨"pagetable_free_kernel", .inr ?_⟩
      rw [if_pos h.1]
      exact List.mem_singleton_self _
  | p4dAlloc => exact ⟨"__p4d_alloc", .inl (.inl (.inl rfl))⟩
  | pudAlloc => exact ⟨"__pud_alloc", .inl (.inl (.inr (.inl rfl)))⟩
  | pmdAlloc => exact ⟨"__pmd_alloc", .inl (.inl (.inr (.inr (.inl rfl))))⟩
  | pteAlloc => exact ⟨"__pte_alloc", .inl (.inl (.inr (.inr (.inr (.inl rfl)))))⟩
  | flushTlbMmRange => exact ⟨"flush_tlb_mm_range", .inl (.inl (.inr (.inr (.inr (.inr (.inl rfl))))))⟩

/-- The probe is gone again. -/
theorem resolveSymbols_registry (c : Config) (ans : LoadAnswers) (bnd : Binding → Nat) {k : Registry}
    (hk : .kprobe ∉ k) : (resolveSymbols c ans bnd k).2.2 = k := by
  rw [resolveSymbols]
  split
  · exact Finset.erase_eq_of_notMem hk
  · exact Finset.erase_insert hk

/-- Either it fails or every pointer is set that a function of the module jumps through. -/
theorem resolveSymbols_spec (c : Config) (ans : LoadAnswers) (bnd : Binding → Nat) (k : Registry) :
    (resolveSymbols c ans bnd k).1 < 0 ∨
      ∀ b, c.calls b → (resolveSymbols c ans bnd k).2.1 b ≠ 0 := by
  rw [resolveSymbols]
  split
  · exact .inl (show (-1 : Int) < 0 by decide)
  · obtain hneg | hzero := bindAll_neg_or ans.lookup c.wanted bnd
    · exact .inl hneg
    · exact .inr fun b hb ↦ bindAll_ne hzero (.inr (c.wanted_of_calls hb))

theorem debugfsCreate_mem {dir : Option (List String)} (hdir : ∀ d ∈ dir, d = debugPath) {name : String}
    {ok : Bool} {k : Registry} {e : Registration} (he : e.under debugPath = false) :
    e ∈ debugfsCreate dir name ok k ↔ e ∈ k := by
  cases dir with
  | none => exact Iff.rfl
  | some d =>
      obtain rfl := hdir d rfl
      rw [debugfsCreate]
      split
      · apply Iff.intro
        · intro hmem
          obtain rfl | hmem := Finset.mem_insert.mp hmem
          · rw [Registration.under_append] at he
            cases he
          · exact hmem
        · exact Finset.mem_insert_of_mem
      · exact Iff.rfl

/-- The directory is the one that `debug_exit` removes, and nothing outside of it changes. -/
theorem debugInit_spec (ans : LoadAnswers) (k : Registry) :
    (∀ d ∈ (debugInit ans k).1, d = debugPath ∧ ans.debugDir) ∧
      ((debugInit ans k).1 = none → (debugInit ans k).2 = k) ∧
      ∀ e : Registration, e.under debugPath = false → (e ∈ (debugInit ans k).2 ↔ e ∈ k) := by
  cases hdir : ans.debugDir with
  | false =>
      simp only [debugInit, hdir]
      exact ⟨fun d hd ↦ absurd hd (Option.not_mem_none d), fun _ ↦ rfl, fun e _ ↦ Iff.rfl⟩
  | true =>
      simp only [debugInit, hdir, if_true]
      refine ⟨fun d hd ↦ ⟨(Option.mem_some.mp hd).symm, trivial⟩, fun h ↦ absurd h (Option.some_ne_none _), ?_⟩
      intro e he
      have hd : ∀ d ∈ some debugPath, d = debugPath := fun d hd ↦ (Option.mem_some.mp hd).symm
      rw [debugfsCreate_mem hd he, debugfsCreate_mem hd he, debugfsCreate_mem hd he, Finset.mem_insert]
      apply or_iff_right
      rintro rfl
      have hself := Registration.under_append debugPath []
      rw [List.append_nil, he] at hself
      cases hself

theorem mem_debugExit {dir : Option (List String)} {k : Registry} {e : Registration} :
    e ∈ debugExit dir k ↔ e ∈ k ∧ ¬∃ d ∈ dir, e.under d := by
  cases dir with
  | none => simp [debugExit]
  | some d => simp [debugExit]

/-- The directory with all that is in it goes away again. -/
theorem debugExit_debugInit {ans : LoadAnswers} {k : Registry}
    (hnew : ans.debugDir → ∀ e ∈ k, e.under debugPath = false) :
    debugExit (debugInit ans k).1 (debugInit ans k).2 = k := by
  obtain ⟨hdir, hnone, hmem⟩ := debugInit_spec ans k
  cases hd : (debugInit ans k).1 with
  | none => exact hnone hd
  | some dir =>
      obtain ⟨rfl, hans⟩ := hdir dir hd
      ext e
      rw [debugExit, Finset.mem_filter, Bool.not_eq_true']
      apply Iff.intro
      · rintro ⟨he, hunder⟩
        exact (hmem e hunder).mp he
      · intro he
        have hunder := hnew hans e he
        exact ⟨(hmem e hunder).mpr he, hunder⟩

/-- The four entries of the device. -/
def chrdevEntries (dev : Nat) (k : Registry) : Registry :=
  insert (.node deviceClass dev) (insert (.cls deviceClass) (insert (.cdev dev) (insert (.region dev) k)))

/-- `chrdev_init` fails and leaves nothing behind, or enters all four. -/
theorem chrdevInit_spec {ans : LoadAnswers} (st : Statics) {k : Registry}
    (hregion : ∀ dev, ans.region = .ok dev → .region dev ∉ k ∧ .cdev dev ∉ k)
    (hcls : ans.classCreate = none → .cls deviceClass ∉ k) :
    (∃ err st', chrdevInit ans st k = some (err, st', k) ∧ err ≠ 0 ∧ st'.debugDir = st.debugDir) ∨
      ∃ dev, ans.region = .ok dev ∧ ans.classCreate = none ∧
        chrdevInit ans st k =
          some (0, { st with dev := dev, cls := some deviceClass }, chrdevEntries dev k) := by
  rw [chrdevInit]
  cases hr : ans.region with
  | error err => exact .inl ⟨err, st, rfl, err.2.ne, rfl⟩
  | ok dev =>
      obtain ⟨hdev, hcdev⟩ := hregion dev hr
      have hout : ∀ (err : Int) (st : Statics), st.dev = dev →
          chrdevOut err st (insert (.region dev) k) = some (err, { st with dev := 0 }, k) := by
        rintro err st rfl
        rw [chrdevOut, unregister_insert hdev]
      have hout2 : ∀ (err : Int) (st : Statics), st.dev = dev →
          chrdevOut2 err st (insert (.cdev dev) (insert (.region dev) k)) =
            some (err, { st with dev := 0 }, k) := by
        rintro err st rfl
        have hnew : .cdev st.dev ∉ insert (.region st.dev) k := by
          rw [Finset.mem_insert, not_or]
          exact ⟨Registration.noConfusion, hcdev⟩
        rw [chrdevOut2, unregister_insert hnew]
        exact hout err st rfl
      cases hadd : ans.cdevAdd with
      | some err => exact .inl ⟨err, _, hout err _ rfl, err.2.ne, rfl⟩
      | none =>
          cases hclass : ans.classCreate with
          | some err => exact .inl ⟨err, _, hout2 err _ rfl, err.2.ne, rfl⟩
          | none =>
              cases hnode : ans.deviceCreate with
              | none => exact .inr ⟨dev, rfl, rfl, rfl⟩
              | some err =>
                  have hnew : .cls deviceClass ∉ insert (.cdev dev) (insert (.region dev) k) := by
                    rw [Finset.mem_insert, Finset.mem_insert, not_or, not_or]
                    exact ⟨Registration.noConfusion, Registration.noConfusion, hcls hclass⟩
                  refine .inl ⟨err, { st with dev := 0, cls := none }, ?_, err.2.ne, rfl⟩
                  simp only [chrdevOut3, classDestroy, unregister_insert hnew]
                  exact hout2 err _ rfl

/-- The module is in the tables: apart from what is its own, they hold what other drivers entered; its device is
complete, and no function of it jumps through a null pointer. -/
structure Entered (c : Config) (st : Statics) (o k : Registry) : Prop where
  rest : ∀ e, e ∈ o ↔ e ∈ k ∧ ¬st.Owns e
  cls : st.cls = some deviceClass
  region : .region st.dev ∈ k
  cdev : .cdev st.dev ∈ k
  clsMem : .cls deviceClass ∈ k
  node : .node deviceClass st.dev ∈ k
  dir : ∀ d ∈ st.debugDir, d = debugPath
  bound : ∀ b, c.calls b → st.bindings b ≠ 0

theorem mem_chrdevEntries {dev : Nat} {k : Registry} {e : Registration} :
    e ∈ chrdevEntries dev k ↔ e = .node deviceClass dev ∨ e = .cls deviceClass ∨ e = .cdev dev ∨
      e = .region dev ∨ e ∈ k := by
  simp only [chrdevEntries, Finset.mem_insert]

theorem Statics.owns_iff {st : Statics} (hcls : st.cls = some deviceClass) {e : Registration} :
    st.Owns e ↔ e = .node deviceClass st.dev ∨ e = .cls deviceClass ∨ e = .cdev st.dev ∨
      e = .region st.dev ∨ ∃ dir ∈ st.debugDir, e.under dir := by
  simp only [Statics.Owns, hcls, Option.mem_some, exists_eq_left']
  tauto

/-- What `debug_init` and `chrdev_init` enter is the module's own, and nothing else is. -/
theorem Entered.of_init {c : Config} {ans : LoadAnswers} {k k' : Registry} {dir : Option (List String)}
    {bindings : Binding → Nat} {dev : Nat} (hans : ans.Honest k) (hdir : ∀ d ∈ dir, d = debugPath ∧ ans.debugDir)
    (hnone : dir = none → k' = k)
    (hmem : ∀ e : Registration, e.under debugPath = false → (e ∈ k' ↔ e ∈ k))
    (hdev : ans.region = .ok dev) (hcls : ans.classCreate = none) (hbound : ∀ b, c.calls b → bindings b ≠ 0) :
    Entered c ⟨dev, some deviceClass, dir, bindings⟩ k (chrdevEntries dev k') where
  rest e := by
    obtain ⟨hregion, hcdev, hnode⟩ := hans.region dev hdev
    rw [Statics.owns_iff rfl, mem_chrdevEntries]
    apply Iff.intro
    · intro he
      have hunder : ∀ d ∈ dir, e.under d = false := by
        intro d hd
        obtain ⟨rfl, hnew⟩ := hdir d hd
        exact hans.debugDir hnew e he
      have hk' : e ∈ k' := by
        cases hd : dir with
        | none => rwa [hnone hd]
        | some d =>
            obtain ⟨rfl, -⟩ := hdir d hd
            exact (hmem e (hunder _ hd)).mpr he
      refine ⟨.inr (.inr (.inr (.inr hk'))), ?_⟩
      rintro (rfl | rfl | rfl | rfl | ⟨d, hd, htrue⟩)
      · exact hnode he
      · exact hans.cls hcls he
      · exact hcdev he
      · exact hregion he
      · rw [hunder d hd] at htrue
        cases htrue
    · rintro ⟨rfl | rfl | rfl | rfl | he, hown⟩
      · exact absurd (.inl rfl) hown
      · exact absurd (.inr (.inl rfl)) hown
      · exact absurd (.inr (.inr (.inl rfl))) hown
      · exact absurd (.inr (.inr (.inr (.inl rfl)))) hown
      · cases hd : dir with
        | none => rwa [← hnone hd]
        | some d =>
            obtain ⟨rfl, -⟩ := hdir d hd
            apply (hmem e _).mp he
            rw [← Bool.not_eq_true]
            exact fun hunder ↦ hown (.inr (.inr (.inr (.inr ⟨_, hd, hunder⟩))))
  cls := rfl
  region := mem_chrdevEntries.mpr (.inr (.inr (.inr (.inl rfl))))
  cdev := mem_chrdevEntries.mpr (.inr (.inr (.inl rfl)))
  clsMem := mem_chrdevEntries.mpr (.inr (.inl rfl))
  node := mem_chrdevEntries.mpr (.inl rfl)
  dir d hd := (hdir d hd).1
  bound := hbound

/-- **Loading.**  `runtime_init` comes back; it fails and leaves the tables as they were, or the module is in
them. -/
theorem runtimeInit_spec {c : Config} {ans : LoadAnswers} {k : Registry} (hk : .kprobe ∉ k)
    (hans : ans.Honest k) :
    (∃ err st, runtimeInit c ans k = some (err, st, k) ∧ err ≠ 0) ∨
      ∃ st k', runtimeInit c ans k = some (0, st, k') ∧ Entered c st k k' := by
  rw [runtimeInit]
  cases ans.pti with
  | true => exact .inl ⟨_, _, rfl, show (-22 : Int) ≠ 0 by decide⟩
  | false =>
      have hreg := resolveSymbols_registry c ans Statics.zero.bindings hk
      have hbound := resolveSymbols_spec c ans Statics.zero.bindings k
      generalize resolveSymbols c ans Statics.zero.bindings k = r at hreg hbound
      obtain ⟨res, bindings, k'⟩ := r
      obtain rfl : k' = k := hreg
      by_cases hres : res < 0
      · simp only [if_pos hres]
        exact .inl ⟨-1, _, rfl, show (-1 : Int) ≠ 0 by decide⟩
      · simp only [if_neg hres]
        replace hbound := hbound.resolve_left hres
        have hexit := debugExit_debugInit hans.debugDir
        obtain ⟨hdir, hnone, hmem⟩ := debugInit_spec ans k'
        generalize debugInit ans k' = d at hexit hdir hnone hmem
        obtain ⟨dir, k₁⟩ := d
        have hregion : ∀ dev, ans.region = .ok dev → .region dev ∉ k₁ ∧ .cdev dev ∉ k₁ := fun dev hdev ↦
          ⟨fun h ↦ (hans.region dev hdev).1 ((hmem _ rfl).mp h),
            fun h ↦ (hans.region dev hdev).2.1 ((hmem _ rfl).mp h)⟩
        have hcls : ans.classCreate = none → .cls deviceClass ∉ k₁ := fun hnone h ↦
          hans.cls hnone ((hmem _ rfl).mp h)
        obtain ⟨err, st, hinit, herr, hst⟩ | ⟨dev, hdev, hnocls, hinit⟩ :=
          chrdevInit_spec { Statics.zero with bindings := bindings, debugDir := dir } hregion hcls
        · left
          refine ⟨err, st, ?_, herr⟩
          simp only [hinit, if_pos herr, hst]
          exact congrArg (fun k ↦ some (err, st, k)) hexit
        · right
          refine ⟨⟨dev, some deviceClass, dir, bindings⟩, chrdevEntries dev k₁, ?_,
            .of_init hans hdir hnone hmem hdev hnocls hbound⟩
          simp only [hinit]
          rw [if_neg Bool.false_ne_true, if_neg fun h ↦ h rfl]

/-- **Unloading.**  `runtime_exit` releases the entries of the module, which are all there, and nothing else. -/
theorem Entered.runtimeExit {c : Config} {m : Loaded} {o k : Registry} (h : Entered c m.statics o k) :
    runtimeExit m k = some (o, m.device.lkm.vmaFree) := by
  have hkept : ∀ e ∈ k, (∀ dir, e.under dir = false) → e ∈ debugExit m.statics.debugDir k := fun e he hnot ↦
    mem_debugExit.mpr ⟨he, by rintro ⟨d, -, hunder⟩; rw [hnot d] at hunder; cases hunder⟩
  have hnode := hkept _ h.node fun _ ↦ rfl
  have hcls : .cls deviceClass ∈ (debugExit m.statics.debugDir k).erase (.node deviceClass m.statics.dev) :=
    Finset.mem_erase.mpr ⟨Registration.noConfusion, hkept _ h.clsMem fun _ ↦ rfl⟩
  have hcdev : .cdev m.statics.dev ∈
      ((debugExit m.statics.debugDir k).erase (.node deviceClass m.statics.dev)).erase (.cls deviceClass) := by
    rw [Finset.mem_erase, Finset.mem_erase]
    exact ⟨Registration.noConfusion, Registration.noConfusion, hkept _ h.cdev fun _ ↦ rfl⟩
  have hregion : .region m.statics.dev ∈ (((debugExit m.statics.debugDir k).erase
      (.node deviceClass m.statics.dev)).erase (.cls deviceClass)).erase (.cdev m.statics.dev) := by
    rw [Finset.mem_erase, Finset.mem_erase, Finset.mem_erase]
    exact ⟨Registration.noConfusion, Registration.noConfusion, Registration.noConfusion,
      hkept _ h.region fun _ ↦ rfl⟩
  simp only [Lkm.runtimeExit, chrdevCleanup, deviceDestroy, classDestroy, unregister, h.cls, if_pos hnode,
    if_pos hcls, if_pos hcdev, if_pos hregion, Option.some.injEq, Prod.mk.injEq, and_true]
  ext e
  rw [h.rest, Statics.owns_iff h.cls]
  simp only [Finset.mem_erase, mem_debugExit, not_or, ne_eq]
  tauto

/-- Other drivers do not disturb it. -/
theorem Entered.insert {c : Config} {st : Statics} {o k : Registry} {e : Registration}
    (h : Entered c st o k) (hother : ¬st.Owns e) : Entered c st (insert e o) (insert e k) where
  rest e' := by
    simp only [Finset.mem_insert, h.rest e']
    apply Iff.intro
    · rintro (rfl | ⟨hk, hown⟩)
      · exact ⟨.inl rfl, hother⟩
      · exact ⟨.inr hk, hown⟩
    · rintro ⟨rfl | hk, hown⟩
      · exact .inl rfl
      · exact .inr ⟨hk, hown⟩
  cls := h.cls
  region := Finset.mem_insert_of_mem h.region
  cdev := Finset.mem_insert_of_mem h.cdev
  clsMem := Finset.mem_insert_of_mem h.clsMem
  node := Finset.mem_insert_of_mem h.node
  dir := h.dir
  bound := h.bound

theorem Entered.erase {c : Config} {st : Statics} {o k : Registry} {e : Registration}
    (h : Entered c st o k) (hother : ¬st.Owns e) : Entered c st (o.erase e) (k.erase e) := by
  have hown := (Statics.owns_iff h.cls).not.mp hother
  simp only [not_or] at hown
  obtain ⟨hnode, hcls, hcdev, hregion, -⟩ := hown
  constructor
  · intro e'
    rw [Finset.mem_erase, Finset.mem_erase, h.rest e', and_assoc]
  · exact h.cls
  · exact Finset.mem_erase.mpr ⟨Ne.symm hregion, h.region⟩
  · exact Finset.mem_erase.mpr ⟨Ne.symm hcdev, h.cdev⟩
  · exact Finset.mem_erase.mpr ⟨Ne.symm hcls, h.clsMem⟩
  · exact Finset.mem_erase.mpr ⟨Ne.symm hnode, h.node⟩
  · exact h.dir
  · exact h.bound

/-! ## Runs -/

/-- No call of the device changes the allocator. -/
theorem SysStep.lkm_eq {d d' : Device} {e : Task × Syscall} (h : SysStep d e d') (hno : NoAllocator d.lkm) :
    d'.lkm = d.lkm := by
  cases h with
  | openFile => rfl
  | closeFile => rfl
  | ioctl hmm hfile hres =>
      obtain ⟨-, hsame | ⟨call, hcall, heq⟩⟩ := Device.chrdevIoctl_lkm hres
      · exact hsame
      · rw [heq, hno.exec hmm hcall]

/-- The kernel in terms of what the other drivers did. -/
structure Alongside (c : Config) (o : Registry) (s : Machine) : Prop where
  kprobe : .kprobe ∉ o
  free : s.loaded = none → s.kernel = o
  entered : ∀ m, s.loaded = some m → Entered c m.statics o s.kernel
  lkm : ∀ m, s.loaded = some m → NoAllocator m.device.lkm ∧ m.device.lkm.glSa = [] ∧ m.device.lkm.held = ∅

theorem Alongside.step {c : Config} {o : Registry} {s s' : Machine} {i : Happening} (h : Alongside c o s)
    (hs : Happens c s i s') : Alongside c (others o i) s' := by
  cases hs with
  | @loads ans st k l5 mms data layouts hfree hans hinit =>
      have hk := h.free hfree
      rw [hk] at hans hinit
      obtain ⟨err, st', hfail, herr⟩ | ⟨st', k', hload, hentered⟩ := runtimeInit_spec h.kprobe hans
      · rw [hfail] at hinit
        exact absurd (congrArg Prod.fst (Option.some.inj hinit)) herr
      · rw [hload] at hinit
        obtain ⟨-, rfl, rfl⟩ := Prod.mk.inj (Option.some.inj hinit)
        exact ⟨h.kprobe, fun h ↦ absurd h (Option.some_ne_none _),
          fun m hm ↦ by rwa [← Option.some.inj hm],
          fun m hm ↦ by rw [← Option.some.inj hm]; exact ⟨fun _ ↦ rfl, rfl, rfl⟩⟩
  | @fails ans err st k hfree hans herr hinit =>
      have hk := h.free hfree
      rw [hk] at hans hinit
      obtain ⟨err', st', hfail, -⟩ | ⟨st', k', hload, -⟩ := runtimeInit_spec h.kprobe hans
      · rw [hfail] at hinit
        obtain ⟨-, -, rfl⟩ := Prod.mk.inj (Option.some.inj hinit)
        exact ⟨h.kprobe, fun _ ↦ rfl, fun m hm ↦ absurd hm.symm (Option.some_ne_none m),
          fun m hm ↦ absurd hm.symm (Option.some_ne_none m)⟩
      · rw [hload] at hinit
        exact absurd (congrArg Prod.fst (Option.some.inj hinit)).symm herr
  | @rmmod m k lkm hm hfiles hexit =>
      rw [(h.entered m hm).runtimeExit] at hexit
      obtain ⟨rfl, -⟩ := Prod.mk.inj (Option.some.inj hexit)
      exact ⟨h.kprobe, fun _ ↦ rfl, fun m hm ↦ absurd hm.symm (Option.some_ne_none m),
        fun m hm ↦ absurd hm.symm (Option.some_ne_none m)⟩
  | @syscall m e d hm hsys =>
      obtain ⟨hno, hgl, hheld⟩ := h.lkm m hm
      have hlkm := hsys.lkm_eq hno
      refine ⟨h.kprobe, fun h ↦ absurd h (Option.some_ne_none _), ?_, ?_⟩
      · rintro m' hm'
        rw [← Option.some.inj hm']
        exact h.entered m hm
      · rintro m' hm'
        rw [← Option.some.inj hm', hlkm]
        exact ⟨hno, hgl, hheld⟩
  | @register e hnew hprobe hother =>
      refine ⟨?_, fun hfree ↦ congrArg (insert e) (h.free hfree), fun m hm ↦ ?_, h.lkm⟩
      · rw [others, Finset.mem_insert, not_or]
        exact ⟨hprobe.symm, h.kprobe⟩
      · exact (h.entered m hm).insert fun hown ↦ hother ⟨m, hm, hown⟩
  | @release e hold hother =>
      refine ⟨fun hmem ↦ h.kprobe (Finset.mem_of_mem_erase hmem), fun hfree ↦ ?_, fun m hm ↦ ?_, h.lkm⟩
      · exact congrArg (Finset.erase · e) (h.free hfree)
      · exact (h.entered m hm).erase fun hown ↦ hother ⟨m, hm, hown⟩

theorem Alongside.of_run {c : Config} {k₀ : Registry} (hk₀ : .kprobe ∉ k₀) {es : List Happening} {s : Machine}
    (h : Run (Happens c) (.boot k₀) es s) : Alongside c (es.foldl others k₀) s := by
  induction h with
  | nil =>
      exact ⟨hk₀, fun _ ↦ rfl, fun m hm ↦ absurd hm.symm (Option.some_ne_none m),
        fun m hm ↦ absurd hm.symm (Option.some_ne_none m)⟩
  | snoc _ hs ih =>
      rw [List.foldl_append]
      exact ih.step hs

/-- **Loading and unloading leave no trace.**  After every run of loads, successful or failed, unloads, system
calls and registrations of other drivers: without the module the tables are what the other drivers alone would
have made of them.  With it they hold its four device entries and those of the others, and it can be unloaded,
which gives the tables of the others again and leaves it without a page.  And `runtime_init` always comes back,
with 0 or with the tables as they were. -/
theorem run_registry {c : Config} {k₀ : Registry} {es : List Happening} {s : Machine} (hk₀ : .kprobe ∉ k₀)
    (h : Run (Happens c) (.boot k₀) es s) :
    (s.loaded = none → s.kernel = es.foldl others k₀ ∧ ∀ ans : LoadAnswers, ans.Honest s.kernel →
      ∃ err st k, runtimeInit c ans s.kernel = some (err, st, k) ∧ (err ≠ 0 → k = s.kernel)) ∧
    ∀ m, s.loaded = some m →
      (∀ e, e ∈ es.foldl others k₀ ↔ e ∈ s.kernel ∧ ¬s.Owns e) ∧
      chrdevEntries m.statics.dev ∅ ⊆ s.kernel ∧
      ∃ lkm, runtimeExit m s.kernel = some (es.foldl others k₀, lkm) ∧ lkm.held = ∅ := by
  have halong := Alongside.of_run hk₀ h
  refine ⟨fun hfree ↦ ⟨halong.free hfree, fun ans hans ↦ ?_⟩, fun m hm ↦ ?_⟩
  · have hk : .kprobe ∉ s.kernel := by
      rw [halong.free hfree]
      exact halong.kprobe
    obtain ⟨err, st, hfail, -⟩ | ⟨st, k, hload, -⟩ := runtimeInit_spec hk hans
    · exact ⟨err, st, s.kernel, hfail, fun _ ↦ rfl⟩
    · exact ⟨0, st, k, hload, fun h ↦ absurd rfl h⟩
  · have hentered := halong.entered m hm
    obtain ⟨-, hgl, hheld⟩ := halong.lkm m hm
    have howns : ∀ e, s.Owns e ↔ m.statics.Owns e := by
      intro e
      apply Iff.intro
      · rintro ⟨m', hm', hown⟩
        rw [Option.mem_def, hm] at hm'
        rwa [Option.some.inj hm']
      · exact fun hown ↦ ⟨m, hm, hown⟩
    refine ⟨fun e ↦ ?_, fun e he ↦ ?_, m.device.lkm.vmaFree, hentered.runtimeExit, ?_⟩
    · rw [howns]
      exact hentered.rest e
    · obtain rfl | rfl | rfl | rfl | he := mem_chrdevEntries.mp he
      · exact hentered.node
      · exact hentered.clsMem
      · exact hentered.cdev
      · exact hentered.region
      · exact absurd he (Finset.notMem_empty e)
    · rw [State.vmaFree, hgl]
      exact hheld

/-- A kernel of version 6.8 that grants everything to a module and gives it the device number 240. -/
def grantingKernel : LoadAnswers :=
  ⟨false, 0x1000, fun _ ↦ 0x2000, true, fun _ ↦ true, .ok 240, none, none, none⟩

def config68 : Config := ⟨kernelVersion 6 8 0, false⟩

/-- The module after this kernel has loaded it. -/
def firstLoaded : Loaded where
  statics := ⟨240, some deviceClass, some debugPath, (bindAll (fun _ ↦ 0x2000) config68.wanted fun _ ↦ 0).2⟩
  device := .init false (fun _ ↦ textMm) (fun _ _ ↦ 0) fun _ ↦ ⟨[], 0, 0, 0, 0, 0, []⟩

def firstMachine : Machine := ⟨chrdevEntries 240 (debugInit grantingKernel ∅).2, some firstLoaded⟩

theorem run_firstMachine : Run (Happens config68) (.boot ∅) [.insmod grantingKernel] firstMachine := by
  apply Run.single
  apply Happens.loads rfl
  · refine ⟨fun dev _ ↦ ⟨?_, ?_, ?_⟩, fun _ ↦ ?_, fun _ e he ↦ absurd he (Finset.notMem_empty e)⟩ <;>
      exact Finset.notMem_empty _
  · rfl

/-- After this load, the module can be unloaded and leaves the tables empty again. -/
theorem run_registry_firstMachine : ∃ lkm, runtimeExit firstLoaded firstMachine.kernel = some (∅, lkm) ∧
    lkm.held = ∅ :=
  ((run_registry (Finset.notMem_empty _) run_firstMachine).2 firstLoaded rfl).2.2

/-- **No jump through a null pointer.**  Whenever the module is loaded, on whatever kernel it was compiled for,
every pointer is set that one of its page-table functions jumps through. -/
theorem run_bound {c : Config} {k₀ : Registry} {es : List Happening} {s : Machine} {m : Loaded} {b : Binding}
    (hk₀ : .kprobe ∉ k₀) (h : Run (Happens c) (.boot k₀) es s) (hm : s.loaded = some m) (hb : c.calls b) :
    m.statics.bindings b ≠ 0 :=
  ((Alongside.of_run hk₀ h).entered m hm).bound b hb

theorem run_bound_firstMachine : firstLoaded.statics.bindings .pteOffsetMapLock ≠ 0 :=
  run_bound (Finset.notMem_empty _) run_firstMachine rfl (.inr (by decide))

end ShadowStack.Lkm
