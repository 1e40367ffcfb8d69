import ShadowStack.Lkm.Invariant

/-!
# Consistency of complete calls

The invariant of the last module, read as a user of the module would state it: reference counts
count, the callback runs once and finds an empty table, every page the module holds sits at one
place of one pagelist, and every pagelist is either on the free list or with one thread.

The page that `sa_tlb_add` obtains for a release batch is the exception.  Nothing ever frees it,
so a run that reaches it holds a page that is in no pagelist.
-/

namespace ShadowStack.Lkm

open Lib State

variable {s : State}

/-- Page `p` is at position `i` of pagelist `pl`. -/
def State.PageAt (s : State) (p : Page) (pl : PlPtr) (i : Nat) : Prop :=
  ∃ l, s.pagelists pl = some l ∧ l.pages[i]? = some p

/-- The descriptor at `id` of allocator `a` has pagelist `pl`. -/
def State.Holds (s : State) (a : AllocPtr) (id : Nat) (pl : PlPtr) : Prop :=
  ∃ d t, s.allocs a = some d ∧ d.threads.load id = some t ∧ t.pagelist = pl

/-- Reference counts, callbacks, addresses and pages are as they should be. -/
structure Consistent (s : State) : Prop where
  /-- The count of an allocator: its descriptors, and one while it is registered. -/
  kref : ∀ a d, s.allocs a = some d →
    d.kref = d.threads.count + if s.allocFind d.tgid = some a then 1 else 0
  /-- What is registered exists. -/
  registered : ∀ g a, s.allocFind g = some a → ∃ d, s.allocs a = some d ∧ d.tgid = g
  /-- `alloc_destroy_callback` runs at most once for an allocator, -/
  once : (s.callbacks.map Prod.fst).Nodup
  /-- and only with an empty table. -/
  empty : ∀ x ∈ s.callbacks, x.2 = .empty
  addr : ∀ a d id t, s.allocs a = some d → d.threads.load id = some t → t.addr = idToAddr id
  /-- A page that is held is at one position of one pagelist. -/
  page : ∀ p ∈ s.held, ∃! x : PlPtr × Nat, s.PageAt p x.1 x.2
  /-- A pagelist is on `gl_sa` once or with exactly one descriptor, not both. -/
  owner : ∀ pl l, s.pagelists pl = some l → (s.glSa.count pl = 1 ∧ ∀ a id, ¬ s.Holds a id pl) ∨
    (s.glSa.count pl = 0 ∧ ∃! x : AllocPtr × Nat, s.Holds x.1 x.2 pl)
  size : ∀ pl l, s.pagelists pl = some l → l.pages.length = ssPages

theorem State.holds_iff {own : List PlPtr} {a : AllocPtr} {id : Nat} {pl : PlPtr} :
    s.Holds a id pl ↔ s.Owns own (.desc a id) pl := by
  simp only [Holds, Owns, threads]
  cases s.allocs a <;> simp

/-- Between calls, a pagelist on the free list is with no descriptor, and any other with one. -/
theorem OwnersOk.split (h : OwnersOk s []) {pl : PlPtr} (hpl : s.pagelists pl ≠ none) :
    (s.glSa.count pl = 1 ∧ ∀ a id, ¬ s.Holds a id pl) ∨
      (s.glSa.count pl = 0 ∧ ∃! x : AllocPtr × Nat, s.Holds x.1 x.2 pl) := by
  obtain ⟨o, ho⟩ := (h.owned pl).mpr hpl
  cases o with
  | gl =>
      refine .inl ⟨List.count_eq_one_of_mem h.glNodup ho, fun a id hc ↦ ?_⟩
      simpa using h.unique pl .gl (.desc a id) ho (holds_iff.mp hc)
  | desc a id =>
      refine .inr ⟨List.count_eq_zero.mpr fun hc ↦ ?_, (a, id), holds_iff.mpr ho, ?_⟩
      · simpa using h.unique pl .gl (.desc a id) hc ho
      · rintro ⟨b, i⟩ hb
        have heq := h.unique pl _ _ (holds_iff.mp hb) ho
        simpa using heq
  | call => simp [Owns] at ho

/-- A page is in a pagelist at most at one position. -/
theorem PagesOk.position (h : PagesOk ∅ s) {p : Page} (hp : p ∈ s.held) :
    ∃! x : PlPtr × Nat, s.PageAt p x.1 x.2 := by
  obtain ⟨pl, l, hl, hmem⟩ := h.stray p hp (Set.notMem_empty p)
  obtain ⟨i, hi⟩ := List.mem_iff_getElem?.mp hmem
  refine ⟨(pl, i), ⟨l, hl, hi⟩, ?_⟩
  rintro ⟨pl', i'⟩ ⟨l', hl', hi'⟩
  obtain rfl : pl' = pl := h.disjoint pl' l' pl l p hl' hl (List.mem_of_getElem? hi') hmem
  obtain rfl : l' = l := Option.some.inj (hl'.symm.trans hl)
  have hlt : i < l'.pages.length := by
    by_contra hc
    rw [List.getElem?_eq_none (by omega)] at hi
    cases hi
  rw [(List.getElem?_inj hlt (h.nodup pl' l' hl)).mp (hi.trans hi'.symm)]

/-- The invariant makes a state consistent. -/
theorem Inv.consistent (h : Inv ∅ s []) : Consistent s where
  kref := h.alloc.kref
  registered _ _ hf := h.alloc.find hf
  once := h.alloc.once
  empty x hx := (h.alloc.callback x hx).1
  addr := h.alloc.addr
  page _ hp := h.pages.position hp
  owner pl l hl := h.owners.split (by rw [hl]; simp)
  size := h.pages.size

/-- **Every state reached by complete calls is consistent**, as long as no call obtains a page for
a release batch. -/
theorem run_consistent {l5 : Bool} {mms : MmId → Mm} {data : Page → PageData} {es : List Event}
    (h : Run (Guarded (fun s e ↦ Admissible s e ∧ NoBatch s e) Step) (State.init l5 mms data) es s) :
    Consistent s :=
  (Inv.of_quiet_run h).consistent

/-! ## The batch page -/

/-- The walk over an address space with a PTE table below the first slots takes the page it is
offered. -/
theorem State.teardown_takes {ans : Answers} {mm : Mm} {k : Nat} {p : Page} (hk : k < 512)
    (hmm : mm.HasPteTable k) (hans : ans.nowait = [some p]) :
    p ∈ (s.teardown mm ans).2.taken := by
  unfold teardown
  refine freePgdRange_zero_reaches (I := fun w ↦ p ∈ w.taken) (J := Walk.Offered p)
    (Walk.closed_taken s.l5 p) (Walk.closed_offered s.l5 p) hk hmm (fun w pte hw ↦ ?_)
    (.inl ⟨rfl, hans⟩)
  exact Walk.Offered.tlbFreePte (w := w.logClear s.l5 .pmd (k * 2 ^ 21)) hw _ _

/-- Destroying an allocator without threads, on such an address space, leaves the module with that
page. -/
theorem State.allocDestroy_held (ans : Answers) {a : AllocPtr} {d : AllocatorDesc} {m : MmId}
    {k : Nat} {p : Page} (hd : s.allocs a = some d) (hkref : d.kref = 1) (hm : d.mm = some m)
    (hk : k < 512) (hmm : (s.mms m).HasPteTable k) (hans : ans.nowait = [some p]) :
    p ∈ (s.allocDestroy a ans).held ∧ (s.allocDestroy a ans).pagelists = s.pagelists := by
  simp only [allocDestroy, hd, allocPut, hkref, ↓reduceIte, allocDestroyCallback, hm]
  refine ⟨Finset.mem_union_right _ (List.mem_toFinset.mpr ?_), trivial⟩
  exact teardown_takes hk hmm hans

/-- The page tables of a process with one page, in the text segment at `0x400000`. -/
def textMm : Mm where
  pgd g := if g = 0 then .table ⟨1, fun i ↦ if i = 0 then .table ⟨2, fun j ↦ if j = 0 then
    .table ⟨3, fun k ↦ if k = 2 then .table ⟨4, fun _ ↦ .present 0⟩ else .none⟩ else .none⟩
      else .none⟩ else .none
  nrPtes := 1
  nrPmds := 1
  nrPuds := 1

theorem textMm_hasPteTable : textMm.HasPteTable 2 := ⟨_, _, _, _, rfl, rfl, rfl, rfl⟩

/-- A kernel that grants every request but has no pages to hand out. -/
def noPages : Answers where
  allocDesc := true
  xaMem := true
  thread := true
  pagelist := true
  kvcalloc := true
  high := []
  bulk := []
  single := []
  tables _ _ := some 0
  nowait := []

theorem obtained_noPages (nr : Nat) (nowait : List (Option Page)) :
    obtained { noPages with nowait := nowait } nr = [] := by
  simp [obtained, noPages, allocSingle, allocBulk, allocHigh]

theorem fresh_noPages (s : State) (nowait : List (Option Page)) :
    Answers.Fresh s { noPages with nowait := nowait } := by
  constructor <;> simp [obtained_noPages]

/-- `alloc_create` for process 1, in address space 0. -/
def createEvent : Event := ⟨⟨1, 1, some 0⟩, .allocCreate 1 (some 0), noPages⟩

/-- `alloc_destroy` for the first allocator. -/
def destroyEvent (nowait : List (Option Page)) : Event :=
  ⟨⟨1, 1, some 0⟩, .allocDestroy 0, { noPages with nowait := nowait }⟩

/-- The module with one allocator, all address spaces being `textMm`. -/
def created : State := (exec (State.init false (fun _ ↦ textMm) fun _ _ ↦ 0) createEvent).2

theorem created_eq : created = { State.init false (fun _ ↦ textMm) fun _ _ ↦ 0 with
    saAllocators := Xarray.empty.set 1 (.entry 0)
    allocs := Function.update (fun _ ↦ none) 0 (some ⟨1, some 0, .empty, 0, 1⟩)
    nextAlloc := 1 } := by
  simp [created, exec, createEvent, allocCreate, noPages, State.init]

theorem created_allocs : created.allocs 0 = some ⟨1, some 0, .empty, 0, 1⟩ := by
  simp [created_eq]

theorem admissible_createEvent (s : State) : Admissible s createEvent :=
  ⟨fresh_noPages s [], by simp [createEvent]⟩

theorem noBatch_createEvent (s : State) : NoBatch s createEvent := by
  simp [NoBatch, createEvent]

theorem admissible_destroyEvent (nowait : List (Option Page)) :
    Admissible created (destroyEvent nowait) :=
  ⟨fresh_noPages _ nowait, by simp [created_eq, State.init]⟩

/-- A run that creates an allocator and destroys it, with the batch page refused. -/
theorem run_consistent_refused : Consistent (exec created (destroyEvent [none])).2 :=
  run_consistent ((Run.single ⟨⟨admissible_createEvent _, noBatch_createEvent _⟩, rfl⟩).snoc
    ⟨⟨admissible_destroyEvent [none], fun _ _ _ _ _ _ _ ↦ .inr (by simp [destroyEvent])⟩, rfl⟩)

/-- With the page granted, the same run leaves a page in no pagelist: consistency fails on some
run of admissible calls. -/
theorem not_run_consistent :
    ¬ ∀ (l5 : Bool) (mms : MmId → Mm) (data : Page → PageData) (es : List Event) (s : State),
      Run (Guarded Admissible Step) (State.init l5 mms data) es s → Consistent s := by
  intro h
  have hrun : Run (Guarded Admissible Step) (State.init false (fun _ ↦ textMm) fun _ _ ↦ 0)
      [createEvent, destroyEvent [some 7]] (exec created (destroyEvent [some 7])).2 :=
    (Run.single ⟨admissible_createEvent _, rfl⟩).snoc ⟨admissible_destroyEvent [some 7], rfl⟩
  obtain ⟨hheld, hpls⟩ := allocDestroy_held (destroyEvent [some 7]).ans created_allocs
    rfl rfl (k := 2) (p := 7) (by decide) (by rw [created_eq]; exact textMm_hasPteTable) rfl
  obtain ⟨⟨pl, i⟩, ⟨l, hl, -⟩, -⟩ := (h _ _ _ _ _ hrun).page 7 hheld
  have hnone : (exec created (destroyEvent [some 7])).2.pagelists pl = none := by
    have hpl := congrFun hpls pl
    rw [created_eq] at hpl
    exact hpl
  rw [hnone] at hl
  cases hl

end ShadowStack.Lkm
