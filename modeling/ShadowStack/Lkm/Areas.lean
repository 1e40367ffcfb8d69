import ShadowStack.Lkm.Consistent

/-!
# Shadow areas

Where the areas lie, what mapping one does to the page tables, and that an area `sa_alloc` handed
out can be given back.  The range of `xa_alloc` includes `THREADS_LIMIT` itself, one id more than
there are areas in the window: when all others are taken, `sa_alloc` succeeds with `SS_END`.
-/

namespace ShadowStack.Lkm

open Lib State

/-! ## Addresses -/

section Addresses

variable {id id' : Nat}

theorem ssStart_le_idToAddr (h : id ≤ threadsLimit) : ssStart ≤ idToAddr id := by
  rw [idToAddr_eq h]
  exact Nat.le_add_right _ _

/-- An area lies in the window exactly if its id is below the limit. -/
theorem idToAddr_le_iff (h : id ≤ threadsLimit) :
    idToAddr id + ssSize ≤ ssEnd ↔ id < threadsLimit := by
  rw [idToAddr_eq h, threadsLimit_eq]
  rw [threadsLimit_eq] at h
  simp only [ssStart, ssEnd, ssSize]
  omega

theorem addrToId_idToAddr (h : id ≤ threadsLimit) : addrToId (idToAddr id) = id := by
  rw [idToAddr_eq h]
  exact addrToId_eq h le_rfl (Nat.lt_add_of_pos_right (by decide))

theorem validAddr_idToAddr (h : id < threadsLimit) : ValidAddr (idToAddr id) := by
  have hle := (idToAddr_le_iff h.le).mpr h
  refine ⟨ssStart_le_idToAddr h.le, lt_of_lt_of_le (Nat.lt_add_of_pos_right (by decide)) hle, ?_⟩
  rw [idToAddr_eq h.le, Nat.add_sub_cancel_left]
  exact Nat.mul_mod_left _ _

/-- Areas of different ids do not overlap. -/
theorem idToAddr_disjoint (h : id ≤ threadsLimit) (h' : id' ≤ threadsLimit) (hne : id ≠ id') :
    idToAddr id + ssSize ≤ idToAddr id' ∨ idToAddr id' + ssSize ≤ idToAddr id := by
  rw [idToAddr_eq h, idToAddr_eq h']
  simp only [ssSize]
  omega

theorem idToAddr_add_lt (h : id ≤ threadsLimit) : idToAddr id + ssSize < 2 ^ 64 := by
  rw [idToAddr_eq h]
  rw [threadsLimit_eq] at h
  simp only [ssStart, ssSize]
  omega

/-- All addresses from the window on belong to one pgd table. -/
theorem block_eq {a b : Nat} (l5 : Bool) (ha : ssStart ≤ a) (ha' : a < 2 ^ 64) (hb : ssStart ≤ b)
    (hb' : b < 2 ^ 64) :
    a / (ptrs * 2 ^ pgdirShift l5) = b / (ptrs * 2 ^ pgdirShift l5) := by
  simp only [ssStart] at ha hb
  cases l5 with
  | false =>
      simp only [ptrs, pgdirShift, Bool.false_eq_true, ↓reduceIte]
      omega
  | true =>
      simp only [ptrs, pgdirShift, ↓reduceIte]
      omega

end Addresses

/-! ## Mapping an area -/

/-- An area as a range that `map_range` can work on: page aligned, not wrapping, below one top-level
table. -/
structure AreaRange (l5 : Bool) (id : Nat) : Prop where
  aligned : idToAddr id % pageSize = 0
  aligned_end : (idToAddr id + ssSize) % pageSize = 0
  lt : idToAddr id < idToAddr id + ssSize
  lt_top : idToAddr id + ssSize < 2 ^ 64
  block : idToAddr id / (ptrs * 2 ^ pgdirShift l5) =
    (idToAddr id + ssSize - 1) / (ptrs * 2 ^ pgdirShift l5)
  wrap : wrapAdd (idToAddr id) ssSize = idToAddr id + ssSize

theorem areaRange {id : Nat} (h : id ≤ threadsLimit) (l5 : Bool) : AreaRange l5 id := by
  have hlo := ssStart_le_idToAddr h
  have hhi := idToAddr_add_lt h
  have hpos : 0 < ssSize := by decide
  have halign : idToAddr id % pageSize = 0 := by
    rw [idToAddr_eq h]
    simp only [ssStart, ssSize, pageSize, pageShift]
    omega
  refine ⟨halign, ?_, by omega, hhi, block_eq l5 hlo (by omega) (by omega) (by omega), ?_⟩
  · simp only [ssSize, pageSize, pageShift] at halign ⊢
    omega
  · rw [wrapAdd_eq]
    exact wrap_of_lt hhi

/-- **What mapping an area does**: `map_range` rewrites a prefix of the area and no other address
from the window on. -/
theorem State.mapArea_rewrites {id : Nat} (h : id ≤ threadsLimit) (s : State) (mm : MmId)
    (pl : PlPtr) (ans : Answers) :
    ∃ m, Rewrites (fun b ↦ ssStart ≤ b ∧ b < 2 ^ 64) ((s.mms mm).pteAt s.l5)
      (((s.mapArea mm (idToAddr id) pl ans).1.mms mm).pteAt s.l5)
      (mkPte (idToAddr id) (s.pagesOf pl)) ((s.mms mm).denied s.l5 ans.tables) (idToAddr id)
      (idToAddr id + ssSize) m (s.mapArea mm (idToAddr id) pl ans).2 := by
  have har := areaRange h s.l5
  have hlo := ssStart_le_idToAddr h
  have hhi := har.lt_top
  obtain ⟨m, hm⟩ := mapRange_rewrites s.l5 ans.tables (s.pagesOf pl) (s.mms mm) har.aligned
    har.aligned_end har.lt har.lt_top har.block
  rw [← har.wrap] at hm
  -- the state carries the new tables, whatever they are
  have hmms : ∀ r, ((s.withTables mm r).1.mms mm) = r.1 := fun r ↦ by simp [withTables]
  have herr : ∀ r, (s.withTables mm r).2 = r.2 := fun _ ↦ rfl
  refine ⟨m, ?_⟩
  rw [mapArea, hmms, herr, ← har.wrap]
  exact
    { le := hm.le
      le_end := hm.le_end
      done := hm.done
      stopped := hm.stopped
      granted := hm.granted
      look := fun a ha ↦ hm.look a (block_eq s.l5 ha.1 ha.2 hlo (by omega)) }

/-- When mapping an area leaves the page tables as they are. -/
theorem State.mapArea_idle {id : Nat} (h : id ≤ threadsLimit) (s : State) (mm : MmId) (pl : PlPtr)
    (ans : Answers) :
    (s.mapArea mm (idToAddr id) pl ans).1.mms = s.mms ↔
      IdleUpTo ((s.mms mm).pteAt s.l5) (mkPte (idToAddr id) (s.pagesOf pl))
        ((s.mms mm).stuck s.l5 ans.tables) (idToAddr id) (idToAddr id + ssSize) := by
  have har := areaRange h s.l5
  have hidle := mapRange_idle s.l5 ans.tables (s.pagesOf pl) (s.mms mm) har.aligned har.aligned_end
    har.lt har.lt_top har.block
  have hsame := @mapRange_eq_of_pgd s.l5 ans.tables (idToAddr id) (s.pagesOf pl) (s.mms mm)
    (idToAddr id + ssSize)
  have hmms : ∀ r : Mm × Bool, (s.withTables mm r).1.mms = s.mms ↔ r.1 = s.mms mm := by
    intro r
    constructor
    · intro hr
      have h' := congrFun hr mm
      simpa [withTables] using h'
    · intro hr
      simp [withTables, hr]
  rw [mapArea, hmms, har.wrap, ← hidle]
  exact ⟨fun hr ↦ by rw [hr], hsame⟩

/-- A kernel that grants every table refuses no address. -/
theorem not_denied {l5 : Bool} {tables : TableAnswers} (h : ∀ level n, tables level n ≠ none)
    (mm : Mm) (a : Nat) : ¬ mm.denied l5 tables a := by
  have hlevel : ∀ {ε : Type} {idx : Nat → Nat} {granted : Nat → Option PtPage} {fresh : ε}
      {D : ε → Nat → Prop} (e : Entry (Table ε)), (∀ b, granted b ≠ none) → (∀ x b, ¬ D x b) →
      ∀ b, ¬ e.denied idx granted fresh D b := by
    intro ε idx granted fresh D e hg hD b
    unfold Entry.denied
    split
    · simp [hg, hD]
    · exact hD _ _
  have hpmd : ∀ e b, ¬ pmdDenied tables e b :=
    fun e b ↦ hlevel e (fun _ ↦ h _ _) (fun _ _ ↦ id) b
  have hpud : ∀ e b, ¬ pudDenied tables e b := fun e b ↦ hlevel e (fun _ ↦ h _ _) hpmd b
  have hp4d : ∀ e b, ¬ p4dDenied tables e b := fun e b ↦ hlevel e (fun _ ↦ h _ _) hpud b
  refine hlevel _ (fun b ↦ ?_) hp4d a
  unfold p4dGranted
  split
  · exact h _ _
  · simp

theorem State.mapArea_ok {id : Nat} (h : id ≤ threadsLimit) {s : State} {mm : MmId} {pl : PlPtr}
    {ans : Answers} (hg : ∀ level n, ans.tables level n ≠ none) :
    (s.mapArea mm (idToAddr id) pl ans).2 = false := by
  obtain ⟨m, hm⟩ := mapArea_rewrites h s mm pl ans
  cases herr : (s.mapArea mm (idToAddr id) pl ans).2 with
  | false => rfl
  | true => exact absurd (hm.stopped herr).2 (not_denied hg _ _)

/-! ## Giving an area back -/

/-- The calls that come and go with single areas. -/
def Call.IsArea : Call → Prop
  | .allocCreate _ _ | .saAlloc | .saFree _ => True
  | _ => False

/-- What a caller of `sa_alloc` may expect of the address it got: it is in the window, apart from
the areas the process had, and giving it back succeeds and restores the descriptor table and the
reference count. -/
structure GoodArea (s : State) (cur : Task) (ans : Answers) (addr : Nat) : Prop where
  start_le : ssStart ≤ addr
  le_end : addr + ssSize ≤ ssEnd
  disjoint : ∀ a d id t, s.allocFind cur.tgid = some a → s.allocs a = some d →
    d.threads.load id = some t → t.addr + ssSize ≤ addr ∨ addr + ssSize ≤ t.addr
  freed : ∀ (cur' : Task) (ans' : Answers), cur'.tgid = cur.tgid → cur'.mm ≠ none →
    (saFree (saAlloc s cur ans).2 cur' ans' addr).1 = ⟨none, none⟩ ∧
    ∀ a d, s.allocFind cur.tgid = some a → s.allocs a = some d →
      ∃ d', (saFree (saAlloc s cur ans).2 cur' ans' addr).2.allocs a = some d' ∧
        d'.threads = d.threads ∧ d'.kref = d.kref

/-- Adding a descriptor at a free id and removing it restores table and count. -/
theorem AllocatorDesc.remove_add {d : AllocatorDesc} {id : Nat} {t : ThreadDesc}
    (h : d.threads.slot id = none) :
    ((d.add id t).remove id).threads = d.threads ∧ ((d.add id t).remove id).kref = d.kref :=
  ⟨Xarray.erase_set h, rfl⟩

section GiveBack

variable {S : Set Page} {s : State} {cur : Task} {ans : Answers} {addr : Nat}

/-- A successful `sa_alloc`, seen from outside. -/
theorem saAlloc_ok (hok : (saAlloc s cur ans).1 = ⟨none, some addr⟩) :
    ∃ mm a d pl s₁ id, Maps s cur ans mm a d pl s₁ ∧
      d.threads.lowestFree 0 threadsLimit = some id ∧ addr = idToAddr id ∧
      (saAlloc s cur ans).2 = (s₁.mapArea mm (idToAddr id) pl ans).1.setAlloc a
        (d.add id ⟨cur.pid, idToAddr id, pl⟩) := by
  rcases saAlloc_cases s cur ans with
    ⟨herr, -⟩ | ⟨mm, a, d, pl, s₁, id, hm, hlow, ⟨-, hr, -⟩ | ⟨-, hr, heq⟩⟩
  · rw [hok] at herr
    exact absurd rfl herr
  · rw [hok] at hr
    simp at hr
  · rw [hok] at hr
    exact ⟨mm, a, d, pl, s₁, id, hm, hlow, by simpa using hr, heq⟩

/-- `sa_free` undoes `sa_alloc`, if the address it got is one `sa_free` accepts. -/
theorem saFree_saAlloc (h : Inv S s []) (hfresh : ans.Fresh s) {mm : MmId} {a : AllocPtr}
    {d : AllocatorDesc} {pl : PlPtr} {s₁ : State} {id : Nat} (hm : Maps s cur ans mm a d pl s₁)
    (hfree : d.threads.slot id = none) (hid : id < threadsLimit)
    (heq : (saAlloc s cur ans).2 = (s₁.mapArea mm (idToAddr id) pl ans).1.setAlloc a
      (d.add id ⟨cur.pid, idToAddr id, pl⟩))
    {cur' : Task} (ans' : Answers) (htgid : cur'.tgid = cur.tgid) (hmm : cur'.mm ≠ none) :
    (saFree (saAlloc s cur ans).2 cur' ans' (idToAddr id)).1 = ⟨none, none⟩ ∧
      ∃ d', (saFree (saAlloc s cur ans).2 cur' ans' (idToAddr id)).2.allocs a = some d' ∧
        d'.threads = d.threads ∧ d'.kref = d.kref := by
  have hinv := h.saAlloc cur hfresh
  obtain ⟨s', hs'⟩ : ∃ s', (saAlloc s cur ans).2 = s' := ⟨_, rfl⟩
  rw [hs'] at heq hinv ⊢
  obtain ⟨mm', hmm'⟩ := Option.ne_none_iff_exists'.mp hmm
  obtain ⟨d', hd', hg⟩ := h.alloc.find hm.find
  obtain rfl : d = d' := Option.some.inj (hm.alloc.symm.trans hd')
  have hd₁ : s'.allocs a = some (d.add id ⟨cur.pid, idToAddr id, pl⟩) := by
    rw [heq, setAlloc_allocs]
  have hreg : s'.saAllocators = s.saAllocators := by
    rw [heq, setAlloc_saAllocators, mapArea_saAllocators,
      (glAllocStack_frame hm.stack).saAllocators]
  have hfind : s'.allocFind cur.tgid = some a := by
    rw [allocFind, hreg]
    exact hm.find
  have hload : (d.add id ⟨cur.pid, idToAddr id, pl⟩).threads.load id =
      some ⟨cur.pid, idToAddr id, pl⟩ := by simp [AllocatorDesc.add]
  have haddr := addrToId_idToAddr hid.le
  rw [saFree_eq hmm' (validAddr_idToAddr hid) (by rw [htgid, hfind])
    (by rw [threads_eq hd₁, haddr, hload]), haddr,
    hinv.alloc.free_eq hd₁ (by rw [← hfind, ← hg]; rfl) hload]
  refine ⟨rfl, (d.add id ⟨cur.pid, idToAddr id, pl⟩).remove id, ?_,
    AllocatorDesc.remove_add hfree⟩
  rw [glFree_allocs, setAlloc_allocs]

/-- **When an area is good**: exactly if some id below the limit was free.  The ids `sa_alloc`
chooses from go up to the limit, the addresses `sa_free` accepts do not. -/
theorem saAlloc_area_iff {l5 : Bool} {mms : MmId → Mm} {data : Page → PageData} {es : List Event}
    (hrun : Run (Guarded (fun s e ↦ Admissible s e ∧ e.call.IsArea) Step)
      (State.init l5 mms data) es s)
    (hfresh : ans.Fresh s) (hok : (saAlloc s cur ans).1 = ⟨none, some addr⟩) :
    GoodArea s cur ans addr ↔
      ∃ a id, s.allocFind cur.tgid = some a ∧ id < threadsLimit ∧ (s.threads a).slot id = none := by
  have h := Inv.of_run (hrun.mono fun t e t' ht ↦ ⟨ht.1.1, ht.2⟩)
  obtain ⟨mm, a, d, pl, s₁, id, hm, hlow, rfl, heq⟩ := saAlloc_ok hok
  obtain ⟨-, hid, hfree, hleast⟩ := Xarray.lowestFree_eq_some hlow
  constructor
  · intro hgood
    exact ⟨a, id, hm.find, (idToAddr_le_iff hid).mp hgood.le_end, by rw [threads_eq hm.alloc, hfree]⟩
  · rintro ⟨a', id', hfind, hid', hfree'⟩
    obtain rfl : a' = a := Option.some.inj (hfind.symm.trans hm.find)
    rw [threads_eq hm.alloc] at hfree'
    have hlt : id < threadsLimit := by
      by_contra hc
      exact hleast id' (Nat.zero_le _) (by omega) hfree'
    refine ⟨ssStart_le_idToAddr hid, (idToAddr_le_iff hid).mpr hlt, ?_, ?_⟩
    · intro b e i t hb he ht
      obtain rfl : b = a' := Option.some.inj (hb.symm.trans hfind)
      obtain rfl : e = d := Option.some.inj (he.symm.trans hm.alloc)
      have hne : i ≠ id := fun hc ↦ by
        rw [hc, Xarray.load_eq_none_of_slot hfree] at ht
        cases ht
      rw [h.alloc.addr b e i t he ht]
      exact idToAddr_disjoint (h.alloc.bound b e i t he ht) hid hne
    · intro cur' ans' htgid hmm'
      obtain ⟨hr, d', hd', hback⟩ := saFree_saAlloc h hfresh hm hfree hlt heq ans' htgid hmm'
      refine ⟨hr, fun b e hb he ↦ ?_⟩
      obtain rfl : b = a' := Option.some.inj (hb.symm.trans hfind)
      obtain rfl : e = d := Option.some.inj (he.symm.trans hm.alloc)
      exact ⟨d', hd', hback⟩

end GiveBack

/-! ## The last id -/

/-- A kernel that grants every request, the pages one by one from `first` on. -/
def grants (first : Page) : Answers :=
  { noPages with single := (List.range' first ssPages).map some }

theorem allocSingle_eq {nr : Nat} (l acc : List Page) (h : acc.length + l.length = nr) :
    allocSingle nr (l.map some) acc = acc ++ l := by
  induction l generalizing acc with
  | nil => simp [allocSingle]
  | cons p l ih =>
      rw [List.length_cons] at h
      rw [List.map_cons, allocSingle, if_pos (by omega), ih (acc ++ [p]) (by simp; omega)]
      simp

theorem obtained_grants (first : Page) :
    obtained (grants first) ssPages = List.range' first ssPages := by
  simp only [obtained, grants, noPages, allocHigh, allocBulk]
  rw [allocSingle_eq _ _ (by simp)]
  simp

/-- The state of a process whose first `n` ids are in use. -/
structure Filled (n : Nat) (s : State) : Prop where
  find : s.allocFind 1 = some 0
  alloc : ∃ d, s.allocs 0 = some d ∧ d.kref ≠ 0 ∧ ∀ i, d.threads.slot i = none ↔ n ≤ i
  gl : s.glSa = []
  held : ∀ p ∈ s.held, p < n * ssPages

theorem Filled.fresh {n : Nat} {s : State} (h : Filled n s) : (grants (n * ssPages)).Fresh s := by
  constructor
  · rw [obtained_grants]
    exact List.nodup_range'
  · rw [obtained_grants]
    intro p hp hheld
    rw [List.mem_range'_1] at hp
    exact absurd (h.held p hheld) (not_lt.mpr hp.1)

/-- The pagelist such a kernel makes possible. -/
theorem Filled.glAllocStack {n : Nat} {s : State} (h : Filled n s) {ans : Answers}
    (hans : ans = grants (n * ssPages)) :
    s.glAllocStack ans = some (s.nextPl, { s with
      pagelists := Function.update s.pagelists s.nextPl (some ⟨List.range' (n * ssPages) ssPages⟩)
      nextPl := s.nextPl + 1
      held := s.held ∪ (List.range' (n * ssPages) ssPages).toFinset
      data := fun p ↦ if p ∈ List.range' (n * ssPages) ssPages then fun _ ↦ 0 else s.data p }) := by
  have hpages : saPagelistAllocPages ans ssPages = some (List.range' (n * ssPages) ssPages) := by
    have hkv : ans.kvcalloc = true := by rw [hans]; rfl
    have hob : obtained ans ssPages = List.range' (n * ssPages) ssPages := by
      rw [hans, obtained_grants]
    simp [saPagelistAllocPages, hkv, hob]
  have hpl : ans.pagelist = true := by rw [hans]; rfl
  simp only [State.glAllocStack, h.gl, hpl, hpages, ↓reduceIte]

/-- One more `sa_alloc`, up to the limit and at it. -/
theorem Filled.saAlloc {n : Nat} {s : State} (h : Filled n s) (hn : n ≤ threadsLimit) :
    (saAlloc s ⟨1, 1, some 0⟩ (grants (n * ssPages))).1 = ⟨none, some (idToAddr n)⟩ ∧
      Filled (n + 1) (saAlloc s ⟨1, 1, some 0⟩ (grants (n * ssPages))).2 := by
  obtain ⟨d, hd, hk, hslot⟩ := h.alloc
  have hxa : (s.setAlloc 0 { d with kref := d.kref + 1 }).xaAlloc 0 (grants (n * ssPages)) =
      .ok n := by
    have hlow : ((s.setAlloc 0 { d with kref := d.kref + 1 }).threads 0).lowestFree 0 threadsLimit =
        some n := by
      rw [threads_eq setAlloc_allocs]
      refine Xarray.lowestFree_eq_of (Nat.zero_le _) hn ((hslot n).mpr le_rfl) fun j _ hj hc ↦ ?_
      exact absurd ((hslot j).mp hc) (by omega)
    simp only [xaAlloc, hlow]
    rfl
  obtain ⟨ans, hans⟩ : ∃ ans, ans = grants (n * ssPages) := ⟨_, rfl⟩
  have hgl := h.glAllocStack hans
  rw [← hans] at hxa ⊢
  have hthread : ans.thread = true := by rw [hans]; rfl
  have hmap : ∀ s₁ pl, (mapArea s₁ 0 (idToAddr n) pl ans).2 = false :=
    fun s₁ pl ↦ mapArea_ok hn (by rw [hans]; simp [grants, noPages])
  rw [saAlloc_eq (show (⟨1, 1, some 0⟩ : Task).mm = some 0 from rfl) (allocGet_eq h.find hd hk) hd hk
    ((hslot n).mpr le_rfl) hxa, if_pos hthread, hgl]
  simp only [hmap, Bool.false_eq_true, ↓reduceIte]
  refine ⟨trivial, ?_⟩
  constructor
  · rw [allocFind, setAlloc_saAllocators, mapArea_saAllocators]
    exact h.find
  · refine ⟨_, setAlloc_allocs, Nat.succ_ne_zero _, fun i ↦ ?_⟩
    by_cases hi : i = n
    · simp [AllocatorDesc.add, hi]
    · have := hslot i
      simp only [AllocatorDesc.add, Xarray.slot_set, if_neg hi, this]
      omega
  · exact h.gl
  · intro p hp
    have hheld : p ∈ s.held ∪ (List.range' (n * ssPages) ssPages).toFinset := hp
    rw [Finset.mem_union, List.mem_toFinset, List.mem_range'_1] at hheld
    rw [Nat.succ_mul]
    rcases hheld with hp | ⟨-, hp⟩
    · exact lt_of_lt_of_le (h.held p hp) (Nat.le_add_right _ _)
    · exact hp

/-- `sa_alloc` by process 1, as its `n`-th. -/
def allocEvent (n : Nat) : Event := ⟨⟨1, 1, some 0⟩, .saAlloc, grants (n * ssPages)⟩

theorem filled_created : Filled 0 created := by
  refine ⟨?_, ⟨_, created_allocs, by simp, by simp⟩, ?_, ?_⟩
  · simp [created_eq, allocFind]
  · simp [created_eq, init]
  · simp [created_eq, init]

/-- Any number of areas up to one more than the limit is reached by a run. -/
theorem exists_run_filled {n : Nat} (hn : n ≤ threadsLimit + 1) :
    ∃ es s, Run (Guarded (fun s e ↦ Admissible s e ∧ e.call.IsArea) Step)
      (init false (fun _ ↦ textMm) fun _ _ ↦ 0) es s ∧ Filled n s := by
  induction n with
  | zero =>
      exact ⟨_, created, Run.single ⟨⟨admissible_createEvent _, trivial⟩, rfl⟩, filled_created⟩
  | succ n ih =>
      obtain ⟨es, s, hrun, hs⟩ := ih (by omega)
      have hadm : Admissible s (allocEvent n) := ⟨hs.fresh, by simp [allocEvent]⟩
      exact ⟨_, _, hrun.snoc ⟨⟨hadm, trivial⟩, rfl⟩, (hs.saAlloc (by omega)).2⟩

/-- The first area of a process is good. -/
theorem saAlloc_area_iff_first :
    GoodArea created ⟨1, 1, some 0⟩ (grants (0 * ssPages)) (idToAddr 0) :=
  (saAlloc_area_iff (s := created) (Run.single ⟨⟨admissible_createEvent _, trivial⟩, rfl⟩)
    filled_created.fresh (filled_created.saAlloc (Nat.zero_le _)).1).mpr
    ⟨0, 0, filled_created.find, by decide, by simp [threads_eq created_allocs]⟩

/-- With all ids below the limit in use, `sa_alloc` succeeds once more, with an area behind the
window. -/
theorem not_all_areas_good :
    ¬ ∀ (l5 : Bool) (mms : MmId → Mm) (data : Page → PageData) (es : List Event) (s : State)
      (cur : Task) (ans : Answers) (addr : Nat),
      Run (Guarded (fun s e ↦ Admissible s e ∧ e.call.IsArea) Step) (init l5 mms data) es s →
      ans.Fresh s → (saAlloc s cur ans).1 = ⟨none, some addr⟩ → GoodArea s cur ans addr := by
  intro h
  obtain ⟨es, s, hrun, hs⟩ := exists_run_filled (n := threadsLimit) (Nat.le_succ _)
  have hgood := h _ _ _ es s _ _ _ hrun hs.fresh (hs.saAlloc le_rfl).1
  exact absurd ((idToAddr_le_iff le_rfl).mp hgood.le_end) (lt_irrefl _)

end ShadowStack.Lkm
