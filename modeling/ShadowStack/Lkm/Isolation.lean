import Mathlib.Logic.Equiv.Basic
import ShadowStack.Lkm.Areas

/-!
# Isolation of shadow areas

Ties the page tables to the descriptor tables: in the shadow window, a process can reach exactly
the pages of its own live areas.  `sa_alloc` and `sa_fork` establish this for the area they map, and
keep it for the others because areas do not overlap.  Two things break it, both because
`unmap_range` no longer clears PTEs: freeing a live area, and a mapping that fails half way.
-/

namespace ShadowStack.Lkm

open Lib State

/-- The shadow window. -/
def InWindow (a : Nat) : Prop := ssStart ≤ a ∧ a < ssEnd

/-- Process `g` has the live descriptor `t` at `id`. -/
def State.Live (s : State) (g id : Nat) (t : ThreadDesc) : Prop :=
  ∃ a d, s.allocFind g = some a ∧ s.allocs a = some d ∧ d.threads.load id = some t

/-- A PTE of process `g` at `a` is as it should be: if present, it maps the page of the live area
that `a` belongs to. -/
def PteOk (s : State) (g a : Nat) : Pte → Prop
  | .present p => ∃ t, s.Live g (addrToId a) t ∧
      (s.pagesOf t.pagelist)[(a - idToAddr (addrToId a)) / pageSize]? = some p
  | .wild => False
  | _ => True

/-- All PTEs of the window are as they should be; `mmOf` is the address space of a process. -/
def PtesOk (mmOf : Nat → MmId) (s : State) : Prop :=
  ∀ g a, InWindow a → PteOk s g a ((s.mms (mmOf g)).pteAt s.l5 a)

variable {S : Set Page} {s s' s₁ : State} {mmOf : Nat → MmId} {pl : PlPtr} {ans : Answers} {own : List PlPtr}

theorem PteOk.mono {g a : Nat} {pte : Pte} (h : PteOk s g a pte)
    (hlive : ∀ t, s.Live g (addrToId a) t → s'.Live g (addrToId a) t ∧
      s'.pagesOf t.pagelist = s.pagesOf t.pagelist) : PteOk s' g a pte := by
  cases pte with
  | none => trivial
  | absent => trivial
  | wild => exact h
  | present p =>
      obtain ⟨t, ht, hp⟩ := h
      obtain ⟨ht', hpages⟩ := hlive t ht
      exact ⟨t, ht', by rw [hpages]; exact hp⟩

/-! ## Pagelists of live descriptors -/

theorem State.live_congr (h₁ : s'.saAllocators = s.saAllocators) (h₂ : s'.allocs = s.allocs)
    (g id : Nat) (t : ThreadDesc) : s'.Live g id t ↔ s.Live g id t := by
  simp only [Live, allocFind, h₁, h₂]

theorem State.Live.owns {g id : Nat} {t : ThreadDesc} (h : s.Live g id t) (own : List PlPtr) :
    ∃ a, s.Owns own (.desc a id) t.pagelist := by
  obtain ⟨a, d, -, hd, ht⟩ := h
  exact ⟨a, t, by rw [threads_eq hd, ht], rfl⟩

/-- Obtaining a pagelist leaves the others alone. -/
theorem State.glAllocStack_pagesOf (h : PagesOk S s) (hs : s.glAllocStack ans = some (pl, s₁))
    {q : PlPtr} (hq : s.pagelists q ≠ none) : s₁.pagesOf q = s.pagesOf q := by
  unfold glAllocStack at hs
  split at hs
  · obtain ⟨rfl, rfl⟩ := Prod.mk.inj (Option.some.inj hs)
    rfl
  · split at hs
    · split at hs
      · cases hs
      · obtain ⟨rfl, rfl⟩ := Prod.mk.inj (Option.some.inj hs)
        obtain ⟨l, hl⟩ := Option.ne_none_iff_exists'.mp hq
        have hne : q ≠ s.nextPl := (h.lt q l hl).ne
        simp [pagesOf, hne]
    · cases hs

/-- Giving up a pagelist leaves the others alone. -/
theorem State.glFree_pagesOf {q : PlPtr} (hq : q ≠ pl) :
    (s.glFree pl).pagesOf q = s.pagesOf q := by
  unfold glFree
  split
  · simp [pagesOf, saPagelistFree, hq]
  · rfl

/-- The state of a call that obtained the pagelist `pl` and may have filled its pages. -/
structure Prepared (S : Set Page) (s s₁ : State) (pl : PlPtr) : Prop where
  frame : s.Frame s₁
  inv : Inv S s₁ [pl]
  pagesOf : ∀ q, s.pagelists q ≠ none → s₁.pagesOf q = s.pagesOf q

theorem Inv.prepared (h : Inv S s []) (hfresh : ans.Fresh s)
    (hs : s.glAllocStack ans = some (pl, s₁)) : Prepared S s s₁ pl :=
  ⟨glAllocStack_frame hs, h.glAllocStack hfresh hs, fun _ ↦ glAllocStack_pagesOf h.pages hs⟩

theorem Prepared.copyPages (h : Prepared S s s₁ pl) (dst src : List Page) :
    Prepared S s (copyPages s₁ dst src) pl :=
  ⟨⟨h.frame.l5, h.frame.saAllocators, h.frame.allocs, h.frame.mms⟩, h.inv.copyPages _ _, h.pagesOf⟩

/-- A live descriptor keeps its pages, and they are not those of the call. -/
theorem Prepared.live (h : Prepared S s s₁ pl) (hinv : Inv S s []) {g id : Nat} {t : ThreadDesc}
    (ht : s.Live g id t) :
    s₁.Live g id t ∧ s₁.pagesOf t.pagelist = s.pagesOf t.pagelist ∧ t.pagelist ≠ pl := by
  have ht₁ : s₁.Live g id t := (live_congr h.frame.saAllocators h.frame.allocs g id t).mpr ht
  obtain ⟨a, ho⟩ := ht.owns []
  obtain ⟨a₁, ho₁⟩ := ht₁.owns [pl]
  refine ⟨ht₁, h.pagesOf _ (hinv.owners.exists ho), fun hc ↦ ?_⟩
  have hcall : s₁.Owns [pl] .call t.pagelist := by simp [Owns, hc]
  simpa using h.inv.owners.unique _ _ _ ho₁ hcall

/-- Descriptors with one pagelist are of one process. -/
theorem Inv.live_group (h : Inv S s []) {g g' id id' : Nat} {t t' : ThreadDesc}
    (ht : s.Live g id t) (ht' : s.Live g' id' t') (hpl : t.pagelist = t'.pagelist) : g = g' := by
  obtain ⟨b, d, hb, hd, hload⟩ := ht
  obtain ⟨c, e, hc, he, hload'⟩ := ht'
  have ho := h.owners.unique t.pagelist (.desc b id) (.desc c id')
    ⟨t, by rw [threads_eq hd, hload], rfl⟩ ⟨t', by rw [threads_eq he, hload'], hpl.symm⟩
  obtain ⟨rfl, -⟩ : b = c ∧ id = id' := by simpa using ho
  -- one allocator, so one thread group
  obtain ⟨d₁, hd₁, hg₁⟩ := h.alloc.find hb
  obtain ⟨d₂, hd₂, hg₂⟩ := h.alloc.find hc
  obtain rfl : d₁ = d₂ := Option.some.inj (hd₁.symm.trans hd₂)
  exact hg₁.symm.trans hg₂

/-- Pagelists with a common page are one. -/
theorem Inv.live_page (h : Inv S s own) {p : Page} {q q' : PlPtr} (hq : p ∈ s.pagesOf q)
    (hq' : p ∈ s.pagesOf q') : q = q' := by
  cases hl : s.pagelists q with
  | none => simp [pagesOf, hl] at hq
  | some l =>
      cases hl' : s.pagelists q' with
      | none => simp [pagesOf, hl'] at hq'
      | some l' =>
          rw [pagesOf_eq hl] at hq
          rw [pagesOf_eq hl'] at hq'
          exact h.pages.disjoint q l q' l' p hl hl' hq hq'

/-- A new descriptor at a free id leaves the live ones alone. -/
theorem State.Live.add {a : AllocPtr} {d : AllocatorDesc} {id g i : Nat} {t : ThreadDesc}
    (ht : s.Live g i t) (t₀ : ThreadDesc) (hd : s.allocs a = some d) (hfree : d.threads.slot id = none)
    (hreg : s'.saAllocators = s.saAllocators)
    (hallocs : s'.allocs = Function.update s.allocs a (some (d.add id t₀))) : s'.Live g i t := by
  obtain ⟨b, e, hb, he, ht⟩ := ht
  have hb' : s'.allocFind g = some b := by rw [allocFind, hreg]; exact hb
  by_cases hba : b = a
  · subst hba
    obtain rfl : d = e := Option.some.inj (hd.symm.trans he)
    have hi : i ≠ id := fun hc ↦ by
      rw [hc, Xarray.load_eq_none_of_slot hfree] at ht
      cases ht
    exact ⟨b, _, hb', by rw [hallocs, Function.update_self],
      by simpa [AllocatorDesc.add, hi] using ht⟩
  · exact ⟨b, e, hb', by rw [hallocs, Function.update_of_ne hba, he], ht⟩

/-- Nothing happens to live descriptors and their pages when the call gives its pagelist up, -/
theorem Prepared.live_glFree (h : Prepared S s s₁ pl) (hinv : Inv S s []) {g id : Nat}
    {t : ThreadDesc} (ht : s.Live g id t) (mm : MmId) (r : Mm × Bool) :
    ((s₁.withTables mm r).1.glFree pl).Live g id t ∧
      ((s₁.withTables mm r).1.glFree pl).pagesOf t.pagelist = s.pagesOf t.pagelist := by
  obtain ⟨ht₁, hpages, hne⟩ := h.live hinv ht
  have hframe := glFree_frame (s₁.withTables mm r).1 pl
  refine ⟨(live_congr hframe.saAllocators hframe.allocs g id t).mpr ht₁, ?_⟩
  rw [glFree_pagesOf hne, ← hpages]
  rfl

/-- or when it makes it the pagelist of a new descriptor. -/
theorem Prepared.live_add (h : Prepared S s s₁ pl) (hinv : Inv S s []) {g i id : Nat}
    {t t₀ : ThreadDesc} {a : AllocPtr} {d : AllocatorDesc} (ht : s.Live g i t)
    (hd : s.allocs a = some d) (hfree : d.threads.slot id = none) (mm : MmId) (r : Mm × Bool) :
    ((s₁.withTables mm r).1.setAlloc a (d.add id t₀)).Live g i t ∧
      ((s₁.withTables mm r).1.setAlloc a (d.add id t₀)).pagesOf t.pagelist =
        s.pagesOf t.pagelist := by
  refine ⟨ht.add t₀ hd hfree ?_ ?_, ?_⟩
  · rw [← h.frame.saAllocators]
    rfl
  · rw [← h.frame.allocs]
    rfl
  · rw [← (h.live hinv ht).2.1]
    rfl

/-! ## Steps -/

/-- A call that gives its pagelist up again and left the PTEs of the window alone. -/
theorem PtesOk.glFree (h : PtesOk mmOf s) (hinv : Inv S s []) (hp : Prepared S s s₁ pl) {mm : MmId}
    {r : Mm × Bool}
    (hpte : ∀ a, InWindow a → r.1.pteAt s.l5 a = (s.mms mm).pteAt s.l5 a) :
    PtesOk mmOf ((s₁.withTables mm r).1.glFree pl) := by
  obtain ⟨s₂, hs₂⟩ : ∃ s₂, (s₁.withTables mm r).1 = s₂ := ⟨_, rfl⟩
  have hframe := glFree_frame s₂ pl
  have hmms : s₂.mms = Function.update s.mms mm r.1 := by
    rw [← hs₂, ← hp.frame.mms]
    rfl
  have hl5 : s₂.l5 = s.l5 := by
    rw [← hs₂, ← hp.frame.l5]
    rfl
  intro g a ha
  have hsame : ((s₂.glFree pl).mms (mmOf g)).pteAt (s₂.glFree pl).l5 a =
      (s.mms (mmOf g)).pteAt s.l5 a := by
    rw [hframe.mms, hframe.l5, hmms, hl5]
    by_cases hg : mmOf g = mm
    · rw [hg, Function.update_self, hpte a ha]
    · rw [Function.update_of_ne hg]
  rw [hs₂, hsame, ← hs₂]
  exact (h g a ha).mono fun t ht ↦ hp.live_glFree hinv ht mm r

/-- A mapping that failed, and was refused its first address if any, left the window alone. -/
theorem State.mapArea_failed {id : Nat} (hid : id ≤ threadsLimit) {mm : MmId}
    (hfail : (s₁.mapArea mm (idToAddr id) pl ans).2 = true)
    (hall : ∀ a, idToAddr id ≤ a → a < idToAddr id + ssSize →
      (s₁.mms mm).denied s₁.l5 ans.tables a → (s₁.mms mm).denied s₁.l5 ans.tables (idToAddr id))
    {a : Nat} (ha : InWindow a) :
    ((s₁.mapArea mm (idToAddr id) pl ans).1.mms mm).pteAt s₁.l5 a = (s₁.mms mm).pteAt s₁.l5 a := by
  obtain ⟨m, hm⟩ := mapArea_rewrites hid s₁ mm pl ans
  obtain ⟨hlt, hD⟩ := hm.stopped hfail
  have hm₀ : m = idToAddr id := by
    by_contra hc
    have hpos : idToAddr id < m := lt_of_le_of_ne hm.le (Ne.symm hc)
    exact hm.granted _ le_rfl hpos (hall m hm.le hlt hD)
  rw [hm.look a ⟨ha.1, lt_trans ha.2 (by decide)⟩, if_neg (by omega)]

/-- A call that failed to map, and was refused its first address if any. -/
theorem PtesOk.glFree_failed (h : PtesOk mmOf s) (hinv : Inv S s []) (hp : Prepared S s s₁ pl)
    {mm : MmId} {id : Nat} (hid : id ≤ threadsLimit)
    (hfail : (s₁.mapArea mm (idToAddr id) pl ans).2 = true)
    (hall : ∀ a, idToAddr id ≤ a → a < idToAddr id + ssSize →
      (s.mms mm).denied s.l5 ans.tables a → (s.mms mm).denied s.l5 ans.tables (idToAddr id)) :
    PtesOk mmOf ((s₁.mapArea mm (idToAddr id) pl ans).1.glFree pl) := by
  obtain ⟨r, hr⟩ := mapArea_eq s₁ mm (idToAddr id) pl ans
  have hpte : ∀ a, InWindow a → r.1.pteAt s.l5 a = (s.mms mm).pteAt s.l5 a := by
    intro b hb
    rw [← hp.frame.l5, ← hp.frame.mms] at hall ⊢
    have h' := mapArea_failed hid hfail hall hb
    rw [hr] at h'
    simpa [withTables] using h'
  rw [hr]
  exact h.glFree hinv hp hpte

/-- A call that gave up before mapping. -/
theorem PtesOk.glFree_self (h : PtesOk mmOf s) (hinv : Inv S s []) (hp : Prepared S s s₁ pl) :
    PtesOk mmOf (s₁.glFree pl) := by
  have hself : (s₁.withTables 0 (s₁.mms 0, false)).1 = s₁ := by simp [withTables]
  rw [← hself]
  exact h.glFree hinv hp fun a _ ↦ by rw [hp.frame.mms]

/-- The PTE a page of an area gets. -/
theorem mkPte_idToAddr {id a : Nat} (pages : List Page) (hlen : pages.length = ssPages)
    (hlo : idToAddr id ≤ a) (hhi : a < idToAddr id + ssSize) (ha : a < 2 ^ 64) :
    ∃ p, pages[(a - idToAddr id) / pageSize]? = some p ∧
      mkPte (idToAddr id) pages a = .present p := by
  have hsub : wrapSub a (idToAddr id) = a - idToAddr id := by
    unfold wrapSub
    omega
  have hlt : (a - idToAddr id) / pageSize < pages.length := by
    rw [hlen]
    simp only [ssSize] at hhi
    simp only [ssPages, ssSize, pageSize, pageShift]
    omega
  refine ⟨pages[(a - idToAddr id) / pageSize], List.getElem?_eq_getElem hlt, ?_⟩
  simp only [mkPte, pageIndex, hsub, List.getElem?_eq_getElem hlt]

/-- **A call that maps an area**: the new area is the process's own, the other areas are not
touched. -/
theorem PtesOk.map (h : PtesOk mmOf s) (hinj : Function.Injective mmOf) (hinv : Inv S s [])
    (hp : Prepared S s s₁ pl) {cur : Task} {a : AllocPtr} {d : AllocatorDesc} {id : Nat}
    (hfind : s.allocFind cur.tgid = some a) (hd : s.allocs a = some d)
    (hfree : d.threads.slot id = none) (hid : id ≤ threadsLimit)
    (hok : (s₁.mapArea (mmOf cur.tgid) (idToAddr id) pl ans).2 = false) :
    PtesOk mmOf ((s₁.mapArea (mmOf cur.tgid) (idToAddr id) pl ans).1.setAlloc a
      (d.add id ⟨cur.pid, idToAddr id, pl⟩)) := by
  obtain ⟨m, hm⟩ := mapArea_rewrites hid s₁ (mmOf cur.tgid) pl ans
  obtain rfl := hm.done hok
  obtain ⟨r, hr⟩ := mapArea_eq s₁ (mmOf cur.tgid) (idToAddr id) pl ans
  rw [hr] at hm ⊢
  obtain ⟨t₀, ht₀⟩ : ∃ t₀ : ThreadDesc, t₀ = ⟨cur.pid, idToAddr id, pl⟩ := ⟨_, rfl⟩
  rw [← ht₀]
  obtain ⟨s₂, hs₂⟩ : ∃ s₂, (s₁.withTables (mmOf cur.tgid) r).1.setAlloc a (d.add id t₀) = s₂ :=
    ⟨_, rfl⟩
  have hreg : s₂.saAllocators = s.saAllocators := by
    rw [← hs₂, ← hp.frame.saAllocators]
    rfl
  have hallocs : s₂.allocs = Function.update s.allocs a (some (d.add id t₀)) := by
    rw [← hs₂, ← hp.frame.allocs]
    rfl
  have hmms : s₂.mms = Function.update s.mms (mmOf cur.tgid) r.1 := by
    rw [← hs₂, ← hp.frame.mms]
    rfl
  have hl5 : s₂.l5 = s.l5 := by
    rw [← hs₂, ← hp.frame.l5]
    rfl
  have hpages : ∀ q, s₂.pagesOf q = s₁.pagesOf q := by
    intro q
    rw [← hs₂]
    rfl
  have hnew : s₂.Live cur.tgid id t₀ :=
    ⟨a, _, by rw [allocFind, hreg]; exact hfind, by rw [hallocs, Function.update_self],
      by simp [AllocatorDesc.add]⟩
  rw [hs₂]
  intro g b hb
  have hb64 : b < 2 ^ 64 := lt_trans hb.2 (by decide)
  -- an address whose PTE did not change
  have hkeep : (s₂.mms (mmOf g)).pteAt s₂.l5 b = (s.mms (mmOf g)).pteAt s.l5 b →
      PteOk s₂ g b ((s₂.mms (mmOf g)).pteAt s₂.l5 b) := by
    intro hsame
    rw [hsame, ← hs₂]
    exact (h g b hb).mono fun t ht ↦ hp.live_add hinv ht hd hfree _ r
  by_cases hg : mmOf g = mmOf cur.tgid
  · obtain rfl := hinj hg
    have hlook := hm.look b ⟨hb.1, hb64⟩
    have hmm₁ : (s₁.withTables (mmOf cur.tgid) r).1.mms (mmOf cur.tgid) = r.1 := by
      simp [withTables]
    rw [hmm₁, hp.frame.l5, hp.frame.mms] at hlook
    have hr₂ : s₂.mms (mmOf cur.tgid) = r.1 := by rw [hmms, Function.update_self]
    by_cases harea : idToAddr id ≤ b ∧ b < idToAddr id + ssSize
    · rw [if_pos harea] at hlook
      obtain ⟨l, hl⟩ := hp.inv.pagelist_of_call
      obtain ⟨p, hpage, hpte⟩ := mkPte_idToAddr (s₁.pagesOf pl)
        (by rw [pagesOf_eq hl]; exact hp.inv.pages.size pl l hl) harea.1 harea.2 hb64
      rw [hr₂, hl5, hlook, hpte]
      have hid' : addrToId b = id := by
        rw [idToAddr_eq hid] at harea
        exact addrToId_eq hid harea.1 harea.2
      refine ⟨t₀, by rw [hid']; exact hnew, ?_⟩
      rw [hid', hpages, ht₀]
      exact hpage
    · rw [if_neg harea] at hlook
      exact hkeep (by rw [hr₂, hl5, hlook])
  · exact hkeep (by rw [hmms, Function.update_of_ne hg, hl5])

/-! ## Runs -/

/-- The calls a process causes while it runs. -/
def Call.IsUser : Call → Prop
  | .allocCreate _ _ | .saAlloc | .saFork _ _ | .saFree _ => True
  | _ => False

/-- The id a call maps, if it gets as far as that: the lowest free one for `sa_alloc`, the one of
the parent thread for `sa_fork`. -/
def Target (s : State) (e : Event) (id : Nat) : Prop :=
  match e.call with
  | .saAlloc => ∃ a d, s.allocFind e.cur.tgid = some a ∧ s.allocs a = some d ∧
      d.threads.lowestFree 0 threadsLimit = some id
  | .saFork pt pp => ∃ parent t, s.allocFind pt = some parent ∧
      ((s.threads parent).find? fun t ↦ t.tid == pp) = some (id, t)
  | _ => False

/-- The call leaves no stale PTE behind: `sa_free` finds no live area, and a mapping that is
refused a table is refused one at its first address already. -/
structure NoStale (s : State) (e : Event) : Prop where
  free : ∀ addr t, e.call = .saFree addr → e.cur.mm ≠ none → ValidAddr addr →
    ¬ s.Live e.cur.tgid (addrToId addr) t
  map : ∀ mm id, e.cur.mm = some mm → Target s e id → ∀ a, idToAddr id ≤ a →
    a < idToAddr id + ssSize → (s.mms mm).denied s.l5 e.ans.tables a →
    (s.mms mm).denied s.l5 e.ans.tables (idToAddr id)

/-- A call by a process on its own address space. -/
structure UserCall (mmOf : Nat → MmId) (s : State) (e : Event) : Prop where
  adm : Admissible s e
  user : e.call.IsUser
  mm : ∀ mm, e.cur.mm = some mm → mm = mmOf e.cur.tgid

theorem PtesOk.saAlloc (h : PtesOk mmOf s) (hinj : Function.Injective mmOf) (hinv : Inv S s [])
    {cur : Task} (he : UserCall mmOf s ⟨cur, .saAlloc, ans⟩)
    (hstale : NoStale s ⟨cur, .saAlloc, ans⟩) : PtesOk mmOf (saAlloc s cur ans).2 := by
  rcases saAlloc_cases s cur ans with
    ⟨-, heq⟩ | ⟨mm, a, d, pl, s₁, id, hm, hlow, ⟨hmap, -, heq⟩ | ⟨hmap, -, heq⟩⟩
  · rwa [heq]
  · obtain ⟨-, hid, -, -⟩ := Xarray.lowestFree_eq_some hlow
    rw [heq]
    exact h.glFree_failed hinv (hinv.prepared he.adm.fresh hm.stack) hid hmap
      (hstale.map mm id hm.mm ⟨a, d, hm.find, hm.alloc, hlow⟩)
  · obtain ⟨-, hid, hfree, -⟩ := Xarray.lowestFree_eq_some hlow
    rw [heq]
    obtain rfl := he.mm mm hm.mm
    exact h.map hinj hinv (hinv.prepared he.adm.fresh hm.stack) hm.find hm.alloc hfree hid hmap

theorem PtesOk.saFork (h : PtesOk mmOf s) (hinj : Function.Injective mmOf) (hinv : Inv S s [])
    {cur : Task} {pt pp : Nat} (he : UserCall mmOf s ⟨cur, .saFork pt pp, ans⟩)
    (hstale : NoStale s ⟨cur, .saFork pt pp, ans⟩) : PtesOk mmOf (saFork s cur ans pt pp).2 := by
  rcases saFork_cases s cur ans pt pp with
    ⟨-, heq⟩ | ⟨mm, a, d, pl, s₁, parent, hm, hparent, ⟨-, heq⟩ | ⟨id, t, s₂, ht, hs₂, hrest⟩⟩
  · rwa [heq]
  · rw [heq]
    exact h.glFree_self hinv (hinv.prepared he.adm.fresh hm.stack)
  · have hp : Prepared S s s₂ pl := by
      rw [hs₂]
      exact (hinv.prepared he.adm.fresh hm.stack).copyPages _ _
    have hid := hinv.alloc.find_le hparent ht
    rcases hrest with ⟨-, heq⟩ | ⟨hfree, ⟨hmap, -, heq⟩ | ⟨hmap, -, heq⟩⟩
    · rw [heq]
      exact h.glFree_self hinv hp
    · rw [heq]
      exact h.glFree_failed hinv hp hid hmap (hstale.map mm id hm.mm ⟨parent, t, hparent, ht⟩)
    · rw [heq]
      obtain rfl := he.mm mm hm.mm
      exact h.map hinj hinv hp hm.find hm.alloc hfree hid hmap

theorem PtesOk.saFree (h : PtesOk mmOf s) (hinv : Inv S s []) {cur : Task} {addr : Nat}
    (hstale : NoStale s ⟨cur, .saFree addr, ans⟩) : PtesOk mmOf (saFree s cur ans addr).2 := by
  rcases hinv.alloc.saFree_cases cur ans addr with
    ⟨-, heq⟩ | ⟨mm, a, d, t, hmm, hv, hfind, hd, -, ht, -, -⟩
  · rwa [heq]
  · exact absurd ⟨a, d, hfind, hd, ht⟩ (hstale.free addr t rfl (by simp [hmm]) hv)

theorem PtesOk.allocCreate (h : PtesOk mmOf s) (hinv : Inv S s []) (tgid : Nat) (mm : Option MmId)
    (ans : Answers) : PtesOk mmOf (s.allocCreate tgid mm ans).2 := by
  unfold State.allocCreate
  split
  · next hc =>
      have hslot : s.saAllocators.slot tgid = none := by
        simp only [Bool.and_eq_true, Option.isNone_iff_eq_none] at hc
        exact hc.2
      intro g a ha
      refine (h g a ha).mono fun t ⟨b, d, hb, hd, ht⟩ ↦ ⟨⟨b, d, ?_, ?_, ht⟩, rfl⟩
      · have hg : g ≠ tgid := fun hc ↦ by
          rw [hc, allocFind, Xarray.load_eq_none_of_slot hslot] at hb
          cases hb
        simpa [allocFind, hg] using hb
      · have hne : b ≠ s.nextAlloc := (hinv.alloc.lt b d hd).ne
        simpa [hne] using hd
  · exact h

/-- **One call keeps isolation.** -/
theorem PtesOk.exec (h : PtesOk mmOf s) (hinj : Function.Injective mmOf) (hinv : Inv S s [])
    {e : Event} (he : UserCall mmOf s e) (hstale : NoStale s e) : PtesOk mmOf (exec s e).2 := by
  obtain ⟨cur, call, ans⟩ := e
  cases call with
  | allocCreate tgid mm => exact h.allocCreate hinv tgid mm ans
  | allocDestroy a => exact he.user.elim
  | saAlloc => exact h.saAlloc hinj hinv he hstale
  | saFork pt pp => exact h.saFork hinj hinv he hstale
  | saFree addr => exact h.saFree hinv hstale
  | vmaFree => exact he.user.elim

/-- Isolation of shadow areas: a present PTE of the window maps the page of the process's own live
area that belongs there.  In particular, such a page is not on the free list, is still held, and
belongs to no other process. -/
structure Isolation (mmOf : Nat → MmId) (s : State) : Prop where
  live : ∀ g a p, InWindow a → (s.mms (mmOf g)).pteAt s.l5 a = .present p →
    ∃ t, s.Live g (addrToId a) t ∧
      (s.pagesOf t.pagelist)[(a - idToAddr (addrToId a)) / pageSize]? = some p
  wild : ∀ g a, InWindow a → (s.mms (mmOf g)).pteAt s.l5 a ≠ .wild
  free : ∀ g a p, InWindow a → (s.mms (mmOf g)).pteAt s.l5 a = .present p →
    ∀ pl ∈ s.glSa, p ∉ s.pagesOf pl
  held : ∀ g a p, InWindow a → (s.mms (mmOf g)).pteAt s.l5 a = .present p → p ∈ s.held
  other : ∀ g a p, InWindow a → (s.mms (mmOf g)).pteAt s.l5 a = .present p →
    ∀ g' id t, g' ≠ g → s.Live g' id t → p ∉ s.pagesOf t.pagelist

theorem PtesOk.isolation (h : PtesOk mmOf s) (hinv : Inv S s []) : Isolation mmOf s := by
  have hlive : ∀ g a p, InWindow a → (s.mms (mmOf g)).pteAt s.l5 a = .present p →
      ∃ t, s.Live g (addrToId a) t ∧
        (s.pagesOf t.pagelist)[(a - idToAddr (addrToId a)) / pageSize]? = some p := by
    intro g a p ha hp
    have := h g a ha
    rwa [hp] at this
  refine ⟨hlive, ?_, ?_, ?_, ?_⟩
  · intro g a ha hc
    have := h g a ha
    rw [hc] at this
    exact this
  · intro g a p ha hp pl hpl hmem
    obtain ⟨t, ht, hpage⟩ := hlive g a p ha hp
    obtain ⟨b, ho⟩ := ht.owns []
    obtain rfl := hinv.live_page (List.mem_of_getElem? hpage) hmem
    simpa using hinv.owners.unique _ _ .gl ho hpl
  · intro g a p ha hp
    obtain ⟨t, ht, hpage⟩ := hlive g a p ha hp
    have hmem := List.mem_of_getElem? hpage
    cases hl : s.pagelists t.pagelist with
    | none => simp [pagesOf, hl] at hmem
    | some l => exact hinv.pages.mem_held _ l p hl (by rwa [pagesOf_eq hl] at hmem)
  · intro g a p ha hp g' id t' hg ht' hmem
    obtain ⟨t, ht, hpage⟩ := hlive g a p ha hp
    have hpl := hinv.live_page (List.mem_of_getElem? hpage) hmem
    exact hg (hinv.live_group ht' ht hpl.symm)

/-- **Isolation over whole runs**, as long as no call leaves a stale PTE behind. -/
theorem run_isolation {l5 : Bool} {mms : MmId → Mm} {data : Page → PageData} {es : List Event}
    (hinj : Function.Injective mmOf)
    (hempty : ∀ g a, InWindow a → (mms (mmOf g)).pteAt l5 a = .none)
    (h : Run (Guarded (fun s e ↦ UserCall mmOf s e ∧ NoStale s e) Step)
      (State.init l5 mms data) es s) : Isolation mmOf s := by
  have hinv : Inv Set.univ s [] ∧ PtesOk mmOf s := by
    refine h.invariant (I := fun s ↦ Inv Set.univ s [] ∧ PtesOk mmOf s) ⟨Inv.init l5 mms data, ?_⟩ ?_
    · intro g a ha
      have hnone : ((State.init l5 mms data).mms (mmOf g)).pteAt (State.init l5 mms data).l5 a =
          .none := hempty g a ha
      rw [hnone]
      trivial
    · rintro t e t' ⟨hinv, hptes⟩ ⟨⟨hcall, hstale⟩, rfl⟩
      exact ⟨hinv.exec hcall.adm (.inr rfl), hptes.exec hinj hinv hcall hstale⟩
  exact hinv.2.isolation hinv.1

/-! ## A freed area stays mapped -/

section Stale

variable {cur : Task} {addr : Nat} {mm : MmId}

/-- After `sa_alloc` the first page of the area is mapped. -/
theorem saAlloc_mapped (h : Inv S s []) (hfresh : ans.Fresh s) (hmm : cur.mm = some mm)
    (hok : (saAlloc s cur ans).1 = ⟨none, some addr⟩) :
    (saAlloc s cur ans).2.l5 = s.l5 ∧
      ∃ p, ((saAlloc s cur ans).2.mms mm).pteAt s.l5 addr = .present p := by
  obtain ⟨mm', a, d, pl, s₁, id, hm, hlow, rfl, heq⟩ := saAlloc_ok hok
  obtain rfl : mm' = mm := Option.some.inj (hm.mm.symm.trans hmm)
  obtain ⟨-, hid, -, -⟩ := Xarray.lowestFree_eq_some hlow
  have hp := h.prepared hfresh hm.stack
  obtain ⟨m, hrw⟩ := mapArea_rewrites hid s₁ mm' pl ans
  have hlt : idToAddr id + ssSize < 2 ^ 64 := idToAddr_add_lt hid
  have hpos : 0 < ssSize := by decide
  have herr : (s₁.mapArea mm' (idToAddr id) pl ans).2 = false := by
    rcases saAlloc_cases s cur ans with
      ⟨herr, -⟩ | ⟨mm₂, a₂, d₂, pl₂, s₂, id₂, hm₂, hlow₂, ⟨-, hr, -⟩ | ⟨hmap, hr, -⟩⟩
    · rw [hok] at herr
      exact absurd rfl herr
    · rw [hok] at hr
      simp at hr
    · obtain rfl : mm' = mm₂ := Option.some.inj (hm.mm.symm.trans hm₂.mm)
      obtain rfl : a = a₂ := Option.some.inj (hm.find.symm.trans hm₂.find)
      obtain rfl : d = d₂ := Option.some.inj (hm.alloc.symm.trans hm₂.alloc)
      obtain ⟨rfl, rfl⟩ := Prod.mk.inj (Option.some.inj (hm.stack.symm.trans hm₂.stack))
      obtain rfl : id = id₂ := Option.some.inj (hlow.symm.trans hlow₂)
      exact hmap
  obtain rfl := hrw.done herr
  obtain ⟨l, hl⟩ := hp.inv.pagelist_of_call
  obtain ⟨p, -, hpte⟩ := mkPte_idToAddr (s₁.pagesOf pl)
    (by rw [pagesOf_eq hl]; exact hp.inv.pages.size pl l hl) (le_refl (idToAddr id)) (by omega) (by omega)
  have hlook := hrw.look (idToAddr id) ⟨ssStart_le_idToAddr hid, by omega⟩
  rw [if_pos ⟨le_rfl, by omega⟩, hpte, hp.frame.l5] at hlook
  rw [heq]
  obtain ⟨r, hr⟩ := mapArea_eq s₁ mm' (idToAddr id) pl ans
  rw [hr] at hlook ⊢
  exact ⟨hp.frame.l5, p, hlook⟩

/-- `sa_free` leaves all PTEs, also those of the area it frees. -/
theorem saFree_stale (ans : Answers) (h : Inv S s []) {t : ThreadDesc} (hmm : cur.mm = some mm)
    (hv : ValidAddr addr) (ht : s.Live cur.tgid (addrToId addr) t) :
    (saFree s cur ans addr).2.mms = s.mms ∧ (saFree s cur ans addr).2.l5 = s.l5 ∧
      ∀ t', ¬ (saFree s cur ans addr).2.Live cur.tgid (addrToId addr) t' := by
  obtain ⟨a, d, hfind, hd, hload⟩ := ht
  obtain ⟨d', hd', hg⟩ := h.alloc.find hfind
  obtain rfl : d = d' := Option.some.inj (hd.symm.trans hd')
  rw [saFree_eq hmm hv hfind (by rw [threads_eq hd, hload]),
    h.alloc.free_eq hd (by rw [hg, hfind]) hload]
  have hframe := glFree_frame (s.setAlloc a (d.remove (addrToId addr))) t.pagelist
  refine ⟨hframe.mms, hframe.l5, ?_⟩
  rintro t' ⟨b, e, hb, he, hb'⟩
  have hfind' : ((s.setAlloc a (d.remove (addrToId addr))).glFree t.pagelist).allocFind cur.tgid =
      some a := by
    rw [allocFind, hframe.saAllocators]
    exact hfind
  obtain rfl : b = a := Option.some.inj (hb.symm.trans hfind')
  rw [hframe.allocs, setAlloc_allocs] at he
  obtain rfl := Option.some.inj he
  simp [AllocatorDesc.remove] at hb'

/-- An area that was allocated and freed is still mapped, without a descriptor. -/
theorem saFree_saAlloc_stale (cur : Task) (mm : MmId) {id : Nat} (h : Inv S s []) (hfresh : ans.Fresh s)
    (hmm : cur.mm = some mm) (hid : id < threadsLimit)
    (hok : (saAlloc s cur ans).1 = ⟨none, some (idToAddr id)⟩) (ans' : Answers) :
    (∃ p, ((saFree (saAlloc s cur ans).2 cur ans' (idToAddr id)).2.mms mm).pteAt s.l5
      (idToAddr id) = .present p) ∧
    (saFree (saAlloc s cur ans).2 cur ans' (idToAddr id)).2.l5 = s.l5 ∧
    ∀ t, ¬ (saFree (saAlloc s cur ans).2 cur ans' (idToAddr id)).2.Live cur.tgid id t := by
  have hinv := h.saAlloc cur hfresh
  obtain ⟨hl5, p, hpte⟩ := saAlloc_mapped h hfresh hmm hok
  obtain ⟨t, ht⟩ : ∃ t, (saAlloc s cur ans).2.Live cur.tgid id t := by
    obtain ⟨mm', a, d, pl, s₁, id', hm, hlow, haddr, heq⟩ := saAlloc_ok hok
    obtain ⟨-, hid', -, -⟩ := Xarray.lowestFree_eq_some hlow
    obtain rfl : id = id' := by
      rw [← addrToId_idToAddr hid.le, haddr, addrToId_idToAddr hid']
    refine ⟨⟨cur.pid, idToAddr id, pl⟩, a, d.add id ⟨cur.pid, idToAddr id, pl⟩, ?_, ?_, ?_⟩
    · rw [allocFind, heq, setAlloc_saAllocators, mapArea_saAllocators,
        (glAllocStack_frame hm.stack).saAllocators]
      exact hm.find
    · rw [heq, setAlloc_allocs]
    · simp [AllocatorDesc.add]
  have hstale := saFree_stale ans' hinv hmm (validAddr_idToAddr hid)
    (by rw [addrToId_idToAddr hid.le]; exact ht)
  rw [addrToId_idToAddr hid.le] at hstale
  obtain ⟨hmms, hl5', hdead⟩ := hstale
  exact ⟨⟨p, by rw [hmms]; exact hpte⟩, hl5'.trans hl5, hdead⟩

end Stale

theorem textMm_window {a : Nat} (ha : InWindow a) : textMm.pteAt false a = .none := by
  have hidx : pgdIndex false a ≠ 0 := by
    have h₁ := ha.1
    have h₂ := ha.2
    simp only [ssStart, ssEnd] at h₁ h₂
    simp only [pgdIndex, pgdirShift, ptrs, Bool.false_eq_true, ↓reduceIte]
    omega
  have hnone : textMm.pgd (pgdIndex false a) = .none := by simp [textMm, hidx]
  rw [Mm.pteAt, hnone]
  rfl

/-- Process 1 has address space 0. -/
def swapMm : Nat → MmId := Equiv.swap 0 1

theorem swapMm_injective : Function.Injective swapMm := (Equiv.swap 0 1).injective

theorem userCall_createEvent (s : State) : UserCall swapMm s createEvent :=
  ⟨admissible_createEvent s, trivial, by simp [createEvent, swapMm]⟩

theorem userCall_allocEvent : UserCall swapMm created (allocEvent 0) :=
  ⟨⟨filled_created.fresh, by simp [allocEvent]⟩, trivial, by simp [allocEvent, swapMm]⟩

theorem noStale_createEvent (s : State) : NoStale s createEvent :=
  ⟨by simp [createEvent], by simp [createEvent, Target]⟩

theorem noStale_allocEvent (s : State) (n : Nat) : NoStale s (allocEvent n) := by
  refine ⟨by simp [allocEvent], fun mm id _ _ a _ _ hd ↦ absurd hd (not_denied ?_ _ _)⟩
  simp [allocEvent, grants, noPages]

/-- A run that maps one area. -/
theorem run_isolation_alloc : Isolation swapMm (exec created (allocEvent 0)).2 :=
  run_isolation swapMm_injective (fun _ _ ha ↦ textMm_window ha)
    ((Run.single ⟨⟨userCall_createEvent _, noStale_createEvent _⟩, rfl⟩).snoc
      ⟨⟨userCall_allocEvent, noStale_allocEvent _ 0⟩, rfl⟩)

/-- `sa_free` of the first area by process 1. -/
def freeEvent : Event := ⟨⟨1, 1, some 0⟩, .saFree (idToAddr 0), noPages⟩

theorem userCall_freeEvent (s : State) : UserCall swapMm s freeEvent :=
  ⟨⟨fresh_noPages s [], by simp [freeEvent]⟩, trivial, by simp [freeEvent, swapMm]⟩

theorem exec_allocEvent (s : State) (n : Nat) :
    exec s (allocEvent n) = saAlloc s ⟨1, 1, some 0⟩ (grants (n * ssPages)) := rfl

theorem exec_freeEvent (s : State) :
    exec s freeEvent = saFree s ⟨1, 1, some 0⟩ noPages (idToAddr 0) := rfl

/-- A process that frees its only area still reaches its first page: isolation fails on some run
of user calls. -/
theorem not_run_isolation :
    ¬ ∀ (mmOf : Nat → MmId) (l5 : Bool) (mms : MmId → Mm) (data : Page → PageData)
      (es : List Event) (s : State), Function.Injective mmOf →
      (∀ g a, InWindow a → (mms (mmOf g)).pteAt l5 a = .none) →
      Run (Guarded (UserCall mmOf) Step) (State.init l5 mms data) es s → Isolation mmOf s := by
  intro h
  have hcreated : Inv Set.univ created [] :=
    (Inv.init _ _ _).exec (admissible_createEvent _) (.inr rfl)
  have hrun : Run (Guarded (UserCall swapMm) Step) (State.init false (fun _ ↦ textMm) fun _ _ ↦ 0)
      [createEvent, allocEvent 0, freeEvent] (exec (exec created (allocEvent 0)).2 freeEvent).2 :=
    ((Run.single ⟨userCall_createEvent _, rfl⟩).snoc ⟨userCall_allocEvent, rfl⟩).snoc
      ⟨userCall_freeEvent _, rfl⟩
  have hiso := h _ _ _ _ _ _ swapMm_injective (fun _ _ ha ↦ textMm_window ha) hrun
  rw [exec_freeEvent, exec_allocEvent] at hiso
  obtain ⟨⟨p, hpte⟩, hl5, hdead⟩ := saFree_saAlloc_stale ⟨1, 1, some 0⟩ 0 hcreated
    filled_created.fresh rfl (by decide) (filled_created.saAlloc (Nat.zero_le _)).1 noPages
  have hwin : InWindow (idToAddr 0) := by
    obtain ⟨h₁, h₂, -⟩ := validAddr_idToAddr (show 0 < threadsLimit by decide)
    exact ⟨h₁, h₂⟩
  obtain ⟨t, ht, -⟩ := hiso.live 1 (idToAddr 0) p hwin (by
    rw [hl5]
    have hmm : swapMm 1 = 0 := by simp [swapMm]
    rw [hmm]
    exact hpte)
  rw [addrToId_idToAddr (Nat.zero_le _)] at ht
  exact hdead t ht

end ShadowStack.Lkm
