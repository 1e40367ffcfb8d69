import ShadowStack.Lkm.Shadow
import ShadowStack.Lkm.Teardown

/-!
# The module is private memory

A run of complete calls and of accesses through the page tables is a run of `Shadow.Step`, as long as
processes keep to their live areas: pages may be recycled, tables torn down and mappings left behind,
but no process can tell.  Each entry point keeps `Backed` and does what the abstract memory says, by
the list of its outcomes.
-/

namespace ShadowStack.Lkm

open Lib State

variable {s s' s₁ : State} {mmOf : Nat → MmId} {pl : PlPtr} {ans : Answers} {g id : Nat} {t : ThreadDesc}

/-! ## Calls that change one allocator -/

section Calls

variable {cur : Task} {a : AllocPtr} {d e : AllocatorDesc}

/-- The descriptors of the process whose allocator has changed are those of the new one. -/
theorem State.live_update (hok : AllocOk s) (hfind : s.allocFind g = some a)
    (hreg : s'.saAllocators = s.saAllocators)
    (hallocs : s'.allocs = Function.update s.allocs a (some e)) (g' i : Nat) :
    s'.Live g' i t ↔ if g' = g then e.threads.load i = some t else s.Live g' i t := by
  have hfind' : ∀ g', s'.allocFind g' = s.allocFind g' := fun g' ↦ by rw [allocFind, hreg, allocFind]
  simp only [Live, hfind']
  by_cases hg : g' = g
  · subst hg
    simp [hfind, hallocs]
  · rw [if_neg hg]
    refine exists_congr fun b ↦ exists_congr fun d' ↦ and_congr_right fun hb ↦ ?_
    -- an allocator is registered for one process
    have hne : b ≠ a := by
      rintro rfl
      obtain ⟨d₁, hd₁, hg₁⟩ := hok.find hfind
      obtain ⟨d₂, hd₂, hg₂⟩ := hok.find hb
      obtain rfl := Option.some.inj (hd₁.symm.trans hd₂)
      exact hg (hg₂.symm.trans hg₁)
    rw [hallocs, Function.update_of_ne hne]

theorem State.live_of_find (hfind : s.allocFind g = some a) (hd : s.allocs a = some d) :
    s.Live g id t ↔ d.threads.load id = some t := by
  simp [Live, hfind, hd]

/-- The descriptors after one was added, -/
theorem State.live_add (hok : AllocOk s) (hfind : s.allocFind g = some a) (hd : s.allocs a = some d)
    (hreg : s'.saAllocators = s.saAllocators) {t₀ : ThreadDesc}
    (hallocs : s'.allocs = Function.update s.allocs a (some (d.add id t₀))) (g' i : Nat) :
    s'.Live g' i t ↔ if g' = g ∧ i = id then t₀ = t else s.Live g' i t := by
  rw [live_update hok hfind hreg hallocs]
  by_cases hg : g' = g
  · subst hg
    by_cases hi : i = id <;> simp [hi, AllocatorDesc.add, live_of_find hfind hd]
  · simp [hg]

/-- and after one was removed. -/
theorem State.live_remove (hok : AllocOk s) (hfind : s.allocFind g = some a) (hd : s.allocs a = some d)
    (hreg : s'.saAllocators = s.saAllocators)
    (hallocs : s'.allocs = Function.update s.allocs a (some (d.remove id))) (g' i : Nat) :
    s'.Live g' i t ↔ ¬ (g' = g ∧ i = id) ∧ s.Live g' i t := by
  rw [live_update hok hfind hreg hallocs]
  by_cases hg : g' = g
  · subst hg
    by_cases hi : i = id <;> simp [hi, AllocatorDesc.remove, live_of_find hfind hd]
  · simp [hg]

/-- A call that gives its pagelist up leaves the memory as it was, if its changes of the page tables do
not concern live areas. -/
theorem Backed.giveUp (h : Backed mmOf s) (ht : Taken s s₁ pl) {mm : MmId} {r : Mm × Bool}
    (hpte : ∀ g i t, s.Live g i t → ∀ off < ssSize,
      (Function.update s.mms mm r.1 (mmOf g)).pteAt s.l5 (idToAddr i + off) =
        (s.mms (mmOf g)).pteAt s.l5 (idToAddr i + off)) :
    Backed mmOf ((s₁.withTables mm r).1.glFree pl) ∧
      ((s₁.withTables mm r).1.glFree pl).shadow = s.shadow := by
  obtain ⟨s₂, hs₂⟩ : ∃ s₂, (s₁.withTables mm r).1 = s₂ := ⟨_, rfl⟩
  have hframe := glFree_frame s₂ pl
  have hreg : (s₂.glFree pl).saAllocators = s.saAllocators := by
    rw [hframe.saAllocators, ← hs₂, ← ht.frame.saAllocators]
    rfl
  have hallocs : (s₂.glFree pl).allocs = s.allocs := by
    rw [hframe.allocs, ← hs₂, ← ht.frame.allocs]
    rfl
  have hu : Untouched mmOf (fun _ _ ↦ False) s (s₂.glFree pl) := by
    refine ⟨fun g i t _ ↦ live_congr hreg hallocs g i t, fun g i t _ hl ↦ ?_, fun g i t _ hl p hp ↦ ?_,
      fun g i t _ hl off hoff ↦ ?_⟩
    · rw [← hs₂]
      exact (ht.live_glFree h.inv hl mm r).2
    · have hpl : s₂.pagesOf pl = s₁.pagesOf pl := by
        rw [← hs₂]
        rfl
      rw [glFree_data (by rw [hpl]; exact ht.apart h.inv hl hp), ← ht.data g i t hl p hp, ← hs₂]
      rfl
    · rw [hframe.mms, hframe.l5, ← hpte g i t hl off hoff, ← hs₂, ← ht.frame.mms, ← ht.frame.l5]
      rfl
  rw [hs₂]
  refine h.of_untouched_all hu ?_ ?_ hreg hallocs
  · rw [← hs₂]
    exact (ht.inv.withTables mm r).glFree
  · rw [← hs₂]
    exact State.Zeroed.glFree ht.zeroed fun q hq ↦ ht.ne_of_mem hq

/-- Mapping an area at an id that is free does not concern the live areas. -/
theorem Taken.mapArea (ht : Taken s s₁ pl) (hinj : Function.Injective mmOf) (hok : AllocOk s)
    (hid : id ≤ threadsLimit) (hfree : ∀ t, ¬ s.Live g id t) {r : Mm × Bool}
    (hr : s₁.mapArea (mmOf g) (idToAddr id) pl ans = s₁.withTables (mmOf g) r) (g' i : Nat) (t : ThreadDesc)
    (hl : s.Live g' i t) (off : Nat) (hoff : off < ssSize) :
    (Function.update s.mms (mmOf g) r.1 (mmOf g')).pteAt s.l5 (idToAddr i + off) =
      (s.mms (mmOf g')).pteAt s.l5 (idToAddr i + off) := by
  by_cases hg : g' = g
  · subst hg
    have hne : i ≠ id := fun hc ↦ hfree t (hc ▸ hl)
    have hi := hl.le hok
    obtain ⟨m, hm⟩ := mapArea_rewrites hid s₁ (mmOf g') pl ans
    have hlook := hm.look (idToAddr i + off) ⟨le_trans (ssStart_le_idToAddr hi) (Nat.le_add_right _ _),
      lt_trans (Nat.add_lt_add_left hoff _) (idToAddr_add_lt hi)⟩
    have hle := hm.le_end
    have hdis := idToAddr_disjoint hi hid hne
    rw [if_neg (by omega), hr, ht.frame.l5, ht.frame.mms] at hlook
    rw [← hlook, ← ht.frame.mms]
    rfl
  · rw [Function.update_of_ne fun hc ↦ hg (hinj hc)]

/-- A call that maps its pagelist at a free id gives the process an area with its bytes. -/
theorem Backed.give (h : Backed mmOf s) (ht : Taken s s₁ pl) (hinj : Function.Injective mmOf)
    (hfind : s.allocFind cur.tgid = some a) (hd : s.allocs a = some d)
    (hfree : d.threads.slot id = none) (hid : id ≤ threadsLimit)
    (hmap : (s₁.mapArea (mmOf cur.tgid) (idToAddr id) pl ans).2 = false) :
    Backed mmOf ((s₁.mapArea (mmOf cur.tgid) (idToAddr id) pl ans).1.setAlloc a
        (d.add id ⟨cur.pid, idToAddr id, pl⟩)) ∧
      ((s₁.mapArea (mmOf cur.tgid) (idToAddr id) pl ans).1.setAlloc a
        (d.add id ⟨cur.pid, idToAddr id, pl⟩)).shadow =
          s.shadow.setArea cur.tgid id (some ⟨cur.pid, s₁.byteOf pl⟩) := by
  have hnot : ∀ t, ¬ s.Live cur.tgid id t := fun t hl ↦ by
    rw [live_of_find hfind hd, Xarray.load_eq_none_of_slot hfree] at hl
    cases hl
  obtain ⟨m, hm⟩ := mapArea_rewrites hid s₁ (mmOf cur.tgid) pl ans
  obtain rfl := hm.done hmap
  have hinv := ht.inv.mapArea (mmOf cur.tgid) (idToAddr id) pl ans
  obtain ⟨r, hr⟩ := mapArea_eq s₁ (mmOf cur.tgid) (idToAddr id) pl ans
  have hpte := ht.mapArea hinj h.inv.alloc hid hnot hr
  rw [hr] at hm hinv ⊢
  have hd₂ : (s₁.withTables (mmOf cur.tgid) r).1.allocs a = some d := by
    rw [← hd, ← ht.frame.allocs]
    rfl
  have hinv' : Inv _ (State.setAlloc _ a (d.add id ⟨cur.pid, idToAddr id, pl⟩)) [] :=
    hinv.add hd₂ hfree hid
  obtain ⟨t₀, ht₀⟩ : ∃ t₀ : ThreadDesc, t₀ = ⟨cur.pid, idToAddr id, pl⟩ := ⟨_, rfl⟩
  rw [← ht₀] at hinv' ⊢
  obtain ⟨s', hs'⟩ : ∃ s', (s₁.withTables (mmOf cur.tgid) r).1.setAlloc a (d.add id t₀) = s' := ⟨_, rfl⟩
  have hreg : s'.saAllocators = s.saAllocators := by
    rw [← hs', ← ht.frame.saAllocators]
    rfl
  have hallocs : s'.allocs = Function.update s.allocs a (some (d.add id t₀)) := by
    rw [← hs', ← ht.frame.allocs]
    rfl
  have hmms : s'.mms = Function.update s.mms (mmOf cur.tgid) r.1 := by
    rw [← hs', ← ht.frame.mms]
    rfl
  have hl5 : s'.l5 = s.l5 := by
    rw [← hs', ← ht.frame.l5]
    rfl
  have hpages : ∀ q, s'.pagesOf q = s₁.pagesOf q := fun q ↦ by
    rw [← hs']
    rfl
  have hdata : s'.data = s₁.data := by
    rw [← hs']
    rfl
  have hgl : s'.glSa = s₁.glSa := by
    rw [← hs']
    rfl
  have hfind' : s'.allocFind = s.allocFind := funext fun g ↦ by rw [allocFind, hreg, allocFind]
  have hlive : ∀ g i t, s'.Live g i t ↔ if g = cur.tgid ∧ i = id then t₀ = t else s.Live g i t :=
    fun g i t ↦ live_add h.inv.alloc hfind hd hreg hallocs g i
  have hu : Untouched mmOf (fun g i ↦ g = cur.tgid ∧ i = id) s s' := by
    refine ⟨fun g i t hgi ↦ by rw [hlive, if_neg hgi], fun g i t _ hl ↦ ?_, fun g i t _ hl p hp ↦ ?_,
      fun g i t _ hl off hoff ↦ ?_⟩
    · rw [hpages, (ht.live h.inv hl).2.1]
    · rw [hdata, ht.data g i t hl p hp]
    · rw [hmms, hl5]
      exact hpte g i t hl off hoff
  rw [hs'] at hinv' ⊢
  refine ⟨h.of_untouched hu hinv' (fun q hq p hp ↦ ?_) ?_
    (h.mm_update hfind' hd (e := d.add id t₀) rfl hallocs), ?_⟩
  · rw [hgl] at hq
    rw [hpages] at hp
    rw [hdata]
    exact ht.zeroed q hq p hp
  · -- the new area
    rintro g i t ⟨rfl, rfl⟩ hl off hoff
    rw [hlive, if_pos ⟨rfl, rfl⟩] at hl
    obtain rfl := hl
    obtain ⟨l, hl⟩ := ht.inv.pagelist_of_call
    have hlt : idToAddr i + off < 2 ^ 64 := lt_trans (Nat.add_lt_add_left hoff _) (idToAddr_add_lt hid)
    obtain ⟨p, hpage, hp⟩ := mkPte_idToAddr (s₁.pagesOf pl)
      (by rw [pagesOf_eq hl]; exact ht.inv.pages.size pl l hl) (Nat.le_add_right _ off)
      (Nat.add_lt_add_left hoff _) hlt
    rw [Nat.add_sub_cancel_left] at hpage
    refine ⟨p, by rw [ht₀, hpages]; exact hpage, ?_⟩
    have hlook := hm.look (idToAddr i + off)
      ⟨le_trans (ssStart_le_idToAddr hid) (Nat.le_add_right _ _), hlt⟩
    rw [if_pos ⟨Nat.le_add_right _ _, Nat.add_lt_add_left hoff _⟩, hp, ht.frame.l5] at hlook
    rw [hl5, ← hlook, hmms, ← ht.frame.mms]
    rfl
  · refine shadow_eq_setArea hfind' ?_ fun g i hgi ↦ hu.area hgi
    have hself : s'.Live cur.tgid id t₀ := (hlive _ _ _).mpr (by simp)
    rw [hself.area, ht₀, byteOf_congr (hpages pl) fun p _ ↦ by rw [hdata]]

/-- A call that has not changed the page tables. -/
theorem Backed.giveUp_self (h : Backed mmOf s) (ht : Taken s s₁ pl) :
    Backed mmOf (s₁.glFree pl) ∧ (s₁.glFree pl).shadow = s.shadow := by
  have hself : (s₁.withTables 0 (s₁.mms 0, false)).1 = s₁ := by simp [withTables]
  have hkeep : Backed mmOf ((s₁.withTables 0 (s₁.mms 0, false)).1.glFree pl) ∧
      ((s₁.withTables 0 (s₁.mms 0, false)).1.glFree pl).shadow = s.shadow :=
    h.giveUp ht fun g i t _ off _ ↦ by rw [ht.frame.mms, Function.update_eq_self]
  rwa [hself] at hkeep

/-- A call that failed to map its pagelist at a free id. -/
theorem Backed.giveUp_map (h : Backed mmOf s) (ht : Taken s s₁ pl) (hinj : Function.Injective mmOf)
    (ans : Answers) (hfind : s.allocFind g = some a) (hd : s.allocs a = some d) (hfree : d.threads.slot id = none)
    (hid : id ≤ threadsLimit) :
    Backed mmOf ((s₁.mapArea (mmOf g) (idToAddr id) pl ans).1.glFree pl) ∧
      ((s₁.mapArea (mmOf g) (idToAddr id) pl ans).1.glFree pl).shadow = s.shadow := by
  obtain ⟨r, hr⟩ := mapArea_eq s₁ (mmOf g) (idToAddr id) pl ans
  have hnot : ∀ t, ¬ s.Live g id t := fun t hl ↦ by
    rw [live_of_find hfind hd, Xarray.load_eq_none_of_slot hfree] at hl
    cases hl
  have hpte := ht.mapArea hinj h.inv.alloc hid hnot hr
  rw [hr]
  exact h.giveUp ht hpte

/-- `sa_alloc` keeps the areas backed, and does what the abstract memory says. -/
theorem Backed.saAlloc (h : Backed mmOf s) (hinj : Function.Injective mmOf)
    (hc : OwnCall mmOf s ⟨cur, .saAlloc, ans⟩) :
    Backed mmOf (saAlloc s cur ans).2 ∧
      s.shadow.Step (.call ⟨cur, .saAlloc, ans⟩ (saAlloc s cur ans).1) (saAlloc s cur ans).2.shadow := by
  rcases saAlloc_cases s cur ans with
    ⟨herr, heq⟩ | ⟨mm, a, d, pl, s₁, id, hm, hlow, hrest⟩
  · rw [heq]
    exact ⟨h, .failed herr rfl⟩
  · obtain ⟨-, hid, hfree, -⟩ := Xarray.lowestFree_eq_some hlow
    obtain rfl := hc.mm mm hm.mm
    obtain ⟨ht, hclear⟩ := h.take hc.adm.fresh hm.stack
    rcases hrest with ⟨-, hr, heq⟩ | ⟨hmap, hr, heq⟩
    · obtain ⟨hb, hs⟩ := h.giveUp_map ht hinj ans hm.find hm.alloc hfree hid
      rw [heq, hr]
      exact ⟨hb, .failed (by simp) hs⟩
    · obtain ⟨hb, hs⟩ := h.give ht hinj hm.find hm.alloc hfree hid hmap
      rw [heq, hr]
      refine ⟨hb, ?_⟩
      have hzero : s₁.byteOf pl = fun _ ↦ 0 := by
        funext off
        unfold byteOf
        cases hp : (s₁.pagesOf pl)[off / pageSize]? with
        | none => rfl
        | some p => exact congrFun (hclear p (List.mem_of_getElem? hp)) _
      rw [hs, hzero]
      refine .ok rfl ⟨id, rfl, ?_, ?_, rfl⟩
      · show s.allocFind cur.tgid ≠ none
        rw [hm.find]
        simp
      · rw [area_eq_none]
        intro t hl
        rw [live_of_find hm.find hm.alloc, Xarray.load_eq_none_of_slot hfree] at hl
        cases hl

/-- The copy loop copies byte for byte. -/
theorem byteOf_copyPages {src dst : PlPtr} {ls ld : Pagelist} (hs : s.pagelists src = some ls)
    (hd : s.pagelists dst = some ld) (hlen : ls.pages.length = ld.pages.length) (hnd : ld.pages.Nodup)
    (hdis : ∀ p ∈ ls.pages, p ∉ ld.pages) :
    (copyPages s (s.pagesOf dst) (s.pagesOf src)).byteOf dst = s.byteOf src := by
  funext off
  have hpages : (copyPages s (s.pagesOf dst) (s.pagesOf src)).pagesOf dst = s.pagesOf dst := rfl
  unfold byteOf
  rw [hpages]
  by_cases hoff : off / pageSize < ls.pages.length
  · obtain ⟨q, hq⟩ : ∃ q, (s.pagesOf src)[off / pageSize]? = some q :=
      ⟨_, List.getElem?_eq_getElem (by rw [pagesOf_eq hs]; exact hoff)⟩
    obtain ⟨p, hp⟩ : ∃ p, (s.pagesOf dst)[off / pageSize]? = some p :=
      ⟨_, List.getElem?_eq_getElem (by rw [pagesOf_eq hd, ← hlen]; exact hoff)⟩
    rw [hq, hp]
    refine congrFun (copyData_get (by rw [pagesOf_eq hd]; exact hnd) hp hq ?_) _
    rw [pagesOf_eq hs, pagesOf_eq hd]
    exact hdis
  · rw [List.getElem?_eq_none (by rw [pagesOf_eq hd, ← hlen]; omega),
      List.getElem?_eq_none (by rw [pagesOf_eq hs]; omega)]

/-- The area `sa_fork` makes has the bytes of the one it copies. -/
theorem Taken.byteOf_copy (ht : Taken s s₁ pl) (h : Backed mmOf s) (hl : s.Live g id t) :
    (Lkm.copyPages s₁ (s₁.pagesOf pl) (s₁.pagesOf t.pagelist)).byteOf pl = s.byteOf t.pagelist := by
  obtain ⟨hl₁, hpages, -⟩ := ht.live h.inv hl
  obtain ⟨a, ho⟩ := hl₁.owns [pl]
  obtain ⟨ls, hls⟩ := Option.ne_none_iff_exists'.mp (ht.inv.owners.exists ho)
  obtain ⟨ld, hld⟩ := ht.inv.pagelist_of_call
  rw [byteOf_copyPages hls hld, byteOf_congr hpages (ht.data g id t hl)]
  · rw [ht.inv.pages.size _ ls hls, ht.inv.pages.size _ ld hld]
  · exact ht.inv.pages.nodup pl ld hld
  · intro p hp
    rw [← pagesOf_eq hls, hpages] at hp
    rw [← pagesOf_eq hld]
    exact ht.apart h.inv hl hp

/-- `sa_fork` keeps the areas backed, and does what the abstract memory says. -/
theorem Backed.saFork (h : Backed mmOf s) (hinj : Function.Injective mmOf) {pt pp : Nat}
    (hc : OwnCall mmOf s ⟨cur, .saFork pt pp, ans⟩) :
    Backed mmOf (saFork s cur ans pt pp).2 ∧
      s.shadow.Step (.call ⟨cur, .saFork pt pp, ans⟩ (saFork s cur ans pt pp).1)
        (saFork s cur ans pt pp).2.shadow := by
  rcases saFork_cases s cur ans pt pp with
    ⟨herr, heq⟩ | ⟨mm, a, d, pl, s₁, parent, hm, hparent, ⟨herr, heq⟩ | ⟨id, t, s₂, ht, hs₂, hrest⟩⟩
  · rw [heq]
    exact ⟨h, .failed herr rfl⟩
  · obtain ⟨hb, hs⟩ := h.giveUp_self (h.take hc.adm.fresh hm.stack).1
    rw [heq]
    exact ⟨hb, .failed herr hs⟩
  · have htaken := (h.take hc.adm.fresh hm.stack).1
    have htaken₂ : Taken s s₂ pl := by
      rw [hs₂]
      exact htaken.copyPages h.inv _
    have hid := h.inv.alloc.find_le hparent ht
    rcases hrest with ⟨herr, heq⟩ | ⟨hfree, hrest⟩
    · obtain ⟨hb, hs⟩ := h.giveUp_self htaken₂
      rw [heq]
      exact ⟨hb, .failed herr hs⟩
    obtain rfl := hc.mm mm hm.mm
    rcases hrest with ⟨-, herr, heq⟩ | ⟨hmap, hr, heq⟩
    · obtain ⟨hb, hs⟩ := h.giveUp_map htaken₂ hinj ans hm.find hm.alloc hfree hid
      rw [heq]
      exact ⟨hb, .failed herr hs⟩
    · obtain ⟨hb, hs⟩ := h.give htaken₂ hinj hm.find hm.alloc hfree hid hmap
      obtain ⟨hload, htid, hfirst⟩ := Xarray.find?_eq_some ht
      obtain ⟨dp, hdp, -⟩ := h.inv.alloc.find hparent
      rw [threads_eq hdp] at hload hfirst
      have hl : s.Live pt id t := (live_of_find hparent hdp).mpr hload
      rw [heq, hr]
      refine ⟨hb, ?_⟩
      have hbytes : s₂.byteOf pl = s.byteOf t.pagelist := by
        rw [hs₂]
        exact htaken.byteOf_copy h hl
      rw [hs, hbytes]
      refine .ok rfl ⟨id, _, hl.area, by simpa using htid, fun i y hy hpp ↦ ?_, ?_, ?_, rfl⟩
      · obtain ⟨u, hu, rfl⟩ := area_eq_some.mp hy
        by_contra hlt
        exact hfirst i (not_le.mp hlt) u ((live_of_find hparent hdp).mp hu) (by simpa using hpp)
      · show s.allocFind cur.tgid ≠ none
        rw [hm.find]
        simp
      · rw [area_eq_none]
        intro t hl
        rw [live_of_find hm.find hm.alloc, Xarray.load_eq_none_of_slot hfree] at hl
        cases hl

/-- Descriptors with one pagelist are one. -/
theorem Inv.live_unique {S : Set Page} (h : Inv S s []) {g' i' : Nat} {t' : ThreadDesc} (ht : s.Live g id t)
    (ht' : s.Live g' i' t') (hpl : t.pagelist = t'.pagelist) : g = g' ∧ id = i' := by
  refine ⟨h.live_group ht ht' hpl, ?_⟩
  obtain ⟨b, d, -, hd, hload⟩ := ht
  obtain ⟨c, e, -, he, hload'⟩ := ht'
  have ho := h.owners.unique t.pagelist (.desc b id) (.desc c i')
    ⟨t, by rw [threads_eq hd, hload], rfl⟩ ⟨t', by rw [threads_eq he, hload'], hpl.symm⟩
  injection ho

/-- `sa_free` keeps the areas backed, and does what the abstract memory says. -/
theorem Backed.saFree (h : Backed mmOf s) (cur : Task) (ans : Answers) (addr : Nat) :
    Backed mmOf (saFree s cur ans addr).2 ∧
      s.shadow.Step (.call ⟨cur, .saFree addr, ans⟩ (saFree s cur ans addr).1)
        (saFree s cur ans addr).2.shadow := by
  rcases h.inv.alloc.saFree_cases cur ans addr with
    ⟨herr, heq⟩ | ⟨mm, a, d, t, -, hv, hfind, hd, hreg, hload, hr, heq⟩
  · rw [heq]
    exact ⟨h, .failed herr rfl⟩
  obtain ⟨id, hid⟩ : ∃ id, addrToId addr = id := ⟨_, rfl⟩
  rw [hid] at hload heq
  have hl : s.Live cur.tgid id t := (live_of_find hfind hd).mpr hload
  have hinv := (h.inv.remove hd hreg hload).glFree
  rw [heq, hr]
  obtain ⟨s₂, hs₂⟩ : ∃ s₂, s.setAlloc a (d.remove id) = s₂ := ⟨_, rfl⟩
  rw [hs₂] at hinv ⊢
  have hframe := glFree_frame s₂ t.pagelist
  have hsa : (s₂.glFree t.pagelist).saAllocators = s.saAllocators := by
    rw [hframe.saAllocators, ← hs₂]
    rfl
  have hallocs : (s₂.glFree t.pagelist).allocs = Function.update s.allocs a (some (d.remove id)) := by
    rw [hframe.allocs, ← hs₂]
    rfl
  have hpl : ∀ q, s₂.pagesOf q = s.pagesOf q := fun q ↦ by
    rw [← hs₂]
    rfl
  have hfind' : (s₂.glFree t.pagelist).allocFind = s.allocFind :=
    funext fun g ↦ by rw [allocFind, hsa, allocFind]
  have hlive : ∀ g i u, (s₂.glFree t.pagelist).Live g i u ↔ ¬ (g = cur.tgid ∧ i = id) ∧ s.Live g i u :=
    fun g i u ↦ live_remove h.inv.alloc hfind hd hsa hallocs g i
  -- the other areas have other pagelists and other pages
  have hne : ∀ g i u, ¬ (g = cur.tgid ∧ i = id) → s.Live g i u → u.pagelist ≠ t.pagelist :=
    fun g i u hgi hu hc ↦ hgi (h.inv.live_unique hu hl hc)
  have hu : Untouched mmOf (fun g i ↦ g = cur.tgid ∧ i = id) s (s₂.glFree t.pagelist) := by
    refine ⟨fun g i u hgi ↦ by rw [hlive]; exact and_iff_right hgi, fun g i u hgi hu ↦ ?_,
      fun g i u hgi hu p hp ↦ ?_, fun g i u _ hu off _ ↦ ?_⟩
    · rw [glFree_pagesOf (hne g i u hgi hu), hpl]
    · rw [glFree_data fun hc ↦ hne g i u hgi hu (h.inv.live_page hp (by rwa [hpl] at hc)), ← hs₂]
      rfl
    · rw [hframe.mms, hframe.l5, ← hs₂]
      rfl
  have hdead : ∀ u, ¬ (s₂.glFree t.pagelist).Live cur.tgid id u :=
    fun u hu ↦ ((hlive _ _ _).mp hu).1 ⟨rfl, rfl⟩
  refine ⟨h.of_untouched hu hinv ?_ ?_ (h.mm_update hfind' hd (e := d.remove id) rfl hallocs), ?_⟩
  · have hz : s₂.Zeroed := by
      rw [← hs₂]
      exact h.zeroed
    refine hz.glFree fun q hq ↦ ?_
    rintro rfl
    obtain ⟨b, ho⟩ := hl.owns []
    have hgl : s.Owns [] .gl t.pagelist := by
      rw [← hs₂] at hq
      exact hq
    simpa using h.inv.owners.unique _ _ _ ho hgl
  · rintro g i u ⟨rfl, rfl⟩ hc
    exact absurd hc (hdead u)
  · refine .ok rfl ⟨hv, by rw [hid, hl.area]; simp, ?_⟩
    rw [hid]
    exact shadow_eq_setArea hfind' (area_eq_none.mpr hdead) fun g i hgi ↦ hu.area hgi

end Calls

/-! ## The other entry points -/

/-- `alloc_create` keeps the areas backed, and does what the abstract memory says. -/
theorem Backed.allocCreate (h : Backed mmOf s) {cur : Task} {tgid : Nat} {mm : Option MmId}
    (hc : OwnCall mmOf s ⟨cur, .allocCreate tgid mm, ans⟩) (r : Reply) :
    Backed mmOf (s.allocCreate tgid mm ans).2 ∧
      s.shadow.Effect cur r (s.allocCreate tgid mm ans).2.shadow (.allocCreate tgid mm) := by
  have hinv := h.inv.allocCreate tgid mm ans
  unfold State.allocCreate at hinv ⊢
  split
  · next hcond =>
      rw [if_pos hcond] at hinv
      have hslot : s.saAllocators.slot tgid = none := by
        simp only [Bool.and_eq_true, Option.isNone_iff_eq_none] at hcond
        exact hcond.2
      have hnone : s.allocFind tgid = none := Xarray.load_eq_none_of_slot hslot
      obtain ⟨s', hs'⟩ : ∃ s' : State, s' = { s with
        saAllocators := s.saAllocators.set tgid (.entry s.nextAlloc)
        allocs := Function.update s.allocs s.nextAlloc (some ⟨tgid, mm, .empty, 0, 1⟩)
        nextAlloc := s.nextAlloc + 1 } := ⟨_, rfl⟩
      simp only [← hs'] at hinv ⊢
      have hfind : s'.allocFind = Function.update s.allocFind tgid (some s.nextAlloc) := by
        funext g
        rw [hs']
        by_cases hg : g = tgid <;> simp [allocFind, hg]
      have hallocs : s'.allocs = Function.update s.allocs s.nextAlloc (some ⟨tgid, mm, .empty, 0, 1⟩) := by
        rw [hs']
      have hlive : ∀ g i t, s'.Live g i t ↔ s.Live g i t := by
        intro g i t
        simp only [Live, hfind, hallocs]
        by_cases hg : g = tgid
        · subst hg
          simp [hnone]
        · rw [Function.update_of_ne hg]
          refine exists_congr fun b ↦ exists_congr fun d ↦ and_congr_right fun hb ↦ ?_
          obtain ⟨e, he, -⟩ := h.inv.alloc.find hb
          rw [Function.update_of_ne (h.inv.alloc.lt b e he).ne]
      refine ⟨⟨hinv, ?_, fun g i t hl ↦ ?_, fun g b d m hb hd hm ↦ ?_⟩, .inr ⟨hnone, fun i ↦ ?_, s.nextAlloc, ?_⟩⟩
      · rw [hs']
        exact h.zeroed
      · rw [hs']
        exact h.mapped g i t ((hlive g i t).mp hl)
      · rw [hfind] at hb
        rw [hallocs] at hd
        by_cases hg : g = tgid
        · subst hg
          rw [Function.update_self] at hb
          obtain rfl := Option.some.inj hb
          rw [Function.update_self] at hd
          obtain rfl := Option.some.inj hd
          exact hc.create g m (by rw [← show mm = some m from hm])
        · rw [Function.update_of_ne hg] at hb
          obtain ⟨e, he, -⟩ := h.inv.alloc.find hb
          rw [Function.update_of_ne (h.inv.alloc.lt b e he).ne] at hd
          exact h.mm g b d m hb hd hm
      · rw [area_eq_none]
        rintro t ⟨b, d, hb, -⟩
        rw [hnone] at hb
        cases hb
      · refine Shadow.ext hfind (funext fun g ↦ funext fun i ↦ ?_)
        exact area_congr (hlive g i) (fun t _ ↦ by rw [hs']; rfl) fun t _ p _ ↦ by rw [hs']
  · exact ⟨h, .inl rfl⟩

/-- What `alloc_destroy` may change: the registration, the allocator itself and its page tables. -/
structure Destroys (s s' : State) (a : AllocPtr) (d : AllocatorDesc) : Prop where
  saAllocators : s'.saAllocators = s.saAllocators.erase d.tgid
  allocs : ∀ b, b ≠ a → s'.allocs b = s.allocs b
  pagelists : s'.pagelists = s.pagelists
  glSa : s'.glSa = s.glSa
  data : s'.data = s.data
  l5 : s'.l5 = s.l5
  mms : ∀ m, d.mm ≠ some m → s'.mms m = s.mms m

theorem State.allocDestroy_destroys {a : AllocPtr} {d : AllocatorDesc} (hd : s.allocs a = some d)
    (ans : Answers) : Destroys s (s.allocDestroy a ans) a d := by
  have hother : ∀ (x : Option AllocatorDesc) (b : AllocPtr), b ≠ a → Function.update s.allocs a x b = s.allocs b :=
    fun x b hb ↦ Function.update_of_ne hb x s.allocs
  simp only [allocDestroy, hd, allocPut]
  split
  · simp only [allocDestroyCallback]
    split
    · exact ⟨rfl, hother _, rfl, rfl, rfl, rfl, fun _ _ ↦ rfl⟩
    · next m hm =>
        refine ⟨rfl, hother _, rfl, rfl, rfl, rfl, fun m' hm' ↦ ?_⟩
        exact Function.update_of_ne (fun hc ↦ hm' (by rw [hm, hc])) _ _
  · exact ⟨rfl, hother _, rfl, rfl, rfl, rfl, fun _ _ ↦ rfl⟩

theorem State.allocDestroy_fades (s : State) (a : AllocPtr) (ans : Answers) (m : MmId) (b : Nat) :
    ((s.allocDestroy a ans).mms m).pteAt (s.allocDestroy a ans).l5 b = (s.mms m).pteAt s.l5 b ∨
      ((s.allocDestroy a ans).mms m).pteAt (s.allocDestroy a ans).l5 b = .none := by
  cases hd : s.allocs a with
  | none => simp only [allocDestroy, hd, true_or]
  | some d =>
      simp only [allocDestroy, hd, allocPut]
      split
      · simp only [allocDestroyCallback]
        split
        · exact .inl rfl
        · next m' hm =>
            by_cases hm' : m = m'
            · simp only [hm', Function.update_self]
              exact teardown_fades _ _ ans _ _ _ b
            · simp only [Function.update_of_ne hm', true_or]
      · exact .inl rfl

/-- `alloc_destroy` keeps the areas of other processes backed, and does what the abstract memory says. -/
theorem Backed.allocDestroy (h : Backed mmOf s) (hinj : Function.Injective mmOf) (ans : Answers) (cur : Task)
    (hnd : a ∉ s.destroyed) (r : Reply) :
    Backed mmOf (s.allocDestroy a ans) ∧
      s.shadow.Effect cur r (s.allocDestroy a ans).shadow (.allocDestroy a) := by
  have hinv : Inv _ (s.allocDestroy a ans) [] := h.inv.allocDestroy hnd fun _ _ _ _ _ ↦ .inr rfl
  cases hd : s.allocs a with
  | none =>
      have heq : s.allocDestroy a ans = s := by simp only [State.allocDestroy, hd]
      rw [heq]
      exact ⟨h, .inl rfl⟩
  | some d =>
      obtain ⟨d', hd', hreg⟩ := h.inv.alloc.kept a (h.inv.alloc.lt a d hd) hnd
      obtain rfl : d = d' := Option.some.inj (hd.symm.trans hd')
      have hx := allocDestroy_destroys hd ans
      obtain ⟨s', hs'⟩ : ∃ s', s.allocDestroy a ans = s' := ⟨_, rfl⟩
      rw [hs'] at hinv hx ⊢
      have hfind : s'.allocFind = Function.update s.allocFind d.tgid none := by
        funext g
        by_cases hg : g = d.tgid <;> simp [allocFind, hx.saAllocators, hg]
      -- the allocator is not that of another process
      have hne : ∀ g b, g ≠ d.tgid → s.allocFind g = some b → b ≠ a := by
        rintro g b hg hb rfl
        obtain ⟨e, he, hge⟩ := h.inv.alloc.find hb
        obtain rfl := Option.some.inj (hd.symm.trans he)
        exact hg hge.symm
      have hlive : ∀ g i t, s'.Live g i t ↔ g ≠ d.tgid ∧ s.Live g i t := by
        intro g i t
        simp only [Live, hfind]
        by_cases hg : g = d.tgid
        · subst hg
          simp
        · rw [Function.update_of_ne hg]
          simp only [ne_eq, hg, not_false_eq_true, true_and]
          refine exists_congr fun b ↦ exists_congr fun e ↦ and_congr_right fun hb ↦ ?_
          rw [hx.allocs b (hne g b hg hb)]
      have hpages : ∀ q, s'.pagesOf q = s.pagesOf q := fun q ↦ by rw [pagesOf, hx.pagelists, pagesOf]
      have hu : Untouched mmOf (fun g _ ↦ g = d.tgid) s s' := by
        refine ⟨fun g i t hg ↦ by rw [hlive]; exact and_iff_right hg, fun _ _ _ _ _ ↦ hpages _,
          fun _ _ _ _ _ p _ ↦ by rw [hx.data], fun g i t hg _ off _ ↦ ?_⟩
        rw [hx.l5, hx.mms]
        exact fun hc ↦ hg (hinj (h.mm d.tgid a d _ hreg hd hc))
      have hdead : ∀ i t, ¬ s'.Live d.tgid i t := fun i t hl ↦ ((hlive _ _ _).mp hl).1 rfl
      refine ⟨h.of_untouched hu hinv (fun q hq p hp ↦ ?_) ?_ fun g b e m hb he hm ↦ ?_,
        .inr ⟨d.tgid, hreg, Shadow.ext hfind (funext fun g ↦ funext fun i ↦ ?_)⟩⟩
      · rw [hx.glSa] at hq
        rw [hpages] at hp
        rw [hx.data]
        exact h.zeroed q hq p hp
      · rintro g i t rfl hl
        exact absurd hl (hdead i t)
      · by_cases hg : g = d.tgid
        · rw [hfind, hg, Function.update_self] at hb
          cases hb
        · rw [hfind, Function.update_of_ne hg] at hb
          rw [hx.allocs b (hne g b hg hb)] at he
          exact h.mm g b e m hb he hm
      · dsimp only
        by_cases hg : g = d.tgid
        · rw [hg, Function.update_self]
          exact area_eq_none.mpr (hdead i)
        · rw [Function.update_of_ne hg]
          exact hu.area hg

/-- `vma_free` touches the pagelists of the free list only. -/
structure Frees (s s' : State) (l : List PlPtr) : Prop where
  saAllocators : s'.saAllocators = s.saAllocators
  allocs : s'.allocs = s.allocs
  data : s'.data = s.data
  l5 : s'.l5 = s.l5
  mms : s'.mms = s.mms
  glSa : s'.glSa = s.glSa
  pagesOf : ∀ q, q ∉ l → s'.pagesOf q = s.pagesOf q

theorem State.saPagelistFree_frees (l : List PlPtr) (s : State) : Frees s (l.foldl saPagelistFree s) l := by
  induction l generalizing s with
  | nil => exact ⟨rfl, rfl, rfl, rfl, rfl, rfl, fun _ _ ↦ rfl⟩
  | cons x l ih =>
      obtain ⟨h₁, h₂, h₃, h₄, h₅, h₆, h₇⟩ := ih (s.saPagelistFree x)
      refine ⟨h₁, h₂, h₃, h₄, h₅, h₆, fun q hq ↦ ?_⟩
      rw [List.mem_cons, not_or] at hq
      rw [List.foldl_cons, h₇ q hq.2]
      simp [State.pagesOf, saPagelistFree, hq.1]

/-- `vma_free` keeps the areas backed, and the memory as it is. -/
theorem Backed.vmaFree (h : Backed mmOf s) : Backed mmOf s.vmaFree ∧ s.vmaFree.shadow = s.shadow := by
  have hinv := h.inv.vmaFree
  obtain ⟨s₀, hs₀⟩ : ∃ s₀ : State, s₀ = { s with glSa := [], glSize := 0 } := ⟨_, rfl⟩
  have hx := saPagelistFree_frees s.glSa s₀
  have heq : s.vmaFree = s.glSa.foldl saPagelistFree s₀ := by rw [hs₀, State.vmaFree]
  rw [← heq] at hx
  have hreg : s.vmaFree.saAllocators = s.saAllocators := by rw [hx.saAllocators, hs₀]
  have hallocs : s.vmaFree.allocs = s.allocs := by rw [hx.allocs, hs₀]
  have hgl : s.vmaFree.glSa = [] := by rw [hx.glSa, hs₀]
  have hdata : s.vmaFree.data = s.data := by rw [hx.data, hs₀]
  have hu : Untouched mmOf (fun _ _ ↦ False) s s.vmaFree := by
    refine ⟨fun g i t _ ↦ live_congr hreg hallocs g i t, fun g i t _ hl ↦ ?_,
      fun _ _ _ _ _ p _ ↦ by rw [hdata], fun g i t _ _ off _ ↦ by rw [hx.l5, hx.mms, hs₀]⟩
    rw [hx.pagesOf, hs₀]
    · rfl
    · intro hc
      obtain ⟨a, ho⟩ := hl.owns []
      have hmem : s.Owns [] .gl t.pagelist := hc
      simpa using h.inv.owners.unique _ _ _ ho hmem
  refine h.of_untouched_all hu hinv (fun q hq ↦ ?_) hreg hallocs
  rw [hgl] at hq
  cases hq

/-- **One call keeps the areas backed, and does what the abstract memory says.** -/
theorem Backed.exec (h : Backed mmOf s) (hinj : Function.Injective mmOf) {e : Event} (hc : OwnCall mmOf s e) :
    Backed mmOf (exec s e).2 ∧ s.shadow.Step (.call e (exec s e).1) (exec s e).2.shadow := by
  obtain ⟨cur, call, ans⟩ := e
  cases call with
  | allocCreate tgid mm =>
      obtain ⟨hb, hs⟩ := h.allocCreate hc ⟨none, none⟩
      exact ⟨hb, .ok rfl hs⟩
  | allocDestroy a =>
      obtain ⟨hb, hs⟩ := h.allocDestroy hinj ans cur (hc.adm.once a rfl) ⟨none, none⟩
      exact ⟨hb, .ok rfl hs⟩
  | saAlloc => exact h.saAlloc hinj hc
  | saFork pt pp => exact h.saFork hinj hc
  | saFree addr => exact h.saFree cur ans addr
  | vmaFree =>
      obtain ⟨hb, hs⟩ := h.vmaFree
      exact ⟨hb, .ok rfl hs⟩

/-! ## Accesses -/

/-- Where an address of an area is in its pagelist. -/
theorem Backed.page_at (h : Backed mmOf s) (hl : s.Live g id t) {a : Nat} (ha : InArea id a) :
    ∃ p, (s.pagesOf t.pagelist)[(a - idToAddr id) / pageSize]? = some p ∧
      (s.mms (mmOf g)).pteAt s.l5 a = .present p ∧ a % pageSize = (a - idToAddr id) % pageSize := by
  have hoff : a - idToAddr id < ssSize := by
    unfold InArea at ha
    omega
  obtain ⟨p, hp, hpte⟩ := h.mapped g id t hl (a - idToAddr id) hoff
  rw [Nat.add_sub_cancel' ha.1] at hpte
  refine ⟨p, hp, hpte, ?_⟩
  have haligned := (areaRange (hl.le h.inv.alloc) s.l5).aligned
  conv_lhs => rw [← Nat.add_sub_cancel' ha.1, Nat.add_mod, haligned, Nat.zero_add, Nat.mod_mod]

/-- A live area is read as the abstract memory has it. -/
theorem Backed.read (h : Backed mmOf s) (hl : s.Live g id t) {a : Nat} (ha : InArea id a) :
    s.read (mmOf g) a = some (s.byteOf t.pagelist (a - idToAddr id)) := by
  obtain ⟨p, hp, hpte, hmod⟩ := h.page_at hl ha
  unfold State.read byteOf
  rw [hpte, hp]
  simp only [hmod]

theorem State.byteOf_of_page {off : Nat} {q : Page} (hq : (s.pagesOf pl)[off / pageSize]? = some q) :
    s.byteOf pl off = s.data q (off % pageSize) := by
  rw [byteOf, hq]

theorem State.byteOf_of_end {off : Nat} (hq : (s.pagesOf pl)[off / pageSize]? = none) :
    s.byteOf pl off = 0 := by
  rw [byteOf, hq]

/-- A byte stored in a page of a pagelist is one byte of the pagelist. -/
theorem State.byteOf_storeByte {off : Nat} {q : Page} (hnd : (s.pagesOf pl).Nodup)
    (hq : (s.pagesOf pl)[off / pageSize]? = some q) (v : UInt8) :
    (s.storeByte q (off % pageSize) v).byteOf pl = Function.update (s.byteOf pl) off v := by
  have hlt : off / pageSize < (s.pagesOf pl).length := by
    by_contra hc
    rw [List.getElem?_eq_none (by omega)] at hq
    cases hq
  obtain ⟨s', hs'⟩ : ∃ s', s.storeByte q (off % pageSize) v = s' := ⟨_, rfl⟩
  have hpages : s'.pagesOf pl = s.pagesOf pl := by rw [← hs']; rfl
  have hdata : s'.data = Function.update s.data q (Function.update (s.data q) (off % pageSize) v) := by
    rw [← hs']; rfl
  rw [hs']
  funext i
  by_cases hi : i = off
  · rw [hi, s'.byteOf_of_page (hpages ▸ hq), hdata, Function.update_self, Function.update_self,
      Function.update_self]
  rw [Function.update_of_ne hi]
  cases hr : (s.pagesOf pl)[i / pageSize]? with
  | none => rw [byteOf_of_end hr, s'.byteOf_of_end (hpages ▸ hr)]
  | some r =>
      rw [byteOf_of_page hr, s'.byteOf_of_page (hpages ▸ hr), hdata]
      by_cases hrq : r = q
      · -- another byte of the page
        subst hrq
        have hdiv := (List.getElem?_inj hlt hnd).mp (hq.trans hr.symm)
        have hmod : i % pageSize ≠ off % pageSize := fun hc ↦ hi (by
          rw [← Nat.div_add_mod i pageSize, ← Nat.div_add_mod off pageSize, hdiv, hc])
        rw [Function.update_self, Function.update_of_ne hmod]
      · rw [Function.update_of_ne hrq]

/-- A store to a live area changes one byte of it. -/
theorem Backed.store (h : Backed mmOf s) (hl : s.Live g id t) {a : Nat} (ha : InArea id a) (v : UInt8)
    {p : Page} (hp : (s.mms (mmOf g)).pteAt s.l5 a = .present p) :
    Backed mmOf (s.storeByte p (a % pageSize) v) ∧
      s.shadow.Step (.store g a v) (s.storeByte p (a % pageSize) v).shadow := by
  obtain ⟨q, hq, hpte, hmod⟩ := h.page_at hl ha
  obtain rfl : q = p := Pte.present.inj (hpte.symm.trans hp)
  obtain ⟨off, hoff⟩ : ∃ off, a - idToAddr id = off := ⟨_, rfl⟩
  rw [hmod]
  rw [hoff] at hq ⊢
  obtain ⟨s', hs'⟩ : ∃ s', s.storeByte q (off % pageSize) v = s' := ⟨_, rfl⟩
  have hlive : ∀ g i t, s'.Live g i t ↔ s.Live g i t := fun g i t ↦ by
    rw [← hs']
    exact Iff.rfl
  have hpages : ∀ r, s'.pagesOf r = s.pagesOf r := fun r ↦ by
    rw [← hs']
    rfl
  have hdata : s'.data = Function.update s.data q (Function.update (s.data q) (off % pageSize) v) := by
    rw [← hs']
    rfl
  have hmem := List.mem_of_getElem? hq
  rw [hs']
  have hu : Untouched mmOf (fun g' i ↦ g' = g ∧ i = id) s s' := by
    refine ⟨fun g' i u _ ↦ hlive g' i u, fun _ _ _ _ _ ↦ hpages _, fun g' i u hgi hu x hx ↦ ?_,
      fun g' i u _ _ off _ ↦ ?_⟩
    · have hne : x ≠ q := by
        rintro rfl
        exact hgi (h.inv.live_unique hu hl (h.inv.live_page hx hmem))
      rw [hdata, Function.update_of_ne hne]
    · rw [← hs']
      rfl
  refine ⟨h.of_untouched hu ?_ (fun r hr x hx ↦ ?_) ?_ ?_, ?_⟩
  · rw [← hs']
    exact ⟨h.inv.alloc.congr rfl rfl rfl rfl rfl, h.inv.pages.congr rfl rfl rfl, h.inv.owners.congr rfl rfl rfl⟩
  · -- pages of the list are not those of the area
    rw [hpages] at hx
    have hgl : s.Owns [] .gl r := by
      rw [← hs'] at hr
      exact hr
    have hne : x ≠ q := by
      rintro rfl
      obtain ⟨b, ho⟩ := hl.owns []
      obtain rfl := h.inv.live_page hx hmem
      simpa using h.inv.owners.unique _ _ _ ho hgl
    rw [hdata, Function.update_of_ne hne]
    exact h.zeroed r hgl x hx
  · rw [← hs']
    exact fun g i u _ hu ↦ h.mapped g i u hu
  · rw [← hs']
    exact h.mm
  · refine ⟨id, _, hl.area, ha, ?_⟩
    rw [hoff]
    refine shadow_eq_setArea (by rw [← hs']; rfl) ?_ fun g' i hgi ↦ hu.area hgi
    rw [((hlive g id t).mpr hl).area]
    obtain ⟨l, hl'⟩ : ∃ l, s.pagelists t.pagelist = some l := by
      obtain ⟨b, ho⟩ := hl.owns []
      exact Option.ne_none_iff_exists'.mp (h.inv.owners.exists ho)
    have hnd : (s.pagesOf t.pagelist).Nodup := by
      rw [pagesOf_eq hl']
      exact h.inv.pages.nodup _ l hl'
    rw [← hs', byteOf_storeByte hnd hq]

/-! ## Runs -/

/-- **A step of the machine is a step of the abstract memory.** -/
theorem Backed.step (h : Backed mmOf s) (hinj : Function.Injective mmOf) {x : Action} (hx : Proper mmOf s x)
    (hs : MemStep mmOf s x s') : Backed mmOf s' ∧ s.shadow.Step x s'.shadow := by
  cases hs with
  | call e => exact h.exec hinj hx
  | store hp =>
      obtain ⟨id, t, hl, ha⟩ := hx
      exact h.store hl ha _ hp
  | load hv =>
      obtain ⟨id, t, hl, ha⟩ := hx
      refine ⟨h, id, _, hl.area, ha, ?_, rfl⟩
      rw [h.read hl ha] at hv
      exact Option.some.inj hv

theorem Backed.init (mmOf : Nat → MmId) (l5 : Bool) (mms : MmId → Mm) (data : Page → PageData) :
    Backed mmOf (State.init l5 mms data) := by
  refine ⟨Inv.init l5 mms data, fun q hq ↦ ?_, ?_, ?_⟩
  · cases hq
  · rintro g id t ⟨a, d, ha, -⟩
    cases ha
  · intro g a d m ha
    cases ha

/-- The abstract run of a run of the machine. -/
theorem Backed.of_run {l5 : Bool} {mms : MmId → Mm} {data : Page → PageData} {xs : List Action}
    (hinj : Function.Injective mmOf)
    (h : Run (Guarded (Proper mmOf) (MemStep mmOf)) (State.init l5 mms data) xs s) :
    Backed mmOf s ∧ Run Shadow.Step .empty xs s.shadow := by
  induction h with
  | nil => exact ⟨.init mmOf l5 mms data, .nil⟩
  | snoc _ hs ih =>
      obtain ⟨hb, hstep⟩ := ih.1.step hinj hs.1 hs.2
      exact ⟨hb, ih.2.snoc hstep⟩

/-- In such a state, a process reads in its areas what the abstract memory has there. -/
theorem Backed.read_area (h : Backed mmOf s) {x : Area} {a : Nat} (hx : s.shadow.area g id = some x)
    (ha : InArea id a) : s.read (mmOf g) a = some (x.bytes (a - idToAddr id)) := by
  obtain ⟨t, hl, rfl⟩ := area_eq_some.mp hx
  exact h.read hl ha

/-- **The module is private memory.**  A run of calls and accesses, with processes keeping to their live
areas, is a run of the abstract memory, with the same replies and the same bytes loaded; and in the
state it leads to, a process reads in its areas what the abstract memory has there. -/
theorem run_shadow {l5 : Bool} {mms : MmId → Mm} {data : Page → PageData} {xs : List Action}
    (hinj : Function.Injective mmOf)
    (h : Run (Guarded (Proper mmOf) (MemStep mmOf)) (State.init l5 mms data) xs s) :
    Run Shadow.Step .empty xs s.shadow ∧
      ∀ g id x a, s.shadow.area g id = some x → InArea id a →
        s.read (mmOf g) a = some (x.bytes (a - idToAddr id)) := by
  obtain ⟨hb, hrun⟩ := Backed.of_run hinj h
  exact ⟨hrun, fun g id x a hx ha ↦ hb.read_area hx ha⟩

/-! ## Accesses anywhere in the window -/

/-- `NoStale`, and `alloc_destroy` leaves no area behind. -/
structure LeavesNone (s : State) (e : Event) : Prop extends NoStale s e where
  destroy : ∀ a d i, e.call = .allocDestroy a → s.allocs a = some d → d.threads.load i = none

/-- Calls that leave no stale PTE, accesses anywhere in the window. -/
def Tidy (mmOf : Nat → MmId) (s : State) : Action → Prop
  | .call e _ => OwnCall mmOf s e ∧ LeavesNone s e
  | .store _ a _ | .load _ a _ => InWindow a

theorem InWindow.inArea {a : Nat} (h : InWindow a) : InArea (addrToId a) a := by
  obtain ⟨hlt, hlo, hhi⟩ := addrToId_spec h.1 h.2
  unfold InArea
  rw [idToAddr_eq hlt.le]
  exact ⟨hlo, hhi⟩

/-- An access that does not fault is to a live area of the process. -/
theorem PtesOk.live_at (h : PtesOk mmOf s) {a : Nat} (ha : InWindow a) {p : Page}
    (hp : (s.mms (mmOf g)).pteAt s.l5 a = .present p) : ∃ t, s.Live g (addrToId a) t := by
  have hok := h g a ha
  rw [hp] at hok
  obtain ⟨t, ht, -⟩ := hok
  exact ⟨t, ht⟩

theorem Tidy.proper (h : PtesOk mmOf s) {x : Action} (hx : Tidy mmOf s x) (hs : MemStep mmOf s x s') :
    Proper mmOf s x := by
  cases hs with
  | call e => exact hx.1
  | store hp =>
      obtain ⟨t, ht⟩ := h.live_at hx hp
      exact ⟨_, t, ht, InWindow.inArea hx⟩
  | @load g a v hv =>
      obtain ⟨p, hp⟩ : ∃ p, (s.mms (mmOf g)).pteAt s.l5 a = .present p := by
        unfold State.read at hv
        split at hv
        · next p hp => exact ⟨p, hp⟩
        · cases hv
      obtain ⟨t, ht⟩ := h.live_at hx hp
      exact ⟨_, t, ht, InWindow.inArea hx⟩

/-- The end of an allocator leaves the areas of the other processes. -/
theorem Destroys.live {a : AllocPtr} {d : AllocatorDesc} (hx : Destroys s s' a d) (halloc : AllocOk s)
    (hd : s.allocs a = some d) {id : Nat} {t : ThreadDesc} (hg : g ≠ d.tgid) (ht : s.Live g id t) :
    s'.Live g id t := by
  obtain ⟨b, e, hb, he, hload⟩ := ht
  refine ⟨b, e, ?_, ?_, hload⟩
  · rw [allocFind, hx.saAllocators, Xarray.load_erase, if_neg hg]
    exact hb
  · rw [hx.allocs b, he]
    rintro rfl
    obtain ⟨e', he', hge⟩ := halloc.find hb
    obtain rfl := Option.some.inj (hd.symm.trans he')
    exact hg hge.symm

/-- A process whose allocator has no areas has nothing mapped in the window. -/
theorem PtesOk.not_present (h : PtesOk mmOf s) {a : AllocPtr} {d : AllocatorDesc} {b : Nat} (hwin : InWindow b)
    (hfind : s.allocFind g = some a) (hd : s.allocs a = some d) (hempty : ∀ i, d.threads.load i = none)
    (p : Page) : (s.mms (mmOf g)).pteAt s.l5 b ≠ .present p := by
  intro hp
  obtain ⟨t, a', e, ha', he, hload⟩ := h.live_at hwin hp
  obtain rfl := Option.some.inj (hfind.symm.trans ha')
  obtain rfl := Option.some.inj (hd.symm.trans he)
  rw [hempty] at hload
  cases hload

/-- An allocator without areas: nothing that is mapped in the window is below it. -/
theorem PtesOk.allocDestroy (h : PtesOk mmOf s) (hb : Backed mmOf s) (hinj : Function.Injective mmOf)
    (ans : Answers) {a : AllocPtr} (hnd : a ∉ s.destroyed)
    (hempty : ∀ d i, s.allocs a = some d → d.threads.load i = none) : PtesOk mmOf (s.allocDestroy a ans) := by
  cases hd : s.allocs a with
  | none =>
      have heq : s.allocDestroy a ans = s := by simp only [State.allocDestroy, hd]
      rwa [heq]
  | some d =>
      obtain ⟨d', hd', hreg⟩ := hb.inv.alloc.kept a (hb.inv.alloc.lt a d hd) hnd
      obtain rfl : d = d' := Option.some.inj (hd.symm.trans hd')
      have hx := allocDestroy_destroys hd ans
      have hfade := allocDestroy_fades s a ans
      generalize s.allocDestroy a ans = s' at hx hfade ⊢
      intro g b hwin
      by_cases hg : g = d.tgid
      · -- the process has no area, so that nothing was mapped
        have hold := h g b hwin
        have hnone := h.not_present hwin (hg ▸ hreg) hd fun i ↦ hempty d i hd
        rcases hfade (mmOf g) b with hpte | hpte
        · rw [hpte]
          cases hp : (s.mms (mmOf g)).pteAt s.l5 b with
          | present p => exact absurd hp (hnone p)
          | wild =>
              rw [hp] at hold
              exact hold
          | none | absent => trivial
        · rw [hpte]
          trivial
      · -- another process keeps its areas and its address space
        have hmm : d.mm ≠ some (mmOf g) := fun hc ↦ hg (hinj (hb.mm d.tgid a d _ hreg hd hc))
        rw [hx.l5, hx.mms _ hmm]
        refine (h g b hwin).mono fun t ht ↦ ⟨hx.live hb.inv.alloc hd hg ht, ?_⟩
        rw [State.pagesOf, hx.pagelists, State.pagesOf]

theorem PtesOk.vmaFree (h : PtesOk mmOf s) (hinv : Inv Set.univ s []) : PtesOk mmOf s.vmaFree := by
  intro g b hwin
  have hx := saPagelistFree_frees s.glSa { s with glSa := [], glSize := 0 }
  have hmms : s.vmaFree.mms = s.mms := hx.mms
  have hl5 : s.vmaFree.l5 = s.l5 := hx.l5
  rw [hmms, hl5]
  refine (h g b hwin).mono fun t ht ↦ ⟨(live_congr hx.saAllocators hx.allocs g _ t).mpr ht, ?_⟩
  refine hx.pagesOf t.pagelist fun hc ↦ ?_
  obtain ⟨a, ho⟩ := ht.owns []
  have hmem : s.Owns [] .gl t.pagelist := hc
  simpa using hinv.owners.unique _ _ _ ho hmem

theorem PtesOk.memStep (h : PtesOk mmOf s) (hinj : Function.Injective mmOf) (hb : Backed mmOf s)
    {x : Action} (hx : Tidy mmOf s x) (hs : MemStep mmOf s x s') : PtesOk mmOf s' := by
  cases hs with
  | call e =>
      obtain ⟨hown, hnone⟩ := hx
      obtain ⟨cur, call, ans⟩ := e
      cases call with
      | allocDestroy a =>
          exact h.allocDestroy hb hinj ans (hown.adm.once a rfl) fun d i hd ↦ hnone.destroy a d i rfl hd
      | vmaFree => exact h.vmaFree hb.inv
      | allocCreate | saAlloc | saFork | saFree =>
          exact h.exec hinj hb.inv ⟨hown.adm, trivial, hown.mm⟩ hnone.toNoStale
  | store hp => exact h
  | load hv => exact h

/-- Where no stale PTE is left behind, accesses that do not fault are to live areas. -/
theorem Tidy.run {l5 : Bool} {mms : MmId → Mm} {data : Page → PageData} {xs : List Action}
    (hinj : Function.Injective mmOf)
    (hempty : ∀ g a, InWindow a → (mms (mmOf g)).pteAt l5 a = .none)
    (h : Run (Guarded (Tidy mmOf) (MemStep mmOf)) (State.init l5 mms data) xs s) :
    Run (Guarded (Proper mmOf) (MemStep mmOf)) (State.init l5 mms data) xs s ∧ PtesOk mmOf s := by
  have hinit : Backed mmOf (State.init l5 mms data) ∧ PtesOk mmOf (State.init l5 mms data) := by
    refine ⟨.init mmOf l5 mms data, fun g a ha ↦ ?_⟩
    have hnone : ((State.init l5 mms data).mms (mmOf g)).pteAt (State.init l5 mms data).l5 a = .none :=
      hempty g a ha
    rw [hnone]
    trivial
  have hkeep : ∀ t x t', (Backed mmOf t ∧ PtesOk mmOf t) → Guarded (Tidy mmOf) (MemStep mmOf) t x t' →
      Backed mmOf t' ∧ PtesOk mmOf t' := fun t x t' ht hs ↦
    ⟨(ht.1.step hinj (Tidy.proper ht.2 hs.1 hs.2) hs.2).1, ht.2.memStep hinj ht.1 hs.1 hs.2⟩
  refine ⟨h.mono_of_invariant (I := fun s ↦ Backed mmOf s ∧ PtesOk mmOf s) hinit hkeep fun t x t' ht hs ↦
    ⟨Tidy.proper ht.2 hs.1 hs.2, hs.2⟩, ?_⟩
  exact (h.invariant (I := fun s ↦ Backed mmOf s ∧ PtesOk mmOf s) hinit hkeep).2

/-- **Without stale PTEs no address of the window is an exception.**  If no call leaves one behind, the
module is private memory for processes that access the whole window: an access that is not to a live
area of theirs faults. -/
theorem run_shadow_window {l5 : Bool} {mms : MmId → Mm} {data : Page → PageData} {xs : List Action}
    (hinj : Function.Injective mmOf)
    (hempty : ∀ g a, InWindow a → (mms (mmOf g)).pteAt l5 a = .none)
    (h : Run (Guarded (Tidy mmOf) (MemStep mmOf)) (State.init l5 mms data) xs s) :
    Run Shadow.Step .empty xs s.shadow ∧
      ∀ g a, InWindow a → s.read (mmOf g) a =
        (s.shadow.area g (addrToId a)).map fun x ↦ x.bytes (a - idToAddr (addrToId a)) := by
  obtain ⟨hrun, hptes⟩ := Tidy.run hinj hempty h
  obtain ⟨hb, hspec⟩ := Backed.of_run hinj hrun
  refine ⟨hspec, fun g a ha ↦ ?_⟩
  cases hx : s.shadow.area g (addrToId a) with
  | some x => exact hb.read_area hx ha.inArea
  | none =>
      -- nothing is mapped where no area is
      unfold State.read
      cases hp : (s.mms (mmOf g)).pteAt s.l5 a with
      | present p =>
          obtain ⟨t, ht⟩ := hptes.live_at ha hp
          exact absurd ht (area_eq_none.mp hx t)
      | none => rfl
      | absent => rfl
      | wild => rfl

/-- What is stored at an address is loaded from it. -/
theorem State.read_storeByte {mm : MmId} {a : Nat} {p : Page} (hp : (s.mms mm).pteAt s.l5 a = .present p)
    (v : UInt8) : (s.storeByte p (a % pageSize) v).read mm a = some v := by
  have hpte : ((s.storeByte p (a % pageSize) v).mms mm).pteAt (s.storeByte p (a % pageSize) v).l5 a =
      .present p := hp
  unfold State.read
  rw [hpte]
  simp [storeByte]

theorem leavesNone_createEvent (s : State) : LeavesNone s createEvent :=
  ⟨noStale_createEvent s, by simp [createEvent]⟩

theorem leavesNone_allocEvent (s : State) (n : Nat) : LeavesNone s (allocEvent n) :=
  ⟨noStale_allocEvent s n, by simp [allocEvent]⟩

/-- Process 1 gets its first area, stores a byte in it and loads it. -/
def firstBytes : List Action :=
  [.call createEvent ⟨none, none⟩, .call (allocEvent 0) ⟨none, some (idToAddr 0)⟩, .store 1 (idToAddr 0) 7,
    .load 1 (idToAddr 0) 7]

theorem tidy_firstBytes : ∃ s, Run (Guarded (Tidy swapMm) (MemStep swapMm))
    (State.init false (fun _ ↦ textMm) fun _ _ ↦ 0) firstBytes s := by
  have hown : OwnCall swapMm (State.init false (fun _ ↦ textMm) fun _ _ ↦ 0) createEvent := by
    refine ⟨admissible_createEvent _, by simp [createEvent, swapMm], fun tgid mm hc ↦ ?_⟩
    injection hc with h₁ h₂
    rw [← h₁, ← Option.some.inj h₂]
    simp [swapMm]
  have hcreate : Run (Guarded (Tidy swapMm) (MemStep swapMm)) (State.init false (fun _ ↦ textMm) fun _ _ ↦ 0)
      [.call createEvent ⟨none, none⟩] created :=
    Run.single ⟨(⟨hown, leavesNone_createEvent _⟩ : Tidy swapMm _ (.call createEvent _)), .call createEvent⟩
  have halloc : OwnCall swapMm created (allocEvent 0) :=
    ⟨userCall_allocEvent.adm, userCall_allocEvent.mm, by simp [allocEvent]⟩
  have hok := (filled_created.saAlloc (Nat.zero_le _)).1
  have hreply : (exec created (allocEvent 0)).1 = ⟨none, some (idToAddr 0)⟩ := hok
  have hinv : Inv Set.univ created [] := (Inv.init _ _ _).exec (admissible_createEvent _) (.inr rfl)
  obtain ⟨hl5, p, hp⟩ := saAlloc_mapped hinv filled_created.fresh rfl hok
  have hpte : ((exec created (allocEvent 0)).2.mms (swapMm 1)).pteAt (exec created (allocEvent 0)).2.l5
      (idToAddr 0) = .present p := by
    rw [exec_allocEvent, hl5, show swapMm 1 = 0 by simp [swapMm]]
    exact hp
  have hwin : InWindow (idToAddr 0) :=
    ⟨ssStart_le_idToAddr (Nat.zero_le _), (validAddr_idToAddr (by decide)).2.1⟩
  have hstep : Guarded (Tidy swapMm) (MemStep swapMm) created
      (.call (allocEvent 0) (exec created (allocEvent 0)).1) (exec created (allocEvent 0)).2 :=
    ⟨⟨halloc, leavesNone_allocEvent _ 0⟩, .call (allocEvent 0)⟩
  rw [hreply] at hstep
  have hstore : Guarded (Tidy swapMm) (MemStep swapMm) (exec created (allocEvent 0)).2
      (.store 1 (idToAddr 0) 7) _ := ⟨hwin, .store hpte⟩
  have hload : Guarded (Tidy swapMm) (MemStep swapMm)
      ((exec created (allocEvent 0)).2.storeByte p (idToAddr 0 % pageSize) 7) (.load 1 (idToAddr 0) 7) _ :=
    ⟨hwin, .load (read_storeByte hpte 7)⟩
  exact ⟨_, ((hcreate.snoc hstep).snoc hstore).snoc hload⟩

/-- The first bytes, as a run of the abstract memory. -/
theorem run_shadow_firstBytes : ∃ m, Run Shadow.Step .empty firstBytes m := by
  obtain ⟨s, hs⟩ := tidy_firstBytes
  exact ⟨_, (run_shadow swapMm_injective
    (Tidy.run swapMm_injective (fun _ _ ha ↦ textMm_window ha) hs).1).1⟩

/-- The same, for a process that may access the whole window. -/
theorem run_shadow_window_firstBytes : ∃ m, Run Shadow.Step .empty firstBytes m := by
  obtain ⟨s, hs⟩ := tidy_firstBytes
  exact ⟨_, (run_shadow_window swapMm_injective (fun _ _ ha ↦ textMm_window ha) hs).1⟩

end ShadowStack.Lkm
