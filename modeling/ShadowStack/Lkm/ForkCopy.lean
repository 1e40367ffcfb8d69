import ShadowStack.Lkm.Isolation
import ShadowStack.Lkm.Mapped

/-!
# The copy `sa_fork` makes

`sa_fork` finds the parent's thread by its tid, copies its pages to a pagelist of its own and maps that
for the caller, under the id the thread has in the parent's table.
-/

namespace ShadowStack.Lkm

open Lib State

/-- The byte at an address, for a process with address space `mm`. -/
def State.read (s : State) (mm : MmId) (a : Nat) : Option UInt8 :=
  match (s.mms mm).pteAt s.l5 a with
  | .present p => some (s.data p (a % pageSize))
  | _ => none

variable {S : Set Page} {s s₁ s₂ : State} {pl : PlPtr} {ans : Answers} {cur : Task} {pt pp : Nat}
  {mm : MmId} {a parent : AllocPtr} {d : AllocatorDesc} {id : Nat} {t : ThreadDesc}

/-! ## Page contents -/

/-- The copy loop does not write to other pages. -/
theorem copyData_of_notMem (data : Page → PageData) {dst : List Page} (src : List Page)
    {p : Page} (hp : p ∉ dst) : copyData data dst src p = data p := by
  unfold copyData
  induction dst generalizing src data with
  | nil => rfl
  | cons x dst ih =>
      cases src with
      | nil => rfl
      | cons y src =>
          rw [List.mem_cons, not_or] at hp
          rw [List.zip_cons_cons, List.foldl_cons, ih _ _ hp.2, Function.update_of_ne hp.1]

/-- The copy loop writes page after page. -/
theorem copyData_get {data : Page → PageData} {dst src : List Page} {i : Nat} {p q : Page}
    (hnd : dst.Nodup) (hp : dst[i]? = some p) (hq : src[i]? = some q) (hdisj : ∀ x ∈ src, x ∉ dst) :
    copyData data dst src p = data q := by
  induction dst generalizing src data i with
  | nil => simp at hp
  | cons x dst ih =>
      cases src with
      | nil => simp at hq
      | cons y src =>
          rw [List.nodup_cons] at hnd
          have hstep : copyData data (x :: dst) (y :: src) =
              copyData (Function.update data x (data y)) dst src := rfl
          rw [hstep]
          cases i with
          | zero =>
              obtain rfl : x = p := by simpa using hp
              obtain rfl : y = q := by simpa using hq
              rw [copyData_of_notMem _ src hnd.1, Function.update_self]
          | succ i =>
              rw [List.getElem?_cons_succ] at hp hq
              have hqx : q ≠ x := by
                rintro rfl
                exact hdisj q (List.mem_cons_of_mem _ (List.mem_of_getElem? hq)) List.mem_cons_self
              rw [ih hnd.2 hp hq fun z hz hzd ↦
                hdisj z (List.mem_cons_of_mem _ hz) (List.mem_cons_of_mem _ hzd),
                Function.update_of_ne hqx]

/-- Obtaining a pagelist does not change pages that were in use. -/
theorem State.glAllocStack_data (hfresh : ans.Fresh s) (hs : s.glAllocStack ans = some (pl, s₁))
    {q : Page} (hq : q ∈ s.held) : s₁.data q = s.data q := by
  unfold glAllocStack at hs
  split at hs
  · obtain ⟨rfl, rfl⟩ := Prod.mk.inj (Option.some.inj hs)
    rfl
  · split at hs
    · split at hs
      · cases hs
      · next ps hps =>
          obtain ⟨rfl, rfl⟩ := Prod.mk.inj (Option.some.inj hs)
          have hnot : q ∉ ps := by
            unfold saPagelistAllocPages at hps
            split at hps
            · split at hps
              · obtain rfl := Option.some.inj hps
                exact fun hc ↦ hfresh.unused q hc hq
              · cases hps
            · cases hps
          simp only [if_neg hnot]
    · cases hs

/-! ## A successful fork -/

/-- A successful `sa_fork` got to the mapping, and that succeeded. -/
theorem saFork_ok (hok : (saFork s cur ans pt pp).1.err = none) :
    ∃ mm a d pl s₁ parent id t s₂, ForkMaps s cur ans pt pp mm a d pl s₁ parent id t s₂ ∧
      (s₂.mapArea mm (idToAddr id) pl ans).2 = false := by
  by_cases h : ∃ mm a d pl s₁ parent id t s₂, ForkMaps s cur ans pt pp mm a d pl s₁ parent id t s₂
  · obtain ⟨mm, a, d, pl, s₁, parent, id, t, s₂, hm⟩ := h
    refine ⟨mm, a, d, pl, s₁, parent, id, t, s₂, hm, ?_⟩
    by_contra hmap
    rw [hm.saFork_eq, if_pos (by simpa using hmap)] at hok
    cases hok
  · exact absurd hok (saFork_of_not_maps h).1

/-- The state after it. -/
theorem ForkMaps.state_eq (hm : ForkMaps s cur ans pt pp mm a d pl s₁ parent id t s₂)
    (hmap : (s₂.mapArea mm (idToAddr id) pl ans).2 = false) :
    (saFork s cur ans pt pp).2 = (s₂.mapArea mm (idToAddr id) pl ans).1.setAlloc a
      (d.add id ⟨cur.pid, idToAddr id, pl⟩) := by
  rw [hm.saFork_eq, hmap, if_neg Bool.false_ne_true]

theorem ForkMaps.prepared (hm : ForkMaps s cur ans pt pp mm a d pl s₁ parent id t s₂)
    (h : Inv S s []) (hfresh : ans.Fresh s) : Prepared S s s₂ pl := by
  rw [hm.copied]
  exact (h.prepared hfresh hm.stack).copyPages _ _

/-- The thread that is copied. -/
theorem ForkMaps.load (hm : ForkMaps s cur ans pt pp mm a d pl s₁ parent id t s₂) :
    (s.threads parent).load id = some t :=
  (Xarray.find?_eq_some hm.found).1

/-- The parent has the id in use and the child has not, so they are not the same. -/
theorem ForkMaps.parent_ne (hm : ForkMaps s cur ans pt pp mm a d pl s₁ parent id t s₂) : parent ≠ a := by
  rintro rfl
  have hload := (Xarray.find?_eq_some hm.found).1
  rw [threads_eq hm.alloc, Xarray.load_eq_none_of_slot hm.free] at hload
  cases hload

/-- A descriptor keeps its pages, and the pages of the call are others. -/
theorem Prepared.desc (h : Prepared S s s₁ pl) (hinv : Inv S s []) {b : AllocPtr} {i : Nat}
    {u : ThreadDesc} (hu : (s.threads b).load i = some u) :
    s₁.pagesOf u.pagelist = s.pagesOf u.pagelist ∧ ∀ q ∈ s.pagesOf u.pagelist, q ∉ s₁.pagesOf pl := by
  have ho : s.Owns [] (.desc b i) u.pagelist := ⟨u, hu, rfl⟩
  have hpages := h.pagesOf _ (hinv.owners.exists ho)
  have hu₁ : (s₁.threads b).load i = some u := by
    rw [← hu, State.threads, State.threads, h.frame.allocs]
  have ho₁ : s₁.Owns [pl] (.desc b i) u.pagelist := ⟨u, hu₁, rfl⟩
  refine ⟨hpages, fun q hq hc ↦ ?_⟩
  obtain ⟨l, hl⟩ := Option.ne_none_iff_exists'.mp (h.inv.owners.exists ho₁)
  obtain ⟨l', hl'⟩ := h.inv.pagelist_of_call
  have hpl : u.pagelist = pl := by
    refine h.inv.pages.disjoint _ l _ l' q hl hl' ?_ ?_
    · rw [← pagesOf_eq hl, hpages]
      exact hq
    · rw [← pagesOf_eq hl']
      exact hc
  have hcall : s₁.Owns [pl] .call u.pagelist := List.mem_singleton.mpr hpl
  simpa using h.inv.owners.unique _ _ _ ho₁ hcall

/-- The copy goes to pages of its own, the other descriptors' pages keep their contents. -/
theorem ForkMaps.data_desc (hm : ForkMaps s cur ans pt pp mm a d pl s₁ parent id t s₂)
    (h : Inv S s []) (hfresh : ans.Fresh s) {b : AllocPtr} {i : Nat} {u : ThreadDesc}
    (hu : (s.threads b).load i = some u) {q : Page} (hq : q ∈ s.pagesOf u.pagelist) :
    s₁.data q = s.data q ∧ s₂.data q = s.data q := by
  have hnot := ((h.prepared hfresh hm.stack).desc h hu).2 q hq
  have ho : s.Owns [] (.desc b i) u.pagelist := ⟨u, hu, rfl⟩
  obtain ⟨l, hl⟩ := Option.ne_none_iff_exists'.mp (h.owners.exists ho)
  have h₁ : s₁.data q = s.data q := by
    refine glAllocStack_data hfresh hm.stack (h.pages.mem_held _ l q hl ?_)
    rw [← pagesOf_eq hl]
    exact hq
  have hcopy : s₂.data = copyData s₁.data (s₁.pagesOf pl) (s₁.pagesOf t.pagelist) := by
    rw [hm.copied]
    rfl
  exact ⟨h₁, by rw [hcopy, copyData_of_notMem _ _ hnot, h₁]⟩

/-- The pages of the child are mapped in the area. -/
theorem ForkMaps.maps (hm : ForkMaps s cur ans pt pp mm a d pl s₁ parent id t s₂) (h : Inv S s [])
    (hfresh : ans.Fresh s) (hmap : (s₂.mapArea mm (idToAddr id) pl ans).2 = false) {off : Nat}
    (hoff : off < ssSize) :
    ∃ p, (s₂.pagesOf pl)[off / pageSize]? = some p ∧
      ((saFork s cur ans pt pp).2.mms mm).pteAt (saFork s cur ans pt pp).2.l5 (idToAddr id + off) =
        .present p := by
  have hid := h.alloc.find_le hm.findParent hm.found
  have hp := hm.prepared h hfresh
  have htop : idToAddr id + off < 2 ^ 64 :=
    lt_trans (Nat.add_lt_add_left hoff _) (areaRange hid s₂.l5).lt_top
  obtain ⟨l, hl⟩ := hp.inv.pagelist_of_call
  obtain ⟨p, hpage, hpte⟩ := mkPte_idToAddr (s₂.pagesOf pl)
    (by rw [pagesOf_eq hl]; exact hp.inv.pages.size pl l hl) (Nat.le_add_right _ off)
    (Nat.add_lt_add_left hoff _) htop
  rw [Nat.add_sub_cancel_left] at hpage
  -- the walk has set the entry
  obtain ⟨m, hrw⟩ := mapArea_rewrites hid s₂ mm pl ans
  obtain rfl := hrw.done hmap
  have hlook := hrw.look (idToAddr id + off)
    ⟨le_trans (ssStart_le_idToAddr hid) (Nat.le_add_right _ _), htop⟩
  rw [if_pos ⟨Nat.le_add_right _ _, Nat.add_lt_add_left hoff _⟩, hpte] at hlook
  obtain ⟨r, hr⟩ := mapArea_eq s₂ mm (idToAddr id) pl ans
  rw [hm.state_eq hmap]
  rw [hr] at hlook ⊢
  exact ⟨p, hpage, hlook⟩

/-- Each byte of the child's area is a copy of the byte at that offset of the parent's. -/
theorem ForkMaps.read (hm : ForkMaps s cur ans pt pp mm a d pl s₁ parent id t s₂) (h : Inv S s [])
    (hfresh : ans.Fresh s) (hmap : (s₂.mapArea mm (idToAddr id) pl ans).2 = false) {off : Nat}
    (hoff : off < ssSize) :
    ∃ q, (s.pagesOf t.pagelist)[off / pageSize]? = some q ∧
      (saFork s cur ans pt pp).2.read mm (idToAddr id + off) = some (s.data q (off % pageSize)) := by
  have hid := h.alloc.find_le hm.findParent hm.found
  have hp₁ := h.prepared hfresh hm.stack
  have hp := hm.prepared h hfresh
  have hmod : (idToAddr id + off) % pageSize = off % pageSize := by
    rw [Nat.add_mod, (areaRange hid s₂.l5).aligned, Nat.zero_add, Nat.mod_mod]
  -- the page at that offset, in the child's list and in the parent's
  obtain ⟨p, hpage, hpte⟩ := hm.maps h hfresh hmap hoff
  obtain ⟨l, hl⟩ := hp.inv.pagelist_of_call
  have ho : s.Owns [] (.desc parent id) t.pagelist := ⟨t, hm.load, rfl⟩
  obtain ⟨lt, hlt⟩ := Option.ne_none_iff_exists'.mp (h.owners.exists ho)
  have hindex : off / pageSize < (s.pagesOf t.pagelist).length := by
    rw [pagesOf_eq hlt, h.pages.size _ lt hlt, ssPages, Nat.div_lt_iff_lt_mul (by decide)]
    exact lt_of_lt_of_eq hoff (by decide)
  obtain ⟨q, hq⟩ : ∃ q, (s.pagesOf t.pagelist)[off / pageSize]? = some q :=
    ⟨_, List.getElem?_eq_getElem hindex⟩
  refine ⟨q, hq, ?_⟩
  have hdata : s₂.data p = s.data q := by
    obtain ⟨hpages, hnot⟩ := hp₁.desc h hm.load
    have hpl : s₁.pagesOf pl = s₂.pagesOf pl := by
      rw [hm.copied]
      rfl
    have hcopy : s₂.data = copyData s₁.data (s₁.pagesOf pl) (s₁.pagesOf t.pagelist) := by
      rw [hm.copied]
      rfl
    have hnd : (s₁.pagesOf pl).Nodup := by
      rw [hpl, pagesOf_eq hl]
      exact hp.inv.pages.nodup pl l hl
    rw [hcopy, hpages, copyData_get hnd (by rw [hpl]; exact hpage) hq hnot]
    exact (hm.data_desc h hfresh hm.load (List.mem_of_getElem? hq)).1
  have hread : (Lkm.saFork s cur ans pt pp).2.data = s₂.data := by
    rw [hm.state_eq hmap]
    rfl
  rw [State.read, hpte, hread, ← hdata, hmod]

/-- An area is in the upper half. -/
theorem sameHalf_area (l5 : Bool) (hid : id ≤ threadsLimit) :
    SameHalf l5 (idToAddr id) (idToAddr id + ssSize - 1) := by
  have hlo := ssStart_le_idToAddr hid
  have hhi := idToAddr_add_lt hid
  simp only [ssStart] at hlo
  rcases span_cases l5 with ⟨-, hh⟩ | ⟨-, hh⟩
  all_goals
    rw [SameHalf, hh]
    omega

/-- No translation changes but those of the area, in the address space of the caller. -/
theorem ForkMaps.outside (hm : ForkMaps s cur ans pt pp mm a d pl s₁ parent id t s₂) (h : Inv S s [])
    (hfresh : ans.Fresh s) (hmap : (s₂.mapArea mm (idToAddr id) pl ans).2 = false) {b : Nat}
    (hb : IsCanonical s.l5 b) (hout : ¬ (idToAddr id ≤ b ∧ b < idToAddr id + ssSize)) :
    ((saFork s cur ans pt pp).2.mms mm).pteAt (saFork s cur ans pt pp).2.l5 b =
      (s.mms mm).pteAt s.l5 b := by
  have hid := h.alloc.find_le hm.findParent hm.found
  have hp := hm.prepared h hfresh
  have har := areaRange hid s₂.l5
  obtain ⟨l, hl⟩ := hp.inv.pagelist_of_call
  have hlen : (idToAddr id + ssSize - idToAddr id) / pageSize ≤ (s₂.pagesOf pl).length := by
    rw [pagesOf_eq hl, hp.inv.pages.size pl l hl, Nat.add_sub_cancel_left]
    decide
  obtain ⟨r, hr⟩ : ∃ r, mapRange s₂.l5 ans.tables (idToAddr id) (s₂.pagesOf pl) (s₂.mms mm)
      (idToAddr id + ssSize) = r := ⟨_, rfl⟩
  have hmapped : s₂.mapArea mm (idToAddr id) pl ans = s₂.withTables mm r := by
    rw [mapArea, har.wrap, hr]
  have hexact := @mapRange_exact s₂.l5 ans.tables (s₂.pagesOf pl) (s₂.mms mm) (idToAddr id) _ har.aligned
    har.aligned_end har.lt har.lt_top (sameHalf_area s₂.l5 hid) hlen
  rw [hr] at hexact
  rw [hm.state_eq hmap]
  rw [hmapped] at hmap ⊢
  have hlook := (hexact hmap).2.1 b (hp.frame.l5.symm ▸ hb) hout
  have hmms : ((s₂.withTables mm r).1.setAlloc a (d.add id ⟨cur.pid, idToAddr id, pl⟩)).mms mm = r.1 :=
    Function.update_self ..
  have hl5 : ((s₂.withTables mm r).1.setAlloc a (d.add id ⟨cur.pid, idToAddr id, pl⟩)).l5 = s₂.l5 := rfl
  rw [hmms, hl5, hlook, hp.frame.mms, hp.frame.l5]

/-- What a successful `sa_fork` by `cur` of the thread `pp` of process `pt` does: `t`, at `id`, is the
first descriptor of the parent with that tid, and the child `a` gets the pagelist `pl` at `id`. -/
structure ForkCopy (s s' : State) (cur : Task) (pt pp : Nat) (parent a : AllocPtr) (id : Nat)
    (t : ThreadDesc) (pl : PlPtr) : Prop where
  findParent : s.allocFind pt = some parent
  load : (s.threads parent).load id = some t
  tid : t.tid = pp
  first : ∀ i u, (s.threads parent).load i = some u → u.tid = pp → id ≤ i
  findChild : s.allocFind cur.tgid = some a
  slot : (s.threads a).slot id = none
  gains : s'.threads a = (s.threads a).set id (.entry ⟨cur.pid, idToAddr id, pl⟩)
  bytes : ∃ mm, cur.mm = some mm ∧ ∀ off < ssSize, ∃ q,
    (s.pagesOf t.pagelist)[off / pageSize]? = some q ∧
      s'.read mm (idToAddr id + off) = some (s.data q (off % pageSize))
  own : ∀ b i u, (s'.threads b).load i = some u → (b, i) ≠ (a, id) →
    ∀ p ∈ s'.pagesOf pl, p ∉ s'.pagesOf u.pagelist
  unlisted : ∀ q ∈ s'.glSa, ∀ p ∈ s'.pagesOf pl, p ∉ s'.pagesOf q
  parent_ne : parent ≠ a
  others : ∀ b, b ≠ a → s'.allocs b = s.allocs b
  pages : ∀ b i u, (s.threads b).load i = some u → s'.pagesOf u.pagelist = s.pagesOf u.pagelist ∧
    ∀ p ∈ s.pagesOf u.pagelist, s'.data p = s.data p
  maps : ∀ mm, cur.mm = some mm → ∀ off < ssSize, ∃ p, (s'.pagesOf pl)[off / pageSize]? = some p ∧
    (s'.mms mm).pteAt s'.l5 (idToAddr id + off) = .present p
  l5 : s'.l5 = s.l5
  tables : ∀ mm, cur.mm ≠ some mm → s'.mms mm = s.mms mm
  outside : ∀ mm b, IsCanonical s.l5 b → ¬ (idToAddr id ≤ b ∧ b < idToAddr id + ssSize) →
    (s'.mms mm).pteAt s'.l5 b = (s.mms mm).pteAt s.l5 b

/-- Pagelists of different owners have no page in common. -/
theorem Inv.pages_apart (h : Inv S s []) {o o' : Owner} {pl' : PlPtr} (ho : s.Owns [] o pl)
    (ho' : s.Owns [] o' pl') (hne : o ≠ o') : ∀ p ∈ s.pagesOf pl, p ∉ s.pagesOf pl' := by
  intro p hp hp'
  obtain ⟨l, hl⟩ := Option.ne_none_iff_exists'.mp (h.owners.exists ho)
  obtain ⟨l', hl'⟩ := Option.ne_none_iff_exists'.mp (h.owners.exists ho')
  rw [pagesOf_eq hl] at hp
  rw [pagesOf_eq hl'] at hp'
  obtain rfl := h.pages.disjoint _ l _ l' p hl hl' hp hp'
  exact hne (h.owners.unique _ _ _ ho ho')

theorem ForkMaps.copy (hm : ForkMaps s cur ans pt pp mm a d pl s₁ parent id t s₂) (h : Inv S s [])
    (hfresh : ans.Fresh s) (hmap : (s₂.mapArea mm (idToAddr id) pl ans).2 = false) :
    ForkCopy s (saFork s cur ans pt pp).2 cur pt pp parent a id t pl := by
  have hp := hm.prepared h hfresh
  have hinv : Inv S (Lkm.saFork s cur ans pt pp).2 [] := h.saFork hfresh pt pp
  have hbytes := fun off (hoff : off < ssSize) ↦ hm.read h hfresh hmap hoff
  have hmaps := fun off (hoff : off < ssSize) ↦ hm.maps h hfresh hmap hoff
  have hout := fun b (hb : IsCanonical s.l5 b) hout ↦ hm.outside h hfresh hmap hb hout
  obtain ⟨hload, htid, hfirst⟩ := Xarray.find?_eq_some hm.found
  rw [hm.state_eq hmap] at hinv hbytes hmaps hout ⊢
  obtain ⟨r, hr⟩ := mapArea_eq s₂ mm (idToAddr id) pl ans
  rw [hr] at hinv hbytes hmaps hout ⊢
  obtain ⟨t₀, ht₀⟩ : ∃ t₀ : ThreadDesc, t₀ = ⟨cur.pid, idToAddr id, pl⟩ := ⟨_, rfl⟩
  rw [← ht₀] at hinv hbytes hmaps hout ⊢
  obtain ⟨s', hs'⟩ : ∃ s', (s₂.withTables mm r).1.setAlloc a (d.add id t₀) = s' := ⟨_, rfl⟩
  have hallocs : s'.allocs = Function.update s.allocs a (some (d.add id t₀)) := by
    rw [← hs', ← hp.frame.allocs]
    rfl
  have hmms : s'.mms = Function.update s.mms mm r.1 := by
    rw [← hs', ← hp.frame.mms]
    rfl
  have htables : ∀ m ≠ mm, s'.mms m = s.mms m := fun m hne ↦ by
    rw [hmms, Function.update_of_ne hne]
  have hl5 : s'.l5 = s.l5 := by
    rw [← hs', ← hp.frame.l5]
    rfl
  have hpages : ∀ q, s'.pagesOf q = s₂.pagesOf q := fun q ↦ by
    rw [← hs']
    rfl
  have hdata : s'.data = s₂.data := by
    rw [← hs']
    rfl
  have hgains : s'.threads a = (s.threads a).set id (.entry t₀) := by
    rw [threads_eq (d := d.add id t₀) (by rw [hallocs, Function.update_self]), threads_eq hm.alloc]
    rfl
  rw [hs'] at hinv hbytes hmaps hout ⊢
  have hchild : s'.Owns [] (.desc a id) pl :=
    ⟨t₀, by rw [hgains]; simp, by rw [ht₀]⟩
  exact
    { findParent := hm.findParent
      load := hload
      tid := by simpa using htid
      first := fun i u hu hpp ↦ by
        by_contra hlt
        exact hfirst i (not_le.mp hlt) u hu (by simpa using hpp)
      findChild := hm.find
      slot := by rw [threads_eq hm.alloc, hm.free]
      gains := by rw [hgains, ht₀]
      bytes := ⟨mm, hm.mm, hbytes⟩
      own := fun b i u hu hne ↦ by
        have hdesc : s'.Owns [] (.desc b i) u.pagelist := ⟨u, hu, rfl⟩
        refine hinv.pages_apart hchild hdesc fun hc ↦ ?_
        injection hc with h₁ h₂
        exact hne (by rw [h₁, h₂])
      unlisted := fun q hq ↦ by
        have hlist : s'.Owns [] .gl q := hq
        exact hinv.pages_apart hchild hlist (by simp)
      parent_ne := hm.parent_ne
      others := fun b hb ↦ by rw [hallocs, Function.update_of_ne hb]
      pages := fun b i u hu ↦ ⟨by rw [hpages, (hp.desc h hu).1], fun p hp ↦ by
        rw [hdata, (hm.data_desc h hfresh hu hp).2]⟩
      maps := fun m hm' ↦ by
        obtain rfl := Option.some.inj (hm.mm.symm.trans hm')
        exact fun off hoff ↦ hpages pl ▸ hmaps off hoff
      l5 := hl5
      tables := fun m hne ↦ htables m (by rintro rfl; exact hne hm.mm)
      outside := fun m b hb hb' ↦ by
        by_cases hne : m = mm
        · rw [hne]
          exact hout b hb hb'
        · rw [htables m hne, hl5] }

/-- **A `sa_fork` that returns 0 gives the caller a private copy of the parent's area.** -/
theorem saFork_copy (h : Inv S s []) (hfresh : ans.Fresh s)
    (hok : (saFork s cur ans pt pp).1.err = none) :
    ∃ parent a id t pl, ForkCopy s (saFork s cur ans pt pp).2 cur pt pp parent a id t pl := by
  obtain ⟨mm, a, d, pl, s₁, parent, id, t, s₂, hm, hmap⟩ := saFork_ok hok
  exact ⟨parent, a, id, t, pl, hm.copy h hfresh hmap⟩

/-- `ForkCopy`, where the page tables of the parent are as they were as well. -/
structure ForkPrivate (s s' : State) (cur : Task) (pt pp : Nat) (parent a : AllocPtr) (id : Nat)
    (t : ThreadDesc) (pl : PlPtr) : Prop extends ForkCopy s s' cur pt pp parent a id t pl where
  parentTables : ∀ d mm, s.allocs parent = some d → d.mm = some mm → s'.mms mm = s.mms mm

/-- An address space that both have does not have the parent's page in the area any more. -/
theorem ForkCopy.mms_ne {s' : State} (h : ForkCopy s s' cur pt pp parent a id t pl) (hmm : cur.mm = some mm)
    {p : Page} (hp : p ∈ s.pagesOf t.pagelist)
    (hpte : (s.mms mm).pteAt s.l5 (idToAddr id) = .present p) : s'.mms mm ≠ s.mms mm := by
  intro hsame
  obtain ⟨p', hp', hpte'⟩ := h.maps mm hmm 0 (by decide)
  rw [Nat.add_zero, hsame, h.l5, hpte] at hpte'
  obtain rfl := Pte.present.inj hpte'
  have hload : (s'.threads parent).load id = some t := by
    rw [State.threads, h.others parent h.parent_ne]
    exact h.load
  refine h.own parent id t hload (fun hc ↦ h.parent_ne (Prod.mk.inj hc).1) p (List.mem_of_getElem? hp') ?_
  rw [(h.pages parent id t h.load).1]
  exact hp

/-! ## Two processes, one of which has an area -/

/-- `alloc_create` for process 2, in an address space of its own or in that of process 1. -/
def createEvent₂ (m : MmId) : Event := ⟨⟨2, 2, some m⟩, .allocCreate 2 (some m), noPages⟩

/-- The module with an allocator for processes 1 and 2. -/
def created₂ (m : MmId) : State := (exec created (createEvent₂ m)).2

variable {m : MmId}

theorem created₂_eq : created₂ m = { created with
    saAllocators := created.saAllocators.set 2 (.entry 1)
    allocs := Function.update created.allocs 1 (some ⟨2, some m, .empty, 0, 1⟩)
    nextAlloc := 2 } := by
  have hslot : created.saAllocators.slot 2 = none := by simp [created_eq]
  have hnext : created.nextAlloc = 1 := by rw [created_eq]
  have h : ∀ s : State, s.saAllocators.slot 2 = none → s.nextAlloc = 1 →
      (exec s (createEvent₂ m)).2 = { s with
        saAllocators := s.saAllocators.set 2 (.entry 1)
        allocs := Function.update s.allocs 1 (some ⟨2, some m, .empty, 0, 1⟩)
        nextAlloc := 2 } := by
    intro s h₁ h₂
    simp [exec, createEvent₂, allocCreate, noPages, h₁, h₂]
  exact h created hslot hnext

theorem filled_created₂ : Filled 0 (created₂ m) := by
  rw [created₂_eq]
  refine ⟨?_, ⟨⟨1, some 0, .empty, 0, 1⟩, ?_, by simp, by simp⟩, filled_created.gl,
    filled_created.held⟩
  · simp [State.allocFind, created_eq]
  · simp [created_allocs]

/-- Processes 1 and 2 have an allocator each, and process 1 has one area. -/
structure Shared (m : MmId) (s : State) : Prop where
  filled : Filled 1 s
  load : ∃ d t, s.allocs 0 = some d ∧ d.mm = some 0 ∧ d.threads.load 0 = some t ∧ t.tid = 1
  find : s.allocFind 2 = some 1
  alloc : s.allocs 1 = some ⟨2, some m, .empty, 0, 1⟩
  mm : s.mms 1 = textMm
  l5 : s.l5 = false
  mapped : ∀ t, (s.threads 0).load 0 = some t →
    ∃ p ∈ s.pagesOf t.pagelist, (s.mms 0).pteAt s.l5 (idToAddr 0) = .present p

theorem shared_run (m : MmId) : ∃ es s, Run (Guarded Admissible Step)
    (State.init false (fun _ ↦ textMm) fun _ _ ↦ 0) es s ∧ Shared m s := by
  have hadm : Admissible created (createEvent₂ m) :=
    ⟨fresh_noPages _ [], by simp [createEvent₂]⟩
  have hadm₂ : Admissible (created₂ m) (allocEvent 0) :=
    ⟨filled_created₂.fresh, by simp [allocEvent]⟩
  have hrun : Run (Guarded Admissible Step) (State.init false (fun _ ↦ textMm) fun _ _ ↦ 0) _ (created₂ m) :=
    (Run.single ⟨admissible_createEvent _, rfl⟩).snoc ⟨hadm, rfl⟩
  have hinv : Inv Set.univ (created₂ m) [] := Inv.of_run hrun
  refine ⟨_, _, hrun.snoc ⟨hadm₂, rfl⟩, ?_⟩
  obtain ⟨hok, hfilled⟩ := (filled_created₂ (m := m)).saAlloc (Nat.zero_le _)
  obtain ⟨mm, a, d, pl, s₁, id, hm, hlow, haddr, heq⟩ := saAlloc_ok hok
  obtain ⟨-, hid, -, -⟩ := Xarray.lowestFree_eq_some hlow
  obtain rfl : id = 0 := by
    rw [← addrToId_idToAddr hid, ← haddr, addrToId_idToAddr (Nat.zero_le _)]
  obtain rfl : (0 : MmId) = mm := Option.some.inj hm.mm
  obtain rfl : (0 : AllocPtr) = a := Option.some.inj (filled_created₂.find.symm.trans hm.find)
  have hd : d.mm = some 0 := by
    have halloc := hm.alloc
    rw [created₂_eq] at halloc
    simp [created_allocs] at halloc
    rw [← halloc]
  -- the first page of the area
  have hp := hinv.prepared filled_created₂.fresh hm.stack
  obtain ⟨l, hl⟩ := hp.inv.pagelist_of_call
  obtain ⟨p, hpage, hpte⟩ := mkPte_idToAddr (s₁.pagesOf pl)
    (by rw [pagesOf_eq hl]; exact hp.inv.pages.size pl l hl) (le_refl (idToAddr 0)) (by decide) (by decide)
  obtain ⟨k, hrw⟩ := mapArea_rewrites hid s₁ 0 pl (grants (0 * ssPages))
  obtain rfl := hrw.done (mapArea_ok hid (by simp [grants, noPages]))
  have hlook := hrw.look (idToAddr 0) ⟨ssStart_le_idToAddr hid, by decide⟩
  rw [if_pos ⟨le_rfl, by decide⟩, hpte] at hlook
  rw [exec_allocEvent, heq]
  rw [heq] at hfilled
  have hframe := glAllocStack_frame hm.stack
  obtain ⟨r, hr⟩ := mapArea_eq s₁ 0 (idToAddr 0) pl (grants (0 * ssPages))
  rw [hr] at hfilled hlook ⊢
  refine ⟨hfilled, ⟨_, ⟨1, idToAddr 0, pl⟩, setAlloc_allocs, hd, ?_, rfl⟩, ?_, ?_, ?_, ?_, ?_⟩
  · simp [AllocatorDesc.add]
  · have h₂ : ((s₁.withTables 0 r).1.setAlloc 0 (d.add 0 ⟨1, idToAddr 0, pl⟩)).allocFind 2 =
        s₁.allocFind 2 := rfl
    rw [h₂, State.allocFind, hframe.saAllocators, created₂_eq]
    simp
  · rw [setAlloc_allocs_of_ne (by decide)]
    have h₂ : (s₁.withTables 0 r).1.allocs = s₁.allocs := rfl
    rw [h₂, hframe.allocs, created₂_eq]
    simp
  · have h₂ : ((s₁.withTables 0 r).1.setAlloc 0 (d.add 0 ⟨1, idToAddr 0, pl⟩)).mms =
        Function.update s₁.mms 0 r.1 := rfl
    rw [h₂, hframe.mms, Function.update_of_ne (by decide), created₂_eq, created_eq]
    rfl
  · have h₂ : ((s₁.withTables 0 r).1.setAlloc 0 (d.add 0 ⟨1, idToAddr 0, pl⟩)).l5 = s₁.l5 := rfl
    rw [h₂, hframe.l5, created₂_eq, created_eq]
    rfl
  · intro t ht
    rw [threads_eq setAlloc_allocs] at ht
    obtain rfl : (⟨1, idToAddr 0, pl⟩ : ThreadDesc) = t := by simpa [AllocatorDesc.add] using ht
    exact ⟨p, List.mem_of_getElem? hpage, hlook⟩

/-- Process 1 has no area but the first. -/
theorem Shared.live (h : Shared m s) {id : Nat} {t : ThreadDesc} (ht : s.Live 1 id t) : id = 0 := by
  obtain ⟨a, d, hf, hd, hload⟩ := ht
  obtain ⟨d', hd', -, hslot⟩ := h.filled.alloc
  obtain rfl : 0 = a := Option.some.inj (h.filled.find.symm.trans hf)
  obtain rfl : d' = d := Option.some.inj (hd'.symm.trans hd)
  by_contra hc
  rw [Xarray.load_eq_none_of_slot ((hslot id).mpr (by omega))] at hload
  cases hload

/-- `sa_fork` by process 2, naming the thread of process 1. -/
def forkEvent : Event := ⟨⟨2, 2, some 1⟩, .saFork 1 1, grants (1 * ssPages)⟩

/-- It succeeds. -/
theorem Shared.saFork (h : Shared m s) :
    (saFork s ⟨2, 2, some m⟩ (grants (1 * ssPages)) 1 1).1 = ⟨none, none⟩ := by
  obtain ⟨d, t, hd, -, hload, htid⟩ := h.load
  obtain ⟨ans, hans⟩ : ∃ ans, ans = grants (1 * ssPages) := ⟨_, rfl⟩
  have hgl := h.filled.glAllocStack hans
  have hthread : ans.thread = true := by rw [hans]; rfl
  have hmem : ¬ (!ans.xaMem) = true := by rw [hans]; decide
  have hmap : ∀ s₁ pl, (State.mapArea s₁ m (idToAddr 0) pl ans).2 = false :=
    fun s₁ pl ↦ mapArea_ok (Nat.zero_le _) (by rw [hans]; simp [grants, noPages])
  rw [← hans, saFork_eq (show (⟨2, 2, some m⟩ : Task).mm = some m from rfl)
    (allocGet_eq h.find h.alloc (by simp)) h.alloc (by simp) h.filled.find, if_pos hthread, hgl]
  cases hf : (s.threads 0).find? fun t ↦ t.tid == 1 with
  | none =>
      refine absurd ?_ (Xarray.find?_eq_none hf (i := 0) (a := t) (by rw [threads_eq hd, hload]))
      simp [htid]
  | some r =>
      obtain ⟨id, t'⟩ := r
      have hload' := (Xarray.find?_eq_some hf).1
      rw [threads_eq hd] at hload'
      obtain rfl := h.live ⟨0, d, h.filled.find, hd, hload'⟩
      simp only
      rw [if_neg (by simp), if_neg hmem, hmap]
      simp

/-- Process 2 copies the area of process 1. -/
theorem saFork_copy_shared : ∃ es s, Run (Guarded Admissible Step)
    (State.init false (fun _ ↦ textMm) fun _ _ ↦ 0) es s ∧
      ∃ parent a id t pl, ForkCopy s (saFork s ⟨2, 2, some 1⟩ (grants (1 * ssPages)) 1 1).2
        ⟨2, 2, some 1⟩ 1 1 parent a id t pl := by
  obtain ⟨es, s, hrun, hs⟩ := shared_run 1
  have hinv : Inv Set.univ s [] := Inv.of_run hrun
  exact ⟨es, s, hrun, saFork_copy hinv hs.filled.fresh (by rw [hs.saFork])⟩

/-- In the address space of process 1, the copy takes the place of the area. -/
theorem not_saFork_private : ∃ es s, Run (Guarded Admissible Step)
    (State.init false (fun _ ↦ textMm) fun _ _ ↦ 0) es s ∧
      (saFork s ⟨2, 2, some 0⟩ (grants (1 * ssPages)) 1 1).1 = ⟨none, none⟩ ∧
      ¬ ∃ parent a id t pl, ForkPrivate s (saFork s ⟨2, 2, some 0⟩ (grants (1 * ssPages)) 1 1).2
        ⟨2, 2, some 0⟩ 1 1 parent a id t pl := by
  obtain ⟨es, s, hrun, hs⟩ := shared_run 0
  refine ⟨es, s, hrun, hs.saFork, ?_⟩
  rintro ⟨parent, a, id, t, pl, hcopy⟩
  obtain rfl : 0 = parent := Option.some.inj (hs.filled.find.symm.trans hcopy.findParent)
  obtain ⟨d, t₀, hd, hmm, -⟩ := hs.load
  have hload := hcopy.load
  rw [threads_eq hd] at hload
  obtain rfl := hs.live ⟨0, d, hs.filled.find, hd, hload⟩
  obtain ⟨p, hp, hpte⟩ := hs.mapped t hcopy.load
  exact hcopy.toForkCopy.mms_ne rfl hp hpte (hcopy.parentTables d 0 hd hmm)

end ShadowStack.Lkm
