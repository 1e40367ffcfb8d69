import ShadowStack.Lkm.Areas

/-!
# The order of teardown

A process gives up its allocator by one `alloc_destroy` and one `sa_free` for each of its areas.
`alloc_destroy` removes the allocator from `sa_allocators` first, and `sa_free` finds its allocator
there: what has not been freed by then cannot be freed any more.
-/

namespace ShadowStack.Lkm

open Lib State

/-- A sequence of calls: the replies in turn, and the state in the end. -/
def runCalls : State → List Event → List Reply × State
  | s, [] => ([], s)
  | s, e :: es => ((exec s e).1 :: (runCalls (exec s e).2 es).1, (runCalls (exec s e).2 es).2)

theorem runCalls_append (s : State) (es es' : List Event) :
    runCalls s (es ++ es') =
      ((runCalls s es).1 ++ (runCalls (runCalls s es).2 es').1, (runCalls (runCalls s es).2 es').2) := by
  induction es generalizing s with
  | nil => rfl
  | cons e es ih => simp only [List.cons_append, runCalls, ih]

/-- The pagelist is on `gl_sa`, or its pages have gone back to the page allocator. -/
def State.GivenUp (s : State) (pl : PlPtr) : Prop := pl ∈ s.glSa ∨ s.pagelists pl = none

/-- The calls `es` are, in some order, one `alloc_destroy` of `a` and one `sa_free` for each of its
areas, all made by its owner `g`. -/
structure TeardownCalls (s : State) (g : Nat) (a : AllocPtr) (es : List Event) : Prop where
  owner : ∀ e ∈ es, e.cur.tgid = g ∧ e.cur.mm.isSome
  calls : ∃ addrs : List Nat, addrs.Nodup ∧
    (∀ addr, addr ∈ addrs ↔ ∃ id t, (s.threads a).load id = some t ∧ t.addr = addr) ∧
    (es.map Event.call).Perm (.allocDestroy a :: addrs.map .saFree)

/-- Every call has succeeded, the allocator is gone, and so are its pagelists. -/
structure TornDown (s : State) (g : Nat) (a : AllocPtr) (es : List Event) : Prop where
  replies : ∀ r ∈ (runCalls s es).1, r.err = none
  unregistered : (runCalls s es).2.allocFind g = none
  destroyed : (runCalls s es).2.allocs a = none
  pages : ∀ id t, (s.threads a).load id = some t → (runCalls s es).2.GivenUp t.pagelist

section Frees

variable {s : State} {g : Nat} {a : AllocPtr} {d : AllocatorDesc} {pl : PlPtr}

theorem State.glFree_givenUp (s : State) (pl : PlPtr) : (s.glFree pl).GivenUp pl := by
  unfold glFree GivenUp
  split
  · exact .inr (by simp [saPagelistFree])
  · exact .inl List.mem_cons_self

theorem State.GivenUp.glFree (h : s.GivenUp pl) (pl' : PlPtr) : (s.glFree pl').GivenUp pl := by
  unfold State.glFree
  split
  · refine h.imp_right fun h ↦ ?_
    by_cases hpl : pl = pl' <;> simp [saPagelistFree, hpl, h]
  · exact h.imp_left fun h ↦ List.mem_cons_of_mem _ h

/-- Freeing an area that has a descriptor. -/
theorem Inv.saFree_live {S : Set Page} (h : Inv S s []) {cur : Task} {ans : Answers} {id : Nat}
    {t : ThreadDesc} (hmm : cur.mm.isSome) (hfind : s.allocFind cur.tgid = some a)
    (hd : s.allocs a = some d) (ht : d.threads.load id = some t) (hid : id < threadsLimit) :
    Lkm.saFree s cur ans (idToAddr id) =
      (⟨none, none⟩, (s.setAlloc a (d.remove id)).glFree t.pagelist) := by
  obtain ⟨mm, hmm⟩ := Option.isSome_iff_exists.mp hmm
  obtain ⟨d', hd', htgid⟩ := h.alloc.find hfind
  obtain rfl : d = d' := Option.some.inj (hd.symm.trans hd')
  have hload : (s.threads a).load (addrToId (idToAddr id)) = some t := by
    rw [addrToId_idToAddr hid.le, threads_eq hd, ht]
  rw [saFree_eq hmm (validAddr_idToAddr hid) hfind hload, addrToId_idToAddr hid.le,
    h.alloc.free_eq hd (by rw [htgid, hfind]) ht]

/-- **Freeing all areas of an allocator**, in any order: each of them is given up, and the allocator
stays behind without areas. -/
theorem Inv.free_all {S : Set Page} {es : List Event} {addrs : List Nat} (h : Inv S s [])
    (hfind : s.allocFind g = some a) (hd : s.allocs a = some d)
    (howner : ∀ e ∈ es, e.cur.tgid = g ∧ e.cur.mm.isSome) (hnd : addrs.Nodup)
    (haddrs : ∀ addr, addr ∈ addrs ↔ ∃ id t, d.threads.load id = some t ∧ t.addr = addr)
    (hlast : d.threads.load threadsLimit = none)
    (hcalls : (es.map Event.call).Perm (addrs.map .saFree)) :
    (∀ r ∈ (runCalls s es).1, r.err = none) ∧ Inv S (runCalls s es).2 [] ∧
      (runCalls s es).2.allocFind g = some a ∧
      (∃ d', (runCalls s es).2.allocs a = some d' ∧ d'.threads.count = 0) ∧
      (∀ pl, s.GivenUp pl → (runCalls s es).2.GivenUp pl) ∧
      ∀ id t, d.threads.load id = some t → (runCalls s es).2.GivenUp t.pagelist := by
  induction es generalizing s d addrs with
  | nil =>
      obtain rfl : addrs = [] := by simpa using hcalls.symm.length_eq
      have hnone : ∀ id, d.threads.load id = none := by
        intro id
        by_contra hc
        obtain ⟨t, ht⟩ := Option.ne_none_iff_exists'.mp hc
        exact absurd ((haddrs t.addr).mpr ⟨id, t, ht, rfl⟩) List.not_mem_nil
      refine ⟨fun r hr ↦ absurd hr List.not_mem_nil, h, hfind,
        ⟨d, hd, Xarray.count_eq_zero.mpr hnone⟩, fun _ h ↦ h, fun id t ht ↦ ?_⟩
      rw [hnone id] at ht
      cases ht
  | cons e es ih =>
      obtain ⟨cur, call, ans⟩ := e
      obtain ⟨htgid, hmm⟩ := howner _ List.mem_cons_self
      obtain ⟨addr, haddr, hcall⟩ := List.mem_map.mp (hcalls.mem_iff.mp List.mem_cons_self)
      obtain ⟨id, t, ht, htaddr⟩ := (haddrs addr).mp haddr
      have hid : id < threadsLimit := by
        refine lt_of_le_of_ne (h.alloc.bound a d id t hd ht) fun hc ↦ ?_
        rw [hc, hlast] at ht
        cases ht
      obtain rfl : addr = idToAddr id := by rw [← htaddr, h.alloc.addr a d id t hd ht]
      have hstep : Lkm.exec s ⟨cur, call, ans⟩ =
          (⟨none, none⟩, (s.setAlloc a (d.remove id)).glFree t.pagelist) := by
        rw [← show Call.saFree (idToAddr id) = call from hcall]
        exact h.saFree_live hmm (by rw [htgid, hfind]) hd ht hid
      have hinv := h.saFree cur ans (idToAddr id)
      rw [h.saFree_live hmm (by rw [htgid, hfind]) hd ht hid] at hinv
      obtain ⟨s', hs'⟩ : ∃ s', (s.setAlloc a (d.remove id)).glFree t.pagelist = s' := ⟨_, rfl⟩
      rw [hs'] at hinv hstep
      have hd' : s'.allocs a = some (d.remove id) := by
        rw [← hs', glFree_allocs, setAlloc_allocs]
      have hfind' : s'.allocFind g = some a := by
        rw [← hs', allocFind, (glFree_frame _ _).saAllocators]
        exact hfind
      have hup : ∀ pl, s.GivenUp pl → s'.GivenUp pl := by
        rw [← hs']
        exact fun pl hpl ↦ State.GivenUp.glFree (s := s.setAlloc a (d.remove id)) hpl _
      have hload : ∀ i, (d.remove id).threads.load i =
          if i = id then none else d.threads.load i := fun i ↦ Xarray.load_erase _ _ _
      -- the areas that are left
      have haddrs' : ∀ x, x ∈ addrs.erase (idToAddr id) ↔
          ∃ i u, (d.remove id).threads.load i = some u ∧ u.addr = x := by
        intro x
        rw [hnd.mem_erase_iff, haddrs]
        constructor
        · rintro ⟨hne, i, u, hu, rfl⟩
          have hi : i ≠ id := by
            rintro rfl
            obtain rfl : u = t := Option.some.inj (hu.symm.trans ht)
            exact hne htaddr
          exact ⟨i, u, by rw [hload, if_neg hi, hu], rfl⟩
        · rintro ⟨i, u, hu, rfl⟩
          rw [hload] at hu
          split at hu
          · cases hu
          · next hi =>
              refine ⟨fun hc ↦ hi ?_, i, u, hu, rfl⟩
              have hle := h.alloc.bound a d i u hd hu
              rw [h.alloc.addr a d i u hd hu] at hc
              rw [← addrToId_idToAddr hle, hc, addrToId_idToAddr hid.le]
      have hlast' : (d.remove id).threads.load threadsLimit = none := by
        rw [hload, hlast, ite_self]
      have hcalls' : (es.map Event.call).Perm ((addrs.erase (idToAddr id)).map .saFree) := by
        have hperm := hcalls.trans ((List.perm_cons_erase haddr).map Call.saFree)
        rw [List.map_cons, List.map_cons, ← hcall] at hperm
        exact hperm.cons_inv
      obtain ⟨hr, hinv', hf, hd'', hkeep, hgone⟩ := ih hinv hfind' hd'
        (fun e he ↦ howner e (List.mem_cons_of_mem _ he)) (hnd.erase _) haddrs' hlast' hcalls'
      rw [runCalls, hstep]
      refine ⟨?_, hinv', hf, hd'', fun pl hpl ↦ hkeep pl (hup pl hpl), fun i u hu ↦ ?_⟩
      · rintro r hmem
        rcases List.mem_cons.mp hmem with rfl | hmem
        · rfl
        · exact hr r hmem
      · by_cases hi : i = id
        · obtain rfl : u = t := by
            rw [hi, ht] at hu
            exact (Option.some.inj hu).symm
          refine hkeep _ ?_
          rw [← hs']
          exact glFree_givenUp _ _
        · exact hgone i u (by rw [hload, if_neg hi, hu])

end Frees

section Destroy

variable {s : State} {a : AllocPtr} {d : AllocatorDesc}

theorem State.allocPut_saAllocators (s : State) (a : AllocPtr) (ans : Answers) :
    (s.allocPut a ans).saAllocators = s.saAllocators := by
  unfold allocPut
  split
  · rfl
  · split
    · unfold allocDestroyCallback
      split <;> rfl
    · rfl

/-- `alloc_destroy` takes the allocator out of the table. -/
theorem State.allocDestroy_find {ans : Answers} (hd : s.allocs a = some d) :
    (s.allocDestroy a ans).allocFind d.tgid = none := by
  simp only [allocDestroy, hd]
  rw [allocFind, allocPut_saAllocators, Xarray.load_erase, if_pos rfl]

/-- Without areas, `alloc_destroy` drops the last reference. -/
theorem Inv.allocDestroy_last {S : Set Page} (h : Inv S s []) (ans : Answers) (hd : s.allocs a = some d)
    (hreg : s.allocFind d.tgid = some a) (hcount : d.threads.count = 0) :
    (s.allocDestroy a ans).allocs a = none ∧ (s.allocDestroy a ans).glSa = s.glSa ∧
      (s.allocDestroy a ans).pagelists = s.pagelists := by
  have hkref : d.kref = 1 := by
    rw [h.alloc.kref a d hd, if_pos hreg, hcount]
  simp only [State.allocDestroy, hd]
  rw [allocPut]
  simp only [hd, hkref, ↓reduceIte]
  unfold allocDestroyCallback
  cases hmm : d.mm with
  | none => exact ⟨Function.update_self .., rfl, rfl⟩
  | some m => exact ⟨Function.update_self .., rfl, rfl⟩

end Destroy

/-- The reply of a call in a sequence. -/
theorem mem_runCalls (s : State) (pre post : List Event) (e : Event) :
    (exec (runCalls s pre).2 e).1 ∈ (runCalls s (pre ++ e :: post)).1 := by
  rw [runCalls_append, runCalls]
  exact List.mem_append_right _ List.mem_cons_self

/-- `sa_free` succeeds only for the address of an area of the window and with a registered
allocator. -/
theorem saFree_err {s : State} {cur : Task} {ans : Answers} {addr : Nat}
    (h : ¬ ValidAddr addr ∨ s.allocFind cur.tgid = none) : (saFree s cur ans addr).1.err ≠ none := by
  rcases saFree_cases s cur ans addr with ⟨herr, -⟩ | ⟨mm, a, t, -, hv, hfind, -⟩
  · exact herr
  · rcases h with h | h
    · exact absurd hv h
    · rw [hfind] at h
      cases h

/-- Freeing areas leaves the table of allocators alone. -/
theorem Inv.frees {S : Set Page} {s : State} {es : List Event} (h : Inv S s [])
    (hes : ∀ e ∈ es, ∃ addr, e.call = .saFree addr) :
    Inv S (runCalls s es).2 [] ∧ (runCalls s es).2.saAllocators = s.saAllocators := by
  induction es generalizing s with
  | nil => exact ⟨h, rfl⟩
  | cons e es ih =>
      obtain ⟨cur, call, ans⟩ := e
      obtain ⟨addr, hcall⟩ := hes _ List.mem_cons_self
      obtain rfl : call = .saFree addr := hcall
      obtain ⟨hinv, hreg⟩ := ih (h.saFree cur ans addr) fun e he ↦ hes e (List.mem_cons_of_mem _ he)
      refine ⟨hinv, hreg.trans ?_⟩
      rcases h.alloc.saFree_cases cur ans addr with ⟨-, heq⟩ | ⟨mm, a, d, t, -, -, -, -, -, -, -, heq⟩
      · rw [heq]
      · rw [heq, (glFree_frame _ _).saAllocators]
        rfl

/-- The one `alloc_destroy` of a teardown, and the calls around it. -/
theorem TeardownCalls.split {s : State} {g : Nat} {a : AllocPtr} {es : List Event}
    (h : TeardownCalls s g a es) :
    ∃ (pre : List Event) (e : Event) (post : List Event) (addrs : List Nat),
      es = pre ++ e :: post ∧ e.call = .allocDestroy a ∧ addrs.Nodup ∧
      (∀ addr, addr ∈ addrs ↔ ∃ id t, (s.threads a).load id = some t ∧ t.addr = addr) ∧
      ((pre ++ post).map Event.call).Perm (addrs.map .saFree) ∧
      ∀ e' ∈ pre ++ post, ∃ addr, e'.call = .saFree addr := by
  obtain ⟨addrs, hnd, haddrs, hperm⟩ := h.calls
  obtain ⟨e, he, hcall⟩ := List.mem_map.mp (hperm.mem_iff.mpr List.mem_cons_self)
  obtain ⟨pre, post, rfl⟩ := List.append_of_mem he
  have hmiddle : (pre ++ e :: post).Perm (e :: (pre ++ post)) := List.perm_middle
  have hmid := (hmiddle.map Event.call).symm.trans hperm
  rw [List.map_cons, hcall] at hmid
  refine ⟨pre, e, post, addrs, rfl, hcall, hnd, haddrs, hmid.cons_inv, fun e' he' ↦ ?_⟩
  obtain ⟨addr, -, hfree⟩ := List.mem_map.mp (hmid.cons_inv.mem_iff.mp (List.mem_map_of_mem he'))
  exact ⟨addr, hfree.symm⟩

section Order

variable {S : Set Page} {s : State} {g : Nat} {a : AllocPtr} {es : List Event}

/-- The first call after `alloc_destroy` finds no allocator. -/
theorem TornDown.destroy_last (htorn : TornDown s g a es) (hinv : Inv S s [])
    (hfind : s.allocFind g = some a) (h : TeardownCalls s g a es) :
    es.getLast?.map Event.call = some (.allocDestroy a) := by
  have howner := h.owner
  obtain ⟨pre, e, post, addrs, rfl, hcall, -, -, -, hfrees⟩ := h.split
  cases post with
  | nil => simp [hcall]
  | cons e' post =>
      exfalso
      obtain ⟨hinv', hsame⟩ := hinv.frees fun e he ↦ hfrees e (List.mem_append_left _ he)
      have hfind' : (runCalls s pre).2.allocFind g = some a := by
        rw [allocFind, hsame]
        exact hfind
      obtain ⟨d', hd', htgid'⟩ := hinv'.alloc.find hfind'
      have hnone : (runCalls s (pre ++ [e])).2.allocFind g = none := by
        rw [runCalls_append, runCalls, runCalls, exec, hcall, ← htgid']
        exact allocDestroy_find hd'
      obtain ⟨addr, hfree⟩ := hfrees e' (List.mem_append_right _ List.mem_cons_self)
      have hmem := mem_runCalls s (pre ++ [e]) post e'
      rw [List.append_assoc, List.singleton_append] at hmem
      have hok := htorn.replies _ hmem
      rw [exec, hfree] at hok
      refine saFree_err (.inr ?_) hok
      rw [(howner e' (by simp)).1, hnone]

/-- The area at the id `THREADS_LIMIT` cannot be freed in any order. -/
theorem TornDown.no_limit (htorn : TornDown s g a es) (hinv : Inv S s [])
    (hfind : s.allocFind g = some a) (h : TeardownCalls s g a es) :
    (s.threads a).load threadsLimit = none := by
  obtain ⟨d, hd, -⟩ := hinv.alloc.find hfind
  obtain ⟨addrs, -, haddrs, hperm⟩ := h.calls
  by_contra hc
  obtain ⟨t, ht⟩ := Option.ne_none_iff_exists'.mp hc
  have haddr : idToAddr threadsLimit ∈ addrs := by
    refine (haddrs _).mpr ⟨threadsLimit, t, ht, ?_⟩
    rw [threads_eq hd] at ht
    exact hinv.alloc.addr a d _ t hd ht
  obtain ⟨e, he, hfree⟩ := List.mem_map.mp
    (hperm.mem_iff.mpr (List.mem_cons_of_mem _ (List.mem_map_of_mem (f := Call.saFree) haddr)))
  obtain ⟨before, after, rfl⟩ := List.append_of_mem he
  have hok := htorn.replies _ (mem_runCalls s before after e)
  rw [exec, hfree] at hok
  refine saFree_err (.inl fun hv ↦ ?_) hok
  exact absurd hv.2.1 (by decide)

/-- With `alloc_destroy` last, everything is given up before the allocator goes. -/
theorem TeardownCalls.tornDown (h : TeardownCalls s g a es) (hinv : Inv S s [])
    (hfind : s.allocFind g = some a)
    (hlast : es.getLast?.map Event.call = some (.allocDestroy a))
    (hlimit : (s.threads a).load threadsLimit = none) : TornDown s g a es := by
  obtain ⟨d, hd, -⟩ := hinv.alloc.find hfind
  have howner := h.owner
  obtain ⟨pre, e, post, addrs, rfl, hcall, hnd, haddrs, hperm, hfrees⟩ := h.split
  obtain rfl : post = [] := by
    rcases List.eq_nil_or_concat post with rfl | ⟨post', e', rfl⟩
    · rfl
    · obtain ⟨addr, hfree⟩ := hfrees e' (by simp)
      rw [List.concat_eq_append, ← List.cons_append, ← List.append_assoc, List.getLast?_concat,
        Option.map_some, hfree] at hlast
      cases hlast
  rw [List.append_nil] at hperm
  rw [threads_eq hd] at hlimit haddrs
  obtain ⟨hreplies, hinv', hfind', ⟨d', hd', hcount⟩, -, hgone⟩ := hinv.free_all hfind hd
    (fun e he ↦ howner e (List.mem_append_left _ he)) hnd haddrs hlimit hperm
  obtain ⟨d'', hd'', htgid'⟩ := hinv'.alloc.find hfind'
  obtain rfl : d' = d'' := Option.some.inj (hd'.symm.trans hd'')
  have hend : runCalls s (pre ++ [e]) =
      ((runCalls s pre).1 ++ [⟨none, none⟩], (runCalls s pre).2.allocDestroy a e.ans) := by
    rw [runCalls_append, runCalls, runCalls, exec, hcall]
  obtain ⟨hdead, hgl, hpls⟩ :=
    hinv'.allocDestroy_last e.ans hd' (by rw [htgid', hfind']) hcount
  constructor
  · rw [hend]
    intro r hr
    rcases List.mem_append.mp hr with hr | hr
    · exact hreplies r hr
    · rw [List.mem_singleton.mp hr]
  · rw [hend, ← htgid']
    exact allocDestroy_find hd'
  · rw [hend]
    exact hdead
  · intro id t ht
    rw [threads_eq hd] at ht
    rw [hend, GivenUp, hgl, hpls]
    exact hgone id t ht

end Order

/-- **Teardown succeeds exactly in the orders** that have `alloc_destroy` last, and only without an
area at the id `THREADS_LIMIT`. -/
theorem tornDown_iff {l5 : Bool} {mms : MmId → Mm} {data : Page → PageData} {es₀ es : List Event}
    {s : State} {g : Nat} {a : AllocPtr}
    (hrun : Run (Guarded Admissible Step) (init l5 mms data) es₀ s) (hfind : s.allocFind g = some a)
    (h : TeardownCalls s g a es) :
    TornDown s g a es ↔ es.getLast?.map Event.call = some (.allocDestroy a) ∧
      (s.threads a).load threadsLimit = none := by
  have hinv := Inv.of_run hrun
  constructor
  · intro htorn
    exact ⟨htorn.destroy_last hinv hfind h, htorn.no_limit hinv hfind h⟩
  · rintro ⟨hlast, hlimit⟩
    exact h.tornDown hinv hfind hlast hlimit

/-! ## A process with one area -/

/-- `sa_free` of the first area by process 1. -/
def freeFirst : Event := ⟨⟨1, 1, some 0⟩, .saFree (idToAddr 0), noPages⟩

/-- `alloc_destroy` of the allocator of process 1. -/
def destroyFirst : Event := ⟨⟨1, 1, some 0⟩, .allocDestroy 0, noPages⟩

theorem Filled.teardownCalls {s : State} (hs : Filled 1 s) (hinv : Inv Set.univ s [])
    {es : List Event} (hes : es.Perm [destroyFirst, freeFirst]) : TeardownCalls s 1 0 es := by
  obtain ⟨d, hd, -, hslot⟩ := hs.alloc
  refine ⟨fun e he ↦ ?_, [idToAddr 0], List.nodup_singleton _, fun addr ↦ ?_, hes.map Event.call⟩
  · have hmem := hes.mem_iff.mp he
    simp only [List.mem_cons, List.not_mem_nil, or_false] at hmem
    rcases hmem with rfl | rfl <;> exact ⟨rfl, rfl⟩
  · rw [threads_eq hd, List.mem_singleton]
    constructor
    · rintro rfl
      cases hx : d.threads.slot 0 with
      | none => exact absurd ((hslot 0).mp hx) (by decide)
      | some x =>
          cases x with
          | reserved => exact absurd hx (hinv.alloc.settled 0 d 0 hd)
          | entry t =>
              have ht := Xarray.load_eq_some.mpr hx
              exact ⟨0, t, ht, hinv.alloc.addr 0 d 0 t hd ht⟩
    · rintro ⟨id, t, ht, rfl⟩
      rw [hinv.alloc.addr 0 d id t hd ht]
      have hid : ¬ 1 ≤ id := by
        rw [← hslot id, Xarray.load_eq_some.mp ht]
        simp
      rw [show id = 0 by omega]

/-- The order that frees the area first. -/
theorem tornDown_iff_one : ∃ s, Filled 1 s ∧ TornDown s 1 0 [freeFirst, destroyFirst] := by
  obtain ⟨es, s, hrun, hs⟩ := exists_run_filled (n := 1) (by decide)
  have hrun' : Run (Guarded Admissible Step) _ es s := hrun.mono fun _ _ _ ht ↦ ⟨ht.1.1, ht.2⟩
  obtain ⟨d, hd, -, hslot⟩ := hs.alloc
  refine ⟨s, hs, (tornDown_iff hrun' hs.find
    (hs.teardownCalls (Inv.of_run hrun') (List.Perm.swap ..))).mpr ⟨rfl, ?_⟩⟩
  rw [threads_eq hd]
  exact Xarray.load_eq_none_of_slot ((hslot _).mpr (by decide))

/-- The other order leaks the area. -/
theorem not_tornDown_destroy_first :
    ¬ ∀ (l5 : Bool) (mms : MmId → Mm) (data : Page → PageData) (es₀ es : List Event) (s : State)
      (g : Nat) (a : AllocPtr), Run (Guarded Admissible Step) (init l5 mms data) es₀ s →
      s.allocFind g = some a → TeardownCalls s g a es → TornDown s g a es := by
  intro h
  obtain ⟨es, s, hrun, hs⟩ := exists_run_filled (n := 1) (by decide)
  have hrun' : Run (Guarded Admissible Step) _ es s := hrun.mono fun _ _ _ ht ↦ ⟨ht.1.1, ht.2⟩
  have hinv := Inv.of_run hrun'
  have hcalls := hs.teardownCalls hinv (List.Perm.refl [destroyFirst, freeFirst])
  have htorn := h _ _ _ _ _ s 1 0 hrun' hs.find hcalls
  have hlast := htorn.destroy_last hinv hs.find hcalls
  simp [destroyFirst, freeFirst] at hlast

end ShadowStack.Lkm
