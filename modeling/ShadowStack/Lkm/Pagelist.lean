import Mathlib.Data.List.Nodup
import ShadowStack.Lib.Memory
import ShadowStack.Lib.Run
import ShadowStack.Lkm.State

/-!
# Filling a pagelist, one allocation at a time

`saPagelistAllocPages` of the sequential model says which pages the three loops of
`sa_pagelist_alloc_pages` end with.  Here the function is a machine that asks for one allocation in
each step, with the local variables of the source, the slots of `pages[]` and what is written to
them, and with the loop of `sa_pagelist_free_pages` that undoes a partial allocation.

What the kernel answers is a stream, one outcome a step, of which a step looks at the part it asked
for.
-/

namespace ShadowStack.Lkm

open Lib

/-- What an `int` holds that was assigned `n`. -/
def cInt (n : Int) : Int := n.bmod (2 ^ 32)

theorem cInt_of_lt {n : Int} (h : 0 ≤ n) (hlt : n < 2 ^ 31) : cInt n = n := by
  rw [cInt, Int.bmod_eq_of_le (by norm_num; omega) (by norm_num; omega)]

/-- Where `sa_pagelist_alloc_pages` is: at the head of one of its loops, behind them, in
`sa_pagelist_free_pages`, or back at its caller with an error or with `0`. -/
inductive Fill.Pc where
  | high | bulk | single | check | freeing
  | done (err : Option Errno)
deriving DecidableEq, Repr

/-- The variables of `sa_pagelist_alloc_pages`, and what it did so far. -/
structure Fill where
  pc : Fill.Pc
  /-- The slots of `pagelist->pages`. -/
  pages : Nat → Option Page
  /-- Whether the array is allocated. -/
  array : Bool
  /-- `pagelist->nr_pages`, an `int`, `0` until it is written. -/
  nrPages : Int
  nrAllocated : Nat
  nrRemaining : Nat
  largeOrder : Nat
  maxAttemptOrder : Nat
  /-- The pages the page allocator handed out, first one first. -/
  obtained : List Page
  /-- The arguments of `__free_page` in turn. -/
  freed : List (Option Page)
  /-- The stores to `pages[]` in turn: the index, and what the slot held before. -/
  writes : List (Nat × Option Page)

/-- The kernel's answers at one step. -/
structure Outcome where
  /-- `alloc_pages(gfp, large_order)`: the first page of a block. -/
  block : Option Page
  /-- `compat_alloc_pages_bulk`: the pages it finds, of which it stores what was asked for. -/
  bulk : List Page
  /-- `fatal_signal_pending(current)`. -/
  fatal : Bool
  /-- `alloc_pages(gfp, 0)`. -/
  page : Option Page
deriving Repr

namespace Fill

/-- The order of the next block, for what is still missing. -/
def nextOrder (maxAttemptOrder nrRemaining : Nat) : Nat := min maxAttemptOrder (ilog2 nrRemaining)

/-- Up to the first loop: the array is granted, zeroed, or the function returns. -/
def start (kvcalloc : Bool) (nr : Nat) : Fill where
  pc := if kvcalloc then .high else .done (some .ENOMEM)
  pages := fun _ ↦ none
  array := kvcalloc
  nrPages := 0
  nrAllocated := 0
  nrRemaining := nr
  largeOrder := nextOrder compatMaxOrder nr
  maxAttemptOrder := compatMaxOrder
  obtained := []
  freed := []
  writes := []

variable (s : Fill) (nr : Nat) (o : Outcome)

/-- `pagelist->pages[nr_allocated++] = page`. -/
def put (p : Page) : Fill :=
  { s with
    pages := Function.update s.pages s.nrAllocated (some p)
    nrAllocated := s.nrAllocated + 1
    obtained := s.obtained ++ [p]
    writes := s.writes ++ [(s.nrAllocated, s.pages s.nrAllocated)] }

/-- Several pages in a row. -/
def store (ps : List Page) : Fill := ps.foldl put s

/-- The size of the next bulk request. -/
def request : Nat := min 100 (nr - s.nrAllocated)

/-- A refused block: smaller ones are tried, and no larger one again. -/
def lower : Fill := { s with maxAttemptOrder := s.largeOrder - 1, largeOrder := s.largeOrder - 1 }

/-- The count and the order after a block. -/
def recount : Fill :=
  let nrRemaining := wrapSub nr s.nrAllocated
  { s with nrRemaining, largeOrder := nextOrder s.maxAttemptOrder nrRemaining }

/-- Another place, nothing else. -/
def goto (pc : Pc) : Fill := { s with pc }

/-- `pagelist->pages[i]`; there is no page in front of the array. -/
def slot (i : Int) : Option Page := if 0 ≤ i then s.pages i.toNat else none

/-- `__free_page(pagelist->pages[--nr_pages])`. -/
def freeLast : Fill :=
  { s with nrPages := cInt (s.nrPages - 1), freed := s.freed ++ [s.slot (cInt (s.nrPages - 1))] }

/-- `kvfree(pagelist->pages)` and the return behind it; the test of the loop before has left `nr_pages` at
`-1`. -/
def release : Fill :=
  { s with nrPages := cInt (s.nrPages - 1), array := false, pc := .done (some .ENOMEM) }

/-- One turn of a loop of `sa_pagelist_alloc_pages`. -/
def step : Fill :=
  match s.pc with
  | .high =>
      if 0 < s.largeOrder ∧ s.nrRemaining ≠ 0 then
        match o.block with
        | none => s.lower
        | some p => (s.store (List.range' p (2 ^ s.largeOrder))).recount nr
      else s.goto .bulk
  | .bulk =>
      if s.nrAllocated < nr then
        let got := o.bulk.take (s.request nr)
        (s.store got).goto (if got.length ≠ s.request nr then .single else .bulk)
      else s.goto .single
  | .single =>
      if s.nrAllocated < nr then
        if o.fatal then s.goto .check
        else match o.page with
          | none => s.goto .check
          | some p => s.put p
      else s.goto .check
  | .check =>
      if s.nrAllocated ≠ nr then { s with nrPages := cInt s.nrAllocated, pc := .freeing }
      else { s with nrPages := cInt s.nrAllocated, pc := .done none }
  | .freeing => if s.nrPages ≠ 0 then s.freeLast else s.release
  | .done _ => s

/-- The pages this step is given. -/
def granted : List Page :=
  match s.pc with
  | .high =>
      if 0 < s.largeOrder ∧ s.nrRemaining ≠ 0 then
        match o.block with
        | some p => List.range' p (2 ^ s.largeOrder)
        | none => []
      else []
  | .bulk => if s.nrAllocated < nr then o.bulk.take (s.request nr) else []
  | .single => if s.nrAllocated < nr ∧ ¬o.fatal then o.page.toList else []
  | _ => []

end Fill

/-- The state after `k` turns. -/
def fillRun (nr : Nat) (kvcalloc : Bool) (outcomes : Nat → Outcome) : Nat → Fill
  | 0 => .start kvcalloc nr
  | k + 1 => (fillRun nr kvcalloc outcomes k).step nr (outcomes k)

/-- `kvcalloc` refuses arrays of more than `INT_MAX` bytes. -/
def KvcallocLimit (nr : Nat) (kvcalloc : Bool) : Prop := kvcalloc = true → nr * 8 ≤ 2 ^ 31 - 1

/-- The page allocator hands out no page twice before it is given back. -/
def FreshPages (nr : Nat) (kvcalloc : Bool) (outcomes : Nat → Outcome) : Prop :=
  ∀ k, ((fillRun nr kvcalloc outcomes k).granted nr (outcomes k)).Nodup ∧
    ∀ p ∈ (fillRun nr kvcalloc outcomes k).granted nr (outcomes k),
      p ∉ (fillRun nr kvcalloc outcomes k).obtained

namespace Fill

variable {s : Fill} {nr : Nat} {o : Outcome}

/-! ## What one turn does -/

/-- The effects of a turn, with the tests that lead to them. -/
inductive Turn (nr : Nat) (o : Outcome) (s : Fill) : Fill → Prop
  | refused : s.pc = .high → 0 < s.largeOrder → o.block = none → Turn nr o s s.lower
  | block (p : Page) : s.pc = .high → 0 < s.largeOrder → s.nrRemaining ≠ 0 → o.block = some p →
      Turn nr o s ((s.store (List.range' p (2 ^ s.largeOrder))).recount nr)
  | highEnd : s.pc = .high → ¬(0 < s.largeOrder ∧ s.nrRemaining ≠ 0) → Turn nr o s (s.goto .bulk)
  | bulk (got : List Page) : s.pc = .bulk → s.nrAllocated < nr → o.bulk.take (s.request nr) = got →
      Turn nr o s ((s.store got).goto (if got.length ≠ s.request nr then .single else .bulk))
  | bulkEnd : s.pc = .bulk → ¬s.nrAllocated < nr → Turn nr o s (s.goto .single)
  | single (p : Page) : s.pc = .single → s.nrAllocated < nr → ¬o.fatal → o.page = some p →
      Turn nr o s (s.put p)
  | singleEnd : s.pc = .single → (s.nrAllocated < nr → o.fatal ∨ o.page = none) →
      Turn nr o s (s.goto .check)
  | short : s.pc = .check → s.nrAllocated ≠ nr →
      Turn nr o s { s with nrPages := cInt s.nrAllocated, pc := .freeing }
  | full : s.pc = .check → s.nrAllocated = nr →
      Turn nr o s { s with nrPages := cInt s.nrAllocated, pc := .done none }
  | free : s.pc = .freeing → s.nrPages ≠ 0 → Turn nr o s s.freeLast
  | release : s.pc = .freeing → s.nrPages = 0 → Turn nr o s s.release
  | stay (err : Option Errno) : s.pc = .done err → Turn nr o s s

theorem step_turn (s : Fill) (nr : Nat) (o : Outcome) : Turn nr o s (s.step nr o) := by
  unfold step
  cases hpc : s.pc with
  | high =>
      by_cases h : 0 < s.largeOrder ∧ s.nrRemaining ≠ 0
      · cases hb : o.block with
        | none => simpa [h] using Turn.refused hpc h.1 hb
        | some p => simpa [h] using Turn.block p hpc h.1 h.2 hb
      · simpa only [h, if_false] using Turn.highEnd hpc h
  | bulk =>
      by_cases h : s.nrAllocated < nr
      · simpa only [h, if_true] using Turn.bulk _ hpc h rfl
      · simpa only [h, if_false] using Turn.bulkEnd hpc h
  | single =>
      by_cases h : s.nrAllocated < nr
      · by_cases hf : o.fatal = true
        · simpa only [h, hf, if_true] using Turn.singleEnd hpc fun _ ↦ .inl hf
        · cases hp : o.page with
          | none => simpa [h, hf] using Turn.singleEnd hpc fun _ ↦ .inr hp
          | some p => simpa [h, hf] using Turn.single p hpc h hf hp
      · simpa only [h, if_false] using Turn.singleEnd hpc fun h' ↦ absurd h' h
  | check =>
      by_cases h : s.nrAllocated = nr
      · simpa [h] using Turn.full hpc h
      · simpa [h] using Turn.short hpc h
  | freeing =>
      by_cases h : s.nrPages = 0
      · simpa [h] using Turn.release hpc h
      · simpa [h] using Turn.free hpc h
  | done err => exact .stay err hpc

theorem store_eq (s : Fill) (ps : List Page) :
    s.store ps = { s with
      pages := (s.store ps).pages
      nrAllocated := s.nrAllocated + ps.length
      obtained := s.obtained ++ ps
      writes := (s.store ps).writes } := by
  induction ps generalizing s with
  | nil => simp [store]
  | cons p ps ih =>
      have h : s.store (p :: ps) = (s.put p).store ps := rfl
      rw [h, ih (s.put p)]
      simp [put, Nat.add_assoc, Nat.add_comm 1]

@[simp] theorem store_pc (ps : List Page) : (s.store ps).pc = s.pc := by rw [store_eq]
@[simp] theorem store_array (ps : List Page) : (s.store ps).array = s.array := by rw [store_eq]
@[simp] theorem store_freed (ps : List Page) : (s.store ps).freed = s.freed := by rw [store_eq]
@[simp] theorem store_nrAllocated (ps : List Page) :
    (s.store ps).nrAllocated = s.nrAllocated + ps.length := by rw [store_eq]
@[simp] theorem store_obtained (ps : List Page) :
    (s.store ps).obtained = s.obtained ++ ps := by rw [store_eq]
@[simp] theorem store_maxAttemptOrder (ps : List Page) :
    (s.store ps).maxAttemptOrder = s.maxAttemptOrder := by rw [store_eq]

/-! ## The slots hold what was obtained -/

/-- While pages are being stored: the filled slots are the first ones, one for each page. -/
structure Filled (nr : Nat) (s : Fill) : Prop where
  array : s.array = true
  length : s.obtained.length = s.nrAllocated
  le : s.nrAllocated ≤ nr
  pages : ∀ i, s.pages i = s.obtained[i]?
  freed : s.freed = []
  writes : ∀ w ∈ s.writes, w.1 < nr ∧ w.2 = none

theorem Filled.put (h : Filled nr s) (hlt : s.nrAllocated < nr) (p : Page) :
    Filled nr (s.put p) where
  array := h.array
  length := by simp [Fill.put, h.length]
  le := hlt
  pages i := by
    show Function.update s.pages s.nrAllocated (some p) i = (s.obtained ++ [p])[i]?
    rcases Nat.lt_trichotomy i s.nrAllocated with hi | rfl | hi
    · rw [Function.update_of_ne hi.ne, h.pages, List.getElem?_append_left (h.length ▸ hi)]
    · rw [Function.update_self, ← h.length, List.getElem?_concat_length]
    · rw [Function.update_of_ne hi.ne', h.pages, List.getElem?_eq_none (h.length ▸ hi.le),
        List.getElem?_eq_none]
      rw [List.length_append, h.length]
      exact hi
  freed := h.freed
  writes w hw := by
    rcases List.mem_append.mp hw with hw | hw
    · exact h.writes w hw
    · obtain rfl := List.mem_singleton.mp hw
      refine ⟨hlt, ?_⟩
      show s.pages s.nrAllocated = none
      rw [h.pages, List.getElem?_eq_none h.length.le]

theorem Filled.store (h : Filled nr s) {ps : List Page} (hle : s.nrAllocated + ps.length ≤ nr) :
    Filled nr (s.store ps) := by
  induction ps generalizing s with
  | nil => exact h
  | cons p ps ih =>
      rw [List.length_cons] at hle
      refine ih (h.put (by omega) p) ?_
      show s.nrAllocated + 1 + ps.length ≤ nr
      omega

/-- The fields `Filled` speaks about are the only ones it depends on. -/
theorem Filled.congr {t : Fill} (h : Filled nr s) (harray : t.array = s.array)
    (halloc : t.nrAllocated = s.nrAllocated) (hpages : t.pages = s.pages)
    (hobt : t.obtained = s.obtained) (hfreed : t.freed = s.freed) (hw : t.writes = s.writes) :
    Filled nr t where
  array := harray.trans h.array
  length := by rw [hobt, halloc, h.length]
  le := halloc ▸ h.le
  pages i := by rw [hpages, hobt, h.pages]
  freed := hfreed.trans h.freed
  writes := hw ▸ h.writes

/-- In the first loop: the next block fits into what is missing. -/
structure Fits (nr : Nat) (s : Fill) : Prop where
  remaining : s.nrRemaining = nr - s.nrAllocated
  order : s.largeOrder ≤ s.maxAttemptOrder
  maxOrder : s.maxAttemptOrder ≤ compatMaxOrder
  fits : s.nrRemaining ≠ 0 → 2 ^ s.largeOrder ≤ s.nrRemaining

theorem pow_nextOrder_le {r : Nat} (m : Nat) (hr : r ≠ 0) : 2 ^ nextOrder m r ≤ r := by
  have hlog : nextOrder m r ≤ Nat.log2 r := by
    rw [nextOrder, ilog2, if_neg hr]
    exact Nat.min_le_right _ _
  exact (Nat.pow_le_pow_right Nat.two_pos hlog).trans (Nat.log2_self_le hr)

theorem Fits.lower (h : Fits nr s) : Fits nr s.lower where
  remaining := h.remaining
  order := Nat.le_refl _
  maxOrder := (Nat.sub_le _ _).trans (h.order.trans h.maxOrder)
  fits hr := (Nat.pow_le_pow_right Nat.two_pos (Nat.sub_le _ _)).trans (h.fits hr)

/-- The order after a block is computed from the new count, also where that is zero. -/
theorem Fits.recount (hmax : s.maxAttemptOrder ≤ compatMaxOrder) (hle : s.nrAllocated ≤ nr)
    (hnr : nr < 2 ^ 64) : Fits nr (s.recount nr) := by
  have hsub : wrapSub nr s.nrAllocated = nr - s.nrAllocated := wrapSub_of_le hle hnr
  exact {
    remaining := hsub
    order := Nat.min_le_left _ _
    maxOrder := hmax
    fits hr := pow_nextOrder_le _ hr }

/-- While pages are being given back: those of the slots from `nr_pages` on have been. -/
structure Freeing (nr : Nat) (s : Fill) : Prop where
  array : s.array = true
  nonneg : 0 ≤ s.nrPages
  le : s.nrPages ≤ s.obtained.length
  pages : ∀ i, s.pages i = s.obtained[i]?
  freed : s.freed = (s.obtained.drop s.nrPages.toNat).reverse.map some
  short : s.obtained.length < nr
  writes : ∀ w ∈ s.writes, w.1 < nr ∧ w.2 = none

theorem Freeing.freeLast (h : Freeing nr s) (hnr : nr < 2 ^ 31) (hne : s.nrPages ≠ 0) :
    Freeing nr s.freeLast := by
  have hnonneg := h.nonneg
  have hle := h.le
  have hshort := h.short
  have hint : cInt (s.nrPages - 1) = s.nrPages - 1 := cInt_of_lt (by omega) (by omega)
  obtain ⟨n, hn⟩ : ∃ n : Nat, s.nrPages = n + 1 := ⟨(s.nrPages - 1).toNat, by omega⟩
  have hlt : n < s.obtained.length := by omega
  have hslot : s.slot n = some s.obtained[n] := by
    rw [slot, if_pos (Int.natCast_nonneg n), Int.toNat_natCast, h.pages, List.getElem?_eq_getElem hlt]
  rw [hn, Int.add_sub_cancel] at hint
  have hfreed := h.freed
  rw [hn, ← Nat.cast_succ, Int.toNat_natCast] at hfreed
  rw [Fill.freeLast, hn, Int.add_sub_cancel, hint]
  refine ⟨h.array, Int.natCast_nonneg n, by simpa using hlt.le, h.pages, ?_, h.short, h.writes⟩
  simp only [hslot, hfreed, Int.toNat_natCast]
  rw [List.drop_eq_getElem_cons hlt, List.reverse_cons, List.map_append]
  rfl

/-- What holds at each place of the function. -/
def Inv (nr : Nat) (s : Fill) : Prop :=
  match s.pc with
  | .high => Filled nr s ∧ Fits nr s
  | .bulk | .single | .check => Filled nr s
  | .freeing => Freeing nr s
  | .done none => Filled nr s ∧ s.nrAllocated = nr ∧ s.nrPages = nr
  | .done (some _) =>
      s.freed = s.obtained.reverse.map some ∧ s.array = false ∧
        (nr ≠ 0 → s.obtained.length ≠ nr) ∧ ∀ w ∈ s.writes, w.1 < nr ∧ w.2 = none

theorem inv_start (kvcalloc : Bool) (nr : Nat) : Inv nr (.start kvcalloc nr) := by
  cases kvcalloc with
  | false => exact ⟨rfl, rfl, fun hne ↦ hne.symm, fun w hw ↦ by cases hw⟩
  | true =>
      refine ⟨⟨rfl, rfl, Nat.zero_le _, fun _ ↦ rfl, rfl, fun w hw ↦ by cases hw⟩, ?_⟩
      exact ⟨rfl, Nat.min_le_left _ _, Nat.le_refl _, fun hr ↦ pow_nextOrder_le _ hr⟩

theorem request_le (s : Fill) (nr : Nat) : s.request nr ≤ nr - s.nrAllocated := Nat.min_le_right _ _

theorem Inv.step (h : Inv nr s) (hnr : nr < 2 ^ 31) (o : Outcome) : Inv nr (s.step nr o) := by
  generalize ht : s.step nr o = t
  have hturn : Turn nr o s t := ht ▸ step_turn s nr o
  cases hturn with
  | refused hpc ho hb =>
      simp only [Inv, hpc] at h
      have hF : Filled nr s.lower := h.1.congr rfl rfl rfl rfl rfl rfl
      simpa only [Inv, Fill.lower, hpc] using And.intro hF h.2.lower
  | block p hpc ho hr hb =>
      simp only [Inv, hpc] at h
      obtain ⟨hF, hfit⟩ := h
      have hle : s.nrAllocated + (List.range' p (2 ^ s.largeOrder)).length ≤ nr := by
        have := hfit.fits hr
        rw [hfit.remaining] at this
        rw [List.length_range']
        have := hF.le
        omega
      have hF' := hF.store hle
      have hrec : Fits nr ((s.store (List.range' p (2 ^ s.largeOrder))).recount nr) :=
        Fits.recount (by rw [store_maxAttemptOrder]; exact hfit.maxOrder) hF'.le (by omega)
      have hF'' : Filled nr ((s.store (List.range' p (2 ^ s.largeOrder))).recount nr) :=
        hF'.congr rfl rfl rfl rfl rfl rfl
      simpa only [Inv, Fill.recount, store_pc, hpc] using And.intro hF'' hrec
  | highEnd hpc hend =>
      simp only [Inv, hpc] at h
      exact h.1.congr rfl rfl rfl rfl rfl rfl
  | bulk got hpc hlt hgot =>
      simp only [Inv, hpc] at h
      have hle : s.nrAllocated + got.length ≤ nr := by
        have hreq := request_le s nr
        have hlen := List.length_take_le (s.request nr) o.bulk
        rw [hgot] at hlen
        omega
      have hF := (h.store hle)
      have hgoto : ∀ pc, Filled nr ((s.store got).goto pc) := fun pc ↦
        hF.congr rfl rfl rfl rfl rfl rfl
      split
      · exact hgoto _
      · exact hgoto _
  | bulkEnd hpc hend =>
      simp only [Inv, hpc] at h
      exact h.congr rfl rfl rfl rfl rfl rfl
  | single p hpc hlt hf hp =>
      simp only [Inv, hpc] at h
      simpa only [Inv, Fill.put, hpc] using h.put hlt p
  | singleEnd hpc hend =>
      simp only [Inv, hpc] at h
      exact h.congr rfl rfl rfl rfl rfl rfl
  | short hpc hne =>
      simp only [Inv, hpc] at h
      have hle := h.le
      have hlen := h.length
      have hint : cInt s.nrAllocated = s.nrAllocated := cInt_of_lt (by omega) (by omega)
      have hshort : s.obtained.length < nr := by omega
      have hfreed : s.freed = (s.obtained.drop (s.nrAllocated : Int).toNat).reverse.map some := by
        rw [Int.toNat_natCast, h.freed, List.drop_of_length_le hlen.le]
        rfl
      rw [hint]
      exact ⟨h.array, Int.natCast_nonneg _, Int.ofNat_le.mpr hlen.ge, h.pages, hfreed, hshort, h.writes⟩
  | full hpc heq =>
      simp only [Inv, hpc] at h
      have hint : cInt s.nrAllocated = s.nrAllocated := cInt_of_lt (by omega) (by omega)
      exact ⟨h.congr rfl rfl rfl rfl rfl rfl, heq, by rw [hint, heq]⟩
  | free hpc hne =>
      simp only [Inv, hpc] at h
      simpa only [Inv, Fill.freeLast, hpc] using h.freeLast hnr hne
  | release hpc hz =>
      simp only [Inv, hpc] at h
      refine ⟨?_, rfl, fun _ ↦ h.short.ne, h.writes⟩
      show s.freed = s.obtained.reverse.map some
      rw [h.freed, hz, Int.toNat_zero, List.drop_zero]
  | stay err hpc => exact h

/-! ## Termination -/

/-- The turns that are left, at most.  A block takes two pages off what is missing and may raise
the order again, to ten at most. -/
def rank (nr : Nat) (s : Fill) : Nat :=
  match s.pc with
  | .high => 14 * (nr - s.nrAllocated) + s.largeOrder + nr + 5
  | .bulk => 2 * (nr - s.nrAllocated) + nr + 4
  | .single => (nr - s.nrAllocated) + nr + 3
  | .check => nr + 2
  | .freeing => s.nrPages.toNat + 1
  | .done _ => 0

theorem rank_step (h : Inv nr s) (hnr : nr < 2 ^ 31) (o : Outcome) (hpc : ∀ err, s.pc ≠ .done err) :
    rank nr (s.step nr o) < rank nr s := by
  have h' := h.step hnr o
  generalize ht : s.step nr o = t at h' ⊢
  have hturn : Turn nr o s t := ht ▸ step_turn s nr o
  cases hturn with
  | refused hpc ho hb =>
      simp only [rank, Fill.lower, hpc]
      omega
  | block p hpc ho hr hb =>
      simp only [Inv, Fill.recount, store_pc, hpc] at h h'
      have hord := h'.2.order.trans h'.2.maxOrder
      have hle := h'.1.le
      have htwo : 2 ^ 1 ≤ 2 ^ s.largeOrder := Nat.pow_le_pow_right Nat.two_pos ho
      simp only [rank, Fill.recount, store_pc, hpc, store_nrAllocated, List.length_range',
        compatMaxOrder] at hord hle ⊢
      omega
  | highEnd hpc hend =>
      simp only [rank, Fill.goto, hpc]
      omega
  | bulk got hpc hlt hgot =>
      have hreq : 0 < s.request nr := by
        rw [request]
        omega
      split
      · simp only [rank, Fill.goto, hpc, store_nrAllocated]
        omega
      · next hfull =>
          simp only [rank, Fill.goto, hpc, store_nrAllocated]
          omega
  | bulkEnd hpc hend =>
      simp only [rank, Fill.goto, hpc]
      omega
  | single p hpc hlt hf hp =>
      simp only [rank, Fill.put, hpc]
      omega
  | singleEnd hpc hend =>
      simp only [rank, Fill.goto, hpc]
      omega
  | short hpc hne =>
      simp only [Inv, hpc] at h
      have hle := h.le
      have hint : cInt s.nrAllocated = s.nrAllocated := cInt_of_lt (by omega) (by omega)
      simp only [rank, hpc, hint, Int.toNat_natCast]
      omega
  | full hpc heq =>
      simp only [rank, hpc]
      omega
  | free hpc hne =>
      simp only [Inv, hpc] at h
      have hnonneg := h.nonneg
      have hle := h.le
      have hshort := h.short
      have hint : cInt (s.nrPages - 1) = s.nrPages - 1 := cInt_of_lt (by omega) (by omega)
      simp only [rank, Fill.freeLast, hpc, hint]
      omega
  | release hpc hz =>
      simp only [rank, Fill.release, hpc]
      omega
  | stay err hdone => exact absurd hdone (hpc err)

/-! ## Whole runs -/

theorem Inv.writes (h : Inv nr s) : ∀ w ∈ s.writes, w.1 < nr ∧ w.2 = none := by
  cases hpc : s.pc with
  | high =>
      simp only [Inv, hpc] at h
      exact h.1.writes
  | bulk | single | check =>
      simp only [Inv, hpc] at h
      exact h.writes
  | freeing =>
      simp only [Inv, hpc] at h
      exact h.writes
  | done err =>
      cases err with
      | none =>
          simp only [Inv, hpc] at h
          exact h.1.writes
      | some e =>
          simp only [Inv, hpc] at h
          exact h.2.2.2

/-- A turn obtains what it is given. -/
theorem step_obtained (s : Fill) (nr : Nat) (o : Outcome) :
    (s.step nr o).obtained = s.obtained ++ s.granted nr o := by
  generalize ht : s.step nr o = t
  have hturn : Turn nr o s t := ht ▸ step_turn s nr o
  cases hturn with
  | refused hpc ho hb => simp [granted, Fill.lower, hpc, hb]
  | block p hpc ho hr hb => simp [granted, Fill.recount, hpc, ho, hr, hb]
  | highEnd hpc hend => simp [granted, Fill.goto, hpc, hend]
  | bulk got hpc hlt hgot =>
      have hobt : ∀ pc, ((s.store got).goto pc).obtained = s.obtained ++ got := fun pc ↦
        store_obtained got
      split
      · rw [hobt, ← hgot]
        simp [granted, hpc, hlt]
      · rw [hobt, ← hgot]
        simp [granted, hpc, hlt]
  | bulkEnd hpc hend => simp [granted, Fill.goto, hpc, hend]
  | single p hpc hlt hf hp => simp [granted, Fill.put, hpc, hlt, hf, hp]
  | singleEnd hpc hend =>
      by_cases hlt : s.nrAllocated < nr
      · rcases hend hlt with hf | hp
        · simp [granted, Fill.goto, hpc, hf]
        · simp [granted, Fill.goto, hpc, hp]
      · simp [granted, Fill.goto, hpc, hlt]
  | short hpc hne => simp [granted, hpc]
  | full hpc heq => simp [granted, hpc]
  | free hpc hne => simp [granted, Fill.freeLast, hpc]
  | release hpc hz => simp [granted, Fill.release, hpc]
  | stay err hpc => simp [granted, hpc]

end Fill

section Runs

variable {nr : Nat} {kvcalloc : Bool} {outcomes : Nat → Outcome}

/-- Without an array nothing happens. -/
theorem fillRun_refused (k : Nat) : fillRun nr false outcomes k = .start false nr := by
  induction k with
  | zero => rfl
  | succ k ih =>
      rw [fillRun, ih]
      rfl

theorem KvcallocLimit.lt (h : KvcallocLimit nr true) : nr < 2 ^ 31 := by
  have := h rfl
  omega

theorem fillRun_inv (hlimit : KvcallocLimit nr kvcalloc) (k : Nat) :
    Fill.Inv nr (fillRun nr kvcalloc outcomes k) := by
  cases kvcalloc with
  | false =>
      rw [fillRun_refused]
      exact Fill.inv_start false nr
  | true =>
      induction k with
      | zero => exact Fill.inv_start true nr
      | succ k ih => exact ih.step hlimit.lt (outcomes k)

theorem fillRun_done (hlimit : KvcallocLimit nr kvcalloc) :
    ∃ k err, (fillRun nr kvcalloc outcomes k).pc = .done err := by
  cases kvcalloc with
  | false => exact ⟨0, _, rfl⟩
  | true =>
      have hdec : ∀ k, ¬(∃ err, (fillRun nr true outcomes k).pc = .done err) →
          (fillRun nr true outcomes (k + 1)).rank nr < (fillRun nr true outcomes k).rank nr := fun k hk ↦
        Fill.rank_step (fillRun_inv hlimit k) hlimit.lt (outcomes k) fun err h ↦ hk ⟨err, h⟩
      exact exists_of_rank (D := fun s : Fill ↦ ∃ err, s.pc = .done err)
        (fillRun nr true outcomes) (Fill.rank nr) hdec

theorem fillRun_nodup (hfresh : FreshPages nr kvcalloc outcomes) (k : Nat) :
    (fillRun nr kvcalloc outcomes k).obtained.Nodup := by
  induction k with
  | zero => exact List.nodup_nil
  | succ k ih =>
      obtain ⟨hnodup, hnew⟩ := hfresh k
      show ((fillRun nr kvcalloc outcomes k).step nr (outcomes k)).obtained.Nodup
      rw [Fill.step_obtained]
      exact ih.append hnodup fun p hp hp' ↦ hnew p hp' hp

/-- Back with `0`: distinct pages in the slots below `nr_pages`, and the count recorded. -/
structure AllObtained (nr : Nat) (s : Fill) : Prop where
  array : s.array = true
  nrPages : s.nrPages = nr
  slots : ∀ i < nr, ∃ p, s.pages i = some p
  distinct : ∀ i < nr, ∀ j < nr, s.pages i = s.pages j → i = j

/-- Back with an error: each page obtained was freed once and nothing else, and the array is
gone. -/
structure NoneKept (s : Fill) : Prop where
  freed : s.freed.Perm (s.obtained.map some)
  once : s.freed.Nodup
  array : s.array = false

theorem Fill.Inv.allObtained {s : Fill} (h : Fill.Inv nr s) (hpc : s.pc = .done none)
    (hnodup : s.obtained.Nodup) : AllObtained nr s := by
  simp only [Fill.Inv, hpc] at h
  obtain ⟨hF, halloc, hrec⟩ := h
  have hlen : s.obtained.length = nr := hF.length.trans halloc
  refine ⟨hF.array, hrec, fun i hi ↦ ?_, fun i hi j hj heq ↦ ?_⟩
  · exact ⟨_, (hF.pages i).trans (List.getElem?_eq_getElem (hlen ▸ hi))⟩
  · rw [hF.pages, hF.pages] at heq
    exact (List.getElem?_inj (hlen ▸ hi) hnodup).mp heq

theorem Fill.Inv.noneKept {s : Fill} {e : Errno} (h : Fill.Inv nr s) (hpc : s.pc = .done (some e))
    (hnodup : s.obtained.Nodup) : NoneKept s := by
  simp only [Fill.Inv, hpc] at h
  obtain ⟨hfreed, harray, -⟩ := h
  have hperm : s.freed.Perm (s.obtained.map some) := by
    rw [hfreed]
    exact (List.reverse_perm _).map some
  exact ⟨hperm, hperm.nodup_iff.mpr (hnodup.map (Option.some_injective Page)), harray⟩

/-- **All or nothing.**  Whatever the allocation primitives answer, the function returns, it only
ever stores to empty slots below `nr_pages`, and it keeps all of the pages or none. -/
theorem fillRun_allOrNothing (nr : Nat) (kvcalloc : Bool) (outcomes : Nat → Outcome)
    (hlimit : KvcallocLimit nr kvcalloc) (hfresh : FreshPages nr kvcalloc outcomes) :
    (∀ k, ∀ w ∈ (fillRun nr kvcalloc outcomes k).writes, w.1 < nr ∧ w.2 = none) ∧
    ∃ k err, (fillRun nr kvcalloc outcomes k).pc = .done err ∧
      (err = none → AllObtained nr (fillRun nr kvcalloc outcomes k)) ∧
      (err ≠ none → NoneKept (fillRun nr kvcalloc outcomes k)) := by
  refine ⟨fun k ↦ (fillRun_inv hlimit k).writes, ?_⟩
  obtain ⟨k, err, hpc⟩ : ∃ k err, (fillRun nr kvcalloc outcomes k).pc = .done err :=
    fillRun_done hlimit
  have hinv : Fill.Inv nr (fillRun nr kvcalloc outcomes k) := fillRun_inv hlimit k
  have hnodup := fillRun_nodup hfresh k
  refine ⟨k, err, hpc, ?_, ?_⟩
  · rintro rfl
    exact hinv.allObtained hpc hnodup
  · intro hne
    obtain ⟨e, rfl⟩ := Option.ne_none_iff_exists'.mp hne
    exact hinv.noneKept hpc hnodup

end Runs

/-- A page allocator that always has room above all it handed out before. -/
def bumpPages (k : Nat) : Outcome where
  block := some (2048 * k)
  bulk := List.range' (2048 * k) 100
  fatal := false
  page := some (2048 * k)

/-- Distinct pages, all of those `bumpPages` has for turn `k`. -/
def OfTurn (k : Nat) (ps : List Page) : Prop :=
  ps.Nodup ∧ ∀ p : Nat, p ∈ ps → 2048 * k ≤ p ∧ p < 2048 * (k + 1)

theorem ofTurn_range {n : Nat} (k : Nat) (hn : n ≤ 1024) : OfTurn k (List.range' (2048 * k) n) := by
  refine ⟨List.nodup_range', fun p hp ↦ ?_⟩
  rw [List.mem_range'_1] at hp
  omega

theorem OfTurn.ite {c : Prop} [Decidable c] {k : Nat} {ps : List Page} (h : c → OfTurn k ps) :
    OfTurn k (if c then ps else []) := by
  by_cases hc : c
  · rw [if_pos hc]
    exact h hc
  · rw [if_neg hc]
    exact ⟨List.nodup_nil, fun p hp ↦ nomatch hp⟩

theorem Fill.Inv.granted_bump {nr : Nat} {s : Fill} (h : Fill.Inv nr s) (k : Nat) :
    OfTurn k (s.granted nr (bumpPages k)) := by
  unfold Fill.granted
  cases hpc : s.pc with
  | high =>
      simp only [Fill.Inv, hpc] at h
      exact .ite fun _ ↦ ofTurn_range k
        (Nat.pow_le_pow_right Nat.two_pos (h.2.order.trans h.2.maxOrder))
  | bulk =>
      refine .ite fun _ ↦ ?_
      obtain ⟨hnodup, hmem⟩ := ofTurn_range k (by decide : 100 ≤ 1024)
      exact ⟨hnodup.sublist (List.take_sublist _ _), fun p hp ↦ hmem p (List.mem_of_mem_take hp)⟩
  | single => exact .ite fun _ ↦ ofTurn_range k (by decide : 1 ≤ 1024)
  | check | freeing | done err => exact ⟨List.nodup_nil, fun p hp ↦ nomatch hp⟩

theorem freshPages_bump {nr : Nat} {kvcalloc : Bool} (hlimit : KvcallocLimit nr kvcalloc) :
    FreshPages nr kvcalloc bumpPages := by
  have hinv : ∀ k, Fill.Inv nr (fillRun nr kvcalloc bumpPages k) := fillRun_inv hlimit
  have hlt : ∀ k, ∀ p : Nat, p ∈ (fillRun nr kvcalloc bumpPages k).obtained → p < 2048 * k := by
    intro k
    induction k with
    | zero => exact fun p hp ↦ nomatch hp
    | succ k ih =>
        intro p hp
        change p ∈ ((fillRun nr kvcalloc bumpPages k).step nr (bumpPages k)).obtained at hp
        rw [Fill.step_obtained] at hp
        rcases List.mem_append.mp hp with hp | hp
        · exact (ih p hp).trans (Nat.mul_lt_mul_of_pos_left (Nat.lt_succ_self k) (by decide))
        · exact (((hinv k).granted_bump k).2 p hp).2
  intro k
  obtain ⟨hnodup, hmem⟩ := (hinv k).granted_bump k
  exact ⟨hnodup, fun p hp hp' ↦ Nat.lt_irrefl _ ((hlt k p hp').trans_le (hmem p hp).1)⟩

/-- Three pages: a block of two, and the last one from a bulk request. -/
theorem fillRun_allOrNothing_bump :
    (∀ k, ∀ w ∈ (fillRun 3 true bumpPages k).writes, w.1 < 3 ∧ w.2 = none) ∧
    ∃ k err, (fillRun 3 true bumpPages k).pc = .done err ∧
      (err = none → AllObtained 3 (fillRun 3 true bumpPages k)) ∧
      (err ≠ none → NoneKept (fillRun 3 true bumpPages k)) :=
  fillRun_allOrNothing 3 true bumpPages (fun _ ↦ by decide) (freshPages_bump fun _ ↦ by decide)

/-! ## The sequential model -/

namespace Fill

variable {s : Fill} {nr : Nat}

/-- The loops of the sequential model, given lists of answers from here on, end with `ps`. -/
def LeadsTo (nr : Nat) (s : Fill) (ps : List Page) : Prop :=
  match s.pc with
  | .high => ∃ high bulk single, allocSingle nr single (allocBulk nr bulk
      (allocHigh nr high s.obtained s.largeOrder s.maxAttemptOrder)) = ps
  | .bulk => ∃ bulk single, allocSingle nr single (allocBulk nr bulk s.obtained) = ps
  | .single => ∃ single, allocSingle nr single s.obtained = ps
  | _ => s.obtained = ps

/-- The answer of a turn goes to the front of the list of its loop. -/
theorem LeadsTo.of_step {o : Outcome} {ps : List Page} (hinv : Inv nr s) (hnr : nr < 2 ^ 31)
    (h : LeadsTo nr (s.step nr o) ps) : LeadsTo nr s ps := by
  have hinv' := hinv.step hnr o
  generalize ht : s.step nr o = t at h hinv'
  have hturn : Turn nr o s t := ht ▸ step_turn s nr o
  cases hturn with
  | refused hpc ho hb =>
      simp only [LeadsTo, Fill.lower, hpc] at h ⊢
      simp only [Inv, hpc] at hinv
      obtain ⟨high, bulk, single, hps⟩ := h
      by_cases hlt : s.obtained.length < nr
      · refine ⟨none :: high, bulk, single, ?_⟩
        simpa only [allocHigh, ho, hlt, and_self, if_true] using hps
      · refine ⟨[], bulk, single, ?_⟩
        have hstop : allocHigh nr high s.obtained (s.largeOrder - 1) (s.largeOrder - 1) =
            s.obtained := by
          cases high with
          | nil => rfl
          | cons a high =>
              unfold allocHigh
              exact if_neg fun hc ↦ hlt hc.2
        rwa [hstop] at hps
  | block p hpc ho hr hb =>
      simp only [LeadsTo, Fill.recount, store_pc, hpc, store_obtained, store_maxAttemptOrder,
        store_nrAllocated] at h ⊢
      simp only [Inv, Fill.recount, store_pc, hpc] at hinv hinv'
      obtain ⟨high, bulk, single, hps⟩ := h
      refine ⟨some p :: high, bulk, single, ?_⟩
      have hlt : s.obtained.length < nr := by
        have := hinv.2.remaining
        have := hinv.1.length
        omega
      have hlen : (s.obtained ++ List.range' p (2 ^ s.largeOrder)).length =
          s.nrAllocated + (List.range' p (2 ^ s.largeOrder)).length := by
        rw [List.length_append, hinv.1.length]
      have hle := hinv'.1.le
      rw [store_nrAllocated] at hle
      rw [wrapSub_of_le hle (by omega)] at hps
      rw [allocHigh, if_pos ⟨ho, hlt⟩]
      dsimp only
      rw [hlen]
      exact hps
  | highEnd hpc hend =>
      simp only [LeadsTo, Fill.goto, hpc] at h ⊢
      obtain ⟨bulk, single, hps⟩ := h
      exact ⟨[], bulk, single, hps⟩
  | bulk got hpc hlt hgot =>
      simp only [Inv, hpc] at hinv
      have hreq : min 100 (nr - s.obtained.length) = s.request nr := by rw [request, hinv.length]
      have hlt' : s.obtained.length < nr := hinv.length ▸ hlt
      by_cases hfull : got.length = s.request nr
      · simp only [LeadsTo, Fill.goto, hpc, hfull, ne_eq, not_true_eq_false, if_false] at h ⊢
        obtain ⟨bulk, single, hps⟩ := h
        refine ⟨o.bulk :: bulk, single, ?_⟩
        rw [store_obtained] at hps
        rw [allocBulk, if_pos hlt', hreq]
        dsimp only
        rwa [hgot, if_neg (not_not.mpr hfull)]
      · simp only [LeadsTo, Fill.goto, hpc, ne_eq, hfull, not_false_eq_true, if_true] at h ⊢
        obtain ⟨single, hps⟩ := h
        refine ⟨[o.bulk], single, ?_⟩
        rw [store_obtained] at hps
        rw [allocBulk, if_pos hlt', hreq]
        dsimp only
        rwa [hgot, if_pos hfull]
  | bulkEnd hpc hend =>
      simp only [LeadsTo, Fill.goto, hpc] at h ⊢
      obtain ⟨single, hps⟩ := h
      exact ⟨[], single, hps⟩
  | single p hpc hlt hf hp =>
      simp only [Inv, hpc] at hinv
      simp only [LeadsTo, Fill.put, hpc] at h ⊢
      obtain ⟨single, hps⟩ := h
      refine ⟨some p :: single, ?_⟩
      rwa [allocSingle, if_pos (hinv.length ▸ hlt)]
  | singleEnd hpc hend =>
      simp only [LeadsTo, Fill.goto, hpc] at h ⊢
      exact ⟨[], by rw [allocSingle]; exacts [h, fun _ _ hnil ↦ nomatch hnil]⟩
  | short hpc hne | full hpc heq | free hpc hne | release hpc hz =>
      simp only [LeadsTo, hpc] at h ⊢
      simpa only [Fill.freeLast, Fill.release, hpc] using h
  | stay err hpc => exact h

end Fill

/-- **The sequential model covers every run.**  What the function returns is what
`saPagelistAllocPages` returns for some lists of answers. -/
theorem fillRun_saPagelistAllocPages {nr k : Nat} {kvcalloc : Bool} {outcomes : Nat → Outcome}
    {err : Option Errno} (hlimit : KvcallocLimit nr kvcalloc) (hpos : nr ≠ 0)
    (hdone : (fillRun nr kvcalloc outcomes k).pc = .done err) (ans : Answers) :
    ∃ high bulk single,
      saPagelistAllocPages { ans with kvcalloc, high, bulk, single } nr =
        if err = none then some (fillRun nr kvcalloc outcomes k).obtained else none := by
  have hinv : Fill.Inv nr (fillRun nr kvcalloc outcomes k) := fillRun_inv hlimit k
  cases kvcalloc with
  | false =>
      rw [fillRun_refused] at hdone
      obtain rfl : some .ENOMEM = err := Fill.Pc.done.inj hdone
      exact ⟨[], [], [], rfl⟩
  | true =>
      have hback : ∀ j ≤ k, Fill.LeadsTo nr (fillRun nr true outcomes (k - j))
          (fillRun nr true outcomes k).obtained := by
        intro j hj
        induction j with
        | zero => simp only [Nat.sub_zero, Fill.LeadsTo, hdone]
        | succ j ih =>
            have hsucc : k - j = k - (j + 1) + 1 := by omega
            have hnext := ih (by omega)
            rw [hsucc] at hnext
            exact Fill.LeadsTo.of_step (fillRun_inv hlimit _) hlimit.lt hnext
      have hstart := hback k (Nat.le_refl k)
      rw [Nat.sub_self] at hstart
      obtain ⟨high, bulk, single, hps⟩ := hstart
      refine ⟨high, bulk, single, ?_⟩
      have hobt : obtained { ans with kvcalloc := true, high, bulk, single } nr =
          (fillRun nr true outcomes k).obtained := hps
      simp only [saPagelistAllocPages, hobt, if_true]
      simp only [Fill.Inv, hdone] at hinv
      cases err with
      | none => rw [if_pos (hinv.1.length.trans hinv.2.1), if_pos rfl]
      | some e => rw [if_neg (hinv.2.2.1 hpos), if_neg (Option.some_ne_none e)]

end ShadowStack.Lkm
