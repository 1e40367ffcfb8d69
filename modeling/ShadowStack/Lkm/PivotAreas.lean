import Mathlib.Data.List.Pairwise
import ShadowStack.Lkm.Pivot

/-!
# What a pivot leaves behind

`sa_pivot` unmaps the area it found for the old stack pointer on every way out.  It is meant to fail
without effects and to keep the new stack when it succeeds.
-/

namespace ShadowStack.Lkm

open Lib

/-- The areas are not empty and follow each other without overlaps. -/
structure AreasOk (vmas : List Vma) : Prop where
  lt : ∀ v ∈ vmas, v.start < v.end_
  sorted : vmas.Pairwise fun u v ↦ u.end_ ≤ v.start

/-- The area contains the address. -/
def Vma.Contains (v : Vma) (addr : Nat) : Prop := v.start ≤ addr ∧ addr < v.end_

instance (v : Vma) (addr : Nat) : Decidable (v.Contains addr) := by unfold Vma.Contains; infer_instance

section Areas

variable {vmas : List Vma} {u v : Vma} {addr : Nat}

theorem AreasOk.tail (h : AreasOk (v :: vmas)) : AreasOk vmas :=
  ⟨fun u hu ↦ h.lt u (List.mem_cons_of_mem _ hu), h.sorted.of_cons⟩

/-- `find_vma` finds the area of an address that is in one. -/
theorem AreasOk.findVma_of_contains (h : AreasOk vmas) (hv : v ∈ vmas) (hc : v.Contains addr) :
    findVma vmas addr = some v := by
  induction vmas with
  | nil => cases hv
  | cons u vmas ih =>
      rw [findVma, List.find?_cons]
      rcases List.mem_cons.mp hv with rfl | hv'
      · rw [decide_eq_true hc.2]
      · -- an area before it ends before it starts
        have hle : u.end_ ≤ v.start := List.rel_of_pairwise_cons h.sorted hv'
        rw [decide_eq_false (by exact Nat.not_lt.mpr (hle.trans hc.1))]
        exact ih h.tail hv'

/-- Two areas that share an address are the same, -/
theorem AreasOk.eq_of_contains (h : AreasOk vmas) (hu : u ∈ vmas) (hv : v ∈ vmas) (hcu : u.Contains addr)
    (hcv : v.Contains addr) : u = v :=
  Option.some.inj ((h.findVma_of_contains hu hcu).symm.trans (h.findVma_of_contains hv hcv))

/-- and so are two that start at the same address. -/
theorem AreasOk.eq_of_start (h : AreasOk vmas) (hu : u ∈ vmas) (hv : v ∈ vmas) (hs : u.start = v.start) :
    u = v :=
  h.eq_of_contains hu hv ⟨le_rfl, h.lt u hu⟩ ⟨hs.ge, hs ▸ h.lt v hv⟩

end Areas

/-! ## Failing without effects -/

/-- The call returns 0 exactly if both addresses are in areas, and has no effect if it returns anything
else. -/
def PivotAtomic (mm : MmFields) (rsp newStackAddress : Nat) : Prop :=
  ∃ err mm', saPivot (some mm) rsp newStackAddress = some (err, some mm') ∧
    (err = 0 ↔ (∃ v ∈ mm.vmas, v.Contains rsp) ∧ ∃ v ∈ mm.vmas, v.Contains newStackAddress) ∧
    (err ≠ 0 → mm' = mm)

/-- An area that was unmapped is missing. -/
theorem MmFields.notMem_munmap (mm : MmFields) (area : Vma) : area ∉ (mm.munmap area).vmas := by
  intro h
  exact of_decide_eq_true (List.mem_filter.mp h).2 rfl

theorem MmFields.munmap_ne {mm : MmFields} {area : Vma} (h : area ∈ mm.vmas) : mm.munmap area ≠ mm := by
  intro hc
  exact mm.notMem_munmap area (hc.symm ▸ h)

/-- The area found for the old stack pointer is mapped before and not after. -/
theorem saPivot_unmaps {mm mm' : MmFields} {rsp newStackAddress : Nat} {err : Int}
    (h : saPivot (some mm) rsp newStackAddress = some (err, some mm')) : err ≠ 0 ∧ mm' ≠ mm := by
  simp only [saPivot] at h
  cases hold : findVma mm.vmas rsp with
  | none => simp [hold] at h
  | some old =>
      have hmem : old ∈ mm.vmas := List.mem_of_find?_eq_some hold
      have hne := MmFields.munmap_ne hmem
      simp only [hold] at h
      by_cases hrsp : rsp < old.start
      · rw [if_pos hrsp, Option.some.injEq, Prod.mk.injEq, Option.some.injEq] at h
        exact ⟨by rw [← h.1]; decide, h.2 ▸ hne⟩
      rw [if_neg hrsp] at h
      cases hnew : findVma mm.vmas newStackAddress with
      | none =>
          simp only [hnew, Option.some.injEq, Prod.mk.injEq] at h
          exact ⟨by rw [← h.1]; decide, h.2 ▸ hne⟩
      | some new =>
          simp only [hnew] at h
          by_cases haddr : newStackAddress < new.start
          · rw [if_pos haddr, Option.some.injEq, Prod.mk.injEq, Option.some.injEq] at h
            exact ⟨by rw [← h.1]; decide, h.2 ▸ hne⟩
          · rw [if_neg haddr, Option.some.injEq, Prod.mk.injEq, Option.some.injEq] at h
            obtain ⟨rfl, rfl⟩ := h
            refine ⟨by decide, fun hc ↦ ?_⟩
            -- areas are unmapped by their start, which the change of flags keeps
            have hmem' : old ∈ ((mm.pivot old new (wrapSub newStackAddress rsp)).munmap old).vmas :=
              hc.symm ▸ hmem
            exact MmFields.notMem_munmap _ old hmem'

/-- A stack at `0x7000` and a new one at `0x2000`. -/
def twoStacks : MmFields where
  vmas := [⟨0x2000, 0x4000, false⟩, ⟨0x7000, 0x8000, true⟩]
  startStack := 0x7f00
  argStart := 0x7f10
  argEnd := 0x7f20
  envStart := 0x7f20
  envEnd := 0x7f80
  savedAuxv := [atRandom, 0x7f80, 6, 4096, atNull, 0]

theorem twoStacks_areasOk : AreasOk twoStacks.vmas := by
  constructor
  · decide
  · simp [twoStacks]

/-- The word at `i` is the value of one of the entries in question, before the first `AT_NULL` key. -/
def AuxvValue (auxv : List Nat) (i : Nat) : Prop :=
  ∃ k key, i = 2 * k + 1 ∧ auxv[2 * k]? = some key ∧ IsStackKey key ∧ ∀ j ≤ k, auxv[2 * j]? ≠ some atNull

/-- Exactly these values were shifted. -/
structure AuxvShifted (delta : Nat) (auxv auxv' : List Nat) : Prop where
  length : auxv'.length = auxv.length
  shifted : ∀ i v, auxv[i]? = some v → AuxvValue auxv i → auxv'[i]? = some (wrapAdd v delta)
  same : ∀ i, ¬ AuxvValue auxv i → auxv'[i]? = auxv[i]?

/-- The first two words of a vector do not hold a shifted value if the key is another one. -/
theorem auxvValue_zero (auxv : List Nat) : ¬ AuxvValue auxv 0 := by
  rintro ⟨k, key, hk, -⟩
  omega

theorem auxvValue_one {key value : Nat} {rest : List Nat} (hkey : key ≠ atNull) :
    AuxvValue (key :: value :: rest) 1 ↔ IsStackKey key := by
  constructor
  · rintro ⟨k, key', hk, hget, hstack, -⟩
    obtain rfl : k = 0 := by omega
    obtain rfl := Option.some.inj hget
    exact hstack
  · intro hstack
    refine ⟨0, key, rfl, rfl, hstack, fun j hj hc ↦ ?_⟩
    obtain rfl := Nat.le_zero.mp hj
    exact hkey (Option.some.inj hc)

/-- After the first entry come those of the rest. -/
theorem auxvValue_add_two {key value i : Nat} {rest : List Nat} (hkey : key ≠ atNull) :
    AuxvValue (key :: value :: rest) (i + 2) ↔ AuxvValue rest i := by
  constructor
  · rintro ⟨k, key', hk, hget, hstack, hnull⟩
    obtain ⟨k, rfl⟩ := Nat.exists_eq_succ_of_ne_zero (show k ≠ 0 by omega)
    exact ⟨k, key', by omega, hget, hstack, fun j hj ↦ hnull (j + 1) (Nat.succ_le_succ hj)⟩
  · rintro ⟨k, key', hk, hget, hstack, hnull⟩
    refine ⟨k + 1, key', by omega, hget, hstack, fun j hj hc ↦ ?_⟩
    cases j with
    | zero => exact hkey (Option.some.inj hc)
    | succ j => exact hnull j (Nat.le_of_succ_le_succ hj) hc

/-- Nothing is shifted behind an `AT_NULL` key. -/
theorem not_auxvValue_atNull {i : Nat} {rest : List Nat} : ¬ AuxvValue (atNull :: rest) i := by
  rintro ⟨k, key, -, -, -, hnull⟩
  exact hnull 0 (Nat.zero_le k) rfl

/-- **The loop over `saved_auxv`**, for any words. -/
theorem auxvShifted_pivotAuxv (delta : Nat) (auxv : List Nat) :
    AuxvShifted delta auxv (pivotAuxv delta auxv) := by
  have hshort : ∀ l : List Nat, pivotAuxv delta l = l → (∀ i v, l[i]? = some v → ¬ AuxvValue l i) →
      AuxvShifted delta l (pivotAuxv delta l) :=
    fun l hl hnot ↦ ⟨by rw [hl], fun i v hv hc ↦ absurd hc (hnot i v hv), fun i _ ↦ by rw [hl]⟩
  induction auxv using pivotAuxv.induct with
  | case1 value rest =>
      exact hshort _ (by rw [pivotAuxv, if_pos rfl]) fun i v _ ↦ not_auxvValue_atNull
  | case2 key value rest hkey ih =>
      have heq : pivotAuxv delta (key :: value :: rest) =
          key :: (if IsStackKey key then wrapAdd value delta else value) :: pivotAuxv delta rest := by
        rw [pivotAuxv, if_neg hkey]
      rw [heq]
      refine ⟨?_, fun i v hv hval ↦ ?_, fun i hval ↦ ?_⟩
      · rw [List.length_cons, List.length_cons, ih.length, List.length_cons, List.length_cons]
      · rcases i with _ | _ | i
        · exact absurd hval (auxvValue_zero _)
        · obtain rfl := Option.some.inj hv
          show some (if IsStackKey key then _ else _) = _
          rw [if_pos ((auxvValue_one hkey).mp hval)]
        · exact ih.shifted i v hv ((auxvValue_add_two hkey).mp hval)
      · rcases i with _ | _ | i
        · rfl
        · show some (if IsStackKey key then _ else _) = some value
          rw [if_neg fun hc ↦ hval ((auxvValue_one hkey).mpr hc)]
        · exact ih.same i fun hc ↦ hval ((auxvValue_add_two hkey).mpr hc)
  | case3 l hl =>
      have hlen : l.length < 2 := by
        rcases l with _ | ⟨key, _ | ⟨value, rest⟩⟩
        · exact Nat.zero_lt_two
        · exact Nat.one_lt_two
        · exact absurd rfl (hl key value rest)
      refine hshort l (pivotAuxv.eq_2 delta l hl) ?_
      rintro i v hv ⟨k, key, rfl, -⟩
      have hi := (List.getElem?_eq_some_iff.mp hv).1
      omega

/-- What is to hold after a pivot from the area `old` to the area `new`: the new stack is mapped and grows
down, exactly the old one is gone, and the records of the process have followed. -/
structure PivotKeeps (mm mm' : MmFields) (old new : Vma) (rsp newStackAddress : Nat) : Prop where
  kept : { new with growsDown := true } ∈ mm'.vmas
  vmas : mm'.vmas = (mm.vmas.filter (· ≠ old)).map fun v ↦ if v = new then { v with growsDown := true } else v
  argStart : mm'.argStart = wrapAdd mm.argStart (wrapSub newStackAddress rsp)
  argEnd : mm'.argEnd = wrapAdd mm.argEnd (wrapSub newStackAddress rsp)
  envStart : mm'.envStart = wrapAdd mm.envStart (wrapSub newStackAddress rsp)
  envEnd : mm'.envEnd = wrapAdd mm.envEnd (wrapSub newStackAddress rsp)
  auxv : AuxvShifted (wrapSub newStackAddress rsp) mm.savedAuxv mm'.savedAuxv

/-- The areas after a pivot between two different areas. -/
theorem pivot_vmas {mm : MmFields} (h : AreasOk mm.vmas) {old new : Vma} (hold : old ∈ mm.vmas) (delta : Nat) :
    ((mm.pivot old new delta).munmap old).vmas =
      (mm.vmas.filter (· ≠ old)).map fun v ↦ if v = new then { v with growsDown := true } else v := by
  show (mm.vmas.map _).filter _ = _
  rw [List.filter_map]
  have hsame : ∀ v ∈ mm.vmas, (v.start ≠ old.start) = (v ≠ old) := fun v hv ↦
    propext ⟨fun hne hc ↦ hne (congrArg Vma.start hc), fun hne hc ↦ hne (h.eq_of_start hv hold hc)⟩
  have hfilter : mm.vmas.filter ((fun v : Vma ↦ decide (v.start ≠ old.start)) ∘ fun v ↦
      { v with growsDown := if v = new then true else if v = old then false else v.growsDown }) =
      mm.vmas.filter (· ≠ old) :=
    List.filter_congr fun v hv ↦ decide_eq_decide.mpr (hsame v hv).to_iff
  rw [hfilter]
  refine List.map_congr_left fun v hv ↦ ?_
  have hne : v ≠ old := of_decide_eq_true (List.mem_filter.mp hv).2
  by_cases hnew : v = new
  · rw [if_pos hnew, if_pos hnew]
  · rw [if_neg hnew, if_neg hnew, if_neg hne]

end ShadowStack.Lkm
