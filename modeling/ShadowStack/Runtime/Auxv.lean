import ShadowStack.Lkm.Pivot
import ShadowStack.Runtime.Relocate

/-!
# Two views of the auxiliary vector

After a pivot the auxiliary vector exists twice: on the new stack, where `_patch_auxv` has shifted its
pointers, and in `mm->saved_auxv`, where `sa_pivot` has.  Each has its own list of keys to shift.
-/

namespace ShadowStack.Runtime

open Lib Lkm

/-- The vector at `a` and the saved one are the same again, with the keys of `auxv`, and the values
that are not addresses of the old stack are those of `auxv`. -/
def ViewsAgree (old : Vma) (auxv : List (Nat × Nat)) (last : Nat) (rest : List Nat) (m : Memory)
    (a : Nat) (saved : List Nat) : Prop :=
  ∃ auxv', WordsAt m a (auxvWords auxv' last) ∧ saved = auxvWords auxv' last ++ rest ∧
    List.Forall₂ (fun e e' ↦ e'.1 = e.1 ∧ (¬ (old.start ≤ e.2 ∧ e.2 < old.end_) → e'.2 = e.2))
      auxv auxv'

/-- Shifting by a distance other than zero changes a value. -/
theorem wrapAdd_eq_self {v delta : Nat} (hv : v < 2 ^ 64) (hd : delta < 2 ^ 64) :
    wrapAdd v delta = v ↔ delta = 0 := by
  unfold wrapAdd
  omega

theorem wrapSub_eq_zero {a b : Nat} (ha : a < 2 ^ 64) (hb : b < 2 ^ 64) :
    wrapSub a b = 0 ↔ a = b := by
  unfold wrapSub
  omega

section Views

variable {auxv : List (Nat × Nat)} {last : Nat} {rest : List Nat} {m : Memory} {a delta : Nat}
  {old : Vma}

/-- The two lists of keys agree on a vector, and shift stack addresses only, exactly if the distance
is zero or the vector has no `AT_BASE` and only stack addresses under the other keys. -/
theorem viewsAgree_iff (hvals : ∀ e ∈ auxv, e.2 < 2 ^ 64) (hdelta : delta < 2 ^ 64)
    (huser : WordsAt m a (auxvWords (auxv.map (shiftEntry IsPatched delta)) last)) :
    ViewsAgree old auxv last rest m a
        (auxvWords (auxv.map (shiftEntry IsStackKey delta)) last ++ rest) ↔
      delta = 0 ∨ (∀ v, (atBase, v) ∉ auxv) ∧
        ∀ k v, (k, v) ∈ auxv → IsStackKey k → old.start ≤ v ∧ v < old.end_ := by
  constructor
  · rintro ⟨auxv', hw, hsaved, hall⟩
    have hlen := hall.length_eq
    have hu : auxv' = auxv.map (shiftEntry IsPatched delta) := by
      have hwords : (auxvWords auxv' last).length =
          (auxvWords (auxv.map (shiftEntry IsPatched delta)) last).length := by
        rw [length_auxvWords, length_auxvWords, List.length_map, hlen]
      exact auxvWords_inj (by rw [List.length_map, hlen]) (hw.unique huser hwords)
    have hk : auxv' = auxv.map (shiftEntry IsStackKey delta) := by
      rw [List.append_left_inj] at hsaved
      exact auxvWords_inj (by rw [List.length_map, hlen]) hsaved.symm
    rw [or_iff_not_imp_left]
    intro hne
    have hsame : ∀ e ∈ auxv, shiftEntry IsPatched delta e = shiftEntry IsStackKey delta e := by
      rw [hu] at hk
      exact List.map_inj_left.mp hk
    constructor
    · intro v hv
      have h := congrArg Prod.snd (hsame _ hv)
      have hno : ¬ IsStackKey atBase := by decide
      simp only [shiftEntry, if_pos (show IsPatched atBase from .inl rfl), if_neg hno] at h
      exact hne ((wrapAdd_eq_self (hvals _ hv) hdelta).mp h)
    · intro k v hv hkey
      rw [hk] at hall
      have h := (List.forall₂_same.mp (List.forall₂_map_right_iff.mp hall) _ hv).2
      by_contra hc
      simp only [shiftEntry, if_pos hkey] at h
      exact hne ((wrapAdd_eq_self (hvals _ hv) hdelta).mp (h hc))
  · intro hcond
    refine ⟨auxv.map (shiftEntry IsPatched delta), huser, ?_, ?_⟩
    · congr 2
      refine List.map_congr_left fun e he ↦ ?_
      rcases hcond with rfl | ⟨hbase, -⟩
      · have hid := (wrapAdd_eq_self (hvals e he) hdelta).mpr rfl
        simp only [shiftEntry, hid, ite_self]
      · have hiff : IsPatched e.1 ↔ IsStackKey e.1 := by
          refine or_iff_right fun hc ↦ hbase e.2 ?_
          rw [← hc]
          exact he
        simp only [shiftEntry, hiff]
    · refine List.forall₂_map_right_iff.mpr (List.forall₂_same.mpr fun e he ↦ ⟨rfl, fun hout ↦ ?_⟩)
      rcases hcond with rfl | ⟨hbase, hstack⟩
      · have hid := (wrapAdd_eq_self (hvals e he) hdelta).mpr rfl
        simp only [shiftEntry, hid, ite_self]
      · have hno : ¬ IsPatched e.1 := by
          rintro (hc | hc)
          · exact hbase e.2 (hc ▸ he)
          · exact hout (hstack e.1 e.2 he hc)
        simp only [shiftEntry, if_neg hno]

end Views

/-- **User and kernel agree after a pivot exactly if** the stack pointers are the same, or the vector
has no `AT_BASE` entry and its `AT_PLATFORM`, `AT_RANDOM` and `AT_EXECFN` entries are addresses of the
old stack. -/
theorem pivot_views_agree_iff (sys : Sys) {c : Cpu} {mm : MmFields} {auxv : List (Nat × Nat)}
    {last rsp newStackAddress : Nat} {rest : List Nat} {old new : Vma}
    (hkeys : ∀ e ∈ auxv, e.1 ≠ atNull) (hstack : WordsAt c.mem c.r10 (auxvWords auxv last))
    (hroom : c.r10 + 16 * auxv.length + 16 < 2 ^ 64)
    (hsaved : mm.savedAuxv = auxvWords auxv last ++ rest) (hrsp : rsp < 2 ^ 64)
    (haddr : newStackAddress < 2 ^ 64) (hr9 : c.r9 = wrapSub newStackAddress rsp)
    (hold : findVma mm.vmas rsp = some old) (hold' : old.start ≤ rsp)
    (hnew : findVma mm.vmas newStackAddress = some new) (hnew' : new.start ≤ newStackAddress) :
    ∃ c' mm', Reaches sys (.patchAuxv, c) (.patchAuxvExit, c') ∧
      saPivot (some mm) rsp newStackAddress = some (-1, some mm') ∧
      (ViewsAgree old auxv last rest c'.mem c.r10 mm'.savedAuxv ↔
        newStackAddress = rsp ∨ (∀ v, (atBase, v) ∉ auxv) ∧
          ∀ k v, (k, v) ∈ auxv → IsStackKey k → old.start ≤ v ∧ v < old.end_) := by
  obtain ⟨m', st, hreach, hwords, -⟩ := patchAuxv_reaches sys hkeys hstack hroom
  refine ⟨_, _, hreach, saPivot_eq hold hold' hnew hnew', ?_⟩
  have hvals : ∀ e ∈ auxv, e.2 < 2 ^ 64 := fun e he ↦ hstack.lt _ <|
    List.mem_append_left _ (List.mem_flatMap.mpr ⟨e, he, by simp⟩)
  have hdelta : wrapSub newStackAddress rsp < 2 ^ 64 := Nat.mod_lt _ (by decide)
  have hkernel : ((mm.pivot old new (wrapSub newStackAddress rsp)).munmap old).savedAuxv =
      auxvWords (auxv.map (shiftEntry IsStackKey (wrapSub newStackAddress rsp))) last ++ rest := by
    rw [← pivotAuxv_words hkeys, ← hsaved]
    rfl
  rw [hr9] at hwords
  rw [hkernel, viewsAgree_iff hvals hdelta hwords, wrapSub_eq_zero haddr hrsp]

/-- An address space with the old stack at `0x1000` and the new one at `0x8000`. -/
def twoStacks (savedAuxv : List Nat) : MmFields where
  vmas := [⟨0x1000, 0x2000, true⟩, ⟨0x8000, 0x9000, false⟩]
  startStack := 0x1000
  argStart := 0
  argEnd := 0
  envStart := 0
  envEnd := 0
  savedAuxv := savedAuxv

/-- The machine before `_patch_auxv`, with the copy of a vector at `0x8100`. -/
def beforePatch (auxv : List (Nat × Nat)) : Cpu :=
  { fresh 0x1000 (storeWords (fun _ ↦ 0) 0x8100 (auxvWords auxv 0)) with
    r9 := wrapSub 0x8000 0x1000, r10 := 0x8100 }

/-- The page size, the random bytes, the file name and the entry point. -/
def someAuxv : List (Nat × Nat) := [(6, 4096), (25, 0x1900), (31, 0x1800), (9, 0x401000)]

/-- The random bytes and the file name are on the old stack. -/
theorem pivot_views_agree_execfn : ∃ c' mm',
    Reaches helpful (.patchAuxv, beforePatch someAuxv) (.patchAuxvExit, c') ∧
      saPivot (some (twoStacks (auxvWords someAuxv 0))) 0x1000 0x8000 = some (-1, some mm') ∧
      ViewsAgree ⟨0x1000, 0x2000, true⟩ someAuxv 0 [] c'.mem 0x8100 mm'.savedAuxv := by
  have hsaved : (twoStacks (auxvWords someAuxv 0)).savedAuxv = auxvWords someAuxv 0 ++ [] := rfl
  have hold : findVma (twoStacks (auxvWords someAuxv 0)).vmas 0x1000 = some ⟨0x1000, 0x2000, true⟩ := rfl
  have hnew : findVma (twoStacks (auxvWords someAuxv 0)).vmas 0x8000 = some ⟨0x8000, 0x9000, false⟩ := rfl
  have hkeys : ∀ e ∈ someAuxv, e.1 ≠ atNull := by decide
  have hwords : WordsAt (beforePatch someAuxv).mem (beforePatch someAuxv).r10 (auxvWords someAuxv 0) :=
    wordsAt_storeWords (by decide) (by decide)
  obtain ⟨c', mm', hreach, hpivot, hiff⟩ := pivot_views_agree_iff helpful hkeys hwords (by decide) hsaved
    (by decide) (by decide) rfl hold (by decide) hnew (by decide)
  refine ⟨c', mm', hreach, hpivot, hiff.mpr (.inr ⟨?_, ?_⟩)⟩
  · simp [atBase, someAuxv]
  · have hstack : ∀ e ∈ someAuxv, IsStackKey e.1 → 0x1000 ≤ e.2 ∧ e.2 < 0x2000 := by decide
    exact fun k v hkv ↦ hstack (k, v) hkv

/-- The load address of the interpreter is shifted on the new stack and not in the kernel. -/
theorem not_pivot_views_agree_base : ∃ c' mm',
    WordsAt (beforePatch [(7, 0x400000)]).mem 0x8100 (auxvWords [(7, 0x400000)] 0) ∧
      Reaches helpful (.patchAuxv, beforePatch [(7, 0x400000)]) (.patchAuxvExit, c') ∧
      saPivot (some (twoStacks [7, 0x400000, 0, 0])) 0x1000 0x8000 = some (-1, some mm') ∧
      ¬ ViewsAgree ⟨0x1000, 0x2000, true⟩ [(7, 0x400000)] 0 [] c'.mem 0x8100 mm'.savedAuxv := by
  have hwords : WordsAt (beforePatch [(7, 0x400000)]).mem 0x8100 (auxvWords [(7, 0x400000)] 0) :=
    wordsAt_storeWords (by decide) (by decide)
  have hold : findVma (twoStacks [7, 0x400000, 0, 0]).vmas 0x1000 =
      some ⟨0x1000, 0x2000, true⟩ := rfl
  have hnew : findVma (twoStacks [7, 0x400000, 0, 0]).vmas 0x8000 =
      some ⟨0x8000, 0x9000, false⟩ := rfl
  obtain ⟨m', st, hreach, huser, -⟩ :=
    patchAuxv_reaches helpful (c := beforePatch [(7, 0x400000)]) (by simp) hwords (by decide)
  refine ⟨_, _, hwords, hreach, saPivot_eq hold (by decide) hnew (by decide), fun hagree ↦ ?_⟩
  have hkernel : (((twoStacks [7, 0x400000, 0, 0]).pivot ⟨0x1000, 0x2000, true⟩
      ⟨0x8000, 0x9000, false⟩ (wrapSub 0x8000 0x1000)).munmap ⟨0x1000, 0x2000, true⟩).savedAuxv =
      auxvWords ([(7, 0x400000)].map (shiftEntry IsStackKey (wrapSub 0x8000 0x1000))) 0 ++ [] := by
    rw [← pivotAuxv_words (by simp [atNull])]
    rfl
  rw [hkernel] at hagree
  have hdelta : wrapSub 0x8000 0x1000 < 2 ^ 64 := by decide
  rcases (viewsAgree_iff (by simp) hdelta huser).mp hagree with hzero | ⟨hbase, -⟩
  · exact absurd hzero (by decide)
  · exact hbase 0x400000 (by simp [atBase])

end ShadowStack.Runtime
