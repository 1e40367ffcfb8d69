import ShadowStack.Lib.Auxv

/-!
# Taking over a new stack

`sa_pivot` of `lkm/core/api.c`: after the runtime has copied the start image of a process to a new
stack, the kernel's own records of it follow: the bounds of arguments and environment, the saved
auxiliary vector, and the direction in which the two areas grow.  The old stack is unmapped on every
way out.
-/

namespace ShadowStack.Lkm

open Lib

/-- `struct vm_area_struct`, as far as `sa_pivot` uses it. -/
structure Vma where
  start : Nat
  end_ : Nat
  growsDown : Bool
deriving DecidableEq, Repr

/-- The fields of `struct mm_struct` that `sa_pivot` uses; the areas are in address order, and
`saved_auxv` has its `AT_VECTOR_SIZE` words. -/
structure MmFields where
  vmas : List Vma
  startStack : Nat
  argStart : Nat
  argEnd : Nat
  envStart : Nat
  envEnd : Nat
  savedAuxv : List Nat

/-- `find_vma`: the first area that ends after the address. -/
def findVma (vmas : List Vma) (addr : Nat) : Option Vma := vmas.find? fun v ↦ addr < v.end_

/-- The keys whose values `sa_pivot` shifts. -/
def IsStackKey (key : Nat) : Prop := key = atPlatform ∨ key = atRandom ∨ key = atExecfn

instance : DecidablePred IsStackKey := fun key ↦ by unfold IsStackKey; infer_instance

/-- The loop over `saved_auxv`. -/
def pivotAuxv (delta : Nat) : List Nat → List Nat
  | key :: value :: rest =>
      if key = atNull then key :: value :: rest
      else key :: (if IsStackKey key then wrapAdd value delta else value) :: pivotAuxv delta rest
  | rest => rest

/-- `vm_munmap` of an area. -/
def MmFields.munmap (mm : MmFields) (area : Vma) : MmFields :=
  { mm with vmas := mm.vmas.filter fun v ↦ v.start ≠ area.start }

/-- The updates under `arg_lock`, and the flags of the two areas. -/
def MmFields.pivot (mm : MmFields) (old new : Vma) (delta : Nat) : MmFields where
  vmas := mm.vmas.map fun v ↦
    { v with growsDown := if v = new then true else if v = old then false else v.growsDown }
  startStack := new.start
  argStart := wrapAdd mm.argStart delta
  argEnd := wrapAdd mm.argEnd delta
  envStart := wrapAdd mm.envStart delta
  envEnd := wrapAdd mm.envEnd delta
  savedAuxv := pivotAuxv delta mm.savedAuxv

/-- `sa_pivot`: the error it returns, and the address space after it; `none` where it reads the old
area through a null pointer on its way out.  Once everything is done, the error still is the -1 it was
set to at the start. -/
def saPivot (mm : Option MmFields) (rsp newStackAddress : Nat) : Option (Int × Option MmFields) :=
  match mm with
  | none => some (-22, none)
  | some mm =>
      match findVma mm.vmas rsp with
      | none => none
      | some old =>
          if rsp < old.start then some (-22, some (mm.munmap old))
          else
            match findVma mm.vmas newStackAddress with
            | none => some (-22, some (mm.munmap old))
            | some new =>
                if newStackAddress < new.start then some (-22, some (mm.munmap old))
                else
                  some (-1, some ((mm.pivot old new (wrapSub newStackAddress rsp)).munmap old))

/-- The loop shifts the entries up to `AT_NULL`. -/
theorem pivotAuxv_words {auxv : List (Nat × Nat)} {last delta : Nat} {rest : List Nat}
    (hkeys : ∀ e ∈ auxv, e.1 ≠ atNull) :
    pivotAuxv delta (auxvWords auxv last ++ rest) =
      auxvWords (auxv.map (shiftEntry IsStackKey delta)) last ++ rest := by
  induction auxv with
  | nil => rfl
  | cons e auxv ih =>
      rw [auxvWords_cons, List.map_cons, auxvWords_cons, List.cons_append, List.cons_append,
        pivotAuxv, if_neg (hkeys e List.mem_cons_self),
        ih fun e' he' ↦ hkeys e' (List.mem_cons_of_mem _ he')]
      rfl

/-- When both stack pointers lie in an area, everything is shifted and the error is -1. -/
theorem saPivot_eq {mm : MmFields} {rsp newStackAddress : Nat} {old new : Vma}
    (hold : findVma mm.vmas rsp = some old) (hrsp : old.start ≤ rsp)
    (hnew : findVma mm.vmas newStackAddress = some new) (haddr : new.start ≤ newStackAddress) :
    saPivot (some mm) rsp newStackAddress =
      some (-1, some ((mm.pivot old new (wrapSub newStackAddress rsp)).munmap old)) := by
  simp only [saPivot, hold, hnew, if_neg (Nat.not_lt.mpr hrsp), if_neg (Nat.not_lt.mpr haddr)]

end ShadowStack.Lkm
