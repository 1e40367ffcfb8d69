import ShadowStack.Lib.Memory

/-!
# Auxiliary vectors

The auxiliary vector that the kernel passes to a program: pairs of a key and a value, up to a pair
with the key `AT_NULL`.  As words in memory the pairs follow each other.
-/

namespace ShadowStack.Lib

/-- The keys of entries that matter when a stack moves. -/
def atNull : Nat := 0
def atBase : Nat := 7
def atPlatform : Nat := 15
def atRandom : Nat := 25
def atExecfn : Nat := 31

/-- The words of an auxiliary vector, with the value of its last entry. -/
def auxvWords (auxv : List (Nat × Nat)) (last : Nat) : List Nat :=
  auxv.flatMap (fun e ↦ [e.1, e.2]) ++ [atNull, last]

/-- An entry after the values of the keys in `P` were shifted by `delta`. -/
def shiftEntry (P : Nat → Prop) [DecidablePred P] (delta : Nat) (e : Nat × Nat) : Nat × Nat :=
  (e.1, if P e.1 then wrapAdd e.2 delta else e.2)

@[simp] theorem auxvWords_nil (last : Nat) : auxvWords [] last = [0, last] := rfl

@[simp] theorem auxvWords_cons (e : Nat × Nat) (auxv : List (Nat × Nat)) (last : Nat) :
    auxvWords (e :: auxv) last = e.1 :: e.2 :: auxvWords auxv last := rfl

theorem length_auxvWords (auxv : List (Nat × Nat)) (last : Nat) :
    (auxvWords auxv last).length = 2 * auxv.length + 2 := by
  induction auxv with
  | nil => rfl
  | cons e auxv ih =>
      rw [auxvWords_cons, List.length_cons, List.length_cons, ih, List.length_cons]
      omega

/-- The words determine the entries. -/
theorem auxvWords_inj {auxv auxv' : List (Nat × Nat)} {last last' : Nat}
    (hlen : auxv.length = auxv'.length) (h : auxvWords auxv last = auxvWords auxv' last') :
    auxv = auxv' := by
  induction auxv generalizing auxv' with
  | nil => exact (List.length_eq_zero_iff.mp hlen.symm).symm
  | cons e auxv ih =>
      cases auxv' with
      | nil => cases hlen
      | cons e' auxv' =>
          rw [auxvWords_cons, auxvWords_cons] at h
          obtain ⟨h₁, h₂⟩ := List.cons.inj h
          obtain ⟨h₂, h₃⟩ := List.cons.inj h₂
          rw [Prod.ext h₁ h₂, ih (Nat.succ.inj hlen) h₃]

end ShadowStack.Lib
