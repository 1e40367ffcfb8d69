import Mathlib.Data.Nat.Bitwise

/-!
# The mask

`shadow_stack/ShadowStack.h`: instrumented stores go to the address of their pointer with the bits
outside of `MASK` cleared.
-/

namespace ShadowStack.Ir

/-- `MASK`. -/
def mask : Nat := 0x7fffffffffff

/-- The address an instrumented store goes to, for the pointer `p`. -/
def maskAddr (p : Nat) : Nat := p &&& mask

theorem maskAddr_eq_mod (p : Nat) : maskAddr p = p % 2 ^ 47 := by
  have hmask : mask = 2 ^ 47 - 1 := rfl
  rw [maskAddr, hmask, Nat.and_two_pow_sub_one_eq_mod]

/-- Masked addresses are below `2 ^ 47`. -/
theorem maskAddr_lt (p : Nat) : maskAddr p < 2 ^ 47 := by
  rw [maskAddr_eq_mod]
  exact Nat.mod_lt _ (by decide)

/-- Addresses below `2 ^ 47` are not changed. -/
theorem maskAddr_of_lt {p : Nat} (h : p < 2 ^ 47) : maskAddr p = p := by
  rw [maskAddr_eq_mod, Nat.mod_eq_of_lt h]

end ShadowStack.Ir
