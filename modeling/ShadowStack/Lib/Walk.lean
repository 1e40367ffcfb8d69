import Mathlib.Algebra.Order.Group.Nat
import Mathlib.Logic.Function.Basic
import Mathlib.Tactic.Ring

/-!
# Range walks over table slots

A page-table walk visits the slots of a table that a range of addresses touches: a `do … while`
loop that cuts the range at slot boundaries with a `pXd_addr_end` macro and moves a slot pointer
along with the address.  All arithmetic of such a loop is modulo `2 ^ 64`; addresses are natural
numbers here and the wrap-around is written out.

`eachSlot` is the loop, over any table, any slot type and any extra state.  Its main rule,
`eachSlot_prefix`, lifts what the body does to one slot to what the loop does to the whole table:
if the body rewrites the addresses of its own piece up to some point, so does the loop, and it
stops exactly at the first piece that was refused.
-/

universe u v w

namespace ShadowStack.Lib

/-- Reduction to an unsigned 64-bit value. -/
def wrap (n : Nat) : Nat := n % 2 ^ 64

/-- Unsigned 64-bit addition.  The size comes first so that a symbolic address stops evaluation. -/
def wrapAdd (a b : Nat) : Nat := (b + a) % 2 ^ 64

/-- Unsigned 64-bit subtraction. -/
def wrapSub (a b : Nat) : Nat := (2 ^ 64 - b % 2 ^ 64 + a) % 2 ^ 64

/-- `x & ~(2 ^ shift - 1)`. -/
def alignDown (shift x : Nat) : Nat := x / 2 ^ shift * 2 ^ shift

/-- `pXd_addr_end(addr, end)` for slots of `2 ^ shift` bytes.  Comparing the predecessors makes
`end = 0` stand for the end of the address space. -/
def addrEnd (shift addr end_ : Nat) : Nat :=
  let boundary := alignDown shift (wrapAdd addr (2 ^ shift))
  if wrapSub boundary 1 < wrapSub end_ 1 then boundary else end_

theorem wrap_of_lt {n : Nat} (h : n < 2 ^ 64) : wrap n = n := Nat.mod_eq_of_lt h

theorem wrapAdd_eq (a b : Nat) : wrapAdd a b = wrap (a + b) := by
  rw [wrapAdd, wrap, Nat.add_comm]

theorem wrap_lt (n : Nat) : wrap n < 2 ^ 64 := Nat.mod_lt _ (by decide)

/-- The predecessor of a wrapped bound is the predecessor of the bound: this is where `0` becomes
`2 ^ 64`. -/
theorem wrapSub_wrap_one {n : Nat} (h₀ : 0 < n) (h : n ≤ 2 ^ 64) : wrapSub (wrap n) 1 = n - 1 := by
  unfold wrapSub wrap
  omega

/-- The boundary after `a` is at most the size of the address space. -/
theorem succ_boundary_le {shift a : Nat} (hs : shift ≤ 64) (ha : a < 2 ^ 64) :
    (a / 2 ^ shift + 1) * 2 ^ shift ≤ 2 ^ 64 := by
  have hdvd : (2 : Nat) ^ 64 = 2 ^ (64 - shift) * 2 ^ shift := by
    rw [← pow_add, Nat.sub_add_cancel hs]
  have hpos : (0 : Nat) < 2 ^ shift := Nat.two_pow_pos _
  rw [hdvd] at ha ⊢
  exact Nat.mul_le_mul_right _ (Nat.succ_le_of_lt ((Nat.div_lt_iff_lt_mul hpos).mpr ha))

/-- `pXd_addr_end` computes the next slot boundary, cut off at the end of the range. -/
theorem addrEnd_eq {shift a e : Nat} (hs : shift < 64) (ha : a < e) (he : e ≤ 2 ^ 64) :
    addrEnd shift a (wrap e) = wrap (min ((a / 2 ^ shift + 1) * 2 ^ shift) e) := by
  have hpos : (0 : Nat) < 2 ^ shift := Nat.two_pow_pos _
  have hle := succ_boundary_le (a := a) hs.le (by omega)
  have hdiv : (a + 2 ^ shift) / 2 ^ shift = a / 2 ^ shift + 1 := Nat.add_div_right a hpos
  have hb : alignDown shift (wrap (a + 2 ^ shift)) = wrap ((a / 2 ^ shift + 1) * 2 ^ shift) := by
    unfold alignDown
    rcases Nat.lt_or_ge (a + 2 ^ shift) (2 ^ 64) with hlt | hge
    · rw [wrap_of_lt hlt, hdiv, wrap_of_lt]
      calc (a / 2 ^ shift + 1) * 2 ^ shift = (a + 2 ^ shift) / 2 ^ shift * 2 ^ shift := by rw [hdiv]
        _ ≤ a + 2 ^ shift := Nat.div_mul_le_self _ _
        _ < 2 ^ 64 := hlt
    · have hsz : (2 : Nat) ^ shift < 2 ^ 64 := Nat.pow_lt_pow_right (by decide) hs
      -- only the last slot of the address space wraps, and its boundary is the end of that space
      have htop : (a / 2 ^ shift + 1) * 2 ^ shift = 2 ^ 64 := by
        refine le_antisymm hle ?_
        obtain ⟨q, hq⟩ : (2 : Nat) ^ shift ∣ 2 ^ 64 := pow_dvd_pow 2 hs.le
        have hqle : q ≤ (a + 2 ^ shift) / 2 ^ shift :=
          (Nat.le_div_iff_mul_le hpos).mpr (by rw [mul_comm, ← hq]; exact hge)
        rw [hdiv] at hqle
        calc 2 ^ 64 = q * 2 ^ shift := by rw [hq, mul_comm]
          _ ≤ (a / 2 ^ shift + 1) * 2 ^ shift := Nat.mul_le_mul_right _ hqle
      have hw : wrap (a + 2 ^ shift) = a + 2 ^ shift - 2 ^ 64 := by
        unfold wrap
        rw [Nat.mod_eq_sub_mod hge, Nat.mod_eq_of_lt (by omega)]
      rw [htop, hw, Nat.div_eq_of_lt (by omega)]
      simp [wrap]
  have hbpos : 0 < (a / 2 ^ shift + 1) * 2 ^ shift := Nat.mul_pos (Nat.succ_pos _) hpos
  unfold addrEnd
  simp only
  rw [wrapAdd_eq, hb, wrapSub_wrap_one hbpos hle, wrapSub_wrap_one (by omega) he]
  split
  · next h => rw [min_eq_left (by omega)]
  · next h => rw [min_eq_right (by omega)]

/-- Without a wrapping bound the macro is a plain minimum. -/
theorem addrEnd_eq_min {shift a e : Nat} (hs : shift < 64) (ha : a < e) (he : e < 2 ^ 64) :
    addrEnd shift a e = min ((a / 2 ^ shift + 1) * 2 ^ shift) e := by
  have h := addrEnd_eq hs ha he.le
  rw [wrap_of_lt he] at h
  rw [h, wrap_of_lt (lt_of_le_of_lt (min_le_right _ _) he)]

/-- The number of slots of `2 ^ shift` bytes that the range from `addr` to `end_` touches, and so a
bound on the rounds of a walk over it. -/
def rounds (shift addr end_ : Nat) : Nat := 1 + (wrapSub end_ 1 / 2 ^ shift - addr / 2 ^ shift)

theorem rounds_pos (shift addr end_ : Nat) : 0 < rounds shift addr end_ := by
  unfold rounds
  omega

theorem lt_rounds (shift : Nat) {a e : Nat} (he : 0 < e) (he' : e < 2 ^ 64) :
    (e - 1) / 2 ^ shift - a / 2 ^ shift < rounds shift a e := by
  have h := wrapSub_wrap_one he he'.le
  rw [wrap_of_lt he'] at h
  unfold rounds
  rw [h, Nat.add_comm]
  exact Nat.lt_succ_self _

attribute [irreducible] rounds

/-- Cutting at slot boundaries keeps any alignment that divides the slot size. -/
theorem dvd_addrEnd {d shift a e : Nat} (hd : d ∣ 2 ^ shift) (he : d ∣ e) :
    d ∣ addrEnd shift a e := by
  unfold addrEnd
  simp only
  split
  · exact Dvd.dvd.mul_left hd _
  · exact he

/-- Walking up from an aligned address, the `j`-th boundary is `j` slots on, as long as the range
lasts. -/
theorem iterate_addrEnd {shift : Nat} (hs : shift < 64) (a e j : Nat) (he : e ≤ 2 ^ 64)
    (ha : 2 ^ shift ∣ a) (hlt : a + j * 2 ^ shift < e) :
    (fun b ↦ addrEnd shift b (wrap e))^[j] a = a + j * 2 ^ shift := by
  induction j with
  | zero => simp
  | succ j ih =>
      have hpos : (0 : Nat) < 2 ^ shift := Nat.two_pow_pos _
      have hj : a + j * 2 ^ shift + 2 ^ shift = a + (j + 1) * 2 ^ shift := by ring
      rw [Function.iterate_succ_apply', ih (by omega), addrEnd_eq hs (by omega) he]
      obtain ⟨q, rfl⟩ := ha
      have hdiv : (2 ^ shift * q + j * 2 ^ shift) / 2 ^ shift = q + j := by
        rw [mul_comm j, ← mul_add, Nat.mul_div_cancel_left _ hpos]
      have hnext : (q + j + 1) * 2 ^ shift = 2 ^ shift * q + (j + 1) * 2 ^ shift := by ring
      rw [hdiv, hnext, min_eq_left hlt.le, wrap_of_lt (by omega)]

/-! ## The loop -/

section Loop

variable {ε : Type u} {τ : Type v}

/-- The `do … while` loop of a range walk.  `next` cuts the range, `again` is the loop condition
on the new address, and the body `f` gets the slot pointer, the piece `[addr, next addr)`, the
content of the slot and the extra state; it returns both, and whether it failed.  The loop leaves at
the first failure.  The first number is a bound on the number of rounds. -/
def eachSlot (next : Nat → Nat) (again : Nat → Bool) (f : Nat → Nat → Nat → ε → τ → ε × τ × Bool) :
    Nat → Nat → Nat → (Nat → ε) → τ → (Nat → ε) × τ × Bool
  | 0, _, _, t, x => (t, x, false)
  | fuel + 1, i, addr, t, x =>
      let r := f i addr (next addr) (t i) x
      let t' := Function.update t i r.1
      if r.2.2 then (t', r.2.1, true)
      else if again (next addr) then eachSlot next again f fuel (i + 1) (next addr) t' r.2.1
      else (t', r.2.1, false)

variable {next : Nat → Nat} {again : Nat → Bool} {f : Nat → Nat → Nat → ε → τ → ε × τ × Bool}

@[simp] theorem eachSlot_zero {i addr : Nat} {t : Nat → ε} {x : τ} :
    eachSlot next again f 0 i addr t x = (t, x, false) := rfl

/-- A round that fails ends the loop. -/
theorem eachSlot_fail {fuel i addr : Nat} {t : Nat → ε} {x : τ}
    (h : (f i addr (next addr) (t i) x).2.2 = true) :
    eachSlot next again f (fuel + 1) i addr t x =
      (Function.update t i (f i addr (next addr) (t i) x).1, (f i addr (next addr) (t i) x).2.1,
        true) := by
  simp [eachSlot, h]

/-- A successful round that reaches the end of the range ends the loop. -/
theorem eachSlot_last {fuel i addr : Nat} {t : Nat → ε} {x : τ}
    (h : (f i addr (next addr) (t i) x).2.2 = false) (hlast : again (next addr) = false) :
    eachSlot next again f (fuel + 1) i addr t x =
      (Function.update t i (f i addr (next addr) (t i) x).1, (f i addr (next addr) (t i) x).2.1,
        false) := by
  simp [eachSlot, h, hlast]

/-- A successful round short of the end is followed by the next one. -/
theorem eachSlot_more {fuel i addr : Nat} {t : Nat → ε} {x : τ}
    (h : (f i addr (next addr) (t i) x).2.2 = false) (hmore : again (next addr) = true) :
    eachSlot next again f (fuel + 1) i addr t x =
      eachSlot next again f fuel (i + 1) (next addr)
        (Function.update t i (f i addr (next addr) (t i) x).1)
        (f i addr (next addr) (t i) x).2.1 := by
  simp [eachSlot, h, hmore]

/-- A loop whose condition never holds makes one round. -/
theorem eachSlot_once {fuel i addr : Nat} {t : Nat → ε} {x : τ} (hfuel : 0 < fuel)
    (hno : ∀ a, again a = false) :
    (eachSlot next again f fuel i addr t x).2.1 = (f i addr (next addr) (t i) x).2.1 := by
  obtain ⟨fuel, rfl⟩ := Nat.exists_eq_succ_of_ne_zero hfuel.ne'
  cases h : (f i addr (next addr) (t i) x).2.2 with
  | true => rw [eachSlot_fail h]
  | false => rw [eachSlot_last h (hno _)]

attribute [irreducible] eachSlot

/-- A property of the extra state that every round keeps is kept by the loop.  `A` collects what
is known of the addresses the rounds start at, `G` of the slots they meet: every slot is met as
the loop found it, since a round only writes its own. -/
theorem eachSlot_state {I : τ → Prop} {A : Nat → Prop} {G : ε → Prop}
    (hA : ∀ a, A a → again (next a) = true → A (next a))
    (hf : ∀ i a e x, A a → G e → I x → I (f i a (next a) e x).2.1)
    {fuel i addr : Nat} {t : Nat → ε} {x : τ} (haddr : A addr) (ht : ∀ j, i ≤ j → G (t j))
    (hx : I x) : I (eachSlot next again f fuel i addr t x).2.1 := by
  induction fuel generalizing i addr t x with
  | zero => rw [eachSlot_zero]; exact hx
  | succ fuel ih =>
      have hI := hf i addr (t i) x haddr (ht i le_rfl) hx
      cases hfail : (f i addr (next addr) (t i) x).2.2 with
      | true => rw [eachSlot_fail hfail]; exact hI
      | false =>
          cases hmore : again (next addr) with
          | false => rw [eachSlot_last hfail hmore]; exact hI
          | true =>
              rw [eachSlot_more hfail hmore]
              refine ih (hA _ haddr hmore) (fun j hj ↦ ?_) hI
              rw [Function.update_of_ne (by omega)]
              exact ht j (by omega)

/-- The same for a loop up to `e`, whose rounds start below it. -/
theorem eachSlot_state_lt {I : τ → Prop} {A : Nat → Prop} {e : Nat}
    (hagain : ∀ a, again a = true ↔ a ≠ e) (hA : ∀ a, A a → a < e → A (next a) ∧ next a ≤ e)
    (hf : ∀ i a s x, A a → a < e → I x → I (f i a (next a) s x).2.1)
    {fuel i addr : Nat} {t : Nat → ε} {x : τ} (haddr : A addr) (hlt : addr < e) (hx : I x) :
    I (eachSlot next again f fuel i addr t x).2.1 := by
  refine eachSlot_state (A := fun a ↦ A a ∧ a < e) (G := fun _ ↦ True) (fun a ha hmore ↦ ?_)
    (fun i a s x ha _ hx ↦ hf i a s x ha.1 ha.2 hx) ⟨haddr, hlt⟩ (fun _ _ ↦ trivial) hx
  obtain ⟨hnext, hle⟩ := hA a ha.1 ha.2
  exact ⟨hnext, lt_of_le_of_ne hle ((hagain _).mp hmore)⟩

/-- A preorder on slots that every round respects is respected by the loop. -/
theorem eachSlot_rel {R : ε → ε → Prop} (hrefl : ∀ s, R s s)
    (htrans : ∀ s₁ s₂ s₃, R s₁ s₂ → R s₂ s₃ → R s₁ s₃) (hf : ∀ i a n s x, R s (f i a n s x).1)
    {fuel i addr : Nat} {t : Nat → ε} {x : τ} (j : Nat) :
    R (t j) ((eachSlot next again f fuel i addr t x).1 j) := by
  induction fuel generalizing i addr t x with
  | zero => rw [eachSlot_zero]; exact hrefl _
  | succ fuel ih =>
      have hround : R (t j) (Function.update t i (f i addr (next addr) (t i) x).1 j) := by
        by_cases hj : j = i
        · rw [hj, Function.update_self]
          exact hf _ _ _ _ _
        · rw [Function.update_of_ne hj]
          exact hrefl _
      cases hfail : (f i addr (next addr) (t i) x).2.2 with
      | true => rw [eachSlot_fail hfail]; exact hround
      | false =>
          cases hmore : again (next addr) with
          | false => rw [eachSlot_last hfail hmore]; exact hround
          | true => rw [eachSlot_more hfail hmore]; exact htrans _ _ _ hround ih

/-- A loop does not touch the slots before its first. -/
theorem eachSlot_before {fuel i addr : Nat} {t : Nat → ε} {x : τ} {j : Nat} (hj : j < i) :
    (eachSlot next again f fuel i addr t x).1 j = t j := by
  induction fuel generalizing i addr t x with
  | zero => rw [eachSlot_zero]
  | succ fuel ih =>
      have hround : Function.update t i (f i addr (next addr) (t i) x).1 j = t j :=
        Function.update_of_ne (Nat.ne_of_lt hj) _ _
      cases hfail : (f i addr (next addr) (t i) x).2.2 with
      | true => rw [eachSlot_fail hfail]; exact hround
      | false =>
          cases hmore : again (next addr) with
          | false => rw [eachSlot_last hfail hmore]; exact hround
          | true => rw [eachSlot_more hfail hmore, ih (by omega), hround]

/-- If rounds that leave their slot alone keep a part `g` of the extra state, so does a loop that leaves
its table alone. -/
theorem eachSlot_same {γ : Type w} {g : τ → γ}
    (hf : ∀ i a n s x, (f i a n s x).1 = s → g (f i a n s x).2.1 = g x)
    {fuel i addr : Nat} {t : Nat → ε} {x : τ}
    (h : (eachSlot next again f fuel i addr t x).1 = t) :
    g (eachSlot next again f fuel i addr t x).2.1 = g x := by
  induction fuel generalizing i addr x with
  | zero => rw [eachSlot_zero]
  | succ fuel ih =>
      have hround : (eachSlot next again f (fuel + 1) i addr t x).1 i =
          (f i addr (next addr) (t i) x).1 := by
        cases hfail : (f i addr (next addr) (t i) x).2.2 with
        | true => rw [eachSlot_fail hfail]; exact Function.update_self _ _ _
        | false =>
            cases hmore : again (next addr) with
            | false => rw [eachSlot_last hfail hmore]; exact Function.update_self _ _ _
            | true =>
                rw [eachSlot_more hfail hmore, eachSlot_before (Nat.lt_succ_self i),
                  Function.update_self]
      rw [h] at hround
      have hg := hf i addr (next addr) (t i) x hround.symm
      cases hfail : (f i addr (next addr) (t i) x).2.2 with
      | true => rw [eachSlot_fail hfail]; exact hg
      | false =>
          cases hmore : again (next addr) with
          | false => rw [eachSlot_last hfail hmore]; exact hg
          | true =>
              rw [eachSlot_more hfail hmore, ← hround, Function.update_eq_self] at h ⊢
              rw [ih h, hg]

/-- A property `I` of the extra state that one particular round establishes and every later round
keeps holds after the loop; `J` is what the rounds before it keep.  The round meant is the `k`-th,
counting from the first. -/
theorem eachSlot_reaches {I J : τ → Prop} (hkeep : ∀ i a e x, I x → I (f i a (next a) e x).2.1)
    (hJ : ∀ i a e x, J x → J (f i a (next a) e x).2.1)
    (hok : ∀ i a e x, (f i a (next a) e x).2.2 = false)
    {k fuel i addr : Nat} {t : Nat → ε} {x : τ} (hk : k < fuel)
    (hmore : ∀ j < k, again (next^[j + 1] addr) = true) (hx : J x)
    (hhit : ∀ x, J x → I (f (i + k) (next^[k] addr) (next (next^[k] addr)) (t (i + k)) x).2.1) :
    I (eachSlot next again f fuel i addr t x).2.1 := by
  have hkeeps : ∀ {fuel i addr : Nat} {t : Nat → ε} {x : τ}, I x →
      I (eachSlot next again f fuel i addr t x).2.1 := fun hx ↦
    eachSlot_state (A := fun _ ↦ True) (G := fun _ ↦ True) (fun _ _ _ ↦ trivial)
      (fun i a e x _ _ hx ↦ hkeep i a e x hx) trivial (fun _ _ ↦ trivial) hx
  induction k generalizing fuel i addr t x with
  | zero =>
      obtain ⟨fuel, rfl⟩ := Nat.exists_eq_succ_of_ne_zero (Nat.ne_of_gt hk)
      cases hm : again (next addr) with
      | false => rw [eachSlot_last (hok _ _ _ _) hm]; exact hhit x hx
      | true => rw [eachSlot_more (hok _ _ _ _) hm]; exact hkeeps (hhit x hx)
  | succ k ih =>
      obtain ⟨fuel, rfl⟩ := Nat.exists_eq_succ_of_ne_zero (Nat.ne_of_gt (Nat.zero_lt_of_lt hk))
      rw [eachSlot_more (hok _ _ _ _) (hmore 0 (by omega))]
      refine ih (by omega) (fun j hj ↦ ?_) (hJ _ _ _ _ hx) fun y hy ↦ ?_
      · have h := hmore (j + 1) (by omega)
        rwa [Function.iterate_succ_apply] at h
      · have h := hhit y hy
        rw [Function.iterate_succ_apply] at h
        rwa [Function.update_of_ne (by omega), Nat.add_right_comm i 1 k]

end Loop

/-! ## What a loop does to a table, read off its body -/

section Prefix

variable {ε : Type u} {τ : Type v} {V : Type w}

/-- Inside one block of `M` slots of `S` bytes, the slot number determines the slot. -/
theorem slot_eq_iff {S M a b : Nat} (h : a / (M * S) = b / (M * S)) :
    a / S % M = b / S % M ↔ a / S = b / S := by
  have hq : a / S / M = b / S / M := by
    rwa [Nat.div_div_eq_div_mul, Nat.div_div_eq_div_mul, mul_comm S M]
  constructor
  · intro hr
    rw [← Nat.div_add_mod (a / S) M, ← Nat.div_add_mod (b / S) M, hq, hr]
  · intro heq
    rw [heq]

/-- The next slot boundary, if it is still below `b` in the same block, is in the next slot. -/
theorem slot_succ {S M a b : Nat} (hS : 0 < S) (hblock : a / (M * S) = b / (M * S))
    (hlt : (a / S + 1) * S ≤ b) : (a / S + 1) * S / S % M = a / S % M + 1 ∧
      (a / S + 1) * S / (M * S) = a / (M * S) := by
  have hdiv : (a / S + 1) * S / S = a / S + 1 := Nat.mul_div_cancel _ hS
  have hq : a / S / M = b / S / M := by
    rwa [Nat.div_div_eq_div_mul, Nat.div_div_eq_div_mul, mul_comm S M]
  have hle : a / S + 1 ≤ b / S := (Nat.le_div_iff_mul_le hS).mpr hlt
  have hquot : (a / S + 1) / M = a / S / M := by
    refine le_antisymm ?_ (Nat.div_le_div_right (by omega))
    rw [hq]
    exact Nat.div_le_div_right hle
  refine ⟨?_, ?_⟩
  · rw [hdiv]
    have h₁ := Nat.div_add_mod (a / S + 1) M
    have h₂ := Nat.div_add_mod (a / S) M
    rw [hquot] at h₁
    omega
  · rw [mul_comm M S, ← Nat.div_div_eq_div_mul, hdiv, hquot, Nat.div_div_eq_div_mul]

/-- The piece of a range that a round works on: up to the next slot boundary or the end of the
range. -/
theorem cut_spec {S a e n : Nat} (hS : 0 < S) (hlt : a < e) (hn : n = min ((a / S + 1) * S) e) :
    a < n ∧ n ≤ e ∧ a / S = (n - 1) / S := by
  have hgt : a < (a / S + 1) * S := by
    rw [mul_comm]
    exact Nat.lt_mul_div_succ a hS
  have hle : n ≤ (a / S + 1) * S := by rw [hn]; exact min_le_left _ _
  have han : a < n := by rw [hn]; exact lt_min hgt hlt
  refine ⟨han, by rw [hn]; exact min_le_right _ _, ?_⟩
  refine le_antisymm (Nat.div_le_div_right (by omega)) (Nat.lt_succ_iff.mp ?_)
  refine (Nat.div_lt_iff_lt_mul hS).mpr ?_
  rw [Nat.succ_eq_add_one]
  omega

/-- If the piece ends before the range does, the next one starts at the next slot of the block. -/
theorem cut_more {S M a e n : Nat} (hS : 0 < S) (hblock : a / (M * S) = (e - 1) / (M * S))
    (hn : n = min ((a / S + 1) * S) e) (hlt : n < e) :
    n / S % M = a / S % M + 1 ∧ n / (M * S) = a / (M * S) ∧ n / S = a / S + 1 := by
  have hbd : n = (a / S + 1) * S := by
    rcases min_choice ((a / S + 1) * S) e with h | h
    · rw [hn, h]
    · omega
  obtain ⟨h₁, h₂⟩ := slot_succ (M := M) (b := e - 1) hS hblock (by omega)
  rw [← hbd] at h₁ h₂
  exact ⟨h₁, h₂, by rw [hbd, Nat.mul_div_cancel _ hS]⟩

/-- What one round, or one whole loop, does to the addresses it is responsible for: those of
`[addr, m)` read as `new`, all others of the block read as before.  The point `m` is the end of
the piece if nothing failed; otherwise the addresses at `m` were refused (`D`).  What is rewritten
was not refused. -/
structure Rewrites (dom : Nat → Prop) (old res new : Nat → V) (D : Nat → Prop)
    (addr e m : Nat) (err : Bool) : Prop where
  le : addr ≤ m
  le_end : m ≤ e
  done : err = false → m = e
  stopped : err = true → m < e ∧ D m
  granted : ∀ a, addr ≤ a → a < m → ¬ D a
  look : ∀ a, dom a → res a = if addr ≤ a ∧ a < m then new a else old a

/-- A range with a refused address is not finished. -/
theorem err_of_refused {dom : Nat → Prop} {old res new : Nat → V} {D : Nat → Prop} {addr e a : Nat}
    {err : Bool} (h : ∃ m, Rewrites dom old res new D addr e m err) (hlo : addr ≤ a) (hhi : a < e)
    (hD : D a) : err = true := by
  obtain ⟨m, hm⟩ := h
  by_contra hok
  obtain rfl := hm.done (Bool.not_eq_true _ ▸ hok)
  exact hm.granted a hlo hhi hD

/-- A range that is not finished has a refused address. -/
theorem refused_of_err {dom : Nat → Prop} {old res new : Nat → V} {D : Nat → Prop} {addr e : Nat}
    {err : Bool} (h : ∃ m, Rewrites dom old res new D addr e m err) (herr : err = true) :
    ∃ m, addr ≤ m ∧ m < e ∧ D m := by
  obtain ⟨m, hm⟩ := h
  obtain ⟨hlt, hD⟩ := hm.stopped herr
  exact ⟨m, hm.le, hlt, hD⟩

/-- The addresses of a piece are in one slot. -/
theorem cut_slot {S a n b : Nat} (hsame : a / S = (n - 1) / S) (hlo : a ≤ b) (hhi : b < n) : b / S = a / S := by
  refine le_antisymm ?_ (Nat.div_le_div_right hlo)
  rw [hsame]
  exact Nat.div_le_div_right (by omega)

/-- What a round does to the slot of its piece, seen from the whole block: other slots are not touched. -/
theorem Rewrites.slot {S M addr n m : Nat} {t : Nat → ε} {s : ε} {look : ε → Nat → V} {new : Nat → V}
    {D : ε → Nat → Prop} {err : Bool} (hsame : addr / S = (n - 1) / S)
    (h : Rewrites (fun b ↦ b / S = addr / S) (look (t (addr / S % M))) (look s) new (D (t (addr / S % M)))
      addr n m err) :
    Rewrites (fun b ↦ b / (M * S) = addr / (M * S)) (fun b ↦ look (t (b / S % M)) b)
      (fun b ↦ look (Function.update t (addr / S % M) s (b / S % M)) b) new (fun b ↦ D (t (b / S % M)) b)
      addr n m err := by
  have hend := h.le_end
  refine ⟨h.le, hend, h.done, fun herr ↦ ?_, fun b hlo hhi ↦ ?_, fun b hb ↦ ?_⟩
  · obtain ⟨hmn, hD⟩ := h.stopped herr
    refine ⟨hmn, ?_⟩
    rw [cut_slot hsame h.le hmn]
    exact hD
  · rw [cut_slot hsame hlo (hhi.trans_le hend)]
    exact h.granted b hlo hhi
  · by_cases hslot : b / S = addr / S
    · have hi : b / S % M = addr / S % M := by rw [hslot]
      rw [hi, Function.update_self]
      exact h.look b hslot
    · have hi : b / S % M ≠ addr / S % M := fun hc ↦ hslot ((slot_eq_iff hb).mp hc)
      rw [Function.update_of_ne hi, if_neg]
      rintro ⟨hlo, hhi⟩
      exact hslot (cut_slot hsame hlo (hhi.trans_le hend))

/-- What failed on a piece failed on the range. -/
theorem Rewrites.extend {dom : Nat → Prop} {old res new : Nat → V} {D : Nat → Prop} {addr n e m : Nat}
    (h : Rewrites dom old res new D addr n m true) (hne : n ≤ e) : Rewrites dom old res new D addr e m true := by
  obtain ⟨hlt, hD⟩ := h.stopped rfl
  exact ⟨h.le, h.le_end.trans hne, nofun, fun _ ↦ ⟨hlt.trans_le hne, hD⟩, h.granted, h.look⟩

/-- One piece after the other.  What was refused behind the first piece still is. -/
theorem Rewrites.trans {dom dom' : Nat → Prop} {old mid res new : Nat → V} {D D' : Nat → Prop}
    {addr n e m : Nat} {err : Bool} (h : Rewrites dom old mid new D addr n n false)
    (h' : Rewrites dom' mid res new D' n e m err) (hdom : ∀ b, dom b → dom' b)
    (hD : ∀ b, n ≤ b → b < e → (D' b ↔ D b)) : Rewrites dom old res new D addr e m err := by
  refine ⟨h.le.trans h'.le, h'.le_end, h'.done, fun herr ↦ ?_, fun b hlo hhi ↦ ?_, fun b hb ↦ ?_⟩
  · obtain ⟨hlt, hDm⟩ := h'.stopped herr
    exact ⟨hlt, (hD m h'.le hlt).mp hDm⟩
  · rcases Nat.lt_or_ge b n with hbn | hbn
    · exact h.granted b hlo hbn
    · exact mt (hD b hbn (hhi.trans_le h'.le_end)).mpr (h'.granted b hbn hhi)
  · have hle := h.le
    have hle' := h'.le
    rw [h'.look b (hdom b hb), h.look b hb]
    by_cases hbn : n ≤ b
    · by_cases hbm : b < m
      · rw [if_pos ⟨hbn, hbm⟩, if_pos ⟨hle.trans hbn, hbm⟩]
      · rw [if_neg fun hc ↦ hbm hc.2, if_neg fun hc ↦ hbn.not_gt hc.2, if_neg fun hc ↦ hbm hc.2]
    · rw [if_neg fun hc ↦ hbn hc.1]
      by_cases hlo : addr ≤ b
      · rw [if_pos ⟨hlo, not_le.mp hbn⟩, if_pos ⟨hlo, (not_le.mp hbn).trans_le hle'⟩]
      · rw [if_neg fun hc ↦ hlo hc.1, if_neg fun hc ↦ hlo hc.1]

/-- **What a loop does to a table.**  If every round rewrites its own slot up to some point, then
the loop rewrites the whole range up to some point.  Slots cover `S` bytes, the table has `M` of
them, and the range `[addr, e)` lies in one block of `M * S` bytes; `A` is what is known of the
addresses the rounds start at (page alignment). -/
theorem eachSlot_prefix {S M e : Nat} (hS : 0 < S)
    {next : Nat → Nat} {again : Nat → Bool} {f : Nat → Nat → Nat → ε → τ → ε × τ × Bool}
    {look : ε → Nat → V} {new : Nat → V} {D : ε → Nat → Prop} {A : Nat → Prop}
    (hA : ∀ a, A a → a < e → A (next a))
    (hnext : ∀ a, A a → a < e → next a = min ((a / S + 1) * S) e)
    (hagain : ∀ a, again a = true ↔ a ≠ e)
    (hf : ∀ i a n s x, A a → A n → a < n → n ≤ e → a / S = (n - 1) / S →
      ∃ m, Rewrites (fun b ↦ b / S = a / S) (look s) (look (f i a n s x).1) new (D s) a n m
        (f i a n s x).2.2)
    {fuel addr : Nat} {t : Nat → ε} {x : τ} (haddr : A addr) (hlt : addr < e)
    (hblock : addr / (M * S) = (e - 1) / (M * S)) (hfuel : (e - 1) / S - addr / S < fuel) :
    ∃ m, Rewrites (fun b ↦ b / (M * S) = addr / (M * S)) (fun b ↦ look (t (b / S % M)) b)
      (fun b ↦ look ((eachSlot next again f fuel (addr / S % M) addr t x).1 (b / S % M)) b) new
      (fun b ↦ D (t (b / S % M)) b) addr e m
      (eachSlot next again f fuel (addr / S % M) addr t x).2.2 := by
  induction fuel generalizing addr t x with
  | zero => omega
  | succ fuel ih =>
      have hn := hnext addr haddr hlt
      obtain ⟨hgt, hne, hsame⟩ := cut_spec hS hlt hn
      obtain ⟨m, hm⟩ := hf (addr / S % M) addr (next addr) (t (addr / S % M)) x haddr
        (hA _ haddr hlt) hgt hne hsame
      have hfirst := hm.slot hsame
      cases hfail : (f (addr / S % M) addr (next addr) (t (addr / S % M)) x).2.2 with
      | true =>
          rw [hfail] at hfirst
          refine ⟨m, ?_⟩
          rw [eachSlot_fail hfail]
          exact hfirst.extend hne
      | false =>
          rw [hfail] at hfirst
          obtain rfl := hfirst.done rfl
          cases hmore : again (next addr) with
          | false =>
              have heq : next addr = e := by
                by_contra hc
                rw [(hagain _).mpr hc] at hmore
                cases hmore
              refine ⟨next addr, ?_⟩
              rw [eachSlot_last hfail hmore, ← heq]
              exact hfirst
          | true =>
              have hlt' : next addr < e := lt_of_le_of_ne hne ((hagain _).mp hmore)
              obtain ⟨hi, hq, hdec⟩ := cut_more (M := M) hS hblock hn hlt'
              have hrest : next addr / S ≤ (e - 1) / S := Nat.div_le_div_right (by omega)
              obtain ⟨m', hm'⟩ := ih (t := Function.update t (addr / S % M)
                  (f (addr / S % M) addr (next addr) (t (addr / S % M)) x).1)
                (x := (f (addr / S % M) addr (next addr) (t (addr / S % M)) x).2.1)
                (hA _ haddr hlt) hlt' (by rw [hq]; exact hblock) (by omega)
              rw [hi] at hm'
              refine ⟨m', ?_⟩
              rw [eachSlot_more hfail hmore]
              refine hfirst.trans hm' (fun b hb ↦ hb.trans hq.symm) fun b hlo hhi ↦ ?_
              -- the later rounds meet the slots behind the first as they were
              have hb : b / (M * S) = addr / (M * S) := cut_slot hblock (hgt.le.trans hlo) hhi
              have hbS : next addr / S ≤ b / S := Nat.div_le_div_right hlo
              rw [Function.update_of_ne]
              intro hc
              have hslot := (slot_eq_iff hb).mp hc
              omega

/-- Nothing is left to do for `[addr, e)`, or for the addresses up to one that is stuck (`K`). -/
def IdleUpTo (old new : Nat → V) (K : Nat → Prop) (addr e : Nat) : Prop :=
  (∀ b, addr ≤ b → b < e → old b = new b) ∨
    ∃ m, addr ≤ m ∧ m < e ∧ K m ∧ ∀ b, addr ≤ b → b < m → old b = new b

section Idle

variable {old old' new : Nat → V} {K K' : Nat → Prop} {addr n e : Nat}

theorem IdleUpTo.congr (hold : ∀ b, addr ≤ b → b < e → old b = old' b)
    (hK : ∀ b, addr ≤ b → b < e → (K b ↔ K' b)) :
    IdleUpTo old new K addr e ↔ IdleUpTo old' new K' addr e := by
  constructor
  · rintro (hall | ⟨m, h₁, h₂, hm, hbelow⟩)
    · exact .inl fun b hlo hhi ↦ (hold b hlo hhi).symm.trans (hall b hlo hhi)
    · exact .inr ⟨m, h₁, h₂, (hK m h₁ h₂).mp hm, fun b hlo hhi ↦
        (hold b hlo (hhi.trans h₂)).symm.trans (hbelow b hlo hhi)⟩
  · rintro (hall | ⟨m, h₁, h₂, hm, hbelow⟩)
    · exact .inl fun b hlo hhi ↦ (hold b hlo hhi).trans (hall b hlo hhi)
    · exact .inr ⟨m, h₁, h₂, (hK m h₁ h₂).mpr hm, fun b hlo hhi ↦
        (hold b hlo (hhi.trans h₂)).trans (hbelow b hlo hhi)⟩

/-- If something is left to do before `n`, what comes after `n` does not matter. -/
theorem idleUpTo_stop (hne : n ≤ e) (hopen : ∃ b, addr ≤ b ∧ b < n ∧ old b ≠ new b) :
    IdleUpTo old new K addr n ↔ IdleUpTo old new K addr e := by
  obtain ⟨b₀, hlo₀, hhi₀, hb₀⟩ := hopen
  constructor
  · rintro (hall | ⟨m, h₁, h₂, hm, hbelow⟩)
    · exact absurd (hall b₀ hlo₀ hhi₀) hb₀
    · exact .inr ⟨m, h₁, h₂.trans_le hne, hm, hbelow⟩
  · rintro (hall | ⟨m, h₁, h₂, hm, hbelow⟩)
    · exact absurd (hall b₀ hlo₀ (hhi₀.trans_le hne)) hb₀
    · refine .inr ⟨m, h₁, ?_, hm, hbelow⟩
      by_contra hc
      exact hb₀ (hbelow b₀ hlo₀ (by omega))

/-- If nothing is stuck before `n`, the two parts count. -/
theorem idleUpTo_split (hle : addr ≤ n) (hne : n ≤ e) (hfree : ∀ m, addr ≤ m → m < n → ¬ K m) :
    IdleUpTo old new K addr e ↔ IdleUpTo old new K addr n ∧ IdleUpTo old new K n e := by
  constructor
  · rintro (hall | ⟨m, h₁, h₂, hm, hbelow⟩)
    · exact ⟨.inl fun b hlo hhi ↦ hall b hlo (by omega), .inl fun b hlo hhi ↦ hall b (by omega) hhi⟩
    · have hnm : n ≤ m := by
        by_contra hc
        exact hfree m h₁ (by omega) hm
      exact ⟨.inl fun b hlo hhi ↦ hbelow b hlo (by omega),
        .inr ⟨m, hnm, h₂, hm, fun b hlo hhi ↦ hbelow b (by omega) hhi⟩⟩
  · rintro ⟨hall | ⟨m, h₁, h₂, hm, -⟩, hrest⟩
    · rcases hrest with hrest | ⟨m, h₁, h₂, hm, hbelow⟩
      · refine .inl fun b hlo hhi ↦ ?_
        rcases Nat.lt_or_ge b n with h | h
        · exact hall b hlo h
        · exact hrest b h hhi
      · refine .inr ⟨m, hle.trans h₁, h₂, hm, fun b hlo hhi ↦ ?_⟩
        rcases Nat.lt_or_ge b n with h | h
        · exact hall b hlo h
        · exact hbelow b h hhi
    · exact absurd hm (hfree m h₁ h₂)

end Idle

/-- **When a loop leaves its table as it is**: exactly if every round it makes does.  Stuck addresses
are refused ones, and these are not done yet. -/
theorem eachSlot_idle {S M e : Nat} (hS : 0 < S)
    {next : Nat → Nat} {again : Nat → Bool} {f : Nat → Nat → Nat → ε → τ → ε × τ × Bool}
    {look : ε → Nat → V} {new : Nat → V} {K : ε → Nat → Prop} {A : Nat → Prop}
    (hA : ∀ a, A a → a < e → A (next a))
    (hnext : ∀ a, A a → a < e → next a = min ((a / S + 1) * S) e)
    (hagain : ∀ a, again a = true ↔ a ≠ e)
    (hf : ∀ i a n s x, A a → A n → a < n → n ≤ e → a / S = (n - 1) / S →
      ((f i a n s x).1 = s ↔ IdleUpTo (look s) new (K s) a n))
    (hstuck : ∀ i a n s x, A a → A n → a < n → n ≤ e → a / S = (n - 1) / S →
      (∃ m, a ≤ m ∧ m < n ∧ K s m) → (f i a n s x).2.2 = true)
    (hdone : ∀ i a n s x, A a → A n → a < n → n ≤ e → a / S = (n - 1) / S →
      (f i a n s x).2.2 = true → ∃ b, a ≤ b ∧ b < n ∧ look s b ≠ new b)
    {fuel addr : Nat} {t : Nat → ε} {x : τ} (haddr : A addr) (hlt : addr < e)
    (hblock : addr / (M * S) = (e - 1) / (M * S)) (hfuel : (e - 1) / S - addr / S < fuel) :
    (eachSlot next again f fuel (addr / S % M) addr t x).1 = t ↔
      IdleUpTo (fun b ↦ look (t (b / S % M)) b) new (fun b ↦ K (t (b / S % M)) b) addr e := by
  induction fuel generalizing addr x with
  | zero => omega
  | succ fuel ih =>
      obtain ⟨i, hi⟩ : ∃ i, i = addr / S % M := ⟨_, rfl⟩
      have hn := hnext addr haddr hlt
      obtain ⟨hgt, hne, hsame⟩ := cut_spec hS hlt hn
      -- the slot of an address of the first piece
      have hslot : ∀ b, addr ≤ b → b < next addr → b / S % M = i := by
        intro b hlo hhi
        rw [cut_slot hsame hlo hhi, hi]
      have hround := hf i addr (next addr) (t i) x haddr (hA _ haddr hlt) hgt hne hsame
      have hup : Function.update t i (f i addr (next addr) (t i) x).1 = t ↔
          (f i addr (next addr) (t i) x).1 = t i := by
        constructor
        · intro h
          have h' := congrFun h i
          rwa [Function.update_self] at h'
        · intro h
          rw [h, Function.update_eq_self]
      have hpiece : (f i addr (next addr) (t i) x).1 = t i ↔
          IdleUpTo (fun b ↦ look (t (b / S % M)) b) new (fun b ↦ K (t (b / S % M)) b) addr
            (next addr) :=
        hround.trans (IdleUpTo.congr (fun b hlo hhi ↦ by simp only [hslot b hlo hhi])
          fun b hlo hhi ↦ by simp only [hslot b hlo hhi])
      rw [← hi]
      cases hfail : (f i addr (next addr) (t i) x).2.2 with
      | true =>
          obtain ⟨b₀, hlo, hhi, hopen⟩ :=
            hdone i addr (next addr) (t i) x haddr (hA _ haddr hlt) hgt hne hsame hfail
          rw [eachSlot_fail hfail]
          refine hup.trans (hpiece.trans (idleUpTo_stop hne ⟨b₀, hlo, hhi, ?_⟩))
          simpa only [hslot b₀ hlo hhi] using hopen
      | false =>
          -- an address of the first piece that is stuck would have stopped the round
          have hfree : ∀ m, addr ≤ m → m < next addr → ¬ K (t (m / S % M)) m := by
            intro m h₁ h₂ hK
            rw [hslot m h₁ h₂] at hK
            rw [hstuck i addr (next addr) (t i) x haddr (hA _ haddr hlt) hgt hne hsame ⟨m, h₁, h₂, hK⟩]
              at hfail
            cases hfail
          rw [idleUpTo_split hgt.le hne hfree]
          cases hmore : again (next addr) with
          | false =>
              have heq : next addr = e := by
                by_contra hc
                rw [(hagain _).mpr hc] at hmore
                cases hmore
              rw [eachSlot_last hfail hmore]
              refine hup.trans (hpiece.trans (and_iff_left (.inl fun b hlo hhi ↦ ?_)).symm)
              exact absurd hhi (by omega)
          | true =>
              have hlt' : next addr < e := lt_of_le_of_ne hne ((hagain _).mp hmore)
              obtain ⟨hi', hq, hdec⟩ := cut_more (M := M) hS hblock hn hlt'
              have hrest : next addr / S ≤ (e - 1) / S := Nat.div_le_div_right (by omega)
              have hih := ih (x := (f i addr (next addr) (t i) x).2.1) (hA _ haddr hlt) hlt'
                (by rw [hq]; exact hblock) (by omega)
              rw [hi', ← hi] at hih
              rw [eachSlot_more hfail hmore]
              constructor
              · intro hres
                -- later rounds leave the first slot alone, so the first round did not change it
                have hfirst : (f i addr (next addr) (t i) x).1 = t i := by
                  have h := congrFun hres i
                  rwa [eachSlot_before (Nat.lt_succ_self i), Function.update_self] at h
                refine ⟨hpiece.mp hfirst, hih.mp ?_⟩
                rwa [hup.mpr hfirst] at hres
              · rintro ⟨hidle, hlater⟩
                rw [hup.mpr (hpiece.mpr hidle)]
                exact hih.mpr hlater

end Prefix

end ShadowStack.Lib
