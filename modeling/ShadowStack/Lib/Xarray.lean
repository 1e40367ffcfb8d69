import Mathlib.Data.Finset.Card
import Mathlib.Data.Finset.Max

/-!
# Index arrays with reservations

An `Xarray` is the abstract content of a kernel `struct xarray`: finitely many indices are in use,
and an index in use either holds an entry or is *reserved* (the kernel stores `XA_ZERO_ENTRY`
there).  A reservation blocks the index for `alloc` and `insert` but reads back as nothing, which
is the whole difference between `slot` and `load`.

The finite set of used indices is carried along with its defining property, so that arrays can be
counted and searched without leaving computable definitions; it is determined by `slot`
(`Xarray.ext_slot`).
-/

universe u

namespace ShadowStack.Lib

/-- What an index in use holds. -/
inductive Slot (α : Type u) where
  /-- `XA_ZERO_ENTRY`: the index is taken but holds nothing yet. -/
  | reserved
  /-- An ordinary entry. -/
  | entry (a : α)
deriving DecidableEq, Repr

/-- The content of an xarray. -/
structure Xarray (α : Type u) where
  /-- What each index holds; `none` for an index not in use. -/
  slot : Nat → Option (Slot α)
  /-- The indices in use. -/
  used : Finset Nat
  /-- `used` lists exactly the indices that hold something. -/
  mem_used : ∀ i, i ∈ used ↔ slot i ≠ none

namespace Xarray

variable {α : Type u}

/-- Two arrays with the same slots are equal. -/
theorem ext_slot {x y : Xarray α} (h : ∀ i, x.slot i = y.slot i) : x = y := by
  obtain ⟨sx, ux, hx⟩ := x
  obtain ⟨sy, uy, hy⟩ := y
  obtain rfl : sx = sy := funext h
  obtain rfl : ux = uy := Finset.ext fun i ↦ (hx i).trans (hy i).symm
  rfl

/-- The array without entries (`xa_init`). -/
def empty : Xarray α := ⟨fun _ ↦ none, ∅, by simp⟩

instance : Inhabited (Xarray α) := ⟨empty⟩

/-- The entry at an index (`xa_load`): a reservation reads as nothing. -/
def load (x : Xarray α) (i : Nat) : Option α :=
  match x.slot i with
  | some (.entry a) => some a
  | _ => none

/-- Overwrite one index (`xa_store`). -/
def set (x : Xarray α) (i : Nat) (s : Slot α) : Xarray α where
  slot := Function.update x.slot i (some s)
  used := insert i x.used
  mem_used j := by
    by_cases h : j = i
    · simp [h]
    · simp [h, x.mem_used j]

/-- Empty one index, releasing a reservation too (`xa_erase`, whose result is `load`). -/
def erase (x : Xarray α) (i : Nat) : Xarray α where
  slot := Function.update x.slot i none
  used := x.used.erase i
  mem_used j := by
    by_cases h : j = i
    · simp [h]
    · simp [h, x.mem_used j]

@[simp] theorem slot_empty (i : Nat) : (empty : Xarray α).slot i = none := rfl
@[simp] theorem used_empty : (empty : Xarray α).used = ∅ := rfl
@[simp] theorem load_empty (i : Nat) : (empty : Xarray α).load i = none := rfl

@[simp] theorem slot_set (x : Xarray α) (i j : Nat) (s : Slot α) :
    (x.set i s).slot j = if j = i then some s else x.slot j := by
  simp [set, Function.update_apply]

@[simp] theorem slot_erase (x : Xarray α) (i j : Nat) :
    (x.erase i).slot j = if j = i then none else x.slot j := by
  simp [erase, Function.update_apply]

/-- An entry is loaded exactly where it is stored. -/
theorem load_eq_some {x : Xarray α} {i : Nat} {a : α} :
    x.load i = some a ↔ x.slot i = some (.entry a) := by
  unfold load
  split
  · next b hb => rw [hb]; simp
  · next hne => exact ⟨fun h ↦ by simp at h, fun h ↦ absurd h (hne a)⟩

@[simp] theorem load_set_entry (x : Xarray α) (i j : Nat) (a : α) :
    (x.set i (.entry a)).load j = if j = i then some a else x.load j := by
  unfold load
  by_cases h : j = i <;> simp [h]

@[simp] theorem load_set_reserved (x : Xarray α) (i j : Nat) :
    (x.set i .reserved).load j = if j = i then none else x.load j := by
  unfold load
  by_cases h : j = i <;> simp [h]

@[simp] theorem load_erase (x : Xarray α) (i j : Nat) :
    (x.erase i).load j = if j = i then none else x.load j := by
  unfold load
  by_cases h : j = i <;> simp [h]

/-- An index that holds nothing loads nothing. -/
theorem load_eq_none_of_slot {x : Xarray α} {i : Nat} (h : x.slot i = none) :
    x.load i = none := by
  simp [load, h]

/-- Storing and then erasing an index that was free changes nothing. -/
theorem erase_set {x : Xarray α} {i : Nat} {s : Slot α} (h : x.slot i = none) :
    (x.set i s).erase i = x := by
  refine ext_slot fun j ↦ ?_
  by_cases hj : j = i
  · simp [hj, h]
  · simp [hj]

/-- A later store at the same index wins. -/
@[simp] theorem set_set (x : Xarray α) (i : Nat) (s t : Slot α) :
    (x.set i s).set i t = x.set i t := by
  refine ext_slot fun j ↦ ?_
  by_cases hj : j = i <;> simp [hj]

/-! ## Counting entries -/

/-- The indices that hold an entry. -/
def entries (x : Xarray α) : Finset Nat := x.used.filter fun i ↦ (x.load i).isSome

/-- The number of entries; reservations do not count. -/
def count (x : Xarray α) : Nat := x.entries.card

theorem mem_entries {x : Xarray α} {i : Nat} : i ∈ x.entries ↔ (x.load i).isSome := by
  simp only [entries, Finset.mem_filter, and_iff_right_iff_imp, x.mem_used]
  intro h hn
  simp [load_eq_none_of_slot hn] at h

@[simp] theorem count_empty : (empty : Xarray α).count = 0 := rfl

/-- An array has no entry exactly when every index loads nothing. -/
theorem count_eq_zero {x : Xarray α} : x.count = 0 ↔ ∀ i, x.load i = none := by
  rw [count, Finset.card_eq_zero, Finset.eq_empty_iff_forall_notMem]
  simp [mem_entries]

/-- Storing an entry where there was none adds one. -/
theorem count_set_entry {x : Xarray α} {i : Nat} {a : α} (h : x.load i = none) :
    (x.set i (.entry a)).count = x.count + 1 := by
  have hne : i ∉ x.entries := by simp [mem_entries, h]
  rw [count, count, ← Finset.card_insert_of_notMem hne]
  refine congrArg Finset.card (Finset.ext fun j ↦ ?_)
  by_cases hj : j = i <;> simp [mem_entries, hj]

/-- Erasing an entry removes one. -/
theorem count_erase_some {x : Xarray α} {i : Nat} {a : α} (h : x.load i = some a) :
    (x.erase i).count + 1 = x.count := by
  have hmem : i ∈ x.entries := by simp [mem_entries, h]
  rw [count, count, ← Finset.card_erase_add_one hmem]
  refine congrArg (· + 1) (congrArg Finset.card (Finset.ext fun j ↦ ?_))
  by_cases hj : j = i <;> simp [mem_entries, hj]

/-! ## The lowest free index -/

/-- The lowest free index among the `n` indices from `lo` on. -/
def findFree (x : Xarray α) (lo : Nat) : Nat → Option Nat
  | 0 => none
  | n + 1 => if (x.slot lo).isNone then some lo else findFree x (lo + 1) n

/-- The lowest free index of the inclusive range `[lo, hi]` (the search of `xa_alloc` with
`XA_LIMIT(lo, hi)`). -/
def lowestFree (x : Xarray α) (lo hi : Nat) : Option Nat := x.findFree lo (hi + 1 - lo)

/-- The search returns a free index of its range with nothing free below it. -/
theorem findFree_eq_some {x : Xarray α} {lo n i : Nat} (h : x.findFree lo n = some i) :
    lo ≤ i ∧ i < lo + n ∧ x.slot i = none ∧ ∀ j, lo ≤ j → j < i → x.slot j ≠ none := by
  induction n generalizing lo with
  | zero => simp [findFree] at h
  | succ n ih =>
      unfold findFree at h
      split at h
      · next hfree =>
          obtain rfl : lo = i := Option.some.inj h
          exact ⟨le_rfl, by omega, Option.isNone_iff_eq_none.mp hfree, by omega⟩
      · next hused =>
          obtain ⟨h₁, h₂, h₃, h₄⟩ := ih h
          refine ⟨by omega, by omega, h₃, fun j hj hji ↦ ?_⟩
          rcases Nat.eq_or_lt_of_le hj with rfl | hlt
          · simpa [Option.isNone_iff_eq_none] using hused
          · exact h₄ j (by omega) hji

/-- The search only fails when its whole range is in use. -/
theorem findFree_eq_none {x : Xarray α} {lo n : Nat} (h : x.findFree lo n = none) (j : Nat)
    (hlo : lo ≤ j) (hhi : j < lo + n) : x.slot j ≠ none := by
  induction n generalizing lo with
  | zero => omega
  | succ n ih =>
      unfold findFree at h
      split at h
      · simp at h
      · next hused =>
          rcases Nat.eq_or_lt_of_le hlo with rfl | hlt
          · simpa [Option.isNone_iff_eq_none] using hused
          · exact ih h (by omega) (by omega)

theorem lowestFree_eq_some {x : Xarray α} {lo hi i : Nat} (h : x.lowestFree lo hi = some i) :
    lo ≤ i ∧ i ≤ hi ∧ x.slot i = none ∧ ∀ j, lo ≤ j → j < i → x.slot j ≠ none := by
  obtain ⟨h₁, h₂, h₃, h₄⟩ := findFree_eq_some h
  exact ⟨h₁, by omega, h₃, h₄⟩

/-- An index that is free, with nothing free below it in the range, is the one found. -/
theorem lowestFree_eq_of {x : Xarray α} {lo hi i : Nat} (hlo : lo ≤ i) (hhi : i ≤ hi)
    (hfree : x.slot i = none) (hbelow : ∀ j, lo ≤ j → j < i → x.slot j ≠ none) :
    x.lowestFree lo hi = some i := by
  cases h : x.lowestFree lo hi with
  | none => exact absurd hfree (findFree_eq_none h i hlo (by omega))
  | some k =>
      obtain ⟨hk, -, hkfree, hkbelow⟩ := lowestFree_eq_some h
      rcases Nat.lt_trichotomy i k with hik | rfl | hki
      · exact absurd hfree (hkbelow i hlo hik)
      · rfl
      · exact absurd hkfree (hbelow k hk hki)

/-! ## Searching the entries in index order -/

/-- The entries are below some index. -/
theorem exists_bound (x : Xarray α) : ∃ b, ∀ i a, x.load i = some a → i < b := by
  refine ⟨x.entries.sup (fun i ↦ i) + 1, fun i a hi ↦ Nat.lt_succ_of_le ?_⟩
  have hmem : i ∈ x.entries := mem_entries.mpr (by rw [hi]; rfl)
  exact Finset.le_sup (f := fun i ↦ i) hmem

/-- The lowest index whose entry satisfies `p` (an `xa_for_each` left at the first match), with
the entry. -/
def find? (x : Xarray α) (p : α → Bool) : Option (Nat × α) :=
  let hits := x.used.filter fun i ↦ (x.load i).any p
  if h : hits.Nonempty then
    (x.load (hits.min' h)).map fun a ↦ (hits.min' h, a)
  else none

/-- What the search finds: an entry that satisfies `p`, at the lowest such index. -/
theorem find?_eq_some {x : Xarray α} {p : α → Bool} {i : Nat} {a : α}
    (h : x.find? p = some (i, a)) :
    x.load i = some a ∧ p a ∧ ∀ j < i, ∀ b, x.load j = some b → ¬ p b := by
  unfold find? at h
  simp only at h
  split at h
  · next hne =>
      obtain ⟨b, hb, heq⟩ := Option.map_eq_some_iff.mp h
      obtain ⟨rfl, rfl⟩ := Prod.mk.inj heq
      have hmem := Finset.min'_mem _ hne
      have hp : (x.load _).any p := (Finset.mem_filter.mp hmem).2
      rw [hb] at hp
      refine ⟨hb, by simpa using hp, fun j hj c hc hpc ↦ ?_⟩
      have hjused : j ∈ x.used := (x.mem_used j).mpr fun hn ↦ by
        simp [load_eq_none_of_slot hn] at hc
      have hhit : j ∈ x.used.filter fun i ↦ (x.load i).any p :=
        Finset.mem_filter.mpr ⟨hjused, by simp [hc, hpc]⟩
      exact absurd (Finset.min'_le _ j hhit) (by omega)
  · simp at h

/-- The search fails only when no entry satisfies `p`. -/
theorem find?_eq_none {x : Xarray α} {p : α → Bool} (h : x.find? p = none) {i : Nat} {a : α}
    (ha : x.load i = some a) : ¬ p a := by
  intro hp
  have hused : i ∈ x.used := (x.mem_used i).mpr fun hn ↦ by
    simp [load_eq_none_of_slot hn] at ha
  have hne : (x.used.filter fun i ↦ (x.load i).any p).Nonempty :=
    ⟨i, Finset.mem_filter.mpr ⟨hused, by simp [ha, hp]⟩⟩
  have hmem := Finset.min'_mem _ hne
  have hsome := (Finset.mem_filter.mp hmem).2
  unfold find? at h
  rw [dif_pos hne, Option.map_eq_none_iff] at h
  rw [h] at hsome
  simp at hsome

/-- The entry at the lowest index from `i` on (`xa_find`), with its index. -/
def next (x : Xarray α) (i : Nat) : Option (Nat × α) :=
  let hits := x.entries.filter (i ≤ ·)
  if h : hits.Nonempty then
    (x.load (hits.min' h)).map fun a ↦ (hits.min' h, a)
  else none

theorem next_eq_some {x : Xarray α} {i j : Nat} {a : α} (h : x.next i = some (j, a)) :
    i ≤ j ∧ x.load j = some a ∧ ∀ k, i ≤ k → k < j → x.load k = none := by
  unfold next at h
  simp only at h
  split at h
  · next hne =>
      obtain ⟨b, hb, heq⟩ := Option.map_eq_some_iff.mp h
      obtain ⟨rfl, rfl⟩ := Prod.mk.inj heq
      refine ⟨(Finset.mem_filter.mp (Finset.min'_mem _ hne)).2, hb, fun k hik hkj ↦ ?_⟩
      by_contra hk
      have hmem : k ∈ x.entries.filter (i ≤ ·) :=
        Finset.mem_filter.mpr ⟨mem_entries.mpr (Option.isSome_iff_ne_none.mpr hk), hik⟩
      exact absurd (Finset.min'_le _ k hmem) (by omega)
  · simp at h

/-- An entry from `i` on is found, or one before it. -/
theorem next_of_load {x : Xarray α} {i k : Nat} {b : α} (hik : i ≤ k) (hk : x.load k = some b) :
    ∃ j a, x.next i = some (j, a) ∧ i ≤ j ∧ j ≤ k ∧ x.load j = some a := by
  have hne : (x.entries.filter (i ≤ ·)).Nonempty :=
    ⟨k, Finset.mem_filter.mpr ⟨mem_entries.mpr (by rw [hk]; rfl), hik⟩⟩
  obtain ⟨a, ha⟩ := Option.isSome_iff_exists.mp
    (mem_entries.mp (Finset.mem_filter.mp (Finset.min'_mem _ hne)).1)
  have hnext : x.next i = some ((x.entries.filter (i ≤ ·)).min' hne, a) := by
    unfold next
    rw [dif_pos hne, ha]
    rfl
  obtain ⟨hij, hj, hbefore⟩ := next_eq_some hnext
  refine ⟨_, a, hnext, hij, ?_, hj⟩
  by_contra hlt
  rw [hbefore k hik (not_le.mp hlt)] at hk
  cases hk

end Xarray

end ShadowStack.Lib
