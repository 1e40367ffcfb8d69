import Mathlib.Data.List.Nodup
import ShadowStack.Lkm.Remove

/-!
# The p4d tables `sa_remove` gives back

`sa_free_p4d` frees `pgd_page` of a slot once the p4d table below the slot has no entry.  With five
levels that page is the p4d table.  With four levels there is no such table: `p4d_offset` returns
the pgd slot, the slot of a populated gigabyte range keeps its entry and nothing is freed, but an
empty slot looks like a table without entries, and the page of frame `0` is passed on.
-/

namespace ShadowStack.Lkm

open Lib

/-- The calls of `my_p4d_free` in one `sa_remove`. -/
def saRemoveFrees (l5 : Bool) (mm : Mm) (start end_ : Nat) : Option (List P4dFree) :=
  (saRemoveLoop l5 start end_ ⟨mm.pgd, []⟩).map Removal.frees

/-- What the call frees is the p4d table that was linked at its slot, and the table has no entry
left. -/
def P4dFree.Proper (l5 : Bool) (mm : Mm) (f : P4dFree) : Prop :=
  l5 = true ∧ ∃ t₀ t : P4dTable, mm.pgd f.slot = .table t₀ ∧ f.entry = .table t ∧
    t.page = t₀.page ∧ f.page = some t.page ∧ ∀ k < ptrs, t.slot k = .none

/-- `sa_remove` frees linked, empty p4d tables only, each of them once. -/
def FreesEmptyTables (l5 : Bool) (mm : Mm) (start end_ : Nat) : Prop :=
  ∃ frees, saRemoveFrees l5 mm start end_ = some frees ∧ (∀ f ∈ frees, f.Proper l5 mm) ∧
    (frees.map P4dFree.slot).Nodup

/-- With four levels the slot is populated; with five, an empty table is not behind a bad entry. -/
def SafeSlot (l5 : Bool) (e : Entry P4dTable) : Prop :=
  if l5 then ∀ t, e = .bad t → ∃ k < ptrs, t.slot k ≠ .none else (p4dStart e).slot 0 ≠ .none

/-! ## The walk ends, and leaves entries where there are entries -/

/-- A walk gets through, and changes slots only as `R` says. -/
def Walks {ε : Type} (R : ε → ε → Prop) (walk : Nat → Nat → Cursor ε → Option (Cursor ε)) : Prop :=
  ∀ a n c, a < n → n ≤ 2 ^ 64 - 2 ^ 12 →
    ∃ c', walk a n c = some c' ∧ ∀ j, R (c.table j) (c'.table j)

theorem saRemovePte_walks : Walks (fun _ _ ↦ True) saRemovePte := by
  intro a n c hlt hn
  exact forRange_rel (fun _ ↦ trivial) (fun _ _ _ _ _ ↦ trivial) (by decide)
    (fun b hb ↦ pteAddrEnd_eq hb hn) (fun _ _ pte _ _ ↦ ⟨pte.clear, rfl, trivial⟩) hlt.le
    (fun _ ↦ lt_rounds 12 (by omega) (by omega)) c.pos c.table

/-- Both entries are none, or neither is. -/
def SameNone {ε : Type} (e e' : Entry ε) : Prop := e.isNone = e'.isNone

/-- One level up: what is linked stays linked. -/
theorem Walks.above {ε : Type} {R : ε → ε → Prop} {walk : Nat → Nat → Cursor ε → Option (Cursor ε)}
    (h : Walks R walk) {shift : Nat} (hs : shift < 64) (idx : Nat → Nat) :
    Walks SameNone fun a n ↦ forRange (fun b ↦ addrEnd shift b n)
      (Cursor.round (removeBelow idx walk)) n (rounds shift a n) a := by
  intro a n c hlt hn
  refine forRange_rel (R := SameNone) (fun _ ↦ rfl) (fun _ _ _ h₁ h₂ ↦ h₁.trans h₂) (Nat.two_pow_pos _)
    (fun b hb ↦ addrEnd_eq_min hs hb (by omega)) (fun b m e hbm hmn ↦ ?_) hlt.le
    (fun _ ↦ lt_rounds shift (by omega) (by omega)) c.pos c.table
  cases hchild : e.child with
  | none => exact ⟨e, by rw [removeBelow, hchild], rfl⟩
  | some t =>
      obtain ⟨d, hd, -⟩ := h b m ⟨idx b, t.slot⟩ hbm (hmn.trans hn)
      refine ⟨e.setChild { t with slot := d.table }, ?_, ?_⟩
      · rw [removeBelow, hchild]
        dsimp only
        rw [hd]
        rfl
      · cases e with
        | none => cases hchild
        | bad u => rfl
        | table u => rfl

theorem saRemoveP4d_walks : Walks SameNone saRemoveP4d :=
  ((saRemovePte_walks.above (by decide) pteIndex).above (by decide) pmdIndex).above (by decide)
    pudIndex

/-! ## What is known along the loop -/

/-- Two pgd slots with entries at the same places; with five levels, with the same table. -/
structure SameShape (l5 : Bool) (e e' : Entry P4dTable) : Prop where
  slots : ∀ k, SameNone ((p4dStart e).slot k) ((p4dStart e').slot k)
  none : l5 = true → e.isNone = e'.isNone
  table : l5 = true → e.isTable = e'.isTable
  page : l5 = true → e.child.map Table.page = e'.child.map Table.page

theorem SameShape.refl (l5 : Bool) (e : Entry P4dTable) : SameShape l5 e e :=
  ⟨fun _ ↦ rfl, fun _ ↦ rfl, fun _ ↦ rfl, fun _ ↦ rfl⟩

theorem SameShape.trans {l5 : Bool} {e₁ e₂ e₃ : Entry P4dTable} (h : SameShape l5 e₁ e₂)
    (h' : SameShape l5 e₂ e₃) : SameShape l5 e₁ e₃ where
  slots k := (h.slots k).trans (h'.slots k)
  none h5 := (h.none h5).trans (h'.none h5)
  table h5 := (h.table h5).trans (h'.table h5)
  page h5 := (h.page h5).trans (h'.page h5)

/-- The slot after `sa_remove_p4d`. -/
theorem sameShape_setChild {l5 : Bool} {e : Entry P4dTable} {slot : Nat → Entry PudTable}
    (hskip : ¬(l5 && e.isNone) = true) (h : ∀ k, SameNone ((p4dStart e).slot k) (slot k)) :
    SameShape l5 e (e.setChild { p4dStart e with slot }) := by
  cases e with
  | none =>
      have hl5 : l5 ≠ true := fun hl5 ↦ hskip (by rw [hl5]; rfl)
      exact ⟨h, fun h5 ↦ absurd h5 hl5, fun h5 ↦ absurd h5 hl5, fun h5 ↦ absurd h5 hl5⟩
  | bad t => exact ⟨h, fun _ ↦ rfl, fun _ ↦ rfl, fun _ ↦ rfl⟩
  | table t => exact ⟨h, fun _ ↦ rfl, fun _ ↦ rfl, fun _ ↦ rfl⟩

theorem isNone_iff {ε : Type} {e : Entry ε} : e.isNone = true ↔ e = .none := by
  cases e <;> simp [Entry.isNone]

/-- Emptiness is a matter of shape. -/
theorem SameShape.p4dEmpty {l5 : Bool} {e e' : Entry P4dTable} (h : SameShape l5 e e') :
    p4dEmpty l5 (p4dStart e') = true ↔ ∀ k < ptrsPerP4d l5, (p4dStart e).slot k = .none := by
  rw [p4dEmpty_iff]
  exact forall₂_congr fun k _ ↦ by rw [← isNone_iff, ← isNone_iff, h.slots k]

/-- An unsafe slot looks empty to `sa_free_p4d`. -/
theorem empty_of_not_safe {l5 : Bool} {e : Entry P4dTable} (h : ¬SafeSlot l5 e) :
    ∀ k < ptrsPerP4d l5, (p4dStart e).slot k = .none := by
  cases l5 with
  | false =>
      intro k hk
      obtain rfl : k = 0 := Nat.lt_one_iff.mp hk
      exact not_not.mp h
  | true =>
      simp only [SafeSlot, if_true, not_forall, not_exists, not_and, not_not] at h
      obtain ⟨t, rfl, hall⟩ := h
      exact hall

theorem P4dFree.Proper.safeSlot {l5 : Bool} {mm : Mm} {f : P4dFree} (h : f.Proper l5 mm) :
    SafeSlot l5 (mm.pgd f.slot) := by
  obtain ⟨rfl, t₀, t, ht₀, -⟩ := h
  rw [ht₀]
  intro u hu
  cases hu

/-- The call of `sa_free_p4d` on a safe slot that looks empty is proper. -/
theorem proper_of_safe {l5 : Bool} {mm : Mm} {i : Nat} {e : Entry P4dTable}
    (hshape : SameShape l5 (mm.pgd i) e) (hsome : l5 = true → e.isNone = false)
    (hempty : p4dEmpty l5 (p4dStart e) = true) (hsafe : SafeSlot l5 (mm.pgd i)) :
    P4dFree.Proper l5 mm ⟨i, e, pgdPage l5 e⟩ := by
  have hnone := hshape.p4dEmpty.mp hempty
  cases l5 with
  | false => exact absurd (hnone 0 Nat.one_pos) hsafe
  | true =>
      refine ⟨rfl, ?_⟩
      cases hmm : mm.pgd i with
      | none =>
          rw [hmm] at hshape
          exact nomatch (hshape.none rfl).trans (hsome rfl)
      | bad t =>
          rw [hmm] at hnone
          obtain ⟨k, hk, hne⟩ := hsafe t hmm
          exact absurd (hnone k hk) hne
      | table t₀ =>
          rw [hmm] at hshape
          cases e with
          | none => exact nomatch hsome rfl
          | bad t => exact nomatch hshape.table rfl
          | table t =>
              exact ⟨t₀, t, rfl, rfl, (Option.some.inj (hshape.page rfl)).symm, rfl,
                p4dEmpty_iff.mp hempty⟩

/-- The loop of `sa_remove` at address `a`. -/
structure RemoveInv (l5 : Bool) (mm : Mm) (start a : Nat) (s : Removal) : Prop where
  le : start ≤ a
  /-- A slot has its shape from the beginning, or its table was freed. -/
  shape : ∀ j, SameShape l5 (mm.pgd j) (s.pgd j) ∨
    l5 = true ∧ s.pgd j = .none ∧ ∃ f ∈ s.frees, f.slot = j
  gone : l5 = true → ∀ f ∈ s.frees, s.pgd f.slot = .none
  nodup : l5 = true → (s.frees.map P4dFree.slot).Nodup
  visited : ∀ f ∈ s.frees, ∃ b, start ≤ b ∧ b < a ∧ f.slot = pgdIndex l5 b
  proper : ∀ f ∈ s.frees, SafeSlot l5 (mm.pgd f.slot) → f.Proper l5 mm
  caught : ∀ b, start ≤ b → b < a → ¬SafeSlot l5 (mm.pgd (pgdIndex l5 b)) →
    ∃ f ∈ s.frees, f.slot = pgdIndex l5 b

theorem RemoveInv.start (l5 : Bool) (mm : Mm) (start : Nat) :
    RemoveInv l5 mm start start ⟨mm.pgd, []⟩ where
  le := le_rfl
  shape _ := .inl (.refl l5 _)
  gone _ _ hf := nomatch hf
  nodup _ := List.nodup_nil
  visited _ hf := nomatch hf
  proper _ hf := nomatch hf
  caught _ hlo hhi := absurd hlo hhi.not_ge

section Round

variable {l5 : Bool} {mm : Mm} {start a n : Nat} {s : Removal}

/-- A slot that is skipped has nothing, or nothing any more. -/
theorem RemoveInv.skip (h : RemoveInv l5 mm start a s) (hlt : a < n)
    (hsame : ∀ b, a ≤ b → b < n → pgdIndex l5 b = pgdIndex l5 a)
    (hskip : (l5 && (s.pgd (pgdIndex l5 a)).isNone) = true) : RemoveInv l5 mm start n s where
  le := h.le.trans hlt.le
  shape := h.shape
  gone := h.gone
  nodup := h.nodup
  visited f hf := by
    obtain ⟨b, hlo, hhi, hb⟩ := h.visited f hf
    exact ⟨b, hlo, hhi.trans hlt, hb⟩
  proper := h.proper
  caught b hlo hhi hunsafe := by
    rcases Nat.lt_or_ge b a with hba | hab
    · exact h.caught b hlo hba hunsafe
    · rw [hsame b hab hhi] at hunsafe ⊢
      obtain ⟨rfl, hnone⟩ := Bool.and_eq_true_iff.mp hskip
      rcases h.shape (pgdIndex true a) with hshape | ⟨-, -, hfreed⟩
      · refine absurd (fun t ht ↦ ?_) hunsafe
        have hmm := hshape.none rfl
        rw [hnone, ht] at hmm
        cases hmm
      · exact hfreed

/-- With five levels a slot whose table was freed is not visited again. -/
theorem RemoveInv.slot_ne (h : RemoveInv l5 mm start a s)
    (hsome : l5 = true → (s.pgd (pgdIndex l5 a)).isNone = false) (hl5 : l5 = true) :
    ∀ f ∈ s.frees, f.slot ≠ pgdIndex l5 a := by
  intro f hf hslot
  have hs := hsome hl5
  rw [← hslot, h.gone hl5 f hf] at hs
  cases hs

theorem RemoveInv.visited_mono (h : RemoveInv l5 mm start a s) (hlt : a < n) :
    ∀ f ∈ s.frees, ∃ b, start ≤ b ∧ b < n ∧ f.slot = pgdIndex l5 b := by
  intro f hf
  obtain ⟨b, hlo, hhi, hb⟩ := h.visited f hf
  exact ⟨b, hlo, hhi.trans hlt, hb⟩

/-- The slot is written back with entries left. -/
theorem RemoveInv.kept (h : RemoveInv l5 mm start a s) (hlt : a < n)
    (hsame : ∀ b, a ≤ b → b < n → pgdIndex l5 b = pgdIndex l5 a)
    (hsome : l5 = true → (s.pgd (pgdIndex l5 a)).isNone = false) {e : Entry P4dTable}
    (hshape : SameShape l5 (mm.pgd (pgdIndex l5 a)) e) (hempty : ¬p4dEmpty l5 (p4dStart e) = true) :
    RemoveInv l5 mm start n { s with pgd := Function.update s.pgd (pgdIndex l5 a) e } where
  le := h.le.trans hlt.le
  shape j := by
    by_cases hj : j = pgdIndex l5 a
    · subst hj
      dsimp only
      rw [Function.update_self]
      exact .inl hshape
    · dsimp only
      rw [Function.update_of_ne hj]
      exact h.shape j
  gone hl5 f hf := by
    dsimp only
    rw [Function.update_of_ne (h.slot_ne hsome hl5 f hf)]
    exact h.gone hl5 f hf
  nodup := h.nodup
  visited := h.visited_mono hlt
  proper := h.proper
  caught b hlo hhi hunsafe := by
    rcases Nat.lt_or_ge b a with hba | hab
    · exact h.caught b hlo hba hunsafe
    · rw [hsame b hab hhi] at hunsafe
      exact absurd (hshape.p4dEmpty.mpr (empty_of_not_safe hunsafe)) hempty

/-- The slot is written back without entries, and `sa_free_p4d` frees what it points to. -/
theorem RemoveInv.freed (h : RemoveInv l5 mm start a s) (hlt : a < n)
    (hsame : ∀ b, a ≤ b → b < n → pgdIndex l5 b = pgdIndex l5 a)
    (hsome : l5 = true → (s.pgd (pgdIndex l5 a)).isNone = false) {e : Entry P4dTable}
    (hshape : SameShape l5 (mm.pgd (pgdIndex l5 a)) e) (hsome' : l5 = true → e.isNone = false)
    (hempty : p4dEmpty l5 (p4dStart e) = true) :
    RemoveInv l5 mm start n
      { pgd := Function.update s.pgd (pgdIndex l5 a) (if l5 then .none else e)
        frees := s.frees ++ [⟨pgdIndex l5 a, e, pgdPage l5 e⟩] } where
  le := h.le.trans hlt.le
  shape j := by
    by_cases hj : j = pgdIndex l5 a
    · subst hj
      dsimp only
      rw [Function.update_self]
      cases l5 with
      | false => exact .inl hshape
      | true => exact .inr ⟨rfl, rfl, _, List.mem_append_right _ (List.mem_singleton.mpr rfl), rfl⟩
    · dsimp only
      rw [Function.update_of_ne hj]
      exact (h.shape j).imp_right fun ⟨hl5, hnone, f, hf, hfj⟩ ↦
        ⟨hl5, hnone, f, List.mem_append_left _ hf, hfj⟩
  gone hl5 f hf := by
    dsimp only
    rcases List.mem_append.mp hf with hf | hf
    · rw [Function.update_of_ne (h.slot_ne hsome hl5 f hf)]
      exact h.gone hl5 f hf
    · obtain rfl := List.mem_singleton.mp hf
      rw [Function.update_self, if_pos hl5]
  nodup hl5 := by
    rw [List.map_append]
    refine (h.nodup hl5).append (List.nodup_singleton _) fun i hi hi' ↦ ?_
    obtain ⟨f, hf, rfl⟩ := List.mem_map.mp hi
    exact h.slot_ne hsome hl5 f hf (List.mem_singleton.mp hi')
  visited f hf := by
    rcases List.mem_append.mp hf with hf | hf
    · exact h.visited_mono hlt f hf
    · obtain rfl := List.mem_singleton.mp hf
      exact ⟨a, h.le, hlt, rfl⟩
  proper f hf hsafe := by
    rcases List.mem_append.mp hf with hf | hf
    · exact h.proper f hf hsafe
    · obtain rfl := List.mem_singleton.mp hf
      exact proper_of_safe hshape hsome' hempty hsafe
  caught b hlo hhi hunsafe := by
    rcases Nat.lt_or_ge b a with hba | hab
    · obtain ⟨f, hf, hfb⟩ := h.caught b hlo hba hunsafe
      exact ⟨f, List.mem_append_left _ hf, hfb⟩
    · exact ⟨_, List.mem_append_right _ (List.mem_singleton.mpr rfl), (hsame b hab hhi).symm⟩

/-- What the slot holds after `sa_remove_p4d`, and whether it is freed. -/
theorem RemoveInv.free (h : RemoveInv l5 mm start a s) (hlt : a < n)
    (hsame : ∀ b, a ≤ b → b < n → pgdIndex l5 b = pgdIndex l5 a)
    (hskip : ¬(l5 && (s.pgd (pgdIndex l5 a)).isNone) = true) {e : Entry P4dTable}
    (he : SameShape l5 (s.pgd (pgdIndex l5 a)) e) :
    RemoveInv l5 mm start n
      (saFreeP4d l5 (pgdIndex l5 a) { s with pgd := Function.update s.pgd (pgdIndex l5 a) e }) := by
  have hsome : l5 = true → (s.pgd (pgdIndex l5 a)).isNone = false := fun hl5 ↦
    Bool.eq_false_iff.mpr fun hnone ↦ hskip (Bool.and_eq_true_iff.mpr ⟨hl5, hnone⟩)
  have hshape : SameShape l5 (mm.pgd (pgdIndex l5 a)) e := by
    rcases h.shape (pgdIndex l5 a) with hshape | ⟨hl5, hnone, -⟩
    · exact hshape.trans he
    · exact absurd (hsome hl5) (by rw [hnone]; exact Bool.noConfusion)
  have hsome' : l5 = true → e.isNone = false := fun hl5 ↦ (he.none hl5).symm.trans (hsome hl5)
  unfold saFreeP4d
  simp only [Function.update_self, Function.update_idem]
  by_cases hempty : p4dEmpty l5 (p4dStart e) = true
  · have hfreed := h.freed hlt hsame hsome hshape hsome' hempty
    rw [if_pos hempty]
    cases hl : l5 with
    | false =>
        rw [hl] at hfreed
        exact hfreed
    | true =>
        rw [hl] at hfreed
        exact hfreed
  · rw [if_neg hempty]
    exact h.kept hlt hsame hsome hshape hempty

/-- A round gets through and keeps what is known. -/
theorem RemoveInv.round (h : RemoveInv l5 mm start a s) (hlt : a < n) (hn : n ≤ 2 ^ 64 - 2 ^ 12)
    (hsame : a / 2 ^ pgdirShift l5 = (n - 1) / 2 ^ pgdirShift l5) :
    ∃ s', saRemoveRound l5 a n s = some s' ∧ RemoveInv l5 mm start n s' := by
  have hidx : ∀ b, a ≤ b → b < n → pgdIndex l5 b = pgdIndex l5 a := by
    intro b hlo hhi
    have hb : b / 2 ^ pgdirShift l5 = a / 2 ^ pgdirShift l5 :=
      le_antisymm (by rw [hsame]; exact Nat.div_le_div_right (by omega)) (Nat.div_le_div_right hlo)
    rw [pgdIndex, pgdIndex, hb]
  by_cases hskip : (l5 && (s.pgd (pgdIndex l5 a)).isNone) = true
  · exact ⟨s, by simp only [saRemoveRound, hskip, if_true], h.skip hlt hidx hskip⟩
  · obtain ⟨c, hc, hslots⟩ := saRemoveP4d_walks a n
      ⟨p4dIndex l5 a, (p4dStart (s.pgd (pgdIndex l5 a))).slot⟩ hlt hn
    refine ⟨_, by simp only [saRemoveRound, hskip, hc, Option.map_some]; rfl, ?_⟩
    exact h.free hlt hidx hskip (sameShape_setChild hskip hslots)

end Round

section Results

variable {l5 : Bool} {mm : Mm} {start end_ : Nat}

theorem saRemoveLoop_inv (l5 : Bool) (mm : Mm) (hle : start ≤ end_) (he : end_ ≤ 2 ^ 64 - pageSize) :
    ∃ s, saRemoveLoop l5 start end_ ⟨mm.pgd, []⟩ = some s ∧ RemoveInv l5 mm start end_ s := by
  have he' : end_ ≤ 2 ^ 64 - 2 ^ 12 := he
  have hnext : ∀ a, a < end_ → addrEnd (pgdirShift l5) a end_ =
      min ((a / 2 ^ pgdirShift l5 + 1) * 2 ^ pgdirShift l5) end_ := fun a hae ↦
    addrEnd_eq_min (pgdirShift_lt l5) hae (by omega)
  refine forRange_rule (Nat.two_pow_pos _) hnext (fun a s hae hs ↦ ?_) hle
    (fun _ ↦ lt_rounds (pgdirShift l5) (by omega) (by omega)) (RemoveInv.start l5 mm start)
  obtain ⟨hgt, hne, hsame⟩ := cut_spec (Nat.two_pow_pos _) hae (hnext a hae)
  exact hs.round hgt (hne.trans he') hsame

/-- **When `sa_remove` frees linked, empty p4d tables only**: exactly if every slot its range lies in
is safe, that is, if with four levels each of them is populated. -/
theorem freesEmptyTables_iff (he : end_ ≤ 2 ^ 64 - pageSize) :
    FreesEmptyTables l5 mm start end_ ↔
      ∀ a, start ≤ a → a < end_ → SafeSlot l5 (mm.pgd (pgdIndex l5 a)) := by
  rcases Nat.lt_or_ge end_ start with hgt | hle
  · refine ⟨fun _ a hlo hhi ↦ by omega, fun _ ↦ ⟨[], ?_, fun f hf ↦ (nomatch hf), List.nodup_nil⟩⟩
    rw [saRemoveFrees, saRemoveLoop, forRange_of_le hgt.le]
    rfl
  · obtain ⟨s, hs, hinv⟩ := saRemoveLoop_inv l5 mm hle he
    have hfrees : saRemoveFrees l5 mm start end_ = some s.frees := by rw [saRemoveFrees, hs]; rfl
    constructor
    · rintro ⟨frees, hfs, hproper, -⟩ a hlo hhi
      obtain rfl : s.frees = frees := Option.some.inj (hfrees.symm.trans hfs)
      by_contra hunsafe
      obtain ⟨f, hf, hslot⟩ := hinv.caught a hlo hhi hunsafe
      exact hunsafe (hslot ▸ (hproper f hf).safeSlot)
    · intro hsafe
      have hproper : ∀ f ∈ s.frees, f.Proper l5 mm := fun f hf ↦ by
        obtain ⟨b, hlo, hhi, hb⟩ := hinv.visited f hf
        exact hinv.proper f hf (hb ▸ hsafe b hlo hhi)
      refine ⟨s.frees, hfrees, hproper, ?_⟩
      cases hl : s.frees with
      | nil => exact List.nodup_nil
      | cons f fs =>
          rw [← hl]
          exact hinv.nodup (hproper f (hl ▸ List.mem_cons_self)).1

/-- An address space with a p4d table for the window, and nothing in it. -/
def emptyP4d : Mm :=
  { Mm.empty with pgd := fun g ↦ if g = pgdIndex true ssStart then .table ⟨7, fun _ ↦ .none⟩ else .none }

/-- With five levels the table is freed, and nothing else. -/
theorem freesEmptyTables_fiveLevels :
    (saRemoveFrees true emptyP4d ssStart ssEnd).map (List.map P4dFree.page) = some [some 7] ∧
      FreesEmptyTables true emptyP4d ssStart ssEnd := by
  refine ⟨by decide +kernel, (freesEmptyTables_iff (by decide)).mpr fun a _ _ t ht ↦ ?_⟩
  simp only [emptyP4d] at ht
  split at ht <;> cases ht

/-- With four levels it is not: there is no p4d table, and yet `my_p4d_free` is called. -/
theorem not_freesEmptyTables : ¬FreesEmptyTables false .empty ssStart ssEnd := by
  rintro ⟨frees, hfs, hproper, -⟩
  have hle : ssStart ≤ ssEnd := by decide
  obtain ⟨s, hs, hinv⟩ := saRemoveLoop_inv false .empty hle (by decide)
  obtain ⟨f, hf, -⟩ := hinv.caught ssStart le_rfl (by decide) fun h ↦ h rfl
  rw [saRemoveFrees, hs] at hfs
  obtain rfl : s.frees = frees := Option.some.inj hfs
  exact nomatch (hproper f hf).1

end Results

end ShadowStack.Lkm
