import ShadowStack.Lkm.MapRange

/-!
# What `map_range` leaves behind

The walk of `Lkm.MapRange` seen from its caller, over whole address spaces: a PTE is named by any
canonical address of its page, and a range lies in one half of the canonical addresses.

On success the range is mapped and nothing else is touched.  On failure `unmap_range` is meant to
take the mapped prefix back; its walk being commented out, the prefix stays.
-/

namespace ShadowStack.Lkm

open Lib

/-! ## The two halves -/

/-- The size of one half of the canonical addresses: `2 ^ 47` bytes, or `2 ^ 56` with five levels. -/
def halfSize (l5 : Bool) : Nat := 2 ^ (pgdirShift l5 + 8)

/-- Both addresses are canonical, in the same half. -/
def SameHalf (l5 : Bool) (a b : Nat) : Prop :=
  a < halfSize l5 ∧ b < halfSize l5 ∨
    2 ^ 64 - halfSize l5 ≤ a ∧ 2 ^ 64 - halfSize l5 ≤ b ∧ a < 2 ^ 64 ∧ b < 2 ^ 64

/-- A canonical address. -/
def IsCanonical (l5 : Bool) (a : Nat) : Prop := SameHalf l5 a a

/-- The bytes that one top-level table covers. -/
def tableSpan (l5 : Bool) : Nat := ptrs * 2 ^ pgdirShift l5

/-- The span and the half as numbers. -/
theorem span_cases (l5 : Bool) :
    (tableSpan l5 = 2 ^ 48 ∧ halfSize l5 = 2 ^ 47) ∨ (tableSpan l5 = 2 ^ 57 ∧ halfSize l5 = 2 ^ 56) := by
  cases l5 with
  | false => exact .inl ⟨by decide, by decide⟩
  | true => exact .inr ⟨by decide, by decide⟩

theorem SameHalf.block_eq {l5 : Bool} {a b : Nat} (h : SameHalf l5 a b) :
    a / tableSpan l5 = b / tableSpan l5 := by
  unfold SameHalf at h
  rcases span_cases l5 with ⟨hs, hh⟩ | ⟨hs, hh⟩
  all_goals
    rw [hs]
    rw [hh] at h
    omega

/-- The address of the same page slot in the block of another address. -/
def mirror (l5 : Bool) (start a : Nat) : Nat := start / tableSpan l5 * tableSpan l5 + a % tableSpan l5

theorem mirror_block (l5 : Bool) (start a : Nat) :
    mirror l5 start a / tableSpan l5 = start / tableSpan l5 := by
  unfold mirror
  rcases span_cases l5 with ⟨hs, -⟩ | ⟨hs, -⟩
  all_goals
    rw [hs]
    omega

theorem mirror_mod (l5 : Bool) (start a : Nat) :
    mirror l5 start a % tableSpan l5 = a % tableSpan l5 := by
  unfold mirror
  rcases span_cases l5 with ⟨hs, -⟩ | ⟨hs, -⟩
  all_goals
    rw [hs]
    omega

/-- Mirroring a canonical address does not move it into a range it was not in. -/
theorem mirror_outside {l5 : Bool} {start end_ a : Nat} (hlt : start < end_)
    (hhalf : SameHalf l5 start (end_ - 1)) (ha : IsCanonical l5 a) (hout : ¬ (start ≤ a ∧ a < end_)) :
    ¬ (start ≤ mirror l5 start a ∧ mirror l5 start a < end_) := by
  unfold IsCanonical SameHalf at *
  unfold mirror
  rcases span_cases l5 with ⟨hs, hh⟩ | ⟨hs, hh⟩
  all_goals
    rw [hs]
    rw [hh] at ha hhalf
    omega

/-! ## PTEs are named by their slot numbers -/

theorem Entry.look_congr {ε : Type} {idx : Nat → Nat} {look : ε → Nat → Pte} {a b : Nat}
    (hidx : idx a = idx b) (hlook : ∀ s, look s a = look s b) (e : Entry (Table ε)) :
    e.look idx look a = e.look idx look b := by
  cases e with
  | none => rfl
  | bad t => simp only [Entry.look, Entry.child, hidx, hlook]
  | table t => simp only [Entry.look, Entry.child, hidx, hlook]

/-- Addresses that agree below the span of the top-level table have the same slot numbers. -/
theorem index_congr {l5 : Bool} {a b : Nat} (h : a % tableSpan l5 = b % tableSpan l5) :
    pteIndex a = pteIndex b ∧ pmdIndex a = pmdIndex b ∧ pudIndex a = pudIndex b ∧
      p4dIndex l5 a = p4dIndex l5 b ∧ pgdIndex l5 a = pgdIndex l5 b := by
  have hlow : pteIndex a = pteIndex b ∧ pmdIndex a = pmdIndex b ∧ pudIndex a = pudIndex b := by
    unfold pteIndex pmdIndex pudIndex ptrs
    rcases span_cases l5 with ⟨hs, -⟩ | ⟨hs, -⟩
    all_goals
      rw [hs] at h
      omega
  have hhigh : p4dIndex l5 a = p4dIndex l5 b ∧ pgdIndex l5 a = pgdIndex l5 b := by
    unfold p4dIndex pgdIndex
    cases l5 with
    | false =>
        simp only [tableSpan, ptrs, pgdirShift, ptrsPerP4d, Bool.false_eq_true, ↓reduceIte] at h ⊢
        omega
    | true =>
        simp only [tableSpan, ptrs, pgdirShift, ptrsPerP4d, ↓reduceIte] at h ⊢
        omega
  exact ⟨hlow.1, hlow.2.1, hlow.2.2, hhigh.1, hhigh.2⟩

/-- Addresses that agree below the span of the top-level table name the same PTE. -/
theorem Mm.pteAt_congr {l5 : Bool} {a b : Nat} (h : a % tableSpan l5 = b % tableSpan l5) (mm : Mm) :
    mm.pteAt l5 a = mm.pteAt l5 b := by
  obtain ⟨hpte, hpmd, hpud, hp4d, hpgd⟩ := index_congr h
  have hlookPmd : ∀ s, pmdLook s a = pmdLook s b := Entry.look_congr hpte fun _ ↦ rfl
  have hlookPud : ∀ s, pudLook s a = pudLook s b := Entry.look_congr hpmd hlookPmd
  have hlookP4d : ∀ s, p4dLook s a = p4dLook s b := Entry.look_congr hpud hlookPud
  rw [Mm.pteAt, Mm.pteAt, hpgd]
  exact Entry.look_congr hp4d hlookP4d _

section Results

variable {l5 : Bool} {tables : TableAnswers} {pages : List Page} {mm : Mm} {addr end_ : Nat}

/-- What `map_range` does to the PTEs of all canonical addresses: a prefix of the range is mapped,
and no other PTE is touched. -/
theorem mapRange_ptes (l5 : Bool) (tables : TableAnswers) (pages : List Page) (mm : Mm)
    (ha : addr % pageSize = 0) (he : end_ % pageSize = 0) (hlt : addr < end_) (he' : end_ < 2 ^ 64)
    (hhalf : SameHalf l5 addr (end_ - 1)) :
    ∃ m, Rewrites (IsCanonical l5) (mm.pteAt l5) ((mapRange l5 tables addr pages mm end_).1.pteAt l5)
      (mkPte addr pages) (mm.denied l5 tables) addr end_ m
      (mapRange l5 tables addr pages mm end_).2 := by
  obtain ⟨m, hm⟩ := mapRange_rewrites l5 tables pages mm ha he hlt he' hhalf.block_eq
  refine ⟨m, { hm with look := fun a hc ↦ ?_ }⟩
  have hle := hm.le_end
  by_cases hin : addr ≤ a ∧ a < end_
  · have hsame : SameHalf l5 a addr := by
      unfold SameHalf at hhalf ⊢
      omega
    exact hm.look a hsame.block_eq
  · -- the PTE is that of an address of the block of the range, outside the range too
    have hout := mirror_outside hlt hhalf hc hin
    have hmir := hm.look (mirror l5 addr a) (mirror_block l5 addr a)
    rw [if_neg (by omega)] at hmir ⊢
    rw [Mm.pteAt_congr (mirror_mod l5 addr a).symm, hmir, Mm.pteAt_congr (mirror_mod l5 addr a)]

/-- **A successful `map_range` maps exactly its range**: page after page, no other PTE changes, the
tables that were there stay, and `pages[]` is read within its bounds. -/
theorem mapRange_exact (ha : addr % pageSize = 0) (he : end_ % pageSize = 0) (hlt : addr < end_)
    (he' : end_ < 2 ^ 64) (hhalf : SameHalf l5 addr (end_ - 1))
    (hlen : (end_ - addr) / pageSize ≤ pages.length)
    (hok : (mapRange l5 tables addr pages mm end_).2 = false) :
    (∀ a, addr ≤ a → a < end_ → ∃ p, pages[(a - addr) / pageSize]? = some p ∧
      (mapRange l5 tables addr pages mm end_).1.pteAt l5 a = .present p) ∧
    (∀ a, IsCanonical l5 a → ¬ (addr ≤ a ∧ a < end_) →
      (mapRange l5 tables addr pages mm end_).1.pteAt l5 a = mm.pteAt l5 a) ∧
    mm.Keeps (mapRange l5 tables addr pages mm end_).1 ∧
    ∀ i ∈ mapReads l5 tables addr pages mm end_, i < pages.length := by
  obtain ⟨m, hm⟩ := mapRange_ptes l5 tables pages mm ha he hlt he' hhalf
  obtain rfl := hm.done hok
  refine ⟨fun a hlo hhi ↦ ?_, fun a hc hout ↦ ?_, mapRange_keeps l5 tables addr pages mm m, ?_⟩
  · have hc : IsCanonical l5 a := by
      unfold IsCanonical SameHalf at *
      omega
    have hidx : pageIndex addr a = (a - addr) / pageSize := by
      simp only [pageIndex, wrapSub, pageSize, pageShift]
      omega
    have hbound : (a - addr) / pageSize < pages.length := by
      refine lt_of_lt_of_le ?_ hlen
      simp only [pageSize, pageShift] at ha he ⊢
      omega
    refine ⟨pages[(a - addr) / pageSize], List.getElem?_eq_getElem hbound, ?_⟩
    rw [hm.look a hc, if_pos ⟨hlo, hhi⟩]
    simp only [mkPte, hidx, List.getElem?_eq_getElem hbound]
  · rw [hm.look a hc, if_neg hout]
  · intro i hi
    exact lt_of_lt_of_le (mapReads_lt l5 tables pages mm ha he hlt he' hi) hlen

/-- Two pages on either side of a PMD boundary, in an empty address space. -/
theorem mapRange_exact_boundary :
    (mapRange false (fun _ _ ↦ some 0) (2 ^ 21 - 2 ^ 12) [7, 8] .empty (2 ^ 21 + 2 ^ 12)).1.pteAt false
      (2 ^ 21) = .present 8 := by
  have h := @mapRange_exact false (fun _ _ ↦ some 0) [7, 8] .empty (2 ^ 21 - 2 ^ 12) (2 ^ 21 + 2 ^ 12)
    (by decide) (by decide) (by decide) (by decide) (.inl (by decide)) (by decide) (by decide +kernel)
  obtain ⟨p, hp, hpte⟩ := h.1 (2 ^ 21) (by decide) (by decide)
  obtain rfl : 8 = p := Option.some.inj hp
  exact hpte

/-! ## Failure -/

/-- If `map_range` fails, no PTE of its range is set and no other one was changed. -/
def MapsOrCleans (l5 : Bool) (tables : TableAnswers) (addr : Nat) (pages : List Page) (mm : Mm)
    (end_ : Nat) : Prop :=
  (mapRange l5 tables addr pages mm end_).2 = true →
    (∀ a, addr ≤ a → a < end_ →
      (mapRange l5 tables addr pages mm end_).1.pteAt l5 a = .none) ∧
    ∀ a, IsCanonical l5 a → ¬ (addr ≤ a ∧ a < end_) →
      (mapRange l5 tables addr pages mm end_).1.pteAt l5 a = mm.pteAt l5 a

/-- **When a failing `map_range` leaves nothing behind**: exactly if the table that was refused is one
of the first page's, or none was. -/
theorem mapsOrCleans_iff (ha : addr % pageSize = 0) (he : end_ % pageSize = 0) (hlt : addr < end_)
    (he' : end_ < 2 ^ 64) (hhalf : SameHalf l5 addr (end_ - 1))
    (hnone : ∀ a, addr ≤ a → a < end_ → mm.pteAt l5 a = .none) :
    MapsOrCleans l5 tables addr pages mm end_ ↔
      mm.denied l5 tables addr ∨ ∀ a, addr ≤ a → a < end_ → ¬ mm.denied l5 tables a := by
  obtain ⟨m, hm⟩ := mapRange_ptes l5 tables pages mm ha he hlt he' hhalf
  have hcanon : ∀ a, addr ≤ a → a < end_ → IsCanonical l5 a := by
    intro a hlo hhi
    unfold IsCanonical SameHalf at *
    omega
  constructor
  · intro hclean
    by_contra hc
    rw [not_or] at hc
    obtain ⟨hfirst, hsome⟩ := hc
    -- a table is refused, so the walk fails, but not at its first page
    have hfail : (mapRange l5 tables addr pages mm end_).2 = true := by
      by_contra hok
      obtain rfl := hm.done (Bool.not_eq_true _ ▸ hok)
      exact hsome hm.granted
    have hpos : addr < m := by
      refine lt_of_le_of_ne hm.le ?_
      rintro rfl
      exact hfirst (hm.stopped hfail).2
    have hleft := (hclean hfail).1 addr le_rfl hlt
    rw [hm.look addr (hcanon addr le_rfl hlt), if_pos ⟨le_rfl, hpos⟩] at hleft
    exact mkPte_ne_none addr pages addr hleft
  · rintro (hfirst | hall) hfail
    · -- refused at once: the prefix is empty
      have hm₀ : m = addr := by
        by_contra hc
        exact hm.granted addr le_rfl (lt_of_le_of_ne hm.le (Ne.symm hc)) hfirst
      refine ⟨fun a hlo hhi ↦ ?_, fun a hc _ ↦ ?_⟩
      · rw [hm.look a (hcanon a hlo hhi), if_neg (by omega), hnone a hlo hhi]
      · rw [hm.look a hc, if_neg (by omega)]
    · obtain ⟨hlt', hD⟩ := hm.stopped hfail
      exact absurd hD (hall m hm.le hlt')

end Results

/-- The kernel grants every table but the second PTE table. -/
def secondRefused : TableAnswers := fun level n ↦ if level = .pte ∧ n = 1 then none else some 0

/-- Two pages on either side of a PMD boundary: the first one stays mapped when the table of the second
is refused. -/
theorem not_mapsOrCleans :
    ¬ ∀ (l5 : Bool) (tables : TableAnswers) (pages : List Page) (mm : Mm) (addr end_ : Nat),
      addr % pageSize = 0 → end_ % pageSize = 0 → addr < end_ → end_ < 2 ^ 64 →
      SameHalf l5 addr (end_ - 1) → (∀ a, addr ≤ a → a < end_ → mm.pteAt l5 a = .none) →
      MapsOrCleans l5 tables addr pages mm end_ := by
  intro h
  have hclean := h false secondRefused [7, 8] .empty (2 ^ 21 - 2 ^ 12) (2 ^ 21 + 2 ^ 12) (by decide)
    (by decide) (by decide) (by decide) (.inl (by decide)) fun _ _ _ ↦ rfl
  have hfail : (mapRange false secondRefused (2 ^ 21 - 2 ^ 12) [7, 8] .empty (2 ^ 21 + 2 ^ 12)).2 = true := by
    decide +kernel
  have hleft : (mapRange false secondRefused (2 ^ 21 - 2 ^ 12) [7, 8] .empty
      (2 ^ 21 + 2 ^ 12)).1.pteAt false (2 ^ 21 - 2 ^ 12) = .present 7 := by
    decide +kernel
  rw [(hclean hfail).1 (2 ^ 21 - 2 ^ 12) (by decide) (by decide)] at hleft
  cases hleft

/-- With the very first table refused, the empty address space stays empty. -/
theorem mapsOrCleans_first :
    MapsOrCleans false (fun _ _ ↦ none) (2 ^ 21 - 2 ^ 12) [7, 8] .empty (2 ^ 21 + 2 ^ 12) :=
  (mapsOrCleans_iff (by decide) (by decide) (by decide) (by decide) (.inl (by decide))
    fun _ _ _ ↦ rfl).mpr (.inl (.inr (.inl rfl)))

end ShadowStack.Lkm
