import Mathlib.Data.List.Nodup
import Mathlib.Data.List.Perm.Subperm
import ShadowStack.Lkm.Unlinks

/-!
# Whether everything is freed

`__free_pgd_range` on a range that starts at `floor` and ends at `ceiling`.  The PTE tables of the first
pud entry go as they should; those of the following ones stay, and PMD and PUD tables whose entries are
cleared are lost.
-/

namespace ShadowStack.Lkm

open Lib

/-- The bytes that a table of a level translates. -/
def tableBytes : Level → Nat
  | .pte => 2 ^ 21
  | .pmd => 2 ^ 30
  | .pud => 2 ^ 39
  | .p4d => 2 ^ 48
  | .pgd => 2 ^ 57

/-- The levels whose tables an address space counts. -/
def Counted (level : Level) : Prop := level = .pte ∨ level = .pmd ∨ level = .pud

/-- A table was linked before and is no longer linked after, by level and the first address it translates. -/
structure UnlinkedTable (l5 : Bool) (addr : Nat) (before after : Level → Nat → Option PtPage)
    (level : Level) (base : Nat) : Prop where
  counted : Counted level
  start : tableBytes level ∣ base
  block : base / tableSpan l5 = addr / tableSpan l5
  linked : before level base ≠ none
  gone : after level base = none

/-- What is claimed of the walk over a range: no PTE table of the range is linked any more, the pages of the tables
that are no longer linked went to `sa_tlb_add`, each once and no others, and the counts went down by their
numbers. -/
structure FreesAll (l5 : Bool) (addr end_ : Nat) (pgd : Nat → Entry P4dTable) (w : Walk)
    (r : (Nat → Entry P4dTable) × Walk) : Prop where
  unlinked : ∀ b, addr ≤ b → b < end_ → tableAt l5 r.1 .pte b = none
  released : ∃ gone : List (Level × Nat), gone.Nodup ∧
    (∀ level base, (level, base) ∈ gone ↔
      UnlinkedTable l5 addr (tableAt l5 pgd) (tableAt l5 r.1) level base) ∧
    r.2.releases = ((gone.filterMap fun x ↦ tableAt l5 pgd x.1 x.2).foldl Walk.saTlbAdd w).releases ∧
    r.2.nrPtes = w.nrPtes - gone.countP (·.1 = .pte) ∧ r.2.nrPmds = w.nrPmds - gone.countP (·.1 = .pmd) ∧
    r.2.nrPuds = w.nrPuds - gone.countP (·.1 = .pud)

/-- No table is in the way: the range covers the region of no PUD table and, in the first pud entries, of no PMD
table, and it reaches no PTE table in the other pud entries. -/
structure Steady (l5 : Bool) (addr end_ : Nat) (pgd : Nat → Entry P4dTable) : Prop where
  puds : ∀ b, Whole addr end_ 39 b → tableAt l5 pgd .pud b = none
  pmds : ∀ b, FirstPud addr b → Whole addr end_ 30 b → tableAt l5 pgd .pmd b = none
  ptes : ∀ b, addr ≤ b → b < end_ → ¬FirstPud addr b → tableAt l5 pgd .pte b = none

/-! ## The region of a table -/

section Tables

variable {l5 : Bool} {level : Level} {b b' : Nat}

theorem Entry.tableAt_congr {ε : Type} {own : Level} {idx : Nat → Nat}
    {below : ε → Level → Nat → Option PtPage}
    (h : level ≠ own → idx b = idx b' ∧ ∀ s, below s level b = below s level b') (e : Entry (Table ε)) :
    Entry.tableAt own idx below e level b = Entry.tableAt own idx below e level b' := by
  cases e with
  | none => rfl
  | bad t => rfl
  | table t =>
      by_cases hl : level = own
      · subst hl
        rw [Entry.tableAt_own, Entry.tableAt_own]
      · obtain ⟨hidx, hbelow⟩ := h hl
        rw [Entry.tableAt_below t hl, Entry.tableAt_below t hl, hidx, hbelow]

theorem pmdTableAt_congr (e : Entry PteTable) : pmdTableAt e level b = pmdTableAt e level b' := by
  by_cases hl : level = .pte
  · exact Entry.tableAt_congr (fun hc ↦ absurd hl hc) e
  · rw [pmdTableAt_of_ne e hl, pmdTableAt_of_ne e hl]

theorem pudTableAt_congr (h : level ≠ .pmd → b / 2 ^ 21 = b' / 2 ^ 21) (e : Entry PmdTable) :
    pudTableAt e level b = pudTableAt e level b' :=
  Entry.tableAt_congr (fun hl ↦ ⟨by rw [pmdIndex, pmdIndex, h hl], fun s ↦ pmdTableAt_congr s⟩) e

theorem p4dTableAt_congr (h : level ≠ .pud → b / 2 ^ 30 = b' / 2 ^ 30)
    (h' : level ≠ .pud → level ≠ .pmd → b / 2 ^ 21 = b' / 2 ^ 21) (e : Entry PudTable) :
    p4dTableAt e level b = p4dTableAt e level b' :=
  Entry.tableAt_congr (fun hl ↦ ⟨by rw [pudIndex, pudIndex, h hl], fun s ↦ pudTableAt_congr (h' hl) s⟩) e

/-- All addresses of the region of a table are translated through it. -/
theorem tableAt_congr (hcounted : Counted level) (h : b / tableBytes level = b' / tableBytes level)
    (pgd : Nat → Entry P4dTable) : tableAt l5 pgd level b = tableAt l5 pgd level b' := by
  have h39 : b / 2 ^ 39 = b' / 2 ^ 39 := by
    rcases hcounted with rfl | rfl | rfl
    · exact region_mono (by decide) h
    · exact region_mono (by decide) h
    · exact h
  have h30 : level ≠ .pud → b / 2 ^ 30 = b' / 2 ^ 30 := by
    intro hne
    rcases hcounted with rfl | rfl | rfl
    · exact region_mono (by decide) h
    · exact h
    · exact absurd rfl hne
  have h21 : level ≠ .pud → level ≠ .pmd → b / 2 ^ 21 = b' / 2 ^ 21 := by
    intro hne hne'
    rcases hcounted with rfl | rfl | rfl
    · exact h
    · exact absurd rfl hne'
    · exact absurd rfl hne
  have hp4d : ∀ e, p4dTableAt e level b = p4dTableAt e level b' := p4dTableAt_congr h30 h21
  have hp4dIndex : p4dIndex l5 b = p4dIndex l5 b' := by rw [p4dIndex, p4dIndex, h39]
  have hpgd : pgdIndex l5 b = pgdIndex l5 b' := by
    have hs : 39 ≤ pgdirShift l5 := by cases l5 <;> decide
    rw [pgdIndex, pgdIndex, region_mono hs h39]
  rw [tableAt, tableAt, hpgd]
  cases l5 with
  | false =>
      simp only [pgdTableAt, Bool.false_eq_true, if_false, hp4dIndex, hp4d]
  | true => exact Entry.tableAt_congr (fun _ ↦ ⟨hp4dIndex, hp4d⟩) _

/-- Without a PUD table there is no PMD table either. -/
theorem tableAt_pmd_of_pud {pgd : Nat → Entry P4dTable} (h : tableAt l5 pgd .pud b = none) :
    tableAt l5 pgd .pmd b = none := by
  have hp4d : ∀ e : Entry PudTable, p4dTableAt e .pud b = none → p4dTableAt e .pmd b = none := by
    intro e he
    cases e with
    | none => rfl
    | bad t => rfl
    | table t =>
        rw [p4dTableAt, Entry.tableAt_own] at he
        cases he
  rw [tableAt] at h ⊢
  cases l5 with
  | false => exact hp4d _ h
  | true =>
      revert h
      cases pgd (pgdIndex true b) with
      | none => exact fun _ ↦ rfl
      | bad t => exact fun _ ↦ rfl
      | table t => exact hp4d _

/-- A table that is unlinked at an address is unlinked at the first address it translates. -/
theorem unlinkedTable_base {addr : Nat} {pgd pgd' : Nat → Entry P4dTable} (hcounted : Counted level)
    (hblock : b / tableSpan l5 = addr / tableSpan l5) (hlinked : tableAt l5 pgd level b ≠ none)
    (hgone : tableAt l5 pgd' level b = none) :
    UnlinkedTable l5 addr (tableAt l5 pgd) (tableAt l5 pgd') level (b / tableBytes level * tableBytes level) := by
  have hsize : ∃ s, tableBytes level = 2 ^ s ∧ s ≤ pgdirShift l5 + 9 := by
    rcases hcounted with rfl | rfl | rfl
    · exact ⟨21, rfl, by cases l5 <;> decide⟩
    · exact ⟨30, rfl, by cases l5 <;> decide⟩
    · exact ⟨39, rfl, by cases l5 <;> decide⟩
  obtain ⟨s, hs, hle⟩ := hsize
  have hspan : tableSpan l5 = 2 ^ (pgdirShift l5 + 9) := by cases l5 <;> rfl
  have hbase : b / tableBytes level * tableBytes level / tableBytes level = b / tableBytes level := by
    rw [hs]
    exact Nat.mul_div_cancel _ (Nat.two_pow_pos s)
  refine ⟨hcounted, dvd_mul_left _ _, ?_, ?_, ?_⟩
  · rw [← hblock, hspan]
    rw [hs] at hbase ⊢
    exact region_mono hle hbase
  · rwa [tableAt_congr hcounted hbase]
  · rwa [tableAt_congr hcounted hbase]

end Tables

/-! ## When everything is freed -/

section Range

variable {l5 : Bool} {addr end_ : Nat} {pgd : Nat → Entry P4dTable} {w : Walk}

/-- The pmd entries from `lo` up to `n` whose PTE tables are handed over. -/
def handedStarts (addr : Nat) (before : Level → Nat → Option PtPage) (lo n : Nat) : List Nat :=
  (pmdStarts lo n).filter fun b ↦ FirstPud addr b ∧ (before .pte b).isSome

theorem handed_eq {before : Level → Nat → Option PtPage} {lo n : Nat} :
    handed addr before lo n = (handedStarts addr before lo n).filterMap (before .pte) := by
  rw [handed, handedStarts, List.filterMap_filter]
  refine List.filterMap_congr fun b _ ↦ ?_
  by_cases hf : FirstPud addr b
  · cases before .pte b <;> simp [hf]
  · simp [hf]

theorem length_handed {before : Level → Nat → Option PtPage} {lo n : Nat} :
    (handed addr before lo n).length = (handedStarts addr before lo n).length := by
  rw [handed_eq, List.filterMap_length_eq_length]
  intro b hb
  have hcond := of_decide_eq_true (List.mem_filter.mp hb).2
  exact hcond.2

/-- What is handed over, by level and address. -/
def handedTables (addr end_ : Nat) (before : Level → Nat → Option PtPage) : List (Level × Nat) :=
  (handedStarts addr before addr end_).map (Prod.mk .pte)

theorem nodup_handedTables {before : Level → Nat → Option PtPage} :
    (handedTables addr end_ before).Nodup := by
  refine List.Nodup.map (fun _ _ h ↦ (Prod.mk.inj h).2) ?_
  exact nodup_pmdStarts.filter _

theorem mem_handedTables {before : Level → Nat → Option PtPage} (haddr : 2 ^ 21 ∣ addr) (hend : 2 ^ 21 ∣ end_)
    {level : Level} {b : Nat} : (level, b) ∈ handedTables addr end_ before ↔
      level = .pte ∧ 2 ^ 21 ∣ b ∧ (addr ≤ b ∧ b < end_) ∧ FirstPud addr b ∧ before .pte b ≠ none := by
  rw [handedTables, List.mem_map]
  constructor
  · rintro ⟨c, hc, heq⟩
    obtain ⟨rfl, rfl⟩ := Prod.mk.inj heq
    obtain ⟨hmem, hcond⟩ := List.mem_filter.mp hc
    obtain ⟨hf, hsome⟩ := of_decide_eq_true hcond
    obtain ⟨hdvd, hin⟩ := (mem_pmdStarts haddr hend).mp hmem
    exact ⟨rfl, hdvd, hin, hf, Option.isSome_iff_ne_none.mp hsome⟩
  · rintro ⟨rfl, hdvd, hin, hf, hne⟩
    refine ⟨b, List.mem_filter.mpr ⟨(mem_pmdStarts haddr hend).mpr ⟨hdvd, hin⟩, ?_⟩, rfl⟩
    exact decide_eq_true ⟨hf, Option.isSome_iff_ne_none.mpr hne⟩

/-- The range lies in the region of one top-level table. -/
structure InOneTable (l5 : Bool) (addr end_ : Nat) : Prop where
  addr_dvd : 2 ^ 21 ∣ addr
  end_dvd : 2 ^ 21 ∣ end_
  lt : addr < end_
  end_lt : end_ < 2 ^ 64
  block : addr / tableSpan l5 = (end_ - 1) / tableSpan l5

namespace InOneTable

theorem block_eq (h : InOneTable l5 addr end_) {b : Nat} (hlo : addr ≤ b) (hhi : b < end_) :
    b / tableSpan l5 = addr / tableSpan l5 := by
  refine le_antisymm ?_ (Nat.div_le_div_right hlo)
  rw [h.block]
  exact Nat.div_le_div_right (by omega)

theorem frees (h : InOneTable l5 addr end_) (pgd : Nat → Entry P4dTable) (w : Walk) :
    Effect addr end_ (tableAt l5 pgd) w addr end_ (freePgdRange l5 addr end_ addr end_ pgd w).2 ∧
      ∀ level b, b / tableSpan l5 = addr / tableSpan l5 →
        tableAt l5 (freePgdRange l5 addr end_ addr end_ pgd w).1 level b =
          if Released addr end_ level b then none else tableAt l5 pgd level b :=
  freePgdRange_frees h.addr_dvd h.end_dvd h.lt h.end_lt h.block pgd w

end InOneTable

/-- If everything is freed, what is unlinked is what is handed over. -/
theorem FreesAll.handed (hin : InOneTable l5 addr end_)
    (h : FreesAll l5 addr end_ pgd w (freePgdRange l5 addr end_ addr end_ pgd w)) {level : Level} {b : Nat}
    (hb : UnlinkedTable l5 addr (tableAt l5 pgd)
      (tableAt l5 (freePgdRange l5 addr end_ addr end_ pgd w).1) level b) :
    level = .pte ∧ FirstPud addr b := by
  obtain ⟨heff, htable⟩ := hin.frees pgd w
  obtain ⟨gone, hnodup, hmem, hrel, -⟩ := h.released
  have hsub : handedTables addr end_ (tableAt l5 pgd) ⊆ gone := by
    rintro ⟨level, b⟩ hx
    obtain ⟨rfl, hdvd, hrange, hf, hne⟩ := (mem_handedTables hin.addr_dvd hin.end_dvd).mp hx
    have hblock := hin.block_eq hrange.1 hrange.2
    refine (hmem _ _).mpr ⟨.inl rfl, hdvd, hblock, hne, ?_⟩
    rw [htable _ _ hblock, if_pos ⟨hrange, .inl hf⟩]
  -- as many pages went to `sa_tlb_add` as tables were unlinked
  have hlen : gone.length ≤ (handedTables addr end_ (tableAt l5 pgd)).length := by
    have hpages : (gone.filterMap fun x ↦ tableAt l5 pgd x.1 x.2).length = gone.length :=
      List.filterMap_length_eq_length.mpr fun x hx ↦
        Option.isSome_iff_ne_none.mpr ((hmem x.1 x.2).mp hx).linked
    have hcount := Walk.handedOver_congr (heff.releases.symm.trans hrel)
    rw [Walk.foldl_saTlbAdd_handedOver, Walk.foldl_saTlbAdd_handedOver, hpages, length_handed] at hcount
    rw [handedTables, List.length_map]
    omega
  have hperm := (nodup_handedTables.subperm hsub).perm_of_length_le hlen
  have hx := hperm.mem_iff.mpr ((hmem level b).mpr hb)
  obtain ⟨hpte, -, -, hf, -⟩ := (mem_handedTables hin.addr_dvd hin.end_dvd).mp hx
  exact ⟨hpte, hf⟩

theorem steady_of_freesAll (hin : InOneTable l5 addr end_)
    (h : FreesAll l5 addr end_ pgd w (freePgdRange l5 addr end_ addr end_ pgd w)) : Steady l5 addr end_ pgd := by
  obtain ⟨heff, htable⟩ := hin.frees pgd w
  have hreleased : ∀ level b, Counted level → Released addr end_ level b → tableAt l5 pgd level b ≠ none →
      level = .pte ∧ FirstPud addr (b / tableBytes level * tableBytes level) := by
    intro level b hcounted hrel hne
    have hblock := hin.block_eq hrel.mem.1 hrel.mem.2
    exact h.handed hin (unlinkedTable_base hcounted hblock hne (by rw [htable _ _ hblock, if_pos hrel]))
  constructor
  · intro b hwhole
    by_contra hne
    obtain ⟨hc, -⟩ := hreleased .pud b (.inr (.inr rfl)) hwhole hne
    cases hc
  · intro b hf hwhole
    by_contra hne
    obtain ⟨hc, -⟩ := hreleased .pmd b (.inr (.inl rfl)) (.inl ⟨hf, hwhole⟩) hne
    cases hc
  · intro b hlo hhi hf
    by_contra hne
    have hgone := h.unlinked b hlo hhi
    rw [htable _ _ (hin.block_eq hlo hhi)] at hgone
    have hrel : Released addr end_ .pte b := by
      by_contra hnot
      rw [if_neg hnot] at hgone
      exact hne hgone
    obtain ⟨-, hf'⟩ := hreleased .pte b (.inl rfl) hrel hne
    refine hf ((FirstPud.congr (region_mono (s := 21) (by decide) ?_)).mp hf')
    exact Nat.mul_div_cancel _ (by decide)

theorem freesAll_of_steady (hin : InOneTable l5 addr end_) (h : Steady l5 addr end_ pgd) :
    FreesAll l5 addr end_ pgd w (freePgdRange l5 addr end_ addr end_ pgd w) := by
  obtain ⟨heff, htable⟩ := hin.frees pgd w
  -- the tables that are unlinked are PTE tables of first pud entries
  have hreleased : ∀ level b, Counted level → Released addr end_ level b → tableAt l5 pgd level b ≠ none →
      level = .pte ∧ FirstPud addr b := by
    intro level b hcounted hrel hne
    rcases hcounted with rfl | rfl | rfl
    · refine ⟨rfl, ?_⟩
      by_contra hf
      exact hne (h.ptes b hrel.mem.1 hrel.mem.2 hf)
    · rcases hrel with ⟨hf, hwhole⟩ | hwhole
      · exact absurd (h.pmds b hf hwhole) hne
      · exact absurd (tableAt_pmd_of_pud (h.puds b hwhole)) hne
    · exact absurd (h.puds b hrel) hne
  refine ⟨fun b hlo hhi ↦ ?_, handedTables addr end_ (tableAt l5 pgd), nodup_handedTables, fun level b ↦ ?_, ?_,
    ?_, ?_, ?_⟩
  · rw [htable _ _ (hin.block_eq hlo hhi)]
    by_cases hf : FirstPud addr b
    · rw [if_pos ⟨⟨hlo, hhi⟩, .inl hf⟩]
    · rw [h.ptes b hlo hhi hf, ite_self]
  · rw [mem_handedTables hin.addr_dvd hin.end_dvd]
    constructor
    · rintro ⟨rfl, hdvd, hrange, hf, hne⟩
      have hblock := hin.block_eq hrange.1 hrange.2
      exact ⟨.inl rfl, hdvd, hblock, hne, by rw [htable _ _ hblock, if_pos ⟨hrange, .inl hf⟩]⟩
    · rintro ⟨hcounted, hdvd, hblock, hne, hgone⟩
      have hrel : Released addr end_ level b := by
        by_contra hnot
        rw [htable _ _ hblock, if_neg hnot] at hgone
        exact hne hgone
      obtain ⟨rfl, hf⟩ := hreleased level b hcounted hrel hne
      exact ⟨rfl, hdvd, hrel.mem, hf, hne⟩
  · rw [heff.releases, handed_eq, handedTables, List.filterMap_map]
    rfl
  · rw [heff.ptes, length_handed, handedTables, List.countP_map]
    simp [Function.comp_def]
  · rw [heff.pmds fun b _ _ hf hwhole ↦ h.pmds b hf hwhole, handedTables, List.countP_map]
    simp [Function.comp_def]
  · rw [heff.puds fun b _ _ hwhole ↦ h.puds b hwhole, handedTables, List.countP_map]
    simp [Function.comp_def]

/-- **Everything is freed exactly if** no table is in the way. -/
theorem freesAll_iff (hin : InOneTable l5 addr end_) (pgd : Nat → Entry P4dTable) (w : Walk) :
    FreesAll l5 addr end_ pgd w (freePgdRange l5 addr end_ addr end_ pgd w) ↔ Steady l5 addr end_ pgd :=
  ⟨steady_of_freesAll hin, freesAll_of_steady hin⟩

end Range

/-- A range with one of the two tables. -/
theorem freesAll_second : FreesAll false (2 ^ 30 + 2 ^ 21) (2 ^ 30 + 2 ^ 22) twoTables (freshWalk [])
    (freePgdRange false (2 ^ 30 + 2 ^ 21) (2 ^ 30 + 2 ^ 22) (2 ^ 30 + 2 ^ 21) (2 ^ 30 + 2 ^ 22) twoTables
      (freshWalk [])) := by
  have hin : InOneTable false (2 ^ 30 + 2 ^ 21) (2 ^ 30 + 2 ^ 22) :=
    ⟨by decide, by decide, by decide, by decide, by decide⟩
  have hlt : (2 ^ 30 + 2 ^ 22 : Nat) < 2 ^ 31 := by decide
  refine (freesAll_iff hin twoTables (freshWalk [])).mpr ⟨fun b hwhole ↦ ?_, fun b _ hwhole ↦ ?_, fun b hlo hhi hf ↦ ?_⟩
  · obtain ⟨hlo, hhi⟩ := hwhole
    omega
  · obtain ⟨hlo, hhi⟩ := hwhole
    omega
  · refine absurd ?_ hf
    rw [FirstPud]
    omega

/-- The PMD table of the second gigabyte is unlinked and lost. -/
theorem not_freesAll : ¬ ∀ (l5 : Bool) (addr end_ : Nat) (pgd : Nat → Entry P4dTable) (w : Walk),
    InOneTable l5 addr end_ → FreesAll l5 addr end_ pgd w (freePgdRange l5 addr end_ addr end_ pgd w) := by
  intro h
  have hin : InOneTable false (2 ^ 30) (2 ^ 31) := ⟨by decide, by decide, by decide, by decide, by decide⟩
  have hsteady := steady_of_freesAll hin (h false (2 ^ 30) (2 ^ 31) twoTables (freshWalk []) hin)
  have hnone := hsteady.pmds (2 ^ 30) (by decide) (by decide)
  cases hnone

end ShadowStack.Lkm
