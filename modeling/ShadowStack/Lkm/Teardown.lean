import ShadowStack.Lkm.Bounds
import ShadowStack.Lkm.Consistent

/-!
# The reach of `alloc_destroy_callback`

The callback passes `(0, 0, 0, 0)` to `__free_pgd_range`.  Modulo `2 ^ 64` this is the whole
address space: the outermost loop starts at slot 0 of the pgd table and only stops when the
address has wrapped around to zero, many slots after the last one of the table.
-/

namespace ShadowStack.Lkm

open Lib State

/-- The walk stayed in the pgd table and cleared only entries that translate shadow addresses. -/
structure Confined (l5 : Bool) (log : List WalkEvent) : Prop where
  visits : ∀ i, .visit i ∈ log → i < ptrs
  clears : ∀ level base, .clear level base ∈ log → ssStart ≤ base ∧ base + level.size l5 ≤ ssEnd

variable {s : State} {a : AllocPtr} {d : AllocatorDesc} {ans : Answers}

theorem State.allocDestroyCallback_log (s : State) (a : AllocPtr) (ans : Answers) {m : MmId} (hm : d.mm = some m) :
    ∃ s₁ : State, s₁.l5 = s.l5 ∧
      (s.allocDestroyCallback a d ans).2 = (s₁.teardown (s.mms m) ans).2.log := by
  refine ⟨{ s with
    callbacks := s.callbacks ++ [(a, d.threads)]
    allocs := Function.update s.allocs a none }, rfl, ?_⟩
  simp only [allocDestroyCallback, hm]

/-- **The callback is confined to the shadow window exactly when there is nothing to walk**: with
an address space, it always reads slot 512 of a table of 512 slots. -/
theorem allocDestroyCallback_confined_iff (s : State) (a : AllocPtr) (d : AllocatorDesc)
    (ans : Answers) : Confined s.l5 (s.allocDestroyCallback a d ans).2 ↔ d.mm = none := by
  constructor
  · intro h
    cases hm : d.mm with
    | none => rfl
    | some m =>
        obtain ⟨s₁, hl5, hlog⟩ := allocDestroyCallback_log s a ans hm
        have hvisit : WalkEvent.visit 512 ∈ (s.allocDestroyCallback a d ans).2 := by
          rw [hlog]
          exact freePgdRange_zero_visits s₁.l5 _ _ le_rfl
        exact absurd (h.visits 512 hvisit) (by decide)
  · intro hm
    simp only [allocDestroyCallback, hm]
    constructor <;> simp

/-- Releasing a PTE table clears the PMD entry of the addresses it translated. -/
theorem State.teardown_clears (s : State) (ans : Answers) {mm : Mm} {k : Nat} (hk : k < 512)
    (hmm : mm.HasPteTable k) :
    WalkEvent.clear .pmd (canonical s.l5 (k * 2 ^ 21)) ∈ (s.teardown mm ans).2.log := by
  unfold teardown
  refine freePgdRange_zero_reaches (J := fun _ ↦ True) (Walk.closed_log s.l5 _)
    ⟨fun _ _ _ ↦ trivial, fun _ _ _ _ ↦ trivial, fun _ _ _ _ ↦ trivial, fun _ _ _ _ _ ↦ trivial⟩
    hk hmm (fun w pte _ ↦ ?_) trivial
  unfold freePteRange
  simp only
  refine (Walk.closed_log s.l5 _).counts _ _ _ _ ((Walk.closed_log s.l5 _).tlbFreePte _ _ _ ?_)
  simp [Walk.logClear, Level.size]

/-- For a process with a page at `0x400000`, the callback clears the PMD entry of that page and
reads beyond the pgd table. -/
theorem not_confined_textMm :
    WalkEvent.clear .pmd 0x400000 ∈
        (created.allocDestroyCallback 0 ⟨1, some 0, .empty, 0, 0⟩ noPages).2 ∧
      WalkEvent.visit 512 ∈
        (created.allocDestroyCallback 0 ⟨1, some 0, .empty, 0, 0⟩ noPages).2 ∧
      ¬ ∀ (s : State) (a : AllocPtr) (d : AllocatorDesc) (ans : Answers),
        Confined s.l5 (s.allocDestroyCallback a d ans).2 := by
  obtain ⟨s₁, hl5, hlog⟩ := allocDestroyCallback_log created 0 noPages
    (d := ⟨1, some 0, .empty, 0, 0⟩) (m := 0) rfl
  have hmms : created.mms 0 = textMm := by rw [created_eq]; rfl
  have hfalse : s₁.l5 = false := by rw [hl5, created_eq]; rfl
  have hclear : WalkEvent.clear .pmd 0x400000 ∈
      (created.allocDestroyCallback 0 ⟨1, some 0, .empty, 0, 0⟩ noPages).2 := by
    have h := teardown_clears s₁ noPages (by decide) textMm_hasPteTable
    have hbase : canonical false (2 * 2 ^ 21) = 0x400000 := by decide
    rw [hfalse, hbase] at h
    rw [hlog, hmms]
    exact h
  refine ⟨hclear, ?_, fun h ↦ ?_⟩
  · rw [hlog]
    exact freePgdRange_zero_visits s₁.l5 _ _ le_rfl
  · exact absurd ((h _ _ _ _).clears _ _ hclear).1 (by decide)

/-! ## What translations become -/

/-- An address is translated as before, or not at all. -/
def Fades {ε : Type} (look : ε → Nat → Pte) (e e' : ε) : Prop := ∀ b, look e' b = look e b ∨ look e' b = .none

section Fades

variable {ε : Type} {look : ε → Nat → Pte} {e e₁ e₂ e₃ : ε} {l5 : Bool} {floor c : Nat}

theorem Fades.refl (e : ε) : Fades look e e := fun _ ↦ .inl rfl

theorem Fades.trans (h : Fades look e₁ e₂) (h' : Fades look e₂ e₃) : Fades look e₁ e₃ := fun b ↦ by
  rcases h' b with h₃ | h₃
  · rw [h₃]
    exact h b
  · exact .inr h₃

/-- A loop that only takes translations away. -/
theorem eachSlot_fades {next : Nat → Nat} {again : Nat → Bool} {f : Nat → Nat → Nat → ε → Walk → ε × Walk × Bool}
    (hf : ∀ i a n s w, Fades look s (f i a n s w).1) {fuel i addr : Nat} {t : Nat → ε} {w : Walk} (j : Nat) :
    Fades look (t j) ((eachSlot next again f fuel i addr t w).1 j) :=
  eachSlot_rel Fades.refl (fun _ _ _ ↦ Fades.trans) hf j

/-- A level, if its loop does. -/
theorem freeLevel_fades {level : Level} {shift : Nat} {idx next : Nat → Nat} {again : Nat → Bool} {fuel : Nat}
    {fresh : ε} {clears : Bool} {dec : Walk → Walk} {body : Nat → Nat → ε → Walk → ε × Walk × Bool}
    (hfresh : ∀ b, look fresh b = .none) (hbody : ∀ a n s w, Fades look s (body a n s w).1) (a n : Nat)
    (e : Entry (Table ε)) (w : Walk) :
    Fades (Entry.look idx look) e
      (freeLevel l5 level shift idx next again fuel fresh clears dec body a n floor c e w).1 := by
  intro b
  generalize hres : freeLevel l5 level shift idx next again fuel fresh clears dec body a n floor c e w = res
  rcases freeLevel_cases hres with ⟨-, -, hres⟩ | ⟨-, hres, -⟩
  · rw [hres]
    exact .inr rfl
  · have hslot : Fades look _ ((eachSlot next again (fun _ ↦ body) fuel (idx a) a
        (e.child.getD ⟨0, fun _ ↦ fresh⟩).slot w).1 (idx b)) := eachSlot_fades (fun _ ↦ hbody) (idx b)
    have hslot := hslot b
    rw [hres]
    simp only [Entry.look, Entry.child_setChild]
    cases hc : e.child with
    | some t =>
        rw [hc, Option.getD_some] at hslot
        exact hslot
    | none =>
        rw [hc, Option.getD_none] at hslot
        rcases hslot with h | h
        · exact .inr (h.trans (hfresh b))
        · exact .inr h

theorem freePteRange_fades (a : Nat) (pmd : Entry PteTable) (w : Walk) :
    Fades pmdLook pmd (match pmd with
      | .table t => freePteRange l5 a t w
      | pmd => (pmd, w, false)).1 := by
  cases pmd with
  | table t => exact fun _ ↦ .inr rfl
  | none | bad t => exact Fades.refl _

theorem freePmdRange_fades (a n : Nat) (pud : Entry PmdTable) (w : Walk) :
    Fades pudLook pud (match pud with
      | .table t => freePmdRange l5 floor c a n (.table t) w
      | pud => (pud, w, false)).1 := by
  cases pud with
  | table t => exact freeLevel_fades (fun _ ↦ rfl) (fun a _ ↦ freePteRange_fades a) a n _ w
  | none | bad t => exact Fades.refl _

theorem freePudRange_fades (a n : Nat) (p4d : Entry PudTable) (w : Walk) :
    Fades p4dLook p4d (match p4d with
      | .table t => freePudRange l5 floor c a n (.table t) w
      | p4d => (p4d, w, false)).1 := by
  cases p4d with
  | table t => exact freeLevel_fades (fun _ ↦ rfl) freePmdRange_fades a n _ w
  | none | bad t => exact Fades.refl _

theorem freePgdSlot_fades (i a n : Nat) (pgd : Entry P4dTable) (w : Walk) :
    Fades (pgdLook l5) pgd (freePgdSlot l5 floor c i a n pgd w).1 := by
  unfold freePgdSlot
  dsimp only
  by_cases h : (l5 && !pgd.isTable) = true
  · rw [if_pos h]
    exact Fades.refl _
  · rw [if_neg h]
    exact freeLevel_fades (fun _ ↦ rfl) freePudRange_fades a n pgd _

end Fades

/-- **The callback makes up no translation**: what it leaves of an address space translates an address as
before, or not at all. -/
theorem State.teardown_fades (s : State) (mm : Mm) (ans : Answers) (nrPtes nrPmds nrPuds : Int)
    (b : Nat) :
    Mm.pteAt s.l5 ⟨(s.teardown mm ans).1, nrPtes, nrPmds, nrPuds⟩ b = mm.pteAt s.l5 b ∨
      Mm.pteAt s.l5 ⟨(s.teardown mm ans).1, nrPtes, nrPmds, nrPuds⟩ b = .none := by
  rw [teardown, freePgdRange_zero]
  exact eachSlot_fades freePgdSlot_fades _ b

end ShadowStack.Lkm
