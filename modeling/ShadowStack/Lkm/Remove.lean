import ShadowStack.Lib.ForRange
import ShadowStack.Lkm.Mapped

/-!
# `sa_remove`

The second walk over the page tables, in `lkm/core/chrdev_fops.c`: five `for` loops that clear the
present PTEs of a range and skip what is not there.  Only the p4d tables are given back,
by `sa_free_p4d`; the functions that free the tables below are called from nowhere.

An entry that is not none is present here: what is behind a bad entry is what its memory reads as.
-/

namespace ShadowStack.Lkm

open Lib

/-- `pte_present`. -/
def Pte.isPresent : Pte → Bool
  | .present _ | .wild => true
  | _ => false

/-- `pte_clear` where the PTE is present. -/
def Pte.clear (pte : Pte) : Pte := if pte.isPresent then .none else pte

@[simp] theorem Pte.isPresent_clear (pte : Pte) : pte.clear.isPresent = false := by
  cases pte <;> rfl

theorem Pte.clear_of_not {pte : Pte} (h : pte.isPresent = false) : pte.clear = pte := by
  rw [clear, h]
  rfl

theorem Pte.clear_of {pte : Pte} (h : pte.isPresent = true) : pte.clear = .none := by
  rw [clear, if_pos h]

/-! ## The walk -/

/-- `next = (addr + PAGE_SIZE) & PAGE_MASK; if (next > end) next = end`. -/
def pteAddrEnd (addr end_ : Nat) : Nat :=
  let next := alignDown 12 (wrapAdd addr pageSize)
  if end_ < next then end_ else next

/-- The body of the three middle loops: below a present entry, the slots from that of `addr` on are
walked. -/
def removeBelow {ε : Type} (idx : Nat → Nat)
    (walk : Nat → Nat → Cursor ε → Option (Cursor ε)) (addr next : Nat) (e : Entry (Table ε)) :
    Option (Entry (Table ε)) :=
  match e.child with
  | none => some e
  | some t => (walk addr next ⟨idx addr, t.slot⟩).map fun c ↦ e.setChild { t with slot := c.table }

/-- `sa_remove_pte`. -/
def saRemovePte (addr end_ : Nat) : Cursor Pte → Option (Cursor Pte) :=
  forRange (fun a ↦ pteAddrEnd a end_) (Cursor.round fun _ _ pte ↦ some pte.clear) end_
    (rounds 12 addr end_) addr

/-- `sa_remove_pmd`. -/
def saRemovePmd (addr end_ : Nat) : Cursor (Entry PteTable) → Option (Cursor (Entry PteTable)) :=
  forRange (fun a ↦ addrEnd 21 a end_) (Cursor.round (removeBelow pteIndex saRemovePte)) end_
    (rounds 21 addr end_) addr

/-- `sa_remove_pud`. -/
def saRemovePud (addr end_ : Nat) : Cursor (Entry PmdTable) → Option (Cursor (Entry PmdTable)) :=
  forRange (fun a ↦ addrEnd 30 a end_) (Cursor.round (removeBelow pmdIndex saRemovePmd)) end_
    (rounds 30 addr end_) addr

/-- `sa_remove_p4d`. -/
def saRemoveP4d (addr end_ : Nat) : Cursor (Entry PudTable) → Option (Cursor (Entry PudTable)) :=
  forRange (fun a ↦ addrEnd 39 a end_) (Cursor.round (removeBelow pudIndex saRemovePud)) end_
    (rounds 39 addr end_) addr

/-- A call of `my_p4d_free`. -/
structure P4dFree where
  /-- The pgd slot it is about, and what the slot held then. -/
  slot : Nat
  entry : Entry P4dTable
  /-- The page passed; `none` is the page of frame `0`. -/
  page : Option PtPage

/-- What `sa_remove` works on: the slots from `mm->pgd` on, and the calls of `my_p4d_free` so far. -/
structure Removal where
  pgd : Nat → Entry P4dTable
  frees : List P4dFree

section Remove

variable (l5 : Bool)

/-- `pgd_page`: the page the slot points to.  With four levels the slot is a p4d entry, and points to
a pud table. -/
def pgdPage (pgd : Entry P4dTable) : Option PtPage :=
  if l5 then pgd.child.map Table.page else ((p4dStart pgd).slot 0).child.map Table.page

/-- The loop of `sa_free_p4d` finds no entry. -/
def p4dEmpty (t : P4dTable) : Bool := (List.range (ptrsPerP4d l5)).all fun k ↦ (t.slot k).isNone

/-- `sa_free_p4d`.  `pgd_clear` does nothing with four levels. -/
def saFreeP4d (i : Nat) (s : Removal) : Removal :=
  if p4dEmpty l5 (p4dStart (s.pgd i)) then
    { pgd := if l5 then Function.update s.pgd i .none else s.pgd
      frees := s.frees ++ [⟨i, s.pgd i, pgdPage l5 (s.pgd i)⟩] }
  else s

/-- One round of the loop of `sa_remove`.  With four levels `pgd_present` is always true. -/
def saRemoveRound (addr next : Nat) (s : Removal) : Option Removal :=
  let i := pgdIndex l5 addr
  let pgd := s.pgd i
  if l5 && pgd.isNone then some s
  else
    (saRemoveP4d addr next ⟨p4dIndex l5 addr, (p4dStart pgd).slot⟩).map fun c ↦
      let pgd' := pgd.setChild { p4dStart pgd with slot := c.table }
      saFreeP4d l5 i { s with pgd := Function.update s.pgd i pgd' }

/-- The loop of `sa_remove`; `none` means that it does not end. -/
def saRemoveLoop (start end_ : Nat) : Removal → Option Removal :=
  forRange (fun a ↦ addrEnd (pgdirShift l5) a end_) (saRemoveRound l5) end_
    (rounds (pgdirShift l5) start end_) start

/-- `sa_remove`: the page tables after it. -/
def saRemove (mm : Mm) (start end_ : Nat) : Option Mm :=
  (saRemoveLoop l5 start end_ ⟨mm.pgd, []⟩).map fun s ↦ { mm with pgd := s.pgd }

end Remove

/-! ## What the walk does to the PTEs -/

/-- A walk clears the PTEs of its range, in any table of the level. -/
def Sweeps {ε : Type} (S M : Nat) (look : ε → Nat → Pte)
    (walk : Nat → Nat → Cursor ε → Option (Cursor ε)) : Prop :=
  ∀ a n t, 2 ^ 12 ∣ a → 2 ^ 12 ∣ n → a < n → n < 2 ^ 64 → a / (M * S) = (n - 1) / (M * S) →
    ∃ c, walk a n ⟨a / S % M, t⟩ = some c ∧ SweptUpTo S M look Pte.clear t c.table a n

/-- Short of the last page of the address space nothing wraps. -/
theorem pteAddrEnd_eq {a e : Nat} (ha : a < e) (he : e ≤ 2 ^ 64 - 2 ^ 12) :
    pteAddrEnd a e = min ((a / 2 ^ 12 + 1) * 2 ^ 12) e := by
  unfold pteAddrEnd wrapAdd alignDown pageSize pageShift
  simp only
  split <;> omega

theorem saRemovePte_sweeps : Sweeps (2 ^ 12) ptrs (fun pte _ ↦ pte) saRemovePte := by
  intro a n t ha hn hlt hn' hblock
  have hn'' : n ≤ 2 ^ 64 - 2 ^ 12 := by omega
  refine forRange_sweep (by decide) dvd_rfl hn ha (fun b hb ↦ pteAddrEnd_eq hb hn'')
    (fun b m pte hb hm hbm hmn hsame ↦ ⟨pte.clear, rfl, fun d hd ↦ ?_⟩) hlt hblock
    (lt_rounds 12 (by omega) hn') t
  have hin : b ≤ d ∧ d < m := by omega
  exact (if_pos hin).symm

/-- What is done below an entry shows at the addresses of the entry. -/
theorem removeBelow_look {ε : Type} {S M a n : Nat} {idx : Nat → Nat} {look : ε → Nat → Pte}
    {walk : Nat → Nat → Cursor ε → Option (Cursor ε)} (hidx : ∀ b, idx b = b / S % M)
    (hwalk : ∀ t, ∃ c, walk a n ⟨a / S % M, t⟩ = some c ∧
      SweptUpTo S M look Pte.clear t c.table a n) (e : Entry (Table ε)) :
    ∃ e', removeBelow idx walk a n e = some e' ∧ ∀ b, b / (M * S) = a / (M * S) →
      e'.look idx look b = if a ≤ b ∧ b < n then (e.look idx look b).clear else e.look idx look b := by
  cases hchild : e.child with
  | none =>
      refine ⟨e, by rw [removeBelow, hchild], fun b _ ↦ ?_⟩
      simp only [Entry.look, hchild]
      exact (ite_self _).symm
  | some t =>
      obtain ⟨c, hc, hswept⟩ := hwalk t.slot
      refine ⟨e.setChild { t with slot := c.table }, ?_, fun b hb ↦ ?_⟩
      · rw [removeBelow, hchild]
        dsimp only
        rw [hidx, hc]
        rfl
      · simp only [Entry.look, Entry.child_setChild, hchild, hidx]
        exact hswept b hb

/-- One level up. -/
theorem Sweeps.above {ε : Type} {S M : Nat} {look : ε → Nat → Pte}
    {walk : Nat → Nat → Cursor ε → Option (Cursor ε)} (h : Sweeps S M look walk) {shift : Nat}
    (hsize : M * S = 2 ^ shift) (hs : 12 ≤ shift) (hs' : shift < 64) {idx : Nat → Nat}
    (hidx : ∀ b, idx b = b / S % M) (M' : Nat) :
    Sweeps (2 ^ shift) M' (Entry.look idx look) fun a n ↦
      forRange (fun b ↦ addrEnd shift b n) (Cursor.round (removeBelow idx walk)) n
        (rounds shift a n) a := by
  intro a n t ha hn hlt hn' hblock
  refine forRange_sweep (Nat.two_pow_pos _) (pow_dvd_pow 2 hs) hn ha
    (fun b hb ↦ addrEnd_eq_min hs' hb hn') (fun b m e hb hm hbm hmn hsame ↦ ?_) hlt hblock
    (lt_rounds shift (by omega) hn') t
  rw [← hsize] at hsame ⊢
  exact removeBelow_look hidx (fun u ↦ h b m u hb hm hbm (hmn.trans_lt hn') hsame) e

theorem saRemovePmd_sweeps : Sweeps (2 ^ 21) ptrs pmdLook saRemovePmd :=
  saRemovePte_sweeps.above (by decide) (by decide) (by decide) (fun _ ↦ rfl) ptrs

theorem saRemovePud_sweeps : Sweeps (2 ^ 30) ptrs pudLook saRemovePud :=
  saRemovePmd_sweeps.above (by decide) (by decide) (by decide) (fun _ ↦ rfl) ptrs

theorem saRemoveP4d_sweeps (l5 : Bool) : Sweeps (2 ^ 39) (ptrsPerP4d l5) p4dLook saRemoveP4d :=
  saRemovePud_sweeps.above (by decide) (by decide) (by decide) (fun _ ↦ rfl) (ptrsPerP4d l5)

/-! ## The top level -/

section Top

variable {l5 : Bool} {s : Removal}

/-- An empty slot reads as an empty p4d table. -/
theorem pgdLook_eq (e : Entry P4dTable) (b : Nat) :
    pgdLook l5 e b = p4dLook ((p4dStart e).slot (p4dIndex l5 b)) b := by
  cases e <;> rfl

theorem p4dEmpty_iff {t : P4dTable} : p4dEmpty l5 t = true ↔ ∀ k < ptrsPerP4d l5, t.slot k = .none := by
  have hnone : ∀ e : Entry PudTable, e.isNone = true ↔ e = .none := fun e ↦ by
    cases e <;> simp [Entry.isNone]
  simp only [p4dEmpty, List.all_eq_true, List.mem_range, hnone]

theorem p4dIndex_lt (b : Nat) : p4dIndex l5 b < ptrsPerP4d l5 :=
  Nat.mod_lt _ (by cases l5 <;> decide)

/-- `sa_free_p4d` only unlinks a table that reads as nothing. -/
theorem saFreeP4d_look (i j b : Nat) : pgdLook l5 ((saFreeP4d l5 i s).pgd j) b = pgdLook l5 (s.pgd j) b := by
  unfold saFreeP4d
  by_cases hempty : p4dEmpty l5 (p4dStart (s.pgd i)) = true
  · rw [if_pos hempty]
    cases hl : l5 with
    | false => rfl
    | true =>
        show pgdLook true (Function.update s.pgd i .none j) b = _
        by_cases hj : j = i
        · have hnone := p4dEmpty_iff.mp hempty _ (p4dIndex_lt b)
          rw [hl] at hnone
          rw [hj, Function.update_self, pgdLook_eq (s.pgd i), hnone]
          rfl
        · rw [Function.update_of_ne hj]
  · rw [if_neg hempty]

/-- A round clears the PTEs of its piece. -/
theorem saRemoveRound_look {a n : Nat} (ha : 2 ^ 12 ∣ a) (hn : 2 ^ 12 ∣ n) (hlt : a < n)
    (hn' : n < 2 ^ 64) (hsame : a / 2 ^ pgdirShift l5 = (n - 1) / 2 ^ pgdirShift l5) (s : Removal) :
    ∃ s' e, saRemoveRound l5 a n s = some s' ∧
      (∀ j b, pgdLook l5 (s'.pgd j) b =
        pgdLook l5 (Function.update s.pgd (pgdIndex l5 a) e j) b) ∧
      ∀ b, b / 2 ^ pgdirShift l5 = a / 2 ^ pgdirShift l5 → pgdLook l5 e b =
        if a ≤ b ∧ b < n then (pgdLook l5 (s.pgd (pgdIndex l5 a)) b).clear
        else pgdLook l5 (s.pgd (pgdIndex l5 a)) b := by
  by_cases hskip : (l5 && (s.pgd (pgdIndex l5 a)).isNone) = true
  · refine ⟨s, s.pgd (pgdIndex l5 a), by simp only [saRemoveRound, hskip, if_true], ?_, fun b _ ↦ ?_⟩
    · intro j b
      rw [Function.update_eq_self]
    · have hnone : s.pgd (pgdIndex l5 a) = .none := by
        cases he : s.pgd (pgdIndex l5 a) <;> simp [he, Entry.isNone] at hskip ⊢
      rw [hnone]
      exact (ite_self _).symm
  · rw [two_pow_pgdirShift] at hsame ⊢
    obtain ⟨c, hc, hswept⟩ := saRemoveP4d_sweeps l5 a n (p4dStart (s.pgd (pgdIndex l5 a))).slot ha hn
      hlt hn' hsame
    have hc' : saRemoveP4d a n ⟨p4dIndex l5 a, (p4dStart (s.pgd (pgdIndex l5 a))).slot⟩ = some c := hc
    refine ⟨_, _, by simp only [saRemoveRound, hskip, hc', Option.map_some]; rfl,
      fun j b ↦ saFreeP4d_look _ j b, fun b hb ↦ ?_⟩
    have hstart : ∀ e : Entry P4dTable, ∀ t, p4dStart (e.setChild t) = t := fun e t ↦ by
      rw [p4dStart, Entry.child_setChild]
      rfl
    rw [pgdLook_eq, pgdLook_eq, hstart]
    exact hswept b hb

/-- The loop clears the PTEs of its range. -/
theorem saRemoveLoop_sweeps {start end_ : Nat} (ha : 2 ^ 12 ∣ start) (he : 2 ^ 12 ∣ end_)
    (hlt : start < end_) (he' : end_ < 2 ^ 64)
    (hblock : start / tableSpan l5 = (end_ - 1) / tableSpan l5) (pgd : Nat → Entry P4dTable) :
    ∃ s, saRemoveLoop l5 start end_ ⟨pgd, []⟩ = some s ∧
      SweptUpTo (2 ^ pgdirShift l5) ptrs (pgdLook l5) Pte.clear pgd s.pgd start end_ := by
  have hd : 2 ^ 12 ∣ 2 ^ pgdirShift l5 := pow_dvd_pow 2 (by cases l5 <;> decide)
  have hS : 0 < 2 ^ pgdirShift l5 := Nat.two_pow_pos _
  have hnext : ∀ a, a < end_ → addrEnd (pgdirShift l5) a end_ =
      min ((a / 2 ^ pgdirShift l5 + 1) * 2 ^ pgdirShift l5) end_ := fun a hae ↦
    addrEnd_eq_min (pgdirShift_lt l5) hae he'
  have hround : ∀ a (s : Removal), a < end_ →
      (start ≤ a ∧ 2 ^ 12 ∣ a ∧ (a < end_ → a = start ∨ 2 ^ pgdirShift l5 ∣ a) ∧
        SweptUpTo (2 ^ pgdirShift l5) ptrs (pgdLook l5) Pte.clear pgd s.pgd start a) →
      ∃ s', saRemoveRound l5 a (addrEnd (pgdirShift l5) a end_) s = some s' ∧
        start ≤ addrEnd (pgdirShift l5) a end_ ∧ 2 ^ 12 ∣ addrEnd (pgdirShift l5) a end_ ∧
        (addrEnd (pgdirShift l5) a end_ < end_ → addrEnd (pgdirShift l5) a end_ = start ∨
          2 ^ pgdirShift l5 ∣ addrEnd (pgdirShift l5) a end_) ∧
        SweptUpTo (2 ^ pgdirShift l5) ptrs (pgdLook l5) Pte.clear pgd s'.pgd start
          (addrEnd (pgdirShift l5) a end_) := by
    rintro a s hae ⟨hsa, hda, hstart, hswept⟩
    obtain ⟨hgt, hne, hsame⟩ := cut_spec hS hae (hnext a hae)
    have hdn := dvd_addrEnd (a := a) hd he
    obtain ⟨s', e, hs', hpgd, hlook⟩ := saRemoveRound_look hda hdn hgt (hne.trans_lt he') hsame s
    refine ⟨s', hs', hsa.trans hgt.le, hdn, fun hmore ↦ .inr ?_, fun b hb ↦ ?_⟩
    · have hn := hnext a hae
      rw [hn, min_eq_left (Nat.le_of_not_lt fun hc ↦ by rw [min_eq_right hc.le] at hn; omega)]
      exact dvd_mul_left _ _
    · have hab : a / (ptrs * 2 ^ pgdirShift l5) = start / (ptrs * 2 ^ pgdirShift l5) :=
        le_antisymm (by
          rw [show ptrs * 2 ^ pgdirShift l5 = tableSpan l5 from rfl, hblock]
          exact Nat.div_le_div_right (by omega)) (Nat.div_le_div_right hsa)
      rw [hpgd]
      exact hswept.round hS hsa hab (hstart hae) hae (hnext a hae) hlook b hb
  obtain ⟨s, hs, -, -, -, hswept⟩ := forRange_rule hS hnext hround hlt.le
    (fun _ ↦ lt_rounds (pgdirShift l5) (by omega) he') (s := ⟨pgd, []⟩)
    ⟨le_rfl, ha, fun _ ↦ .inl rfl, SweptUpTo.refl pgd start⟩
  exact ⟨s, hs, hswept⟩

end Top

/-! ## `sa_remove` undoes `map_range` -/

section Results

variable {l5 : Bool} {mm : Mm} {start end_ : Nat}

/-- What `sa_remove` does to the PTEs of all canonical addresses. -/
theorem saRemove_ptes (mm : Mm) (ha : start % pageSize = 0) (he : end_ % pageSize = 0)
    (hlt : start < end_) (he' : end_ < 2 ^ 64) (hhalf : SameHalf l5 start (end_ - 1)) :
    ∃ mm', saRemove l5 mm start end_ = some mm' ∧ ∀ a, IsCanonical l5 a → mm'.pteAt l5 a =
      if start ≤ a ∧ a < end_ then (mm.pteAt l5 a).clear else mm.pteAt l5 a := by
  obtain ⟨s, hs, hswept⟩ := saRemoveLoop_sweeps (Nat.dvd_of_mod_eq_zero ha)
    (Nat.dvd_of_mod_eq_zero he) hlt he' hhalf.block_eq mm.pgd
  refine ⟨{ mm with pgd := s.pgd }, by rw [saRemove, hs]; rfl, fun a hc ↦ ?_⟩
  by_cases hin : start ≤ a ∧ a < end_
  · have hsame : SameHalf l5 a start := by
      unfold SameHalf at hhalf ⊢
      omega
    exact hswept a hsame.block_eq
  · have hout := mirror_outside hlt hhalf hc hin
    have hmir := hswept (mirror l5 start a) (mirror_block l5 start a)
    rw [if_neg (by omega)] at hmir ⊢
    rw [← Mm.pteAt_congr (mirror_mod l5 start a), ← Mm.pteAt_congr (mirror_mod l5 start a) mm]
    exact hmir

/-- The arguments of a call of `map_range`, and the kernel's answers to it. -/
structure MapCall where
  tables : TableAnswers
  addr : Nat
  end_ : Nat
  pages : List Page

/-- `a` lies in the range of the call. -/
def MapCall.Covers (c : MapCall) (a : Nat) : Prop := c.addr ≤ a ∧ a < c.end_

/-- A range of whole pages inside `[SS_START, SS_END)`. -/
structure MapCall.InWindow (c : MapCall) : Prop where
  aligned : c.addr % pageSize = 0
  aligned_end : c.end_ % pageSize = 0
  start_le : ssStart ≤ c.addr
  lt : c.addr < c.end_
  le_end : c.end_ ≤ ssEnd

/-- Calls of `map_range`, one after the other, that all succeed. -/
def mapRanges (l5 : Bool) : List MapCall → Mm → Option Mm
  | [], mm => some mm
  | c :: cs, mm =>
      if (mapRange l5 c.tables c.addr c.pages mm c.end_).2 then none
      else mapRanges l5 cs (mapRange l5 c.tables c.addr c.pages mm c.end_).1

theorem mkPte_isPresent (start : Nat) (pages : List Page) (a : Nat) :
    (mkPte start pages a).isPresent = true := by
  unfold mkPte
  cases pages[pageIndex start a]? <;> rfl

/-- The window lies in the upper half. -/
theorem sameHalf_window (l5 : Bool) {a b : Nat} (ha : ssStart ≤ a) (ha' : a < ssEnd)
    (hb : ssStart ≤ b) (hb' : b < ssEnd) : SameHalf l5 a b := by
  unfold SameHalf
  simp only [ssStart, ssEnd] at ha ha' hb hb'
  rcases span_cases l5 with ⟨-, hh⟩ | ⟨-, hh⟩
  all_goals
    rw [hh]
    omega

theorem MapCall.InWindow.sameHalf {c : MapCall} (h : c.InWindow) (l5 : Bool) :
    SameHalf l5 c.addr (c.end_ - 1) := by
  obtain ⟨-, -, hs, hlt, he⟩ := h
  exact sameHalf_window l5 hs (by omega) (by omega) (by omega)

/-- The calls map their ranges and touch no other PTE. -/
theorem mapRanges_ptes {cs : List MapCall} {mm' : Mm} (hcs : ∀ c ∈ cs, c.InWindow)
    (h : mapRanges l5 cs mm = some mm') {a : Nat} (ha : IsCanonical l5 a) :
    ((∃ c ∈ cs, c.Covers a) → (mm'.pteAt l5 a).isPresent = true) ∧
      ((∀ c ∈ cs, ¬c.Covers a) → mm'.pteAt l5 a = mm.pteAt l5 a) := by
  induction cs generalizing mm with
  | nil =>
      obtain rfl : mm = mm' := Option.some.inj h
      exact ⟨fun ⟨c, hc, _⟩ ↦ (nomatch hc), fun _ ↦ rfl⟩
  | cons c cs ih =>
      have hc := hcs c List.mem_cons_self
      have hok : (mapRange l5 c.tables c.addr c.pages mm c.end_).2 = false := by
        by_contra hfail
        rw [mapRanges, if_pos (Bool.not_eq_false _ ▸ hfail)] at h
        cases h
      rw [mapRanges, if_neg (by rw [hok]; exact Bool.false_ne_true)] at h
      obtain ⟨ihin, ihout⟩ := ih (fun d hd ↦ hcs d (List.mem_cons_of_mem c hd)) h
      have hend : c.end_ < 2 ^ 64 := hc.le_end.trans_lt (by decide)
      obtain ⟨m, hm⟩ := mapRange_ptes l5 c.tables c.pages mm hc.aligned hc.aligned_end hc.lt hend
        (hc.sameHalf l5)
      obtain rfl := hm.done hok
      have hlook := hm.look a ha
      refine ⟨fun ⟨d, hd, hda⟩ ↦ ?_, fun hout ↦ ?_⟩
      · by_cases hlater : ∃ d ∈ cs, d.Covers a
        · exact ihin hlater
        · have hda' : c.addr ≤ a ∧ a < c.end_ := by
            rcases List.mem_cons.mp hd with rfl | hd
            · exact hda
            · exact absurd ⟨d, hd, hda⟩ hlater
          rw [ihout fun d hd hda ↦ hlater ⟨d, hd, hda⟩, hlook, if_pos hda']
          exact mkPte_isPresent _ _ _
      · have hno : ¬ (c.addr ≤ a ∧ a < c.end_) := hout c List.mem_cons_self
        rw [ihout fun d hd ↦ hout d (List.mem_cons_of_mem c hd), hlook, if_neg hno]

/-- **`sa_remove` clears exactly its range**, in any page-table tree; run over the window after
successful calls of `map_range`, it takes back what they mapped.  A PTE of the window that was present
before them goes too, no other one changes. -/
theorem saRemove_exact (l5 : Bool) (mm : Mm) :
    (∀ start end_, start % pageSize = 0 → end_ % pageSize = 0 → start < end_ → end_ < 2 ^ 64 →
      SameHalf l5 start (end_ - 1) → ∃ mm', saRemove l5 mm start end_ = some mm' ∧
        (∀ a, start ≤ a → a < end_ → (mm'.pteAt l5 a).isPresent = false) ∧
        ∀ a, IsCanonical l5 a → ¬ (start ≤ a ∧ a < end_) → mm'.pteAt l5 a = mm.pteAt l5 a) ∧
    ∀ (calls : List MapCall) (mapped : Mm), (∀ c ∈ calls, c.InWindow) →
      mapRanges l5 calls mm = some mapped →
      ∃ mm', saRemove l5 mapped ssStart ssEnd = some mm' ∧
        (∀ c ∈ calls, ∀ a, c.Covers a →
          (mapped.pteAt l5 a).isPresent = true ∧ mm'.pteAt l5 a = .none) ∧
        ∀ a, IsCanonical l5 a → (∀ c ∈ calls, ¬c.Covers a) →
          ¬ (ssStart ≤ a ∧ a < ssEnd ∧ (mm.pteAt l5 a).isPresent = true) →
          mm'.pteAt l5 a = mm.pteAt l5 a := by
  refine ⟨fun start end_ ha he hlt he' hhalf ↦ ?_, fun calls mapped hcalls hmapped ↦ ?_⟩
  · obtain ⟨mm', hmm', hptes⟩ := saRemove_ptes mm ha he hlt he' hhalf
    refine ⟨mm', hmm', fun a hlo hhi ↦ ?_, fun a hc hout ↦ ?_⟩
    · have hc : IsCanonical l5 a := by
        unfold IsCanonical SameHalf at *
        omega
      rw [hptes a hc, if_pos ⟨hlo, hhi⟩]
      exact Pte.isPresent_clear _
    · rw [hptes a hc, if_neg hout]
  · have hhalf : SameHalf l5 ssStart (ssEnd - 1) :=
      sameHalf_window l5 le_rfl (by decide) (by decide) (by decide)
    obtain ⟨mm', hmm', hptes⟩ := saRemove_ptes mapped (by decide) (by decide) (by decide) (by decide)
      hhalf
    refine ⟨mm', hmm', fun c hc a hca ↦ ?_, fun a hcan hout hwin ↦ ?_⟩
    · have hw := hcalls c hc
      have hlo : ssStart ≤ a := hw.start_le.trans hca.1
      have hhi : a < ssEnd := hca.2.trans_le hw.le_end
      have hcan : IsCanonical l5 a := sameHalf_window l5 hlo hhi hlo hhi
      have hpresent := (mapRanges_ptes hcalls hmapped hcan).1 ⟨c, hc, hca⟩
      refine ⟨hpresent, ?_⟩
      rw [hptes a hcan, if_pos ⟨hlo, hhi⟩, Pte.clear_of hpresent]
    · have hsame := (mapRanges_ptes hcalls hmapped hcan).2 hout
      rw [hptes a hcan, hsame]
      by_cases hin : ssStart ≤ a ∧ a < ssEnd
      · rw [if_pos hin, Pte.clear_of_not]
        exact Bool.eq_false_iff.mpr fun hp ↦ hwin ⟨hin.1, hin.2, hp⟩
      · rw [if_neg hin]

/-- Two pages at the start of the window, mapped and removed. -/
theorem saRemove_exact_twoPages :
    ∃ mm', saRemove false (mapRange false (fun _ _ ↦ some 0) ssStart [7, 8] .empty
        (ssStart + 2 ^ 13)).1 ssStart ssEnd = some mm' ∧
      mm'.pteAt false (ssStart + 2 ^ 12) = .none := by
  have hwin : ∀ c ∈ [(⟨fun _ _ ↦ some 0, ssStart, ssStart + 2 ^ 13, [7, 8]⟩ : MapCall)],
      c.InWindow := by
    intro c hc
    obtain rfl := List.mem_singleton.mp hc
    exact ⟨by decide, by decide, le_rfl, by decide, by decide⟩
  obtain ⟨mm', hmm', hgone, -⟩ := (saRemove_exact false .empty).2 _
    (mapRange false (fun _ _ ↦ some 0) ssStart [7, 8] .empty (ssStart + 2 ^ 13)).1 hwin
    (if_neg (by decide +kernel))
  exact ⟨mm', hmm', (hgone _ List.mem_cons_self _ ⟨by decide, by decide⟩).2⟩

end Results

end ShadowStack.Lkm
