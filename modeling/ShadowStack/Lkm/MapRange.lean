import ShadowStack.Lkm.PageTable

/-!
# `map_range`

`map_pte_range` to `map_p4d_range` and `map_range` of `lkm/core/api.c`, with the `my_pXd_alloc`
helpers of `lkm/core/pt_bindings.h`.  Whether the kernel hands out a missing table is an answer
from outside, one for each table the walk may ask for.

The four upper functions have one shape (get or allocate the table below an entry, then loop over
its slots), written once as `mapLevel`; its rule `mapLevel_rewrites` is used once a level.  The
result, `mapRange_rewrites`, covers success and failure together: a prefix of the range is mapped,
all of it on success, and on failure the prefix ends where a table was refused.
-/

namespace ShadowStack.Lkm

open Lib

/-- The kernel's answers to `__pXd_alloc`: the page of the new table, or `none` for `-ENOMEM`.
The table of a level is named by the number of the region it covers. -/
abbrev TableAnswers := Level → Nat → Option PtPage

/-- What the walk keeps beside the tables: their counts, as `__pXd_alloc` raises them, and the indices
it has read `pages[]` at, the last one first. -/
structure Counters where
  nrPtes : Int
  nrPmds : Int
  nrPuds : Int
  reads : List Nat

/-- `my_pXd_alloc`: the table below an entry, a new empty one if the entry is none and the kernel
grants it. -/
def allocTable {ε : Type} (granted : Option PtPage) (fresh : ε) : Entry (Table ε) →
    Option (Table ε)
  | .none => granted.map fun pg ↦ ⟨pg, fun _ ↦ fresh⟩
  | .bad t | .table t => some t

/-- The common shape of `map_pte_range` to `map_p4d_range`: get the table below `e`, give up if it
is missing and refused, else loop over the slots that `[addr, end_)` touches. -/
def mapLevel {ε : Type} (idx : Nat → Nat) (next : Nat → Nat) (fuel : Nat)
    (granted : Nat → Option PtPage) (fresh : ε) (inc : Counters → Counters)
    (body : Nat → Nat → ε → Counters → ε × Counters × Bool) (end_ addr : Nat)
    (e : Entry (Table ε)) (c : Counters) : Entry (Table ε) × Counters × Bool :=
  match allocTable (granted addr) fresh e with
  | Option.none => (e, c, true)
  | some t =>
      let r := eachSlot next (fun a ↦ a != end_) (fun _ ↦ body) fuel (idx addr) addr t.slot
        (if e.isNone then inc c else c)
      (e.setChild { t with slot := r.1 }, r.2.1, r.2.2)

section Walk

variable (l5 : Bool) (tables : TableAnswers) (start : Nat) (pages : List Page)

/-- `(addr - start) >> PAGE_SHIFT`. -/
def pageIndex (addr : Nat) : Nat := wrapSub addr start / pageSize

/-- `mk_pte(pages->pages[(addr - start) >> PAGE_SHIFT], PAGE_SHARED)`. -/
def mkPte (addr : Nat) : Pte :=
  match pages[pageIndex start addr]? with
  | some p => .present p
  | none => .wild

/-- Whether `__p4d_alloc` is granted; with four levels `pgd_none` is false and the kernel is never
asked. -/
def p4dGranted (a : Nat) : Option PtPage := if l5 then tables .p4d (a / 2 ^ 48) else some 0

/-- `map_pte_range`. -/
def mapPteRange (addr end_ : Nat) : Entry PteTable → Counters → Entry PteTable × Counters × Bool :=
  mapLevel pteIndex (fun a ↦ wrapAdd a pageSize) (rounds 12 addr end_)
    (fun a ↦ tables .pte (a / 2 ^ 21)) .none
    (fun c ↦ { c with nrPtes := c.nrPtes + 1 })
    (fun a _ _ c ↦ (mkPte start pages a, { c with reads := pageIndex start a :: c.reads }, false))
    end_ addr

/-- `map_pmd_range`. -/
def mapPmdRange (addr end_ : Nat) : Entry PmdTable → Counters → Entry PmdTable × Counters × Bool :=
  mapLevel pmdIndex (fun a ↦ addrEnd 21 a end_) (rounds 21 addr end_)
    (fun a ↦ tables .pmd (a / 2 ^ 30)) .none
    (fun c ↦ { c with nrPmds := c.nrPmds + 1 }) (mapPteRange tables start pages) end_ addr

/-- `map_pud_range`. -/
def mapPudRange (addr end_ : Nat) : Entry PudTable → Counters → Entry PudTable × Counters × Bool :=
  mapLevel pudIndex (fun a ↦ addrEnd 30 a end_) (rounds 30 addr end_)
    (fun a ↦ tables .pud (a / 2 ^ 39)) .none
    (fun c ↦ { c with nrPuds := c.nrPuds + 1 }) (mapPmdRange tables start pages) end_ addr

/-- `map_p4d_range`. -/
def mapP4dRange (addr end_ : Nat) : Entry P4dTable → Counters → Entry P4dTable × Counters × Bool :=
  mapLevel (p4dIndex l5) (fun a ↦ addrEnd 39 a end_) (rounds 39 addr end_)
    (p4dGranted l5 tables) .none id
    (mapPudRange tables start pages) end_ addr

/-- `unmap_range`: the walk that cleared the PTEs is commented out in the source, which leaves the
TLB flush. -/
def unmapRange (mm : Mm) (_addr _end : Nat) : Mm := mm

/-- The loop of `map_range` over the pgd table. -/
def mapPgdLoop (end_ : Nat) (pgd : Nat → Entry P4dTable) (c : Counters) :
    (Nat → Entry P4dTable) × Counters × Bool :=
  eachSlot (fun a ↦ addrEnd (pgdirShift l5) a end_) (fun a ↦ a != end_)
    (fun _ ↦ mapP4dRange l5 tables start pages) (rounds (pgdirShift l5) start end_)
    (pgdIndex l5 start) start pgd c

/-- `map_range`: the new page tables, and whether it failed with `-ENOMEM`. -/
def mapRange (mm : Mm) (end_ : Nat) : Mm × Bool :=
  let r := mapPgdLoop l5 tables start pages end_ mm.pgd ⟨mm.nrPtes, mm.nrPmds, mm.nrPuds, []⟩
  let mm' : Mm := ⟨r.1, r.2.1.nrPtes, r.2.1.nrPmds, r.2.1.nrPuds⟩
  if r.2.2 then (unmapRange mm' start end_, true) else (mm', false)

end Walk

/-! ## Refused addresses -/

/-- Whether the walk is refused a table for `a` at or below an entry. -/
def Entry.denied {ε : Type} (idx : Nat → Nat) (granted : Nat → Option PtPage) (fresh : ε)
    (D : ε → Nat → Prop) (e : Entry (Table ε)) (a : Nat) : Prop :=
  match e.child with
  | Option.none => granted a = Option.none ∨ D fresh a
  | some t => D (t.slot (idx a)) a

section Denied

variable (l5 : Bool) (tables : TableAnswers)

/-- No PTE table for `a` below a pmd entry. -/
def pmdDenied : Entry PteTable → Nat → Prop :=
  Entry.denied pteIndex (fun a ↦ tables .pte (a / 2 ^ 21)) Pte.none fun _ _ ↦ False

def pudDenied : Entry PmdTable → Nat → Prop :=
  Entry.denied pmdIndex (fun a ↦ tables .pmd (a / 2 ^ 30)) .none (pmdDenied tables)

def p4dDenied : Entry PudTable → Nat → Prop :=
  Entry.denied pudIndex (fun a ↦ tables .pud (a / 2 ^ 39)) .none (pudDenied tables)

def pgdDenied : Entry P4dTable → Nat → Prop :=
  Entry.denied (p4dIndex l5) (p4dGranted l5 tables) .none (p4dDenied tables)

/-- Mapping the page of `a` needs a table that is neither linked nor granted. -/
def Mm.denied (mm : Mm) (a : Nat) : Prop := pgdDenied l5 tables (mm.pgd (pgdIndex l5 a)) a

end Denied

/-! ## What the walk does -/

/-- **One level of the walk.**  If the body rewrites the piece of a slot, `mapLevel` rewrites the
range below the entry. -/
theorem mapLevel_rewrites {ε : Type} {S M end_ addr fuel : Nat} (hS : 0 < S)
    (look : ε → Nat → Pte) {idx next : Nat → Nat} {granted : Nat → Option PtPage} {fresh : ε}
    {inc : Counters → Counters} {body : Nat → Nat → ε → Counters → ε × Counters × Bool}
    {new : Nat → Pte} {D : ε → Nat → Prop} {A : Nat → Prop}
    (hidx : ∀ a, idx a = a / S % M) (hfresh : ∀ a, look fresh a = .none)
    (hgranted : ∀ a b, a / (M * S) = b / (M * S) → granted a = granted b)
    (hA : ∀ a, A a → a < end_ → A (next a))
    (hnext : ∀ a, A a → a < end_ → next a = min ((a / S + 1) * S) end_)
    (hbody : ∀ a n s x, A a → A n → a < n → n ≤ end_ → a / S = (n - 1) / S →
      ∃ m, Rewrites (fun b ↦ b / S = a / S) (look s) (look (body a n s x).1) new (D s) a n m
        (body a n s x).2.2)
    (haddr : A addr) (hlt : addr < end_) (hblock : addr / (M * S) = (end_ - 1) / (M * S))
    (hfuel : (end_ - 1) / S - addr / S < fuel) (e : Entry (Table ε)) (c : Counters) :
    ∃ m, Rewrites (fun b ↦ b / (M * S) = addr / (M * S)) (e.look idx look)
      ((mapLevel idx next fuel granted fresh inc body end_ addr e c).1.look idx look) new
      (e.denied idx granted fresh D) addr end_ m
      (mapLevel idx next fuel granted fresh inc body end_ addr e c).2.2 := by
  have hagain : ∀ a : Nat, (a != end_) = true ↔ a ≠ end_ := by simp
  cases ht : allocTable (granted addr) fresh e with
  | none =>
      -- the table is missing and refused: nothing happens
      have hnone : e = .none ∧ granted addr = none := by
        cases e <;> simp_all [allocTable]
      obtain ⟨rfl, hg⟩ := hnone
      refine ⟨addr, ?_⟩
      simp only [mapLevel, ht]
      exact
        { le := le_rfl
          le_end := hlt.le
          done := by simp
          stopped := fun _ ↦ ⟨hlt, .inl hg⟩
          granted := fun a hlo hhi ↦ absurd hhi (Nat.not_lt.mpr hlo)
          look := fun a _ ↦ by rw [if_neg (by omega)] }
  | some t =>
      obtain ⟨m, hm⟩ := eachSlot_prefix (M := M) (e := end_) (t := t.slot) hS hA hnext hagain
        (fun _ ↦ hbody)
        (x := if e.isNone then inc c else c) haddr hlt hblock hfuel
      -- the slots the loop starts from read as the entry did
      have hlook : ∀ a, e.look idx look a = look (t.slot (a / S % M)) a := by
        intro a
        cases e with
        | none =>
            obtain ⟨pg, -, rfl⟩ := Option.map_eq_some_iff.mp ht
            simp [Entry.look, Entry.child, hfresh]
        | bad t' => obtain rfl : t' = t := Option.some.inj ht; simp [Entry.look, Entry.child, hidx]
        | table t' =>
            obtain rfl : t' = t := Option.some.inj ht
            simp [Entry.look, Entry.child, hidx]
      -- and, in this block, refuse what the entry refuses
      have hdenied : ∀ a, a / (M * S) = addr / (M * S) →
          (e.denied idx granted fresh D a ↔ D (t.slot (a / S % M)) a) := by
        intro a ha
        cases e with
        | none =>
            obtain ⟨pg, hg, rfl⟩ := Option.map_eq_some_iff.mp ht
            simp [Entry.denied, Entry.child, hgranted a addr ha, hg]
        | bad t' =>
            obtain rfl : t' = t := Option.some.inj ht
            simp [Entry.denied, Entry.child, hidx]
        | table t' =>
            obtain rfl : t' = t := Option.some.inj ht
            simp [Entry.denied, Entry.child, hidx]
      refine ⟨m, ?_⟩
      simp only [mapLevel, ht, hidx addr]
      exact
        { le := hm.le
          le_end := hm.le_end
          done := hm.done
          stopped := fun h ↦ by
            obtain ⟨h₁, h₂⟩ := hm.stopped h
            refine ⟨h₁, (hdenied m ?_).mpr h₂⟩
            exact le_antisymm (by rw [hblock]; exact Nat.div_le_div_right (by omega))
              (Nat.div_le_div_right hm.le)
          granted := fun a hlo hhi hd ↦ by
            have hle := hm.le_end
            refine hm.granted a hlo hhi ((hdenied a ?_).mp hd)
            exact le_antisymm (by rw [hblock]; exact Nat.div_le_div_right (by omega))
              (Nat.div_le_div_right hlo)
          look := fun a ha ↦ by
            rw [hlook a, ← hm.look a ha]
            simp [Entry.look, hidx] }

/-- What is known of the addresses the rounds of the walk start at. -/
structure PageFrom (start a : Nat) : Prop where
  start_aligned : start % pageSize = 0
  aligned : a % pageSize = 0
  le : start ≤ a

section Range

variable {l5 : Bool} {tables : TableAnswers} {start : Nat} {pages : List Page}

/-- Cutting at slot boundaries keeps page alignment. -/
theorem pageFrom_addrEnd {shift a e : Nat} (hs : 12 ≤ shift) (hs' : shift < 64)
    (he : PageFrom start e) (he' : e < 2 ^ 64) (ha : PageFrom start a) (hlt : a < e) :
    PageFrom start (addrEnd shift a e) := by
  rw [addrEnd_eq_min hs' hlt he']
  rcases min_choice ((a / 2 ^ shift + 1) * 2 ^ shift) e with h | h
  · rw [h]
    refine ⟨ha.start_aligned, ?_, ha.le.trans ?_⟩
    · refine Nat.mod_eq_zero_of_dvd (Dvd.dvd.mul_left ?_ _)
      exact pow_dvd_pow 2 hs
    · exact (Nat.lt_mul_div_succ a (Nat.two_pow_pos _)).le.trans (by rw [mul_comm])
  · rw [h]; exact he

/-- The step of the last level: one page further, which is the next page boundary. -/
theorem wrapAdd_pageSize {b n : Nat} (hb : PageFrom start b) (hn : PageFrom start n) (hbn : b < n)
    (hn' : n < 2 ^ 64) :
    PageFrom start (wrapAdd b pageSize) ∧ wrapAdd b pageSize = min ((b / 2 ^ 12 + 1) * 2 ^ 12) n := by
  have h₁ := hb.aligned
  have h₂ := hn.aligned
  have hstep : wrapAdd b pageSize = b + pageSize := by
    rw [wrapAdd_eq]
    simp only [pageSize, pageShift] at h₁ h₂ ⊢
    exact wrap_of_lt (by omega)
  rw [hstep]
  refine ⟨⟨hb.start_aligned, ?_, hb.le.trans (Nat.le_add_right _ _)⟩, ?_⟩
  · rw [Nat.add_mod_right]
    exact hb.aligned
  · simp only [pageSize, pageShift] at h₁ h₂ ⊢
    omega

/-- The addresses of one page have one PTE made for them. -/
theorem mkPte_congr {b d n : Nat} (hb : PageFrom start b) (hn : PageFrom start n)
    (hsame : b / 2 ^ 12 = (n - 1) / 2 ^ 12) (hd : b ≤ d) (hd' : d < n) :
    mkPte start pages d = mkPte start pages b := by
  have h₁ := hb.aligned
  have h₂ := hn.aligned
  have h₃ := hb.le
  have h₄ := hb.start_aligned
  simp only [pageSize, pageShift] at h₁ h₂ h₄
  have h : pageIndex start d = pageIndex start b := by
    simp only [pageIndex, wrapSub, pageSize, pageShift]
    omega
  simp only [mkPte, h]

/-- One round of the last level writes one PTE, which all addresses of its page read. -/
theorem pteRound_rewrites {b n : Nat} (hb : PageFrom start b) (hn : PageFrom start n) (hbn : b < n)
    (hsame : b / 2 ^ 12 = (n - 1) / 2 ^ 12) (s : Pte) :
    ∃ m, Rewrites (fun d ↦ d / 2 ^ 12 = b / 2 ^ 12) (fun _ ↦ s) (fun _ ↦ mkPte start pages b)
      (mkPte start pages) (fun _ ↦ False) b n m false := by
  refine ⟨n, ?_⟩
  have h₁ := hb.aligned
  have h₂ := hn.aligned
  simp only [pageSize, pageShift] at h₁ h₂
  exact
    { le := hbn.le
      le_end := le_rfl
      done := fun _ ↦ rfl
      stopped := by simp
      granted := fun _ _ _ h ↦ h
      look := fun d hd ↦ by
        rw [if_pos (by omega)]
        exact (mkPte_congr hb hn hsame (by omega) (by omega)).symm }

/-- A table request depends on the region of the table only. -/
theorem tables_congr {shift : Nat} (level : Level) {a b c : Nat} (hc : c = 2 ^ shift)
    (h : a / c = b / c) : tables level (a / 2 ^ shift) = tables level (b / 2 ^ shift) := by
  rw [hc] at h
  rw [h]

theorem p4dGranted_congr {a b : Nat}
    (h : a / (ptrsPerP4d l5 * 2 ^ 39) = b / (ptrsPerP4d l5 * 2 ^ 39)) :
    p4dGranted l5 tables a = p4dGranted l5 tables b := by
  cases l5 with
  | false => rfl
  | true =>
      have h' : a / 2 ^ 48 = b / 2 ^ 48 := by simpa [ptrsPerP4d] using h
      simp only [p4dGranted, h']

theorem mapPteRange_rewrites {a n : Nat} (ha : PageFrom start a) (hn : PageFrom start n)
    (hlt : a < n) (hn' : n < 2 ^ 64) (hblock : a / 2 ^ 21 = (n - 1) / 2 ^ 21)
    (s : Entry PteTable) (x : Counters) :
    ∃ m, Rewrites (fun b ↦ b / 2 ^ 21 = a / 2 ^ 21) (pmdLook s)
      (pmdLook (mapPteRange tables start pages a n s x).1) (mkPte start pages) (pmdDenied tables s)
      a n m (mapPteRange tables start pages a n s x).2.2 :=
  mapLevel_rewrites (S := 2 ^ 12) (M := 512) (A := PageFrom start)
    (D := fun _ _ ↦ False) (by decide) (fun pte _ ↦ pte) (fun _ ↦ rfl) (fun _ ↦ rfl)
    (fun _ _ h ↦ tables_congr .pte (by decide) h)
    (fun _ hb hbn ↦ (wrapAdd_pageSize hb hn hbn hn').1)
    (fun _ hb hbn ↦ (wrapAdd_pageSize hb hn hbn hn').2)
    (fun _ _ s' _ hb hk hbk _ hsame ↦ pteRound_rewrites hb hk hbk hsame s')
    ha hlt (by simpa using hblock) (lt_rounds 12 (by omega) hn') s x

theorem mapPmdRange_rewrites {a n : Nat} (ha : PageFrom start a) (hn : PageFrom start n)
    (hlt : a < n) (hn' : n < 2 ^ 64) (hblock : a / 2 ^ 30 = (n - 1) / 2 ^ 30)
    (s : Entry PmdTable) (x : Counters) :
    ∃ m, Rewrites (fun b ↦ b / 2 ^ 30 = a / 2 ^ 30) (pudLook s)
      (pudLook (mapPmdRange tables start pages a n s x).1) (mkPte start pages) (pudDenied tables s)
      a n m (mapPmdRange tables start pages a n s x).2.2 := by
  refine mapLevel_rewrites (S := 2 ^ 21) (M := 512) (A := PageFrom start) (by decide) _
    (fun _ ↦ rfl) (fun _ ↦ rfl) (fun _ _ h ↦ tables_congr .pmd (by decide) h)
    (fun b hb hbn ↦ pageFrom_addrEnd (by decide) (by decide) hn hn' hb hbn)
    (fun b _ hbn ↦ addrEnd_eq_min (by decide) hbn hn') ?_ ha hlt (by simpa using hblock)
    (lt_rounds 21 (by omega) hn') s x
  intro b k s' x' hb hk hbk hkn hsame
  exact mapPteRange_rewrites hb hk hbk (by omega) hsame s' x'

theorem mapPudRange_rewrites {a n : Nat} (ha : PageFrom start a) (hn : PageFrom start n)
    (hlt : a < n) (hn' : n < 2 ^ 64) (hblock : a / 2 ^ 39 = (n - 1) / 2 ^ 39)
    (s : Entry PudTable) (x : Counters) :
    ∃ m, Rewrites (fun b ↦ b / 2 ^ 39 = a / 2 ^ 39) (p4dLook s)
      (p4dLook (mapPudRange tables start pages a n s x).1) (mkPte start pages) (p4dDenied tables s)
      a n m (mapPudRange tables start pages a n s x).2.2 := by
  refine mapLevel_rewrites (S := 2 ^ 30) (M := 512) (A := PageFrom start) (by decide) _
    (fun _ ↦ rfl) (fun _ ↦ rfl) (fun _ _ h ↦ tables_congr .pud (by decide) h)
    (fun b hb hbn ↦ pageFrom_addrEnd (by decide) (by decide) hn hn' hb hbn)
    (fun b _ hbn ↦ addrEnd_eq_min (by decide) hbn hn') ?_ ha hlt (by simpa using hblock)
    (lt_rounds 30 (by omega) hn') s x
  intro b k s' x' hb hk hbk hkn hsame
  exact mapPmdRange_rewrites hb hk hbk (by omega) hsame s' x'

theorem mapP4dRange_rewrites {a n : Nat} (ha : PageFrom start a) (hn : PageFrom start n)
    (hlt : a < n) (hn' : n < 2 ^ 64)
    (hblock : a / 2 ^ pgdirShift l5 = (n - 1) / 2 ^ pgdirShift l5)
    (s : Entry P4dTable) (x : Counters) :
    ∃ m, Rewrites (fun b ↦ b / 2 ^ pgdirShift l5 = a / 2 ^ pgdirShift l5) (pgdLook l5 s)
      (pgdLook l5 (mapP4dRange l5 tables start pages a n s x).1) (mkPte start pages)
      (pgdDenied l5 tables s) a n m (mapP4dRange l5 tables start pages a n s x).2.2 := by
  rw [two_pow_pgdirShift] at hblock ⊢
  refine mapLevel_rewrites (S := 2 ^ 39) (M := ptrsPerP4d l5) (A := PageFrom start) (by decide) _
    (fun _ ↦ rfl) (fun _ ↦ rfl) (fun _ _ ↦ p4dGranted_congr)
    (fun b hb hbn ↦ pageFrom_addrEnd (by decide) (by decide) hn hn' hb hbn)
    (fun b _ hbn ↦ addrEnd_eq_min (by decide) hbn hn') ?_ ha hlt hblock
    (lt_rounds 39 (by omega) hn') s x
  intro b k s' x' hb hk hbk hkn hsame
  exact mapPudRange_rewrites hb hk hbk (by omega) hsame s' x'

theorem mapPgdLoop_rewrites (tables : TableAnswers) (pages : List Page) {end_ : Nat}
    (hs : start % pageSize = 0) (he : end_ % pageSize = 0)
    (hlt : start < end_) (he' : end_ < 2 ^ 64)
    (hblock : start / (ptrs * 2 ^ pgdirShift l5) = (end_ - 1) / (ptrs * 2 ^ pgdirShift l5))
    (pgd : Nat → Entry P4dTable) (c : Counters) :
    ∃ m, Rewrites
      (fun b ↦ b / (ptrs * 2 ^ pgdirShift l5) = start / (ptrs * 2 ^ pgdirShift l5))
      (fun b ↦ pgdLook l5 (pgd (pgdIndex l5 b)) b)
      (fun b ↦ pgdLook l5 ((mapPgdLoop l5 tables start pages end_ pgd c).1 (pgdIndex l5 b)) b)
      (mkPte start pages) (fun b ↦ pgdDenied l5 tables (pgd (pgdIndex l5 b)) b) start end_ m
      (mapPgdLoop l5 tables start pages end_ pgd c).2.2 := by
  have hfrom : PageFrom start end_ := ⟨hs, he, hlt.le⟩
  have hshift := pgdirShift_lt l5
  have h12 : 12 ≤ pgdirShift l5 := by cases l5 <;> decide
  rw [mapPgdLoop]
  exact eachSlot_prefix (S := 2 ^ pgdirShift l5) (M := ptrs) (e := end_)
    (A := PageFrom start) (D := pgdDenied l5 tables) (Nat.two_pow_pos _)
    (fun b hb hbn ↦ pageFrom_addrEnd h12 hshift hfrom he' hb hbn)
    (fun b _ hbn ↦ addrEnd_eq_min hshift hbn he') (by simp)
    (fun _ b k s' x' hb hk hbk hkn hsame ↦ mapP4dRange_rewrites hb hk hbk (by omega) hsame s' x')
    ⟨hs, hs, le_rfl⟩ hlt hblock (lt_rounds (pgdirShift l5) (by omega) he')

/-- **`map_range` maps a prefix of its range**, and says which: all of it unless it failed; up to
an address whose tables were refused if it failed; nothing if the start was refused.  Addresses
of the same half of the address space outside the prefix keep their PTEs.  Its cleanup being a TLB
flush, it leaves what the loop left, also on failure. -/
theorem mapRange_rewrites (l5 : Bool) (tables : TableAnswers) (pages : List Page) {end_ : Nat}
    (mm : Mm) (hs : start % pageSize = 0)
    (he : end_ % pageSize = 0) (hlt : start < end_) (he' : end_ < 2 ^ 64)
    (hblock : start / (ptrs * 2 ^ pgdirShift l5) = (end_ - 1) / (ptrs * 2 ^ pgdirShift l5)) :
    ∃ m, Rewrites
      (fun b ↦ b / (ptrs * 2 ^ pgdirShift l5) = start / (ptrs * 2 ^ pgdirShift l5))
      (mm.pteAt l5) ((mapRange l5 tables start pages mm end_).1.pteAt l5) (mkPte start pages)
      (mm.denied l5 tables) start end_ m (mapRange l5 tables start pages mm end_).2 := by
  obtain ⟨m, hm⟩ := mapPgdLoop_rewrites tables pages hs he hlt he' hblock
    mm.pgd ⟨mm.nrPtes, mm.nrPmds, mm.nrPuds, []⟩
  refine ⟨m, ?_⟩
  rw [mapRange]
  generalize mapPgdLoop l5 tables start pages end_ mm.pgd _ = r at hm ⊢
  obtain ⟨pgd, c, err⟩ := r
  cases err <;> exact hm

end Range

/-! ## Tables stay -/

/-- An entry that links a table still links it, with slots related by `R`. -/
def Entry.Keeps {ε : Type} (R : ε → ε → Prop) : Entry (Table ε) → Entry (Table ε) → Prop
  | .none, _ => True
  | .bad t, .bad t' => t'.page = t.page ∧ ∀ i, R (t.slot i) (t'.slot i)
  | .table t, .table t' => t'.page = t.page ∧ ∀ i, R (t.slot i) (t'.slot i)
  | _, _ => False

def pmdKeeps : Entry PteTable → Entry PteTable → Prop := Entry.Keeps fun _ _ ↦ True
def pudKeeps : Entry PmdTable → Entry PmdTable → Prop := Entry.Keeps pmdKeeps
def p4dKeeps : Entry PudTable → Entry PudTable → Prop := Entry.Keeps pudKeeps
def pgdKeeps : Entry P4dTable → Entry P4dTable → Prop := Entry.Keeps p4dKeeps

/-- Every table of every level that is linked in `mm` is linked at the same place in `mm'`. -/
def Mm.Keeps (mm mm' : Mm) : Prop := ∀ i, pgdKeeps (mm.pgd i) (mm'.pgd i)

section Keeps

variable {ε : Type} {R : ε → ε → Prop}

theorem Entry.Keeps.refl (hR : ∀ s, R s s) (e : Entry (Table ε)) : e.Keeps R e := by
  cases e with
  | none => trivial
  | bad t => exact ⟨rfl, fun _ ↦ hR _⟩
  | table t => exact ⟨rfl, fun _ ↦ hR _⟩

theorem Entry.Keeps.trans (hR : ∀ s₁ s₂ s₃, R s₁ s₂ → R s₂ s₃ → R s₁ s₃) (e₁ e₂ e₃ : Entry (Table ε))
    (h₁ : e₁.Keeps R e₂) (h₂ : e₂.Keeps R e₃) : e₁.Keeps R e₃ := by
  cases e₁ with
  | none => trivial
  | bad t =>
      cases e₂ <;> first | exact h₁.elim | skip
      cases e₃ <;> first | exact h₂.elim | skip
      exact ⟨h₂.1.trans h₁.1, fun i ↦ hR _ _ _ (h₁.2 i) (h₂.2 i)⟩
  | table t =>
      cases e₂ <;> first | exact h₁.elim | skip
      cases e₃ <;> first | exact h₂.elim | skip
      exact ⟨h₂.1.trans h₁.1, fun i ↦ hR _ _ _ (h₁.2 i) (h₂.2 i)⟩

/-- One level of the walk keeps the tables below an entry if its body does. -/
theorem mapLevel_keeps {idx next : Nat → Nat} {fuel : Nat} {granted : Nat → Option PtPage} {fresh : ε}
    {inc : Counters → Counters} {body : Nat → Nat → ε → Counters → ε × Counters × Bool}
    (hrefl : ∀ s, R s s) (htrans : ∀ s₁ s₂ s₃, R s₁ s₂ → R s₂ s₃ → R s₁ s₃)
    (hbody : ∀ a n s c, R s (body a n s c).1) (end_ addr : Nat) (e : Entry (Table ε)) (c : Counters) :
    e.Keeps R (mapLevel idx next fuel granted fresh inc body end_ addr e c).1 := by
  cases ht : allocTable (granted addr) fresh e with
  | none =>
      simp only [mapLevel, ht]
      exact Entry.Keeps.refl hrefl e
  | some t =>
      simp only [mapLevel, ht]
      cases e with
      | none => trivial
      | bad t' =>
          obtain rfl : t' = t := Option.some.inj ht
          exact ⟨rfl, eachSlot_rel hrefl htrans fun _ ↦ hbody⟩
      | table t' =>
          obtain rfl : t' = t := Option.some.inj ht
          exact ⟨rfl, eachSlot_rel hrefl htrans fun _ ↦ hbody⟩

end Keeps

section KeepsRange

variable (l5 : Bool) (tables : TableAnswers) (start : Nat) (pages : List Page)

theorem pmdKeeps.refl : ∀ e, pmdKeeps e e := Entry.Keeps.refl fun _ ↦ trivial
theorem pudKeeps.refl : ∀ e, pudKeeps e e := Entry.Keeps.refl pmdKeeps.refl
theorem p4dKeeps.refl : ∀ e, p4dKeeps e e := Entry.Keeps.refl pudKeeps.refl
theorem pgdKeeps.refl : ∀ e, pgdKeeps e e := Entry.Keeps.refl p4dKeeps.refl

theorem pmdKeeps.trans : ∀ e₁ e₂ e₃, pmdKeeps e₁ e₂ → pmdKeeps e₂ e₃ → pmdKeeps e₁ e₃ :=
  Entry.Keeps.trans fun _ _ _ _ _ ↦ trivial

theorem pudKeeps.trans : ∀ e₁ e₂ e₃, pudKeeps e₁ e₂ → pudKeeps e₂ e₃ → pudKeeps e₁ e₃ :=
  Entry.Keeps.trans pmdKeeps.trans

theorem p4dKeeps.trans : ∀ e₁ e₂ e₃, p4dKeeps e₁ e₂ → p4dKeeps e₂ e₃ → p4dKeeps e₁ e₃ :=
  Entry.Keeps.trans pudKeeps.trans

theorem pgdKeeps.trans : ∀ e₁ e₂ e₃, pgdKeeps e₁ e₂ → pgdKeeps e₂ e₃ → pgdKeeps e₁ e₃ :=
  Entry.Keeps.trans p4dKeeps.trans

theorem mapPteRange_keeps (a n : Nat) (e : Entry PteTable) (c : Counters) :
    pmdKeeps e (mapPteRange tables start pages a n e c).1 :=
  mapLevel_keeps (fun _ ↦ trivial) (fun _ _ _ _ _ ↦ trivial) (fun _ _ _ _ ↦ trivial) n a e c

theorem mapPmdRange_keeps (a n : Nat) (e : Entry PmdTable) (c : Counters) :
    pudKeeps e (mapPmdRange tables start pages a n e c).1 :=
  mapLevel_keeps pmdKeeps.refl pmdKeeps.trans (mapPteRange_keeps tables start pages) n a e c

theorem mapPudRange_keeps (a n : Nat) (e : Entry PudTable) (c : Counters) :
    p4dKeeps e (mapPudRange tables start pages a n e c).1 :=
  mapLevel_keeps pudKeeps.refl pudKeeps.trans (mapPmdRange_keeps tables start pages) n a e c

theorem mapP4dRange_keeps (a n : Nat) (e : Entry P4dTable) (c : Counters) :
    pgdKeeps e (mapP4dRange l5 tables start pages a n e c).1 :=
  mapLevel_keeps p4dKeeps.refl p4dKeeps.trans (mapPudRange_keeps tables start pages) n a e c

/-- **`map_range` keeps every table**, also when it fails. -/
theorem mapRange_keeps (mm : Mm) (end_ : Nat) :
    mm.Keeps (mapRange l5 tables start pages mm end_).1 := by
  intro i
  have h : pgdKeeps (mm.pgd i) ((mapPgdLoop l5 tables start pages end_ mm.pgd
      ⟨mm.nrPtes, mm.nrPmds, mm.nrPuds, []⟩).1 i) := by
    rw [mapPgdLoop]
    exact eachSlot_rel pgdKeeps.refl pgdKeeps.trans
      (fun _ ↦ mapP4dRange_keeps l5 tables start pages) i
  rw [mapRange]
  generalize mapPgdLoop l5 tables start pages end_ mm.pgd _ = r at h ⊢
  obtain ⟨pgd, c, err⟩ := r
  cases err <;> exact h

end KeepsRange

/-! ## The reads of `pages[]` -/

/-- The indices `map_range` reads `pages[]` at, the last one first. -/
def mapReads (l5 : Bool) (tables : TableAnswers) (start : Nat) (pages : List Page) (mm : Mm)
    (end_ : Nat) : List Nat :=
  (mapPgdLoop l5 tables start pages end_ mm.pgd ⟨mm.nrPtes, mm.nrPmds, mm.nrPuds, []⟩).2.1.reads

/-- Every index read so far is below `n`. -/
def Counters.Below (n : Nat) (c : Counters) : Prop := ∀ i ∈ c.reads, i < n

section Reads

variable {start limit : Nat}

/-- One level of the walk reads below `limit` if its body does. -/
theorem mapLevel_below {ε : Type} {idx next : Nat → Nat} {fuel : Nat} {granted : Nat → Option PtPage}
    {fresh : ε} {inc : Counters → Counters} {body : Nat → Nat → ε → Counters → ε × Counters × Bool}
    {end_ addr : Nat} (hinc : ∀ c, (inc c).reads = c.reads)
    (hnext : ∀ a, PageFrom start a → a < end_ →
      PageFrom start (next a) ∧ a < next a ∧ next a ≤ end_)
    (hbody : ∀ a n s c, PageFrom start a → PageFrom start n → a < n → n ≤ end_ → c.Below limit →
      (body a n s c).2.1.Below limit)
    (haddr : PageFrom start addr) (hlt : addr < end_) (e : Entry (Table ε)) {c : Counters}
    (hc : c.Below limit) :
    (mapLevel idx next fuel granted fresh inc body end_ addr e c).2.1.Below limit := by
  cases ht : allocTable (granted addr) fresh e with
  | none =>
      simp only [mapLevel, ht]
      exact hc
  | some t =>
      simp only [mapLevel, ht]
      refine eachSlot_state_lt (I := Counters.Below limit) (A := PageFrom start) (e := end_) (by simp)
        (fun a ha hae ↦ ⟨(hnext a ha hae).1, (hnext a ha hae).2.2⟩) ?_ haddr hlt ?_
      · intro _ a s x ha hae hx
        obtain ⟨h₁, h₂, h₃⟩ := hnext a ha hae
        exact hbody a (next a) s x ha h₁ h₂ h₃ hx
      · split
        · rw [Counters.Below, hinc]
          exact hc
        · exact hc

/-- The boundary after an address of the walk is a page of it, further on. -/
theorem addrEnd_spec {shift e a : Nat} (hs : 12 ≤ shift) (hs' : shift < 64) (he : PageFrom start e)
    (he' : e < 2 ^ 64) (ha : PageFrom start a) (hlt : a < e) :
    PageFrom start (addrEnd shift a e) ∧ a < addrEnd shift a e ∧ addrEnd shift a e ≤ e := by
  refine ⟨pageFrom_addrEnd hs hs' he he' ha hlt, ?_, ?_⟩
  · rw [addrEnd_eq_min hs' hlt he']
    refine lt_min ?_ hlt
    rw [mul_comm]
    exact Nat.lt_mul_div_succ a (Nat.two_pow_pos _)
  · rw [addrEnd_eq_min hs' hlt he']
    exact min_le_right _ _

variable {tables : TableAnswers} {pages : List Page} {a n : Nat}

theorem mapPteRange_below (ha : PageFrom start a) (hn : PageFrom start n) (hlt : a < n)
    (hn' : n < 2 ^ 64) (hlimit : (n - start) / pageSize ≤ limit) (e : Entry PteTable) {c : Counters}
    (hc : c.Below limit) : (mapPteRange tables start pages a n e c).2.1.Below limit := by
  have hn₁ := hn.aligned
  simp only [pageSize, pageShift] at hlimit hn₁
  refine mapLevel_below (by intro _; rfl) ?_ ?_ ha hlt e hc
  · intro b hb hbn
    obtain ⟨hfrom, hmin⟩ := wrapAdd_pageSize hb hn hbn hn'
    obtain ⟨hgt, hle, -⟩ := cut_spec (by decide) hbn hmin
    exact ⟨hfrom, hgt, hle⟩
  · intro b k s' c' hb hk hbk hkn hc' i hi
    rcases List.mem_cons.mp hi with rfl | hi
    · have h₁ := hb.aligned
      have h₂ := hk.aligned
      have h₃ := hb.le
      have h₄ := hb.start_aligned
      simp only [pageSize, pageShift] at h₁ h₂ h₄
      simp only [pageIndex, wrapSub, pageSize, pageShift]
      omega
    · exact hc' i hi

theorem mapPmdRange_below (ha : PageFrom start a) (hn : PageFrom start n) (hlt : a < n)
    (hn' : n < 2 ^ 64) (hlimit : (n - start) / pageSize ≤ limit) (e : Entry PmdTable) {c : Counters}
    (hc : c.Below limit) : (mapPmdRange tables start pages a n e c).2.1.Below limit := by
  refine mapLevel_below (by intro _; rfl)
    (fun b hb hbn ↦ addrEnd_spec (by decide) (by decide) hn hn' hb hbn) ?_ ha hlt e hc
  intro b k s' c' hb hk hbk hkn hc'
  exact mapPteRange_below hb hk hbk (by omega)
    (le_trans (Nat.div_le_div_right (Nat.sub_le_sub_right hkn _)) hlimit) s' hc'

theorem mapPudRange_below (ha : PageFrom start a) (hn : PageFrom start n) (hlt : a < n)
    (hn' : n < 2 ^ 64) (hlimit : (n - start) / pageSize ≤ limit) (e : Entry PudTable) {c : Counters}
    (hc : c.Below limit) : (mapPudRange tables start pages a n e c).2.1.Below limit := by
  refine mapLevel_below (by intro _; rfl)
    (fun b hb hbn ↦ addrEnd_spec (by decide) (by decide) hn hn' hb hbn) ?_ ha hlt e hc
  intro b k s' c' hb hk hbk hkn hc'
  exact mapPmdRange_below hb hk hbk (by omega)
    (le_trans (Nat.div_le_div_right (Nat.sub_le_sub_right hkn _)) hlimit) s' hc'

theorem mapP4dRange_below (l5 : Bool) (ha : PageFrom start a) (hn : PageFrom start n) (hlt : a < n)
    (hn' : n < 2 ^ 64) (hlimit : (n - start) / pageSize ≤ limit) (e : Entry P4dTable) {c : Counters}
    (hc : c.Below limit) : (mapP4dRange l5 tables start pages a n e c).2.1.Below limit := by
  refine mapLevel_below (by intro _; rfl)
    (fun b hb hbn ↦ addrEnd_spec (by decide) (by decide) hn hn' hb hbn) ?_ ha hlt e hc
  intro b k s' c' hb hk hbk hkn hc'
  exact mapPudRange_below hb hk hbk (by omega)
    (le_trans (Nat.div_le_div_right (Nat.sub_le_sub_right hkn _)) hlimit) s' hc'

/-- `map_range` reads as many pages as its range has. -/
theorem mapReads_lt (l5 : Bool) (tables : TableAnswers) (pages : List Page) (mm : Mm) {end_ : Nat}
    (hs : start % pageSize = 0) (he : end_ % pageSize = 0) (hlt : start < end_) (he' : end_ < 2 ^ 64)
    {i : Nat} (hi : i ∈ mapReads l5 tables start pages mm end_) : i < (end_ - start) / pageSize := by
  have hfrom : PageFrom start end_ := ⟨hs, he, hlt.le⟩
  have h12 : 12 ≤ pgdirShift l5 := by cases l5 <;> decide
  rw [mapReads, mapPgdLoop] at hi
  refine eachSlot_state_lt (I := Counters.Below ((end_ - start) / pageSize)) (A := PageFrom start)
    (e := end_) (by simp) (fun a ha hae ↦ ?_) ?_ ⟨hs, hs, le_rfl⟩ hlt ?_ i hi
  · exact ⟨(addrEnd_spec h12 (pgdirShift_lt l5) hfrom he' ha hae).1,
      (addrEnd_spec h12 (pgdirShift_lt l5) hfrom he' ha hae).2.2⟩
  · intro _ a s x ha hae hx
    obtain ⟨h₁, h₂, h₃⟩ := addrEnd_spec h12 (pgdirShift_lt l5) hfrom he' ha hae
    exact mapP4dRange_below l5 ha h₁ h₂ (by omega)
      (Nat.div_le_div_right (Nat.sub_le_sub_right h₃ _)) s hx
  · intro i hi
    cases hi

end Reads

/-! ## A walk that changes nothing -/

/-- Whether the first table that is missing for `a` at or below an entry is refused. -/
def Entry.stuck {ε : Type} (idx : Nat → Nat) (granted : Nat → Option PtPage) (K : ε → Nat → Prop)
    (e : Entry (Table ε)) (a : Nat) : Prop :=
  match e.child with
  | Option.none => granted a = Option.none
  | some t => K (t.slot (idx a)) a

section Stuck

variable (l5 : Bool) (tables : TableAnswers)

def pmdStuck : Entry PteTable → Nat → Prop :=
  Entry.stuck pteIndex (fun a ↦ tables .pte (a / 2 ^ 21)) fun _ _ ↦ False

def pudStuck : Entry PmdTable → Nat → Prop :=
  Entry.stuck pmdIndex (fun a ↦ tables .pmd (a / 2 ^ 30)) (pmdStuck tables)

def p4dStuck : Entry PudTable → Nat → Prop :=
  Entry.stuck pudIndex (fun a ↦ tables .pud (a / 2 ^ 39)) (pudStuck tables)

def pgdStuck : Entry P4dTable → Nat → Prop :=
  Entry.stuck (p4dIndex l5) (p4dGranted l5 tables) (p4dStuck tables)

/-- The first table that is missing for the page of `a` is refused. -/
def Mm.stuck (mm : Mm) (a : Nat) : Prop := pgdStuck l5 tables (mm.pgd (pgdIndex l5 a)) a

end Stuck

/-- What the levels below an entry know of stuck and refused addresses: a stuck address is refused, and
nothing is mapped at a refused one. -/
structure StuckSpec {ε : Type} (look : ε → Nat → Pte) (D K : ε → Nat → Prop) : Prop where
  denied : ∀ s a, K s a → D s a
  look : ∀ s a, D s a → look s a = .none

theorem StuckSpec.entry {ε : Type} {look : ε → Nat → Pte} {D K : ε → Nat → Prop}
    (h : StuckSpec look D K) (idx : Nat → Nat) (granted : Nat → Option PtPage) (fresh : ε) :
    StuckSpec (Entry.look idx look) (Entry.denied idx granted fresh D) (Entry.stuck idx granted K) := by
  constructor
  · rintro (_ | t | t) a hK
    · exact .inl hK
    · exact h.denied _ _ hK
    · exact h.denied _ _ hK
  · rintro (_ | t | t) a hD
    · rfl
    · exact h.look _ _ hD
    · exact h.look _ _ hD

/-- **When one level of the walk changes nothing.** -/
theorem mapLevel_idle {ε : Type} {S M end_ addr fuel : Nat} (look : ε → Nat → Pte) (hS : 0 < S)
    {idx next : Nat → Nat} {granted : Nat → Option PtPage} {fresh : ε}
    {inc : Counters → Counters} {body : Nat → Nat → ε → Counters → ε × Counters × Bool}
    {new : Nat → Pte} {D K : ε → Nat → Prop} {A : Nat → Prop}
    (hidx : ∀ a, idx a = a / S % M) (hnew : ∀ a, new a ≠ .none) (hspec : StuckSpec look D K)
    (hgranted : ∀ a b, a / (M * S) = b / (M * S) → granted a = granted b)
    (hA : ∀ a, A a → a < end_ → A (next a))
    (hnext : ∀ a, A a → a < end_ → next a = min ((a / S + 1) * S) end_)
    (hbody : ∀ a n s x, A a → A n → a < n → n ≤ end_ → a / S = (n - 1) / S →
      ∃ m, Rewrites (fun b ↦ b / S = a / S) (look s) (look (body a n s x).1) new (D s) a n m
        (body a n s x).2.2)
    (hidle : ∀ a n s x, A a → A n → a < n → n ≤ end_ → a / S = (n - 1) / S →
      ((body a n s x).1 = s ↔ IdleUpTo (look s) new (K s) a n))
    (haddr : A addr) (hlt : addr < end_) (hblock : addr / (M * S) = (end_ - 1) / (M * S))
    (hfuel : (end_ - 1) / S - addr / S < fuel) (e : Entry (Table ε)) (c : Counters) :
    (mapLevel idx next fuel granted fresh inc body end_ addr e c).1 = e ↔
      IdleUpTo (e.look idx look) new (e.stuck idx granted K) addr end_ := by
  have hagain : ∀ a : Nat, (a != end_) = true ↔ a ≠ end_ := by simp
  have htable : ∀ (t : Table ε) (f : Nat → ε), ({ t with slot := f } : Table ε) = t ↔ f = t.slot := by
    rintro ⟨page, slot⟩ f
    simp
  -- the loop over the slots of a table that is linked
  have hloop : ∀ (t : Table ε) x,
      (eachSlot next (fun a ↦ a != end_) (fun _ ↦ body) fuel (idx addr) addr t.slot x).1 = t.slot ↔
        IdleUpTo (fun b ↦ look (t.slot (idx b)) b) new (fun b ↦ K (t.slot (idx b)) b) addr end_ := by
    intro t x
    simp only [hidx]
    refine eachSlot_idle hS hA hnext hagain (fun _ ↦ hidle) ?_ ?_ haddr hlt hblock hfuel
    · rintro _ a n s y ha hn han hne hsame ⟨m, h₁, h₂, hK⟩
      exact err_of_refused (hbody a n s y ha hn han hne hsame) h₁ h₂ (hspec.denied s m hK)
    · intro _ a n s y ha hn han hne hsame hfail
      obtain ⟨k, h₁, h₂, hD⟩ := refused_of_err (hbody a n s y ha hn han hne hsame) hfail
      refine ⟨k, h₁, h₂, ?_⟩
      rw [hspec.look s k hD]
      exact (hnew k).symm
  cases e with
  | none =>
      cases hg : granted addr with
      | none =>
          simp only [mapLevel, allocTable, hg, Option.map_none, true_iff]
          exact .inr ⟨addr, le_rfl, hlt, hg, fun b hlo hhi ↦ absurd hhi (Nat.not_lt.mpr hlo)⟩
      | some pg =>
          simp only [mapLevel, allocTable, hg, Option.map_some, Entry.setChild, reduceCtorEq, false_iff]
          rintro (hall | ⟨m, h₁, h₂, hK, -⟩)
          · exact hnew addr (hall addr le_rfl hlt).symm
          · have hm : m / (M * S) = addr / (M * S) :=
              le_antisymm (by rw [hblock]; exact Nat.div_le_div_right (by omega))
                (Nat.div_le_div_right h₁)
            have hnone : granted m = none := hK
            rw [hgranted m addr hm, hg] at hnone
            cases hnone
  | bad t =>
      simp only [mapLevel, allocTable, Entry.setChild, Entry.bad.injEq]
      exact (htable t _).trans (hloop t _)
  | table t =>
      simp only [mapLevel, allocTable, Entry.setChild, Entry.table.injEq]
      exact (htable t _).trans (hloop t _)

section IdleRange

variable {l5 : Bool} {tables : TableAnswers} {start : Nat} {pages : List Page}

/-- What the walk writes is never `pte_none`. -/
theorem mkPte_ne_none (start : Nat) (pages : List Page) (a : Nat) : mkPte start pages a ≠ .none := by
  unfold mkPte
  split <;> exact Pte.noConfusion

theorem pmdStuck_spec (tables : TableAnswers) :
    StuckSpec pmdLook (pmdDenied tables) (pmdStuck tables) :=
  StuckSpec.entry ⟨fun _ _ h ↦ h.elim, fun _ _ h ↦ h.elim⟩ _ _ _

theorem pudStuck_spec (tables : TableAnswers) :
    StuckSpec pudLook (pudDenied tables) (pudStuck tables) :=
  (pmdStuck_spec tables).entry _ _ _

theorem p4dStuck_spec (tables : TableAnswers) :
    StuckSpec p4dLook (p4dDenied tables) (p4dStuck tables) :=
  (pudStuck_spec tables).entry _ _ _

theorem pgdStuck_spec (l5 : Bool) (tables : TableAnswers) :
    StuckSpec (pgdLook l5) (pgdDenied l5 tables) (pgdStuck l5 tables) :=
  (p4dStuck_spec tables).entry _ _ _

theorem mapPteRange_idle {a n : Nat} (ha : PageFrom start a) (hn : PageFrom start n)
    (hlt : a < n) (hn' : n < 2 ^ 64) (hblock : a / 2 ^ 21 = (n - 1) / 2 ^ 21)
    (s : Entry PteTable) (x : Counters) :
    (mapPteRange tables start pages a n s x).1 = s ↔
      IdleUpTo (pmdLook s) (mkPte start pages) (pmdStuck tables s) a n := by
  refine mapLevel_idle (S := 2 ^ 12) (M := 512) (A := PageFrom start) (D := fun _ _ ↦ False)
    (fun pte _ ↦ pte) (by decide) (fun _ ↦ rfl) (mkPte_ne_none start pages)
    ⟨fun _ _ h ↦ h.elim, fun _ _ h ↦ h.elim⟩ (fun _ _ h ↦ tables_congr .pte (by decide) h)
    (fun _ hb hbn ↦ (wrapAdd_pageSize hb hn hbn hn').1)
    (fun _ hb hbn ↦ (wrapAdd_pageSize hb hn hbn hn').2)
    (fun _ _ s' _ hb hk hbk _ hsame ↦ pteRound_rewrites hb hk hbk hsame s') ?_
    ha hlt (by simpa using hblock) (lt_rounds 12 (by omega) hn') s x
  intro b k pte _ hb hk hbk _ hsame
  constructor
  · rintro rfl
    exact .inl fun d hd hd' ↦ (mkPte_congr hb hk hsame hd hd').symm
  · rintro (hall | ⟨m, -, -, hK, -⟩)
    · exact (hall b le_rfl hbk).symm
    · exact hK.elim

theorem mapPmdRange_idle {a n : Nat} (ha : PageFrom start a) (hn : PageFrom start n)
    (hlt : a < n) (hn' : n < 2 ^ 64) (hblock : a / 2 ^ 30 = (n - 1) / 2 ^ 30)
    (s : Entry PmdTable) (x : Counters) :
    (mapPmdRange tables start pages a n s x).1 = s ↔
      IdleUpTo (pudLook s) (mkPte start pages) (pudStuck tables s) a n :=
  mapLevel_idle (S := 2 ^ 21) (M := 512) (A := PageFrom start) _ (by decide) (fun _ ↦ rfl)
    (mkPte_ne_none start pages) (pmdStuck_spec tables) (fun _ _ h ↦ tables_congr .pmd (by decide) h)
    (fun b hb hbn ↦ pageFrom_addrEnd (by decide) (by decide) hn hn' hb hbn)
    (fun b _ hbn ↦ addrEnd_eq_min (by decide) hbn hn')
    (fun b k s' x' hb hk hbk hkn hsame ↦ mapPteRange_rewrites hb hk hbk (by omega) hsame s' x')
    (fun b k s' x' hb hk hbk hkn hsame ↦ mapPteRange_idle hb hk hbk (by omega) hsame s' x')
    ha hlt (by simpa using hblock) (lt_rounds 21 (by omega) hn') s x

theorem mapPudRange_idle {a n : Nat} (ha : PageFrom start a) (hn : PageFrom start n)
    (hlt : a < n) (hn' : n < 2 ^ 64) (hblock : a / 2 ^ 39 = (n - 1) / 2 ^ 39)
    (s : Entry PudTable) (x : Counters) :
    (mapPudRange tables start pages a n s x).1 = s ↔
      IdleUpTo (p4dLook s) (mkPte start pages) (p4dStuck tables s) a n :=
  mapLevel_idle (S := 2 ^ 30) (M := 512) (A := PageFrom start) _ (by decide) (fun _ ↦ rfl)
    (mkPte_ne_none start pages) (pudStuck_spec tables) (fun _ _ h ↦ tables_congr .pud (by decide) h)
    (fun b hb hbn ↦ pageFrom_addrEnd (by decide) (by decide) hn hn' hb hbn)
    (fun b _ hbn ↦ addrEnd_eq_min (by decide) hbn hn')
    (fun b k s' x' hb hk hbk hkn hsame ↦ mapPmdRange_rewrites hb hk hbk (by omega) hsame s' x')
    (fun b k s' x' hb hk hbk hkn hsame ↦ mapPmdRange_idle hb hk hbk (by omega) hsame s' x')
    ha hlt (by simpa using hblock) (lt_rounds 30 (by omega) hn') s x

theorem mapP4dRange_idle {a n : Nat} (ha : PageFrom start a) (hn : PageFrom start n)
    (hlt : a < n) (hn' : n < 2 ^ 64)
    (hblock : a / 2 ^ pgdirShift l5 = (n - 1) / 2 ^ pgdirShift l5)
    (s : Entry P4dTable) (x : Counters) :
    (mapP4dRange l5 tables start pages a n s x).1 = s ↔
      IdleUpTo (pgdLook l5 s) (mkPte start pages) (pgdStuck l5 tables s) a n := by
  rw [two_pow_pgdirShift] at hblock
  exact mapLevel_idle (S := 2 ^ 39) (M := ptrsPerP4d l5) (A := PageFrom start) _ (by decide)
    (fun _ ↦ rfl) (mkPte_ne_none start pages) (p4dStuck_spec tables) (fun _ _ ↦ p4dGranted_congr)
    (fun b hb hbn ↦ pageFrom_addrEnd (by decide) (by decide) hn hn' hb hbn)
    (fun b _ hbn ↦ addrEnd_eq_min (by decide) hbn hn')
    (fun b k s' x' hb hk hbk hkn hsame ↦ mapPudRange_rewrites hb hk hbk (by omega) hsame s' x')
    (fun b k s' x' hb hk hbk hkn hsame ↦ mapPudRange_idle hb hk hbk (by omega) hsame s' x')
    ha hlt hblock (lt_rounds 39 (by omega) hn') s x

/-- **When `map_range` leaves the page tables as they are**: exactly if every PTE it would write is
there already, up to an address where the first table that is missing is refused. -/
theorem mapRange_idle (l5 : Bool) (tables : TableAnswers) (pages : List Page) (mm : Mm) {end_ : Nat}
    (hs : start % pageSize = 0) (he : end_ % pageSize = 0) (hlt : start < end_) (he' : end_ < 2 ^ 64)
    (hblock : start / (ptrs * 2 ^ pgdirShift l5) = (end_ - 1) / (ptrs * 2 ^ pgdirShift l5)) :
    (mapRange l5 tables start pages mm end_).1.pgd = mm.pgd ↔
      IdleUpTo (mm.pteAt l5) (mkPte start pages) (mm.stuck l5 tables) start end_ := by
  have hfrom : PageFrom start end_ := ⟨hs, he, hlt.le⟩
  have hshift := pgdirShift_lt l5
  have h12 : 12 ≤ pgdirShift l5 := by cases l5 <;> decide
  have hpgd : (mapRange l5 tables start pages mm end_).1.pgd =
      (mapPgdLoop l5 tables start pages end_ mm.pgd ⟨mm.nrPtes, mm.nrPmds, mm.nrPuds, []⟩).1 := by
    rw [mapRange]
    generalize mapPgdLoop l5 tables start pages end_ mm.pgd _ = r
    obtain ⟨pgd, c, err⟩ := r
    cases err <;> rfl
  rw [hpgd, mapPgdLoop]
  refine eachSlot_idle (S := 2 ^ pgdirShift l5) (M := ptrs) (A := PageFrom start)
    (Nat.two_pow_pos _) (fun b hb hbn ↦ pageFrom_addrEnd h12 hshift hfrom he' hb hbn)
    (fun b _ hbn ↦ addrEnd_eq_min hshift hbn he') (by simp)
    (fun _ b k s' x' hb hk hbk hkn hsame ↦ mapP4dRange_idle hb hk hbk (by omega) hsame s' x') ?_ ?_
    ⟨hs, hs, le_rfl⟩ hlt hblock (lt_rounds (pgdirShift l5) (by omega) he')
  · rintro _ b n s x hb hn hbn hne hsame ⟨m, h₁, h₂, hK⟩
    exact err_of_refused (mapP4dRange_rewrites hb hn hbn (by omega) hsame s x) h₁ h₂
      ((pgdStuck_spec l5 tables).denied s m hK)
  · intro _ b n s x hb hn hbn hne hsame hfail
    obtain ⟨k, h₁, h₂, hD⟩ :=
      refused_of_err (mapP4dRange_rewrites hb hn hbn (by omega) hsame s x) hfail
    refine ⟨k, h₁, h₂, ?_⟩
    rw [(pgdStuck_spec l5 tables).look s k hD]
    exact (mkPte_ne_none start pages k).symm

end IdleRange

/-! ## The counts of tables -/

/-- The counts without the reads. -/
def Counters.counts (c : Counters) : Int × Int × Int := (c.nrPtes, c.nrPmds, c.nrPuds)

/-- One level of the walk that leaves its entry alone has counted no table. -/
theorem mapLevel_counts {ε : Type} {idx next : Nat → Nat} {fuel : Nat} {granted : Nat → Option PtPage}
    {fresh : ε} {inc : Counters → Counters} {body : Nat → Nat → ε → Counters → ε × Counters × Bool}
    (hbody : ∀ a n s c, (body a n s c).1 = s → (body a n s c).2.1.counts = c.counts) {end_ addr : Nat}
    {e : Entry (Table ε)} {c : Counters}
    (h : (mapLevel idx next fuel granted fresh inc body end_ addr e c).1 = e) :
    (mapLevel idx next fuel granted fresh inc body end_ addr e c).2.1.counts = c.counts := by
  cases e with
  | none =>
      cases hg : granted addr with
      | none => simp only [mapLevel, allocTable, hg, Option.map_none]
      | some pg => simp [mapLevel, allocTable, hg, Entry.setChild] at h
  | bad t =>
      simp only [mapLevel, allocTable, Entry.setChild, Entry.bad.injEq] at h ⊢
      exact eachSlot_same (fun _ ↦ hbody) (congrArg Table.slot h)
  | table t =>
      simp only [mapLevel, allocTable, Entry.setChild, Entry.table.injEq] at h ⊢
      exact eachSlot_same (fun _ ↦ hbody) (congrArg Table.slot h)

section Counts

variable {l5 : Bool} {tables : TableAnswers} {start : Nat} {pages : List Page}

/-- **A `map_range` that leaves the page tables alone leaves the whole address space alone.** -/
theorem mapRange_eq_of_pgd {mm : Mm} {end_ : Nat}
    (h : (mapRange l5 tables start pages mm end_).1.pgd = mm.pgd) :
    (mapRange l5 tables start pages mm end_).1 = mm := by
  have hpte : ∀ a n s c, (mapPteRange tables start pages a n s c).1 = s →
      (mapPteRange tables start pages a n s c).2.1.counts = c.counts :=
    fun a n s c ↦ mapLevel_counts fun _ _ _ _ _ ↦ rfl
  have hpmd : ∀ a n s c, (mapPmdRange tables start pages a n s c).1 = s →
      (mapPmdRange tables start pages a n s c).2.1.counts = c.counts :=
    fun a n s c ↦ mapLevel_counts hpte
  have hpud : ∀ a n s c, (mapPudRange tables start pages a n s c).1 = s →
      (mapPudRange tables start pages a n s c).2.1.counts = c.counts :=
    fun a n s c ↦ mapLevel_counts hpmd
  have hp4d : ∀ a n s c, (mapP4dRange l5 tables start pages a n s c).1 = s →
      (mapP4dRange l5 tables start pages a n s c).2.1.counts = c.counts :=
    fun a n s c ↦ mapLevel_counts hpud
  have hloop : ∀ c, (mapPgdLoop l5 tables start pages end_ mm.pgd c).1 = mm.pgd →
      (mapPgdLoop l5 tables start pages end_ mm.pgd c).2.1.counts = c.counts := by
    intro c hc
    rw [mapPgdLoop] at hc ⊢
    exact eachSlot_same (fun _ ↦ hp4d) hc
  have hcounts := hloop ⟨mm.nrPtes, mm.nrPmds, mm.nrPuds, []⟩
  rw [mapRange] at h ⊢
  generalize mapPgdLoop l5 tables start pages end_ mm.pgd _ = r at h hcounts ⊢
  obtain ⟨pgd, ⟨nrPtes, nrPmds, nrPuds, reads⟩, err⟩ := r
  obtain ⟨mpgd, m₁, m₂, m₃⟩ := mm
  have hpgd : pgd = mpgd := by cases err <;> exact h
  have hcs := hcounts hpgd
  simp only [Counters.counts, Prod.mk.injEq] at hcs
  obtain ⟨rfl, rfl, rfl⟩ := hcs
  rw [hpgd]
  cases err <;> rfl

end Counts

end ShadowStack.Lkm
