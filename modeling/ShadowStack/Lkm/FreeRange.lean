import ShadowStack.Lkm.PageTable

/-!
# `__free_pgd_range`

The teardown walk of `lkm/core/api.c`: `free_pte_range` to `free_p4d_range`, `__free_pgd_range` and
the release batch of `sa_tlb_add`.  Besides what the code computes, the walk keeps a log of the
pgd slots it looks at and of the entries it clears, each with the addresses the entry translates;
the log is what confinement is stated about.

`free_pud_range` differs from its siblings: its loop condition compares `addr` with `next` right
after `addr = next`, so the loop body runs once whatever the range is.
-/

namespace ShadowStack.Lkm

open Lib

/-- `MAX_BATCH_SIZE`: a page less the `sa_batch` header, in pointers. -/
def maxBatchSize : Nat := (pageSize - 8) / 8

/-- `struct sa_batch`, with the page it sits in. -/
structure SaBatch where
  page : Page
  nr : Nat
  tables : Nat → PtPage

/-- `struct sa_tlb`, the fields the walk uses. -/
structure SaTlb where
  start : Nat
  end_ : Nat
  clearPmds : Bool
  batch : Option SaBatch

/-- What a walk looked at and changed. -/
inductive WalkEvent where
  /-- The pgd slot of this number was read. -/
  | visit (slot : Nat)
  /-- An entry of this level was cleared; it translated the addresses from `base` on. -/
  | clear (level : Level) (base : Nat)
deriving DecidableEq, Repr

/-- The state of a teardown walk. -/
structure Walk where
  tlb : SaTlb
  /-- The answers to the `GFP_NOWAIT` page requests still to come. -/
  nowait : List (Option Page)
  /-- The pages obtained for release batches. -/
  taken : List Page
  /-- The table pages passed to `__free_page`. -/
  freed : List PtPage
  nrPtes : Int
  nrPmds : Int
  nrPuds : Int
  log : List WalkEvent

/-- A walk with a new `sa_tlb`, for given answers to the requests for a batch page. -/
def freshWalk (nowait : List (Option Page)) : Walk where
  tlb := ⟨0, 0, false, none⟩
  nowait := nowait
  taken := []
  freed := []
  nrPtes := 0
  nrPmds := 0
  nrPuds := 0
  log := []

/-- The bytes an entry of a level translates. -/
def Level.size (l5 : Bool) : Level → Nat
  | .pte => 2 ^ 12
  | .pmd => 2 ^ 21
  | .pud => 2 ^ 30
  | .p4d => 2 ^ 39
  | .pgd => 2 ^ pgdirShift l5

/-- The canonical address with the translated bits of `a`. -/
def canonical (l5 : Bool) (a : Nat) : Nat :=
  let bits := ptrs * 2 ^ pgdirShift l5
  if a % bits < bits / 2 then a % bits else 2 ^ 64 - bits + a % bits

namespace Walk

/-- Record that the entry of `addr` at a level was cleared. -/
def logClear (l5 : Bool) (w : Walk) (level : Level) (addr : Nat) : Walk :=
  { w with log := w.log ++ [.clear level (canonical l5 (addr / level.size l5 * level.size l5))] }

/-- The second half of `sa_tlb_add`: store the page, and free all stored pages once the batch is
full.  The count is not reset. -/
def putTable (w : Walk) (b : SaBatch) (page : PtPage) : Walk :=
  let b' : SaBatch := { b with nr := b.nr + 1, tables := Function.update b.tables b.nr page }
  { w with
    tlb := { w.tlb with batch := some b' }
    freed := if b'.nr = maxBatchSize then w.freed ++ (List.range b'.nr).map b'.tables else w.freed }

/-- `sa_tlb_add`. -/
def saTlbAdd (w : Walk) (page : PtPage) : Walk :=
  match w.tlb.batch with
  | some b => w.putTable b page
  | none =>
      match w.nowait with
      | some p :: rest =>
          { w with nowait := rest, taken := w.taken ++ [p] }.putTable ⟨p, 0, fun _ ↦ 0⟩ page
      | none :: rest => { w with nowait := rest, freed := w.freed ++ [page] }
      | [] => { w with freed := w.freed ++ [page] }

/-- `tlb_free_pte`, with `tlb_adjust_range`. -/
def tlbFreePte (w : Walk) (pte : PtPage) (addr : Nat) : Walk :=
  saTlbAdd { w with tlb := { w.tlb with
    start := min w.tlb.start addr
    end_ := max w.tlb.end_ (wrapAdd addr pageSize)
    clearPmds := true } } pte

end Walk

/-- The test at the end of `free_pmd_range`, `free_pud_range` and `free_p4d_range`: whether the
entry above may go too. -/
def releasesUpper (shift start end_ floor ceiling : Nat) : Bool :=
  if alignDown shift start < floor then false
  else
    let ceiling' := if ceiling = 0 then 0 else alignDown shift ceiling
    if ceiling ≠ 0 ∧ ceiling' = 0 then false
    else !decide (wrapSub ceiling' 1 < wrapSub end_ 1)

section Walks

variable (l5 : Bool)

/-- `free_pte_range`, on a linked PTE table.  The last component says, as everywhere in a walk,
whether it failed: no part of a teardown does. -/
def freePteRange (addr : Nat) (t : PteTable) (w : Walk) : Entry PteTable × Walk × Bool :=
  let w := (w.logClear l5 .pmd addr).tlbFreePte t.page addr
  (.none, { w with nrPtes := w.nrPtes - 1 }, false)

/-- The common shape of `free_pmd_range`, `free_pud_range` and `free_p4d_range`: loop over the
slots below `e`, then clear `e` itself unless that reaches beyond `floor` or `ceiling`. -/
def freeLevel {ε : Type} (level : Level) (shift : Nat) (idx next : Nat → Nat) (again : Nat → Bool)
    (fuel : Nat) (fresh : ε) (clears : Bool) (dec : Walk → Walk)
    (body : Nat → Nat → ε → Walk → ε × Walk × Bool) (addr end_ floor ceiling : Nat)
    (e : Entry (Table ε)) (w : Walk) : Entry (Table ε) × Walk × Bool :=
  let t := e.child.getD ⟨0, fun _ ↦ fresh⟩
  let r := eachSlot next again (fun _ ↦ body) fuel (idx addr) addr t.slot w
  let e' := e.setChild { t with slot := r.1 }
  if releasesUpper shift addr end_ floor ceiling then
    if clears then (.none, dec (r.2.1.logClear l5 level addr), false) else (e', dec r.2.1, false)
  else (e', r.2.1, false)

/-- `free_pmd_range`. -/
def freePmdRange (floor ceiling addr end_ : Nat) :
    Entry PmdTable → Walk → Entry PmdTable × Walk × Bool :=
  freeLevel l5 .pud 30 pmdIndex (fun a ↦ addrEnd 21 a end_) (fun a ↦ a != end_)
    (rounds 21 addr end_) .none true
    (fun w ↦ { w with nrPmds := w.nrPmds - 1 })
    (fun a _ pmd w ↦ match pmd with
      | .table t => freePteRange l5 a t w
      | pmd => (pmd, w, false)) addr end_ floor ceiling

/-- `free_pud_range`, whose loop never goes round again. -/
def freePudRange (floor ceiling addr end_ : Nat) :
    Entry PudTable → Walk → Entry PudTable × Walk × Bool :=
  freeLevel l5 .p4d 39 pudIndex (fun a ↦ addrEnd 30 a end_) (fun _ ↦ false)
    (rounds 30 addr end_) .none true
    (fun w ↦ { w with nrPuds := w.nrPuds - 1 })
    (fun a n pud w ↦ match pud with
      | .table t => freePmdRange l5 floor ceiling a n (.table t) w
      | pud => (pud, w, false)) addr end_ floor ceiling

/-- `free_p4d_range`.  With four levels `pgd_clear` does nothing. -/
def freeP4dRange (floor ceiling addr end_ : Nat) :
    Entry P4dTable → Walk → Entry P4dTable × Walk × Bool :=
  freeLevel l5 .pgd (pgdirShift l5) (p4dIndex l5) (fun a ↦ addrEnd 39 a end_) (fun a ↦ a != end_)
    (rounds 39 addr end_) .none l5 id
    (fun a n p4d w ↦ match p4d with
      | .table t => freePudRange l5 floor ceiling a n (.table t) w
      | p4d => (p4d, w, false)) addr end_ floor ceiling

/-- One round of the loop of `__free_pgd_range`: with five levels none and bad slots are skipped,
with four `pgd_none` and `pgd_bad` are never true. -/
def freePgdSlot (floor ceiling slot addr end_ : Nat) (pgd : Entry P4dTable) (w : Walk) :
    Entry P4dTable × Walk × Bool :=
  let w := { w with log := w.log ++ [.visit slot] }
  if l5 && !pgd.isTable then (pgd, w, false) else freeP4dRange l5 floor ceiling addr end_ pgd w

/-- The loop of `__free_pgd_range`. -/
def freePgdLoop (floor ceiling addr end_ : Nat) (pgd : Nat → Entry P4dTable) (w : Walk) :
    (Nat → Entry P4dTable) × Walk × Bool :=
  eachSlot (fun a ↦ addrEnd (pgdirShift l5) a end_) (fun a ↦ a != end_)
    (freePgdSlot l5 floor ceiling) (rounds (pgdirShift l5) addr end_)
    (pgdIndex l5 addr) addr pgd w

/-- `__free_pgd_range`. -/
def freePgdRange (addr end_ floor ceiling : Nat) (pgd : Nat → Entry P4dTable) (w : Walk) :
    (Nat → Entry P4dTable) × Walk :=
  let addr₀ := alignDown 21 addr
  let addr := if addr₀ < floor then wrapAdd addr₀ (2 ^ 21) else addr₀
  if addr₀ < floor ∧ addr = 0 then (pgd, w)
  else
    let ceiling' := if ceiling = 0 then 0 else alignDown 21 ceiling
    if ceiling ≠ 0 ∧ ceiling' = 0 then (pgd, w)
    else
      let end_ := if wrapSub ceiling' 1 < wrapSub end_ 1 then wrapSub end_ (2 ^ 21) else end_
      if wrapSub end_ 1 < addr then (pgd, w)
      else
        let r := freePgdLoop l5 floor ceiling' addr end_ pgd w
        (r.1, r.2.1)

end Walks

/-! ## What every walk keeps -/

/-- A property of walk states that no elementary action of a walk destroys. -/
structure Walk.Closed (l5 : Bool) (I : Walk → Prop) : Prop where
  visit : ∀ w i, I w → I { w with log := w.log ++ [.visit i] }
  logClear : ∀ w level addr, I w → I (w.logClear l5 level addr)
  tlbFreePte : ∀ w pte addr, I w → I (w.tlbFreePte pte addr)
  counts : ∀ w a b c, I w → I { w with nrPtes := a, nrPmds := b, nrPuds := c }

section Keeps

variable {l5 : Bool} {I : Walk → Prop}

/-- A level never fails. -/
@[simp] theorem freeLevel_ok {ε : Type} {level : Level} {shift : Nat}
    {idx next : Nat → Nat} {again : Nat → Bool} {fuel : Nat} {fresh : ε} {clears : Bool}
    {dec : Walk → Walk} {body : Nat → Nat → ε → Walk → ε × Walk × Bool}
    {addr end_ floor ceiling : Nat} {e : Entry (Table ε)} {w : Walk} :
    (freeLevel l5 level shift idx next again fuel fresh clears dec body addr end_ floor ceiling
      e w).2.2 = false := by
  unfold freeLevel
  simp only
  split
  · split <;> rfl
  · rfl

/-- What holds after the loop of a level holds after the level. -/
theorem freeLevel_of_loop {ε : Type} {level : Level} {shift : Nat}
    {idx next : Nat → Nat} {again : Nat → Bool} {fuel : Nat} {fresh : ε} {clears : Bool}
    {dec : Walk → Walk} {body : Nat → Nat → ε → Walk → ε × Walk × Bool}
    (hlog : ∀ w level addr, I w → I (w.logClear l5 level addr)) (hdec : ∀ w, I w → I (dec w))
    {addr end_ floor ceiling : Nat} {e : Entry (Table ε)} {w : Walk}
    (hloop : I (eachSlot next again (fun _ ↦ body) fuel (idx addr) addr
      (e.child.getD ⟨0, fun _ ↦ fresh⟩).slot w).2.1) :
    I (freeLevel l5 level shift idx next again fuel fresh clears dec body addr end_ floor ceiling
      e w).2.1 := by
  unfold freeLevel
  simp only
  split
  · split
    · exact hdec _ (hlog _ _ _ hloop)
    · exact hdec _ hloop
  · exact hloop

/-- What every round of a level keeps is kept by the level. -/
theorem freeLevel_keeps {ε : Type} {level : Level} {shift : Nat}
    {idx next : Nat → Nat} {again : Nat → Bool} {fuel : Nat} {fresh : ε} {clears : Bool}
    {dec : Walk → Walk} {body : Nat → Nat → ε → Walk → ε × Walk × Bool}
    (hlog : ∀ w level addr, I w → I (w.logClear l5 level addr)) (hdec : ∀ w, I w → I (dec w))
    {A : Nat → Prop} {G : ε → Prop} (hA : ∀ a, A a → A (next a))
    (hbody : ∀ a s w, A a → G s → I w → I (body a (next a) s w).2.1)
    {addr end_ floor ceiling : Nat} {e : Entry (Table ε)} {w : Walk} (haddr : A addr)
    (hslots : ∀ j, G ((e.child.getD ⟨0, fun _ ↦ fresh⟩).slot j)) (hw : I w) :
    I (freeLevel l5 level shift idx next again fuel fresh clears dec body addr end_ floor ceiling
      e w).2.1 :=
  freeLevel_of_loop hlog hdec (eachSlot_state (A := A) (G := G) (fun a ha _ ↦ hA a ha)
    (fun _ a s w ha hs hw ↦ hbody a s w ha hs hw) haddr (fun j _ ↦ hslots j) hw)

/-- Tables below a pmd, with nothing assumed of them. -/
theorem freePmdRange_keeps (hI : Walk.Closed l5 I) {floor ceiling addr end_ : Nat}
    {e : Entry PmdTable} {w : Walk} (hw : I w) :
    I (freePmdRange l5 floor ceiling addr end_ e w).2.1 := by
  unfold freePmdRange
  refine freeLevel_keeps hI.logClear (fun w hw ↦ hI.counts w _ _ _ hw) (A := fun _ ↦ True)
    (G := fun _ ↦ True) (fun _ _ ↦ trivial) (fun a s w _ _ hw ↦ ?_) trivial (fun _ ↦ trivial) hw
  cases s with
  | none => exact hw
  | bad t => exact hw
  | table t => exact hI.counts _ _ _ _ (hI.tlbFreePte _ _ _ (hI.logClear _ _ _ hw))

theorem freePudRange_keeps (hI : Walk.Closed l5 I) {floor ceiling addr end_ : Nat}
    {e : Entry PudTable} {w : Walk} (hw : I w) :
    I (freePudRange l5 floor ceiling addr end_ e w).2.1 := by
  unfold freePudRange
  refine freeLevel_keeps hI.logClear (fun w hw ↦ hI.counts w _ _ _ hw) (A := fun _ ↦ True)
    (G := fun _ ↦ True) (fun _ _ ↦ trivial) (fun a s w _ _ hw ↦ ?_) trivial (fun _ ↦ trivial) hw
  cases s with
  | none => exact hw
  | bad t => exact hw
  | table t => exact freePmdRange_keeps hI hw

theorem freeP4dRange_keeps (hI : Walk.Closed l5 I) {floor ceiling addr end_ : Nat}
    {e : Entry P4dTable} {w : Walk} (hw : I w) :
    I (freeP4dRange l5 floor ceiling addr end_ e w).2.1 := by
  unfold freeP4dRange
  refine freeLevel_keeps hI.logClear (fun w hw ↦ hw) (A := fun _ ↦ True)
    (G := fun _ ↦ True) (fun _ _ ↦ trivial) (fun a s w _ _ hw ↦ ?_) trivial (fun _ ↦ trivial) hw
  cases s with
  | none => exact hw
  | bad t => exact hw
  | table t => exact freePudRange_keeps hI hw

/-- One round of the outermost loop keeps what the elementary actions keep. -/
theorem freePgdSlot_keeps (hI : Walk.Closed l5 I) {floor ceiling slot addr end_ : Nat}
    {e : Entry P4dTable} {w : Walk} (hw : I w) :
    I (freePgdSlot l5 floor ceiling slot addr end_ e w).2.1 := by
  have hv := hI.visit w slot hw
  unfold freePgdSlot
  simp only
  split
  · exact hv
  · exact freeP4dRange_keeps hI hv

/-- No round of the outermost loop fails. -/
theorem freePgdSlot_ok {floor ceiling slot addr end_ : Nat} {e : Entry P4dTable} {w : Walk} :
    (freePgdSlot l5 floor ceiling slot addr end_ e w).2.2 = false := by
  unfold freePgdSlot freeP4dRange
  simp only
  split
  · rfl
  · exact freeLevel_ok

end Keeps

/-- What is in the log stays there. -/
theorem Walk.closed_log (l5 : Bool) (ev : WalkEvent) : Walk.Closed l5 fun w ↦ ev ∈ w.log where
  visit _ _ h := List.mem_append_left _ h
  logClear _ _ _ h := List.mem_append_left _ h
  tlbFreePte w pte addr h := by
    unfold tlbFreePte saTlbAdd putTable
    split
    · exact h
    · split <;> exact h
  counts _ _ _ _ h := h

/-- Pages taken for a batch stay taken. -/
theorem Walk.closed_taken (l5 : Bool) (p : Page) : Walk.Closed l5 fun w ↦ p ∈ w.taken where
  visit _ _ h := h
  logClear _ _ _ h := h
  tlbFreePte w pte addr h := by
    unfold tlbFreePte saTlbAdd putTable
    split
    · exact h
    · split
      · exact List.mem_append_left _ h
      · exact h
      · exact h
  counts _ _ _ _ h := h

/-- Either the next page request is answered with `p` and none was made yet, or `p` was taken. -/
def Walk.Offered (p : Page) (w : Walk) : Prop :=
  (w.tlb.batch = none ∧ w.nowait = [some p]) ∨ p ∈ w.taken

/-- The first PTE table released takes the page on offer. -/
theorem Walk.Offered.tlbFreePte {p : Page} {w : Walk} (h : w.Offered p) (pte : PtPage)
    (addr : Nat) : p ∈ (w.tlbFreePte pte addr).taken := by
  rcases h with ⟨hb, hn⟩ | h
  · simp [Walk.tlbFreePte, Walk.saTlbAdd, hb, hn, Walk.putTable]
  · exact (Walk.closed_taken false p).tlbFreePte w pte addr h

theorem Walk.closed_offered (l5 : Bool) (p : Page) : Walk.Closed l5 (Walk.Offered p) where
  visit _ _ h := h
  logClear _ _ _ h := h
  tlbFreePte _ pte addr h := .inr (h.tlbFreePte pte addr)
  counts _ _ _ _ h := h

/-- The answers to page requests are taken from those given, and nothing else is taken. -/
def Walk.TakesFrom (l : List (Option Page)) (w : Walk) : Prop :=
  (∀ x ∈ w.nowait, x ∈ l) ∧ ∀ p ∈ w.taken, some p ∈ l

theorem Walk.closed_takesFrom (l5 : Bool) (l : List (Option Page)) :
    Walk.Closed l5 (Walk.TakesFrom l) where
  visit _ _ h := h
  logClear _ _ _ h := h
  tlbFreePte w pte addr h := by
    obtain ⟨hn, ht⟩ := h
    unfold tlbFreePte saTlbAdd putTable
    split
    · exact ⟨hn, ht⟩
    · split
      · next p rest heq =>
          have hcons : w.nowait = some p :: rest := heq
          refine ⟨fun x hx ↦ hn x (by rw [hcons]; exact List.mem_cons_of_mem _ hx), fun q hq ↦ ?_⟩
          rcases List.mem_append.mp hq with hq | hq
          · exact ht q hq
          · rw [List.mem_singleton.mp hq]
            exact hn _ (by rw [hcons]; exact List.mem_cons_self)
      · next rest heq =>
          have hcons : w.nowait = none :: rest := heq
          exact ⟨fun x hx ↦ hn x (by rw [hcons]; exact List.mem_cons_of_mem _ hx), ht⟩
      · exact ⟨hn, ht⟩
  counts _ _ _ _ h := h

/-! ## The whole address space

`alloc_destroy_callback` passes zeros for all four bounds.  Zero as an end and as a ceiling stands
for the end of the address space, so none of the early returns is taken and the outermost loop
starts at pgd slot 0. -/

theorem freePgdRange_zero (l5 : Bool) (pgd : Nat → Entry P4dTable) (w : Walk) :
    freePgdRange l5 0 0 0 0 pgd w =
      ((freePgdLoop l5 0 0 0 0 pgd w).1, (freePgdLoop l5 0 0 0 0 pgd w).2.1) := by
  simp [freePgdRange, alignDown, wrapSub]

theorem freePgdRange_zero_walk (l5 : Bool) (pgd : Nat → Entry P4dTable) (w : Walk) :
    (freePgdRange l5 0 0 0 0 pgd w).2 = (freePgdLoop l5 0 0 0 0 pgd w).2.1 := by
  rw [freePgdRange_zero]

/-- What the primitive changes keep, the walk over everything keeps. -/
theorem freePgdRange_zero_keeps {l5 : Bool} (pgd : Nat → Entry P4dTable) {I : Walk → Prop}
    (hI : Walk.Closed l5 I) {w : Walk} (hw : I w) : I (freePgdRange l5 0 0 0 0 pgd w).2 := by
  rw [freePgdRange_zero_walk]
  unfold freePgdLoop
  exact eachSlot_state (A := fun _ ↦ True) (G := fun _ ↦ True) (fun _ _ _ ↦ trivial)
    (fun i a e w _ _ hw ↦ freePgdSlot_keeps hI hw) trivial (fun _ _ ↦ trivial) hw

/-- The addresses the outermost loop passes. -/
theorem iterate_pgd (l5 : Bool) {j : Nat} (hj : j ≤ 512) :
    (fun a ↦ addrEnd (pgdirShift l5) a 0)^[j] 0 = j * 2 ^ pgdirShift l5 := by
  have h := iterate_addrEnd (pgdirShift_lt l5) 0 (2 ^ 64) j le_rfl (dvd_zero _) (by
      cases l5
      · simp only [pgdirShift]; norm_num; omega
      · simp only [pgdirShift]; norm_num; omega)
  simpa [wrap] using h

/-- **The walk over everything reads every slot of the pgd table and the one behind it.** -/
theorem freePgdRange_zero_visits (l5 : Bool) (pgd : Nat → Entry P4dTable) (w : Walk) {k : Nat}
    (hk : k ≤ 512) : WalkEvent.visit k ∈ (freePgdRange l5 0 0 0 0 pgd w).2.log := by
  rw [freePgdRange_zero_walk]
  unfold freePgdLoop
  refine eachSlot_reaches (I := fun w : Walk ↦ WalkEvent.visit k ∈ w.log) (J := fun _ ↦ True)
    (k := k) (fun i a e w h ↦ freePgdSlot_keeps (Walk.closed_log l5 _) h)
    (fun _ _ _ _ _ ↦ trivial) (fun _ _ _ _ ↦ freePgdSlot_ok)
    (lt_of_le_of_lt hk (by cases l5 <;> decide +kernel)) (fun j hj ↦ ?_) trivial fun w _ ↦ ?_
  · rw [iterate_pgd l5 (by omega)]
    simp
  · have hidx : pgdIndex l5 0 + k = k := by simp [pgdIndex]
    rw [hidx]
    unfold freePgdSlot
    simp only
    split
    · simp
    · exact freeP4dRange_keeps (Walk.closed_log l5 _) (by simp)

/-! ### The PTE tables it meets

Because `free_pud_range` makes one round only, the walk over everything sees, below a p4d entry,
just the PTE tables of its first pud slot. -/

/-- No PTE table is linked in a PMD table. -/
def PmdTable.Bare (t : PmdTable) : Prop := ∀ k pte, t.slot k ≠ .table pte

/-- No PTE table is linked below the first slot of a PUD table. -/
def PudTable.Bare (t : PudTable) : Prop := ∀ pmd, t.slot 0 = .table pmd → pmd.Bare

def P4dTable.Bare (t : P4dTable) : Prop := ∀ j pud, t.slot j = .table pud → pud.Bare

/-- The walk over everything meets no PTE table. -/
def Mm.Bare (mm : Mm) : Prop := ∀ g p4d, (mm.pgd g).child = some p4d → p4d.Bare

section Bare

variable {l5 : Bool} {T : List Page}

theorem freePmdRange_taken {floor ceiling addr end_ : Nat} {t : PmdTable} {w : Walk}
    (ht : t.Bare) (hw : w.taken = T) :
    (freePmdRange l5 floor ceiling addr end_ (.table t) w).2.1.taken = T := by
  unfold freePmdRange
  refine freeLevel_keeps (I := fun w : Walk ↦ w.taken = T) (fun _ _ _ h ↦ h) ?_
    (A := fun _ ↦ True) (G := fun s : Entry PteTable ↦ ∀ pte, s ≠ .table pte) (fun _ _ ↦ trivial)
    (fun a s w _ hs hw ↦ ?_) trivial ?_ hw
  · exact fun _ h ↦ h
  swap
  · exact ht
  cases s with
  | none => exact hw
  | bad t => exact hw
  | table t => exact absurd rfl (hs t)

theorem freePudRange_taken {floor ceiling addr end_ : Nat} {t : PudTable} {w : Walk}
    (haddr : 2 ^ 39 ∣ addr) (ht : t.Bare) (hw : w.taken = T) :
    (freePudRange l5 floor ceiling addr end_ (.table t) w).2.1.taken = T := by
  unfold freePudRange
  refine freeLevel_of_loop (I := fun w : Walk ↦ w.taken = T) (fun _ _ _ h ↦ h) ?_ ?_
  · exact fun _ h ↦ h
  rw [eachSlot_once (rounds_pos _ _ _) fun _ ↦ rfl]
  have hidx : pudIndex addr = 0 := by
    unfold pudIndex ptrs
    omega
  rw [hidx]
  simp only [Entry.child, Option.getD_some]
  cases hs : t.slot 0 with
  | none => exact hw
  | bad t => exact hw
  | table pmd => exact freePmdRange_taken (ht pmd hs) hw

theorem freeP4dRange_taken {floor ceiling addr end_ : Nat} {e : Entry P4dTable} {w : Walk}
    (haddr : 2 ^ 39 ∣ addr) (hend : 2 ^ 39 ∣ end_) (he : ∀ t, e.child = some t → t.Bare)
    (hw : w.taken = T) : (freeP4dRange l5 floor ceiling addr end_ e w).2.1.taken = T := by
  unfold freeP4dRange
  refine freeLevel_keeps (I := fun w : Walk ↦ w.taken = T) (fun _ _ _ h ↦ h) (fun _ h ↦ h)
    (A := fun a ↦ 2 ^ 39 ∣ a) (G := fun s : Entry PudTable ↦ ∀ pud, s = .table pud → pud.Bare)
    (fun a _ ↦ dvd_addrEnd (dvd_refl _) hend) (fun a s w ha hs hw ↦ ?_) haddr (fun j ↦ ?_) hw
  · cases s with
    | none => exact hw
    | bad t => exact hw
    | table t => exact freePudRange_taken ha (hs t rfl) hw
  · cases hc : e.child with
    | none => intro pud h; cases h
    | some t => exact he t hc j

/-- **A bare address space costs no batch page.** -/
theorem freePgdRange_zero_taken {mm : Mm} {w : Walk} (hmm : mm.Bare) (hw : w.taken = T) :
    (freePgdRange l5 0 0 0 0 mm.pgd w).2.taken = T := by
  rw [freePgdRange_zero_walk]
  unfold freePgdLoop
  have hdvd : 2 ^ 39 ∣ 2 ^ pgdirShift l5 := by
    rw [two_pow_pgdirShift]; exact Dvd.intro_left _ rfl
  refine eachSlot_state (I := fun w : Walk ↦ w.taken = T) (A := fun a ↦ 2 ^ 39 ∣ a)
    (G := fun s ↦ ∀ t, s.child = some t → P4dTable.Bare t)
    (fun a _ _ ↦ dvd_addrEnd hdvd (dvd_zero _)) (fun i a s w ha hs hw ↦ ?_) (dvd_zero _)
    (fun j _ ↦ hmm j) hw
  unfold freePgdSlot
  simp only
  split
  · exact hw
  · exact freeP4dRange_taken ha (dvd_addrEnd hdvd (dvd_zero _)) hs hw

end Bare

/-- A PTE table is linked at slot `k` of the first PMD table of the address space. -/
def Mm.HasPteTable (mm : Mm) (k : Nat) : Prop :=
  ∃ p4d pud pmd pte, mm.pgd 0 = .table p4d ∧ p4d.slot 0 = .table pud ∧ pud.slot 0 = .table pmd ∧
    pmd.slot k = .table pte

/-! What releasing a PTE table of the first PMD table establishes, and the rest of the walk keeps,
holds at the end of the walk: shown from the inside out, one lemma a level. -/

section Reaches

variable {l5 : Bool} {I J : Walk → Prop} {k floor ceiling addr n : Nat}

theorem freePmdRange_reaches (hI : Walk.Closed l5 I) (hJ : Walk.Closed l5 J) (hk : k < 512)
    {pmd : PmdTable} {pte : PteTable} (hm : pmd.slot k = .table pte) (ha : addr = 0)
    (hn : n = 2 ^ 30)
    (hhit : ∀ w, J w → I (freePteRange l5 (k * 2 ^ 21) pte w).2.1) {w : Walk} (hw : J w) :
    I (freePmdRange l5 floor ceiling addr n (.table pmd) w).2.1 := by
  have hit : ∀ j < 512, (fun a ↦ addrEnd 21 a n)^[j] addr = j * 2 ^ 21 := fun j hj ↦ by
    rw [ha]
    have h := iterate_addrEnd (show 21 < 64 by decide) 0 n j
      (by omega) (dvd_zero _) (by omega)
    rwa [wrap_of_lt (by omega), Nat.zero_add] at h
  unfold freePmdRange
  refine freeLevel_of_loop (I := I) hI.logClear ?_ ?_
  · exact fun w hw ↦ hI.counts w _ _ _ hw
  refine eachSlot_reaches (I := I) (J := J) (k := k) (fun i a s w hw ↦ ?_) (fun i a s w hw ↦ ?_)
    (fun i a s w ↦ ?_) (lt_of_le_of_lt ?_ (lt_rounds 21 (by omega) (by omega))) (fun j hj ↦ ?_) hw
    fun w hw ↦ ?_
  · cases s with
    | none => exact hw
    | bad t => exact hw
    | table t => exact hI.counts _ _ _ _ (hI.tlbFreePte _ _ _ (hI.logClear _ _ _ hw))
  · cases s with
    | none => exact hw
    | bad t => exact hw
    | table t => exact hJ.counts _ _ _ _ (hJ.tlbFreePte _ _ _ (hJ.logClear _ _ _ hw))
  · cases s <;> rfl
  · omega
  · rw [hit (j + 1) (by omega), bne_iff_ne]
    omega
  · have hidx : pmdIndex addr + k = k := by simp [pmdIndex, ha]
    rw [hit k hk, hidx]
    simp only [Entry.child, Option.getD_some, hm]
    exact hhit w hw

theorem freePudRange_reaches (hI : Walk.Closed l5 I) {pud : PudTable} {pmd : PmdTable}
    (hu : pud.slot 0 = .table pmd) (ha : addr = 0) (hn : n = 2 ^ 39)
    (hhit : ∀ m w, m = 2 ^ 30 → J w →
      I (freePmdRange l5 floor ceiling addr m (.table pmd) w).2.1)
    {w : Walk} (hw : J w) : I (freePudRange l5 floor ceiling addr n (.table pud) w).2.1 := by
  unfold freePudRange
  refine freeLevel_of_loop (I := I) hI.logClear ?_ ?_
  · exact fun w hw ↦ hI.counts w _ _ _ hw
  rw [eachSlot_once (rounds_pos _ _ _) fun _ ↦ rfl]
  have hidx : pudIndex addr = 0 := by simp [pudIndex, ha]
  rw [hidx]
  simp only [Entry.child, Option.getD_some, hu]
  exact hhit _ w (by rw [addrEnd_eq_min (by decide) (by omega) (by omega)]; omega) hw

theorem freeP4dRange_reaches (hI : Walk.Closed l5 I) (hJ : Walk.Closed l5 J) {p4d : P4dTable}
    {pud : PudTable} (h4 : p4d.slot 0 = .table pud) (ha : addr = 0) (hn : n = 2 ^ pgdirShift l5)
    (hhit : ∀ m w, m = 2 ^ 39 → J w →
      I (freePudRange l5 floor ceiling addr m (.table pud) w).2.1)
    {w : Walk} (hw : J w) : I (freeP4dRange l5 floor ceiling addr n (.table p4d) w).2.1 := by
  have h39 : 2 ^ 39 ≤ n := by
    rw [hn]; exact Nat.pow_le_pow_right (by decide) (by cases l5 <;> decide)
  have h64 : n < 2 ^ 64 := by
    rw [hn]; exact Nat.pow_lt_pow_right (by decide) (pgdirShift_lt l5)
  unfold freeP4dRange
  refine freeLevel_of_loop (I := I) hI.logClear ?_ ?_
  · exact fun w hw ↦ hw
  refine eachSlot_reaches (I := I) (J := J) (k := 0) (fun i a s w hw ↦ ?_) (fun i a s w hw ↦ ?_)
    (fun i a s w ↦ ?_) (rounds_pos _ _ _) (fun j hj ↦ by omega) hw fun w hw ↦ ?_
  · cases s with
    | none => exact hw
    | bad t => exact hw
    | table t => exact freePudRange_keeps hI hw
  · cases s with
    | none => exact hw
    | bad t => exact hw
    | table t => exact freePudRange_keeps hJ hw
  · cases s with
    | none => rfl
    | bad t => rfl
    | table t => exact freeLevel_ok
  · have hidx : p4dIndex l5 addr + 0 = 0 := by simp [p4dIndex, ha]
    rw [hidx, Function.iterate_zero, id_eq]
    simp only [Entry.child, Option.getD_some, h4]
    exact hhit _ w (by rw [addrEnd_eq_min (by decide) (by omega) h64]; omega) hw

theorem freePgdRange_zero_reaches (hI : Walk.Closed l5 I) (hJ : Walk.Closed l5 J) (hk : k < 512)
    {mm : Mm} (hmm : mm.HasPteTable k)
    (hhit : ∀ w pte, J w → I (freePteRange l5 (k * 2 ^ 21) pte w).2.1) {w : Walk} (hw : J w) :
    I (freePgdRange l5 0 0 0 0 mm.pgd w).2 := by
  obtain ⟨p4d, pud, pmd, pte, hg, h4, hu, hm⟩ := hmm
  have hp4d : ∀ a n w, a = 0 → n = 2 ^ pgdirShift l5 → J w →
      I (freeP4dRange l5 0 0 a n (.table p4d) w).2.1 := fun a _ _ ha hn ↦
    freeP4dRange_reaches hI hJ h4 ha hn fun _ _ hn ↦ freePudRange_reaches hI hu ha hn fun _ _ hn ↦
      freePmdRange_reaches hI hJ hk hm ha hn fun w ↦ hhit w pte
  rw [freePgdRange_zero_walk]
  unfold freePgdLoop
  refine eachSlot_reaches (I := I) (J := J) (k := 0)
    (fun i a e w h ↦ freePgdSlot_keeps hI h) (fun i a e w h ↦ freePgdSlot_keeps hJ h)
    (fun _ _ _ _ ↦ freePgdSlot_ok) (rounds_pos _ _ _) (fun j hj ↦ by omega) hw fun w hw ↦ ?_
  have hnext : addrEnd (pgdirShift l5) 0 0 = 2 ^ pgdirShift l5 := by cases l5 <;> decide
  have hidx : pgdIndex l5 0 + 0 = 0 := by simp [pgdIndex]
  rw [hidx, Function.iterate_zero, id_eq, hg]
  unfold freePgdSlot
  simp only [Entry.isTable, Bool.not_true, Bool.and_false, Bool.false_eq_true, if_false]
  exact hp4d _ _ _ rfl hnext (hJ.visit w 0 hw)

end Reaches

end ShadowStack.Lkm
