import Mathlib.Data.List.Basic
import ShadowStack.Lkm.Bounds

/-!
# What `__free_pgd_range` unlinks

The exact result of a teardown whose bounds are the ends of its range: which tables are still
linked, which pages went to `sa_tlb_add`, and how the counts moved.  `free_pud_range` looks at its
first pud entry only, and a table whose entry is cleared by the level above is not handed over.
-/

namespace ShadowStack.Lkm

open Lib

/-! ## Linked tables -/

/-- The page of the table of a level that an address is translated through below an entry.  Only
entries that are neither none nor bad count as links. -/
def Entry.tableAt {ε : Type} (own : Level) (idx : Nat → Nat)
    (below : ε → Level → Nat → Option PtPage) (e : Entry (Table ε)) (level : Level) (a : Nat) :
    Option PtPage :=
  match e with
  | .table t => if level = own then some t.page else below (t.slot (idx a)) level a
  | _ => Option.none

def pmdTableAt : Entry PteTable → Level → Nat → Option PtPage :=
  Entry.tableAt .pte pteIndex fun _ _ _ ↦ none

def pudTableAt : Entry PmdTable → Level → Nat → Option PtPage :=
  Entry.tableAt .pmd pmdIndex pmdTableAt

def p4dTableAt : Entry PudTable → Level → Nat → Option PtPage :=
  Entry.tableAt .pud pudIndex pudTableAt

/-- With four levels the pgd slot is the p4d entry. -/
def pgdTableAt (l5 : Bool) (e : Entry P4dTable) (level : Level) (a : Nat) : Option PtPage :=
  if l5 then Entry.tableAt .p4d (p4dIndex true) p4dTableAt e level a
  else p4dTableAt ((p4dStart e).slot (p4dIndex false a)) level a

/-- The page of the table of a level that an address is translated through. -/
def tableAt (l5 : Bool) (pgd : Nat → Entry P4dTable) (level : Level) (a : Nat) : Option PtPage :=
  pgdTableAt l5 (pgd (pgdIndex l5 a)) level a

section Entries

variable {ε : Type} {own : Level} {idx : Nat → Nat} {below : ε → Level → Nat → Option PtPage}

theorem Entry.tableAt_own (t : Table ε) (a : Nat) :
    Entry.tableAt own idx below (.table t) own a = some t.page := if_pos rfl

theorem Entry.tableAt_below (t : Table ε) {level : Level} (h : level ≠ own) (a : Nat) :
    Entry.tableAt own idx below (.table t) level a = below (t.slot (idx a)) level a := if_neg h

/-- Without a table of the level there is none further down either. -/
theorem Entry.tableAt_eq_none (t : Table ε) {level : Level} {a : Nat}
    (h : Entry.tableAt own idx below (.table t) level a = Option.none) :
    below (t.slot (idx a)) level a = Option.none := by
  by_cases hl : level = own
  · subst hl
    rw [Entry.tableAt_own] at h
    cases h
  · rwa [Entry.tableAt_below t hl] at h

end Entries

theorem pmdTableAt_of_ne (e : Entry PteTable) {level : Level} (h : level ≠ .pte) (a : Nat) :
    pmdTableAt e level a = none := by
  cases e with
  | none => rfl
  | bad t => rfl
  | table t => exact Entry.tableAt_below t h a

theorem pudTableAt_of_ne (e : Entry PmdTable) {level : Level} (h : level ≠ .pte) (h' : level ≠ .pmd)
    (a : Nat) : pudTableAt e level a = none := by
  cases e with
  | none => rfl
  | bad t => rfl
  | table t => exact (Entry.tableAt_below t h' a).trans (pmdTableAt_of_ne _ h a)

theorem p4dTableAt_of_ne (e : Entry PudTable) {level : Level} (h : level ≠ .pte) (h' : level ≠ .pmd)
    (h'' : level ≠ .pud) (a : Nat) : p4dTableAt e level a = none := by
  cases e with
  | none => rfl
  | bad t => rfl
  | table t => exact (Entry.tableAt_below t h'' a).trans (pudTableAt_of_ne _ h h' a)

/-! ## What is cleared -/

section Range

variable (addr end_ : Nat)

/-- The region of `2 ^ s` bytes around an address lies in the range. -/
def Whole (s b : Nat) : Prop := addr ≤ b / 2 ^ s * 2 ^ s ∧ (b / 2 ^ s + 1) * 2 ^ s ≤ end_

/-- The address is in the first pud entry of the range, or of its own p4d entry. -/
def FirstPud (b : Nat) : Prop := b / 2 ^ 30 = max addr (b / 2 ^ 39 * 2 ^ 39) / 2 ^ 30

/-- The tables that are no longer linked after the walk, by level and an address they translate. -/
def Released : Level → Nat → Prop
  | .pte, b => (addr ≤ b ∧ b < end_) ∧ (FirstPud addr b ∨ Whole addr end_ 39 b)
  | .pmd, b => FirstPud addr b ∧ Whole addr end_ 30 b ∨ Whole addr end_ 39 b
  | .pud, b => Whole addr end_ 39 b
  | .p4d, b => Whole addr end_ 48 b
  | .pgd, _ => False

instance (s b : Nat) : Decidable (Whole addr end_ s b) := inferInstanceAs (Decidable (_ ∧ _))

instance (b : Nat) : Decidable (FirstPud addr b) := inferInstanceAs (Decidable (_ = _))

instance (level : Level) (b : Nat) : Decidable (Released addr end_ level b) := by
  cases level <;> (dsimp only [Released]; infer_instance)

end Range

section Regions

variable {addr end_ s s' b b' : Nat}

theorem Whole.mem (h : Whole addr end_ s b) : addr ≤ b ∧ b < end_ := by
  refine ⟨h.1.trans (Nat.div_mul_le_self b _), lt_of_lt_of_le ?_ h.2⟩
  rw [mul_comm]
  exact Nat.lt_mul_div_succ b (Nat.two_pow_pos s)

/-- Addresses of one region lie in the same larger region. -/
theorem region_mono {a : Nat} (hs : s ≤ s') (h : b / 2 ^ s = a / 2 ^ s) : b / 2 ^ s' = a / 2 ^ s' := by
  obtain ⟨k, rfl⟩ := Nat.exists_eq_add_of_le hs
  rw [pow_add, ← Nat.div_div_eq_div_mul, ← Nat.div_div_eq_div_mul, h]

theorem Whole.congr (h : b / 2 ^ s = b' / 2 ^ s) : Whole addr end_ s b ↔ Whole addr end_ s b' := by
  rw [Whole, Whole, h]

/-- The smaller regions of a region in the range lie in the range. -/
theorem Whole.mono (h : Whole addr end_ s b) (hs : s' ≤ s) : Whole addr end_ s' b := by
  obtain ⟨k, rfl⟩ := Nat.exists_eq_add_of_le hs
  have hpos := Nat.two_pow_pos s'
  have hb : b / 2 ^ (s' + k) = b / 2 ^ s' / 2 ^ k := by rw [pow_add, Nat.div_div_eq_div_mul]
  obtain ⟨hlo, hhi⟩ := h
  rw [hb] at hlo hhi
  have hmul : ∀ q, q * 2 ^ (s' + k) = q * 2 ^ k * 2 ^ s' := fun q ↦ by rw [pow_add]; ring
  rw [hmul] at hlo hhi
  refine ⟨hlo.trans (Nat.mul_le_mul_right _ (Nat.div_mul_le_self _ _)), le_trans ?_ hhi⟩
  refine Nat.mul_le_mul_right _ (Nat.succ_le_of_lt ?_)
  rw [mul_comm]
  exact Nat.lt_mul_div_succ _ (Nat.two_pow_pos k)

theorem FirstPud.congr (h : b / 2 ^ 30 = b' / 2 ^ 30) : FirstPud addr b ↔ FirstPud addr b' := by
  have h' : b / 2 ^ 39 = b' / 2 ^ 39 := by omega
  rw [FirstPud, FirstPud, h, h']

/-- A piece of a range for p4d slots starts in a first pud entry. -/
theorem firstPud_of_piece {a n : Nat} (h : Piece (2 ^ 39) addr end_ a n) : FirstPud addr a := by
  have hle := h.le
  unfold FirstPud
  rcases h.start with rfl | hdvd
  · rw [max_eq_left (Nat.div_mul_le_self _ _)]
  · rw [Nat.div_mul_cancel hdvd, max_eq_right hle]

/-- Only tables of the range are released. -/
theorem Released.mem {level : Level} (h : Released addr end_ level b) : addr ≤ b ∧ b < end_ := by
  cases level with
  | pte => exact h.1
  | pmd =>
      rcases h with ⟨-, h⟩ | h
      · exact h.mem
      · exact h.mem
  | pud => exact Whole.mem h
  | p4d => exact Whole.mem h
  | pgd => exact h.elim

/-- With the ends of the range for bounds, the entry above goes if and only if the range covers all
of its region. -/
theorem releasesUpper_iff {a n : Nat} (hend : end_ < 2 ^ 64) (h : Piece (2 ^ s) addr end_ a n) :
    releasesUpper s a n addr end_ = true ↔ Whole addr end_ s a := by
  have hpos := Nat.two_pow_pos s
  have hlt := h.lt
  have hle := h.le_end
  have hwrap : ∀ m, 0 < m → m ≤ end_ → wrapSub m 1 = m - 1 := fun m h₀ hm ↦
    wrapSub_one h₀ (by omega)
  have hcut : n ≤ alignDown s end_ ↔ (a / 2 ^ s + 1) * 2 ^ s ≤ end_ := by
    unfold alignDown
    rw [h.cut]
    constructor
    · intro hn
      by_contra hout
      rw [min_eq_right (by omega)] at hn
      have hdvd : 2 ^ s ∣ end_ :=
        ⟨end_ / 2 ^ s, by rw [mul_comm]; exact le_antisymm hn (Nat.div_mul_le_self _ _)⟩
      exact hout (region_le hdvd (hlt.trans_le hle))
    · intro hn
      rw [min_eq_left hn]
      exact Nat.mul_le_mul_right _ ((Nat.le_div_iff_mul_le hpos).mpr hn)
  unfold releasesUpper Whole
  rw [← hcut]
  dsimp only
  by_cases hlo : alignDown s a < addr
  · rw [if_pos hlo]
    refine ⟨fun h ↦ (nomatch h), fun h ↦ absurd h.1 (Nat.not_le.mpr hlo)⟩
  · rw [if_neg hlo, if_neg (by omega : ¬end_ = 0)]
    by_cases hz : alignDown s end_ = 0
    · rw [if_pos ⟨by omega, hz⟩, hz]
      refine ⟨fun h ↦ (nomatch h), fun h ↦ absurd h.2 (by omega)⟩
    · rw [if_neg fun h ↦ hz h.2, Bool.not_eq_true', decide_eq_false_iff_not,
        hwrap n (by omega) hle, hwrap (alignDown s end_) (by omega) (Nat.div_mul_le_self _ _)]
      have hlo' : addr ≤ a / 2 ^ s * 2 ^ s := Nat.not_lt.mp hlo
      refine ⟨fun h ↦ ⟨hlo', by omega⟩, fun h ↦ by omega⟩

end Regions

/-! ## What is handed over -/

namespace Walk

/-- What `sa_tlb_add` reads and writes: the batch, the page requests, and the pages freed. -/
def releases (w : Walk) : Option SaBatch × List (Option Page) × List Page × List PtPage :=
  (w.tlb.batch, w.nowait, w.taken, w.freed)

/-- The number of pages passed to `sa_tlb_add`, up to a constant. -/
def handedOver (w : Walk) : Nat :=
  w.freed.length + match w.tlb.batch with
    | none => 0
    | some b => if b.nr < maxBatchSize then b.nr else b.nr - maxBatchSize

theorem handedOver_congr {w w' : Walk} (h : w.releases = w'.releases) :
    w.handedOver = w'.handedOver := by
  simp only [releases, Prod.mk.injEq] at h
  obtain ⟨hb, -, -, hf⟩ := h
  rw [handedOver, handedOver, hb, hf]

/-- `sa_tlb_add` looks at nothing else. -/
theorem saTlbAdd_congr {w w' : Walk} (h : w.releases = w'.releases) (page : PtPage) :
    (w.saTlbAdd page).releases = (w'.saTlbAdd page).releases := by
  simp only [releases, Prod.mk.injEq] at h
  obtain ⟨hb, hn, ht, hf⟩ := h
  unfold saTlbAdd
  rw [← hb, ← hn]
  cases w.tlb.batch with
  | some b => simp only [releases, putTable, hn, ht, hf]
  | none =>
      rcases w.nowait with _ | ⟨_ | p, rest⟩
      · simp only [releases, hb, ht, hf]
      · simp only [releases, hb, ht, hf]
      · simp only [releases, putTable, ht, hf]

theorem foldl_saTlbAdd_congr {w w' : Walk} (h : w.releases = w'.releases) (pages : List PtPage) :
    (pages.foldl saTlbAdd w).releases = (pages.foldl saTlbAdd w').releases := by
  induction pages generalizing w w' with
  | nil => exact h
  | cons page pages ih => exact ih (saTlbAdd_congr h page)

theorem putTable_handedOver (w : Walk) (b : SaBatch) (page : PtPage) :
    (w.putTable b page).handedOver =
      w.freed.length + (if b.nr < maxBatchSize then b.nr else b.nr - maxBatchSize) + 1 := by
  have hpos : 0 < maxBatchSize := by decide
  unfold putTable handedOver
  dsimp only
  by_cases hfull : b.nr + 1 = maxBatchSize
  · rw [if_pos hfull, if_neg (by omega), if_pos (by omega), List.length_append, List.length_map,
      List.length_range]
    omega
  · rw [if_neg hfull]
    by_cases hlt : b.nr < maxBatchSize
    · rw [if_pos (by omega), if_pos hlt]
      omega
    · rw [if_neg (by omega), if_neg hlt]
      omega

/-- Every call of `sa_tlb_add` leaves its trace. -/
theorem saTlbAdd_handedOver (w : Walk) (page : PtPage) :
    (w.saTlbAdd page).handedOver = w.handedOver + 1 := by
  unfold saTlbAdd
  cases hb : w.tlb.batch with
  | some b =>
      rw [putTable_handedOver, handedOver, hb]
  | none =>
      have hw : w.handedOver = w.freed.length := by
        rw [handedOver, hb]
        rfl
      have hone : ∀ l, ({ w with nowait := l, freed := w.freed ++ [page] } : Walk).handedOver =
          w.freed.length + 1 := fun l ↦ by
        simp only [handedOver, hb, List.length_append, List.length_singleton]
      rw [hw]
      match w.nowait with
      | some p :: rest => exact putTable_handedOver _ ⟨p, 0, fun _ ↦ 0⟩ page
      | none :: rest => exact hone rest
      | [] => simp only [handedOver, hb, List.length_append, List.length_singleton]

theorem foldl_saTlbAdd_handedOver (pages : List PtPage) (w : Walk) :
    (pages.foldl saTlbAdd w).handedOver = w.handedOver + pages.length := by
  induction pages generalizing w with
  | nil => rfl
  | cons page pages ih =>
      rw [List.foldl_cons, ih, saTlbAdd_handedOver, List.length_cons]
      omega

end Walk

section Range

variable (addr end_ : Nat) (before : Level → Nat → Option PtPage)

/-- The addresses from `lo` up to `n`, one for each pmd entry. -/
def pmdStarts (lo n : Nat) : List Nat := List.range' lo ((n - lo) / 2 ^ 21) (2 ^ 21)

/-- The pages of the PTE tables from `lo` up to `n` in first pud entries. -/
def handed (lo n : Nat) : List PtPage :=
  (pmdStarts lo n).filterMap fun b ↦ if FirstPud addr b then before .pte b else none

/-- What the walk did to its own state from `lo` up to `n`, where the tables `before` were linked. -/
structure Effect (w₀ : Walk) (lo n : Nat) (w : Walk) : Prop where
  releases : w.releases = ((handed addr before lo n).foldl Walk.saTlbAdd w₀).releases
  ptes : w.nrPtes = w₀.nrPtes - (handed addr before lo n).length
  /-- The count of PMD tables stays unless the entry of one is cleared. -/
  pmds : (∀ b, lo ≤ b → b < n → FirstPud addr b → Whole addr end_ 30 b → before .pmd b = none) →
    w.nrPmds = w₀.nrPmds
  puds : (∀ b, lo ≤ b → b < n → Whole addr end_ 39 b → before .pud b = none) → w.nrPuds = w₀.nrPuds

/-- What a level does to the slot of a piece and to the walk.  Below a p4d entry it is only called
for the first pud entry. -/
structure FreesSlot {ε : Type} (s : Nat) (look : ε → Level → Nat → Option PtPage)
    (f : Nat → Nat → ε → Walk → ε × Walk × Bool) : Prop where
  ok : ∀ a n e w, (f a n e w).2.2 = false
  frees : ∀ a n e w, Piece (2 ^ s) addr end_ a n → (s ≤ 30 → FirstPud addr a) →
    Effect addr end_ (look e) w a n (f a n e w).2.1 ∧
      ∀ level b, b / 2 ^ s = a / 2 ^ s → look (f a n e w).1 level b =
        if Released addr end_ level b then none else look e level b

end Range

section Effects

variable {addr end_ : Nat} {before before' : Level → Nat → Option PtPage} {w₀ w w' : Walk}
  {lo m n : Nat}

theorem mem_pmdStarts (hlo : 2 ^ 21 ∣ lo) (hn : 2 ^ 21 ∣ n) {b : Nat} :
    b ∈ pmdStarts lo n ↔ 2 ^ 21 ∣ b ∧ lo ≤ b ∧ b < n := by
  unfold pmdStarts
  rw [List.mem_range']
  constructor
  · rintro ⟨i, hi, rfl⟩
    omega
  · rintro ⟨hb, hle, hlt⟩
    exact ⟨(b - lo) / 2 ^ 21, by omega, by omega⟩

theorem nodup_pmdStarts : (pmdStarts lo n).Nodup := List.nodup_range' _ (by decide)

theorem pmdStarts_append (hlo : 2 ^ 21 ∣ lo) (hm : 2 ^ 21 ∣ m) (hle : lo ≤ m) (hle' : m ≤ n) :
    pmdStarts lo m ++ pmdStarts m n = pmdStarts lo n := by
  unfold pmdStarts
  have hstart : m = lo + 2 ^ 21 * ((m - lo) / 2 ^ 21) := by omega
  have hlen : (n - lo) / 2 ^ 21 = (m - lo) / 2 ^ 21 + (n - m) / 2 ^ 21 := by omega
  rw [hlen, ← List.range'_append, ← hstart]

theorem handed_append (hlo : 2 ^ 21 ∣ lo) (hm : 2 ^ 21 ∣ m) (hle : lo ≤ m) (hle' : m ≤ n) :
    handed addr before lo n = handed addr before lo m ++ handed addr before m n := by
  rw [handed, ← pmdStarts_append hlo hm hle hle', List.filterMap_append]
  rfl

theorem handed_congr (hlo : 2 ^ 21 ∣ lo) (hn : 2 ^ 21 ∣ n)
    (h : ∀ b, lo ≤ b → b < n → before .pte b = before' .pte b) :
    handed addr before lo n = handed addr before' lo n := by
  refine List.filterMap_congr fun b hb ↦ ?_
  obtain ⟨-, hlob, hbn⟩ := (mem_pmdStarts hlo hn).mp hb
  rw [h b hlob hbn]

theorem handed_eq_nil (hlo : 2 ^ 21 ∣ lo) (hn : 2 ^ 21 ∣ n)
    (h : ∀ b, lo ≤ b → b < n → FirstPud addr b → before .pte b = none) :
    handed addr before lo n = [] := by
  refine List.filterMap_eq_nil_iff.mpr fun b hb ↦ ?_
  obtain ⟨-, hlob, hbn⟩ := (mem_pmdStarts hlo hn).mp hb
  by_cases hf : FirstPud addr b
  · rw [if_pos hf, h b hlob hbn hf]
  · rw [if_neg hf]

namespace Effect

/-- A walk that does nothing where there is nothing to do. -/
theorem idle (hlo : 2 ^ 21 ∣ lo) (hn : 2 ^ 21 ∣ n)
    (h : ∀ b, lo ≤ b → b < n → FirstPud addr b → before .pte b = none) :
    Effect addr end_ before w lo n w where
  releases := by rw [handed_eq_nil hlo hn h]; rfl
  ptes := by rw [handed_eq_nil hlo hn h]; exact (Int.sub_zero _).symm
  pmds _ := rfl
  puds _ := rfl

theorem trans (h : Effect addr end_ before w₀ lo m w) (h' : Effect addr end_ before w m n w')
    (hlo : 2 ^ 21 ∣ lo) (hm : 2 ^ 21 ∣ m) (hle : lo ≤ m) (hle' : m ≤ n) :
    Effect addr end_ before w₀ lo n w' where
  releases := by
    rw [h'.releases, handed_append hlo hm hle hle', List.foldl_append]
    exact Walk.foldl_saTlbAdd_congr h.releases _
  ptes := by
    rw [h'.ptes, h.ptes, handed_append hlo hm hle hle', List.length_append]
    omega
  pmds hnone := by
    rw [h'.pmds fun b hb hbn ↦ hnone b (hle.trans hb) hbn,
      h.pmds fun b hb hbn ↦ hnone b hb (hbn.trans_le hle')]
  puds hnone := by
    rw [h'.puds fun b hb hbn ↦ hnone b (hle.trans hb) hbn,
      h.puds fun b hb hbn ↦ hnone b hb (hbn.trans_le hle')]

/-- The same effect, told of an entry that has the same PTE tables and further tables above. -/
theorem above (h : Effect addr end_ before w₀ lo n w) (hlo : 2 ^ 21 ∣ lo) (hn : 2 ^ 21 ∣ n)
    (hpte : ∀ b, lo ≤ b → b < n → before .pte b = before' .pte b)
    (habove : ∀ level b, lo ≤ b → b < n → before' level b = none → before level b = none) :
    Effect addr end_ before' w₀ lo n w where
  releases := handed_congr hlo hn hpte ▸ h.releases
  ptes := handed_congr hlo hn hpte ▸ h.ptes
  pmds hnone := h.pmds fun b hb hbn hf hw ↦ habove _ b hb hbn (hnone b hb hbn hf hw)
  puds hnone := h.puds fun b hb hbn hw ↦ habove _ b hb hbn (hnone b hb hbn hw)

/-- The same effect, told of the same tables. -/
theorem congr (h : Effect addr end_ before w₀ lo n w) (hlo : 2 ^ 21 ∣ lo) (hn : 2 ^ 21 ∣ n)
    (heq : ∀ level b, lo ≤ b → b < n → before level b = before' level b) :
    Effect addr end_ before' w₀ lo n w :=
  h.above hlo hn (heq .pte) fun level b hb hbn hnone ↦ (heq level b hb hbn).trans hnone

end Effect

end Effects

/-! ## The loops -/

section Loops

variable {addr end_ : Nat} {ε : Type} {look : ε → Level → Nat → Option PtPage}
  {body : Nat → Nat → ε → Walk → ε × Walk × Bool}

/-- Where a loop stands at `d`: what it did to the walk, and the tables of the region it works on, which were
`before` linked. -/
structure FreedUpTo (addr end_ s a : Nat) (before : Level → Nat → Option PtPage) (w₀ : Walk) (d : Nat)
    (after : Level → Nat → Option PtPage) (w : Walk) : Prop where
  effect : Effect addr end_ before w₀ a d w
  tables : ∀ level b, b / 2 ^ s = a / 2 ^ s → after level b =
    if Released addr end_ level b ∧ b < d then none else before level b

/-- The loop of a level, round by round. -/
theorem FreesSlot.loop {f : Nat → Nat → Nat → ε → Walk → ε × Walk × Bool} {s s' M a n : Nat}
    (h : ∀ i, FreesSlot addr end_ s look (f i)) (hs : 21 ≤ s) (hs' : s < 64)
    (hsize : M * 2 ^ s = 2 ^ s') (haddr : 2 ^ 21 ∣ addr) (hend : 2 ^ 21 ∣ end_)
    (hend' : end_ < 2 ^ 64) (hp : Piece (2 ^ s') addr end_ a n)
    (hfirst : ∀ b, b / 2 ^ s' = a / 2 ^ s' → s ≤ 30 → FirstPud addr b) (t : Nat → ε) (w : Walk) :
    let r := eachSlot (fun b ↦ addrEnd s b n) (fun b ↦ b != n) f (rounds s a n)
      (a / 2 ^ s % M) a t w
    Effect addr end_ (fun level b ↦ look (t (b / 2 ^ s % M)) level b) w a n r.2.1 ∧
      ∀ level b, b / 2 ^ s' = a / 2 ^ s' → look (r.1 (b / 2 ^ s % M)) level b =
        if Released addr end_ level b then none else look (t (b / 2 ^ s % M)) level b := by
  have hS := Nat.two_pow_pos s
  have hS' := Nat.two_pow_pos s'
  have hle' := hp.le_end
  have hlt' := hp.lt
  have hdvd : 2 ^ s ∣ 2 ^ s' := hsize ▸ Dvd.intro_left M rfl
  have hal := hp.dvd ((pow_dvd_pow 2 hs).trans hdvd) haddr hend
  have hsame := hp.same hS'
  rw [← hsize] at hsame
  set before : Level → Nat → Option PtPage := fun level b ↦ look (t (b / 2 ^ s % M)) level b with hbefore
  have hstart : FreedUpTo addr end_ s' a before w a before w := by
    refine ⟨Effect.idle hal.1 hal.1 fun b hb hba ↦ absurd hba (Nat.not_lt.mpr hb), fun level b hblock ↦ ?_⟩
    rw [if_neg]
    rintro ⟨hrel, hba⟩
    have hmem := (hp.mem_iff hS').mpr ⟨hrel.mem, hblock⟩
    omega
  have hround : ∀ d m u x, Piece (2 ^ s) a n d m → (∀ k, d / 2 ^ s % M ≤ k → u k = t k) →
      FreedUpTo addr end_ s' a before w d (fun level b ↦ look (u (b / 2 ^ s % M)) level b) x →
      FreedUpTo addr end_ s' a before w m
        (fun level b ↦ look (Function.update u (d / 2 ^ s % M)
          (f (d / 2 ^ s % M) d m (t (d / 2 ^ s % M)) x).1 (b / 2 ^ s % M)) level b)
        (f (d / 2 ^ s % M) d m (t (d / 2 ^ s % M)) x).2.1 := by
    intro d m u x hd _ hfreed
    have hd' : Piece (2 ^ s) addr end_ d m := hp.nest hdvd hd
    have hald := hd'.dvd (pow_dvd_pow 2 hs) haddr hend
    have hblockd : d / 2 ^ s' = a / 2 ^ s' := by
      have hdm := hd.lt
      have hmn := hd.le_end
      exact ((hp.mem_iff hS').mp ⟨hd.le, by omega⟩).2
    obtain ⟨heff, htable⟩ := (h (d / 2 ^ s % M)).frees d m (t (d / 2 ^ s % M)) x hd' (hfirst d hblockd)
    refine ⟨hfreed.effect.trans (heff.congr hald.1 hald.2 fun level b hb hbm ↦ ?_) hal.1 hald.1 hd.le hd.lt.le,
      fun level b hblock ↦ ?_⟩
    · have hslot := ((hd'.mem_iff hS).mp ⟨hb, hbm⟩).2
      rw [hbefore]
      dsimp only
      rw [hslot]
    · by_cases hslot : b / 2 ^ s = d / 2 ^ s
      · rw [hslot, Function.update_self, htable level b hslot, hbefore]
        dsimp only
        rw [hslot]
        exact if_congr ⟨fun hrel ↦ ⟨hrel, ((hd'.mem_iff hS).mpr ⟨hrel.mem, hslot⟩).2⟩, And.left⟩ rfl rfl
      · have hne : b / 2 ^ s % M ≠ d / 2 ^ s % M := by
          rw [← hsize] at hblock hblockd
          exact fun hi ↦ hslot ((slot_eq_iff (hblock.trans hblockd.symm)).mp hi)
        rw [Function.update_of_ne hne]
        refine (hfreed.tables level b hblock).trans (if_congr (and_congr_right fun _ ↦ ?_) rfl rfl)
        -- the address is not in the piece of this round
        refine ⟨fun hbd ↦ hbd.trans hd.lt, fun hbm ↦ ?_⟩
        by_contra hbd
        exact hslot ((hd'.mem_iff hS).mp ⟨Nat.not_lt.mp hbd, hbm⟩).2
  intro r
  have hfreed : FreedUpTo addr end_ s' a before w n (fun level b ↦ look (r.1 (b / 2 ^ s % M)) level b) r.2.1 :=
    eachSlot_rule (I := fun d u x ↦
        FreedUpTo addr end_ s' a before w d (fun level b ↦ look (u (b / 2 ^ s % M)) level b) x)
      hS (fun b hbn ↦ addrEnd_eq_min hs' hbn (by omega)) (fun b ↦ by simp) (fun i ↦ (h i).ok) hlt'
      hsame (lt_rounds s (by omega) (by omega)) hround hstart
  refine ⟨hfreed.effect, fun level b hblock ↦ (hfreed.tables level b hblock).trans ?_⟩
  refine if_congr ⟨And.left, fun hrel ↦ ⟨hrel, ?_⟩⟩ rfl rfl
  exact ((hp.mem_iff hS').mpr ⟨hrel.mem, hblock⟩).2

/-- The loop of `free_pud_range`, which makes one round. -/
theorem FreesSlot.once {a n : Nat} (h : FreesSlot addr end_ 30 look body) (haddr : 2 ^ 21 ∣ addr)
    (hend : 2 ^ 21 ∣ end_) (hend' : end_ < 2 ^ 64) (hp : Piece (2 ^ 39) addr end_ a n) (t : Nat → ε) (w : Walk) :
    let r := eachSlot (fun b ↦ addrEnd 30 b n) (fun _ ↦ false) (fun _ ↦ body) (rounds 30 a n)
      (a / 2 ^ 30 % ptrs) a t w
    Effect addr end_ (fun level b ↦ look (t (b / 2 ^ 30 % ptrs)) level b) w a n r.2.1 ∧
      ∀ level b, b / 2 ^ 39 = a / 2 ^ 39 → look (r.1 (b / 2 ^ 30 % ptrs)) level b =
        if Released addr end_ level b ∧ FirstPud addr b then none else look (t (b / 2 ^ 30 % ptrs)) level b := by
  have hle' := hp.le_end
  have hsub : Piece (2 ^ 30) a n a (addrEnd 30 a n) := by
    rw [addrEnd_eq_min (by decide) hp.lt (by omega)]
    exact .first (by decide) hp.lt
  have hsub' : Piece (2 ^ 30) addr end_ a (addrEnd 30 a n) := hp.nest (by decide) hsub
  have hal := hp.dvd (by decide) haddr hend
  have hal' := hsub'.dvd (by decide) haddr hend
  have hfirst : FirstPud addr a := firstPud_of_piece hp
  -- in the region of the p4d entry the first pud entry is that of `a`
  have hiff : ∀ b, b / 2 ^ 39 = a / 2 ^ 39 → (FirstPud addr b ↔ b / 2 ^ 30 = a / 2 ^ 30) := by
    intro b hb
    rw [FirstPud] at hfirst ⊢
    rw [hb, ← hfirst]
  obtain ⟨heff, htable⟩ := h.frees a _ (t (a / 2 ^ 30 % ptrs)) w hsub' fun _ ↦ hfirst
  rw [eachSlot_one (rounds_pos 30 a n) fun _ ↦ h.ok]
  refine ⟨?_, fun level b hblock ↦ ?_⟩
  · refine (heff.congr hal.1 hal'.2 fun level b hb hbm ↦ ?_).trans (Effect.idle hal'.2 hal.2 fun b hb hbn hf ↦ ?_)
      hal.1 hal'.2 hsub.lt.le hsub.le_end
    · rw [((hsub'.mem_iff (by decide)).mp ⟨hb, hbm⟩).2]
    · -- what comes after the first pud entry is passed over
      have hlt := hsub.lt
      have hblock := ((hp.mem_iff (by decide)).mp ⟨by omega, hbn⟩).2
      have hmem := (hp.mem_iff (by decide)).mp ⟨by omega, hbn⟩
      have hin := (hsub'.mem_iff (by decide)).mpr ⟨hmem.1, (hiff b hblock).mp hf⟩
      omega
  · dsimp only
    by_cases hslot : b / 2 ^ 30 = a / 2 ^ 30
    · rw [hslot, Function.update_self, htable level b hslot]
      exact if_congr ⟨fun hrel ↦ ⟨hrel, (hiff b hblock).mpr hslot⟩, And.left⟩ rfl rfl
    · have hne : b / 2 ^ 30 % ptrs ≠ a / 2 ^ 30 % ptrs := by
        have hblock' : b / (ptrs * 2 ^ 30) = a / (ptrs * 2 ^ 30) := hblock
        exact fun hi ↦ hslot ((slot_eq_iff hblock').mp hi)
      rw [Function.update_of_ne hne, if_neg fun hc ↦ hslot ((hiff b hblock).mp hc.2)]

end Loops

/-! ## The levels -/

section Levels

variable {l5 : Bool} {addr end_ : Nat} {ε : Type} {own : Level} {idx : Nat → Nat}
  {look : ε → Level → Nat → Option PtPage}

/-- Entries that are none or bad are passed over, so only linked tables matter. -/
theorem FreesSlot.of_table {s : Nat} {F : Nat → Nat → Entry (Table ε) → Walk → Entry (Table ε) × Walk × Bool}
    (hnone : ∀ a n w, F a n .none w = (.none, w, false))
    (hbad : ∀ a n t w, F a n (.bad t) w = (.bad t, w, false))
    (hok : ∀ a n t w, (F a n (.table t) w).2.2 = false)
    (hs : 21 ≤ s) (haddr : 2 ^ 21 ∣ addr) (hend : 2 ^ 21 ∣ end_)
    (htable : ∀ a n t w, Piece (2 ^ s) addr end_ a n → (s ≤ 30 → FirstPud addr a) →
      Effect addr end_ (Entry.tableAt own idx look (.table t)) w a n (F a n (.table t) w).2.1 ∧
        ∀ level b, b / 2 ^ s = a / 2 ^ s → Entry.tableAt own idx look (F a n (.table t) w).1 level b =
          if Released addr end_ level b then none else Entry.tableAt own idx look (.table t) level b) :
    FreesSlot addr end_ s (Entry.tableAt own idx look) F where
  ok a n e w := by
    cases e with
    | none => rw [hnone]
    | bad t => rw [hbad]
    | table t => exact hok a n t w
  frees a n e w hp hfirst := by
    have hal := hp.dvd (pow_dvd_pow 2 hs) haddr hend
    cases e with
    | none =>
        rw [hnone]
        exact ⟨Effect.idle hal.1 hal.2 fun _ _ _ _ ↦ rfl, fun _ _ _ ↦ (ite_self _).symm⟩
    | bad t =>
        rw [hbad]
        exact ⟨Effect.idle hal.1 hal.2 fun _ _ _ _ ↦ rfl, fun _ _ _ ↦ (ite_self _).symm⟩
    | table t => exact htable a n t w hp hfirst

/-- What a level adds to the effect of its loop. -/
structure Dec (own : Level) (s : Nat) (dec : Walk → Walk) : Prop where
  releases : ∀ w, (dec w).releases = w.releases
  ptes : ∀ w, (dec w).nrPtes = w.nrPtes
  pmds : own = .pmd ∧ s = 30 ∨ ∀ w, (dec w).nrPmds = w.nrPmds
  puds : own = .pud ∧ s = 39 ∨ ∀ w, (dec w).nrPuds = w.nrPuds

/-- The entry of a linked table is cleared, and the count of its level goes down. -/
theorem Effect.clear {before : Level → Nat → Option PtPage} {s a n : Nat} {w₀ w w' : Walk} {dec : Walk → Walk}
    {page : PtPage} (h : Effect addr end_ before w₀ a n w) (hdec : Dec own s dec) (hlt : a < n)
    (hown : before own a = some page) (hwhole : Whole addr end_ s a) (hfirst : s ≤ 30 → FirstPud addr a)
    (hw : w'.releases = w.releases) (hptes : w'.nrPtes = w.nrPtes) (hpmds : w'.nrPmds = w.nrPmds)
    (hpuds : w'.nrPuds = w.nrPuds) : Effect addr end_ before w₀ a n (dec w') where
  releases := by rw [hdec.releases, hw, h.releases]
  ptes := by rw [hdec.ptes, hptes, h.ptes]
  pmds hnone := by
    rcases hdec.pmds with ⟨rfl, rfl⟩ | hkeep
    · rw [hnone a le_rfl hlt (hfirst le_rfl) hwhole] at hown
      cases hown
    · rw [hkeep, hpmds, h.pmds hnone]
  puds hnone := by
    rcases hdec.puds with ⟨rfl, rfl⟩ | hkeep
    · rw [hnone a le_rfl hlt hwhole] at hown
      cases hown
    · rw [hkeep, hpuds, h.puds hnone]

/-- **A level**: its loop does what it does, and the entry of the table goes if the range covers its region. -/
theorem freeLevel_frees {L : Level} {s s' M : Nat} {next : Nat → Nat → Nat} {again : Nat → Nat → Bool}
    {fuel : Nat → Nat → Nat} {fresh : ε} {dec : Walk → Walk} {body : Nat → Nat → ε → Walk → ε × Walk × Bool}
    {F : Nat → Nat → Entry (Table ε) → Walk → Entry (Table ε) × Walk × Bool}
    (hF : ∀ a n t w, F a n (.table t) w = freeLevel l5 L s' idx (next n) (again n) (fuel a n)
      fresh true dec body a n addr end_ (.table t) w)
    (hnone : ∀ a n w, F a n .none w = (.none, w, false))
    (hbad : ∀ a n t w, F a n (.bad t) w = (.bad t, w, false))
    (hs : 21 ≤ s') (haddr : 2 ^ 21 ∣ addr) (hend : 2 ^ 21 ∣ end_) (hend' : end_ < 2 ^ 64)
    (hidx : ∀ b, idx b = b / 2 ^ s % M) (hpte : own ≠ .pte) (hdec : Dec own s' dec)
    (hown : ∀ b, Released addr end_ own b → Whole addr end_ s' b)
    (hcover : ∀ lev b, Whole addr end_ s' b → (s' ≤ 30 → FirstPud addr b) → Released addr end_ lev b ∨
      ∀ e, Entry.tableAt own idx look e lev b = none)
    (hloop : ∀ a n t w, Piece (2 ^ s') addr end_ a n → (s' ≤ 30 → FirstPud addr a) →
      let r := eachSlot (next n) (again n) (fun _ ↦ body) (fuel a n) (a / 2 ^ s % M) a t w
      Effect addr end_ (fun lev b ↦ look (t (b / 2 ^ s % M)) lev b) w a n r.2.1 ∧
        (¬Whole addr end_ s' a → ∀ lev b, b / 2 ^ s' = a / 2 ^ s' → look (r.1 (b / 2 ^ s % M)) lev b =
          if Released addr end_ lev b then none else look (t (b / 2 ^ s % M)) lev b)) :
    FreesSlot addr end_ s' (Entry.tableAt own idx look) F := by
  refine FreesSlot.of_table hnone hbad (fun a n t w ↦ by rw [hF]; exact freeLevel_ok) hs haddr hend
    fun a n t w hp hfirst ↦ ?_
  obtain ⟨heff, htable⟩ := hloop a n t.slot w hp hfirst
  rw [← hidx] at heff htable
  have hal := hp.dvd (pow_dvd_pow 2 hs) haddr hend
  have heff' : Effect addr end_ (Entry.tableAt own idx look (.table t)) w a n
      (eachSlot (next n) (again n) (fun _ ↦ body) (fuel a n) (idx a) a t.slot w).2.1 := by
    refine heff.above hal.1 hal.2 (fun b _ _ ↦ ?_) fun lev b _ _ hnone ↦ ?_
    · rw [Entry.tableAt_below t hpte.symm, hidx]
    · rw [← hidx]
      exact Entry.tableAt_eq_none t hnone
  rw [hF]
  generalize hres : freeLevel l5 L s' idx _ _ _ _ _ _ _ a n _ end_ (.table t) w = res
  rcases freeLevel_cases hres with ⟨hrel, -, rfl⟩ | ⟨hnot, he, hw | ⟨hc, -⟩⟩
  · have hwhole : Whole addr end_ s' a := (releasesUpper_iff hend' hp).mp hrel
    refine ⟨heff'.clear hdec hp.lt (Entry.tableAt_own t a) hwhole hfirst rfl rfl rfl rfl, fun lev b hb ↦ ?_⟩
    have hfirst' : s' ≤ 30 → FirstPud addr b := fun hs30 ↦
      (FirstPud.congr (region_mono hs30 hb)).mpr (hfirst hs30)
    rcases hcover lev b ((Whole.congr hb).mpr hwhole) hfirst' with hr | hnone
    · rw [if_pos hr]
      rfl
    · rw [hnone (.table t), ite_self]
      rfl
  · have hwhole : ¬Whole addr end_ s' a := fun hc ↦ hnot ⟨(releasesUpper_iff hend' hp).mpr hc, rfl⟩
    rw [hw, he]
    refine ⟨heff', fun lev b hb ↦ ?_⟩
    by_cases hl : lev = own
    · -- the table itself stays
      subst hl
      have hstay : ¬Released addr end_ lev b := fun hr ↦ hwhole ((Whole.congr hb).mp (hown b hr))
      rw [if_neg hstay, Entry.tableAt_own]
      exact Entry.tableAt_own _ b
    · have hslot := htable hwhole lev b hb
      rw [← hidx] at hslot
      rw [Entry.tableAt_below t hl]
      exact (Entry.tableAt_below _ hl b).trans hslot
  · cases hc

/-- `sa_tlb_add` counts no tables. -/
theorem Walk.saTlbAdd_counts (w : Walk) (page : PtPage) : (w.saTlbAdd page).nrPtes = w.nrPtes ∧
    (w.saTlbAdd page).nrPmds = w.nrPmds ∧ (w.saTlbAdd page).nrPuds = w.nrPuds := by
  unfold saTlbAdd putTable
  split
  · exact ⟨rfl, rfl, rfl⟩
  · split <;> exact ⟨rfl, rfl, rfl⟩

/-- `free_pte_range`. -/
theorem freePteRange_frees (haddr : 2 ^ 21 ∣ addr) (hend : 2 ^ 21 ∣ end_) :
    FreesSlot addr end_ 21 pmdTableAt fun a _ pmd w ↦
      match pmd with
      | .table t => freePteRange l5 a t w
      | pmd => (pmd, w, false) := by
  refine FreesSlot.of_table (fun _ _ _ ↦ rfl) (fun _ _ _ _ ↦ rfl) (fun _ _ _ _ ↦ rfl) le_rfl haddr hend
    fun a n t w hp hfirst ↦ ?_
  have hal := hp.dvd dvd_rfl haddr hend
  have hn : n = a + 2 ^ 21 := by
    have hlt := hp.lt
    have hcut := hp.cut
    have hle := hp.le_end
    omega
  have hf : FirstPud addr a := hfirst (by decide)
  constructor
  · have hstarts : pmdStarts a n = [a] := by
      have hlen : (n - a) / 2 ^ 21 = 1 := by omega
      rw [pmdStarts, hlen]
      rfl
    have hhanded : handed addr (Entry.tableAt .pte pteIndex (fun _ _ _ ↦ none) (.table t)) a n = [t.page] := by
      rw [handed, hstarts, List.filterMap_cons, if_pos hf, Entry.tableAt_own]
      rfl
    let w₁ : Walk := { w.logClear l5 .pmd a with tlb := { w.tlb with
      start := min w.tlb.start a
      end_ := max w.tlb.end_ (wrapAdd a pageSize)
      clearPmds := true } }
    have hsame : w₁.releases = w.releases := rfl
    have hreleases := Walk.saTlbAdd_congr hsame t.page
    obtain ⟨hptes, hpmds, hpuds⟩ := w₁.saTlbAdd_counts t.page
    refine ⟨?_, ?_, fun _ ↦ hpmds, fun _ ↦ hpuds⟩
    · rw [hhanded]
      exact hreleases
    · rw [hhanded]
      exact congrArg (· - 1) hptes
  · intro level b hb
    by_cases hl : level = .pte
    · subst hl
      have hmem : addr ≤ b ∧ b < end_ := by
        have hlo := hp.le
        have hhi := hp.le_end
        omega
      rw [if_pos ⟨hmem, .inl ((FirstPud.congr (region_mono (by decide) hb)).mpr hf)⟩]
      rfl
    · have hnone : Entry.tableAt .pte pteIndex (fun _ _ _ ↦ none) (.table t) level b = none :=
        pmdTableAt_of_ne (.table t) hl b
      rw [hnone, ite_self]
      rfl

/-- `free_pmd_range`. -/
theorem freePmdRange_frees (haddr : 2 ^ 21 ∣ addr) (hend : 2 ^ 21 ∣ end_) (hend' : end_ < 2 ^ 64) :
    FreesSlot addr end_ 30 pudTableAt fun a n pud w ↦
      match pud with
      | .table t => freePmdRange l5 addr end_ a n (.table t) w
      | pud => (pud, w, false) := by
  have hidx : ∀ b, pmdIndex b = b / 2 ^ 21 % ptrs := fun _ ↦ rfl
  have hsize : ptrs * 2 ^ 21 = 2 ^ 30 := by decide
  have hdec : Dec .pmd 30 fun w ↦ { w with nrPmds := w.nrPmds - 1 } :=
    ⟨fun _ ↦ rfl, fun _ ↦ rfl, .inl ⟨rfl, rfl⟩, .inr fun _ ↦ rfl⟩
  refine freeLevel_frees (L := .pud) (fun _ _ _ _ ↦ rfl) (fun _ _ _ ↦ rfl) (fun _ _ _ _ ↦ rfl)
    (by decide) haddr hend hend' hidx (by decide) hdec ?_ ?_ ?_
  · rintro b (⟨-, h⟩ | h)
    · exact h
    · exact h.mono (by decide)
  · intro level b h hfirst
    cases level with
    | pte => exact .inl ⟨h.mem, .inl (hfirst le_rfl)⟩
    | pmd => exact .inl (.inl ⟨hfirst le_rfl, h⟩)
    | pud => exact .inr fun e ↦ pudTableAt_of_ne e (by decide) (by decide) b
    | p4d => exact .inr fun e ↦ pudTableAt_of_ne e (by decide) (by decide) b
    | pgd => exact .inr fun e ↦ pudTableAt_of_ne e (by decide) (by decide) b
  · intro a n t w hp hfirst
    obtain ⟨heff, htable⟩ := FreesSlot.loop (fun _ ↦ freePteRange_frees haddr hend) le_rfl (by decide)
      hsize haddr hend hend' hp (fun b hb _ ↦ (FirstPud.congr hb).mpr (hfirst le_rfl)) t w
    exact ⟨heff, fun _ ↦ htable⟩

/-- `free_pud_range`, which clears the p4d entry even though it has only seen its first pud entry. -/
theorem freePudRange_frees (l5 : Bool) (haddr : 2 ^ 21 ∣ addr) (hend : 2 ^ 21 ∣ end_) (hend' : end_ < 2 ^ 64) :
    FreesSlot addr end_ 39 p4dTableAt fun a n p4d w ↦
      match p4d with
      | .table t => freePudRange l5 addr end_ a n (.table t) w
      | p4d => (p4d, w, false) := by
  have hidx : ∀ b, pudIndex b = b / 2 ^ 30 % ptrs := fun _ ↦ rfl
  have hdec : Dec .pud 39 fun w ↦ { w with nrPuds := w.nrPuds - 1 } :=
    ⟨fun _ ↦ rfl, fun _ ↦ rfl, .inr fun _ ↦ rfl, .inl ⟨rfl, rfl⟩⟩
  refine freeLevel_frees (L := .p4d) (fun _ _ _ _ ↦ rfl) (fun _ _ _ ↦ rfl) (fun _ _ _ _ ↦ rfl)
    (by decide) haddr hend hend' hidx (by decide) hdec (fun _ h ↦ h) ?_ ?_
  · intro level b h _
    cases level with
    | pte => exact .inl ⟨h.mem, .inr h⟩
    | pmd => exact .inl (.inr h)
    | pud => exact .inl h
    | p4d => exact .inr fun e ↦ p4dTableAt_of_ne e (by decide) (by decide) (by decide) b
    | pgd => exact .inr fun e ↦ p4dTableAt_of_ne e (by decide) (by decide) (by decide) b
  · intro a n t w hp _
    obtain ⟨heff, htable⟩ := (freePmdRange_frees haddr hend hend').once haddr hend hend' hp t w
    refine ⟨heff, fun hwhole level b hb ↦ (htable level b hb).trans (if_congr ?_ rfl rfl)⟩
    have hwhole' : ¬Whole addr end_ 39 b := fun hc ↦ hwhole ((Whole.congr hb).mp hc)
    refine ⟨And.left, fun h ↦ ⟨h, ?_⟩⟩
    -- what the range does not cover whole is released in the first pud entry only
    cases level with
    | pte => exact h.2.resolve_right hwhole'
    | pmd => exact (h.resolve_right hwhole').1
    | pud => exact absurd h hwhole'
    | p4d => exact absurd (Whole.mono h (by decide)) hwhole'
    | pgd => exact h.elim

/-- `free_p4d_range` with five levels. -/
theorem freeP4dRange_frees_five (haddr : 2 ^ 21 ∣ addr) (hend : 2 ^ 21 ∣ end_) (hend' : end_ < 2 ^ 64) :
    FreesSlot addr end_ 48 (pgdTableAt true) fun a n pgd w ↦
      match pgd with
      | .table t => freeP4dRange true addr end_ a n (.table t) w
      | pgd => (pgd, w, false) := by
  have hidx : ∀ b, p4dIndex true b = b / 2 ^ 39 % ptrsPerP4d true := fun _ ↦ rfl
  have hsize : ptrsPerP4d true * 2 ^ 39 = 2 ^ 48 := by decide
  have hdec : Dec .p4d 48 id := ⟨fun _ ↦ rfl, fun _ ↦ rfl, .inr fun _ ↦ rfl, .inr fun _ ↦ rfl⟩
  have htable : pgdTableAt true = Entry.tableAt .p4d (p4dIndex true) p4dTableAt := rfl
  rw [htable]
  refine freeLevel_frees (L := .pgd) (fun _ _ _ _ ↦ rfl) (fun _ _ _ ↦ rfl) (fun _ _ _ _ ↦ rfl)
    (by decide) haddr hend hend' hidx (by decide) hdec (fun _ h ↦ h) ?_ ?_
  · intro level b h _
    have h39 : Whole addr end_ 39 b := h.mono (by decide)
    cases level with
    | pte => exact .inl ⟨h.mem, .inr h39⟩
    | pmd => exact .inl (.inr h39)
    | pud => exact .inl h39
    | p4d => exact .inl h
    | pgd =>
        refine .inr fun e ↦ ?_
        cases e with
        | none => rfl
        | bad t => rfl
        | table t =>
            rw [Entry.tableAt_below t (by decide)]
            exact p4dTableAt_of_ne _ (by decide) (by decide) (by decide) b
  · intro a n t w hp _
    obtain ⟨heff, htable⟩ := FreesSlot.loop (fun _ ↦ freePudRange_frees true haddr hend hend') (by decide)
      (by decide) hsize haddr hend hend' hp (fun b _ h ↦ absurd h (by decide)) t w
    exact ⟨heff, fun _ ↦ htable⟩

/-- With four levels it is the loop over the slot itself. -/
theorem freeP4dRange_frees (haddr : 2 ^ 21 ∣ addr) (hend : 2 ^ 21 ∣ end_) (hend' : end_ < 2 ^ 64) :
    FreesSlot addr end_ 39 (pgdTableAt false) (freeP4dRange false addr end_) where
  ok := freeP4dRange_ok
  frees a n e w hp _ := by
    have hidx : ∀ b, b / 2 ^ 39 % ptrsPerP4d false = p4dIndex false b := fun _ ↦ rfl
    have hsize : ptrsPerP4d false * 2 ^ 39 = 2 ^ 39 := by decide
    have hloop := FreesSlot.loop (fun _ ↦ freePudRange_frees false haddr hend hend') (by decide)
      (by decide) hsize haddr hend hend' hp (fun b _ h ↦ absurd h (by decide)) (p4dStart e).slot w
    simp only [hidx] at hloop
    obtain ⟨heff, htable⟩ := hloop
    rw [freeP4dRange]
    generalize hres : freeLevel false .pgd (pgdirShift false) (p4dIndex false) _ _ _ _ false id _ a n _ _
      e w = res
    have hcases := freeLevel_cases hres
    rw [← p4dStart] at hcases
    rcases hcases with ⟨-, hno, -⟩ | ⟨-, he, hw⟩
    · cases hno
    · rw [id_eq, or_iff_left_of_imp And.right] at hw
      rw [hw, he]
      refine ⟨heff, fun level b hb ↦ ?_⟩
      simp only [pgdTableAt, Bool.false_eq_true, if_false, p4dStart, Entry.child_setChild, Option.getD_some]
      exact htable level b hb

/-- Reading a pgd slot is no more than noted. -/
theorem Effect.visit {before : Level → Nat → Option PtPage} {lo n i : Nat} {w₀ w : Walk}
    (h : Effect addr end_ before { w₀ with log := w₀.log ++ [.visit i] } lo n w) :
    Effect addr end_ before w₀ lo n w where
  releases := by
    have hsame : ({ w₀ with log := w₀.log ++ [.visit i] } : Walk).releases = w₀.releases := rfl
    exact h.releases.trans (Walk.foldl_saTlbAdd_congr hsame _)
  ptes := h.ptes
  pmds := h.pmds
  puds := h.puds

/-- A slot of the pgd table. -/
theorem freePgdSlot_frees (haddr : 2 ^ 21 ∣ addr) (hend : 2 ^ 21 ∣ end_) (hend' : end_ < 2 ^ 64) (i : Nat) :
    FreesSlot addr end_ (pgdirShift l5) (pgdTableAt l5) (freePgdSlot l5 addr end_ i) where
  ok _ _ _ _ := freePgdSlot_ok
  frees a n e w hp hfirst := by
    cases l5 with
    | false =>
        rw [freePgdSlot_false]
        obtain ⟨heff, htable⟩ := (freeP4dRange_frees haddr hend hend').frees a n e _ hp hfirst
        exact ⟨heff.visit, htable⟩
    | true =>
        rw [freePgdSlot_true]
        obtain ⟨heff, htable⟩ := (freeP4dRange_frees_five haddr hend hend').frees a n e
          { w with log := w.log ++ [.visit i] } hp hfirst
        exact ⟨heff.visit, htable⟩

/-- With the ends of the range for bounds, none of the early returns is taken. -/
theorem freePgdRange_self (l5 : Bool) (haddr : 2 ^ 21 ∣ addr) (hend : 2 ^ 21 ∣ end_) (hlt : addr < end_)
    (hend' : end_ < 2 ^ 64) (pgd : Nat → Entry P4dTable) (w : Walk) :
    freePgdRange l5 addr end_ addr end_ pgd w =
      ((freePgdLoop l5 addr end_ addr end_ pgd w).1, (freePgdLoop l5 addr end_ addr end_ pgd w).2.1) := by
  have hdown : alignDown 21 addr = addr := Nat.div_mul_cancel haddr
  have hdown' : alignDown 21 end_ = end_ := Nat.div_mul_cancel hend
  have hpos : end_ ≠ 0 := by omega
  have hwrap : wrapSub end_ 1 = end_ - 1 := wrapSub_one (by omega) hend'
  have hle : ¬end_ - 1 < addr := by omega
  simp [freePgdRange, hdown, hdown', hpos, hwrap, hle]

/-- **The walk over a range**: what it did to its own state, and which tables are linked after it. -/
theorem freePgdRange_frees (haddr : 2 ^ 21 ∣ addr) (hend : 2 ^ 21 ∣ end_) (hlt : addr < end_)
    (hend' : end_ < 2 ^ 64) (hblock : addr / tableSpan l5 = (end_ - 1) / tableSpan l5)
    (pgd : Nat → Entry P4dTable) (w : Walk) :
    Effect addr end_ (tableAt l5 pgd) w addr end_ (freePgdRange l5 addr end_ addr end_ pgd w).2 ∧
      ∀ level b, b / tableSpan l5 = addr / tableSpan l5 →
        tableAt l5 (freePgdRange l5 addr end_ addr end_ pgd w).1 level b =
          if Released addr end_ level b then none else tableAt l5 pgd level b := by
  have hspan : tableSpan l5 = 2 ^ (pgdirShift l5 + 9) := by cases l5 <;> rfl
  have hsize : ptrs * 2 ^ pgdirShift l5 = 2 ^ (pgdirShift l5 + 9) := hspan
  have hs : 21 ≤ pgdirShift l5 := by cases l5 <;> decide
  have hs' : ¬pgdirShift l5 ≤ 30 := by cases l5 <;> decide
  rw [hspan] at hblock ⊢
  have hp : Piece (2 ^ (pgdirShift l5 + 9)) addr end_ addr end_ := by
    refine ⟨le_rfl, .inl rfl, hlt, le_rfl, (min_eq_right ?_).symm⟩
    rw [hblock]
    have hmul := Nat.lt_mul_div_succ (end_ - 1) (Nat.two_pow_pos (pgdirShift l5 + 9))
    rw [mul_comm]
    omega
  rw [freePgdRange_self l5 haddr hend hlt hend']
  exact FreesSlot.loop (fun i ↦ freePgdSlot_frees haddr hend hend' i) hs (pgdirShift_lt l5) hsize haddr hend
    hend' hp (fun b _ h ↦ absurd h hs') pgd w

end Levels

end ShadowStack.Lkm
