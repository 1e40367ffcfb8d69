import ShadowStack.Lib.Rounds
import ShadowStack.Lkm.FreeRange
import ShadowStack.Lkm.Mapped

/-!
# `floor` and `ceiling`

What keeps `__free_pgd_range` away from the neighbours of its range: at each level an entry is
cleared only if the addresses it translates lie between `floor` and `ceiling`, where a `ceiling` of
`0` is the end of the address space.  Every test compares predecessors for that reason.
-/

namespace ShadowStack.Lkm

open Lib

/-! ## The tests -/

/-- The end of the range a ceiling stands for. -/
def top (ceiling : Nat) : Nat := if ceiling = 0 then 2 ^ 64 else ceiling

theorem top_pos (c : Nat) : 0 < top c := by
  unfold top
  split <;> omega

theorem wrapSub_top {c : Nat} (hc : c < 2 ^ 64) : wrapSub c 1 = top c - 1 := by
  unfold wrapSub top
  split <;> omega

theorem top_alignDown_le {s c : Nat} (h : c ≠ 0 → alignDown s c ≠ 0) :
    top (if c = 0 then 0 else alignDown s c) ≤ top c := by
  by_cases hc : c = 0
  · rw [if_pos hc, hc]
  · rw [if_neg hc, top, top, if_neg (h hc), if_neg hc]
    exact Nat.div_mul_le_self c _

theorem dvd_top {s : Nat} (hs : s ≤ 64) {c : Nat} (hc : 2 ^ s ∣ c) : 2 ^ s ∣ top c := by
  unfold top
  split
  · exact pow_dvd_pow 2 hs
  · exact hc

/-- The region of `2 ^ s` bytes around an address ends at an aligned bound, at the latest. -/
theorem region_le {s a c : Nat} (hc : 2 ^ s ∣ c) (h : a < c) : (a / 2 ^ s + 1) * 2 ^ s ≤ c := by
  obtain ⟨q, rfl⟩ := hc
  rw [mul_comm]
  exact Nat.mul_le_mul_left _ (Nat.div_lt_of_lt_mul h)

/-- The entry above goes only if the whole region of the table lies between the bounds. -/
theorem releasesUpper_bounds {s a n floor c : Nat} (hs : s ≤ 64) (hlt : a < n) (hn : n < 2 ^ 64)
    (hc : c < 2 ^ 64) (h : releasesUpper s a n floor c = true) :
    floor ≤ a / 2 ^ s * 2 ^ s ∧ (a / 2 ^ s + 1) * 2 ^ s ≤ top c := by
  unfold releasesUpper at h
  by_cases hfloor : alignDown s a < floor
  · rw [if_pos hfloor] at h
    cases h
  · rw [if_neg hfloor] at h
    refine ⟨Nat.not_lt.mp hfloor, ?_⟩
    dsimp only at h
    by_cases hzero : c ≠ 0 ∧ (if c = 0 then 0 else alignDown s c) = 0
    · rw [if_pos hzero] at h
      cases h
    · rw [if_neg hzero, Bool.not_eq_true', decide_eq_false_iff_not, Nat.not_lt] at h
      have hnz : c ≠ 0 → alignDown s c ≠ 0 := fun hc0 hz ↦ hzero ⟨hc0, by rw [if_neg hc0, hz]⟩
      refine le_trans ?_ (top_alignDown_le hnz)
      have hdvd : 2 ^ s ∣ if c = 0 then 0 else alignDown s c := by
        split
        · exact dvd_zero _
        · exact dvd_mul_left _ _
      have hlt' : (if c = 0 then 0 else alignDown s c) < 2 ^ 64 := by
        split
        · decide
        · exact (Nat.div_mul_le_self c _).trans_lt hc
      refine region_le (dvd_top hs hdvd) ?_
      have hwrap : wrapSub n 1 = n - 1 := by
        have := wrapSub_wrap_one (by omega) hn.le
        rwa [wrap_of_lt hn] at this
      rw [hwrap, wrapSub_top hlt'] at h
      have := top_pos (if c = 0 then 0 else alignDown s c)
      omega

/-! ## What may change -/

/-- The tables an address is translated through below an entry, and the PTE behind them. -/
def Entry.trail {ε : Type} (idx : Nat → Nat) (trail : ε → Nat → List PtPage × Pte)
    (e : Entry (Table ε)) (a : Nat) : List PtPage × Pte :=
  match e.child with
  | Option.none => ([], .none)
  | some t => (t.page :: (trail (t.slot (idx a)) a).1, (trail (t.slot (idx a)) a).2)

def pmdTrail : Entry PteTable → Nat → List PtPage × Pte := Entry.trail pteIndex fun pte _ ↦ ([], pte)
def pudTrail : Entry PmdTable → Nat → List PtPage × Pte := Entry.trail pmdIndex pmdTrail
def p4dTrail : Entry PudTable → Nat → List PtPage × Pte := Entry.trail pudIndex pudTrail

/-- With four levels the pgd slot is the p4d entry. -/
def pgdTrail (l5 : Bool) (e : Entry P4dTable) (a : Nat) : List PtPage × Pte :=
  let r := p4dTrail ((p4dStart e).slot (p4dIndex l5 a)) a
  if l5 then (e.child.toList.map Table.page ++ r.1, r.2) else r

/-- The entry of the event translates no address outside `[floor, top)`. -/
def WalkEvent.Within (l5 : Bool) (floor top : Nat) : WalkEvent → Prop
  | .visit _ => True
  | .clear level base => floor ≤ base ∧ base + level.size l5 ≤ top

theorem canonical_eq {l5 : Bool} {a : Nat} (h : IsCanonical l5 a) : canonical l5 a = a := by
  have hspan : ptrs * 2 ^ pgdirShift l5 = tableSpan l5 := rfl
  unfold IsCanonical SameHalf at h
  unfold canonical
  dsimp only
  rw [hspan]
  rcases span_cases l5 with ⟨hs, hh⟩ | ⟨hs, hh⟩
  all_goals
    rw [hs]
    rw [hh] at h
    rcases h with ⟨h, -⟩ | ⟨h, -, h', -⟩
    · rw [if_pos (by omega)]
      omega
    · rw [if_neg (by omega)]
      omega

theorem lt_iff_of_region {a b c s : Nat} (hc : 2 ^ s ∣ c) (hb : b / 2 ^ s = a / 2 ^ s) :
    b < c ↔ a < c := by
  obtain ⟨q, rfl⟩ := hc
  have hpos := Nat.two_pow_pos s
  rw [mul_comm, ← Nat.div_lt_iff_lt_mul hpos, ← Nat.div_lt_iff_lt_mul hpos, hb]

/-- The halves consist of whole regions. -/
theorem isCanonical_of_region {l5 : Bool} {a b s : Nat} (hs : s ≤ pgdirShift l5 + 8)
    (h : IsCanonical l5 a) (hb : b / 2 ^ s = a / 2 ^ s) : IsCanonical l5 b := by
  have hs64 : s ≤ 64 := hs.trans (by cases l5 <;> decide)
  have hlow : b < halfSize l5 ↔ a < halfSize l5 := lt_iff_of_region (pow_dvd_pow 2 hs) hb
  have hsize : b < 2 ^ 64 ↔ a < 2 ^ 64 := lt_iff_of_region (pow_dvd_pow 2 hs64) hb
  have hup : b < 2 ^ 64 - halfSize l5 ↔ a < 2 ^ 64 - halfSize l5 :=
    lt_iff_of_region (Nat.dvd_sub (pow_dvd_pow 2 hs64) (pow_dvd_pow 2 hs)) hb
  unfold IsCanonical SameHalf at *
  omega

theorem isCanonical_region {l5 : Bool} {a s : Nat} (hs : s ≤ pgdirShift l5 + 8)
    (h : IsCanonical l5 a) : IsCanonical l5 (a / 2 ^ s * 2 ^ s) :=
  isCanonical_of_region hs h (Nat.mul_div_cancel _ (Nat.two_pow_pos s))

/-- An entry of the canonical addresses translates what its number says. -/
theorem canonical_region {l5 : Bool} {a s : Nat} (hs : s ≤ pgdirShift l5 + 8)
    (h : IsCanonical l5 a) : canonical l5 (a / 2 ^ s * 2 ^ s) = a / 2 ^ s * 2 ^ s :=
  canonical_eq (isCanonical_region hs h)

section Bounds

variable (l5 : Bool) (floor c : Nat) (log₀ : List WalkEvent)

/-- A canonical address of `[floor, ceiling)`. -/
def Between (b : Nat) : Prop := floor ≤ b ∧ b < top c ∧ IsCanonical l5 b

/-- What was cleared since `log₀` lies between the bounds. -/
def LogWithin (w : Walk) : Prop := ∀ ev ∈ w.log, ev ∈ log₀ ∨ ev.Within l5 floor (top c)

/-- A piece of the range, inside one region of `2 ^ s` bytes. -/
structure Bounded (s a n : Nat) : Prop where
  floor_le : floor ≤ a
  dvd : 2 ^ 21 ∣ a
  lt : a < n
  le_top : n ≤ top c
  lt_size : n < 2 ^ 64
  half : SameHalf l5 a (n - 1)
  same : a / 2 ^ s = (n - 1) / 2 ^ s

/-- A body leaves alone what is not between the bounds. -/
structure KeepsOutside {ε : Type} (s : Nat) (trail : ε → Nat → List PtPage × Pte)
    (body : Nat → Nat → ε → Walk → ε × Walk × Bool) : Prop where
  ok : ∀ a n e w, (body a n e w).2.2 = false
  confined : ∀ a n e w, Bounded l5 floor c s a n → LogWithin l5 floor c log₀ w →
    LogWithin l5 floor c log₀ (body a n e w).2.1 ∧ ∀ b, b / 2 ^ s = a / 2 ^ s →
      ¬Between l5 floor c b → trail (body a n e w).1 b = trail e b

end Bounds

section Levels

variable {l5 : Bool} {floor c : Nat} {log₀ : List WalkEvent}

theorem Bounded.sub {s s' a n b m : Nat} (h : Bounded l5 floor c s' a n) (hs : 21 ≤ s)
    (hp : Piece (2 ^ s) a n b m) : Bounded l5 floor c s b m where
  floor_le := h.floor_le.trans hp.le
  dvd := by
    rcases hp.start with rfl | hdvd
    · exact h.dvd
    · exact (pow_dvd_pow 2 hs).trans hdvd
  lt := hp.lt
  le_top := hp.le_end.trans h.le_top
  lt_size := hp.le_end.trans_lt h.lt_size
  half := by
    have hhalf := h.half
    have h₁ := hp.le
    have h₂ := hp.lt
    have h₃ := hp.le_end
    unfold SameHalf at hhalf ⊢
    omega
  same := hp.same (Nat.two_pow_pos s)

theorem Bounded.canonical {s a n : Nat} (h : Bounded l5 floor c s a n) : IsCanonical l5 a := by
  have hhalf := h.half
  unfold IsCanonical SameHalf at *
  omega

/-- Clearing an entry whose region lies between the bounds. -/
theorem LogWithin.logClear {w : Walk} (h : LogWithin l5 floor c log₀ w) {level : Level} {a s : Nat}
    (hs : s ≤ pgdirShift l5 + 8) (hlevel : level.size l5 = 2 ^ s) (ha : IsCanonical l5 a) (hlo : floor ≤ a / 2 ^ s * 2 ^ s)
    (hhi : (a / 2 ^ s + 1) * 2 ^ s ≤ top c) : LogWithin l5 floor c log₀ (w.logClear l5 level a) := by
  intro ev hev
  rcases List.mem_append.mp hev with hev | hev
  · exact h ev hev
  · obtain rfl := List.mem_singleton.mp hev
    rw [hlevel, canonical_region hs ha]
    refine .inr ⟨hlo, ?_⟩
    rw [hlevel, ← Nat.succ_mul]
    exact hhi

variable {ε : Type} {trail : ε → Nat → List PtPage × Pte}
  {body : Nat → Nat → ε → Walk → ε × Walk × Bool}

/-- The loop of a level, round by round. -/
theorem KeepsOutside.loop {f : Nat → Nat → Nat → ε → Walk → ε × Walk × Bool} {s s' M a n : Nat}
    (h : ∀ i, KeepsOutside l5 floor c log₀ s trail (f i)) (hs : 21 ≤ s)
    (hs' : s < 64) (hsize : M * 2 ^ s = 2 ^ s') (hb : Bounded l5 floor c s' a n) (t : Nat → ε)
    {w : Walk} (hw : LogWithin l5 floor c log₀ w) :
    let r := eachSlot (fun b ↦ addrEnd s b n) (fun b ↦ b != n) f (rounds s a n)
      (a / 2 ^ s % M) a t w
    LogWithin l5 floor c log₀ r.2.1 ∧ ∀ b, b / 2 ^ s' = a / 2 ^ s' → ¬Between l5 floor c b →
      trail (r.1 (b / 2 ^ s % M)) b = trail (t (b / 2 ^ s % M)) b := by
  have hsame := hb.same
  rw [← hsize] at hsame ⊢
  have hlt := hb.lt
  refine eachSlot_rule (I := fun _ u w ↦ LogWithin l5 floor c log₀ w ∧
      ∀ b, b / (M * 2 ^ s) = a / (M * 2 ^ s) → ¬Between l5 floor c b →
        trail (u (b / 2 ^ s % M)) b = trail (t (b / 2 ^ s % M)) b)
    (Nat.two_pow_pos s) (fun b hbn ↦ addrEnd_eq_min hs' hbn hb.lt_size) (fun b ↦ by simp)
    (fun i ↦ (h i).ok) hlt hsame (lt_rounds s (by omega) hb.lt_size) ?_ ⟨hw, fun _ _ _ ↦ rfl⟩
  rintro d m u w hp hu ⟨hw, htrail⟩
  have hsub := hb.sub hs hp
  obtain ⟨hw', hround⟩ := (h (d / 2 ^ s % M)).confined _ _ (t (d / 2 ^ s % M)) _ hsub hw
  refine ⟨hw', fun b hblock hout ↦ ?_⟩
  have hd : d / (M * 2 ^ s) = a / (M * 2 ^ s) :=
    le_antisymm (by
      rw [hsame]
      exact Nat.div_le_div_right (by have := hp.lt; have := hp.le_end; omega))
      (Nat.div_le_div_right hp.le)
  by_cases hslot : b / 2 ^ s = d / 2 ^ s
  · rw [hslot, Function.update_self]
    exact hround b hslot hout
  · rw [Function.update_of_ne fun hi ↦ hslot ((slot_eq_iff (hblock.trans hd.symm)).mp hi)]
    exact htrail b hblock hout

/-- The loop of `free_pud_range`, which makes one round. -/
theorem KeepsOutside.once {s s' M a n : Nat} (h : KeepsOutside l5 floor c log₀ s trail body) (hs : 21 ≤ s)
    (hs' : s < 64) (hsize : M * 2 ^ s = 2 ^ s') (hb : Bounded l5 floor c s' a n) (t : Nat → ε)
    {w : Walk} (hw : LogWithin l5 floor c log₀ w) :
    let r := eachSlot (fun b ↦ addrEnd s b n) (fun _ ↦ false) (fun _ ↦ body) (rounds s a n)
      (a / 2 ^ s % M) a t w
    LogWithin l5 floor c log₀ r.2.1 ∧ ∀ b, b / 2 ^ s' = a / 2 ^ s' → ¬Between l5 floor c b →
      trail (r.1 (b / 2 ^ s % M)) b = trail (t (b / 2 ^ s % M)) b := by
  have hsub : Bounded l5 floor c s a (addrEnd s a n) := by
    rw [addrEnd_eq_min hs' hb.lt hb.lt_size]
    exact hb.sub hs (.first (Nat.two_pow_pos s) hb.lt)
  rw [eachSlot_one (rounds_pos s a n) fun _ ↦ h.ok]
  obtain ⟨hw', hround⟩ := h.confined _ _ (t (a / 2 ^ s % M)) _ hsub hw
  refine ⟨hw', fun b hblock hout ↦ ?_⟩
  rw [← hsize] at hblock
  dsimp only
  by_cases hslot : b / 2 ^ s = a / 2 ^ s
  · rw [hslot, Function.update_self]
    exact hround b hslot hout
  · rw [Function.update_of_ne fun hi ↦ hslot ((slot_eq_iff hblock).mp hi)]

/-- What a level of the walk does, given what its loop did. -/
theorem freeLevel_cases {level : Level} {shift : Nat} {idx next : Nat → Nat} {again : Nat → Bool}
    {fuel : Nat} {fresh : ε} {clears : Bool} {dec : Walk → Walk} {a n floor c : Nat}
    {e : Entry (Table ε)} {w : Walk} {res : Entry (Table ε) × Walk × Bool}
    (hres : freeLevel l5 level shift idx next again fuel fresh clears dec body a n floor c e w = res) :
    let t := e.child.getD ⟨0, fun _ ↦ fresh⟩
    let r := eachSlot next again (fun _ ↦ body) fuel (idx a) a t.slot w
    (releasesUpper shift a n floor c = true ∧ clears = true ∧
        res = (.none, dec (r.2.1.logClear l5 level a), false)) ∨
      (¬ (releasesUpper shift a n floor c = true ∧ clears = true) ∧
        res.1 = e.setChild { t with slot := r.1 } ∧
        (res.2.1 = r.2.1 ∨ clears = false ∧ res.2.1 = dec r.2.1)) := by
  subst hres
  unfold freeLevel
  dsimp only
  by_cases hrel : releasesUpper shift a n floor c = true
  · rw [if_pos hrel]
    cases clears with
    | true => exact .inl ⟨hrel, rfl, rfl⟩
    | false => exact .inr ⟨fun h ↦ Bool.noConfusion h.2, rfl, .inr ⟨rfl, rfl⟩⟩
  · rw [if_neg hrel]
    exact .inr ⟨fun h ↦ hrel h.1, rfl, .inl rfl⟩

/-- A linked table: its level leaves alone what is not between the bounds, if its loop does. -/
theorem freeLevel_confined {level : Level} {s s' M : Nat} {idx : Nat → Nat}
    {next : Nat → Nat → Nat} {again : Nat → Nat → Bool} {fuel : Nat → Nat → Nat} {fresh : ε}
    {dec : Walk → Walk} {F : Nat → Nat → Entry (Table ε) → Walk → Entry (Table ε) × Walk × Bool}
    (hF : ∀ a n t w, F a n (.table t) w = freeLevel l5 level s' idx (next n) (again n) (fuel a n)
      fresh true dec body a n floor c (.table t) w)
    (hnone : ∀ a n w, F a n .none w = (.none, w, false))
    (hbad : ∀ a n t w, F a n (.bad t) w = (.bad t, w, false))
    (hs : s' ≤ pgdirShift l5 + 8) (hlevel : level.size l5 = 2 ^ s')
    (hidx : ∀ b, idx b = b / 2 ^ s % M) (hc : c < 2 ^ 64) (hdec : ∀ w, (dec w).log = w.log)
    (hloop : ∀ a n t w, Bounded l5 floor c s' a n → LogWithin l5 floor c log₀ w →
      let r := eachSlot (next n) (again n) (fun _ ↦ body) (fuel a n) (a / 2 ^ s % M) a t w
      LogWithin l5 floor c log₀ r.2.1 ∧ ∀ b, b / 2 ^ s' = a / 2 ^ s' → ¬Between l5 floor c b →
        trail (r.1 (b / 2 ^ s % M)) b = trail (t (b / 2 ^ s % M)) b) :
    KeepsOutside l5 floor c log₀ s' (Entry.trail idx trail) F where
  ok a n e w := by
    cases e with
    | none => rw [hnone]
    | bad t => rw [hbad]
    | table t =>
        rw [hF]
        exact freeLevel_ok
  confined a n e w hb hw := by
    cases e with
    | none =>
        rw [hnone]
        exact ⟨hw, fun _ _ _ ↦ rfl⟩
    | bad t =>
        rw [hbad]
        exact ⟨hw, fun _ _ _ ↦ rfl⟩
    | table t =>
        obtain ⟨hr, htrail⟩ := hloop a n t.slot w hb hw
        rw [← hidx] at hr htrail
        rw [hF]
        generalize hres : freeLevel l5 level s' idx _ _ _ _ _ _ _ a n _ c (.table t) w = res
        rcases freeLevel_cases hres with ⟨hrel, -, rfl⟩ | ⟨-, he, hw' | ⟨hno, -⟩⟩
        · -- the entry goes, and its whole region lies between the bounds
          obtain ⟨hlo, hhi⟩ := releasesUpper_bounds (hs.trans (by cases l5 <;> decide)) hb.lt hb.lt_size
            hc hrel
          refine ⟨fun ev hev ↦ ?_, fun b hblock hout ↦
            absurd ⟨?_, ?_, isCanonical_of_region hs hb.canonical hblock⟩ hout⟩
          · rw [hdec] at hev
            exact hr.logClear hs hlevel hb.canonical hlo hhi ev hev
          · rw [← hblock] at hlo
            exact hlo.trans (Nat.div_mul_le_self b _)
          · rw [← hblock, mul_comm] at hhi
            exact (Nat.lt_mul_div_succ b (Nat.two_pow_pos s')).trans_le hhi
        · rw [hw', he]
          refine ⟨hr, fun b hblock hout ↦ ?_⟩
          simp only [Entry.trail, Entry.child, hidx]
          rw [← hidx a]
          exact congrArg₂ _ (congrArg _ (congrArg _ (htrail b hblock hout)))
            (congrArg _ (htrail b hblock hout))
        · cases hno

/-! ## The levels -/

@[simp] theorem Walk.tlbFreePte_log (w : Walk) (pte : PtPage) (addr : Nat) :
    (w.tlbFreePte pte addr).log = w.log := by
  unfold Walk.tlbFreePte Walk.saTlbAdd Walk.putTable
  split
  · rfl
  · split <;> rfl

/-- PMD entries go without a test: their regions lie between the bounds because both are aligned. -/
theorem freePteRange_keepsOutside (hdvd : 2 ^ 21 ∣ c) :
    KeepsOutside l5 floor c log₀ 21 pmdTrail fun a _ pmd w ↦
      match pmd with
      | .table t => freePteRange l5 a t w
      | pmd => (pmd, w, false) where
  ok a n e w := by cases e <;> rfl
  confined a n e w hb hw := by
    cases e with
    | none => exact ⟨hw, fun _ _ _ ↦ rfl⟩
    | bad t => exact ⟨hw, fun _ _ _ ↦ rfl⟩
    | table t =>
        have hs : 21 ≤ pgdirShift l5 + 8 := by cases l5 <;> decide
        have hlo : floor ≤ a / 2 ^ 21 * 2 ^ 21 := by
          rw [Nat.div_mul_cancel hb.dvd]
          exact hb.floor_le
        have hhi : (a / 2 ^ 21 + 1) * 2 ^ 21 ≤ top c :=
          region_le (dvd_top (by decide) hdvd) (hb.lt.trans_le hb.le_top)
        refine ⟨fun ev hev ↦ ?_, fun b hblock hout ↦
          absurd ⟨?_, ?_, isCanonical_of_region hs hb.canonical hblock⟩ hout⟩
        · have hev' : ev ∈ ((w.logClear l5 .pmd a).tlbFreePte t.page a).log := hev
          rw [Walk.tlbFreePte_log] at hev'
          exact hw.logClear hs rfl hb.canonical hlo hhi ev hev'
        · rw [← hblock] at hlo
          exact hlo.trans (Nat.div_mul_le_self b _)
        · rw [← hblock, mul_comm] at hhi
          exact (Nat.lt_mul_div_succ b (Nat.two_pow_pos 21)).trans_le hhi

theorem freePmdRange_keepsOutside (hc : c < 2 ^ 64) (hdvd : 2 ^ 21 ∣ c) :
    KeepsOutside l5 floor c log₀ 30 pudTrail fun a n pud w ↦
      match pud with
      | .table t => freePmdRange l5 floor c a n (.table t) w
      | pud => (pud, w, false) := by
  have hs : 30 ≤ pgdirShift l5 + 8 := by cases l5 <;> decide
  have hsize : ptrs * 2 ^ 21 = 2 ^ 30 := by decide
  have hidx : ∀ b, pmdIndex b = b / 2 ^ 21 % ptrs := fun _ ↦ rfl
  have hlevel : Level.pud.size l5 = 2 ^ 30 := rfl
  have hdec : ∀ w : Walk, ({ w with nrPmds := w.nrPmds - 1 } : Walk).log = w.log := fun _ ↦ rfl
  exact freeLevel_confined (fun _ _ _ _ ↦ rfl) (fun _ _ _ ↦ rfl) (fun _ _ _ _ ↦ rfl) hs hlevel hidx hc hdec fun _ _ t _ hb hw ↦
    KeepsOutside.loop (fun _ ↦ freePteRange_keepsOutside hdvd) (by decide) (by decide) hsize hb t hw

theorem freePudRange_keepsOutside (hc : c < 2 ^ 64) (hdvd : 2 ^ 21 ∣ c) :
    KeepsOutside l5 floor c log₀ 39 p4dTrail fun a n p4d w ↦
      match p4d with
      | .table t => freePudRange l5 floor c a n (.table t) w
      | p4d => (p4d, w, false) := by
  have hs : 39 ≤ pgdirShift l5 + 8 := by cases l5 <;> decide
  have hsize : ptrs * 2 ^ 30 = 2 ^ 39 := by decide
  have hidx : ∀ b, pudIndex b = b / 2 ^ 30 % ptrs := fun _ ↦ rfl
  have hlevel : Level.p4d.size l5 = 2 ^ 39 := rfl
  have hdec : ∀ w : Walk, ({ w with nrPuds := w.nrPuds - 1 } : Walk).log = w.log := fun _ ↦ rfl
  exact freeLevel_confined (fun _ _ _ _ ↦ rfl) (fun _ _ _ ↦ rfl) (fun _ _ _ _ ↦ rfl) hs hlevel hidx hc hdec fun _ _ t _ hb hw ↦
    (freePmdRange_keepsOutside hc hdvd).once (by decide) (by decide) hsize hb t hw

/-- With five levels a pgd slot is an entry as those below. -/
theorem pgdTrail_true : pgdTrail true = Entry.trail (p4dIndex true) p4dTrail := by
  funext e a
  cases e <;> rfl

theorem freeP4dRange_keepsOutside_five (hc : c < 2 ^ 64) (hdvd : 2 ^ 21 ∣ c) :
    KeepsOutside true floor c log₀ (pgdirShift true) (Entry.trail (p4dIndex true) p4dTrail)
      fun a n pgd w ↦
        match pgd with
        | .table t => freeP4dRange true floor c a n (.table t) w
        | pgd => (pgd, w, false) := by
  have hs : pgdirShift true ≤ pgdirShift true + 8 := Nat.le_add_right _ _
  have hsize : ptrsPerP4d true * 2 ^ 39 = 2 ^ pgdirShift true := (two_pow_pgdirShift true).symm
  have hidx : ∀ b, p4dIndex true b = b / 2 ^ 39 % ptrsPerP4d true := fun _ ↦ rfl
  have hlevel : Level.pgd.size true = 2 ^ pgdirShift true := rfl
  have hdec : ∀ w : Walk, (id w).log = w.log := fun _ ↦ rfl
  exact freeLevel_confined (fun _ _ _ _ ↦ rfl) (fun _ _ _ ↦ rfl) (fun _ _ _ _ ↦ rfl) hs hlevel hidx hc hdec fun _ _ t _ hb hw ↦
    KeepsOutside.loop (fun _ ↦ freePudRange_keepsOutside hc hdvd) (by decide) (by decide) hsize hb t hw

theorem freeP4dRange_ok (a n : Nat) (e : Entry P4dTable) (w : Walk) :
    (freeP4dRange l5 floor c a n e w).2.2 = false := freeLevel_ok

/-- With four levels the p4d loop works on the slot itself, and nothing above it is cleared. -/
theorem freeP4dRange_keepsOutside (hc : c < 2 ^ 64) (hdvd : 2 ^ 21 ∣ c) :
    KeepsOutside false floor c log₀ (pgdirShift false) (pgdTrail false)
      (freeP4dRange false floor c) where
  ok := freeP4dRange_ok
  confined a n e w hb hw := by
    have hsize : ptrsPerP4d false * 2 ^ 39 = 2 ^ pgdirShift false := (two_pow_pgdirShift false).symm
    have hidx : ∀ b, b / 2 ^ 39 % ptrsPerP4d false = p4dIndex false b := fun _ ↦ rfl
    have hloop := KeepsOutside.loop (fun _ ↦ freePudRange_keepsOutside hc hdvd) (by decide)
      (by decide) hsize hb (p4dStart e).slot hw
    simp only [hidx] at hloop
    obtain ⟨hr, htrail⟩ := hloop
    rw [freeP4dRange]
    generalize hres : freeLevel false .pgd (pgdirShift false) (p4dIndex false) _ _ _ _ false id _ a n _ _
      e w = res
    have hcases := freeLevel_cases hres
    rw [← p4dStart] at hcases
    rcases hcases with ⟨-, hno, -⟩ | ⟨-, he, hw'⟩
    · cases hno
    · refine ⟨?_, fun b hblock hout ↦ ?_⟩
      · rw [id_eq, or_iff_left_of_imp And.right] at hw'
        rw [hw']
        exact hr
      · rw [he]
        simp only [pgdTrail, p4dStart, Entry.child_setChild, Option.getD_some]
        exact htrail b hblock hout

theorem freePgdSlot_false (i a n : Nat) (e : Entry P4dTable) (w : Walk) :
    freePgdSlot false floor c i a n e w =
      freeP4dRange false floor c a n e { w with log := w.log ++ [.visit i] } := by
  simp [freePgdSlot]

theorem freePgdSlot_true (i a n : Nat) (e : Entry P4dTable) (w : Walk) :
    freePgdSlot true floor c i a n e w =
      match e with
      | .table t => freeP4dRange true floor c a n (.table t) { w with log := w.log ++ [.visit i] }
      | e => (e, { w with log := w.log ++ [.visit i] }, false) := by
  cases e <;> simp [freePgdSlot, Entry.isTable]

/-- A slot of the pgd table. -/
theorem freePgdSlot_keepsOutside (hc : c < 2 ^ 64) (hdvd : 2 ^ 21 ∣ c) (i : Nat) :
    KeepsOutside l5 floor c log₀ (pgdirShift l5) (pgdTrail l5) (freePgdSlot l5 floor c i) where
  ok _ _ _ _ := freePgdSlot_ok
  confined a n e w hb hw := by
    have hv : LogWithin l5 floor c log₀ { w with log := w.log ++ [.visit i] } := by
      intro ev hev
      rcases List.mem_append.mp hev with hev | hev
      · exact hw ev hev
      · obtain rfl := List.mem_singleton.mp hev
        exact .inr trivial
    cases l5 with
    | false =>
        rw [freePgdSlot_false]
        exact (freeP4dRange_keepsOutside hc hdvd).confined a n e _ hb hv
    | true =>
        rw [freePgdSlot_true, pgdTrail_true]
        exact (freeP4dRange_keepsOutside_five hc hdvd).confined a n e _ hb hv

end Levels

/-! ## The whole walk -/

section Range

variable {l5 : Bool} {addr end_ floor ceiling : Nat}

theorem wrapSub_one {n : Nat} (h₀ : 0 < n) (h : n < 2 ^ 64) : wrapSub n 1 = n - 1 := by
  have := wrapSub_wrap_one h₀ h.le
  rwa [wrap_of_lt h] at this

/-- `ceiling &= PMD_MASK`, unless it is `0`. -/
theorem ceiling_spec {c : Nat} (hc : ceiling < 2 ^ 64)
    (h : (if ceiling = 0 then 0 else alignDown 21 ceiling) = c) (hzero : ¬ (ceiling ≠ 0 ∧ c = 0)) :
    2 ^ 21 ∣ c ∧ c < 2 ^ 64 ∧ top c ≤ top ceiling ∧ top ceiling < top c + 2 ^ 21 := by
  unfold alignDown at h
  unfold top
  by_cases h0 : ceiling = 0
  · rw [if_pos h0] at h
    subst h
    rw [h0]
    decide
  · rw [if_neg h0] at h
    have hne : c ≠ 0 := fun hc0 ↦ hzero ⟨h0, hc0⟩
    rw [if_neg hne, if_neg h0]
    omega

/-- `addr &= PMD_MASK`, and one PMD further if that is below `floor`. -/
theorem addr_spec {a : Nat} (hfl : floor ≤ addr) (haddr : addr < 2 ^ 64)
    (h : (if alignDown 21 addr < floor then wrapAdd (alignDown 21 addr) (2 ^ 21)
      else alignDown 21 addr) = a) (hzero : ¬ (alignDown 21 addr < floor ∧ a = 0)) :
    2 ^ 21 ∣ a ∧ floor ≤ a ∧ alignDown 21 addr ≤ a := by
  unfold alignDown wrapAdd at *
  by_cases hlt : addr / 2 ^ 21 * 2 ^ 21 < floor
  · rw [if_pos hlt] at h
    have hne : a ≠ 0 := fun ha0 ↦ hzero ⟨hlt, ha0⟩
    omega
  · rw [if_neg hlt] at h
    omega

/-- `end -= PMD_SIZE` if the range reaches beyond the aligned ceiling. -/
theorem end_spec {c e : Nat} (hcdvd : 2 ^ 21 ∣ c) (hc : c < 2 ^ 64) (hpos : 0 < end_)
    (hend : end_ < 2 ^ 64) (hle : end_ < top c + 2 ^ 21)
    (h : (if wrapSub c 1 < wrapSub end_ 1 then wrapSub end_ (2 ^ 21) else end_) = e) :
    0 < e ∧ e ≤ top c ∧ e ≤ end_ := by
  rw [wrapSub_top hc, wrapSub_one hpos hend] at h
  have htop : 2 ^ 21 ≤ top c := Nat.le_of_dvd (top_pos c) (dvd_top (by decide) hcdvd)
  by_cases hlt : top c - 1 < end_ - 1
  · rw [if_pos hlt] at h
    unfold wrapSub at h
    omega
  · rw [if_neg hlt] at h
    omega

/-- The first lines of `__free_pgd_range`: nothing is left to do, or the walk runs over a range that
is aligned at its start and ends below an aligned ceiling. -/
theorem freePgdRange_cases (pgd : Nat → Entry P4dTable) (w : Walk) (hfl : floor ≤ addr)
    (hlt : addr < end_) (hend : end_ < 2 ^ 64) (htop : end_ ≤ top ceiling) (hc : ceiling < 2 ^ 64)
    (hhalf : SameHalf l5 addr (end_ - 1)) :
    freePgdRange l5 addr end_ floor ceiling pgd w = (pgd, w) ∨
      ∃ a e c, Bounded l5 floor c (pgdirShift l5 + 9) a e ∧ 2 ^ 21 ∣ c ∧ c < 2 ^ 64 ∧
        top c ≤ top ceiling ∧ freePgdRange l5 addr end_ floor ceiling pgd w =
          ((freePgdLoop l5 floor c a e pgd w).1, (freePgdLoop l5 floor c a e pgd w).2.1) := by
  unfold freePgdRange
  dsimp only
  generalize hc' : (if ceiling = 0 then 0 else alignDown 21 ceiling) = c
  generalize ha : (if alignDown 21 addr < floor then wrapAdd (alignDown 21 addr) (2 ^ 21)
    else alignDown 21 addr) = a
  generalize he : (if wrapSub c 1 < wrapSub end_ 1 then wrapSub end_ (2 ^ 21) else end_) = e
  by_cases hzero : alignDown 21 addr < floor ∧ a = 0
  · exact .inl (by rw [if_pos hzero])
  rw [if_neg hzero]
  by_cases hczero : ceiling ≠ 0 ∧ c = 0
  · exact .inl (by rw [if_pos hczero])
  rw [if_neg hczero]
  by_cases hempty : wrapSub e 1 < a
  · exact .inl (by rw [if_pos hempty])
  rw [if_neg hempty]
  obtain ⟨hcdvd, hclt, htopc, htopc'⟩ := ceiling_spec hc hc' hczero
  obtain ⟨hadvd, hfloor, hle₀⟩ := addr_spec hfl (hlt.trans hend) ha hzero
  obtain ⟨hepos, hetop, hele⟩ := end_spec hcdvd hclt (by omega) hend (by omega) he
  rw [wrapSub_one hepos (by omega)] at hempty
  have hcan : IsCanonical l5 addr := by
    unfold IsCanonical SameHalf at *
    omega
  have hsame : SameHalf l5 a (e - 1) := by
    have hs : 21 ≤ pgdirShift l5 + 8 := by cases l5 <;> decide
    have hdvd : 2 ^ 21 ∣ 2 ^ 64 - halfSize l5 :=
      Nat.dvd_sub (pow_dvd_pow 2 (by decide)) (pow_dvd_pow 2 hs)
    have hup : alignDown 21 addr < 2 ^ 64 - halfSize l5 ↔ addr < 2 ^ 64 - halfSize l5 :=
      lt_iff_of_region hdvd (Nat.mul_div_cancel _ (by decide))
    unfold SameHalf at *
    omega
  have hspan : tableSpan l5 = 2 ^ (pgdirShift l5 + 9) := by cases l5 <;> rfl
  exact .inr ⟨a, e, c, ⟨hfloor, hadvd, by omega, hetop, by omega, hsame, hspan ▸ hsame.block_eq⟩,
    hcdvd, hclt, htopc, rfl⟩

/-- Two canonical addresses that agree below the span of the top-level table are equal. -/
theorem mirror_between {c a b : Nat} (ha : IsCanonical l5 a) (hout : ¬ (floor ≤ a ∧ a < top c)) :
    ¬Between l5 floor c (mirror l5 b a) := by
  rintro ⟨hlo, hhi, hcan⟩
  have heq : mirror l5 b a = a := by
    have hmod := mirror_mod l5 b a
    unfold IsCanonical SameHalf at *
    rcases span_cases l5 with ⟨hs, hh⟩ | ⟨hs, hh⟩
    all_goals
      rw [hs] at hmod
      rw [hh] at ha hcan
      omega
  exact hout (heq ▸ ⟨hlo, hhi⟩)

theorem Entry.trail_congr {ε : Type} {idx : Nat → Nat} {trail : ε → Nat → List PtPage × Pte}
    {a b : Nat} (hidx : idx a = idx b) (htrail : ∀ s, trail s a = trail s b) (e : Entry (Table ε)) :
    e.trail idx trail a = e.trail idx trail b := by
  cases e with
  | none => rfl
  | bad t => simp only [Entry.trail, Entry.child, hidx, htrail]
  | table t => simp only [Entry.trail, Entry.child, hidx, htrail]

/-- Addresses that agree below the span of the top-level table are translated through the same
entries. -/
theorem pgdTrail_congr {a b : Nat} (h : a % tableSpan l5 = b % tableSpan l5)
    (pgd : Nat → Entry P4dTable) :
    pgdTrail l5 (pgd (pgdIndex l5 a)) a = pgdTrail l5 (pgd (pgdIndex l5 b)) b := by
  obtain ⟨hpte, hpmd, hpud, hp4d, hpgd⟩ := index_congr h
  have htrailPmd : ∀ s, pmdTrail s a = pmdTrail s b := Entry.trail_congr hpte fun _ ↦ rfl
  have htrailPud : ∀ s, pudTrail s a = pudTrail s b := Entry.trail_congr hpmd htrailPmd
  have htrailP4d : ∀ s, p4dTrail s a = p4dTrail s b := Entry.trail_congr hpud htrailPud
  simp only [pgdTrail, hp4d, hpgd, htrailP4d]

/-- **`floor` and `ceiling` are respected**: no entry that is cleared translates an address outside
`[floor, ceiling)`, and what such an address is translated through stays as it was. -/
theorem freePgdRange_between (pgd : Nat → Entry P4dTable) (w : Walk) (hfl : floor ≤ addr)
    (hlt : addr < end_) (hend : end_ < 2 ^ 64) (htop : end_ ≤ top ceiling) (hc : ceiling < 2 ^ 64)
    (hhalf : SameHalf l5 addr (end_ - 1)) :
    (∀ level base, .clear level base ∈ (freePgdRange l5 addr end_ floor ceiling pgd w).2.log →
      .clear level base ∈ w.log ∨ floor ≤ base ∧ base + level.size l5 ≤ top ceiling) ∧
    ∀ a, IsCanonical l5 a → ¬ (floor ≤ a ∧ a < top ceiling) →
      pgdTrail l5 ((freePgdRange l5 addr end_ floor ceiling pgd w).1 (pgdIndex l5 a)) a =
        pgdTrail l5 (pgd (pgdIndex l5 a)) a := by
  rcases freePgdRange_cases pgd w hfl hlt hend htop hc hhalf with
    hres | ⟨a, e, c, hb, hdvd, hclt, htopc, hres⟩
  · rw [hres]
    exact ⟨fun _ _ h ↦ .inl h, fun _ _ _ ↦ rfl⟩
  · have hsize : ptrs * 2 ^ pgdirShift l5 = 2 ^ (pgdirShift l5 + 9) := by
      rw [pow_add, mul_comm]
      rfl
    have hw : LogWithin l5 floor c w.log w := fun ev hev ↦ .inl hev
    have hs : 21 ≤ pgdirShift l5 := by cases l5 <;> decide
    obtain ⟨hlog, htrail⟩ := KeepsOutside.loop (freePgdSlot_keepsOutside hclt hdvd) hs
      (pgdirShift_lt l5) hsize hb pgd hw
    rw [hres]
    refine ⟨fun level base hev ↦ ?_, fun b hcan hout ↦ ?_⟩
    · rcases hlog _ hev with hev | ⟨hlo, hhi⟩
      · exact .inl hev
      · exact .inr ⟨hlo, hhi.trans htopc⟩
    · have hmir := mirror_mod l5 a b
      have hout' : ¬ (floor ≤ b ∧ b < top c) := fun h ↦ hout ⟨h.1, h.2.trans_le htopc⟩
      have hblock : mirror l5 a b / 2 ^ (pgdirShift l5 + 9) = a / 2 ^ (pgdirShift l5 + 9) := by
        rw [← hsize]
        exact mirror_block l5 a b
      rw [← pgdTrail_congr hmir, ← pgdTrail_congr hmir]
      exact htrail (mirror l5 a b) hblock (mirror_between hcan hout')

end Range

/-- Two PTE tables side by side in the second gigabyte. -/
def twoTables : Nat → Entry P4dTable := fun g ↦
  if g = 0 then .table ⟨1, fun i ↦ if i = 0 then .table ⟨2, fun j ↦ if j = 1 then
    .table ⟨3, fun k ↦ if k < 2 then .table ⟨4 + k, fun _ ↦ .present 0⟩ else .none⟩ else .none⟩
      else .none⟩ else .none

/-- The second one is released, between bounds that do not begin with it, and the first one stays. -/
theorem freePgdRange_between_gigabyte :
    (∀ level base, .clear level base ∈
      (freePgdRange false (2 ^ 30 + 2 ^ 21) (2 ^ 31) (2 ^ 30 + 2 ^ 21) 0 twoTables (freshWalk [])).2.log →
        .clear level base ∈ (freshWalk []).log ∨
          2 ^ 30 + 2 ^ 21 ≤ base ∧ base + level.size false ≤ top 0) ∧
    pgdTrail false ((freePgdRange false (2 ^ 30 + 2 ^ 21) (2 ^ 31) (2 ^ 30 + 2 ^ 21) 0 twoTables
      (freshWalk [])).1 (pgdIndex false (2 ^ 30))) (2 ^ 30) =
        pgdTrail false (twoTables (pgdIndex false (2 ^ 30))) (2 ^ 30) := by
  have hfl : 2 ^ 30 + 2 ^ 21 ≤ 2 ^ 30 + 2 ^ 21 := le_rfl
  have hlt : 2 ^ 30 + 2 ^ 21 < 2 ^ 31 := by decide
  have htop : 2 ^ 31 ≤ top 0 := by decide
  have hhalf : SameHalf false (2 ^ 30 + 2 ^ 21) (2 ^ 31 - 1) := .inl ⟨by decide, by decide⟩
  obtain ⟨hlog, htrail⟩ := freePgdRange_between twoTables (freshWalk []) hfl hlt (by decide) htop
    (by decide) hhalf
  exact ⟨hlog, htrail (2 ^ 30) (.inl (by decide)) (by decide)⟩

end ShadowStack.Lkm
