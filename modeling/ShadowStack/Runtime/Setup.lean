import ShadowStack.Runtime.Gaps

/-!
# The result of `setup_memory`

When 0 is returned, and what that stands for.  Three things go wrong: `found` can be read without having been
assigned, the gap above the last region cannot be reserved, and of the gap that the area is selected from the
rest is not reserved.
-/

namespace ShadowStack.Runtime

open Lib

/-! ## The value of `found` -/

/-- `found` is read without having been assigned: there is no memory for the line, a line is malformed, or
there is no memory for one of the gaps. -/
def ReadsUnassigned (ans : SetupAnswers) (maps : List Char) : Prop :=
  ans.fopen = true ∧ (ans.line = false ∨ (∃ line ∈ fgets 8191 [] maps, Malformed line) ∨
    ∃ k < (gapsRead maps).length, ans.malloc k = false)

section Found

variable {ans : SetupAnswers} {maps : List Char} {min : Nat}

/-- The value of `found` is then the result, and nothing has been written. -/
theorem setupMemory_unassigned (h : ReadsUnassigned ans maps) : setupMemory ans maps min = ⟨ans.junk, none⟩ := by
  obtain ⟨hfp, hline | h⟩ := h
  · rw [setupMemory_eq, if_pos hfp, hline]
    rfl
  · rw [setupMemory_eq, if_pos hfp, gapList_eq_none h]
    exact ite_self _

/-- Otherwise the list is complete, if the file can be opened. -/
theorem gapList_assigned (hfp : ans.fopen = true) (h : ¬ ReadsUnassigned ans maps) :
    ans.line = true ∧ gapList ans maps = some (gapsRead maps) := by
  simp only [ReadsUnassigned, hfp, true_and, not_or, not_exists, not_and, Bool.not_eq_false] at h
  obtain ⟨hline, hwell, hmalloc⟩ := h
  exact ⟨hline, gapList_eq_some hwell hmalloc⟩

/-- What is claimed of a call: 0 is returned exactly if both outputs have been written and everything has been
reserved. -/
def Trustworthy (ans : SetupAnswers) (maps : List Char) (min : Nat) : Prop :=
  (setupMemory ans maps min).ok = true ↔
    ∃ list lo hi, (setupMemory ans maps min).area = some (lo, hi) ∧ gapList ans maps = some list ∧
      ∀ g ∈ reserved list lo hi, ans.mmap g = true

/-- **The result is trustworthy exactly if** `found` does not happen to be true where it is read without having
been assigned. -/
theorem trustworthy_iff (ans : SetupAnswers) (maps : List Char) (min : Nat) :
    Trustworthy ans maps min ↔ ¬ (ans.junk = true ∧ ReadsUnassigned ans maps) := by
  have hfail : setupMemory ans maps min = ⟨false, none⟩ → Trustworthy ans maps min := by
    intro h
    rw [Trustworthy, h]
    constructor
    · intro hc
      cases hc
    · rintro ⟨_, _, _, hc, -⟩
      cases hc
  by_cases hread : ReadsUnassigned ans maps
  · have hres : setupMemory ans maps min = ⟨ans.junk, none⟩ := setupMemory_unassigned hread
    constructor
    · rintro h ⟨hjunk, -⟩
      obtain ⟨_, _, _, hc, -⟩ := h.mp (by rw [hres]; exact hjunk)
      rw [hres] at hc
      cases hc
    · intro h
      have hjunk : ans.junk = false := by
        cases hj : ans.junk with
        | false => rfl
        | true => exact absurd ⟨hj, hread⟩ h
      exact hfail (by rw [hres, hjunk])
  · refine iff_of_true ?_ fun hc ↦ hread hc.2
    cases hfp : ans.fopen with
    | false =>
        refine hfail ?_
        rw [setupMemory_eq, hfp]
        rfl
    | true =>
        obtain ⟨hline, hlist⟩ := gapList_assigned hfp hread
        rcases setupMemory_gapList hfp hline hlist with ⟨hres, -⟩ | ⟨lo, hi, hres, -, hmmap⟩
        · exact hfail hres
        · rw [Trustworthy, hres]
          exact iff_of_true rfl ⟨gapsRead maps, lo, hi, rfl, hlist, hmmap⟩

/-- No memory for the line, and `found` happens to be true. -/
theorem not_trustworthy : ¬ ∀ (ans : SetupAnswers) (maps : List Char) (min : Nat), Trustworthy ans maps min := by
  intro h
  obtain ⟨_, _, _, hc, -⟩ := (h { SetupAnswers.good with line := false, junk := true } mapsExample memSize).mp rfl
  cases hc

end Found

/-! ## Success -/

/-- `TASK_SIZE` of 47-bit user addresses. -/
def taskSize : Nat := 0x7ffffffff000

/-- The only region above it. -/
def vsyscall : MemArea := ⟨0xffffffffff600000, 0xffffffffff601000⟩

def InTask (rs : List MemArea) : Prop := ∀ r ∈ rs, r.hi ≤ taskSize ∨ r = vsyscall

/-- Whether `mmap` with `MAP_FIXED` succeeds. -/
def mmapFixed (a : MemArea) : Bool := decide (4096 ∣ a.lo ∧ a.pages.hi ≤ taskSize)

/-- Between `BASE` and `TASK_SIZE` there are `min` bytes that no region has an address of. -/
def HasRoom (rs : List MemArea) (min : Nat) : Prop :=
  ∃ g : MemArea, areaBase ≤ g.lo ∧ g.lo < g.hi ∧ g.hi ≤ taskSize ∧ min ≤ g.hi - g.lo ∧ ∀ r ∈ rs, g.Apart r

/-- Between the last region and `CEIL` there are `min` bytes. -/
def TopRoom (rs : List MemArea) (min : Nat) : Prop := ∀ r ∈ rs, r.hi ≤ taskSize → r.hi + min ≤ areaCeil

section Success

variable {rs : List MemArea} {min : Nat} {g : MemArea}

theorem taskSize_lt_areaCeil : taskSize < areaCeil := by decide

/-- The gap at the top begins behind the last region. -/
theorem exists_top (hrs : RegionsOk rs) (htask : InTask rs) :
    ∃ g, IsGap rs g ∧ g.hi = areaCeil ∧ (g.lo = areaBase ∨ ∃ r ∈ rs, r.hi ≤ taskSize ∧ r.hi = g.lo) ∧
      ∀ r ∈ rs, r.hi ≤ taskSize → r.hi ≤ g.lo := by
  have hts : taskSize = 0x7ffffffff000 := rfl
  have hceil : areaCeil = 0x7fffffffffff := rfl
  have hfree : ∀ r ∈ rs, ¬ r.Has (areaCeil - 1) := by
    rintro r hr ⟨hlo, hhi⟩
    rcases htask r hr with hle | rfl
    · omega
    · exact absurd hlo (by decide)
  obtain ⟨g, hg, hga⟩ := ((complement_gaps hrs).cover (areaCeil - 1) (by decide) (by decide)).mpr hfree
  have hgap : IsGap rs g := (mem_gaps_iff hrs).mp hg
  obtain ⟨hlo, hhi⟩ := hga
  have hle := hgap.ok.ceil
  refine ⟨g, hgap, by omega, ?_, fun r hr hr' ↦ ?_⟩
  · rcases (complement_gaps hrs).lo g hg with heq | ⟨r, hr, heq⟩
    · exact .inl heq
    · rcases htask r hr with hr' | rfl
      · exact .inr ⟨r, hr, hr', heq⟩
      · have hv : vsyscall.hi = 0xffffffffff601000 := rfl
        omega
  · by_contra hlt
    -- the last address of the region would be in the gap
    have hr₁ := hrs.lt r hr
    exact hgap.free r hr (r.hi - 1) ⟨by omega, by omega⟩ ⟨by omega, by omega⟩

/-- The pages of a gap that is not at the top end with it, those of the gap at the top do not fit. -/
theorem mmapFixed_gap (hrs : RegionsOk rs) (htask : InTask rs) (hg : IsGap rs g) :
    mmapFixed g = true ↔ g.hi ≠ areaCeil := by
  have hmem := (mem_gaps_iff hrs).mpr hg
  have hts : taskSize = 0x7ffffffff000 := rfl
  have hceil : areaCeil = 0x7fffffffffff := rfl
  rw [mmapFixed, decide_eq_true_iff]
  constructor
  · rintro ⟨-, hle⟩ heq
    rcases (complement_gaps hrs).pages_hi hrs hmem with hp | ⟨-, hp⟩ <;> omega
  · intro hne
    refine ⟨(complement_gaps hrs).aligned_lo hrs hmem, ?_⟩
    rcases (complement_gaps hrs).pages_hi hrs hmem with hp | ⟨hc, -⟩
    · rcases (complement_gaps hrs).hi g hmem with hc | ⟨r, hr, hlo⟩
      · exact absurd hc hne
      · -- the gap ends where a region begins
        have hr₁ := hrs.lt r hr
        rcases htask r hr with hle | rfl
        · omega
        · have hv : vsyscall.lo = 0xffffffffff600000 := rfl
          have hle := hg.ok.ceil
          omega
    · exact absurd hc hne

/-- Two gaps have no address in common. -/
theorem IsGap.eq_or_le (h : IsGap rs g) {g' : MemArea} (h' : IsGap rs g') : g = g' ∨ g.hi ≤ g'.lo ∨ g'.hi ≤ g.lo := by
  by_contra hne
  simp only [not_or, not_le] at hne
  obtain ⟨hne, h₁, h₂⟩ := hne
  have hlt := h.ok.lt
  have hlt' := h'.ok.lt
  exact hne (h.eq_of_has h' ⟨le_max_left g.lo g'.lo, max_lt hlt h₁⟩ ⟨le_max_right g.lo g'.lo, max_lt h₂ hlt'⟩)

/-- The selected area ends with the gap, to 16 bytes, and does not begin before it. -/
theorem Chosen.bounds (hrs : RegionsOk rs) (h : Chosen rs min g) {lo hi : Nat}
    (hlo : lo = align16 (if min < g.hi - g.lo then g.hi - min else g.lo)) (hhi : hi = align16 g.hi) :
    g.lo ≤ lo ∧ lo ≤ hi ∧ hi ≤ g.hi ∧ g.hi < hi + 16 := by
  have hal := (complement_gaps hrs).aligned_lo hrs ((mem_gaps_iff hrs).mpr h.gap)
  have hlt := h.gap.ok.lt
  have hsize := h.size
  subst hlo hhi
  unfold align16
  split_ifs <;> omega

/-- A gap other than the chosen one is reserved. -/
theorem Chosen.mem_reserved (hrs : RegionsOk rs) (h : Chosen rs min g) {lo hi : Nat} (hlo : g.lo ≤ lo)
    (hhi : hi ≤ g.hi) {g' : MemArea} (hg' : IsGap rs g') (hne : g' ≠ g) : g' ∈ reserved (gaps rs) lo hi := by
  refine List.mem_filter.mpr ⟨(mem_gaps_iff hrs).mpr hg', decide_eq_true ?_⟩
  rcases (h.gap.eq_or_le hg').resolve_left hne.symm with hle | hle
  · exact .inl (hhi.trans hle)
  · exact .inr (hle.trans hlo)

theorem Chosen.unique (h : Chosen rs min g) {g' : MemArea} (h' : Chosen rs min g') : g = g' := by
  have hlt := h.gap.ok.lt
  have hlt' := h'.gap.ok.lt
  rcases h.highest g' h'.gap h'.size with heq | hle
  · exact heq.symm
  · rcases h'.highest g h.gap h.size with heq | hle'
    · exact heq
    · omega

/-- The gap at the top is chosen exactly if the pool fits above the last region. -/
theorem topRoom_iff (hrs : RegionsOk rs) (htask : InTask rs) (hroom : HasRoom rs min) :
    TopRoom rs min ↔ ∃ g, Chosen rs min g ∧ g.hi = areaCeil := by
  obtain ⟨top, htop, htophi, htoplo, hlast⟩ := exists_top hrs htask
  have hlt := htop.ok.lt
  constructor
  · intro hfits
    refine ⟨top, ⟨htop, ?_, fun g' hg' _ ↦ ?_⟩, htophi⟩
    · rcases htoplo with heq | ⟨r, hr, hr', heq⟩
      · obtain ⟨g, hbase, hlt', hle, hsize, -⟩ := hroom
        have hceil := taskSize_lt_areaCeil
        omega
      · have hge := hfits r hr hr'
        omega
    · have hceil := hg'.ok.ceil
      have hlt' := hg'.ok.lt
      rcases hg'.eq_or_le htop with heq | hle | hle
      · exact .inl heq
      · exact .inr hle
      · omega
  · rintro ⟨g, hg, hghi⟩ r hr hr'
    have heq : g = top := by
      have hlt' := hg.gap.ok.lt
      rcases hg.gap.eq_or_le htop with heq | hle
      · exact heq
      · omega
    subst heq
    have hge := hlast r hr hr'
    have hsize := hg.size
    omega

/-- Everything can be reserved exactly if the gap at the top is the chosen one. -/
theorem Chosen.reserved_iff (hrs : RegionsOk rs) (htask : InTask rs) (h : Chosen rs min g) {lo hi : Nat}
    (hlo : lo = align16 (if min < g.hi - g.lo then g.hi - min else g.lo)) (hhi : hi = align16 g.hi) :
    (∀ g' ∈ reserved (gaps rs) lo hi, mmapFixed g' = true) ↔ g.hi = areaCeil := by
  obtain ⟨hle, hle', hge, hlt⟩ := h.bounds hrs hlo hhi
  constructor
  · intro hall
    obtain ⟨top, htop, htophi, -⟩ := exists_top hrs htask
    by_contra hne
    have hmem : top ∈ reserved (gaps rs) lo hi := by
      refine h.mem_reserved hrs hle hge htop ?_
      rintro rfl
      exact hne htophi
    exact (mmapFixed_gap hrs htask htop).mp (hall top hmem) htophi
  · intro htop g' hg'
    obtain ⟨hmem, hcond⟩ := List.mem_filter.mp hg'
    have hgap' : IsGap rs g' := (mem_gaps_iff hrs).mp hmem
    have hok := hgap'.ok
    have hal := (complement_gaps hrs).aligned_lo hrs hmem
    have hceil : areaCeil = 0x7fffffffffff := rfl
    refine (mmapFixed_gap hrs htask hgap').mpr fun htop' ↦ ?_
    -- it ends at `CEIL` like the chosen one, and would have to lie above or below the area
    have hlt' := hok.lt
    have hdvd : 16 ∣ hi := hhi ▸ dvd_align16 g.hi
    rcases of_decide_eq_true hcond with hc | hc <;> omega

/-- **0 is returned exactly if** the pool fits above the last region.  Otherwise the gap there has to be
reserved, and its last page does not lie below `TASK_SIZE`. -/
theorem setupMemory_ok_iff {maps : List Char} (hrs : RegionsOk rs) (hmaps : MapsOf maps rs) (htask : InTask rs)
    (hroom : HasRoom rs min) {ans : SetupAnswers} (hfp : ans.fopen = true) (hline : ans.line = true)
    (hmalloc : ∀ k, ans.malloc k = true) (hmmap : ans.mmap = mmapFixed) :
    (setupMemory ans maps min).ok = true ↔ TopRoom rs min := by
  have hlist : gapList ans maps = some (gaps rs) := (gapList_eq hrs hmaps).1 fun k _ ↦ hmalloc k
  have hcalls := @setupMemory_gapList ans maps (gaps rs) min hfp hline hlist
  rw [topRoom_iff hrs htask hroom]
  rw [hmmap] at hcalls
  rcases hcalls with ⟨hfail, hmissing⟩ | ⟨lo, hi, hok, htarget, hres⟩
  · rw [hfail]
    refine iff_of_false (fun hc ↦ (nomatch hc)) ?_
    rintro ⟨g, hg, hghi⟩
    cases htarget : target (gaps rs) min with
    | none => exact absurd hg.size (not_le.mpr (target_none hrs htarget hg.gap))
    | some t =>
        obtain ⟨g', hmem, hg'⟩ := hmissing t.1 t.2 htarget
        obtain ⟨q, hq, hlo, hhi⟩ := target_chosen hrs (htarget : _ = some (t.1, t.2))
        obtain rfl := hg.unique hq
        have hall := (hg.reserved_iff hrs htask hlo hhi).mpr hghi g' hmem
        rw [hg'] at hall
        cases hall
  · obtain ⟨g, hg, hlo, hhi⟩ := target_chosen hrs htarget
    rw [hok]
    exact iff_of_true rfl ⟨g, hg, (hg.reserved_iff hrs htask hlo hhi).mp hres⟩

end Success

/-- A process whose stack has moved down by more than the size of the pool. -/
def mapsAbove : List Char :=
  ("555555554000-555555555000 r--p 00000000 08:01 42 /bin/cat\n" ++
    "7fffaffde000-7fffaffff000 rw-p 00000000 00:00 0 [stack]\n" ++
    "ffffffffff600000-ffffffffff601000 --xp 00000000 00:00 0 [vsyscall]\n").toList

def regionsAbove : List MemArea :=
  [⟨0x555555554000, 0x555555555000⟩, ⟨0x7fffaffde000, 0x7fffaffff000⟩, vsyscall]

theorem regionsOk_above : RegionsOk regionsAbove := by
  refine ⟨by decide, by decide, by decide, by decide, ?_⟩
  simp [regionsAbove, vsyscall]

theorem mapsOf_above : MapsOf mapsAbove regionsAbove := by
  have hlines : ∀ a b c : String, (a ++ b ++ c).toList = [a.toList, b.toList, c.toList].flatten := by
    simp
  refine ⟨["555555554000-555555555000 r--p 00000000 08:01 42 /bin/cat\n".toList,
    "7fffaffde000-7fffaffff000 rw-p 00000000 00:00 0 [stack]\n".toList,
    "ffffffffff600000-ffffffffff601000 --xp 00000000 00:00 0 [vsyscall]\n".toList],
    hlines _ _ _, .cons ?_ (.cons ?_ (.cons ?_ .nil))⟩
  · exact ⟨"555555554000".toList, "555555555000".toList, "r--p 00000000 08:01 42 /bin/cat".toList,
      by decide +kernel, ⟨by decide, by decide⟩, ⟨by decide, by decide⟩, by decide, by decide⟩
  · exact ⟨"7fffaffde000".toList, "7fffaffff000".toList, "rw-p 00000000 00:00 0 [stack]".toList,
      by decide +kernel, ⟨by decide, by decide⟩, ⟨by decide, by decide⟩, by decide, by decide⟩
  · exact ⟨"ffffffffff600000".toList, "ffffffffff601000".toList, "--xp 00000000 00:00 0 [vsyscall]".toList,
      by decide +kernel, ⟨by decide, by decide⟩, ⟨by decide, by decide⟩, by decide, by decide⟩

theorem gaps_above : gaps regionsAbove = [⟨0x7fffaffff000, areaCeil⟩, ⟨areaBase, 0x7fffaffde000⟩] := by decide

theorem gapList_above : gapList { SetupAnswers.good with mmap := mmapFixed } mapsAbove = some (gaps regionsAbove) :=
  (gapList_eq regionsOk_above mapsOf_above).1 fun _ _ ↦ rfl

theorem setupMemory_above : setupMemory { SetupAnswers.good with mmap := mmapFixed } mapsAbove memSize =
    ⟨true, some (0x7fffbffffff0, 0x7ffffffffff0)⟩ :=
  setupMemory_reserved rfl rfl gapList_above (by decide) (by decide)

/-- The gap above the stack is the highest one. -/
theorem chosen_above {min : Nat} (hmin : min ≤ 0x50000fff) :
    Chosen regionsAbove min ⟨0x7fffaffff000, areaCeil⟩ := by
  refine ⟨(mem_gaps_iff regionsOk_above).mp (by rw [gaps_above]; simp), hmin, fun g' hg' _ ↦ ?_⟩
  have hmem := (mem_gaps_iff regionsOk_above).mpr hg'
  rw [gaps_above] at hmem
  rcases List.mem_pair.mp hmem with rfl | rfl
  · exact .inl rfl
  · exact .inr (by decide)

theorem inTask_above : InTask regionsAbove := by
  intro r hr
  simp only [regionsAbove, List.mem_cons, List.not_mem_nil, or_false] at hr
  rcases hr with rfl | rfl | rfl
  · exact .inl (by decide)
  · exact .inl (by decide)
  · exact .inr rfl

theorem hasRoom_above : HasRoom regionsAbove memSize := by
  refine ⟨⟨areaBase, 0x7fffaffde000⟩, le_rfl, by decide, by decide, by decide, fun r hr ↦ ?_⟩
  have hmem : (⟨areaBase, 0x7fffaffde000⟩ : MemArea) ∈ gaps regionsAbove := by decide
  exact (complement_gaps regionsOk_above).apart hmem hr

theorem setupMemory_ok_above :
    (setupMemory { SetupAnswers.good with mmap := mmapFixed } mapsAbove memSize).ok = true := by
  refine (setupMemory_ok_iff regionsOk_above mapsOf_above inTask_above hasRoom_above rfl rfl (fun _ ↦ rfl)
    rfl).mpr fun r hr _ ↦ ?_
  revert r
  decide

/-- With the stack at its usual place, the gap of 4095 bytes above it cannot be reserved. -/
theorem not_setupMemory_ok : ¬ ∀ (ans : SetupAnswers) (maps : List Char) (rs : List MemArea) (min : Nat),
    RegionsOk rs → MapsOf maps rs → InTask rs → 4096 ∣ min → HasRoom rs min → ans.fopen = true →
    ans.line = true → (∀ k, ans.malloc k = true) → ans.mmap = mmapFixed → (setupMemory ans maps min).ok = true := by
  intro h
  have htask : InTask regionsExample := fun r hr ↦ .inl (by revert r; decide)
  have hroom : HasRoom regionsExample memSize := by
    refine ⟨⟨areaBase, 0x7ffffffde000⟩, le_rfl, by decide, by decide, by decide, fun r hr ↦ ?_⟩
    have hmem : (⟨areaBase, 0x7ffffffde000⟩ : MemArea) ∈ gaps regionsExample := by decide
    exact (complement_gaps regionsOk_example).apart hmem hr
  have hlist : gapList { SetupAnswers.good with mmap := mmapFixed } mapsExample = some (gaps regionsExample) :=
    (gapList_eq regionsOk_example mapsOf_example).1 fun _ _ ↦ rfl
  have hfail : setupMemory { SetupAnswers.good with mmap := mmapFixed } mapsExample memSize = ⟨false, none⟩ := by
    refine setupMemory_missing rfl rfl hlist fun lo hi htarget ↦ ⟨⟨0x7ffffffff000, areaCeil⟩, ?_, by decide⟩
    obtain ⟨rfl, rfl⟩ := Prod.mk.inj (Option.some.inj htarget)
    decide
  have hok := h { SetupAnswers.good with mmap := mmapFixed } mapsExample regionsExample memSize regionsOk_example
    mapsOf_example htask (by decide) hroom rfl rfl (fun _ ↦ rfl) rfl
  rw [hfail] at hok
  cases hok

/-! ## What is left -/

/-- The page at `p` is in a region, in a reservation, or has an address of the selected area. -/
def Claimed (ans : SetupAnswers) (maps : List Char) (rs : List MemArea) (min p : Nat) : Prop :=
  (∃ r ∈ rs, r.lo ≤ p ∧ p + 4096 ≤ r.hi) ∨
    ∃ list lo hi, gapList ans maps = some list ∧ (setupMemory ans maps min).area = some (lo, hi) ∧
      ((∃ g ∈ reserved list lo hi, g.lo ≤ p ∧ p + 4096 ≤ g.pages.hi) ∨
        ∃ x, lo ≤ x ∧ x < hi ∧ p ≤ x ∧ x < p + 4096)

/-- What is claimed of a call that returns 0. -/
def NothingUnclaimed (ans : SetupAnswers) (maps : List Char) (rs : List MemArea) (min : Nat) : Prop :=
  ∀ p, 4096 ∣ p → areaBase ≤ p → p + 4096 ≤ taskSize → Claimed ans maps rs min p

/-- The chosen gap has no page more than the pool; or the pool is empty, and the gap is reserved like the others.
If `found` is read without having been assigned, there must be no gap at all. -/
structure NothingLeft (ans : SetupAnswers) (rs : List MemArea) (min : Nat) : Prop where
  none : ReadsJunk ans rs → ∀ g, IsGap rs g → taskSize ≤ g.lo
  chosen : ¬ ReadsJunk ans rs → ∀ g, Chosen rs min g → g.hi - g.lo < min + 4096 ∨ min = 0 ∧ g.hi ≠ areaCeil

section Left

variable {ans : SetupAnswers} {maps : List Char} {rs : List MemArea} {min : Nat} {g : MemArea}

theorem readsJunk_iff (hrs : RegionsOk rs) (hmaps : MapsOf maps rs) :
    ReadsJunk ans rs ↔ ans.junk = true ∧ ReadsUnassigned ans maps := by
  obtain ⟨hwell, hread⟩ := hmaps.read hrs
  have hnot : ¬ ∃ line ∈ fgets 8191 [] maps, Malformed line := by
    rintro ⟨line, hline, hbad⟩
    exact hwell line hline hbad
  rw [ReadsJunk, ReadsUnassigned, gapsRead, hread, or_iff_right hnot]

/-- A page is in a region or in a gap. -/
theorem page_cases (hrs : RegionsOk rs) {p : Nat} (hp : 4096 ∣ p) (hbase : areaBase ≤ p) (htop : p + 4096 ≤ taskSize) :
    (∃ r ∈ rs, r.lo ≤ p ∧ p + 4096 ≤ r.hi) ∨ ∃ g, IsGap rs g ∧ g.lo ≤ p ∧ p + 4096 ≤ g.hi := by
  have hts : taskSize = 0x7ffffffff000 := rfl
  have hceil : areaCeil = 0x7fffffffffff := rfl
  by_cases hin : ∃ r ∈ rs, r.Has p
  · obtain ⟨r, hr, hlo, hhi⟩ := hin
    have hal := (hrs.aligned r hr).2
    exact .inl ⟨r, hr, hlo, by omega⟩
  · have hnot : ∀ r ∈ rs, ¬ r.Has p := fun r hr hra ↦ hin ⟨r, hr, hra⟩
    obtain ⟨g, hg, hlo, hhi⟩ := ((complement_gaps hrs).cover p hbase (by omega)).mpr hnot
    refine .inr ⟨g, (mem_gaps_iff hrs).mp hg, hlo, ?_⟩
    rcases (complement_gaps hrs).aligned_hi hrs hg with heq | hal <;> omega

/-- The first page of a gap below `TASK_SIZE`. -/
theorem IsGap.first_page (hrs : RegionsOk rs) (hg : IsGap rs g) (hlt : g.lo < taskSize) :
    4096 ∣ g.lo ∧ areaBase ≤ g.lo ∧ g.lo + 4096 ≤ taskSize ∧ ¬ ∃ r ∈ rs, r.lo ≤ g.lo ∧ g.lo + 4096 ≤ r.hi := by
  have hal := (complement_gaps hrs).aligned_lo hrs ((mem_gaps_iff hrs).mpr hg)
  have hts : taskSize = 0x7ffffffff000 := rfl
  refine ⟨hal, hg.ok.base, by omega, ?_⟩
  rintro ⟨r, hr, hlo, hhi⟩
  exact hg.free r hr g.lo ⟨le_rfl, hg.ok.lt⟩ ⟨hlo, by omega⟩

/-- The pages of a gap are mapped with it. -/
theorem IsGap.le_pages_hi (hrs : RegionsOk rs) (hg : IsGap rs g) : g.hi ≤ g.pages.hi := by
  rcases (complement_gaps hrs).pages_hi hrs ((mem_gaps_iff hrs).mpr hg) with heq | ⟨heq, heq'⟩
  · exact heq.ge
  · rw [heq, heq']
    exact Nat.le_succ _

/-- A gap whose mapped range holds the first page of another one is that one. -/
theorem IsGap.eq_of_page (hrs : RegionsOk rs) (hg : IsGap rs g) {g' : MemArea} (hg' : IsGap rs g')
    (hlo : g'.lo ≤ g.lo) (hhi : g.lo + 4096 ≤ g'.pages.hi) : g' = g := by
  have hlt := hg.ok.lt
  have hceil := hg.ok.ceil
  rcases hg'.eq_or_le hg with heq | hle | hle
  · exact heq
  · rcases (complement_gaps hrs).pages_hi hrs ((mem_gaps_iff hrs).mpr hg') with heq | ⟨heq, heq'⟩ <;> omega
  · omega

namespace Chosen

variable {lo hi : Nat}

/-- If there is nothing left of the chosen gap, each of its pages has an address of the area, or the gap is
reserved. -/
theorem page (hrs : RegionsOk rs) (hmin : 4096 ∣ min) (h : Chosen rs min g)
    (hlo : lo = align16 (if min < g.hi - g.lo then g.hi - min else g.lo)) (hhi : hi = align16 g.hi)
    (hleft : g.hi - g.lo < min + 4096 ∨ min = 0 ∧ g.hi ≠ areaCeil) {p : Nat} (hp : g.lo ≤ p)
    (hp' : p + 4096 ≤ g.hi) (htop : p + 4096 ≤ taskSize) :
    g ∈ reserved (gaps rs) lo hi ∨ ∃ x, lo ≤ x ∧ x < hi ∧ p ≤ x ∧ x < p + 4096 := by
  have hmem := (mem_gaps_iff hrs).mpr h.gap
  have hal := (complement_gaps hrs).aligned_lo hrs hmem
  have hal' := (complement_gaps hrs).aligned_hi hrs hmem
  have hsize := h.size
  have hts : taskSize = 0x7ffffffff000 := rfl
  have hceil : areaCeil = 0x7fffffffffff := rfl
  rcases hleft with hleft | ⟨hzero, hne⟩
  · refine .inr ⟨max p lo, le_max_right _ _, ?_, le_max_left _ _, ?_⟩
    · rw [max_lt_iff, hlo, hhi, align16, align16]
      split_ifs <;> omega
    · rw [max_lt_iff, hlo, align16]
      split_ifs <;> omega
  · have hal' := hal'.resolve_left hne
    refine .inl (List.mem_filter.mpr ⟨hmem, decide_eq_true (.inr ?_)⟩)
    rw [hlo, align16]
    split_ifs <;> omega

/-- Otherwise the first page has none, and the gap is not reserved. -/
theorem first_page (hrs : RegionsOk rs) (hmin : 4096 ∣ min) (h : Chosen rs min g)
    (hlo : lo = align16 (if min < g.hi - g.lo then g.hi - min else g.lo)) (hhi : hi = align16 g.hi)
    (hleft : ¬ (g.hi - g.lo < min + 4096 ∨ min = 0 ∧ g.hi ≠ areaCeil)) :
    g.lo < taskSize ∧ g ∉ reserved (gaps rs) lo hi ∧ g.lo + 4096 ≤ lo := by
  have hmem := (mem_gaps_iff hrs).mpr h.gap
  have hal := (complement_gaps hrs).aligned_lo hrs hmem
  have hal' := (complement_gaps hrs).aligned_hi hrs hmem
  have hle := h.gap.ok.ceil
  have hts : taskSize = 0x7ffffffff000 := rfl
  have hceil : areaCeil = 0x7fffffffffff := rfl
  simp only [not_or, not_lt, not_and, not_not] at hleft
  obtain ⟨hsize, hzero⟩ := hleft
  have hlt : min < g.hi - g.lo := by omega
  rw [if_pos hlt, align16] at hlo
  rw [align16] at hhi
  refine ⟨by omega, fun hc ↦ ?_, by omega⟩
  rcases of_decide_eq_true (List.mem_filter.mp hc).2 with hc | hc
  · omega
  · by_cases hmin₀ : min = 0
    · have heq := hzero hmin₀
      omega
    · omega

end Chosen

/-- If no area is written, everything is claimed only if there is no gap; -/
theorem nothingUnclaimed_none (hrs : RegionsOk rs) (hnone : (setupMemory ans maps min).area = none) :
    NothingUnclaimed ans maps rs min ↔ ∀ g, IsGap rs g → taskSize ≤ g.lo := by
  constructor
  · intro h g hg
    by_contra hlt
    obtain ⟨hal, hbase, htop, hfree⟩ := hg.first_page hrs (not_le.mp hlt)
    obtain ⟨_, _, _, -, hc, -⟩ := (h g.lo hal hbase htop).resolve_left hfree
    rw [hnone] at hc
    cases hc
  · intro h p hp hbase htop
    refine .inl ((page_cases hrs hp hbase htop).resolve_right ?_)
    rintro ⟨g, hg, hlo, -⟩
    have hle := h g hg
    omega

/-- if one is, only if nothing is left of the chosen gap. -/
theorem nothingUnclaimed_some (hrs : RegionsOk rs) (hmin : 4096 ∣ min) (hlist : gapList ans maps = some (gaps rs))
    {lo hi : Nat} (hsome : (setupMemory ans maps min).area = some (lo, hi)) (hg : Chosen rs min g)
    (hlo : lo = align16 (if min < g.hi - g.lo then g.hi - min else g.lo)) (hhi : hi = align16 g.hi) :
    NothingUnclaimed ans maps rs min ↔ (g.hi - g.lo < min + 4096 ∨ min = 0 ∧ g.hi ≠ areaCeil) := by
  obtain ⟨hle, -, hge, -⟩ := hg.bounds hrs hlo hhi
  constructor
  · intro h
    by_contra hleft
    obtain ⟨hlt, hnot, hpage⟩ := hg.first_page hrs hmin hlo hhi hleft
    obtain ⟨hal, hbase, htop, hfree⟩ := hg.gap.first_page hrs hlt
    obtain ⟨list, lo', hi', hlist', hsome', hclaimed⟩ := (h g.lo hal hbase htop).resolve_left hfree
    obtain rfl := Option.some.inj (hlist.symm.trans hlist')
    obtain ⟨rfl, rfl⟩ := Prod.mk.inj (Option.some.inj (hsome.symm.trans hsome'))
    rcases hclaimed with ⟨q, hq, hqlo, hqhi⟩ | ⟨x, hx, -, -, hx'⟩
    · obtain rfl := hg.gap.eq_of_page hrs ((mem_gaps_iff hrs).mp (List.mem_filter.mp hq).1) hqlo hqhi
      exact hnot hq
    · omega
  · intro hleft p hp hbase htop
    rcases page_cases hrs hp hbase htop with hin | ⟨q, hq, hqlo, hqhi⟩
    · exact .inl hin
    refine .inr ⟨gaps rs, lo, hi, hlist, hsome, ?_⟩
    have hmapped : q ∈ reserved (gaps rs) lo hi →
        ∃ g ∈ reserved (gaps rs) lo hi, g.lo ≤ p ∧ p + 4096 ≤ g.pages.hi :=
      fun hmem ↦ ⟨q, hmem, hqlo, hqhi.trans (hq.le_pages_hi hrs)⟩
    by_cases heq : q = g
    · subst heq
      exact (hg.page hrs hmin hlo hhi hleft hqlo hqhi htop).imp hmapped id
    · exact .inl (hmapped (hg.mem_reserved hrs hle hge hq heq))

/-- **Everything is claimed exactly if** nothing is left of the chosen gap. -/
theorem nothingUnclaimed_iff (hrs : RegionsOk rs) (hmaps : MapsOf maps rs) (hmin : 4096 ∣ min)
    (hok : (setupMemory ans maps min).ok = true) :
    NothingUnclaimed ans maps rs min ↔ NothingLeft ans rs min := by
  by_cases hread : ReadsUnassigned ans maps
  · have hres : setupMemory ans maps min = ⟨ans.junk, none⟩ := setupMemory_unassigned hread
    have hjunk : ReadsJunk ans rs := by
      rw [hres] at hok
      exact (readsJunk_iff hrs hmaps).mpr ⟨hok, hread⟩
    rw [nothingUnclaimed_none hrs (by rw [hres])]
    exact ⟨fun h ↦ ⟨fun _ ↦ h, fun hc ↦ absurd hjunk hc⟩, fun h ↦ h.none hjunk⟩
  · have hjunk : ¬ ReadsJunk ans rs := fun hc ↦ hread ((readsJunk_iff hrs hmaps).mp hc).2
    have hfp : ans.fopen = true := by
      cases hfp : ans.fopen with
      | true => rfl
      | false =>
          rw [setupMemory_eq, hfp] at hok
          cases hok
    obtain ⟨hline, hlist⟩ := gapList_assigned hfp hread
    have hgaps : gapsRead maps = gaps rs := congrArg gaps (hmaps.read hrs).2
    rw [hgaps] at hlist
    rcases setupMemory_gapList hfp hline hlist with ⟨hres, -⟩ | ⟨lo, hi, hres, htarget, -⟩
    · rw [hres] at hok
      cases hok
    obtain ⟨g, hg, hlo, hhi⟩ := target_chosen hrs htarget
    rw [nothingUnclaimed_some hrs hmin hlist (by rw [hres]) hg hlo hhi]
    constructor
    · intro h
      refine ⟨fun hc ↦ absurd hc hjunk, fun _ q hq ↦ ?_⟩
      obtain rfl := hg.unique hq
      exact h
    · intro h
      exact h.chosen hjunk g hg

end Left

/-- A pool that takes the whole gap above the stack. -/
theorem nothingUnclaimed_above :
    NothingUnclaimed { SetupAnswers.good with mmap := mmapFixed } mapsAbove regionsAbove 0x50000000 := by
  have hres : setupMemory { SetupAnswers.good with mmap := mmapFixed } mapsAbove 0x50000000 =
      ⟨true, some (0x7fffaffffff0, 0x7ffffffffff0)⟩ :=
    setupMemory_reserved rfl rfl gapList_above (by decide) (by decide)
  refine (nothingUnclaimed_iff regionsOk_above mapsOf_above (by decide) (by rw [hres])).mpr ⟨?_, fun _ g hg ↦ ?_⟩
  · rintro ⟨hc, -⟩
    cases hc
  · obtain rfl := hg.unique (chosen_above (by decide))
    exact .inl (by decide)

/-- The pages between the stack and a smaller pool. -/
theorem not_nothingUnclaimed : ¬ ∀ (ans : SetupAnswers) (maps : List Char) (rs : List MemArea) (min : Nat),
    RegionsOk rs → MapsOf maps rs → 4096 ∣ min → (setupMemory ans maps min).ok = true →
    NothingUnclaimed ans maps rs min := by
  intro h
  have hres := setupMemory_above
  have hall := h { SetupAnswers.good with mmap := mmapFixed } mapsAbove regionsAbove memSize regionsOk_above
    mapsOf_above (by decide) (by rw [hres])
  have hleft := (nothingUnclaimed_some regionsOk_above (by decide) gapList_above (by rw [hres]) (chosen_above (by decide))
    (by decide) (by decide)).mp hall
  revert hleft
  decide

end ShadowStack.Runtime
