import Mathlib.Data.List.Pairwise
import ShadowStack.Runtime.Mapping

/-!
# The gaps between the mappings

`setup_memory` on the file it is made for: lines with the bounds of the mapped regions, in order.  The list
it builds then holds exactly the gaps that the regions leave between `BASE` and `CEIL`.
-/

namespace ShadowStack.Runtime

open Lib

/-! ## Numbers -/

/-- A string of hexadecimal digits, with its value. -/
def IsHex (s : List Char) (n : Nat) : Prop := s ≠ [] ∧ hexDigits 0 s = (n, [])

/-- Digits are read up to the first other character. -/
theorem hexDigits_append {s : List Char} {c : Char} {rest : List Char} {acc n : Nat}
    (hs : hexDigits acc s = (n, [])) (hc : hexDigit c = none) :
    hexDigits acc (s ++ c :: rest) = (n, c :: rest) := by
  induction s generalizing acc with
  | nil =>
      obtain rfl : acc = n := congrArg Prod.fst hs
      rw [List.nil_append, hexDigits, hc]
  | cons d s ih =>
      rw [List.cons_append, hexDigits]
      rw [hexDigits] at hs
      cases hd : hexDigit d with
      | none => simp [hd] at hs
      | some v =>
          simp only [hd] at hs ⊢
          exact ih hs

/-- A digit is none of the characters that are skipped in front of a number. -/
theorem hexDigit_ne {d c : Char} {v : Nat} (hd : hexDigit d = some v) (hc : hexDigit c = none) : d ≠ c := by
  rintro rfl
  rw [hd] at hc
  cases hc

theorem isspace_of_hexDigit {d : Char} {v : Nat} (hd : hexDigit d = some v) : isspace d = false := by
  have hne : ∀ c, hexDigit c = none → (d = c) = False := fun c hc ↦ eq_false (hexDigit_ne hd hc)
  simp [isspace, hne ' ' rfl, hne '\t' rfl, hne '\n' rfl, hne '\x0b' rfl, hne '\x0c' rfl, hne '\x0d' rfl]

/-- There is no prefix where the second character is no `x`. -/
theorem hexPrefix_eq {d : Char} {t : List Char} (ht : t.head? ≠ some 'x' ∧ t.head? ≠ some 'X') :
    hexPrefix (d :: t) = d :: t := by
  unfold hexPrefix
  split
  · next x c rest heq =>
      obtain ⟨rfl, rfl⟩ := List.cons.inj heq
      rw [if_neg]
      rintro ⟨rfl | rfl, -⟩
      · exact ht.1 rfl
      · exact ht.2 rfl
  · rfl

/-- **A number is read up to the character after it.** -/
theorem strtoull_append {s : List Char} {n : Nat} (hs : IsHex s n) (hn : n < 2 ^ 64) {c : Char}
    {rest : List Char} (hc : hexDigit c = none) (hx : c ≠ 'x' ∧ c ≠ 'X') :
    strtoull (s ++ c :: rest) = (n, c :: rest) := by
  obtain ⟨hne, hdigits⟩ := hs
  cases s with
  | nil => exact absurd rfl hne
  | cons d s =>
  cases hd : hexDigit d with
  | none => simp [hexDigits, hd] at hdigits
  | some v =>
  have hsecond : (s ++ c :: rest).head? ≠ some 'x' ∧ (s ++ c :: rest).head? ≠ some 'X' := by
    cases s with
    | nil => simpa using hx
    | cons e s =>
        cases he : hexDigit e with
        | none => simp [hexDigits, hd, he] at hdigits
        | some w =>
            have hx : e ≠ 'x' := hexDigit_ne he rfl
            have hX : e ≠ 'X' := hexDigit_ne he rfl
            simpa using ⟨hx, hX⟩
  have hdrop : (d :: (s ++ c :: rest)).dropWhile isspace = d :: (s ++ c :: rest) := by
    rw [List.dropWhile_cons, isspace_of_hexDigit hd]
    rfl
  have hminus : d ≠ '-' := hexDigit_ne hd rfl
  have hplus : d ≠ '+' := hexDigit_ne hd rfl
  have htail : hexDigits v (s ++ c :: rest) = (n, c :: rest) := by
    refine hexDigits_append ?_ hc
    rw [hexDigits, hd] at hdigits
    simpa using hdigits
  have hfits : ullong false n = n := by
    rw [ullong, if_neg (not_le.mpr hn)]
    rfl
  simp [strtoull, hdrop, hminus, hplus, hexPrefix_eq hsecond, hd, htail, hfits]

/-! ## Lines -/

/-- A line about a region: its bounds, what else there is to say, and a newline; it fits into the buffer. -/
def LineOf (line : List Char) (r : MemArea) : Prop :=
  ∃ lo hi rest, line = lo ++ '-' :: (hi ++ ' ' :: (rest ++ ['\n'])) ∧ IsHex lo r.lo ∧ IsHex hi r.hi ∧
    '\n' ∉ rest ∧ line.length < 8191

/-- The regions of a process: not empty, not at 0, made of whole pages, in order and without overlaps. -/
structure RegionsOk (rs : List MemArea) : Prop where
  lt : ∀ r ∈ rs, r.lo < r.hi
  pos : ∀ r ∈ rs, 0 < r.lo
  top : ∀ r ∈ rs, r.hi < 2 ^ 64
  aligned : ∀ r ∈ rs, 4096 ∣ r.lo ∧ 4096 ∣ r.hi
  sorted : rs.Pairwise fun r r' ↦ r.hi ≤ r'.lo

/-- The contents of the file for these regions. -/
def MapsOf (maps : List Char) (rs : List MemArea) : Prop :=
  ∃ lines, maps = lines.flatten ∧ List.Forall₂ LineOf lines rs

theorem RegionsOk.tail {r : MemArea} {rs : List MemArea} (h : RegionsOk (r :: rs)) : RegionsOk rs :=
  ⟨fun q hq ↦ h.lt q (List.mem_cons_of_mem _ hq), fun q hq ↦ h.pos q (List.mem_cons_of_mem _ hq),
    fun q hq ↦ h.top q (List.mem_cons_of_mem _ hq), fun q hq ↦ h.aligned q (List.mem_cons_of_mem _ hq),
    h.sorted.of_cons⟩

/-- A digit is no newline. -/
theorem IsHex.newline_notMem {s : List Char} {n acc : Nat} (h : hexDigits acc s = (n, [])) : '\n' ∉ s := by
  induction s generalizing acc with
  | nil => exact List.not_mem_nil
  | cons d s ih =>
      cases hd : hexDigit d with
      | none => simp [hexDigits, hd] at h
      | some v =>
          simp only [hexDigits, hd] at h
          intro hc
          rcases List.mem_cons.mp hc with heq | hc
          · exact hexDigit_ne hd rfl heq.symm
          · exact ih h hc

/-- One call of `fgets` reads one line. -/
theorem fgets_line {size : Nat} {body pre rest : List Char} (hbody : '\n' ∉ body)
    (hlen : pre.length + body.length + 1 < size) :
    fgets size pre (body ++ '\n' :: rest) = (pre ++ body ++ ['\n']) :: fgets size [] rest := by
  induction body generalizing pre with
  | nil => rw [List.nil_append, fgets, if_pos (.inl rfl), List.append_nil]
  | cons c body ih =>
      have hc : ¬ (c = '\n' ∨ pre.length + 2 = size) := by
        rintro (rfl | heq)
        · exact hbody List.mem_cons_self
        · rw [List.length_cons] at hlen
          omega
      have hrest : (pre ++ [c]).length + body.length + 1 < size := by
        rw [List.length_cons] at hlen
        rw [List.length_append, List.length_singleton]
        omega
      rw [List.cons_append, fgets, if_neg hc, ih (fun h ↦ hbody (List.mem_cons_of_mem _ h)) hrest,
        List.append_assoc pre]
      rfl

/-- **The lines are read one by one.** -/
theorem fgets_flatten {lines : List (List Char)} {rs : List MemArea} (h : List.Forall₂ LineOf lines rs) :
    fgets 8191 [] lines.flatten = lines := by
  induction h with
  | nil => rfl
  | cons hline _ ih =>
      obtain ⟨lo, hi, rest, rfl, hlo, hhi, hrest, hlen⟩ := hline
      have hbody : '\n' ∉ lo ++ '-' :: (hi ++ ' ' :: rest) := by
        have hlo' := IsHex.newline_notMem hlo.2
        have hhi' := IsHex.newline_notMem hhi.2
        simp [hlo', hhi', hrest]
      have hsplit : lo ++ '-' :: (hi ++ ' ' :: (rest ++ ['\n'])) = (lo ++ '-' :: (hi ++ ' ' :: rest)) ++ ['\n'] := by
        simp
      rw [hsplit, List.length_append, List.length_singleton] at hlen
      rw [hsplit, List.flatten_cons, List.append_assoc, List.singleton_append,
        fgets_line hbody (by rw [List.length_nil, Nat.zero_add]; exact hlen), ih, List.nil_append]

/-- The bounds that are read off a line. -/
def regionOf (line : List Char) : MemArea :=
  ⟨(strtoull line).1, (strtoull (strtoull line).2.tail).1⟩

/-- A line at which the loop is left. -/
def Malformed (line : List Char) : Prop :=
  ((strtoull line).1 = 0 ∨ (strtoull line).2.head? ≠ some '-') ∨
    (strtoull line).1 ≤ areaCeil ∧
      ((strtoull (strtoull line).2.tail).1 = 0 ∨
        (strtoull (strtoull line).2.tail).2.head? ≠ some ' ' ∧
          (strtoull (strtoull line).2.tail).2.head? ≠ some '\t')

instance (line : List Char) : Decidable (Malformed line) := inferInstanceAs (Decidable (_ ∨ _))

/-- One round of the loop. -/
theorem scanMaps_cons (ans : SetupAnswers) (line : List Char) (lines : List (List Char)) (prevHi : Nat)
    (list : List MemArea) : scanMaps ans (line :: lines) prevHi list =
      if Malformed line then none
      else if areaCeil < (regionOf line).lo then scanMaps ans lines prevHi list
      else
        match if prevHi < (regionOf line).lo then insertMa ans list prevHi (regionOf line).lo
          else some list with
        | none => none
        | some list =>
            scanMaps ans lines (if prevHi < (regionOf line).hi then (regionOf line).hi else prevHi) list := by
  have hlo : (regionOf line).lo = (strtoull line).1 := rfl
  have hhi : (regionOf line).hi = (strtoull (strtoull line).2.tail).1 := rfl
  simp only [scanMaps]
  rw [hlo, hhi]
  by_cases hstart : (strtoull line).1 = 0 ∨ (strtoull line).2.head? ≠ some '-'
  · have hbad : Malformed line := .inl hstart
    rw [if_pos hstart, if_pos hbad]
  by_cases hceil : areaCeil < (strtoull line).1
  · have hwell : ¬ Malformed line := fun hc ↦ (hc.resolve_left hstart).1.not_gt hceil
    rw [if_neg hstart, if_pos hceil, if_neg hwell, if_pos hceil]
  by_cases hend : (strtoull (strtoull line).2.tail).1 = 0 ∨
      (strtoull (strtoull line).2.tail).2.head? ≠ some ' ' ∧
        (strtoull (strtoull line).2.tail).2.head? ≠ some '\t'
  · have hbad : Malformed line := .inr ⟨not_lt.mp hceil, hend⟩
    rw [if_neg hstart, if_neg hceil, if_pos hend, if_pos hbad]
  · have hwell : ¬ Malformed line := fun hc ↦ hend (hc.resolve_left hstart).2
    rw [if_neg hstart, if_neg hceil, if_neg hend, if_neg hwell]
    refine Eq.trans ?_ (if_neg hceil).symm
    cases if prevHi < (strtoull line).1 then insertMa ans list prevHi (strtoull line).1 else some list <;> rfl

/-- The bounds of a region are read off its line. -/
theorem LineOf.read {line : List Char} {r : MemArea} (h : LineOf line r) (hpos : 0 < r.lo)
    (hlt : r.lo < r.hi) (htop : r.hi < 2 ^ 64) : ¬ Malformed line ∧ regionOf line = r := by
  obtain ⟨lo, hi, rest, rfl, hlo, hhi, -, -⟩ := h
  have hstart : strtoull (lo ++ '-' :: (hi ++ ' ' :: (rest ++ ['\n']))) =
      (r.lo, '-' :: (hi ++ ' ' :: (rest ++ ['\n']))) := strtoull_append hlo (hlt.trans htop) rfl (by decide)
  have hend : strtoull (hi ++ ' ' :: (rest ++ ['\n'])) = (r.hi, ' ' :: (rest ++ ['\n'])) :=
    strtoull_append hhi htop rfl (by decide)
  have hzero : r.lo ≠ 0 := hpos.ne'
  have hzero' : r.hi ≠ 0 := (hpos.trans hlt).ne'
  constructor
  · simp [Malformed, hstart, hend, hzero, hzero']
  · rw [regionOf, hstart, List.tail_cons, hend]

/-- What is read of the contents of the file for these regions. -/
theorem MapsOf.read {maps : List Char} {rs : List MemArea} (hrs : RegionsOk rs) (hmaps : MapsOf maps rs) :
    (∀ line ∈ fgets 8191 [] maps, ¬ Malformed line) ∧ (fgets 8191 [] maps).map regionOf = rs := by
  obtain ⟨lines, rfl, hlines⟩ := hmaps
  rw [fgets_flatten hlines]
  induction hlines with
  | nil => exact ⟨fun _ hc ↦ (nomatch hc), rfl⟩
  | @cons line r lines rs hline _ ih =>
      have hr : r ∈ r :: rs := List.mem_cons_self
      obtain ⟨hwell, hregion⟩ := hline.read (hrs.pos r hr) (hrs.lt r hr) (hrs.top r hr)
      obtain ⟨hrest, hmap⟩ := ih hrs.tail
      exact ⟨List.forall_mem_cons.mpr ⟨hwell, hrest⟩, by rw [List.map_cons, hregion, hmap]⟩

/-! ## The parts of `setup_memory` -/

/-- The list of gaps when `setup_memory` begins to select; `none` if it has left before. -/
def gapList (ans : SetupAnswers) (maps : List Char) : Option (List MemArea) :=
  match scanMaps ans (fgets 8191 [] maps) areaBase [] with
  | none => none
  | some (prevHi, list) => if prevHi < areaCeil then insertMa ans list prevHi areaCeil else some list

/-- `target_lo` and `target_hi`, if a gap is large enough. -/
def target (list : List MemArea) (min : Nat) : Option (Nat × Nat) :=
  (list.find? fun a ↦ min ≤ a.hi - a.lo).map fun a ↦
    (align16 (if min < a.hi - a.lo then a.hi - min else a.lo), align16 a.hi)

/-- The areas that `reserve_all` passes to `mmap`. -/
def reserved (list : List MemArea) (lo hi : Nat) : List MemArea := list.filter fun a ↦ hi ≤ a.lo ∨ a.hi ≤ lo

theorem reserveAll_eq (ans : SetupAnswers) (list : List MemArea) (lo hi : Nat) :
    reserveAll ans list lo hi = (reserved list lo hi).all ans.mmap := by
  rw [reserveAll, reserved, List.all_filter]
  refine List.all_congr rfl fun a ↦ ?_
  by_cases h : hi ≤ a.lo ∨ a.hi ≤ lo
  · rw [if_pos h, decide_eq_true h, Bool.not_true, Bool.false_or]
  · rw [if_neg h, decide_eq_false h, Bool.not_false, Bool.true_or]

theorem setupMemory_eq (ans : SetupAnswers) (maps : List Char) (min : Nat) :
    setupMemory ans maps min =
      if ans.fopen then
        if ans.line then
          match gapList ans maps with
          | none => ⟨ans.junk, none⟩
          | some list =>
              match target list min with
              | none => ⟨false, none⟩
              | some (lo, hi) => if reserveAll ans list lo hi then ⟨true, some (lo, hi)⟩ else ⟨false, none⟩
        else ⟨ans.junk, none⟩
      else ⟨false, none⟩ := by
  unfold setupMemory gapList target
  cases scanMaps ans (fgets 8191 [] maps) areaBase [] with
  | none => rfl
  | some r =>
      obtain ⟨prevHi, list⟩ := r
      simp only
      cases if prevHi < areaCeil then insertMa ans list prevHi areaCeil else some list with
      | none => rfl
      | some list' =>
          simp only
          cases list'.find? fun a ↦ min ≤ a.hi - a.lo <;> rfl

section Calls

variable {ans : SetupAnswers} {maps : List Char} {list : List MemArea} {min lo hi : Nat}

theorem reserveAll_iff : reserveAll ans list lo hi = true ↔ ∀ g ∈ reserved list lo hi, ans.mmap g = true := by
  rw [reserveAll_eq, List.all_eq_true]

/-- An area is selected from the list, and everything else is reserved. -/
theorem setupMemory_reserved (hfp : ans.fopen = true) (hline : ans.line = true) (hlist : gapList ans maps = some list)
    (htarget : target list min = some (lo, hi)) (hres : ∀ g ∈ reserved list lo hi, ans.mmap g = true) :
    setupMemory ans maps min = ⟨true, some (lo, hi)⟩ := by
  rw [setupMemory_eq, if_pos hfp, if_pos hline, hlist]
  simp only [htarget]
  rw [if_pos (reserveAll_iff.mpr hres)]

/-- No area is selected, or a reservation fails. -/
theorem setupMemory_missing (hfp : ans.fopen = true) (hline : ans.line = true) (hlist : gapList ans maps = some list)
    (h : ∀ lo hi, target list min = some (lo, hi) → ∃ g ∈ reserved list lo hi, ans.mmap g = false) :
    setupMemory ans maps min = ⟨false, none⟩ := by
  rw [setupMemory_eq, if_pos hfp, if_pos hline, hlist]
  simp only
  cases htarget : target list min with
  | none => rfl
  | some t =>
      obtain ⟨g, hg, hfail⟩ := h t.1 t.2 htarget
      refine if_neg fun hc ↦ ?_
      rw [reserveAll_iff.mp hc g hg] at hfail
      cases hfail

/-- Once the list is complete, 0 is returned if an area is selected and everything else is reserved. -/
theorem setupMemory_gapList (hfp : ans.fopen = true) (hline : ans.line = true)
    (hlist : gapList ans maps = some list) :
    setupMemory ans maps min = ⟨false, none⟩ ∧
      (∀ lo hi, target list min = some (lo, hi) → ∃ g ∈ reserved list lo hi, ans.mmap g = false) ∨
    ∃ lo hi, setupMemory ans maps min = ⟨true, some (lo, hi)⟩ ∧ target list min = some (lo, hi) ∧
      ∀ g ∈ reserved list lo hi, ans.mmap g = true := by
  by_cases h : ∀ lo hi, target list min = some (lo, hi) → ∃ g ∈ reserved list lo hi, ans.mmap g = false
  · exact .inl ⟨setupMemory_missing hfp hline hlist h, h⟩
  · simp only [not_forall, not_exists, not_and, Bool.not_eq_false] at h
    obtain ⟨lo, hi, htarget, hres⟩ := h
    exact .inr ⟨lo, hi, setupMemory_reserved hfp hline hlist htarget hres, htarget, hres⟩

/-- An area is only selected from a complete list. -/
theorem setupMemory_area (h : (setupMemory ans maps min).area = some (lo, hi)) :
    ∃ list, gapList ans maps = some list ∧ target list min = some (lo, hi) := by
  cases hlist : gapList ans maps with
  | none =>
      rw [setupMemory_eq, hlist] at h
      split_ifs at h
  | some list =>
      refine ⟨list, rfl, ?_⟩
      by_cases hcall : ans.fopen = true ∧ ans.line = true
      · rcases setupMemory_gapList hcall.1 hcall.2 hlist with ⟨hres, -⟩ | ⟨lo', hi', hres, htarget, -⟩
        · rw [hres] at h
          cases h
        · rw [hres] at h
          exact htarget.trans h
      · rw [setupMemory_eq] at h
        by_cases hfp : ans.fopen = true
        · rw [if_pos hfp, if_neg fun hc ↦ hcall ⟨hfp, hc⟩] at h
          cases h
        · rw [if_neg hfp] at h
          cases h

end Calls

/-! ## What the list is -/

/-- The loop over the regions, with all memory it asks for. -/
def scanRegions : List MemArea → Nat → List MemArea → Nat × List MemArea
  | [], prevHi, list => (prevHi, list)
  | r :: rs, prevHi, list =>
      if areaCeil < r.lo then scanRegions rs prevHi list
      else
        scanRegions rs (if prevHi < r.hi then r.hi else prevHi)
          (if prevHi < r.lo then ⟨prevHi, r.lo⟩ :: list else list)

/-- The gaps that the regions leave, the highest first. -/
def gaps (rs : List MemArea) : List MemArea :=
  if (scanRegions rs areaBase []).1 < areaCeil then
    ⟨(scanRegions rs areaBase []).1, areaCeil⟩ :: (scanRegions rs areaBase []).2
  else (scanRegions rs areaBase []).2

section Scan

variable {ans : SetupAnswers} {rs : List MemArea} {list : List MemArea} {prevHi : Nat}

theorem length_le_scanRegions : list.length ≤ (scanRegions rs prevHi list).2.length := by
  induction rs generalizing prevHi list with
  | nil => exact le_rfl
  | cons r rs ih =>
      have hcons : ∀ top, list.length ≤ (scanRegions rs top (⟨prevHi, r.lo⟩ :: list)).2.length := by
        intro top
        have h : (⟨prevHi, r.lo⟩ :: list).length ≤ (scanRegions rs top (⟨prevHi, r.lo⟩ :: list)).2.length := ih
        exact Nat.le_of_succ_le h
      rw [scanRegions]
      split_ifs
      · exact ih
      · exact hcons _
      · exact ih
      · exact hcons _
      · exact ih

/-- The insertion of a gap, if there is one. -/
theorem insertMa_gap_eq {lo : Nat} (h : prevHi < lo → ans.malloc list.length = true) :
    (if prevHi < lo then insertMa ans list prevHi lo else some list) =
      some (if prevHi < lo then ⟨prevHi, lo⟩ :: list else list) := by
  by_cases hgap : prevHi < lo
  · rw [if_pos hgap, if_pos hgap, insertMa, if_pos (h hgap)]
  · rw [if_neg hgap, if_neg hgap]

/-- If no line is malformed and no `malloc` fails, the loop over the lines is the loop over the regions; -/
theorem scanMaps_eq {lines : List (List Char)} (hwell : ∀ line ∈ lines, ¬ Malformed line)
    (h : ∀ k, list.length ≤ k → k < (scanRegions (lines.map regionOf) prevHi list).2.length →
      ans.malloc k = true) :
    scanMaps ans lines prevHi list = some (scanRegions (lines.map regionOf) prevHi list) := by
  induction lines generalizing prevHi list with
  | nil => rfl
  | cons line lines ih =>
      obtain ⟨hline, hlines⟩ := List.forall_mem_cons.mp hwell
      rw [scanMaps_cons, if_neg hline, List.map_cons, scanRegions]
      rw [List.map_cons, scanRegions] at h
      by_cases hceil : areaCeil < (regionOf line).lo
      · simp only [if_pos hceil] at h ⊢
        exact ih hlines h
      · simp only [if_neg hceil] at h ⊢
        rw [insertMa_gap_eq fun hgap ↦ h _ le_rfl ?_]
        · refine ih hlines fun k hk ↦ h k ?_
          by_cases hgap : prevHi < (regionOf line).lo
          · rw [if_pos hgap] at hk
            exact (Nat.le_succ _).trans hk
          · rwa [if_neg hgap] at hk
        · have hcons : (⟨prevHi, (regionOf line).lo⟩ :: list).length ≤
              (scanRegions (lines.map regionOf) (if prevHi < (regionOf line).hi then (regionOf line).hi else prevHi)
                (⟨prevHi, (regionOf line).lo⟩ :: list)).2.length := length_le_scanRegions
          rw [if_pos hgap]
          exact hcons

/-- if a line is, the loop is left, -/
theorem scanMaps_malformed {lines : List (List Char)} (hbad : ∃ line ∈ lines, Malformed line) :
    scanMaps ans lines prevHi list = none := by
  induction lines generalizing prevHi list with
  | nil =>
      obtain ⟨_, hc, -⟩ := hbad
      cases hc
  | cons line lines ih =>
      rw [scanMaps_cons]
      by_cases hline : Malformed line
      · rw [if_pos hline]
      obtain ⟨bad, hmem, hbad⟩ := hbad
      have hrest : ∃ bad ∈ lines, Malformed bad := by
        refine ⟨bad, (List.mem_cons.mp hmem).resolve_left ?_, hbad⟩
        rintro rfl
        exact hline hbad
      rw [if_neg hline]
      split
      · exact ih hrest
      · split
        · rfl
        · exact ih hrest

/-- and if a `malloc` fails, too. -/
theorem scanMaps_eq_none {lines : List (List Char)} {k : Nat} (hk : list.length ≤ k)
    (hlt : k < (scanRegions (lines.map regionOf) prevHi list).2.length) (hfail : ans.malloc k = false) :
    scanMaps ans lines prevHi list = none := by
  induction lines generalizing prevHi list with
  | nil => exact absurd hlt (not_lt.mpr hk)
  | cons line lines ih =>
      rw [scanMaps_cons]
      rw [List.map_cons, scanRegions] at hlt
      by_cases hline : Malformed line
      · rw [if_pos hline]
      rw [if_neg hline]
      by_cases hceil : areaCeil < (regionOf line).lo
      · rw [if_pos hceil] at hlt ⊢
        exact ih hk hlt
      · rw [if_neg hceil] at hlt ⊢
        by_cases hgap : prevHi < (regionOf line).lo
        · rw [if_pos hgap] at hlt ⊢
          rw [insertMa]
          by_cases hhere : ans.malloc list.length = true
          · rw [if_pos hhere]
            have hne : list.length ≠ k := fun hc ↦ by simp [hc, hfail] at hhere
            exact ih (Nat.lt_of_le_of_ne hk hne) hlt
          · rw [if_neg hhere]
        · rw [if_neg hgap] at hlt ⊢
          exact ih hk hlt

/-- The gaps between the regions that are read. -/
def gapsRead (maps : List Char) : List MemArea := gaps ((fgets 8191 [] maps).map regionOf)

/-- **The list that is built** holds the gaps, for any contents of the file; -/
theorem gapList_eq_some {maps : List Char} (hwell : ∀ line ∈ fgets 8191 [] maps, ¬ Malformed line)
    (h : ∀ k < (gapsRead maps).length, ans.malloc k = true) : gapList ans maps = some (gapsRead maps) := by
  have hlen : (scanRegions ((fgets 8191 [] maps).map regionOf) areaBase []).2.length ≤
      (gapsRead maps).length := by
    unfold gapsRead gaps
    split_ifs
    · exact Nat.le_succ _
    · exact le_rfl
  rw [gapList, scanMaps_eq hwell fun k _ hk ↦ h k (lt_of_lt_of_le hk hlen)]
  refine insertMa_gap_eq fun hgap ↦ h _ ?_
  rw [gapsRead, gaps, if_pos hgap]
  exact Nat.lt_succ_self _

/-- unless a line is malformed or a `malloc` fails. -/
theorem gapList_eq_none {maps : List Char} (h : (∃ line ∈ fgets 8191 [] maps, Malformed line) ∨
    ∃ k < (gapsRead maps).length, ans.malloc k = false) : gapList ans maps = none := by
  unfold gapList
  by_cases hbad : ∃ line ∈ fgets 8191 [] maps, Malformed line
  · rw [scanMaps_malformed hbad]
  obtain ⟨k, hk, hfail⟩ := h.resolve_left hbad
  have hwell : ∀ line ∈ fgets 8191 [] maps, ¬ Malformed line := fun line hline hc ↦ hbad ⟨line, hline, hc⟩
  by_cases hscan : ∀ k, ([] : List MemArea).length ≤ k →
      k < (scanRegions ((fgets 8191 [] maps).map regionOf) areaBase []).2.length → ans.malloc k = true
  · -- the last gap is the one that is missing
    rw [scanMaps_eq hwell hscan]
    have hge : (scanRegions ((fgets 8191 [] maps).map regionOf) areaBase []).2.length ≤ k :=
      not_lt.mp fun hc ↦ by simp [hscan k (Nat.zero_le k) hc] at hfail
    rw [gapsRead, gaps] at hk
    by_cases hgap : (scanRegions ((fgets 8191 [] maps).map regionOf) areaBase []).1 < areaCeil
    · rw [if_pos hgap] at hk
      obtain rfl : (scanRegions ((fgets 8191 [] maps).map regionOf) areaBase []).2.length = k :=
        le_antisymm hge (Nat.le_of_lt_succ hk)
      simp only [if_pos hgap, insertMa, hfail, Bool.false_eq_true, if_false]
    · rw [if_neg hgap] at hk
      exact absurd hk (not_lt.mpr hge)
  · obtain ⟨k', hk'⟩ := not_forall.mp hscan
    simp only [Classical.not_imp, Bool.not_eq_true] at hk'
    rw [scanMaps_eq_none hk'.1 hk'.2.1 hk'.2.2]

/-- The same for the contents of the file for these regions. -/
theorem gapList_eq (hrs : RegionsOk rs) {maps : List Char} (hmaps : MapsOf maps rs) :
    ((∀ k < (gaps rs).length, ans.malloc k = true) → gapList ans maps = some (gaps rs)) ∧
    ((∃ k < (gaps rs).length, ans.malloc k = false) → gapList ans maps = none) := by
  obtain ⟨hwell, hread⟩ := hmaps.read hrs
  have hgaps : gapsRead maps = gaps rs := by rw [gapsRead, hread]
  rw [← hgaps]
  exact ⟨gapList_eq_some hwell, fun h ↦ gapList_eq_none (.inr h)⟩

end Scan

/-! ## The complement -/

/-- The address lies in the area. -/
def MemArea.Has (r : MemArea) (a : Nat) : Prop := r.lo ≤ a ∧ a < r.hi

/-- The gaps are intervals between `BASE` and `top`, in descending order, and have exactly the addresses from
`BASE` up to `top` that no region has. -/
structure Complement (rs : List MemArea) (top : Nat) (list : List MemArea) : Prop where
  ok : ∀ g ∈ list, g.Ok ∧ g.hi ≤ top
  descending : list.Pairwise fun g g' ↦ g'.hi ≤ g.lo
  cover : ∀ a, areaBase ≤ a → a < top → ((∃ g ∈ list, g.Has a) ↔ ∀ r ∈ rs, ¬ r.Has a)
  /-- A gap begins and ends where a region or the band between `BASE` and `CEIL` ends or begins. -/
  lo : ∀ g ∈ list, g.lo = areaBase ∨ ∃ r ∈ rs, r.hi = g.lo
  hi : ∀ g ∈ list, g.hi = areaCeil ∨ ∃ r ∈ rs, r.lo = g.hi

namespace Complement

variable {rs : List MemArea} {top : Nat} {list : List MemArea}

/-- The gap up to `lo` is added. -/
theorem insert {lo : Nat} (h : Complement rs top list) (hbase : areaBase ≤ top) (hlt : top < lo)
    (hceil : lo ≤ areaCeil) (hfree : ∀ a, top ≤ a → a < lo → ∀ r ∈ rs, ¬ r.Has a)
    (htop : top = areaBase ∨ ∃ r ∈ rs, r.hi = top) (hlo : lo = areaCeil ∨ ∃ r ∈ rs, r.lo = lo) :
    Complement rs lo (⟨top, lo⟩ :: list) := by
  refine ⟨?_, ?_, fun a ha hlt' ↦ ?_, ?_, ?_⟩
  · exact List.forall_mem_cons.mpr ⟨⟨⟨hbase, hlt, hceil⟩, le_rfl⟩,
      fun g hg ↦ ⟨(h.ok g hg).1, (h.ok g hg).2.trans hlt.le⟩⟩
  · exact List.pairwise_cons.mpr ⟨fun g hg ↦ (h.ok g hg).2, h.descending⟩
  · rcases Nat.lt_or_ge a top with hbelow | habove
    · rw [← h.cover a ha hbelow]
      constructor
      · rintro ⟨g, hg, hga⟩
        rcases List.mem_cons.mp hg with rfl | hg
        · exact absurd hga.1 (not_le.mpr hbelow)
        · exact ⟨g, hg, hga⟩
      · rintro ⟨g, hg, hga⟩
        exact ⟨g, List.mem_cons_of_mem _ hg, hga⟩
    · exact ⟨fun _ ↦ hfree a habove hlt', fun _ ↦ ⟨⟨top, lo⟩, List.mem_cons_self, habove, hlt'⟩⟩
  · exact List.forall_mem_cons.mpr ⟨htop, h.lo⟩
  · exact List.forall_mem_cons.mpr ⟨hlo, h.hi⟩

/-- A region that begins at or below `top` is passed. -/
theorem pass {r : MemArea} {top' : Nat} (h : Complement rs top list) (hr : r ∈ rs) (hlo : r.lo ≤ top)
    (hle : top ≤ top') (hhi : top' = top ∨ top' = r.hi) : Complement rs top' list := by
  refine ⟨fun g hg ↦ ⟨(h.ok g hg).1, (h.ok g hg).2.trans hle⟩, h.descending, fun a ha hlt ↦ ?_, h.lo, h.hi⟩
  rcases Nat.lt_or_ge a top with hbelow | habove
  · exact h.cover a ha hbelow
  · rcases hhi with rfl | rfl
    · exact absurd hlt (not_lt.mpr habove)
    · constructor
      · rintro ⟨g, hg, hga⟩
        exact absurd hga.2 (not_lt.mpr ((h.ok g hg).2.trans habove))
      · intro hnot
        exact absurd ⟨hlo.trans habove, hlt⟩ (hnot r hr)

end Complement

/-- Where the loop stands: `rest` are the regions still to come, and `prevHi` is `BASE` or the end of the last
region that was passed. -/
structure Scanned (rs rest : List MemArea) (prevHi : Nat) (list : List MemArea) : Prop where
  complement : Complement rs prevHi list
  base : areaBase ≤ prevHi
  top : prevHi = areaBase ∨ ∃ r ∈ rs, r.hi = prevHi
  sub : ∀ r ∈ rest, r ∈ rs
  seen : ∀ r ∈ rs, r ∈ rest ∨ r.hi ≤ prevHi ∨ areaCeil < r.lo
  next : ∀ r ∈ rest, prevHi = areaBase ∨ prevHi ≤ r.lo

namespace Scanned

variable {rs rest : List MemArea} {prevHi : Nat} {list : List MemArea} {r : MemArea}

theorem init (rs : List MemArea) : Scanned rs rs areaBase [] where
  complement := ⟨by simp, List.Pairwise.nil, fun a ha hlt ↦ absurd hlt (not_lt.mpr ha), by simp, by simp⟩
  base := le_rfl
  top := .inl rfl
  sub _ hr := hr
  seen _ hr := .inl hr
  next _ _ := .inl rfl

/-- A region above `CEIL` is skipped. -/
theorem skip (h : Scanned rs (r :: rest) prevHi list) (hceil : areaCeil < r.lo) : Scanned rs rest prevHi list where
  complement := h.complement
  base := h.base
  top := h.top
  sub q hq := h.sub q (List.mem_cons_of_mem _ hq)
  seen q hq := by
    rcases h.seen q hq with hmem | hor
    · rcases List.mem_cons.mp hmem with rfl | hmem
      · exact .inr (.inr hceil)
      · exact .inl hmem
    · exact .inr hor
  next q hq := h.next q (List.mem_cons_of_mem _ hq)

/-- No region has an address between `prevHi` and the next region. -/
theorem free (h : Scanned rs (r :: rest) prevHi list) (hrest : RegionsOk (r :: rest)) (hceil : r.lo ≤ areaCeil)
    {a : Nat} (ha : prevHi ≤ a) (hlt : a < r.lo) : ∀ q ∈ rs, ¬ q.Has a := by
  rintro q hq ⟨hlo, hhi⟩
  rcases h.seen q hq with hmem | hle | habove
  · rcases List.mem_cons.mp hmem with rfl | hmem
    · exact absurd hlo (not_le.mpr hlt)
    · have hsorted : r.hi ≤ q.lo := List.rel_of_pairwise_cons hrest.sorted hmem
      have hr := hrest.lt r List.mem_cons_self
      omega
  · exact absurd hhi (not_lt.mpr (hle.trans ha))
  · omega

/-- A region that starts at or below `CEIL` is passed. -/
theorem region (h : Scanned rs (r :: rest) prevHi list) (hrest : RegionsOk (r :: rest)) (hceil : r.lo ≤ areaCeil) :
    Scanned rs rest (if prevHi < r.hi then r.hi else prevHi)
      (if prevHi < r.lo then ⟨prevHi, r.lo⟩ :: list else list) := by
  have hr : r ∈ rs := h.sub r List.mem_cons_self
  have hlt := hrest.lt r List.mem_cons_self
  have hle : prevHi ≤ if prevHi < r.hi then r.hi else prevHi := by
    split_ifs with hgt
    · exact hgt.le
    · exact le_rfl
  have htop : (if prevHi < r.hi then r.hi else prevHi) = prevHi ∨
      (if prevHi < r.hi then r.hi else prevHi) = r.hi := by
    split_ifs
    · exact .inr rfl
    · exact .inl rfl
  have hge : r.hi ≤ if prevHi < r.hi then r.hi else prevHi := by
    split_ifs with hgt
    · exact le_rfl
    · exact not_lt.mp hgt
  refine ⟨?_, h.base.trans hle, ?_, fun q hq ↦ h.sub q (List.mem_cons_of_mem _ hq), fun q hq ↦ ?_, fun q hq ↦ ?_⟩
  · by_cases hgap : prevHi < r.lo
    · rw [if_pos hgap]
      have hins := h.complement.insert h.base hgap hceil (fun a ha hlt' ↦ h.free hrest hceil ha hlt') h.top
        (.inr ⟨r, hr, rfl⟩)
      refine hins.pass hr le_rfl (hlt.le.trans hge) (.inr ?_)
      rw [if_pos (hgap.trans hlt)]
    · rw [if_neg hgap]
      exact h.complement.pass hr (not_lt.mp hgap) hle htop
  · rcases htop with heq | heq
    · rw [heq]
      exact h.top
    · exact .inr ⟨r, hr, heq.symm⟩
  · rcases h.seen q hq with hmem | hor | hor
    · rcases List.mem_cons.mp hmem with rfl | hmem
      · exact .inr (.inl hge)
      · exact .inl hmem
    · exact .inr (.inl (hor.trans hle))
    · exact .inr (.inr hor)
  · have hsorted : r.hi ≤ q.lo := List.rel_of_pairwise_cons hrest.sorted hq
    rcases htop with heq | heq
    · rw [heq]
      exact h.next q (List.mem_cons_of_mem _ hq)
    · rw [heq]
      exact .inr hsorted

theorem run (h : Scanned rs rest prevHi list) (hrest : RegionsOk rest) :
    Scanned rs [] (scanRegions rest prevHi list).1 (scanRegions rest prevHi list).2 := by
  induction rest generalizing prevHi list with
  | nil => exact h
  | cons r rest ih =>
      rw [scanRegions]
      by_cases hceil : areaCeil < r.lo
      · rw [if_pos hceil]
        exact ih (h.skip hceil) hrest.tail
      · rw [if_neg hceil]
        exact ih (h.region hrest (not_lt.mp hceil)) hrest.tail

end Scanned

/-- **The gaps are the complement of the regions.** -/
theorem complement_gaps {rs : List MemArea} (hrs : RegionsOk rs) : Complement rs areaCeil (gaps rs) := by
  have h := (Scanned.init rs).run hrs
  unfold gaps
  by_cases hgap : (scanRegions rs areaBase []).1 < areaCeil
  · rw [if_pos hgap]
    refine h.complement.insert h.base hgap le_rfl (fun a ha hlt q hq hqa ↦ ?_) h.top (.inl rfl)
    rcases h.seen q hq with hmem | hle | habove
    · cases hmem
    · exact absurd hqa.2 (not_lt.mpr (hle.trans ha))
    · exact absurd hqa.1 (not_le.mpr (hlt.trans habove))
  · rw [if_neg hgap]
    exact ⟨fun g hg ↦ ⟨(h.complement.ok g hg).1, (h.complement.ok g hg).1.ceil⟩, h.complement.descending,
      fun a ha hlt ↦ h.complement.cover a ha (lt_of_lt_of_le hlt (not_lt.mp hgap)), h.complement.lo,
      h.complement.hi⟩

/-! ## The target area and the reservations -/

/-- What is known of the selected area: it lies in the first gap that is large enough, at its end but for the
rounding. -/
theorem target_spec {list : List MemArea} {min lo hi : Nat} (h : target list min = some (lo, hi)) :
    ∃ as g bs, list = as ++ g :: bs ∧ (∀ g' ∈ as, ¬ min ≤ g'.hi - g'.lo) ∧ min ≤ g.hi - g.lo ∧
      lo = align16 (if min < g.hi - g.lo then g.hi - min else g.lo) ∧ hi = align16 g.hi := by
  obtain ⟨g, hfind, heq⟩ := Option.map_eq_some_iff.mp h
  obtain ⟨hmin, as, bs, hlist, has⟩ := List.find?_eq_some_iff_append.mp hfind
  obtain ⟨hlo, hhi⟩ := Prod.mk.inj heq
  exact ⟨as, g, bs, hlist, fun g' hg' ↦ by simpa using has g' hg', of_decide_eq_true hmin, hlo.symm, hhi.symm⟩

/-- The length that `mmap` is asked for, in whole pages. -/
def pageUp (n : Nat) : Nat := (n + 4095) / 4096 * 4096

/-- The range that `mmap` maps for an area. -/
def MemArea.pages (a : MemArea) : MemArea := ⟨a.lo, a.lo + pageUp (a.hi - a.lo)⟩

/-- The areas have no address in common. -/
def MemArea.Apart (a b : MemArea) : Prop := ∀ x, a.Has x → ¬ b.Has x

namespace Complement

variable {rs : List MemArea} {list : List MemArea} {g : MemArea}

/-- Gaps begin at page boundaries, -/
theorem aligned_lo (h : Complement rs areaCeil list) (hrs : RegionsOk rs) (hg : g ∈ list) : 4096 ∣ g.lo := by
  rcases h.lo g hg with heq | ⟨r, hr, heq⟩
  · rw [heq]
    decide
  · rw [← heq]
    exact (hrs.aligned r hr).2

/-- and end there or at `CEIL`. -/
theorem aligned_hi (h : Complement rs areaCeil list) (hrs : RegionsOk rs) (hg : g ∈ list) :
    g.hi = areaCeil ∨ 4096 ∣ g.hi := by
  rcases h.hi g hg with heq | ⟨r, hr, heq⟩
  · exact .inl heq
  · rw [← heq]
    exact .inr (hrs.aligned r hr).1

/-- No region reaches into a gap. -/
theorem apart (h : Complement rs areaCeil list) (hg : g ∈ list) {r : MemArea} (hr : r ∈ rs) : g.Apart r := by
  intro x hx
  have hok := (h.ok g hg).1
  exact (h.cover x (hok.base.trans hx.1) (lt_of_lt_of_le hx.2 hok.ceil)).mp ⟨g, hg, hx⟩ r hr

/-- The mapped range ends with the gap, unless that is the one at the top. -/
theorem pages_hi (h : Complement rs areaCeil list) (hrs : RegionsOk rs) (hg : g ∈ list) :
    g.pages.hi = g.hi ∨ (g.hi = areaCeil ∧ g.pages.hi = areaCeil + 1) := by
  have hlo := h.aligned_lo hrs hg
  have hlt := (h.ok g hg).1.lt
  have hceil : areaCeil = 0x7fffffffffff := rfl
  show g.lo + (g.hi - g.lo + 4095) / 4096 * 4096 = g.hi ∨ _ ∧ g.lo + (g.hi - g.lo + 4095) / 4096 * 4096 = _
  rcases h.aligned_hi hrs hg with heq | hhi
  · right
    rw [heq] at hlt ⊢
    omega
  · left
    omega

/-- The pages of a gap hold no address of a region. -/
theorem pages_apart (h : Complement rs areaCeil list) (hrs : RegionsOk rs) (hg : g ∈ list) {r : MemArea}
    (hr : r ∈ rs) : g.pages.Apart r := by
  rintro x ⟨hxlo, hxhi⟩ hxr
  rcases Nat.lt_or_ge x g.hi with hlt | hge
  · exact h.apart hg hr x ⟨hxlo, hlt⟩ hxr
  · rcases h.pages_hi hrs hg with heq | ⟨htop, heq⟩
    · exact absurd hxhi (by rw [heq]; exact not_lt.mpr hge)
    · -- a region with the last address of the band has one below `CEIL`
      have hlt := (h.ok g hg).1.lt
      have hal := (hrs.aligned r hr).1
      have hceil : areaCeil = 0x7fffffffffff := rfl
      have hr₁ : r.lo ≤ x := hxr.1
      have hr₂ : x < r.hi := hxr.2
      refine h.apart hg hr (max g.lo r.lo) ⟨le_max_left _ _, ?_⟩ ⟨le_max_right _ _, ?_⟩
      · rw [max_lt_iff]
        omega
      · rw [max_lt_iff]
        omega

end Complement

section Target

variable {rs : List MemArea} {min lo hi : Nat}

/-- The selected area lies in its gap. -/
theorem target_inside (hrs : RegionsOk rs) (h : target (gaps rs) min = some (lo, hi)) :
    ∃ g ∈ gaps rs, g.lo ≤ lo ∧ hi ≤ g.hi := by
  obtain ⟨as, g, bs, hlist, -, -, rfl, rfl⟩ := target_spec h
  have hg : g ∈ gaps rs := by rw [hlist]; simp
  have hlt := ((complement_gaps hrs).ok g hg).1.lt
  have hal := (complement_gaps hrs).aligned_lo hrs hg
  refine ⟨g, hg, le_align16 (by omega) ?_, align16_le _⟩
  split_ifs
  · omega
  · exact le_rfl

/-- It has no address of a region, -/
theorem target_apart (hrs : RegionsOk rs) (h : target (gaps rs) min = some (lo, hi)) {r : MemArea} (hr : r ∈ rs) :
    MemArea.Apart ⟨lo, hi⟩ r := by
  obtain ⟨g, hg, hlo, hhi⟩ := target_inside hrs h
  exact fun x hx ↦ (complement_gaps hrs).apart hg hr x ⟨hlo.trans hx.1, lt_of_lt_of_le hx.2 hhi⟩

/-- and none of a reservation. -/
theorem reserved_apart (hrs : RegionsOk rs) (h : target (gaps rs) min = some (lo, hi)) {g : MemArea}
    (hg : g ∈ reserved (gaps rs) lo hi) : g.pages.Apart ⟨lo, hi⟩ := by
  obtain ⟨g', hg', hlo, hhi⟩ := target_inside hrs h
  obtain ⟨hmem, hcond⟩ := List.mem_filter.mp hg
  rintro x ⟨hx₁, hx₂⟩ ⟨hx₃, hx₄⟩
  have hx₁ : g.lo ≤ x := hx₁
  have hx₃ : lo ≤ x := hx₃
  have hx₄ : x < hi := hx₄
  have hceil := ((complement_gaps hrs).ok g' hg').1.ceil
  rcases of_decide_eq_true hcond with hle | hle
  · omega
  · rcases (complement_gaps hrs).pages_hi hrs hmem with heq | ⟨htop, -⟩
    · rw [heq] at hx₂
      omega
    · omega

end Target

/-- Every address from `BASE` up to `CEIL` is in exactly one region or in exactly one of the intervals, which are
in descending order. -/
structure ExactComplement (rs list : List MemArea) : Prop where
  inside : ∀ g ∈ list, areaBase ≤ g.lo ∧ g.lo < g.hi ∧ g.hi ≤ areaCeil
  descending : list.Pairwise fun g g' ↦ g'.hi ≤ g.lo
  exact_ : ∀ a, areaBase ≤ a → a < areaCeil →
    ((∃! r, r ∈ rs ∧ r.Has a) ∧ ∀ g ∈ list, ¬ g.Has a) ∨ ((∃! g, g ∈ list ∧ g.Has a) ∧ ∀ r ∈ rs, ¬ r.Has a)

/-- In a list of intervals that do not overlap, an address is in one at most. -/
theorem eq_of_has {l : List MemArea} (h : l.Pairwise fun u v ↦ u.hi ≤ v.lo ∨ v.hi ≤ u.lo) {u v : MemArea} {a : Nat}
    (hu : u ∈ l) (hv : v ∈ l) (hua : u.Has a) (hva : v.Has a) : u = v := by
  by_contra hne
  have hsymm : Std.Symm fun u v : MemArea ↦ u.hi ≤ v.lo ∨ v.hi ≤ u.lo := ⟨fun _ _ ↦ Or.symm⟩
  obtain ⟨hu₁, hu₂⟩ := hua
  obtain ⟨hv₁, hv₂⟩ := hva
  rcases h.forall hu hv hne with hle | hle <;> omega

theorem exactComplement_gaps {rs : List MemArea} (hrs : RegionsOk rs) : ExactComplement rs (gaps rs) := by
  have h := complement_gaps hrs
  refine ⟨fun g hg ↦ ⟨(h.ok g hg).1.base, (h.ok g hg).1.lt, (h.ok g hg).1.ceil⟩, h.descending, fun a ha hlt ↦ ?_⟩
  by_cases hin : ∃ r ∈ rs, r.Has a
  · obtain ⟨r, hr, hra⟩ := hin
    refine .inl ⟨⟨r, ⟨hr, hra⟩, fun q hq ↦ ?_⟩, fun g hg hga ↦ h.apart hg hr a hga hra⟩
    exact eq_of_has (hrs.sorted.imp fun hle ↦ .inl hle) hq.1 hr hq.2 hra
  · have hnot : ∀ r ∈ rs, ¬ r.Has a := fun r hr hra ↦ hin ⟨r, hr, hra⟩
    obtain ⟨g, hg, hga⟩ := (h.cover a ha hlt).mpr hnot
    refine .inr ⟨⟨g, ⟨hg, hga⟩, fun q hq ↦ ?_⟩, hnot⟩
    exact eq_of_has (h.descending.imp fun hle ↦ .inr hle) hq.1 hg hq.2 hga

/-- The list that is there when `setup_memory` begins to select holds all gaps. -/
theorem gapList_eq_gaps {ans : SetupAnswers} {maps : List Char} {rs list : List MemArea} (hrs : RegionsOk rs)
    (hmaps : MapsOf maps rs) (h : gapList ans maps = some list) : list = gaps rs := by
  by_cases hall : ∀ k < (gaps rs).length, ans.malloc k = true
  · exact Option.some.inj (h.symm.trans ((gapList_eq hrs hmaps).1 hall))
  · obtain ⟨k, hk⟩ := not_forall.mp hall
    simp only [Classical.not_imp, Bool.not_eq_true] at hk
    rw [(gapList_eq hrs hmaps).2 ⟨k, hk⟩] at h
    cases h

/-- **Reservations overwrite no mapping.**  The list that is built is the complement of the regions; neither
the selected area nor what `reserve_all` maps, in whole pages, has an address of a region, and they have none
in common.  `setup_memory` works with these lists. -/
theorem setupMemory_apart {maps : List Char} {rs : List MemArea} (hrs : RegionsOk rs) (hmaps : MapsOf maps rs)
    (ans : SetupAnswers) :
    (∀ min, setupMemory ans maps min =
      if ans.fopen then
        if ans.line then
          match gapList ans maps with
          | none => ⟨ans.junk, none⟩
          | some list =>
              match target list min with
              | none => ⟨false, none⟩
              | some (lo, hi) => if reserveAll ans list lo hi then ⟨true, some (lo, hi)⟩ else ⟨false, none⟩
        else ⟨ans.junk, none⟩
      else ⟨false, none⟩) ∧
    (∀ list lo hi, reserveAll ans list lo hi = (reserved list lo hi).all ans.mmap) ∧
    ((∀ k, ans.malloc k = true) → gapList ans maps = some (gaps rs)) ∧
    (∀ min lo hi, (setupMemory ans maps min).area = some (lo, hi) →
      ∃ list, gapList ans maps = some list ∧ target list min = some (lo, hi)) ∧
    ∀ list, gapList ans maps = some list → ExactComplement rs list ∧
      ∀ min lo hi, target list min = some (lo, hi) → (∀ r ∈ rs, MemArea.Apart ⟨lo, hi⟩ r) ∧
        ∀ g ∈ reserved list lo hi, (∀ r ∈ rs, g.pages.Apart r) ∧ g.pages.Apart ⟨lo, hi⟩ := by
  refine ⟨setupMemory_eq ans maps, reserveAll_eq ans, fun h ↦ (gapList_eq hrs hmaps).1 fun k _ ↦ h k,
    fun min lo hi h ↦ setupMemory_area h, fun list hlist ↦ ?_⟩
  obtain rfl := gapList_eq_gaps hrs hmaps hlist
  refine ⟨exactComplement_gaps hrs, fun min lo hi htarget ↦ ⟨fun r hr ↦ target_apart hrs htarget hr, ?_⟩⟩
  exact fun g hg ↦ ⟨fun r hr ↦ (complement_gaps hrs).pages_apart hrs (List.mem_filter.mp hg).1 hr,
    reserved_apart hrs htarget hg⟩

/-- The regions of `mapsExample`. -/
def regionsExample : List MemArea := [⟨0x555555554000, 0x555555555000⟩, ⟨0x7ffffffde000, 0x7ffffffff000⟩]

theorem regionsOk_example : RegionsOk regionsExample := by
  refine ⟨by decide, by decide, by decide, by decide, ?_⟩
  simp [regionsExample]

theorem mapsOf_example : MapsOf mapsExample regionsExample := by
  refine ⟨["555555554000-555555555000 r--p 00000000 08:01 42 /bin/cat\n".toList,
    "7ffffffde000-7ffffffff000 rw-p 00000000 00:00 0 [stack]\n".toList], by decide +kernel, .cons ?_ (.cons ?_ .nil)⟩
  · exact ⟨"555555554000".toList, "555555555000".toList, "r--p 00000000 08:01 42 /bin/cat".toList,
      by decide +kernel, ⟨by decide, by decide⟩, ⟨by decide, by decide⟩, by decide, by decide⟩
  · exact ⟨"7ffffffde000".toList, "7ffffffff000".toList, "rw-p 00000000 00:00 0 [stack]".toList,
      by decide +kernel, ⟨by decide, by decide⟩, ⟨by decide, by decide⟩, by decide, by decide⟩

/-- The gap above the stack and the one below it. -/
theorem setupMemory_apart_stack : gapList .good mapsExample = some (gaps regionsExample) ∧
    gaps regionsExample = [⟨0x7ffffffff000, 0x7fffffffffff⟩, ⟨0x700000000000, 0x7ffffffde000⟩] ∧
    ExactComplement regionsExample (gaps regionsExample) := by
  obtain ⟨-, -, hbuilt, -, hlist⟩ := setupMemory_apart regionsOk_example mapsOf_example .good
  exact ⟨hbuilt fun _ ↦ rfl, by decide, (hlist _ (hbuilt fun _ ↦ rfl)).1⟩

/-! ## The choice -/

/-- A gap: a largest interval between `BASE` and `CEIL` that no region has an address of. -/
structure IsGap (rs : List MemArea) (g : MemArea) : Prop where
  ok : g.Ok
  free : ∀ r ∈ rs, g.Apart r
  left : g.lo = areaBase ∨ ∃ r ∈ rs, r.Has (g.lo - 1)
  right : g.hi = areaCeil ∨ ∃ r ∈ rs, r.Has g.hi

section Choice

variable {rs : List MemArea} {g g' : MemArea}

/-- Of two gaps with a common address neither begins or ends first. -/
theorem IsGap.le_of_has (h : IsGap rs g) (h' : IsGap rs g') {a : Nat} (ha : g.Has a) (ha' : g'.Has a) :
    g.lo ≤ g'.lo ∧ g'.hi ≤ g.hi := by
  obtain ⟨ha₁, ha₂⟩ := ha
  obtain ⟨ha₃, ha₄⟩ := ha'
  constructor
  · by_contra hlt
    rcases h.left with heq | ⟨r, hr, hra⟩
    · have hbase := h'.ok.base
      omega
    · exact h'.free r hr (g.lo - 1) ⟨by omega, by omega⟩ hra
  · by_contra hlt
    rcases h.right with heq | ⟨r, hr, hra⟩
    · have hceil := h'.ok.ceil
      omega
    · exact h'.free r hr g.hi ⟨by omega, by omega⟩ hra

theorem IsGap.eq_of_has (h : IsGap rs g) (h' : IsGap rs g') {a : Nat} (ha : g.Has a) (ha' : g'.Has a) : g = g' := by
  obtain ⟨hlo, hhi⟩ := h.le_of_has h' ha ha'
  obtain ⟨hlo', hhi'⟩ := h'.le_of_has h ha' ha
  cases g
  cases g'
  obtain rfl := le_antisymm hlo hlo'
  obtain rfl := le_antisymm hhi' hhi
  rfl

/-- **The list holds exactly the gaps.** -/
theorem mem_gaps_iff (hrs : RegionsOk rs) : g ∈ gaps rs ↔ IsGap rs g := by
  have h := complement_gaps hrs
  have hmem : ∀ q ∈ gaps rs, IsGap rs q := by
    intro q hq
    refine ⟨(h.ok q hq).1, fun r hr ↦ h.apart hq hr, ?_, ?_⟩
    · rcases h.lo q hq with heq | ⟨r, hr, heq⟩
      · exact .inl heq
      · have hlt := hrs.lt r hr
        exact .inr ⟨r, hr, by omega, by omega⟩
    · rcases h.hi q hq with heq | ⟨r, hr, heq⟩
      · exact .inl heq
      · exact .inr ⟨r, hr, heq.le, by rw [← heq]; exact hrs.lt r hr⟩
  refine ⟨hmem g, fun hg ↦ ?_⟩
  -- the first address of the gap is in a gap of the list
  have hlo : g.Has g.lo := ⟨le_rfl, hg.ok.lt⟩
  obtain ⟨q, hq, hqa⟩ := (h.cover g.lo hg.ok.base (lt_of_lt_of_le hg.ok.lt hg.ok.ceil)).mpr
    fun r hr ↦ hg.free r hr g.lo hlo
  rwa [hg.eq_of_has (hmem q hq) hlo hqa]

/-- What is to be selected: `min` bytes at the end of the highest gap that has as many, to 16 bytes. -/
structure Selected (rs : List MemArea) (min lo hi : Nat) : Prop where
  size : lo + min = hi
  aligned : 16 ∣ lo ∧ 16 ∣ hi
  gap : ∃ g, IsGap rs g ∧ min ≤ g.hi - g.lo ∧ g.lo ≤ lo ∧ hi ≤ g.hi ∧ g.hi < hi + 16 ∧
    ∀ g', IsGap rs g' → min ≤ g'.hi - g'.lo → g' = g ∨ g'.hi ≤ g.lo

theorem dvd_align16 (x : Nat) : 16 ∣ align16 x := by
  unfold align16
  omega

/-- The highest gap with `min` bytes. -/
structure Chosen (rs : List MemArea) (min : Nat) (g : MemArea) : Prop where
  gap : IsGap rs g
  size : min ≤ g.hi - g.lo
  highest : ∀ g', IsGap rs g' → min ≤ g'.hi - g'.lo → g' = g ∨ g'.hi ≤ g.lo

/-- The area is selected at the end of the highest gap that is large enough. -/
theorem target_chosen (hrs : RegionsOk rs) {min lo hi : Nat} (h : target (gaps rs) min = some (lo, hi)) :
    ∃ g, Chosen rs min g ∧ lo = align16 (if min < g.hi - g.lo then g.hi - min else g.lo) ∧ hi = align16 g.hi := by
  obtain ⟨as, g, bs, hlist, has, hsize, hlo, hhi⟩ := target_spec h
  have hg : g ∈ gaps rs := by rw [hlist]; simp
  refine ⟨g, ⟨(mem_gaps_iff hrs).mp hg, hsize, fun g' hg' hsize' ↦ ?_⟩, hlo, hhi⟩
  -- gaps that come first in the list are too small, those that come later are lower
  have hmem := (mem_gaps_iff hrs).mpr hg'
  have hdesc := (complement_gaps hrs).descending
  rw [hlist] at hmem hdesc
  rcases List.mem_append.mp hmem with hmem | hmem
  · exact absurd hsize' (has g' hmem)
  · rcases List.mem_cons.mp hmem with heq | hmem
    · exact .inl heq
    · exact .inr ((List.pairwise_cons.mp (List.pairwise_append.mp hdesc).2.1).1 g' hmem)

theorem target_selected (hrs : RegionsOk rs) {min lo hi : Nat} (hpos : 0 < min) (hmin : 16 ∣ min)
    (h : target (gaps rs) min = some (lo, hi)) : Selected rs min lo hi := by
  obtain ⟨g, ⟨hgap, hsize, hhighest⟩, rfl, rfl⟩ := target_chosen hrs h
  have hal := (complement_gaps hrs).aligned_lo hrs ((mem_gaps_iff hrs).mpr hgap)
  have hlt := hgap.ok.lt
  refine ⟨?_, ⟨dvd_align16 _, dvd_align16 _⟩, g, hgap, hsize, le_align16 (by omega) ?_, align16_le _, ?_,
    hhighest⟩
  · unfold align16
    split_ifs <;> omega
  · split_ifs <;> omega
  · unfold align16
    omega

/-- If nothing is selected, no gap is large enough. -/
theorem target_none (hrs : RegionsOk rs) {min : Nat} (h : target (gaps rs) min = none) (hg : IsGap rs g) :
    g.hi - g.lo < min := by
  have hfind := List.find?_eq_none.mp (Option.map_eq_none_iff.mp h) g ((mem_gaps_iff hrs).mpr hg)
  simpa using hfind

/-- What is claimed of a call: 0 is returned only with the right area, and never if no gap is large enough. -/
structure SelectsRight (rs : List MemArea) (min : Nat) (r : SetupResult) : Prop where
  selected : r.ok = true → ∃ lo hi, r.area = some (lo, hi) ∧ Selected rs min lo hi
  refused : (∀ g, IsGap rs g → g.hi - g.lo < min) → r = ⟨false, none⟩

/-- A `malloc` fails before `found` is assigned, and the indeterminate value of `found` is true. -/
def ReadsJunk (ans : SetupAnswers) (rs : List MemArea) : Prop :=
  ans.junk = true ∧ ans.fopen = true ∧ (ans.line = false ∨ ∃ k < (gaps rs).length, ans.malloc k = false)

/-- **The area is the right one exactly if** `found` is not read without having been assigned. -/
theorem selectsRight_iff {maps : List Char} (hrs : RegionsOk rs) (hmaps : MapsOf maps rs) (ans : SetupAnswers)
    {min : Nat} (hpos : 0 < min) (hmin : 16 ∣ min) :
    SelectsRight rs min (setupMemory ans maps min) ↔ ¬ ReadsJunk ans rs := by
  have hfail : SelectsRight rs min ⟨false, none⟩ := ⟨fun hc ↦ (nomatch hc), fun _ ↦ rfl⟩
  -- without an area, the result is right if it is not 0
  have hjunk : SelectsRight rs min ⟨ans.junk, none⟩ ↔ ¬ ans.junk = true := by
    constructor
    · intro h hj
      obtain ⟨lo, hi, hc, -⟩ := h.selected hj
      cases hc
    · intro hj
      rw [Bool.not_eq_true] at hj
      rwa [hj]
  cases hfp : ans.fopen with
  | false =>
      rw [setupMemory_eq, hfp]
      refine ⟨fun _ hc ↦ ?_, fun _ ↦ hfail⟩
      rw [ReadsJunk, hfp] at hc
      cases hc.2.1
  | true =>
  cases hline : ans.line with
  | false => simp [setupMemory_eq, ReadsJunk, hfp, hline, hjunk]
  | true =>
  by_cases hall : ∀ k < (gaps rs).length, ans.malloc k = true
  · have hnot : ¬ ReadsJunk ans rs := by
      rintro ⟨-, -, hc | ⟨k, hk, hc⟩⟩
      · simp [hline] at hc
      · simp [hall k hk] at hc
    refine ⟨fun _ ↦ hnot, fun _ ↦ ?_⟩
    rcases setupMemory_gapList hfp hline ((gapList_eq hrs hmaps).1 hall) with ⟨hres, -⟩ | ⟨lo, hi, hres, htarget, -⟩
    · rw [hres]
      exact hfail
    · have hsel := target_selected hrs hpos hmin htarget
      obtain ⟨g, hg, hsize, -⟩ := hsel.gap
      rw [hres]
      exact ⟨fun _ ↦ ⟨lo, hi, rfl, hsel⟩, fun hno ↦ absurd hsize (not_le.mpr (hno g hg))⟩
  · obtain ⟨k, hk⟩ := not_forall.mp hall
    simp only [Classical.not_imp, Bool.not_eq_true] at hk
    rw [setupMemory_eq, if_pos hfp, if_pos hline, (gapList_eq hrs hmaps).2 ⟨k, hk⟩]
    exact hjunk.trans ⟨fun hj hc ↦ hj hc.1, fun hj hc ↦ hj ⟨hc, hfp, .inr ⟨k, hk⟩⟩⟩

end Choice

theorem selectsRight_stack : SelectsRight regionsExample memSize (setupMemory .good mapsExample memSize) := by
  refine (selectsRight_iff regionsOk_example mapsOf_example .good (by decide) (by decide)).mpr ?_
  rintro ⟨hc, -⟩
  cases hc

/-- No memory for the line, and `found` happens to be true. -/
theorem not_selectsRight : ¬ ∀ (ans : SetupAnswers) (maps : List Char) (rs : List MemArea) (min : Nat),
    RegionsOk rs → MapsOf maps rs → 0 < min → 16 ∣ min → SelectsRight rs min (setupMemory ans maps min) := by
  intro h
  have hright := h { SetupAnswers.good with line := false, junk := true } mapsExample regionsExample memSize
    regionsOk_example mapsOf_example (by decide) (by decide)
  obtain ⟨lo, hi, hc, -⟩ := hright.selected rfl
  cases hc

end ShadowStack.Runtime
