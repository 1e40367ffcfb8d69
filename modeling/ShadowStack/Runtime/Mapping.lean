import ShadowStack.Ir.Mask
import ShadowStack.Runtime.Threads

/-!
# Where the pool is mapped

`runtime/mapping.c`: `setup_memory` reads `/proc/self/maps`, collects the gaps between `BASE` and `CEIL`
and selects the last one that is large enough.  All of them lie below `2 ^ 47`, where the mask of the
compiler pass changes nothing.
-/

namespace ShadowStack.Runtime

open Lib Ir

/-! ## Reading the file -/

/-- The results of `fgets(line, size, fp)` in turn, for what is still to be read of a line. -/
def fgets (size : Nat) : List Char → List Char → List (List Char)
  | [], [] => []
  | line, [] => [line]
  | line, c :: rest =>
      if c = '\n' ∨ line.length + 2 = size then (line ++ [c]) :: fgets size [] rest
      else fgets size (line ++ [c]) rest

def isspace (c : Char) : Bool :=
  c = ' ' || c = '\t' || c = '\n' || c = '\x0b' || c = '\x0c' || c = '\r'

/-- The value of a hexadecimal digit. -/
def hexDigit (c : Char) : Option Nat :=
  if '0' ≤ c ∧ c ≤ '9' then some (c.toNat - '0'.toNat)
  else if 'a' ≤ c ∧ c ≤ 'f' then some (c.toNat - 'a'.toNat + 10)
  else if 'A' ≤ c ∧ c ≤ 'F' then some (c.toNat - 'A'.toNat + 10)
  else none

/-- The value of the digits at the start, and what comes after them. -/
def hexDigits (acc : Nat) : List Char → Nat × List Char
  | [] => (acc, [])
  | c :: rest =>
      match hexDigit c with
      | some d => hexDigits (16 * acc + d) rest
      | none => (acc, c :: rest)

/-- Skip `0x` in front of a digit. -/
def hexPrefix : List Char → List Char
  | '0' :: x :: c :: rest =>
      if (x = 'x' ∨ x = 'X') ∧ (hexDigit c).isSome then c :: rest else '0' :: x :: c :: rest
  | s => s

/-- `ULLONG_MAX` for values that do not fit, and negation modulo `2 ^ 64` behind a minus sign. -/
def ullong (negative : Bool) (v : Nat) : Nat :=
  if 2 ^ 64 ≤ v then 2 ^ 64 - 1 else if negative then wrapSub 0 v else v

/-- `strtoull(s, &endp, 16)`: the value, and the string at `endp`. -/
def strtoull (s : List Char) : Nat × List Char :=
  let t := s.dropWhile isspace
  let negative := t.head? = some '-'
  let u := if t.head? = some '-' ∨ t.head? = some '+' then t.tail else t
  match hexPrefix u with
  | [] => (0, s)
  | c :: rest =>
      match hexDigit c with
      | none => (0, s)
      | some d =>
          let (v, e) := hexDigits d rest
          (ullong negative v, e)

/-! ## Selecting an area -/

/-- `BASE` and `CEIL`. -/
def areaBase : Nat := 0x700000000000

def areaCeil : Nat := 0x7fffffffffff

/-- `MemArea`. -/
structure MemArea where
  lo : Nat
  hi : Nat
deriving DecidableEq, Repr

/-- The answers of the library and the kernel: `fopen`, the `malloc` of the line, the `malloc` of each
area by the number of areas before it, and the `mmap` of each area; and what `found` holds where it is
read without having been assigned. -/
structure SetupAnswers where
  fopen : Bool
  line : Bool
  malloc : Nat → Bool
  mmap : MemArea → Bool
  junk : Bool

/-- Whether 0 is returned, and what is assigned to `*lo_out` and `*hi_out`. -/
structure SetupResult where
  ok : Bool
  area : Option (Nat × Nat)
deriving DecidableEq, Repr

/-- `insert_ma`. -/
def insertMa (ans : SetupAnswers) (list : List MemArea) (lo hi : Nat) : Option (List MemArea) :=
  if ans.malloc list.length then some (⟨lo, hi⟩ :: list) else none

/-- The loop over the lines; `none` is `goto out2`. -/
def scanMaps (ans : SetupAnswers) : List (List Char) → Nat → List MemArea → Option (Nat × List MemArea)
  | [], prevHi, list => some (prevHi, list)
  | line :: rest, prevHi, list =>
      let (lo, e) := strtoull line
      if lo = 0 ∨ e.head? ≠ some '-' then none
      else if areaCeil < lo then scanMaps ans rest prevHi list
      else
        let (hi, e) := strtoull e.tail
        if hi = 0 ∨ (e.head? ≠ some ' ' ∧ e.head? ≠ some '\t') then none
        else
          match if prevHi < lo then insertMa ans list prevHi lo else some list with
          | none => none
          | some list => scanMaps ans rest (if prevHi < hi then hi else prevHi) list

/-- `reserve_all`. -/
def reserveAll (ans : SetupAnswers) (list : List MemArea) (lo hi : Nat) : Bool :=
  list.all fun a ↦ if hi ≤ a.lo ∨ a.hi ≤ lo then ans.mmap a else true

/-- `x & ~15`. -/
def align16 (x : Nat) : Nat := x - x % 16

/-- `setup_memory`, for the contents of `/proc/self/maps`.  The jumps to `out` and `out2` from before
the declaration of `found` leave it without a value. -/
def setupMemory (ans : SetupAnswers) (maps : List Char) (min : Nat) : SetupResult :=
  if ans.fopen then
    if ans.line then
      match scanMaps ans (fgets 8191 [] maps) areaBase [] with
      | none => ⟨ans.junk, none⟩
      | some (prevHi, list) =>
          match if prevHi < areaCeil then insertMa ans list prevHi areaCeil else some list with
          | none => ⟨ans.junk, none⟩
          | some list =>
              match list.find? fun a ↦ min ≤ a.hi - a.lo with
              | none => ⟨false, none⟩
              | some a =>
                  let lo := align16 (if min < a.hi - a.lo then a.hi - min else a.lo)
                  let hi := align16 a.hi
                  if reserveAll ans list lo hi then ⟨true, some (lo, hi)⟩ else ⟨false, none⟩
    else ⟨ans.junk, none⟩
  else ⟨false, none⟩

/-! ## The selected area -/

/-- The area is not empty and lies between `BASE` and `CEIL`. -/
structure MemArea.Ok (a : MemArea) : Prop where
  base : areaBase ≤ a.lo
  lt : a.lo < a.hi
  ceil : a.hi ≤ areaCeil

section

variable {ans : SetupAnswers} {list list' : List MemArea}

theorem insertMa_ok {lo hi : Nat} (hlist : ∀ a ∈ list, a.Ok) (hnew : MemArea.Ok ⟨lo, hi⟩)
    (h : insertMa ans list lo hi = some list') : ∀ a ∈ list', a.Ok := by
  rw [insertMa, Option.ite_none_right_eq_some, Option.some.injEq] at h
  obtain ⟨-, rfl⟩ := h
  exact List.forall_mem_cons.mpr ⟨hnew, hlist⟩

/-- The insertion of the gap from `prevHi` to `lo`, if there is one. -/
theorem gap_ok {prevHi lo : Nat} (hlist : ∀ a ∈ list, a.Ok) (hbase : areaBase ≤ prevHi) (hceil : lo ≤ areaCeil)
    (h : (if prevHi < lo then insertMa ans list prevHi lo else some list) = some list') :
    ∀ a ∈ list', a.Ok := by
  by_cases hgap : prevHi < lo
  · rw [if_pos hgap] at h
    exact insertMa_ok hlist ⟨hbase, hgap, hceil⟩ h
  · rw [if_neg hgap, Option.some.injEq] at h
    exact h ▸ hlist

/-- The loop collects gaps between `BASE` and `CEIL` only. -/
theorem scanMaps_ok {lines : List (List Char)} {prevHi prevHi' : Nat} (hlist : ∀ a ∈ list, a.Ok)
    (hbase : areaBase ≤ prevHi) (h : scanMaps ans lines prevHi list = some (prevHi', list')) :
    areaBase ≤ prevHi' ∧ ∀ a ∈ list', a.Ok := by
  induction lines generalizing prevHi list with
  | nil =>
      obtain ⟨rfl, rfl⟩ := Prod.mk.inj (Option.some.inj h)
      exact ⟨hbase, hlist⟩
  | cons line rest ih =>
      simp only [scanMaps] at h
      by_cases hstart : (strtoull line).1 = 0 ∨ (strtoull line).2.head? ≠ some '-'
      · rw [if_pos hstart] at h
        cases h
      rw [if_neg hstart] at h
      by_cases hceil : areaCeil < (strtoull line).1
      · rw [if_pos hceil] at h
        exact ih hlist hbase h
      rw [if_neg hceil] at h
      generalize strtoull (strtoull line).2.tail = r at h
      by_cases hend : r.1 = 0 ∨ (r.2.head? ≠ some ' ' ∧ r.2.head? ≠ some '\t')
      · rw [if_pos hend] at h
        cases h
      rw [if_neg hend] at h
      cases hins : if prevHi < (strtoull line).1 then insertMa ans list prevHi (strtoull line).1 else some list with
      | none => simp [hins] at h
      | some list₁ =>
          simp only [hins] at h
          refine ih (gap_ok hlist hbase (not_lt.mp hceil) hins) ?_ h
          split_ifs with hgt
          · exact hbase.trans hgt.le
          · exact hbase

theorem align16_le (x : Nat) : align16 x ≤ x := Nat.sub_le _ _

theorem le_align16 {x y : Nat} (hx : x % 16 = 0) (h : x ≤ y) : x ≤ align16 y := by
  unfold align16
  omega

/-- **The area `setup_memory` selects** has room for `min` bytes between `BASE` and `CEIL`. -/
theorem setupMemory_spec {maps : List Char} {min lo hi : Nat}
    (h : (setupMemory ans maps min).area = some (lo, hi)) : areaBase ≤ lo ∧ lo + min ≤ areaCeil := by
  unfold setupMemory at h
  cases hfp : ans.fopen with
  | false => simp [hfp] at h
  | true =>
  cases hline : ans.line with
  | false => simp [hfp, hline] at h
  | true =>
  simp only [hfp, hline, if_true] at h
  cases hscan : scanMaps ans (fgets 8191 [] maps) areaBase [] with
  | none => simp [hscan] at h
  | some r =>
  obtain ⟨prevHi, list⟩ := r
  simp only [hscan] at h
  obtain ⟨hprev, hlist⟩ := scanMaps_ok (List.forall_mem_nil _) le_rfl hscan
  cases hins : if prevHi < areaCeil then insertMa ans list prevHi areaCeil else some list with
  | none => simp [hins] at h
  | some list' =>
  simp only [hins] at h
  cases hfind : list'.find? fun a ↦ min ≤ a.hi - a.lo with
  | none => simp [hfind] at h
  | some a =>
  simp only [hfind] at h
  have ha : a.Ok := gap_ok hlist hprev le_rfl hins a (List.mem_of_find?_eq_some hfind)
  have hmin : min ≤ a.hi - a.lo := of_decide_eq_true (List.find?_some hfind :)
  obtain ⟨hbase, hlt, hceil⟩ := ha
  by_cases hres : reserveAll ans list' (align16 (if min < a.hi - a.lo then a.hi - min else a.lo)) (align16 a.hi)
  · rw [if_pos hres] at h
    obtain ⟨rfl, -⟩ := Prod.mk.inj (Option.some.inj h)
    have hsel : areaBase ≤ (if min < a.hi - a.lo then a.hi - min else a.lo) ∧
        (if min < a.hi - a.lo then a.hi - min else a.lo) + min ≤ a.hi := by
      split_ifs <;> omega
    exact ⟨le_align16 rfl hsel.1, (Nat.add_le_add_right (align16_le _) min).trans (hsel.2.trans hceil)⟩
  · rw [if_neg hres] at h
    cases h

end

/-! ## The mask and the pool -/

/-- No masked address is in the chunk at `c`. -/
def Protected (c : Nat) : Prop := ∀ p < 2 ^ 64, maskAddr p < c ∨ c + shadowSize ≤ maskAddr p

/-- Addresses below `2 ^ 47` are their own masked addresses. -/
theorem not_protected {c : Nat} (h : c < 2 ^ 47) : ¬ Protected c := by
  intro hp
  have hsize : 0 < shadowSize := by decide
  rcases hp c (h.trans (by decide)) with hlt | hle
  · rw [maskAddr_of_lt h] at hlt
    exact lt_irrefl _ hlt
  · rw [maskAddr_of_lt h] at hle
    omega

section

variable {m : Memory} {base ch pl : Nat} {s₀ s : PoolState} {es : List PoolEvent}

/-- Every chunk of a pool below `2 ^ 47` is. -/
theorem run_live_lt (hbase : 0 < base) (hmap : base + pl ≤ 2 ^ 47) (hch : headerSize ≤ ch)
    (hinit : memPoolInit m (some base) ch pl = some s₀) (hrun : Run (Guarded NoWrap PoolStep) s₀ es s)
    {c : Nat} (hc : c ∈ s.live) : c < 2 ^ 47 := by
  have hlt : base + pl < 2 ^ 64 := lt_of_le_of_lt hmap (by decide)
  have hok : ∃ cs, PoolOk base ch pl s cs :=
    hrun.invariant (I := fun s ↦ ∃ cs, PoolOk base ch pl s cs) ⟨[], PoolOk.init hch hlt hinit⟩
      fun _ _ _ ⟨_, h⟩ ⟨hwrap, hs⟩ ↦ h.next hch hbase hwrap hs
  obtain ⟨cs, h⟩ := hok
  have hin := h.placed.inside .live c hc
  omega

/-- The first call of `MemPoolAlloc` returns the start of the pool. -/
theorem run_first (hbase : 0 < base) (hlt : base + pl < 2 ^ 64) (hch : ch < pl)
    (hinit : memPoolInit m (some base) ch pl = some s₀) :
    ∃ es s, Run (Guarded NoWrap PoolStep) s₀ es s ∧ base ∈ s.live := by
  have hend : wrapAdd base pl = base + pl := by rw [wrapAdd_eq, wrap_of_lt hlt]
  have hnext : wrapAdd base ch = base + ch := by rw [wrapAdd_eq, wrap_of_lt (by omega)]
  have hfit : ¬ wrapAdd base pl ≤ wrapAdd base ch := by
    rw [hend, hnext]
    omega
  have hsteps : ∃ s₁ s₂ s₃ s₄ s₅, s₀.next (.alloc 0) = some s₁ ∧ s₁.next (.step 0) = some s₂ ∧
      s₂.next (.step 0) = some s₃ ∧ s₃.next (.step 0) = some s₄ ∧ s₄.next (.step 0) = some s₅ ∧
      s₁.pc 0 = .test ∧ s₂.freeareaStart + s₂.chunkSize = base + ch ∧ s₃.pc 0 = .init base ∧ s₄.pc 0 = .ret base ∧
      base ∈ s₅.live := by
    obtain rfl := Option.some.inj hinit
    refine ⟨_, _, _, _, _, rfl, rfl, rfl, if_neg hfit, rfl, rfl, rfl, rfl, rfl, ?_⟩
    show base ∈ if base = 0 then ∅ else insert base ∅
    rw [if_neg hbase.ne']
    exact Finset.mem_insert_self base ∅
  obtain ⟨s₁, s₂, s₃, s₄, s₅, h₁, h₂, h₃, h₄, h₅, hpc₁, hstart, hpc₃, hpc₄, hlive⟩ := hsteps
  have hquiet : ∀ {s : PoolState}, s.pc 0 ≠ .bump → NoWrap s (.step 0) := fun hne _ ht hpc ↦
    absurd (PoolEvent.step.inj ht ▸ hpc) hne
  have hbump : NoWrap s₂ (.step 0) := fun _ _ _ ↦ by
    rw [hstart]
    omega
  have halloc : NoWrap s₀ (.alloc 0) := fun _ hc ↦ (nomatch hc)
  exact ⟨_, s₅, ((((Run.single ⟨halloc, h₁⟩).snoc ⟨hquiet (by simp [hpc₁]), h₂⟩).snoc
    ⟨hbump, h₃⟩).snoc ⟨hquiet (by simp [hpc₃]), h₄⟩).snoc ⟨hquiet (by simp [hpc₄]), h₅⟩, hlive⟩

end

/-- **No chunk of the pool is protected**, whatever the memory map: the pool is mapped below `2 ^ 47`,
and the mask leaves all addresses there as they are. -/
theorem run_not_protected {ans : SetupAnswers} {maps : List Char} {lo hi : Nat} {m : Memory} {s₀ : PoolState}
    (hok : setupMemory ans maps memSize = ⟨true, some (lo, hi)⟩)
    (hinit : memPoolInit m (some lo) shadowSize memSize = some s₀) :
    (∃ es s, Run (Guarded NoWrap PoolStep) s₀ es s ∧ s.live.Nonempty) ∧
    ∀ es s, Run (Guarded NoWrap PoolStep) s₀ es s → ∀ c ∈ s.live, ¬ Protected c := by
  obtain ⟨hbase, hceil⟩ := setupMemory_spec (congrArg SetupResult.area hok)
  have hpos : 0 < lo := lt_of_lt_of_le (by decide) hbase
  have hlt : lo + memSize ≤ 2 ^ 47 := hceil.trans (by decide)
  constructor
  · obtain ⟨es, s, hrun, hlive⟩ := run_first hpos (lt_of_le_of_lt hlt (by decide)) (by decide) hinit
    exact ⟨es, s, hrun, lo, hlive⟩
  · intro es s hrun c hc
    exact not_protected (run_live_lt hpos hlt (by decide) hinit hrun hc)

/-- Everything succeeds. -/
def SetupAnswers.good : SetupAnswers where
  fopen := true
  line := true
  malloc := fun _ ↦ true
  mmap := fun _ ↦ true
  junk := false

/-- A memory map with the stack below `CEIL`. -/
def mapsExample : List Char :=
  "555555554000-555555555000 r--p 00000000 08:01 42 /bin/cat\n7ffffffde000-7ffffffff000 rw-p 00000000 00:00 0 [stack]\n".toList

theorem setupMemory_example :
    setupMemory .good mapsExample memSize = ⟨true, some (0x7fffbffde000, 0x7ffffffde000)⟩ := by
  decide +kernel

theorem run_not_protected_stack :
    setupMemory .good mapsExample memSize = ⟨true, some (0x7fffbffde000, 0x7ffffffde000)⟩ ∧
    ∃ s₀, memPoolInit (fun _ ↦ 0) (some 0x7fffbffde000) shadowSize memSize = some s₀ ∧
      ∃ es s c, Run (Guarded NoWrap PoolStep) s₀ es s ∧ c ∈ s.live ∧ ¬ Protected c := by
  obtain ⟨⟨es, s, hrun, c, hc⟩, hall⟩ := run_not_protected (m := fun _ ↦ 0) setupMemory_example rfl
  exact ⟨setupMemory_example, _, rfl, es, s, c, hrun, hc, hall es s hrun c hc⟩

/-- A store through the address of the chunk of the main thread goes to it. -/
theorem not_run_protected : ¬ ∀ (ans : SetupAnswers) (maps : List Char) (lo hi : Nat) (m : Memory)
    (s₀ : PoolState) (es : List PoolEvent) (s : PoolState),
      setupMemory ans maps memSize = ⟨true, some (lo, hi)⟩ →
      memPoolInit m (some lo) shadowSize memSize = some s₀ → Run (Guarded NoWrap PoolStep) s₀ es s →
      ∀ c ∈ s.live, Protected c := by
  intro h
  obtain ⟨s₀, hinit⟩ : ∃ s₀, memPoolInit (fun _ ↦ 0) (some 0x7fffbffde000) shadowSize memSize = some s₀ := ⟨_, rfl⟩
  obtain ⟨es, s, hrun, hlive⟩ := run_first (by decide) (by decide) (by decide) hinit
  exact not_protected (by decide) (h _ _ _ _ _ _ es s setupMemory_example hinit hrun _ hlive)

end ShadowStack.Runtime
