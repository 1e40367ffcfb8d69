import Mathlib.Data.Finset.Sort
import Mathlib.Data.List.DropRight
import Mathlib.Order.Interval.Finset.Nat

/-!
# The debug file and the script that reads it

`pgd_show` of `lkm/core/debug.c` prints the present entries of the top-level page table of a process;
`lkm/scripts/debug.py` reads that for every process, takes the first one as reference, and reports where the
others differ and which upper entries of the reference are empty.
-/

namespace ShadowStack.Lkm

/-! ## The file -/

/-- `KERNEL_PGD_START`. -/
def kernelPgdStart : Nat := 256

/-- What `target_pid` stands for: no task, a task without a user address space, or one with the values of its
top-level entries. -/
inductive TargetTask where
  | missing
  | noMm
  | mm (pgd : Nat → Nat)

/-- Padding to a minimal width. -/
def pad (width : Nat) (c : Char) (s : List Char) : List Char := List.replicate (width - s.length) c ++ s

/-- `%d` of a `u32`. -/
def printInt (w : Nat) : List Char :=
  if w < 2 ^ 31 then Nat.toDigits 10 w else '-' :: Nat.toDigits 10 (2 ^ 32 - w)

/-- `"%3d,0x%016lx"`. -/
def entryLine (index value : Nat) : List Char :=
  pad 3 ' ' (Nat.toDigits 10 index) ++ ',' :: '0' :: 'x' :: pad 16 '0' (Nat.toDigits 16 value)

/-- The loop of `pgd_show`: `n` more entries from `index` on. -/
def entryLines (pgd : Nat → Nat) : Nat → Nat → List Char
  | _, 0 => []
  | index, n + 1 =>
      (if pgd index &&& 1 ≠ 0 then entryLine index (pgd index) ++ ['\n'] else []) ++ entryLines pgd (index + 1) n

/-- `pgd_show`, for `pgd_hi` or `pgd_lo`. -/
def pgdShow (targetPid : Nat) (hi : Bool) : TargetTask → List Char
  | .missing => "error: PID ".toList ++ Nat.toDigits 10 targetPid ++ " not found\n".toList
  | .noMm => "error: PID ".toList ++ printInt targetPid ++
      " has no mm_struct (likely a kernel thread)\n".toList
  | .mm pgd => "#PID=".toList ++ printInt targetPid ++ '\n' :: "index,value\n".toList ++
      entryLines pgd (if hi then kernelPgdStart else 0) 256

/-! ## The script -/

/-- What `str.strip` removes. -/
def pySpace (c : Char) : Bool :=
  c = ' ' || c = '\t' || c = '\n' || c = '\x0b' || c = '\x0c' || c = '\r'

def strip (s : List Char) : List Char := (s.dropWhile pySpace).rdropWhile pySpace

/-- `int` of a string; `none` is a `ValueError`.  Underscores may stand between digits. -/
def pyInt (s : List Char) : Option Int :=
  let s := strip s
  let negative := s.head? = some '-'
  let t := if s.head? = some '-' ∨ s.head? = some '+' then s.tail else s
  if (t.splitOn '_').all fun part ↦ !part.isEmpty && part.all Char.isDigit then
    let n := Nat.ofDigitChars 10 (t.filter (· != '_')) 0
    some (if negative then -n else n)
  else none

/-- The body of the loop over the lines; `none` is a `ValueError`. -/
def readLine (indices : Finset Nat) (line : List Char) : Option (Finset Nat) :=
  let line := strip line
  if line = [] ∨ "#".toList.isPrefixOf line ∨ "index".toList.isPrefixOf line ∨
      "error:".toList.isPrefixOf line then some indices
  else
    match line.splitOn ',' with
    | [first, _] =>
        match pyInt first with
        | none => none
        | some idx => if 256 ≤ idx then some (insert idx.toNat indices) else some indices
    | _ => some indices

/-- The loop over the lines of a file. -/
def readPgd (file : List Char) : Option (Finset Nat) := (file.splitOn '\n').foldlM readLine ∅

/-- `reference_pid` and `reference_indices`, `divergent_pids` with the lists `missing` and `extra`, and
`successful_scans`. -/
structure Scan where
  reference : Option (Nat × Finset Nat)
  divergent : List (Nat × List Nat × List Nat)
  successfulScans : Nat

/-- The assignment to a key of a dictionary. -/
def dictSet {α : Type*} (d : List (Nat × α)) (key : Nat) (value : α) : List (Nat × α) :=
  if d.any fun e ↦ e.1 == key then d.map fun e ↦ if e.1 = key then (key, value) else e
  else d ++ [(key, value)]

/-- The body of the loop over the processes, for a file that cannot be opened or has been read. -/
def scanPid (s : Scan) (p : Nat × Option (List Char)) : Option Scan :=
  match p.2 with
  | none => some s
  | some file =>
      match readPgd file with
      | none => none
      | some current =>
          if current = ∅ then some s
          else
            let s := { s with successfulScans := s.successfulScans + 1 }
            match s.reference with
            | none => some { s with reference := some (p.1, current) }
            | some (_, reference) =>
                if current ≠ reference then
                  let missing := reference \ current
                  let extra := current \ reference
                  some { s with divergent := dictSet s.divergent p.1 (missing.sort, extra.sort) }
                else some s

/-- The loop over the processes. -/
def scan (pids : List (Nat × Option (List Char))) : Option Scan := pids.foldlM scanPid ⟨none, [], 0⟩

/-- `max_idx`. -/
def maxIdx (reference : Finset Nat) : Nat := max 511 (reference.sort.getLast?.getD 511)

/-- The body of the loop over the indices, on `start_empty` and `empty_ranges`. -/
def emptyStep (reference : Finset Nat) (st : Option Nat × List (Nat × Nat)) (i : Nat) :
    Option Nat × List (Nat × Nat) :=
  if i ∉ reference then
    match st.1 with
    | none => (some i, st.2)
    | some start => (some start, st.2)
  else
    match st.1 with
    | some start => (none, st.2 ++ [(start, i - 1)])
    | none => (none, st.2)

/-- The loop over the first `n` indices. -/
def sweep (reference : Finset Nat) (n : Nat) : Option Nat × List (Nat × Nat) :=
  (List.range' 256 n).foldl (emptyStep reference) (none, [])

/-- `empty_ranges`, after the loop and the test that follows it. -/
def emptyRanges (reference : Finset Nat) : List (Nat × Nat) :=
  let st := sweep reference (maxIdx reference + 1 - 256)
  match st.1 with
  | some start => st.2 ++ [(start, maxIdx reference)]
  | none => st.2

/-! ## Reading what was printed -/

/-- The characters of numbers, in base 16 or less. -/
theorem mem_toDigits {b n : Nat} (hb : 1 < b) (hb' : b ≤ 16) {c : Char} (h : c ∈ Nat.toDigits b n) :
    ∃ d < 16, c = Nat.digitChar d := by
  induction n using Nat.strongRecOn with
  | _ n ih =>
      by_cases hlt : n < b
      · rw [Nat.toDigits_of_lt_base hlt, List.mem_singleton] at h
        exact ⟨n, hlt.trans_le hb', h⟩
      · rw [Nat.toDigits_of_base_le hb (not_lt.mp hlt), List.mem_append, List.mem_singleton] at h
        obtain h | rfl := h
        · exact ih (n / b) (Nat.div_lt_self (by omega) hb) h
        · exact ⟨n % b, (Nat.mod_lt n (by omega)).trans_le hb', rfl⟩

/-- A character that does not structure the file. -/
def Plain (c : Char) : Prop := pySpace c = false ∧ c ≠ ',' ∧ c ≠ '\n'

instance : DecidablePred Plain := fun c ↦ inferInstanceAs (Decidable (pySpace c = false ∧ c ≠ ',' ∧ c ≠ '\n'))

theorem plain_digitChar : ∀ d < 16, Plain (Nat.digitChar d) := by decide

theorem plain_toDigits {b n : Nat} (hb : 1 < b) (hb' : b ≤ 16) : ∀ c ∈ Nat.toDigits b n, Plain c := by
  intro c hc
  obtain ⟨d, hd, rfl⟩ := mem_toDigits hb hb' hc
  exact plain_digitChar d hd

theorem plain_pad {width : Nat} {fill : Char} {s : List Char} (hfill : Plain fill) (hs : ∀ c ∈ s, Plain c) :
    ∀ c ∈ pad width fill s, Plain c := by
  intro c hc
  obtain hmem | hmem := List.mem_append.mp hc
  · rwa [List.eq_of_mem_replicate hmem]
  · exact hs c hmem

theorem plain_printInt (w : Nat) : ∀ c ∈ printInt w, Plain c := by
  rw [printInt]
  split
  · exact plain_toDigits (by decide) (by decide)
  · exact List.forall_mem_cons.mpr ⟨by decide, plain_toDigits (by decide) (by decide)⟩

/-- Leading blanks go; the rest stays where it neither starts nor ends with one. -/
theorem strip_replicate {n : Nat} {s : List Char} (hhead : ∀ c ∈ s.head?, pySpace c = false)
    (hlast : ∀ c ∈ s.getLast?, pySpace c = false) : strip (List.replicate n ' ' ++ s) = s := by
  have hblank : ∀ c ∈ List.replicate n ' ', pySpace c := fun c hc ↦ by
    rw [List.eq_of_mem_replicate hc]
    rfl
  have hdrop : s.dropWhile pySpace = s := by
    cases s with
    | nil => rfl
    | cons c rest => exact List.dropWhile_cons_of_neg (by rw [hhead c rfl]; exact Bool.false_ne_true)
  rw [strip, List.dropWhile_append_of_pos hblank, hdrop, List.rdropWhile_eq_self_iff]
  intro hne
  rw [hlast _ (List.getLast?_eq_some_getLast hne)]
  exact Bool.false_ne_true

theorem strip_self {s : List Char} (hhead : ∀ c ∈ s.head?, pySpace c = false)
    (hlast : ∀ c ∈ s.getLast?, pySpace c = false) : strip s = s :=
  strip_replicate (n := 0) hhead hlast

theorem strip_plain {n : Nat} {s : List Char} (h : ∀ c ∈ s, Plain c ∨ c = ',') :
    strip (List.replicate n ' ' ++ s) = s := by
  have hspace : ∀ c ∈ s, pySpace c = false := by
    intro c hc
    obtain hplain | rfl := h c hc
    · exact hplain.1
    · rfl
  exact strip_replicate (fun c hc ↦ hspace c (List.mem_of_mem_head? hc))
    fun c hc ↦ hspace c (List.mem_of_mem_getLast? hc)

theorem splitOn_self {a : Char} {s : List Char} (h : a ∉ s) : s.splitOn a = [s] :=
  List.splitOnP_eq_singleton fun _ hc ↦ beq_false_of_ne fun heq ↦ h (heq ▸ hc)

theorem splitOn_append {a : Char} {s t : List Char} (h : a ∉ s) :
    (s ++ a :: t).splitOn a = s :: t.splitOn a := by
  have hsplit := List.splitOnP_append_cons (p := (· == a)) s t (beq_self_eq_true a)
  have hself : s.splitOnP (· == a) = [s] := splitOn_self h
  rw [hself] at hsplit
  exact hsplit

/-- `int` reads what `%d` prints of a number. -/
theorem pyInt_toDigits (n : Nat) : pyInt (Nat.toDigits 10 n) = some (n : Int) := by
  have hdigit : ∀ c ∈ Nat.toDigits 10 n, c.isDigit := fun c hc ↦
    Nat.isDigit_of_mem_toDigits (by decide) (by decide) hc
  have hstrip : strip (Nat.toDigits 10 n) = Nat.toDigits 10 n :=
    strip_plain (n := 0) fun c hc ↦ .inl (plain_toDigits (by decide) (by decide) c hc)
  have hne : Nat.toDigits 10 n ≠ [] := Nat.toDigits_ne_nil
  have hsign : ∀ c : Char, c.isDigit = false → (Nat.toDigits 10 n).head? ≠ some c := by
    intro c hc hhead
    have := hdigit c (List.mem_of_mem_head? hhead)
    rw [hc] at this
    cases this
  have hunder : '_' ∉ Nat.toDigits 10 n := Nat.underscore_not_in_toDigits
  have hfilter : (Nat.toDigits 10 n).filter (· != '_') = Nat.toDigits 10 n :=
    List.filter_eq_self.mpr fun c hc ↦ bne_iff_ne.mpr fun heq ↦ hunder (heq ▸ hc)
  have hsigned : ¬((Nat.toDigits 10 n).head? = some '-' ∨ (Nat.toDigits 10 n).head? = some '+') :=
    not_or.mpr ⟨hsign '-' rfl, hsign '+' rfl⟩
  have hall : ((Nat.toDigits 10 n).splitOn '_').all
      (fun part ↦ !part.isEmpty && part.all Char.isDigit) = true := by
    rw [splitOn_self hunder, List.all_cons, List.all_nil, Bool.and_true, Bool.and_eq_true, List.all_eq_true]
    exact ⟨by rw [List.isEmpty_eq_false_iff.mpr hne]; rfl, hdigit⟩
  simp only [pyInt, hstrip, if_neg hsigned, hall, hfilter, Nat.ofDigitChars_ten_toDigits, if_true,
    if_neg (hsign '-' rfl)]

/-- A line with an entry adds its index, unless it belongs to the lower half. -/
theorem readLine_entryLine (indices : Finset Nat) (index value : Nat) :
    readLine indices (entryLine index value) =
      some (if 256 ≤ index then insert index indices else indices) := by
  have hdigits : ∀ c ∈ Nat.toDigits 10 index, Plain c := plain_toDigits (by decide) (by decide)
  have hhex : ∀ c ∈ pad 16 '0' (Nat.toDigits 16 value), Plain c :=
    plain_pad (by decide) (plain_toDigits (by decide) (by decide))
  have hvalue : ∀ c ∈ '0' :: 'x' :: pad 16 '0' (Nat.toDigits 16 value), Plain c :=
    List.forall_mem_cons.mpr ⟨by decide, List.forall_mem_cons.mpr ⟨by decide, hhex⟩⟩
  rw [entryLine]
  generalize '0' :: 'x' :: pad 16 '0' (Nat.toDigits 16 value) = second at hvalue
  have hstrip : strip (pad 3 ' ' (Nat.toDigits 10 index) ++ ',' :: second) =
      Nat.toDigits 10 index ++ ',' :: second := by
    rw [pad, List.append_assoc]
    apply strip_plain
    intro c hc
    rw [List.mem_append, List.mem_cons] at hc
    obtain hc | rfl | hc := hc
    · exact .inl (hdigits c hc)
    · exact .inr rfl
    · exact .inl (hvalue c hc)
  have hsplit : (Nat.toDigits 10 index ++ ',' :: second).splitOn ',' = [Nat.toDigits 10 index, second] := by
    rw [splitOn_append fun h ↦ (hdigits _ h).2.1 rfl, splitOn_self fun h ↦ (hvalue _ h).2.1 rfl]
  have hskip : ∀ (c : Char) (s : List Char), c.isDigit = false →
      ¬(c :: s).isPrefixOf (Nat.toDigits 10 index ++ ',' :: second) := by
    intro c s hc hprefix
    obtain ⟨d, rest, hd⟩ := List.exists_cons_of_ne_nil (Nat.toDigits_ne_nil (n := index) (b := 10))
    have hdigit : d.isDigit := Nat.isDigit_of_mem_toDigits (by decide) (by decide)
      (show d ∈ Nat.toDigits 10 index from hd ▸ List.mem_cons_self)
    rw [hd, List.isPrefixOf_iff_prefix, List.cons_append, List.cons_prefix_cons] at hprefix
    rw [← hprefix.1, hc] at hdigit
    cases hdigit
  have hno : ¬(Nat.toDigits 10 index ++ ',' :: second = [] ∨
      "#".toList.isPrefixOf (Nat.toDigits 10 index ++ ',' :: second) ∨
      "index".toList.isPrefixOf (Nat.toDigits 10 index ++ ',' :: second) ∨
      "error:".toList.isPrefixOf (Nat.toDigits 10 index ++ ',' :: second)) := by
    rw [not_or, not_or, not_or]
    exact ⟨by simp, hskip '#' [] rfl, hskip 'i' "ndex".toList rfl, hskip 'e' "rror:".toList rfl⟩
  simp only [readLine, hstrip, if_neg hno, hsplit, pyInt_toDigits, Int.toNat_natCast]
  by_cases hupper : 256 ≤ index
  · rw [if_pos (by omega), if_pos hupper]
  · rw [if_neg (by omega), if_neg hupper]

/-- Reading goes line by line. -/
theorem foldlM_readLine_append {line rest : List Char} (h : '\n' ∉ line) (indices : Finset Nat) :
    ((line ++ '\n' :: rest).splitOn '\n').foldlM readLine indices =
      (readLine indices line).bind fun indices ↦ (rest.splitOn '\n').foldlM readLine indices := by
  rw [splitOn_append h, List.foldlM_cons]
  rfl

theorem newline_notMem_entryLine (index value : Nat) : '\n' ∉ entryLine index value := by
  have hplain : ∀ c ∈ entryLine index value, c ≠ '\n' := by
    intro c hc
    rw [entryLine, List.mem_append, List.mem_cons, List.mem_cons, List.mem_cons, pad, List.mem_append] at hc
    obtain (hc | hc) | rfl | rfl | rfl | hc := hc
    · rw [List.eq_of_mem_replicate hc]
      decide
    · exact (plain_toDigits (by decide) (by decide) c hc).2.2
    · decide
    · decide
    · decide
    · exact (plain_pad (by decide) (plain_toDigits (by decide) (by decide)) c hc).2.2
  exact fun h ↦ hplain _ h rfl

/-- The indices of present entries among the `n` from `index` on that belong to the upper half. -/
def presentFrom (pgd : Nat → Nat) (index n : Nat) : Finset Nat :=
  (Finset.Ico index (index + n)).filter fun i ↦ 256 ≤ i ∧ pgd i &&& 1 ≠ 0

theorem presentFrom_succ (pgd : Nat → Nat) (index n : Nat) :
    presentFrom pgd index (n + 1) =
      (if 256 ≤ index ∧ pgd index &&& 1 ≠ 0 then {index} else ∅) ∪ presentFrom pgd (index + 1) n := by
  have hico : Finset.Ico index (index + (n + 1)) = insert index (Finset.Ico (index + 1) (index + 1 + n)) := by
    ext i
    rw [Finset.mem_insert, Finset.mem_Ico, Finset.mem_Ico]
    omega
  rw [presentFrom, hico, Finset.filter_insert, presentFrom]
  split
  · rw [Finset.insert_eq]
  · rw [Finset.empty_union]

theorem foldlM_entryLines (pgd : Nat → Nat) (n index : Nat) (indices : Finset Nat) :
    ((entryLines pgd index n).splitOn '\n').foldlM readLine indices =
      some (indices ∪ presentFrom pgd index n) := by
  induction n generalizing index indices with
  | zero =>
      rw [presentFrom, Nat.add_zero, Finset.Ico_self, Finset.filter_empty, Finset.union_empty]
      rfl
  | succ n ih =>
      rw [entryLines, presentFrom_succ, ← Finset.union_assoc]
      by_cases hpresent : pgd index &&& 1 ≠ 0
      · rw [if_pos hpresent, List.append_assoc, List.singleton_append,
          foldlM_readLine_append (newline_notMem_entryLine _ _), readLine_entryLine, Option.bind_some, ih]
        congr 2
        by_cases hupper : 256 ≤ index
        · rw [if_pos hupper, if_pos ⟨hupper, hpresent⟩, Finset.union_comm, Finset.insert_eq]
        · rw [if_neg hupper, if_neg fun h ↦ hupper h.1, Finset.union_empty]
      · rw [if_neg hpresent, List.nil_append, ih, if_neg fun h ↦ hpresent h.2, Finset.union_empty]

/-- The indices of the present entries of the upper half. -/
def TargetTask.upper : TargetTask → Finset Nat
  | .missing => ∅
  | .noMm => ∅
  | .mm pgd => (Finset.Ico 256 512).filter fun i ↦ pgd i &&& 1 ≠ 0

/-- A line that names an error, a process or the columns is skipped. -/
theorem readLine_skip {line : List Char} (hhead : ∀ c ∈ line.head?, pySpace c = false)
    (hlast : ∀ c ∈ line.getLast?, pySpace c = false)
    (hskip : "#".toList.isPrefixOf line ∨ "index".toList.isPrefixOf line ∨ "error:".toList.isPrefixOf line)
    (indices : Finset Nat) : readLine indices line = some indices := by
  rw [readLine]
  simp only [strip_self hhead hlast]
  rw [if_pos (.inr hskip)]

theorem foldlM_nil (indices : Finset Nat) : (([] : List Char).splitOn '\n').foldlM readLine indices = some indices :=
  rfl

theorem readPgd_error {middle text : List Char} (hmiddle : '\n' ∉ middle) (htext : '\n' ∉ text)
    (hlast : ∀ c ∈ text.getLast?, pySpace c = false) (hne : text ≠ []) :
    readPgd ("error: PID ".toList ++ middle ++ text ++ ['\n']) = some ∅ := by
  have hline : '\n' ∉ "error: PID ".toList ++ middle ++ text := by
    rw [List.mem_append, List.mem_append, not_or, not_or]
    exact ⟨⟨by decide, hmiddle⟩, htext⟩
  have hskip : ∀ indices, readLine indices ("error: PID ".toList ++ middle ++ text) = some indices := by
    apply readLine_skip
    · intro c hc
      obtain rfl : 'e' = c := Option.some.inj hc
      rfl
    · rw [List.getLast?_append_of_ne_nil _ hne]
      exact hlast
    · rw [List.append_assoc]
      exact .inr (.inr (List.isPrefixOf_iff_prefix.mpr
        ((by decide : "error:".toList <+: "error: PID ".toList).trans (List.prefix_append _ _))))
  rw [readPgd, foldlM_readLine_append hline, hskip, Option.bind_some, foldlM_nil]

/-- **What is printed is read back.**  From `pgd_hi` the script reads the present entries of the upper half,
from `pgd_lo` and from an error nothing. -/
theorem readPgd_pgdShow (targetPid : Nat) (hi : Bool) (t : TargetTask) :
    readPgd (pgdShow targetPid hi t) = some (if hi then t.upper else ∅) := by
  cases t with
  | missing =>
      have hfile : pgdShow targetPid hi .missing =
          "error: PID ".toList ++ Nat.toDigits 10 targetPid ++ (" not found".toList ++ ['\n']) := rfl
      rw [hfile, ← List.append_assoc, TargetTask.upper, ite_self]
      apply readPgd_error
      · exact fun h ↦ (plain_toDigits (by decide) (by decide) _ h).2.2 rfl
      · decide
      · intro c hc
        obtain rfl : 'd' = c := Option.some.inj hc
        rfl
      · decide
  | noMm =>
      have hfile : pgdShow targetPid hi .noMm = "error: PID ".toList ++ printInt targetPid ++
          (" has no mm_struct (likely a kernel thread)".toList ++ ['\n']) := rfl
      rw [hfile, ← List.append_assoc, TargetTask.upper, ite_self]
      apply readPgd_error
      · exact fun h ↦ (plain_printInt _ _ h).2.2 rfl
      · decide
      · intro c hc
        obtain rfl : ')' = c := Option.some.inj hc
        rfl
      · decide
  | mm pgd =>
      have hpid : '\n' ∉ "#PID=".toList ++ printInt targetPid := by
        rw [List.mem_append, not_or]
        exact ⟨by decide, fun h ↦ (plain_printInt _ _ h).2.2 rfl⟩
      have hplain : ∀ c ∈ "#PID=".toList ++ printInt targetPid, pySpace c = false := by
        intro c hc
        obtain hc | hc := List.mem_append.mp hc
        · have hall : "#PID=".toList.all fun c ↦ !pySpace c := rfl
          exact (Bool.not_eq_true' _).mp (List.all_eq_true.mp hall c hc)
        · exact (plain_printInt _ c hc).1
      have hnumber : "#".toList.isPrefixOf ("#PID=".toList ++ printInt targetPid) :=
        List.isPrefixOf_iff_prefix.mpr ((by decide : "#".toList <+: "#PID=".toList).trans (List.prefix_append _ _))
      have hskip := readLine_skip (fun c hc ↦ hplain c (List.mem_of_mem_head? hc))
        (fun c hc ↦ hplain c (List.mem_of_mem_getLast? hc)) (.inl hnumber)
      have hcolumns : ∀ indices, readLine indices "index,value".toList = some indices := by
        apply readLine_skip
        · intro c hc
          obtain rfl : 'i' = c := Option.some.inj hc
          rfl
        · intro c hc
          obtain rfl : 'e' = c := Option.some.inj hc
          rfl
        · exact .inr (.inl (by decide))
      have hfile : pgdShow targetPid hi (.mm pgd) = "#PID=".toList ++ printInt targetPid ++ '\n' ::
          ("index,value".toList ++ ['\n']) ++ entryLines pgd (if hi then kernelPgdStart else 0) 256 := rfl
      simp only [List.append_assoc, List.cons_append, List.nil_append] at hfile
      rw [readPgd, hfile, ← List.append_assoc, foldlM_readLine_append hpid, hskip, Option.bind_some,
        foldlM_readLine_append (by decide), hcolumns, Option.bind_some, foldlM_entryLines, Finset.empty_union]
      congr 1
      cases hi with
      | true =>
          rw [if_pos rfl, if_pos rfl, TargetTask.upper, presentFrom]
          apply Finset.filter_congr
          intro i hi
          exact and_iff_right (Finset.mem_Ico.mp hi).1
      | false =>
          rw [if_neg Bool.false_ne_true, if_neg Bool.false_ne_true, presentFrom]
          apply Finset.filter_eq_empty_iff.mpr
          intro i hi h
          have := (Finset.mem_Ico.mp hi).2
          omega

/-! ## The comparison -/

/-- What is there to be read: each process by its pid, or a file that could not be opened. -/
def files (targets : List (Nat × Option TargetTask)) : List (Nat × Option (List Char)) :=
  targets.map fun p ↦ (p.1, p.2.map (pgdShow p.1 true))

/-- The processes with an entry in the upper half. -/
def scanned (targets : List (Nat × Option TargetTask)) : List (Nat × Finset Nat) :=
  targets.filterMap fun p ↦ p.2.bind fun t ↦ if t.upper = ∅ then none else some (p.1, t.upper)

/-- How a process differs from the reference. -/
def divergence (reference : Finset Nat) (p : Nat × Finset Nat) : Option (Nat × List Nat × List Nat) :=
  if p.2 ≠ reference then some (p.1, (reference \ p.2).sort, (p.2 \ reference).sort) else none

/-- The first process with all that differ from it. -/
def report (l : List (Nat × Finset Nat)) : Scan where
  reference := l.head?
  divergent := l.filterMap fun p ↦ l.head?.bind fun first ↦ divergence first.2 p
  successfulScans := l.length

theorem dictSet_append {α : Type*} {d : List (Nat × α)} {key : Nat} (h : key ∉ d.map Prod.fst) (value : α) :
    dictSet d key value = d ++ [(key, value)] := by
  rw [dictSet, if_neg]
  rw [List.any_eq_true]
  rintro ⟨e, he, heq⟩
  exact h (List.mem_map.mpr ⟨e, he, beq_iff_eq.mp heq⟩)

theorem divergence_fst {reference : Finset Nat} {p : Nat × Finset Nat} {e : Nat × List Nat × List Nat}
    (h : divergence reference p = some e) : e.1 = p.1 := by
  rw [divergence, Option.ite_none_right_eq_some] at h
  rw [← Option.some.inj h.2]

/-- One more process. -/
theorem scanPid_report {l : List (Nat × Finset Nat)} {pid : Nat} (hpid : pid ∉ l.map Prod.fst) (t : TargetTask) :
    scanPid (report l) (pid, some (pgdShow pid true t)) =
      some (report (l ++ if t.upper = ∅ then [] else [(pid, t.upper)])) := by
  simp only [scanPid, readPgd_pgdShow, if_true]
  by_cases hempty : t.upper = ∅
  · rw [if_pos hempty, if_pos hempty, List.append_nil]
  rw [if_neg hempty, if_neg hempty]
  cases l with
  | nil => simp [report, divergence]
  | cons first rest =>
      have hkey : pid ∉ ((first :: rest).filterMap fun p ↦ divergence first.2 p).map Prod.fst := by
        intro hmem
        obtain ⟨e, he, heq⟩ := List.mem_map.mp hmem
        obtain ⟨p, hp, hdiv⟩ := List.mem_filterMap.mp he
        exact hpid (List.mem_map.mpr ⟨p, hp, (divergence_fst hdiv).symm.trans heq⟩)
      have hlast : (first :: rest ++ [(pid, t.upper)]).filterMap (fun p ↦ divergence first.2 p) =
          (first :: rest).filterMap (fun p ↦ divergence first.2 p) ++
            (divergence first.2 (pid, t.upper)).toList := by
        rw [List.filterMap_append]
        cases hd : divergence first.2 (pid, t.upper) with
        | none => rw [List.filterMap_cons_none hd]; rfl
        | some e => rw [List.filterMap_cons_some hd]; rfl
      have hreport : report (first :: rest ++ [(pid, t.upper)]) =
          ⟨some first, (first :: rest).filterMap (fun p ↦ divergence first.2 p) ++
            (divergence first.2 (pid, t.upper)).toList, (first :: rest).length + 1⟩ := by
        rw [← hlast, ← List.length_singleton (a := (pid, t.upper)), ← List.length_append]
        rfl
      rw [hreport]
      by_cases hdiff : t.upper ≠ first.2
      · have hd : divergence first.2 (pid, t.upper) =
            some (pid, (first.2 \ t.upper).sort, (t.upper \ first.2).sort) := if_pos hdiff
        simp only [report, List.head?_cons, Option.bind_some, if_pos hdiff, dictSet_append hkey, hd,
          Option.toList_some]
      · have hd : divergence first.2 (pid, t.upper) = none := if_neg hdiff
        simp only [report, List.head?_cons, Option.bind_some, if_neg hdiff, hd, Option.toList_none,
          List.append_nil]

theorem scanned_append (targets : List (Nat × Option TargetTask)) (pid : Nat) (t : TargetTask) :
    scanned (targets ++ [(pid, some t)]) =
      scanned targets ++ if t.upper = ∅ then [] else [(pid, t.upper)] := by
  rw [scanned, List.filterMap_append, ← scanned]
  by_cases hempty : t.upper = ∅
  · simp [hempty]
  · simp [hempty]

theorem mem_scanned {targets : List (Nat × Option TargetTask)} {pid : Nat} {current : Finset Nat} :
    (pid, current) ∈ scanned targets ↔ ∃ t, (pid, some t) ∈ targets ∧ t.upper ≠ ∅ ∧ current = t.upper := by
  rw [scanned, List.mem_filterMap]
  apply Iff.intro
  · rintro ⟨⟨pid', target⟩, hmem, hbind⟩
    obtain ⟨t, rfl, hif⟩ := Option.bind_eq_some_iff.mp hbind
    rw [Option.ite_none_left_eq_some, Option.some.injEq, Prod.mk.injEq] at hif
    obtain ⟨hne, rfl, rfl⟩ := hif
    exact ⟨t, hmem, hne, rfl⟩
  · rintro ⟨t, hmem, hne, rfl⟩
    exact ⟨(pid, some t), hmem, if_neg hne⟩

/-- The loop computes the report, one process after the other. -/
theorem scan_files {targets : List (Nat × Option TargetTask)} (hpids : (targets.map Prod.fst).Nodup) :
    scan (files targets) = some (report (scanned targets)) := by
  induction targets using List.reverseRecOn with
  | nil => rfl
  | append_singleton targets p ih =>
      rw [List.map_append, List.nodup_append] at hpids
      obtain ⟨hpids, -, hdisj⟩ := hpids
      obtain ⟨pid, target⟩ := p
      have hscan : scan (files (targets ++ [(pid, target)])) =
          (scan (files targets)).bind fun s ↦ scanPid s (pid, target.map (pgdShow pid true)) := by
        rw [scan, files, List.map_append, List.foldlM_append]
        apply congrArg
        funext s
        exact bind_pure _
      rw [hscan, ih hpids, Option.bind_some]
      cases target with
      | none =>
          have hskip : scanned (targets ++ [(pid, none)]) = scanned targets := by
            rw [scanned, List.filterMap_append]
            exact List.append_nil _
          rw [hskip]
          rfl
      | some t =>
          rw [Option.map_some, scanPid_report, scanned_append]
          intro hmem
          obtain ⟨⟨pid', current⟩, he, rfl⟩ := List.mem_map.mp hmem
          obtain ⟨t', ht', -⟩ := mem_scanned.mp he
          exact hdisj _ (List.mem_map_of_mem ht') _ List.mem_cons_self rfl

/-- **The script finds exactly what differs.**  It reads the present upper entries back from the file, and whatever
processes there are and whatever the kernel finds behind their pids, it never raises a `ValueError`; the first
process that has an upper entry, if there is one, is the reference, and the processes the script lists are those
that have an upper entry and other upper entries than the reference, each with exactly the indices it lacks and
exactly those it has beyond it. -/
theorem scan_exact {targets : List (Nat × Option TargetTask)} (hpids : (targets.map Prod.fst).Nodup) :
    (∀ pid t, readPgd (pgdShow pid true t) = some t.upper) ∧
    ∃ s, scan (files targets) = some s ∧ s.reference = (scanned targets).head? ∧
      s.successfulScans = (scanned targets).length ∧
      ∀ pid missing extra, (pid, missing, extra) ∈ s.divergent ↔
        ∃ first reference t, s.reference = some (first, reference) ∧ (pid, some t) ∈ targets ∧ t.upper ≠ ∅ ∧
          t.upper ≠ reference ∧ missing = (reference \ t.upper).sort ∧ extra = (t.upper \ reference).sort := by
  refine ⟨fun pid t ↦ readPgd_pgdShow pid true t, report (scanned targets), scan_files hpids, rfl, rfl,
    fun pid missing extra ↦ ?_⟩
  cases hfirst : (scanned targets).head? with
  | none =>
      have hnil : scanned targets = [] := List.head?_eq_none_iff.mp hfirst
      simp [report, hnil]
  | some e =>
      obtain ⟨first, reference⟩ := e
      simp only [report, hfirst, Option.bind_some, List.mem_filterMap]
      apply Iff.intro
      · rintro ⟨⟨pid', current⟩, hmem, hdiv⟩
        obtain ⟨t, ht, hne, rfl⟩ := mem_scanned.mp hmem
        rw [divergence, Option.ite_none_right_eq_some, Option.some.injEq] at hdiv
        obtain ⟨hdiff, heq⟩ := hdiv
        obtain ⟨rfl, hlists⟩ := Prod.mk.inj heq
        obtain ⟨rfl, rfl⟩ := Prod.mk.inj hlists
        exact ⟨first, reference, t, rfl, ht, hne, hdiff, rfl, rfl⟩
      · rintro ⟨first', reference', t, heq, ht, hne, hdiff, rfl, rfl⟩
        obtain ⟨rfl, rfl⟩ := Prod.mk.inj (Option.some.inj heq)
        exact ⟨(pid, t.upper), mem_scanned.mpr ⟨t, ht, hne, rfl⟩, if_pos hdiff⟩

/-- Three processes: the second has an entry more than the first, the third is gone. -/
def threeTargets : List (Nat × Option TargetTask) :=
  [(1, some (.mm fun i ↦ if i = 300 then 0x67 else 0)),
    (2, some (.mm fun i ↦ if i = 300 ∨ i = 470 then 0x67 else 0)), (3, some .missing)]

theorem scan_exact_threeTargets : ∃ s, scan (files threeTargets) = some s ∧ s.successfulScans = 2 ∧
    ∃ missing extra, (2, missing, extra) ∈ s.divergent := by
  have hfirst : (scanned threeTargets).head? = some (1, {300}) := by decide
  obtain ⟨-, s, hs, href, hcount, hdiv⟩ := @scan_exact threeTargets (by decide)
  refine ⟨s, hs, hcount.trans (by decide), ?_⟩
  have hmem : (2, some (TargetTask.mm fun i ↦ if i = 300 ∨ i = 470 then 0x67 else 0)) ∈ threeTargets :=
    List.mem_cons_of_mem _ List.mem_cons_self
  exact ⟨_, _, (hdiv 2 _ _).mpr ⟨1, {300}, _, href.trans hfirst, hmem, by decide, by decide, rfl, rfl⟩⟩

/-! ## The empty ranges -/

/-- The loop has seen the indices from 256 up to `i`: the ranges are the maximal runs of missing indices that
ended before `i`, and `start` is where the run that reaches `i` began. -/
structure Swept (reference : Finset Nat) (i : Nat) (st : Option Nat × List (Nat × Nat)) : Prop where
  start : ∀ a, st.1 = some a → 256 ≤ a ∧ a < i ∧ (∀ j, a ≤ j → j < i → j ∉ reference) ∧
    (a = 256 ∨ a - 1 ∈ reference)
  none : st.1 = none → i = 256 ∨ i - 1 ∈ reference
  ranges : ∀ a b, (a, b) ∈ st.2 ↔ 256 ≤ a ∧ a ≤ b ∧ b + 1 < i ∧ (∀ j, a ≤ j → j ≤ b → j ∉ reference) ∧
    (a = 256 ∨ a - 1 ∈ reference) ∧ b + 1 ∈ reference

theorem Swept.init (reference : Finset Nat) : Swept reference 256 (.none, []) where
  start a h := absurd h.symm (Option.some_ne_none a)
  none _ := .inl rfl
  ranges a b := by
    apply Iff.intro
    · exact fun h ↦ absurd h List.not_mem_nil
    · rintro ⟨ha, hab, hb, -⟩
      omega

/-- Two runs that reach the same index begin at the same one. -/
theorem start_unique {reference : Finset Nat} {a a' i : Nat} (ha : 256 ≤ a) (hai : a < i)
    (hgap : ∀ j, a ≤ j → j < i → j ∉ reference) (hbefore : a = 256 ∨ a - 1 ∈ reference) (ha' : 256 ≤ a')
    (hai' : a' < i) (hgap' : ∀ j, a' ≤ j → j < i → j ∉ reference) (hbefore' : a' = 256 ∨ a' - 1 ∈ reference) :
    a = a' := by
  obtain hlt | heq | hgt := Nat.lt_trichotomy a a'
  · have hne : a' ≠ 256 := (ha.trans_lt hlt).ne'
    exact absurd (hbefore'.resolve_left hne) (hgap (a' - 1) (by omega) (by omega))
  · exact heq
  · have hne : a ≠ 256 := (ha'.trans_lt hgt).ne'
    exact absurd (hbefore.resolve_left hne) (hgap' (a - 1) (by omega) (by omega))

/-- A missing index prolongs the run or begins one. -/
theorem Swept.missing {reference : Finset Nat} {i : Nat} {st : Option Nat × List (Nat × Nat)}
    (h : Swept reference i st) (hi : 256 ≤ i) (hmissing : i ∉ reference) :
    Swept reference (i + 1) (emptyStep reference st i) := by
  have hranges : ∀ a b, (a, b) ∈ st.2 ↔ 256 ≤ a ∧ a ≤ b ∧ b + 1 < i + 1 ∧
      (∀ j, a ≤ j → j ≤ b → j ∉ reference) ∧ (a = 256 ∨ a - 1 ∈ reference) ∧ b + 1 ∈ reference := by
    intro a b
    rw [h.ranges]
    apply Iff.intro
    · rintro ⟨ha, hab, hb, hrest⟩
      exact ⟨ha, hab, Nat.lt_succ_of_lt hb, hrest⟩
    · rintro ⟨ha, hab, hb, hgap, hbefore, hafter⟩
      have hne : b + 1 ≠ i := fun heq ↦ hmissing (heq ▸ hafter)
      exact ⟨ha, hab, by omega, hgap, hbefore, hafter⟩
  have hgrow : ∀ a, (∀ j, a ≤ j → j < i → j ∉ reference) → ∀ j, a ≤ j → j < i + 1 → j ∉ reference := by
    intro a hgap j ha hj
    obtain hlt | rfl := Nat.lt_succ_iff_lt_or_eq.mp hj
    · exact hgap j ha hlt
    · exact hmissing
  rw [emptyStep, if_pos hmissing]
  cases hst : st.1 with
  | none =>
      refine ⟨fun a ha ↦ ?_, fun hnone ↦ absurd hnone (Option.some_ne_none i), hranges⟩
      obtain rfl := Option.some.inj ha
      exact ⟨hi, Nat.lt_succ_self i, hgrow i fun j hij hji ↦ absurd hij (not_le.mpr hji), h.none hst⟩
  | some start =>
      refine ⟨fun a ha ↦ ?_, fun hnone ↦ absurd hnone (Option.some_ne_none start), hranges⟩
      obtain rfl := Option.some.inj ha
      obtain ⟨hstart, hlt, hgap, hbefore⟩ := h.start start hst
      exact ⟨hstart, Nat.lt_succ_of_lt hlt, hgrow start hgap, hbefore⟩

/-- A present index ends it. -/
theorem Swept.present {reference : Finset Nat} {i : Nat} {st : Option Nat × List (Nat × Nat)}
    (h : Swept reference i st) (hi : 256 ≤ i) (hpresent : i ∈ reference) :
    Swept reference (i + 1) (emptyStep reference st i) := by
  rw [emptyStep, if_neg (not_not.mpr hpresent)]
  cases hst : st.1 with
  | none =>
      refine ⟨fun a ha ↦ absurd ha.symm (Option.some_ne_none a), fun _ ↦ .inr hpresent, fun a b ↦ ?_⟩
      rw [h.ranges]
      apply Iff.intro
      · rintro ⟨ha, hab, hb, hrest⟩
        exact ⟨ha, hab, Nat.lt_succ_of_lt hb, hrest⟩
      · rintro ⟨ha, hab, hb, hgap, hbefore, hafter⟩
        have hne : b + 1 ≠ i := by
          rintro rfl
          obtain heq | hmem := h.none hst
          · omega
          · exact hgap b hab le_rfl hmem
        exact ⟨ha, hab, by omega, hgap, hbefore, hafter⟩
  | some start =>
      obtain ⟨hstart, hlt, hgap, hbefore⟩ := h.start start hst
      refine ⟨fun a ha ↦ absurd ha.symm (Option.some_ne_none a), fun _ ↦ .inr hpresent, fun a b ↦ ?_⟩
      rw [List.mem_append, h.ranges, List.mem_singleton, Prod.mk.injEq]
      apply Iff.intro
      · rintro (⟨ha, hab, hb, hrest⟩ | ⟨rfl, rfl⟩)
        · exact ⟨ha, hab, Nat.lt_succ_of_lt hb, hrest⟩
        · refine ⟨hstart, by omega, by omega, fun j haj hjb ↦ hgap j haj (by omega), hbefore, ?_⟩
          rwa [Nat.sub_add_cancel (by omega)]
      · rintro ⟨ha, hab, hb, hgap', hbefore', hafter⟩
        by_cases hend : b + 1 < i
        · exact .inl ⟨ha, hab, hend, hgap', hbefore', hafter⟩
        right
        have hb : b = i - 1 := by omega
        exact ⟨start_unique ha (by omega) (fun j haj hj ↦ hgap' j haj (by omega)) hbefore' hstart hlt hgap hbefore,
          hb⟩

theorem Swept.run (reference : Finset Nat) (n : Nat) :
    Swept reference (256 + n) (sweep reference n) := by
  induction n with
  | zero => exact .init reference
  | succ n ih =>
      rw [sweep, List.range'_concat, List.foldl_append, List.foldl_cons, List.foldl_nil, Nat.one_mul]
      by_cases hmem : 256 + n ∈ reference
      · exact ih.present (Nat.le_add_right 256 n) hmem
      · exact ih.missing (Nat.le_add_right 256 n) hmem

/-- **The empty ranges are the maximal runs of missing indices.** -/
theorem mem_emptyRanges {reference : Finset Nat} {a b : Nat} :
    (a, b) ∈ emptyRanges reference ↔ 256 ≤ a ∧ a ≤ b ∧ b ≤ maxIdx reference ∧
      (∀ j, a ≤ j → j ≤ b → j ∉ reference) ∧ (a = 256 ∨ a - 1 ∈ reference) ∧
      (b = maxIdx reference ∨ b + 1 ∈ reference) := by
  have hmax : 511 ≤ maxIdx reference := by
    rw [maxIdx]
    apply le_max_left
  have hswept := Swept.run reference (maxIdx reference + 1 - 256)
  rw [Nat.add_sub_cancel' (by omega)] at hswept
  unfold emptyRanges
  generalize sweep reference (maxIdx reference + 1 - 256) = st at hswept
  cases hst : st.1 with
  | none =>
      have hlast : maxIdx reference ∈ reference := (hswept.none hst).resolve_left (by omega)
      simp only [hst]
      rw [hswept.ranges]
      apply Iff.intro
      · rintro ⟨ha, hab, hb, hgap, hbefore, hafter⟩
        exact ⟨ha, hab, by omega, hgap, hbefore, .inr hafter⟩
      · rintro ⟨ha, hab, hb, hgap, hbefore, hafter⟩
        have hne : b ≠ maxIdx reference := by
          rintro rfl
          exact hgap _ hab le_rfl hlast
        exact ⟨ha, hab, by omega, hgap, hbefore, hafter.resolve_left hne⟩
  | some start =>
      obtain ⟨hstart, hlt, hgap, hbefore⟩ := hswept.start start hst
      simp only [hst]
      rw [List.mem_append, hswept.ranges, List.mem_singleton, Prod.mk.injEq]
      apply Iff.intro
      · rintro (⟨ha, hab, hb, hgap', hbefore', hafter⟩ | ⟨rfl, rfl⟩)
        · exact ⟨ha, hab, by omega, hgap', hbefore', .inr hafter⟩
        · exact ⟨hstart, by omega, le_rfl, fun j haj hj ↦ hgap j haj (by omega), hbefore, .inl rfl⟩
      · rintro ⟨ha, hab, hb, hgap', hbefore', hafter⟩
        by_cases hend : b = maxIdx reference
        · right
          exact ⟨start_unique ha (by omega) (fun j haj hj ↦ hgap' j haj (by omega)) hbefore' hstart hlt hgap hbefore,
            hend⟩
        · exact .inl ⟨ha, hab, by omega, hgap', hbefore', hafter.resolve_left hend⟩

end ShadowStack.Lkm
