import Mathlib.Data.List.Forall2
import ShadowStack.Runtime.Stckcpy

/-!
# The start image after the move

What each loop of `relocate_stack` does to the registers and the memory, and from that what is on the
new stack when the code switches to it: the image the kernel laid out, with its pointers shifted and
everything they point to in place.
-/

namespace ShadowStack.Runtime

open Lib

variable {sys : Sys}

theorem Reaches.single {x y : Label × Cpu} (h : step sys x = y) : Reaches sys x y :=
  Relation.ReflTransGen.single h

theorem Reaches.trans {x y z : Label × Cpu} (h : Reaches sys x y) (h' : Reaches sys y z) :
    Reaches sys x z :=
  Relation.ReflTransGen.trans h h'

/-- One block, then the rest. -/
theorem Reaches.head {x y z : Label × Cpu} (h : step sys x = y) (h' : Reaches sys y z) :
    Reaches sys x z :=
  Relation.ReflTransGen.head h h'

theorem wrapAdd_of_lt {a b : Nat} (h : a + b < 2 ^ 64) : wrapAdd a b = a + b := by
  rw [wrapAdd_eq, wrap_of_lt h]

/-! ## The loops -/

section Blocks

variable (sys : Sys) (c : Cpu)

theorem step_scanArgv : step sys (.scanArgv, c) = scanPointer .incArgv .scanArgvExit c := rfl

theorem step_incArgv : step sys (.incArgv, c) = (.scanArgv, { c with r8 := wrapAdd c.r8 8 }) := rfl

theorem step_scanArgvExit :
    step sys (.scanArgvExit, c) = (.scanEnvp, { c with r8 := wrapAdd c.r8 8 }) := rfl

theorem step_scanEnvp : step sys (.scanEnvp, c) = scanPointer .incEnvp .scanEnvpExit c := rfl

theorem step_incEnvp : step sys (.incEnvp, c) = (.scanEnvp, { c with r8 := wrapAdd c.r8 8 }) := rfl

theorem step_scanEnvpExit :
    step sys (.scanEnvpExit, c) = (.scanAuxv, { c with r8 := wrapAdd c.r8 8 }) := rfl

theorem step_patchArgv : step sys (.patchArgv, c) = patchPointer .patchArgv .patchArgvExit c := rfl

theorem step_patchArgvExit :
    step sys (.patchArgvExit, c) = (.patchEnvp, { c with r10 := wrapAdd c.r10 8 }) := rfl

theorem step_patchEnvp : step sys (.patchEnvp, c) = patchPointer .patchEnvp .patchEnvpExit c := rfl

theorem step_patchEnvpExit :
    step sys (.patchEnvpExit, c) = (.patchAuxv, { c with r10 := wrapAdd c.r10 8 }) := rfl

end Blocks

/-- The loops that look for the highest pointer. -/
theorem scanPointers {self next exit : Label} (hself : ∀ c, step sys (self, c) = scanPointer next exit c)
    (hnext : ∀ c, step sys (next, c) = (self, { c with r8 := wrapAdd c.r8 8 })) {ps : List Nat}
    (hne : ∀ p ∈ ps, p ≠ 0) {c : Cpu} (hw : WordsAt c.mem c.r8 (ps ++ [0]))
    (hlt : c.r8 + 8 * ps.length < 2 ^ 64) :
    Reaches sys (self, c) (exit, { c with
      r8 := c.r8 + 8 * ps.length
      r9 := 0
      rdi := ps.foldl max c.rdi }) := by
  induction ps generalizing c with
  | nil =>
      refine Reaches.single ?_
      have h₀ : load64 c.mem c.r8 = 0 := hw.1
      rw [hself, scanPointer]
      simp only [h₀, if_true]
      rfl
  | cons p ps ih =>
      rw [List.length_cons] at hlt
      have hp : load64 c.mem c.r8 = p := hw.1
      have hp₀ : p ≠ 0 := hne p List.mem_cons_self
      have hr8 : wrapAdd c.r8 8 = c.r8 + 8 := wrapAdd_of_lt (by omega)
      have hblock : step sys (self, c) = (next, { c with r9 := p, rdi := max c.rdi p }) := by
        rw [hself, scanPointer]
        simp only [hp, if_neg hp₀]
        split
        · next hle => rw [max_eq_left hle]
        · next hle => rw [max_eq_right (by omega)]
      refine Reaches.head hblock (Reaches.head (hnext _) ?_)
      have hrest := ih (c := { c with r8 := c.r8 + 8, r9 := p, rdi := max c.rdi p })
        (fun q hq ↦ hne q (List.mem_cons_of_mem _ hq)) hw.2 (by show c.r8 + 8 + _ < _; omega)
      have hlen : c.r8 + 8 + 8 * ps.length = c.r8 + 8 * (ps.length + 1) := by omega
      simp only [hr8]
      rw [hlen] at hrest
      exact hrest

/-- The highest pointer and whether it is that of `AT_RANDOM`, after one more entry. -/
def highest (best : Nat × Nat) (entry : Nat × Nat) : Nat × Nat :=
  if IsPatched entry.1 ∧ best.1 < entry.2 then (entry.2, if entry.1 = atRandom then 1 else 0)
  else best

/-- The loop over the auxiliary vector that looks for the highest pointer. -/
theorem scanAuxv_reaches (sys : Sys) {auxv : List (Nat × Nat)} {last : Nat} (hne : ∀ e ∈ auxv, e.1 ≠ 0)
    {c : Cpu} (hw : WordsAt c.mem c.r8 (auxvWords auxv last))
    (hlt : c.r8 + 16 * auxv.length + 16 < 2 ^ 64) :
    ∃ r10, Reaches sys (.scanAuxv, c) (.scanAuxvExit, { c with
      r8 := c.r8 + 16 * auxv.length
      r9 := 0
      r10 := r10
      rdi := (auxv.foldl highest (c.rdi, c.r11)).1
      r11 := (auxv.foldl highest (c.rdi, c.r11)).2 }) := by
  induction auxv generalizing c with
  | nil =>
      refine ⟨c.r10, Reaches.single ?_⟩
      have h₀ : load64 c.mem c.r8 = 0 := hw.1
      simp only [step, h₀, if_true]
      rfl
  | cons e auxv ih =>
      obtain ⟨k, v⟩ := e
      rw [List.length_cons] at hlt
      obtain ⟨hk, hv, hrest⟩ := hw
      have hk₀ : k ≠ 0 := hne (k, v) List.mem_cons_self
      have hr8 : wrapAdd c.r8 8 = c.r8 + 8 := wrapAdd_of_lt (by omega)
      have hr8' : wrapAdd c.r8 16 = c.r8 + 16 := wrapAdd_of_lt (by omega)
      have hlen : c.r8 + 16 + 16 * auxv.length = c.r8 + 16 * (auxv.length + 1) := by omega
      have hadd : c.r8 + 8 + 8 = c.r8 + 16 := by omega
      rw [hadd] at hrest
      obtain ⟨b, hb⟩ : ∃ b, highest (c.rdi, c.r11) (k, v) = b := ⟨_, rfl⟩
      -- the blocks up to the next entry
      have hblock : ∃ r10, Reaches sys (.scanAuxv, c) (.scanAuxv, { c with
          r8 := c.r8 + 16, r9 := k, r10 := r10, rdi := b.1, r11 := b.2 }) := by
        rw [← hb]
        by_cases hpat : IsPatched k
        · refine ⟨v, Reaches.head (y := (.checkAuxp, { c with r9 := k })) ?_ ?_⟩
          · simp only [step, hk, if_neg hk₀, if_pos hpat]
          · refine Reaches.head (y := (.incAuxv, { c with
              r9 := k, r10 := v, rdi := (highest (c.rdi, c.r11) (k, v)).1,
              r11 := (highest (c.rdi, c.r11) (k, v)).2 })) ?_ (Reaches.single ?_)
            · simp only [step, hr8, hv]
              by_cases hle : v ≤ c.rdi
              · have hbest : highest (c.rdi, c.r11) (k, v) = (c.rdi, c.r11) :=
                  if_neg fun h ↦ absurd h.2 (Nat.not_lt.mpr hle)
                rw [if_pos hle, hbest]
              · have hbest : highest (c.rdi, c.r11) (k, v) = (v, if k = atRandom then 1 else 0) :=
                  if_pos ⟨hpat, Nat.lt_of_not_le hle⟩
                rw [if_neg hle, hbest]
            · simp only [step, hr8']
        · refine ⟨c.r10, Reaches.head (y := (.incAuxv, { c with r9 := k })) ?_ (Reaches.single ?_)⟩
          · simp only [step, hk, if_neg hk₀, if_neg hpat]
          · simp only [step, hr8', highest, hpat, false_and, if_false]
      obtain ⟨r10, hblock⟩ := hblock
      obtain ⟨r10', hrest'⟩ := ih (c := { c with
          r8 := c.r8 + 16, r9 := k, r10 := r10, rdi := b.1, r11 := b.2 })
        (fun q hq ↦ hne q (List.mem_cons_of_mem _ hq)) hrest (by show c.r8 + 16 + _ + 16 < _; omega)
      refine ⟨r10', hblock.trans ?_⟩
      simp only [hlen, List.foldl_cons, hb] at hrest' ⊢
      exact hrest'

/-- The search for the end of a string. -/
theorem repneScasb_eq {m : Memory} (rcx : Nat) {n a : Nat} (hne : ∀ i < n, m (a + i) ≠ 0)
    (hend : m (a + n) = 0) (hrcx : n < rcx) (hlt : a + n + 1 < 2 ^ 64) :
    (repneScasb m 0 rcx a).2 = a + n + 1 := by
  induction n generalizing rcx a with
  | zero =>
      obtain ⟨rcx, rfl⟩ := Nat.exists_eq_succ_of_ne_zero hrcx.ne'
      have hend₀ : m a = 0 := hend
      rw [repneScasb, if_pos hend₀]
      exact wrapAdd_of_lt hlt
  | succ n ih =>
      obtain ⟨rcx, rfl⟩ := Nat.exists_eq_succ_of_ne_zero (Nat.ne_zero_of_lt hrcx)
      have hadd : ∀ i, a + (i + 1) = a + 1 + i := fun i ↦ by omega
      have hne₀ : m a ≠ 0 := hne 0 (Nat.succ_pos n)
      rw [repneScasb, if_neg hne₀, wrapAdd_of_lt (by omega),
        ih _ (fun i hi ↦ ?_) (by rw [← hadd]; exact hend) (by omega) (by omega)]
      · omega
      · rw [← hadd]
        exact hne (i + 1) (by omega)

/-- The copy, to a range apart from the one it reads. -/
theorem repMovsb_eq {m : Memory} {n src dst : Nat} (hsrc : src + n < 2 ^ 64)
    (hdst : dst + n < 2 ^ 64) (hapart : src + n ≤ dst ∨ dst + n ≤ src) (b : Nat) :
    repMovsb m n src dst b = if dst ≤ b ∧ b < dst + n then m (src + (b - dst)) else m b := by
  induction n generalizing m src dst with
  | zero => rw [repMovsb, if_neg (by omega)]
  | succ n ih =>
      rw [repMovsb, wrapAdd_of_lt (by omega), wrapAdd_of_lt (by omega),
        ih (by omega) (by omega) (by omega)]
      by_cases hb : b = dst
      · rw [if_neg (by omega), if_pos (by omega), hb, Function.update_self, Nat.sub_self, Nat.add_zero]
      · by_cases hin : dst + 1 ≤ b ∧ b < dst + 1 + n
        · rw [if_pos hin, if_pos (by omega), Function.update_of_ne (by omega)]
          congr 1
          omega
        · rw [if_neg hin, if_neg (by omega), Function.update_of_ne hb]

/-- The loops that shift pointers. -/
theorem patchPointers {self exit : Label} (hself : ∀ c, step sys (self, c) = patchPointer self exit c)
    {ps : List Nat} (hne : ∀ p ∈ ps, p ≠ 0) {c : Cpu} (hw : WordsAt c.mem c.r10 (ps ++ [0]))
    (hlt : c.r10 + 8 * ps.length + 8 < 2 ^ 64) :
    ∃ m st, Reaches sys (self, c) (exit, { c with
        r10 := c.r10 + 8 * ps.length
        r11 := 0
        mem := m
        stored := st }) ∧
      WordsAt m c.r10 (ps.map (fun p ↦ wrapAdd p c.r9) ++ [0]) ∧
      ∀ b < 2 ^ 64, b < c.r10 ∨ c.r10 + 8 * ps.length ≤ b → m b = c.mem b := by
  induction ps generalizing c with
  | nil =>
      refine ⟨c.mem, c.stored, Reaches.single ?_, hw, fun _ _ _ ↦ rfl⟩
      have h₀ : load64 c.mem c.r10 = 0 := hw.1
      rw [hself, patchPointer]
      simp only [h₀, if_true]
      rfl
  | cons p ps ih =>
      rw [List.length_cons] at hlt
      have hp : load64 c.mem c.r10 = p := hw.1
      have hp₀ : p ≠ 0 := hne p List.mem_cons_self
      have hr10 : wrapAdd c.r10 8 = c.r10 + 8 := wrapAdd_of_lt (by omega)
      obtain ⟨m₁, hm₁⟩ : ∃ m₁, store64 c.mem c.r10 (wrapAdd p c.r9) = m₁ := ⟨_, rfl⟩
      have hout : ∀ b < 2 ^ 64, b < c.r10 ∨ c.r10 + 8 ≤ b → m₁ b = c.mem b := by
        intro b hb hb'
        rw [← hm₁]
        exact store_of_notMem (by omega) hb hb'
      have hblock : step sys (self, c) =
          (self, { c with r10 := c.r10 + 8, r11 := wrapAdd p c.r9, mem := m₁, stored := true }) := by
        rw [hself, patchPointer]
        simp only [hp, if_neg hp₀, Cpu.put, hr10, hm₁]
      have hw₁ : WordsAt m₁ (c.r10 + 8) (ps ++ [0]) := by
        have hlen : (ps ++ [0]).length = ps.length + 1 := by simp
        refine WordsAt.of_bytes hw.2 (by omega) (by omega) fun i hi ↦ hout _ (by omega) (by omega)
      obtain ⟨m, st, hreach, hwords, hframe⟩ := ih
        (c := { c with r10 := c.r10 + 8, r11 := wrapAdd p c.r9, mem := m₁, stored := true })
        (fun q hq ↦ hne q (List.mem_cons_of_mem _ hq)) hw₁ (by show c.r10 + 8 + _ + 8 < _; omega)
      have hlen : c.r10 + 8 + 8 * ps.length = c.r10 + 8 * (ps.length + 1) := by omega
      refine ⟨m, st, Reaches.head hblock ?_, ⟨?_, hwords⟩, ?_⟩
      · rw [← List.length_cons (a := p)] at hlen
        rw [← hlen]
        exact hreach
      · have hsame : load64 m c.r10 = load64 m₁ c.r10 := by
          refine load_eq_of_bytes fun i hi ↦ ?_
          rw [wrap_of_lt (by omega)]
          exact hframe _ (by omega) (.inl (by show _ < c.r10 + 8; omega))
        rw [hsame, ← hm₁]
        refine load64_store64_same (by omega) ?_
        rw [wrapAdd_eq]
        exact wrap_lt _
      · intro b hb hb'
        rw [List.length_cons] at hb'
        have h₁ : m b = m₁ b := hframe b hb (by show b < c.r10 + 8 ∨ c.r10 + 8 + _ ≤ b; omega)
        rw [h₁]
        exact hout b hb (by omega)

/-- The loop that shifts the pointers of the auxiliary vector. -/
theorem patchAuxv_reaches (sys : Sys) {auxv : List (Nat × Nat)} {last : Nat} (hne : ∀ e ∈ auxv, e.1 ≠ 0)
    {c : Cpu} (hw : WordsAt c.mem c.r10 (auxvWords auxv last))
    (hlt : c.r10 + 16 * auxv.length + 16 < 2 ^ 64) :
    ∃ m st, Reaches sys (.patchAuxv, c) (.patchAuxvExit, { c with
        r10 := c.r10 + 16 * auxv.length
        r11 := 0
        mem := m
        stored := st }) ∧
      WordsAt m c.r10 (auxvWords (auxv.map (shiftEntry IsPatched c.r9)) last) ∧
      ∀ b < 2 ^ 64, b < c.r10 ∨ c.r10 + 16 * auxv.length ≤ b → m b = c.mem b := by
  induction auxv generalizing c with
  | nil =>
      refine ⟨c.mem, c.stored, Reaches.single ?_, hw, fun _ _ _ ↦ rfl⟩
      have h₀ : load64 c.mem c.r10 = 0 := hw.1
      simp only [step, h₀, if_true]
      rfl
  | cons e auxv ih =>
      obtain ⟨k, v⟩ := e
      rw [List.length_cons] at hlt
      obtain ⟨hk, hv, hrest⟩ := hw
      have hk₀ : k ≠ 0 := hne (k, v) List.mem_cons_self
      have hr10 : wrapAdd c.r10 8 = c.r10 + 8 := wrapAdd_of_lt (by omega)
      have hr10' : wrapAdd c.r10 16 = c.r10 + 16 := wrapAdd_of_lt (by omega)
      have hadd : c.r10 + 8 + 8 = c.r10 + 16 := by omega
      rw [hadd] at hrest
      -- the blocks up to the next entry write its value only
      have hblock : ∃ r11 m₁ st₁, Reaches sys (.patchAuxv, c) (.patchAuxv, { c with
          r10 := c.r10 + 16, r11 := r11, mem := m₁, stored := st₁ }) ∧
          load64 m₁ (c.r10 + 8) = (shiftEntry IsPatched c.r9 (k, v)).2 ∧
          ∀ b < 2 ^ 64, b < c.r10 + 8 ∨ c.r10 + 16 ≤ b → m₁ b = c.mem b := by
        by_cases hpat : IsPatched k
        · refine ⟨wrapAdd v c.r9, store64 c.mem (c.r10 + 8) (wrapAdd v c.r9), true, ?_, ?_, ?_⟩
          · refine Reaches.head (y := (.doPatchAuxp, { c with r11 := k })) ?_ (Reaches.head
              (y := (.patchIncAuxv, { c with
                r11 := wrapAdd v c.r9
                mem := store64 c.mem (c.r10 + 8) (wrapAdd v c.r9)
                stored := true })) ?_ (Reaches.single ?_))
            · simp only [step, hk, if_neg hk₀, if_pos hpat]
            · simp only [step, Cpu.put, hr10, hv]
            · simp only [step, hr10']
          · rw [shiftEntry, if_pos hpat]
            refine load64_store64_same (by omega) ?_
            rw [wrapAdd_eq]
            exact wrap_lt _
          · intro b hb hb'
            exact store_of_notMem (by omega) hb (by omega)
        · refine ⟨k, c.mem, c.stored, ?_, ?_, fun _ _ _ ↦ rfl⟩
          · refine Reaches.head (y := (.patchIncAuxv, { c with r11 := k })) ?_ (Reaches.single ?_)
            · simp only [step, hk, if_neg hk₀, if_neg hpat]
            · simp only [step, hr10']
          · rw [shiftEntry, if_neg hpat]
            exact hv
      obtain ⟨r11, m₁, st₁, hblock, hval, hout⟩ := hblock
      have hlenw := length_auxvWords auxv last
      have hw₁ : WordsAt m₁ (c.r10 + 16) (auxvWords auxv last) :=
        WordsAt.of_bytes hrest (by omega) (by omega) fun i hi ↦ hout _ (by omega) (by omega)
      obtain ⟨m, st, hreach, hwords, hframe⟩ := ih
        (c := { c with r10 := c.r10 + 16, r11 := r11, mem := m₁, stored := st₁ })
        (fun q hq ↦ hne q (List.mem_cons_of_mem _ hq)) hw₁ (by show c.r10 + 16 + _ + 16 < _; omega)
      have hsame : ∀ a, a + 8 ≤ c.r10 + 16 → load64 m a = load64 m₁ a := by
        intro a ha
        refine load_eq_of_bytes fun i hi ↦ ?_
        rw [wrap_of_lt (by omega)]
        exact hframe _ (by omega) (.inl (by show _ < c.r10 + 16; omega))
      have hlen : c.r10 + 16 + 16 * auxv.length = c.r10 + 16 * ((k, v) :: auxv).length := by
        rw [List.length_cons]
        omega
      refine ⟨m, st, hblock.trans ?_, ⟨?_, ?_, ?_⟩, ?_⟩
      · rw [← hlen]
        exact hreach
      · rw [hsame _ (by omega)]
        refine Eq.trans (load_eq_of_bytes fun i hi ↦ ?_) hk
        rw [wrap_of_lt (by omega)]
        exact hout _ (by omega) (by omega)
      · rw [hsame _ (by omega)]
        exact hval
      · rw [hadd]
        exact hwords
      · intro b hb hb'
        rw [← hlen] at hb'
        have h₁ : m b = m₁ b := hframe b hb (by show b < c.r10 + 16 ∨ c.r10 + 16 + _ ≤ b; omega)
        rw [h₁]
        exact hout b hb (by omega)

/-! ## The start image -/

/-- What the kernel puts on the stack of a new process, from the stack pointer up. -/
structure Image where
  argc : Nat
  argv : List Nat
  envp : List Nat
  auxv : List (Nat × Nat)
  /-- The value of the `AT_NULL` entry. -/
  last : Nat

/-- The image as words. -/
def Image.words (I : Image) : List Nat :=
  I.argc :: (I.argv ++ 0 :: (I.envp ++ 0 :: auxvWords I.auxv I.last))

/-- The pointers of the image to strings. -/
def Image.IsString (I : Image) (p : Nat) : Prop :=
  p ∈ I.argv ∨ p ∈ I.envp ∨ (atPlatform, p) ∈ I.auxv ∨ (atExecfn, p) ∈ I.auxv

/-- A string of `n` bytes and its terminator. -/
def StringAt (m : Memory) (p n : Nat) : Prop := (∀ i < n, m (p + i) ≠ 0) ∧ m (p + n) = 0

/-- The memory holds the image at `rsp`, and what it points to above it, up to `top`. -/
structure StartImage (m : Memory) (rsp : Nat) (I : Image) (top : Nat) : Prop where
  words : WordsAt m rsp I.words
  argc : I.argc = I.argv.length
  argv : ∀ p ∈ I.argv, p ≠ 0
  envp : ∀ p ∈ I.envp, p ≠ 0
  keys : ∀ e ∈ I.auxv, e.1 ≠ atNull
  string : ∀ p, I.IsString p → ∃ n, StringAt m p n ∧ rsp + 8 * I.words.length ≤ p ∧ p + n < top
  random : ∀ p, (atRandom, p) ∈ I.auxv → rsp + 8 * I.words.length ≤ p ∧ p + 16 ≤ top
  /-- The random bytes are not part of a string. -/
  apart : ∀ p q n, (atRandom, p) ∈ I.auxv → I.IsString q → StringAt m q n → p + 16 ≤ q ∨ q + n < p
  hasRandom : ∃ p, (atRandom, p) ∈ I.auxv
  hasExecfn : ∃ p, (atExecfn, p) ∈ I.auxv
  /-- The interpreter is mapped below the stack. -/
  base : ∀ b p, (atBase, b) ∈ I.auxv → I.IsString p ∨ (atRandom, p) ∈ I.auxv → b < p
  /-- The image ends with a string or with the random bytes. -/
  tight : (∃ p n, I.IsString p ∧ StringAt m p n ∧ top = p + n + 1) ∨
    ∃ p, (atRandom, p) ∈ I.auxv ∧ top = p + 16
  /-- There is a byte above the image. -/
  lt : top + 1 < 2 ^ 64

theorem foldl_max_spec (ps : List Nat) (M : Nat) :
    M ≤ ps.foldl max M ∧ (∀ p ∈ ps, p ≤ ps.foldl max M) ∧
      (ps.foldl max M = M ∨ ps.foldl max M ∈ ps) := by
  induction ps generalizing M with
  | nil => simp
  | cons q ps ih =>
      obtain ⟨hle, hall, hmem⟩ := ih (max M q)
      rw [List.foldl_cons]
      refine ⟨(le_max_left _ _).trans hle, ?_, ?_⟩
      · intro p hp
        rcases List.mem_cons.mp hp with rfl | hp
        · exact (le_max_right _ _).trans hle
        · exact hall p hp
      · rcases hmem with hmem | hmem
        · rw [hmem]
          rcases le_total M q with hMq | hMq
          · rw [max_eq_right hMq]
            exact .inr List.mem_cons_self
          · exact .inl (max_eq_left hMq)
        · exact .inr (List.mem_cons_of_mem _ hmem)

theorem foldl_highest_spec (auxv : List (Nat × Nat)) (b : Nat × Nat) :
    b.1 ≤ (auxv.foldl highest b).1 ∧
      (∀ e ∈ auxv, IsPatched e.1 → e.2 ≤ (auxv.foldl highest b).1) ∧
      (auxv.foldl highest b = b ∨ ∃ k, (k, (auxv.foldl highest b).1) ∈ auxv ∧ IsPatched k ∧
        (auxv.foldl highest b).2 = if k = atRandom then 1 else 0) := by
  induction auxv generalizing b with
  | nil => simp
  | cons e auxv ih =>
      obtain ⟨hle, hall, hmem⟩ := ih (highest b e)
      rw [List.foldl_cons]
      have hstep : b.1 ≤ (highest b e).1 ∧ (IsPatched e.1 → e.2 ≤ (highest b e).1) := by
        unfold highest
        split
        · next h => exact ⟨h.2.le, fun _ ↦ le_rfl⟩
        · next h => exact ⟨le_rfl, fun hp ↦ Nat.le_of_not_lt fun hlt ↦ h ⟨hp, hlt⟩⟩
      refine ⟨hstep.1.trans hle, ?_, ?_⟩
      · intro x hx hp
        rcases List.mem_cons.mp hx with rfl | hx
        · exact (hstep.2 hp).trans hle
        · exact hall x hx hp
      · rcases hmem with hmem | ⟨k, hk, hp, hflag⟩
        · rw [hmem]
          unfold highest
          split
          · next h => exact .inr ⟨e.1, List.mem_cons_self, h.1, rfl⟩
          · exact .inl rfl
        · exact .inr ⟨k, List.mem_cons_of_mem _ hk, hp, hflag⟩

/-- The highest pointer of an image, and whether it is that of the random bytes. -/
def Image.highest (I : Image) : Nat × Nat :=
  I.auxv.foldl Runtime.highest (I.envp.foldl max (I.argv.foldl max 0), 0)

/-- No pointer of the image is above the one the scan ends with. -/
theorem Image.le_highest (I : Image) {p : Nat} (hp : I.IsString p ∨ (atRandom, p) ∈ I.auxv) :
    p ≤ I.highest.1 := by
  obtain ⟨hle, hall, -⟩ := foldl_highest_spec I.auxv (I.envp.foldl max (I.argv.foldl max 0), 0)
  obtain ⟨hle₁, hall₁, -⟩ := foldl_max_spec I.envp (I.argv.foldl max 0)
  obtain ⟨-, hall₂, -⟩ := foldl_max_spec I.argv 0
  rcases hp with (hp | hp | hp | hp) | hp
  · exact ((hall₂ p hp).trans hle₁).trans hle
  · exact (hall₁ p hp).trans hle
  · exact hall _ hp (.inr (.inl rfl))
  · exact hall _ hp (.inr (.inr (.inr rfl)))
  · exact hall _ hp (.inr (.inr (.inl rfl)))

/-- The scan ends with a string, or with the random bytes and says so. -/
theorem StartImage.highest_cases {m : Memory} {rsp top : Nat} {I : Image}
    (h : StartImage m rsp I top) :
    (I.highest.2 = 0 ∧ I.IsString I.highest.1) ∨
      (I.highest.2 = 1 ∧ (atRandom, I.highest.1) ∈ I.auxv) := by
  obtain ⟨p, hp⟩ := h.hasRandom
  obtain ⟨q, hq⟩ := h.hasExecfn
  have hpos : 0 < I.highest.1 := by
    have hrsp := (h.random p hp).1
    have hle := I.le_highest (.inr hp)
    simp only [Image.words, List.length_cons] at hrsp
    omega
  obtain ⟨-, -, hmem⟩ := foldl_highest_spec I.auxv (I.envp.foldl max (I.argv.foldl max 0), 0)
  rcases hmem with hmem | ⟨k, hk, hpat, hflag⟩
  · left
    have hbest : I.highest = (I.envp.foldl max (I.argv.foldl max 0), 0) := hmem
    refine ⟨by rw [hbest], ?_⟩
    rw [hbest] at hpos ⊢
    obtain ⟨-, -, henv⟩ := foldl_max_spec I.envp (I.argv.foldl max 0)
    obtain ⟨-, -, harg⟩ := foldl_max_spec I.argv 0
    rcases henv with henv | henv
    · rcases harg with harg | harg
      · have hpos' : 0 < I.envp.foldl max (I.argv.foldl max 0) := hpos
        omega
      · simp only [henv]
        exact .inl harg
    · exact .inr (.inl henv)
  · rcases hpat with rfl | rfl | rfl | rfl
    · exact absurd (h.base _ p hk (.inr hp)) (Nat.not_lt.mpr (I.le_highest (.inr hp)))
    · exact .inl ⟨hflag, .inr (.inr (.inl hk))⟩
    · exact .inr ⟨hflag, hk⟩
    · exact .inl ⟨hflag, .inr (.inr (.inr hk))⟩

/-- The end of the item with the highest pointer is the end of the image. -/
theorem StartImage.end_eq {m : Memory} {rsp top : Nat} {I : Image} (h : StartImage m rsp I top) :
    (I.highest.2 = 0 ∧ ∃ n, StringAt m I.highest.1 n ∧ I.highest.1 + n + 1 = top) ∨
      (I.highest.2 = 1 ∧ I.highest.1 + 16 = top) := by
  rcases h.highest_cases with ⟨hflag, hstr⟩ | ⟨hflag, hrnd⟩
  · left
    obtain ⟨n, hn, -, hlt⟩ := h.string _ hstr
    refine ⟨hflag, n, hn, ?_⟩
    rcases h.tight with ⟨p, n', hp, hn', htop⟩ | ⟨p, hp, htop⟩
    · -- a string that starts lower and ends higher would run over the terminator
      have hle := I.le_highest (.inl hp)
      by_contra hc
      have hoff : p + (I.highest.1 + n - p) = I.highest.1 + n := by omega
      exact hn'.1 (I.highest.1 + n - p) (by omega) (by rw [hoff]; exact hn.2)
    · have hle := I.le_highest (.inr hp)
      have hapart := h.apart p _ n hp hstr hn
      omega
  · right
    refine ⟨hflag, ?_⟩
    have htop := (h.random _ hrnd).2
    rcases h.tight with ⟨p, n, hp, hn, htop'⟩ | ⟨p, hp, htop'⟩
    · have hle := I.le_highest (.inl hp)
      have hapart := h.apart _ p n hrnd hp hn
      omega
    · have hle := I.le_highest (.inr hp)
      omega

/-! ## The run up to the copy -/

theorem Image.length_words (I : Image) :
    I.words.length = I.argv.length + I.envp.length + 2 * I.auxv.length + 5 := by
  simp only [Image.words, List.length_cons, List.length_append, length_auxvWords]
  omega

/-- The parts of the image: `argv`, `envp` and the auxiliary vector. -/
theorem Image.wordsAt_iff {m : Memory} {a : Nat} {I : Image} :
    WordsAt m a I.words ↔ load64 m a = I.argc ∧ WordsAt m (a + 8) (I.argv ++ [0]) ∧
      WordsAt m (a + 8 * I.argv.length + 16) (I.envp ++ [0]) ∧
      WordsAt m (a + 8 * I.argv.length + 8 * I.envp.length + 24) (auxvWords I.auxv I.last) := by
  have h₁ : a + 8 + 8 * I.argv.length + 8 = a + 8 * I.argv.length + 16 := by omega
  have h₂ : a + 8 * I.argv.length + 16 + 8 * I.envp.length + 8 =
      a + 8 * I.argv.length + 8 * I.envp.length + 24 := by omega
  simp only [Image.words, WordsAt, wordsAt_append, h₁, h₂, and_true, and_assoc]

/-- Up to the copy: the end of the image is found, whatever `mmap` answered but null. -/
theorem StartImage.reaches_patch {c : Cpu} {I : Image} {top : Nat}
    (h : StartImage c.mem c.rsp I top) (hmmap : sys.mmap ≠ 0) :
    ∃ c', Reaches sys (.relocateStack, c) (.patch, c') ∧ c'.rdi = top ∧ c'.rdx = sys.mmap ∧
      c'.rsp = c.rsp ∧ c'.mem = c.mem := by
  obtain ⟨p, hp⟩ := h.hasRandom
  have hroom : c.rsp + 8 * I.words.length ≤ 2 ^ 64 - 18 := by
    have h₁ := h.random p hp
    have h₂ := h.lt
    omega
  rw [I.length_words] at hroom
  obtain ⟨-, hargv, henvp, hauxv⟩ := Image.wordsAt_iff.mp h.words
  have hrsp : wrapAdd c.rsp 8 = c.rsp + 8 := wrapAdd_of_lt (by omega)
  have h₁ : wrapAdd (c.rsp + 8 + 8 * I.argv.length) 8 = c.rsp + 8 * I.argv.length + 16 := by
    rw [wrapAdd_of_lt (by omega)]
    omega
  have h₂ : wrapAdd (c.rsp + 8 * I.argv.length + 16 + 8 * I.envp.length) 8 =
      c.rsp + 8 * I.argv.length + 8 * I.envp.length + 24 := by
    rw [wrapAdd_of_lt (by omega)]
    omega
  obtain ⟨c₁, hr₁, hr8, hrdi, hr11, hrax, hrsp₁, hmem⟩ : ∃ c₁, Reaches sys (.relocateStack, c)
      (.scanArgv, c₁) ∧ c₁.r8 = c.rsp + 8 ∧ c₁.rdi = 0 ∧ c₁.r11 = 0 ∧ c₁.rax = sys.mmap ∧
      c₁.rsp = c.rsp ∧ c₁.mem = c.mem := by
    refine ⟨{ c with
      r12 := c.rdx, rax := sys.mmap, rdi := 0, rsi := stackSize, rdx := 3, r10 := 34,
      r8 := c.rsp + 8, r9 := 0, rcx := sys.rcx 9, r11 := 0 }, Reaches.single ?_, by simp⟩
    simp only [step, Cpu.syscall, if_neg hmmap, hrsp]
  -- the loop over `argv`
  obtain ⟨c₂, hr₂, hr8₂, hrdi₂, hr11₂, hrax₂, hrsp₂, hmem₂⟩ : ∃ c₂, Reaches sys (.scanArgv, c₁)
      (.scanEnvp, c₂) ∧ c₂.r8 = c.rsp + 8 * I.argv.length + 16 ∧ c₂.rdi = I.argv.foldl max 0 ∧
      c₂.r11 = 0 ∧ c₂.rax = sys.mmap ∧ c₂.rsp = c.rsp ∧ c₂.mem = c.mem := by
    refine ⟨_, (scanPointers (step_scanArgv sys) (step_incArgv sys) h.argv (by rw [hmem, hr8]; exact hargv)
      (by omega)).trans (Reaches.single (step_scanArgvExit sys _)), ?_⟩
    simp only [hr8, h₁, hrdi, hr11, hrax, hrsp₁, hmem, and_self]
  -- the loop over `envp`
  obtain ⟨c₃, hr₃, hr8₃, hrdi₃, hr11₃, hrax₃, hrsp₃, hmem₃⟩ : ∃ c₃, Reaches sys (.scanEnvp, c₂)
      (.scanAuxv, c₃) ∧ c₃.r8 = c.rsp + 8 * I.argv.length + 8 * I.envp.length + 24 ∧
      c₃.rdi = I.envp.foldl max (I.argv.foldl max 0) ∧ c₃.r11 = 0 ∧ c₃.rax = sys.mmap ∧
      c₃.rsp = c.rsp ∧ c₃.mem = c.mem := by
    refine ⟨_, (scanPointers (step_scanEnvp sys) (step_incEnvp sys) h.envp (by rw [hmem₂, hr8₂]; exact henvp)
      (by omega)).trans (Reaches.single (step_scanEnvpExit sys _)), ?_⟩
    simp only [hr8₂, h₂, hrdi₂, hr11₂, hrax₂, hrsp₂, hmem₂, and_self]
  -- the loop over the auxiliary vector, and the end of the highest item
  obtain ⟨r10, hr₄⟩ := scanAuxv_reaches sys h.keys (c := c₃)
    (by rw [hmem₃, hr8₃]; exact hauxv) (by omega)
  rw [hrdi₃, hr11₃] at hr₄
  have hbest : I.auxv.foldl highest (I.envp.foldl max (I.argv.foldl max 0), 0) = I.highest := rfl
  rw [hbest] at hr₄
  have hfound := ((hr₁.trans hr₂).trans hr₃).trans hr₄
  obtain ⟨c₄, hr₄, hrdi₄, hr11₄, hrax₄, hrsp₄, hmem₄⟩ : ∃ c₄, Reaches sys (.relocateStack, c)
      (.scanAuxvExit, c₄) ∧ c₄.rdi = I.highest.1 ∧ c₄.r11 = I.highest.2 ∧ c₄.rax = sys.mmap ∧
      c₄.rsp = c.rsp ∧ c₄.mem = c.mem := ⟨_, hfound, rfl, rfl, hrax₃, hrsp₃, hmem₃⟩
  rcases h.end_eq with ⟨hflag, n, hstr, htop⟩ | ⟨hflag, htop⟩
  · have hscas := repneScasb_eq (2 ^ 64 - 1) hstr.1 hstr.2 (by have := h.lt; omega)
      (by have := h.lt; omega)
    obtain ⟨r, hr⟩ : ∃ r, repneScasb c.mem 0 (2 ^ 64 - 1) I.highest.1 = r := ⟨_, rfl⟩
    refine ⟨{ c₄ with
      r8 := wrapAdd c₄.r8 16, rdx := sys.mmap, rax := sys.mmap - sys.mmap % 256, rcx := r.1,
      rdi := r.2 }, hr₄.trans (Reaches.single ?_), ?_⟩
    · simp only [step, hr11₄, hflag, ne_eq, not_true_eq_false, if_false, hmem₄, hrdi₄, hr, hrax₄]
    · rw [hr] at hscas
      exact ⟨hscas.trans htop, rfl, hrsp₄, hmem₄⟩
  · have hr11 : c₄.r11 ≠ 0 := by rw [hr11₄, hflag]; decide
    have hadd : wrapAdd I.highest.1 16 = top := by
      rw [wrapAdd_of_lt (by have := h.lt; omega), htop]
    refine ⟨{ c₄ with r8 := wrapAdd c₄.r8 16, rdx := sys.mmap, rdi := top },
      hr₄.trans (Reaches.head (y := (.atRndHighest, { c₄ with
        r8 := wrapAdd c₄.r8 16, rdx := sys.mmap })) ?_ (Reaches.single ?_)), rfl, rfl, hrsp₄, hmem₄⟩
    · simp only [step, if_pos hr11, hrax₄]
    · simp only [step, hrdi₄, hadd]

/-! ## The copy and its pointers -/

/-- The new stack pointer, for an image of `n` bytes and a mapping at `A`. -/
def newStack (A n : Nat) : Nat := alignDown 4 (A + stackSize - (n + 1))

theorem newStack_spec {A n : Nat} (hn : n + 64 ≤ stackSize) :
    newStack A n % 16 = 0 ∧ A + 48 ≤ newStack A n ∧ newStack A n + n + 1 ≤ A + stackSize := by
  unfold newStack alignDown
  omega

/-- Shifting a pointer into the old image. -/
theorem wrapAdd_wrapSub {p rsp new : Nat} (hp : rsp ≤ p) (hnew : p - rsp + new < 2 ^ 64) :
    wrapAdd p (wrapSub new rsp) = p - rsp + new := by
  unfold wrapAdd wrapSub
  omega

/-- The memory after the copy. -/
def copied (m : Memory) (rsp new n : Nat) : Memory :=
  fun b ↦ if new ≤ b ∧ b < new + n then m (rsp + (b - new)) else m b

theorem reaches_patchArgv (sys : Sys) {c : Cpu} {A top : Nat} (hrdi : c.rdi = top) (hrdx : c.rdx = A)
    (hle : c.rsp ≤ top) (hlt : top + 1 < 2 ^ 64) (hsize : top - c.rsp + 64 ≤ stackSize)
    (hend : A + stackSize < 2 ^ 64) (hapart : A + stackSize ≤ c.rsp ∨ top + 1 ≤ A) :
    ∃ c', Reaches sys (.patch, c) (.patchArgv, c') ∧ c'.rax = newStack A (top - c.rsp) ∧
      c'.rsp = c.rsp ∧ c'.r9 = wrapSub (newStack A (top - c.rsp)) c.rsp ∧
      c'.r10 = newStack A (top - c.rsp) + 8 ∧
      c'.mem = copied c.mem c.rsp (newStack A (top - c.rsp)) (top - c.rsp + 1) := by
  obtain ⟨hal, hlo, hhi⟩ := newStack_spec (A := A) hsize
  have hrcx : wrapAdd (wrapSub top c.rsp) 1 = top - c.rsp + 1 := by
    unfold wrapAdd wrapSub
    omega
  have hdst : alignDown 4 (wrapSub (wrapAdd A stackSize) (top - c.rsp + 1)) =
      newStack A (top - c.rsp) := by
    rw [newStack, wrapAdd_of_lt hend, wrapSub_of_le (by omega) hend]
  have hr10 : wrapAdd (newStack A (top - c.rsp)) 8 = newStack A (top - c.rsp) + 8 :=
    wrapAdd_of_lt (by omega)
  have hmem : repMovsb c.mem (top - c.rsp + 1) c.rsp (newStack A (top - c.rsp)) =
      copied c.mem c.rsp (newStack A (top - c.rsp)) (top - c.rsp + 1) := by
    funext b
    exact repMovsb_eq (by omega) (by omega) (by omega) b
  refine ⟨_, Reaches.single rfl, ?_⟩
  simp only [hrdi, hrdx, hrcx, hdst, hmem, hr10, and_self]

/-- The image with its pointers shifted by `delta`. -/
def Image.shift (I : Image) (delta : Nat) : Image where
  argc := I.argc
  argv := I.argv.map fun p ↦ wrapAdd p delta
  envp := I.envp.map fun p ↦ wrapAdd p delta
  auxv := I.auxv.map (shiftEntry IsPatched delta)
  last := I.last

/-- The three loops over the copy. -/
theorem reaches_patchAuxvExit (sys : Sys) {c : Cpu} {I : Image} {new : Nat}
    (hw : WordsAt c.mem new I.words) (hr10 : c.r10 = new + 8) (hargv : ∀ p ∈ I.argv, p ≠ 0)
    (henvp : ∀ p ∈ I.envp, p ≠ 0) (hkeys : ∀ e ∈ I.auxv, e.1 ≠ 0)
    (hlt : new + 8 * I.words.length < 2 ^ 64) :
    ∃ c', Reaches sys (.patchArgv, c) (.patchAuxvExit, c') ∧ c'.rax = c.rax ∧ c'.rsp = c.rsp ∧
      WordsAt c'.mem new (I.shift c.r9).words ∧
      ∀ b < 2 ^ 64, b < new ∨ new + 8 * I.words.length ≤ b → c'.mem b = c.mem b := by
  rw [I.length_words] at hlt ⊢
  obtain ⟨hargc, hwa, hwe, hwx⟩ := Image.wordsAt_iff.mp hw
  -- `argv`
  obtain ⟨m₁, st₁, hreach₁, hwords₁, hframe₁⟩ := patchPointers (step_patchArgv sys) hargv
    (c := c) (by rw [hr10]; exact hwa) (by omega)
  rw [hr10] at hwords₁ hframe₁
  have hadd₁ : wrapAdd (c.r10 + 8 * I.argv.length) 8 = new + 8 * I.argv.length + 16 := by
    rw [wrapAdd_of_lt (by omega)]
    omega
  obtain ⟨c₁, hr₁, hr10₁, hr9₁, hrax₁, hrsp₁, hmem₁⟩ : ∃ c₁, Reaches sys (.patchArgv, c)
      (.patchEnvp, c₁) ∧ c₁.r10 = new + 8 * I.argv.length + 16 ∧ c₁.r9 = c.r9 ∧ c₁.rax = c.rax ∧
      c₁.rsp = c.rsp ∧ c₁.mem = m₁ :=
    ⟨_, hreach₁.trans (Reaches.single (step_patchArgvExit sys _)), hadd₁, rfl, rfl, rfl, rfl⟩
  have hwe₁ : WordsAt m₁ (new + 8 * I.argv.length + 16) (I.envp ++ [0]) := by
    have hlen : (I.envp ++ [0]).length = I.envp.length + 1 := by simp
    exact hwe.of_bytes (by omega) (by omega) fun i hi ↦ hframe₁ _ (by omega) (by omega)
  have hlenx := length_auxvWords I.auxv I.last
  have hwx₁ : WordsAt m₁ (new + 8 * I.argv.length + 8 * I.envp.length + 24)
      (auxvWords I.auxv I.last) :=
    hwx.of_bytes (by omega) (by omega) fun i hi ↦ hframe₁ _ (by omega) (by omega)
  -- `envp`
  obtain ⟨m₂, st₂, hreach₂, hwords₂, hframe₂⟩ := patchPointers (step_patchEnvp sys) henvp
    (c := c₁) (by rw [hr10₁, hmem₁]; exact hwe₁) (by omega)
  rw [hr10₁, hr9₁] at hwords₂
  rw [hr10₁, hmem₁] at hframe₂
  have hadd₂ : wrapAdd (c₁.r10 + 8 * I.envp.length) 8 =
      new + 8 * I.argv.length + 8 * I.envp.length + 24 := by
    rw [wrapAdd_of_lt (by omega)]
    omega
  obtain ⟨c₂, hr₂, hr10₂, hr9₂, hrax₂, hrsp₂, hmem₂⟩ : ∃ c₂, Reaches sys (.patchEnvp, c₁)
      (.patchAuxv, c₂) ∧ c₂.r10 = new + 8 * I.argv.length + 8 * I.envp.length + 24 ∧
      c₂.r9 = c.r9 ∧ c₂.rax = c.rax ∧ c₂.rsp = c.rsp ∧ c₂.mem = m₂ :=
    ⟨_, hreach₂.trans (Reaches.single (step_patchEnvpExit sys _)), hadd₂, hr9₁, hrax₁, hrsp₁, rfl⟩
  have hwx₂ : WordsAt m₂ (new + 8 * I.argv.length + 8 * I.envp.length + 24)
      (auxvWords I.auxv I.last) :=
    hwx₁.of_bytes (by omega) (by omega) fun i hi ↦ hframe₂ _ (by omega) (by omega)
  -- the auxiliary vector
  obtain ⟨m₃, st₃, hreach₃, hwords₃, hframe₃⟩ := patchAuxv_reaches sys hkeys (c := c₂)
    (by rw [hr10₂, hmem₂]; exact hwx₂) (by omega)
  rw [hr10₂, hr9₂] at hwords₃
  rw [hr10₂, hmem₂] at hframe₃
  obtain ⟨c₃, hr₃, hrax₃, hrsp₃, hmem₃⟩ : ∃ c₃, Reaches sys (.patchAuxv, c₂) (.patchAuxvExit, c₃) ∧
      c₃.rax = c.rax ∧ c₃.rsp = c.rsp ∧ c₃.mem = m₃ := ⟨_, hreach₃, hrax₂, hrsp₂, rfl⟩
  rw [← hmem₃] at hwords₃ hframe₃
  have hlena : (I.argv.map fun p ↦ wrapAdd p c.r9).length = I.argv.length := List.length_map ..
  have hlene : (I.envp.map fun p ↦ wrapAdd p c.r9).length = I.envp.length := List.length_map ..
  refine ⟨c₃, (hr₁.trans hr₂).trans hr₃, hrax₃, hrsp₃, Image.wordsAt_iff.mpr ⟨?_, ?_, ?_, ?_⟩, ?_⟩
  · refine Eq.trans (load_eq_of_bytes fun i hi ↦ ?_) hargc
    rw [wrap_of_lt (by omega), hframe₃ _ (by omega) (by omega), hframe₂ _ (by omega) (by omega),
      hframe₁ _ (by omega) (by omega)]
  · have hlen : (I.argv.map (fun p ↦ wrapAdd p c.r9) ++ [0]).length = I.argv.length + 1 := by simp
    refine hwords₁.of_bytes (by omega) (by omega) fun i hi ↦ ?_
    rw [hframe₃ _ (by omega) (by omega), hframe₂ _ (by omega) (by omega)]
  · have hlen : (I.envp.map (fun p ↦ wrapAdd p c.r9) ++ [0]).length = I.envp.length + 1 := by simp
    simp only [Image.shift, hlena]
    refine hwords₂.of_bytes (by omega) (by omega) fun i hi ↦ ?_
    rw [hframe₃ _ (by omega) (by omega)]
  · simp only [Image.shift, hlena, hlene]
    exact hwords₃
  · intro b hb hb'
    rw [hframe₃ b hb (by omega), hframe₂ b hb (by omega), hframe₁ b hb (by omega)]

/-! ## The image after the move -/

/-- The pointer `p'` into the mapping at `A` points to the string that `p` pointed to. -/
def SameString (m m' : Memory) (A p p' : Nat) : Prop :=
  ∃ n, StringAt m p n ∧ StringAt m' p' n ∧ (∀ i < n, m' (p' + i) = m (p + i)) ∧ A ≤ p' ∧
    p' + n < A + stackSize

/-- The entry has kept its key, and points to the same string or the same random bytes. -/
structure SameEntry (m m' : Memory) (A : Nat) (e e' : Nat × Nat) : Prop where
  key : e'.1 = e.1
  string : e.1 = atPlatform ∨ e.1 = atExecfn → SameString m m' A e.2 e'.2
  random : e.1 = atRandom →
    (∀ i < 16, m' (e'.2 + i) = m (e.2 + i)) ∧ A ≤ e'.2 ∧ e'.2 + 16 ≤ A + stackSize

/-- The start image `I` was moved from `rsp` to `new`, in the mapping at `A`. -/
structure Relocated (m : Memory) (rsp top A : Nat) (I : Image) (m' : Memory) (new : Nat) : Prop where
  aligned : new % 16 = 0
  lower : A ≤ new
  upper : new + (top - rsp) ≤ A + stackSize
  /-- The new image has the old counts, and its vectors end where the old ones ended. -/
  image : ∃ I' : Image, WordsAt m' new I'.words ∧ I'.argc = I.argc ∧
    List.Forall₂ (SameString m m' A) I.argv I'.argv ∧
    List.Forall₂ (SameString m m' A) I.envp I'.envp ∧
    List.Forall₂ (SameEntry m m' A) I.auxv I'.auxv ∧
    (∀ p ∈ I'.argv, p ≠ 0) ∧ (∀ p ∈ I'.envp, p ≠ 0) ∧ ∀ e ∈ I'.auxv, e.1 ≠ atNull
  old : ∀ b, rsp ≤ b → b ≤ top → m' b = m b

/-- **Stack relocation preserves the start image**: for every image laid out by the kernel that fits
the new stack, and every mapping apart from it. -/
theorem relocated_image {c : Cpu} {I : Image} {top : Nat} (h : StartImage c.mem c.rsp I top)
    (hsize : top - c.rsp + 64 ≤ stackSize) (hpos : 0 < sys.mmap)
    (hend : sys.mmap + stackSize < 2 ^ 64)
    (hapart : sys.mmap + stackSize ≤ c.rsp ∨ top + 1 ≤ sys.mmap) :
    ∃ c', Reaches sys (.relocateStack, c) (.patchAuxvExit, c') ∧
      Relocated c.mem c.rsp top sys.mmap I c'.mem c'.rax := by
  obtain ⟨q, hq⟩ := h.hasRandom
  have hq' := h.random q hq
  have hlt := h.lt
  obtain ⟨hal, hlo, hhi⟩ := newStack_spec (A := sys.mmap) hsize
  obtain ⟨new, hnew⟩ : ∃ new, newStack sys.mmap (top - c.rsp) = new := ⟨_, rfl⟩
  obtain ⟨c₁, hr₁, hrdi, hrdx, hrsp, hmem⟩ := h.reaches_patch hpos.ne'
  obtain ⟨c₂, hr₂, hrax₂, hrsp₂, hr9₂, hr10₂, hmem₂⟩ := reaches_patchArgv sys (c := c₁)
    hrdi hrdx (by omega) hlt (by rwa [hrsp]) hend (by rwa [hrsp])
  rw [hrsp, hmem, hnew] at hmem₂
  rw [hrsp, hnew] at hrax₂ hr9₂ hr10₂
  rw [hnew] at hal hlo hhi
  -- the copy holds the image, and everything above it
  have hcopy : ∀ i, i ≤ top - c.rsp → c₂.mem (new + i) = c.mem (c.rsp + i) := by
    intro i hi
    rw [hmem₂, copied, if_pos (by omega), Nat.add_sub_cancel_left]
  have hwords : WordsAt c₂.mem new I.words :=
    h.words.of_bytes (by omega) (by omega) fun i hi ↦ hcopy i (by omega)
  obtain ⟨c₃, hr₃, hrax₃, -, hw, hframe⟩ := reaches_patchAuxvExit sys hwords hr10₂ h.argv h.envp h.keys
    (by omega)
  have hbyte : ∀ p, c.rsp + 8 * I.words.length ≤ p → p ≤ top →
      c₃.mem (p - c.rsp + new) = c.mem p := by
    intro p hp hp'
    have hback : c.rsp + (p - c.rsp) = p := by omega
    rw [hframe _ (by omega) (by omega), Nat.add_comm, hcopy _ (by omega), hback]
  have hshift : ∀ p, c.rsp + 8 * I.words.length ≤ p → p ≤ top →
      wrapAdd p c₂.r9 = p - c.rsp + new := by
    intro p hp hp'
    rw [hr9₂]
    exact wrapAdd_wrapSub (by omega) (by omega)
  have hstring : ∀ p, I.IsString p → SameString c.mem c₃.mem sys.mmap p (wrapAdd p c₂.r9) := by
    intro p hp
    obtain ⟨n, hn, hlo', hhi'⟩ := h.string p hp
    have hsame : ∀ i ≤ n, c₃.mem (p - c.rsp + new + i) = c.mem (p + i) := by
      intro i hi
      have hoff : p - c.rsp + new + i = p + i - c.rsp + new := by omega
      rw [hoff]
      exact hbyte _ (by omega) (by omega)
    rw [hshift p hlo' (by omega)]
    refine ⟨n, hn, ⟨fun i hi ↦ ?_, ?_⟩, fun i hi ↦ hsame i hi.le, by omega, by omega⟩
    · rw [hsame i hi.le]
      exact hn.1 i hi
    · rw [hsame n le_rfl]
      exact hn.2
  have hne : ∀ p, I.IsString p → wrapAdd p c₂.r9 ≠ 0 := by
    intro p hp
    obtain ⟨n, -, -, -, hA⟩ := hstring p hp
    exact (lt_of_lt_of_le hpos hA.1).ne'
  refine ⟨c₃, (hr₁.trans hr₂).trans hr₃, ?_⟩
  rw [hrax₃, hrax₂]
  refine ⟨hal, by omega, by omega, ⟨I.shift c₂.r9, hw, rfl, ?_, ?_, ?_, ?_, ?_, ?_⟩, ?_⟩
  · exact List.forall₂_map_right_iff.mpr (List.forall₂_same.mpr fun p hp ↦ hstring p (.inl hp))
  · exact List.forall₂_map_right_iff.mpr
      (List.forall₂_same.mpr fun p hp ↦ hstring p (.inr (.inl hp)))
  · refine List.forall₂_map_right_iff.mpr (List.forall₂_same.mpr fun ⟨k, v⟩ he ↦ ⟨rfl, ?_, ?_⟩)
    · rintro (hk | hk)
      · obtain rfl : k = atPlatform := hk
        rw [shiftEntry, if_pos (.inr (.inl rfl))]
        exact hstring v (.inr (.inr (.inl he)))
      · obtain rfl : k = atExecfn := hk
        rw [shiftEntry, if_pos (.inr (.inr (.inr rfl)))]
        exact hstring v (.inr (.inr (.inr he)))
    · intro hk
      obtain rfl : k = atRandom := hk
      obtain ⟨hv, hv'⟩ := h.random v he
      rw [shiftEntry, if_pos (.inr (.inr (.inl rfl)))]
      simp only
      rw [hshift v hv (by omega)]
      refine ⟨fun i hi ↦ ?_, by omega, by omega⟩
      have hoff : v - c.rsp + new + i = v + i - c.rsp + new := by omega
      rw [hoff]
      exact hbyte _ (by omega) (by omega)
  · intro p hp
    obtain ⟨p₀, hp₀, rfl⟩ := List.mem_map.mp hp
    exact hne p₀ (.inl hp₀)
  · intro p hp
    obtain ⟨p₀, hp₀, rfl⟩ := List.mem_map.mp hp
    exact hne p₀ (.inr (.inl hp₀))
  · intro e he
    obtain ⟨e₀, he₀, rfl⟩ := List.mem_map.mp he
    exact h.keys e₀ he₀
  · intro b hb hb'
    rw [hframe b (by omega) (by omega), hmem₂, copied, if_neg (by omega)]

/-- The memory of a process started as `A` from the file `B`, with its stack pointer at `0x1000`. -/
def smallMem : Memory := fun b ↦
  if b = 0x1000 then 1
  else if b = 0x1008 then 0x68
  else if b = 0x1009 then 0x10
  else if b = 0x1020 then 25
  else if b = 0x1028 then 0x58
  else if b = 0x1029 then 0x10
  else if b = 0x1030 then 31
  else if b = 0x1038 then 0x6a
  else if b = 0x1039 then 0x10
  else if b = 0x1068 then 0x41
  else if b = 0x106a then 0x42
  else 0

def smallImage : Image := ⟨1, [0x1068], [], [(25, 0x1058), (31, 0x106a)], 0⟩

theorem startImage_small : StartImage smallMem 0x1000 smallImage 0x106c := by
  have hA : StringAt smallMem 0x1068 1 := ⟨by decide, by decide⟩
  have hB : StringAt smallMem 0x106a 1 := ⟨by decide, by decide⟩
  have hstr : ∀ p, smallImage.IsString p → p = 0x1068 ∨ p = 0x106a := by
    rintro p (hp | hp | hp | hp)
    · exact .inl (by simpa [smallImage] using hp)
    · simp [smallImage] at hp
    · simp [smallImage, atPlatform] at hp
    · exact .inr (by simpa [smallImage, atExecfn] using hp)
  have hrnd : ∀ p, (atRandom, p) ∈ smallImage.auxv → p = 0x1058 := by
    intro p hp
    simpa [smallImage, atRandom] using hp
  refine ⟨?_, rfl, by simp [smallImage], by simp [smallImage], by simp [smallImage, atNull], ?_, ?_,
    ?_, ⟨0x1058, by simp [smallImage, atRandom]⟩, ⟨0x106a, by simp [smallImage, atExecfn]⟩, ?_, ?_,
    by decide⟩
  · exact ⟨rfl, rfl, rfl, rfl, rfl, rfl, rfl, rfl, rfl, rfl, trivial⟩
  · intro p hp
    rcases hstr p hp with rfl | rfl
    · exact ⟨1, hA, by decide, by decide⟩
    · exact ⟨1, hB, by decide, by decide⟩
  · intro p hp
    rw [hrnd p hp]
    exact ⟨by decide, by decide⟩
  · intro p q n hp hq _
    rw [hrnd p hp]
    rcases hstr q hq with rfl | rfl
    · exact .inl (by decide)
    · exact .inl (by decide)
  · intro b p hb
    simp [smallImage, atBase] at hb
  · exact .inl ⟨0x106a, 1, by simp [Image.IsString, smallImage, atExecfn], hB, rfl⟩

/-- A kernel that maps the new stack at the hint and accepts everything. -/
def helpful : Sys where
  devName := 0x2000
  mmap := adrHint
  open_ := 3
  ioctl := 0
  close := 0
  error := 0
  rcx _ := 0
  r11 _ := 0

/-- The registers of a new process. -/
def fresh (rsp : Nat) (m : Memory) : Cpu := ⟨0, 0, 0, 0, 0, rsp, 0, 0, 0, 0, 0, 0, 0, 0, m, false⟩

theorem relocated_image_small :
    ∃ c', Reaches helpful (.relocateStack, fresh 0x1000 smallMem) (.patchAuxvExit, c') ∧
      Relocated smallMem 0x1000 0x106c adrHint smallImage c'.mem c'.rax :=
  relocated_image (c := fresh 0x1000 smallMem) startImage_small (by decide) (by decide) (by decide)
    (.inr (by decide))

end ShadowStack.Runtime
