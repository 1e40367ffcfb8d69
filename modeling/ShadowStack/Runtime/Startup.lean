import ShadowStack.Runtime.Relocate

/-!
# How the start of a process ends

`relocate_stack` makes four system calls.  `mmap`, `open` and `ioctl` report failure with a negative
answer, and `sa_pivot` in the error field of its parameters.  This file says for every combination of
answers where the code ends up: at `_start`, or in `exit` with some status.
-/

namespace ShadowStack.Runtime

open Lib

variable {sys : Sys}

/-- An answer of a system call that reports an error. -/
def IsErrno (answer : Nat) : Prop := ∃ e, 1 ≤ e ∧ e ≤ 4095 ∧ answer = 2 ^ 64 - e

/-- What the kernel may answer, for an image from `rsp` to `top`. -/
structure KernelAnswers (sys : Sys) (rsp top : Nat) : Prop where
  /-- An error, or a mapping in the address space that is apart from the old stack. -/
  mmap : IsErrno sys.mmap ∨ 0 < sys.mmap ∧ sys.mmap + stackSize < 2 ^ 63 ∧
    (sys.mmap + stackSize ≤ rsp ∨ top + 1 ≤ sys.mmap)
  /-- An error or a file descriptor. -/
  open_ : IsErrno sys.open_ ∨ sys.open_ < 2 ^ 31
  ioctl : IsErrno sys.ioctl ∨ sys.ioctl = 0
  error : sys.error < 2 ^ 64

/-- All four steps of the pivot succeeded. -/
structure Completed (sys : Sys) : Prop where
  mmap : ¬ IsErrno sys.mmap
  open_ : ¬ IsErrno sys.open_
  ioctl : ¬ IsErrno sys.ioctl
  error : sys.error = 0

/-- The program starts on a completed pivot only. -/
structure Sound (sys : Sys) (c : Cpu) : Prop where
  start : ∀ c', Reaches sys (.relocateStack, c) (.start, c') → Completed sys
  exits : ¬ Completed sys →
    ∃ status c', Reaches sys (.relocateStack, c) (.exited status, c') ∧ status ≠ 0
  untouched : IsErrno sys.mmap →
    ∀ l c', Reaches sys (.relocateStack, c) (l, c') → c'.stored = false

theorem IsErrno.le {x : Nat} (h : IsErrno x) : 2 ^ 63 ≤ x := by
  obtain ⟨e, h₁, h₂, rfl⟩ := h
  omega

theorem not_isErrno {x : Nat} (h : x < 2 ^ 63) : ¬ IsErrno x :=
  fun hc ↦ absurd hc.le (Nat.not_le.mpr h)

/-! ## Where a run ends -/

/-- The two ends of the code. -/
def Label.Final : Label → Prop
  | .start => True
  | .exited _ => True
  | _ => False

/-- A run stays at its end. -/
theorem Reaches.eq_of_final {x y : Label × Cpu} (hx : x.1.Final) (h : Reaches sys x y) : y = x := by
  have hstay : step sys x = x := by
    obtain ⟨l, c⟩ := x
    cases l <;> simp_all [Label.Final, step]
  induction h with
  | refl => rfl
  | tail _ hs ih =>
      rw [ih] at hs
      exact hs.symm.trans hstay

/-- A run has one end. -/
theorem Reaches.unique {x y z : Label × Cpu} (h : Reaches sys x y) (h' : Reaches sys x z)
    (hy : y.1.Final) (hz : z.1.Final) : y = z := by
  have huniq : Relator.RightUnique fun x y : Label × Cpu ↦ step sys x = y :=
    fun _ _ _ h₁ h₂ ↦ h₁.symm.trans h₂
  rcases Relation.ReflTransGen.total_of_right_unique huniq h h' with hyz | hzy
  · exact (Reaches.eq_of_final hy hyz).symm
  · exact Reaches.eq_of_final hz hzy

/-- Where the code ends once it has mapped a new stack. -/
def Sys.ending (sys : Sys) : Label :=
  if 2 ^ 63 ≤ sys.open_ then .exited 1
  else if 2 ^ 63 ≤ sys.ioctl then .exited (sys.open_ % 256)
  else .start

theorem Sys.final_ending (sys : Sys) : sys.ending.Final := by
  unfold Sys.ending
  split
  · trivial
  · split <;> trivial

/-- The last blocks. -/
theorem reaches_ending (sys : Sys) (c : Cpu) :
    ∃ c', Reaches sys (.patchAuxvExit, c) (sys.ending, c') := by
  have hrax : (c.openDevice sys).rax = sys.open_ := rfl
  have hrax' : ((c.openDevice sys).pivot sys).rax = sys.ioctl := rfl
  unfold Sys.ending
  by_cases hopen : 2 ^ 63 ≤ sys.open_
  · rw [if_pos hopen]
    have hblock : step sys (.patchAuxvExit, c) = (.out, c.openDevice sys) :=
      if_pos (by rwa [hrax])
    exact ⟨_, Reaches.head hblock (Reaches.single rfl)⟩
  · rw [if_neg hopen]
    by_cases hioctl : 2 ^ 63 ≤ sys.ioctl
    · rw [if_pos hioctl]
      have hblock : step sys (.patchAuxvExit, c) = (.out2, (c.openDevice sys).pivot sys) :=
        (if_neg (by rwa [hrax])).trans (if_pos (by rwa [hrax']))
      exact ⟨_, Reaches.head hblock (Reaches.single rfl)⟩
    · rw [if_neg hioctl]
      have hblock : step sys (.patchAuxvExit, c) =
          (.start, ((c.openDevice sys).pivot sys).closeDevice sys) :=
        (if_neg (by rwa [hrax])).trans (if_neg (by rwa [hrax']))
      exact ⟨_, Reaches.single hblock⟩

section Runs

variable {c : Cpu} {I : Image} {top : Nat}

/-- With a new stack, the code ends as the other answers say. -/
theorem StartImage.reaches_ending (h : StartImage c.mem c.rsp I top)
    (hsize : top - c.rsp + 64 ≤ stackSize) (hans : KernelAnswers sys c.rsp top)
    (hmmap : ¬ IsErrno sys.mmap) :
    ∃ c', Reaches sys (.relocateStack, c) (sys.ending, c') := by
  obtain ⟨hpos, hend, hapart⟩ := hans.mmap.resolve_left hmmap
  obtain ⟨q, hq⟩ := h.hasRandom
  have hq' := h.random q hq
  have hlt := h.lt
  obtain ⟨-, hlo, hhi⟩ := newStack_spec (A := sys.mmap) hsize
  obtain ⟨c₁, hr₁, hrdi, hrdx, hrsp, hmem⟩ := h.reaches_patch hpos.ne'
  obtain ⟨c₂, hr₂, -, -, -, hr10₂, hmem₂⟩ := reaches_patchArgv sys (c := c₁) hrdi hrdx (by omega) hlt
    (by rwa [hrsp]) (by omega) (by rwa [hrsp])
  rw [hrsp, hmem] at hmem₂
  rw [hrsp] at hr10₂
  have hwords : WordsAt c₂.mem (newStack sys.mmap (top - c.rsp)) I.words := by
    refine h.words.of_bytes (by omega) (by omega) fun i hi ↦ ?_
    rw [hmem₂, copied, if_pos (by omega), Nat.add_sub_cancel_left]
  obtain ⟨c₃, hr₃, -⟩ := reaches_patchAuxvExit sys hwords hr10₂ h.argv h.envp h.keys (by omega)
  obtain ⟨c₄, hr₄⟩ := Runtime.reaches_ending sys c₃
  exact ⟨c₄, ((hr₁.trans hr₂).trans hr₃).trans hr₄⟩

/-- Without one, it copies the image all the same. -/
theorem StartImage.stores (h : StartImage c.mem c.rsp I top) (hmmap : IsErrno sys.mmap) :
    ∃ l c', Reaches sys (.relocateStack, c) (l, c') ∧ c'.stored = true := by
  have hpos : sys.mmap ≠ 0 := by
    have := hmmap.le
    omega
  obtain ⟨q, hq⟩ := h.hasRandom
  have hq' := h.random q hq
  have hlt := h.lt
  obtain ⟨c₁, hr₁, hrdi, -, hrsp, -⟩ := h.reaches_patch hpos
  have hrcx : wrapAdd (wrapSub c₁.rdi c₁.rsp) 1 ≠ 0 := by
    rw [hrdi, hrsp]
    unfold wrapAdd wrapSub
    omega
  refine ⟨_, _, hr₁.trans (Reaches.single rfl), ?_⟩
  simp [hrcx]

/-- **The program starts on a completed pivot only, exactly if** `mmap` succeeds and, once `open` has
succeeded, a failing `ioctl` meets a descriptor that is not a multiple of 256 and a successful one
finds a cleared error field. -/
theorem sound_iff (h : StartImage c.mem c.rsp I top) (hsize : top - c.rsp + 64 ≤ stackSize)
    (hans : KernelAnswers sys c.rsp top) :
    Sound sys c ↔ ¬ IsErrno sys.mmap ∧ (¬ IsErrno sys.open_ →
      (IsErrno sys.ioctl → sys.open_ % 256 ≠ 0) ∧ (¬ IsErrno sys.ioctl → sys.error = 0)) := by
  have hopen : ¬ IsErrno sys.open_ → ¬ 2 ^ 63 ≤ sys.open_ := fun ho ↦ by
    have := hans.open_.resolve_left ho
    omega
  have hioctl : ¬ IsErrno sys.ioctl → ¬ 2 ^ 63 ≤ sys.ioctl := fun ho ↦ by
    have := hans.ioctl.resolve_left ho
    omega
  constructor
  · intro hs
    have hmmap : ¬ IsErrno sys.mmap := by
      intro hm
      obtain ⟨l, c', hr, hst⟩ := h.stores hm
      rw [hs.untouched hm l c' hr] at hst
      cases hst
    obtain ⟨c', hr⟩ := h.reaches_ending hsize hans hmmap
    refine ⟨hmmap, fun ho ↦ ⟨fun hi ↦ ?_, fun hi ↦ ?_⟩⟩
    · have hend : sys.ending = .exited (sys.open_ % 256) := by
        rw [Sys.ending, if_neg (hopen ho), if_pos hi.le]
      obtain ⟨status, c'', hr', hne⟩ := hs.exits fun hcomp ↦ hcomp.ioctl hi
      rw [hend] at hr
      have heq := hr.unique hr' trivial trivial
      obtain ⟨heq, -⟩ := Prod.mk.inj heq
      rwa [Label.exited.inj heq]
    · have hend : sys.ending = .start := by
        rw [Sys.ending, if_neg (hopen ho), if_neg (hioctl hi)]
      rw [hend] at hr
      exact (hs.start c' hr).error
  · rintro ⟨hmmap, hrest⟩
    obtain ⟨c', hr⟩ := h.reaches_ending hsize hans hmmap
    refine ⟨fun c'' hr' ↦ ?_, fun hcomp ↦ ?_, fun hm ↦ absurd hm hmmap⟩
    · -- a run that reaches `_start` is the one that ends there
      have heq := hr.unique hr' sys.final_ending trivial
      have hend : sys.ending = .start := (Prod.mk.inj heq).1
      have ho : ¬ IsErrno sys.open_ := fun ho ↦ by
        rw [Sys.ending, if_pos ho.le] at hend
        cases hend
      have hi : ¬ IsErrno sys.ioctl := fun hi ↦ by
        rw [Sys.ending, if_neg (hopen ho), if_pos hi.le] at hend
        cases hend
      exact ⟨hmmap, ho, hi, (hrest ho).2 hi⟩
    · by_cases ho : IsErrno sys.open_
      · have hend : sys.ending = .exited 1 := by rw [Sys.ending, if_pos ho.le]
        rw [hend] at hr
        exact ⟨1, c', hr, by decide⟩
      · have hi : IsErrno sys.ioctl := by
          by_contra hi
          exact hcomp ⟨hmmap, ho, hi, (hrest ho).2 hi⟩
        have hend : sys.ending = .exited (sys.open_ % 256) := by
          rw [Sys.ending, if_neg (hopen ho), if_pos hi.le]
        rw [hend] at hr
        exact ⟨_, c', hr, (hrest ho).1 hi⟩

end Runs

theorem kernelAnswers_helpful (error : Nat) (herror : error < 2 ^ 64) :
    KernelAnswers { helpful with error := error } 0x1000 0x106c :=
  ⟨.inr ⟨show 0 < adrHint by decide, show adrHint + stackSize < 2 ^ 63 by decide,
    .inr (show 0x106c + 1 ≤ adrHint by decide)⟩, .inr (show 3 < 2 ^ 31 by decide), .inr rfl, herror⟩

/-- The pivot of a small process, with a kernel that reports success. -/
theorem sound_iff_helpful : Sound helpful (fresh 0x1000 smallMem) :=
  (sound_iff (c := fresh 0x1000 smallMem) startImage_small (by decide)
    (kernelAnswers_helpful 0 (by decide))).mpr
      ⟨not_isErrno (by decide), fun _ ↦ ⟨fun hc ↦ absurd hc (not_isErrno (by decide)), fun _ ↦ rfl⟩⟩

/-- When `sa_pivot` stores -1, as it does when it is done, the program starts although the error
field does not report success. -/
theorem not_sound_pivot_error :
    StartImage smallMem 0x1000 smallImage 0x106c ∧
      KernelAnswers { helpful with error := 2 ^ 64 - 1 } 0x1000 0x106c ∧
      ¬ Sound { helpful with error := 2 ^ 64 - 1 } (fresh 0x1000 smallMem) := by
  have hans := kernelAnswers_helpful (2 ^ 64 - 1) (by decide)
  refine ⟨startImage_small, hans, fun hs ↦ ?_⟩
  obtain ⟨c', hr⟩ := StartImage.reaches_ending (c := fresh 0x1000 smallMem) startImage_small
    (by decide) hans (not_isErrno (by decide))
  have hcomp := hs.start c' hr
  exact absurd hcomp.error (by decide)

end ShadowStack.Runtime
