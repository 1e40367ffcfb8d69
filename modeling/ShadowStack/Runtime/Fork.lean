import ShadowStack.Lib.Run
import ShadowStack.Lkm.State

/-!
# The interposed `fork`

`fork` of `alt_runtime/main.c`, with the steps of the parent and of the child interleaved.  The child
has the kernel copy the shadow pages of the forking thread, `sa_fork`, and then writes one byte to a
pipe; the parent waits for that byte before it returns.  Neither the result of `pipe` nor that of
`read` is looked at.
-/

namespace ShadowStack.Runtime

open Lib Lkm

/-- Where the forking thread is. -/
inductive ParentPc where
  | pipe | fork | closeWrite | read | closeRead | closeBoth | returned
deriving DecidableEq, Repr

/-- Where the child is; `copy` is the loop of `sa_fork`, `ioctl` what comes before it and `map` what
comes after it. -/
inductive ChildPc where
  | closeRead | closeDev | openDev | ioctl | copy | map | write | closeWrite | returned | dead
deriving DecidableEq, Repr

/-- The child will not copy any more. -/
def ChildPc.Over : ChildPc → Prop
  | .write | .closeWrite | .returned | .dead => True
  | _ => False

/-- The pipe: the bytes in it, and which of its ends are open. -/
structure Pipe where
  bytes : Nat
  parentRead : Bool
  parentWrite : Bool
  childRead : Bool
  childWrite : Bool
deriving DecidableEq, Repr

structure ForkState where
  parent : ParentPc
  /-- The child, once there is one. -/
  child : Option ChildPc
  /-- `sy_pipe`; without a value if `pipe` has failed. -/
  pipe : Option Pipe
  /-- The shadow pages of the forking thread. -/
  pages : Nat → PageData
  /-- What they held at `real_fork`. -/
  atFork : Nat → PageData
  /-- The shadow pages of the child, of which the first `copied` have been filled. -/
  received : Nat → PageData
  copied : Nat
  /-- `sa_fork` has returned 0. -/
  served : Bool

/-- A call of `fork` by a thread with the shadow pages `pages`. -/
def ForkState.init (pages : Nat → PageData) : ForkState where
  parent := .pipe
  child := none
  pipe := none
  pages := pages
  atFork := pages
  received _ _ := 0
  copied := 0
  served := false

/-- What can happen next. -/
inductive ForkEvent where
  /-- `pipe`, and whether it succeeds. -/
  | pipe (ok : Bool)
  /-- `real_fork`, and whether it succeeds. -/
  | fork (ok : Bool)
  /-- The next `close` of the parent. -/
  | parentClose
  /-- `read` gets the byte. -/
  | readByte
  /-- `read` finds every write end closed. -/
  | readEof
  /-- A signal interrupts `read` before a byte arrives. -/
  | readInterrupted
  /-- `read` returns from a descriptor that is no pipe. -/
  | readStray
  /-- The code after `fork` uses the shadow stack. -/
  | user (pages : Nat → PageData)
  /-- A signal handler of the forking thread uses the shadow stack. -/
  | handler (pages : Nat → PageData)
  /-- The next `close` or `open` of the child. -/
  | childFd
  /-- `sa_fork` finds the thread it was asked for, or fails. -/
  | ioctl (ok : Bool)
  /-- `sa_fork` copies one more page. -/
  | copyPage
  /-- `sa_fork` publishes and maps the copy, or fails. -/
  | map (ok : Bool)
  /-- The child writes the byte; with no reader left, this is an error or a fatal signal. -/
  | write (survives : Bool)
  /-- The child is killed. -/
  | childDies

/-- The write ends that a child closes by ending. -/
def Pipe.childEnds (p : Pipe) : Pipe := { p with childRead := false, childWrite := false }

namespace ForkState

variable (s : ForkState)

/-- The next `close` of the parent. -/
def parentClose : Option ForkState :=
  match s.parent with
  | .closeWrite => some { s with
      parent := .read, pipe := s.pipe.map fun p ↦ { p with parentWrite := false } }
  | .closeRead => some { s with
      parent := .returned, pipe := s.pipe.map fun p ↦ { p with parentRead := false } }
  | .closeBoth => some { s with
      parent := .returned
      pipe := s.pipe.map fun p ↦ { p with parentRead := false, parentWrite := false } }
  | _ => none

/-- `real_fork`: the child starts with its own copy of the descriptors. -/
def fork (ok : Bool) : Option ForkState :=
  if s.parent = .fork then
    if ok then some { s with
      parent := .closeWrite
      child := some .closeRead
      pipe := s.pipe.map fun p ↦ { p with childRead := true, childWrite := true }
      atFork := s.pages }
    else some { s with parent := .closeBoth }
  else none

/-- The ways in which `read` returns. -/
def read : ForkEvent → Option ForkState
  | .readByte =>
      match s.pipe with
      | some p => if 0 < p.bytes then some { s with
          parent := .closeRead, pipe := some { p with bytes := p.bytes - 1 } } else none
      | none => none
  | .readEof =>
      match s.pipe with
      | some p => if p.bytes = 0 ∧ p.parentWrite = false ∧ p.childWrite = false then
          some { s with parent := .closeRead } else none
      | none => none
  | .readInterrupted =>
      match s.pipe with
      | some p => if p.bytes = 0 then some { s with parent := .closeRead } else none
      | none => none
  | .readStray =>
      match s.pipe with
      | some _ => none
      | none => some { s with parent := .closeRead }
  | _ => none

/-- The next `close` or `open` of the child. -/
def childFd : Option ForkState :=
  match s.child with
  | some .closeRead => some { s with
      child := some .closeDev, pipe := s.pipe.map fun p ↦ { p with childRead := false } }
  | some .closeDev => some { s with child := some .openDev }
  | some .openDev => some { s with child := some .ioctl }
  | some .closeWrite => some { s with
      child := some .returned, pipe := s.pipe.map fun p ↦ { p with childWrite := false } }
  | _ => none

/-- One page of the loop of `sa_fork`; the loop is left after the last one. -/
def copyPage : Option ForkState :=
  if s.child = some .copy ∧ s.copied < ssPages then some { s with
    received := Function.update s.received s.copied (s.pages s.copied)
    copied := s.copied + 1
    child := some (if s.copied + 1 = ssPages then .map else .copy) }
  else none

/-- `write` of the child. -/
def write (survives : Bool) : Option ForkState :=
  if s.child = some .write then
    match s.pipe with
    | some p =>
        if p.parentRead ∨ p.childRead then some { s with
          child := some .closeWrite, pipe := some { p with bytes := p.bytes + 1 } }
        else if survives then some { s with child := some .closeWrite }
        else some { s with child := some .dead, pipe := some p.childEnds }
    | none => some { s with child := some .closeWrite }
  else none

end ForkState

/-- One step of the parent, of the child or of a signal. -/
def forkStep (s : ForkState) : ForkEvent → Option ForkState
  | .pipe ok =>
      if s.parent = .pipe then some { s with
        parent := .fork, pipe := if ok then some ⟨0, true, true, false, false⟩ else none }
      else none
  | .fork ok => s.fork ok
  | .parentClose => s.parentClose
  | .user pages => if s.parent = .returned then some { s with pages := pages } else none
  | .handler pages => some { s with pages := pages }
  | .childFd => s.childFd
  | .ioctl ok =>
      if s.child = some .ioctl then some { s with child := some (if ok then .copy else .write) } else none
  | .copyPage => s.copyPage
  | .map ok =>
      if s.child = some .map then some { s with child := some .write, served := ok } else none
  | .write survives => s.write survives
  | .childDies =>
      match s.child with
      | some .dead => none
      | some _ => some { s with child := some .dead, pipe := s.pipe.map Pipe.childEnds }
      | none => none
  | e => if s.parent = .read then s.read e else none

def ForkStep (s : ForkState) (e : ForkEvent) (s' : ForkState) : Prop := forkStep s e = some s'

/-- The parent has waited for the child, and the child got what was there at `real_fork`. -/
structure ForkSafe (s : ForkState) : Prop where
  waits : s.parent = .returned → ∀ c, s.child = some c → c.Over
  exact : ∀ i < s.copied, s.received i = s.atFork i
  served : s.served → s.copied = ssPages

/-- The child is on its way through the kernel. -/
def ForkState.Copying (s : ForkState) : Prop := ∃ c, s.child = some c ∧ ¬ c.Over

/-- Nothing goes wrong around the two processes: `pipe` succeeds, and while the child is on its way
through the kernel, no signal handler runs on the forking thread and none interrupts its `read`. -/
def Calm (s : ForkState) : ForkEvent → Prop
  | .pipe ok => ok
  | .readInterrupted => ¬ s.Copying
  | .handler _ => ¬ s.Copying
  | _ => True

instance : DecidablePred ChildPc.Over := fun c ↦ by
  cases c <;> unfold ChildPc.Over <;> infer_instance

instance (s : ForkState) : Decidable s.Copying :=
  decidable_of_iff (∃ c ∈ s.child, ¬ c.Over) Iff.rfl

instance (s : ForkState) : DecidablePred (Calm s) := fun e ↦ by
  cases e <;> unfold Calm <;> infer_instance

/-! ## The parent waits -/

/-- What holds at every moment of a calm `fork`. -/
structure ForkInv (s : ForkState) : Prop where
  /-- There is a child only after `real_fork`. -/
  alone : s.parent = .pipe ∨ s.parent = .fork ∨ s.parent = .closeBoth → s.child = none
  piped : s.parent ≠ .pipe → s.pipe ≠ none
  /-- As long as the child may copy, the parent waits at an empty pipe which the child holds open. -/
  waiting : s.Copying → (s.parent = .closeWrite ∨ s.parent = .read) ∧ s.pages = s.atFork ∧
    s.served = false ∧ ∃ p, s.pipe = some p ∧ p.bytes = 0 ∧ p.childWrite = true
  exact : ∀ i < s.copied, s.received i = s.atFork i
  fresh : s.child = none → s.copied = 0 ∧ s.served = false ∧ ∀ p, s.pipe = some p → p.bytes = 0
  mapping : s.child = some .map → s.copied = ssPages
  served : s.served → s.copied = ssPages

theorem ForkInv.init (pages : Nat → PageData) : ForkInv (.init pages) := by
  refine ⟨fun _ ↦ rfl, fun h ↦ absurd rfl h, ?_, ?_, fun _ ↦ ⟨rfl, rfl, fun _ hp ↦ nomatch hp⟩,
    fun h ↦ (nomatch h), fun h ↦ (nomatch h)⟩
  · rintro ⟨c, hc, -⟩
    cases hc
  · intro i hi
    exact absurd hi (Nat.not_lt_zero i)

section Steps

variable {s s' : ForkState}

/-- Without a child nothing is being copied. -/
theorem ForkState.not_copying (h : s.child = none) : ¬ s.Copying := by
  rintro ⟨c, hc, -⟩
  rw [h] at hc
  cases hc

theorem ForkInv.pipe (h : ForkInv s) (hp : s.parent = .pipe) :
    ForkInv { s with parent := .fork, pipe := some ⟨0, true, true, false, false⟩ } := by
  have hnone := h.alone (.inl hp)
  obtain ⟨hcopied, hserved, -⟩ := h.fresh hnone
  refine ⟨fun _ ↦ hnone, (fun _ hc ↦ nomatch hc), fun hc ↦ absurd hc (ForkState.not_copying hnone),
    h.exact, fun _ ↦ ⟨hcopied, hserved, ?_⟩, h.mapping, h.served⟩
  rintro p hp
  rw [← Option.some.inj hp]

theorem ForkInv.fork (h : ForkInv s) {ok : Bool} (hs : s.fork ok = some s') : ForkInv s' := by
  unfold ForkState.fork at hs
  split_ifs at hs with hp hok
  · obtain rfl := Option.some.inj hs
    obtain ⟨hcopied, hserved, hempty⟩ := h.fresh (h.alone (.inr (.inl hp)))
    obtain ⟨p, hpipe⟩ := Option.ne_none_iff_exists'.mp (h.piped (by simp [hp]))
    refine ⟨by simp, by simp [hpipe], fun _ ↦ ⟨.inl rfl, rfl, hserved, ?_⟩, ?_, by simp, by simp, ?_⟩
    · exact ⟨{ p with childRead := true, childWrite := true }, by rw [hpipe]; rfl,
        hempty p hpipe, rfl⟩
    · intro i hi
      rw [hcopied] at hi
      exact absurd hi (Nat.not_lt_zero i)
    · intro hc
      rw [hserved] at hc
      cases hc
  · obtain rfl := Option.some.inj hs
    have hnone := h.alone (.inr (.inl hp))
    exact ⟨fun _ ↦ hnone, fun _ ↦ h.piped (by simp [hp]),
      fun hc ↦ absurd hc (ForkState.not_copying hnone), h.exact, h.fresh, h.mapping, h.served⟩

/-- The parent moves on without touching what the child needs. -/
theorem ForkInv.moveParent (h : ForkInv s) {pc : ParentPc} {f : Pipe → Pipe}
    (hpc : ¬ (pc = .pipe ∨ pc = .fork ∨ pc = .closeBoth)) (hne : s.parent ≠ .pipe)
    (hwait : s.Copying → (s.parent = .closeWrite ∨ s.parent = .read) → pc = .read)
    (hf : ∀ p, (p.bytes = 0 → (f p).bytes = 0) ∧ (f p).childWrite = p.childWrite) :
    ForkInv { s with parent := pc, pipe := s.pipe.map f } := by
  refine ⟨fun hc ↦ absurd hc hpc, fun _ ↦ ?_, fun hc ↦ ?_, h.exact, fun hc ↦ ?_, h.mapping, h.served⟩
  · obtain ⟨p, hpipe⟩ := Option.ne_none_iff_exists'.mp (h.piped hne)
    simp [hpipe]
  · obtain ⟨hat, hpages, hserved, p, hpipe, hbytes, hopen⟩ := h.waiting hc
    refine ⟨.inr (hwait hc hat), hpages, hserved, f p, by rw [hpipe]; rfl, (hf p).1 hbytes, ?_⟩
    rw [(hf p).2, hopen]
  · obtain ⟨hcopied, hserved, hempty⟩ := h.fresh hc
    refine ⟨hcopied, hserved, fun p hp ↦ ?_⟩
    obtain ⟨q, hq, rfl⟩ := Option.map_eq_some_iff.mp hp
    exact (hf q).1 (hempty q hq)

theorem ForkInv.parentClose (h : ForkInv s) (hs : s.parentClose = some s') : ForkInv s' := by
  unfold ForkState.parentClose at hs
  split at hs
  · next hp =>
      obtain rfl := Option.some.inj hs
      exact h.moveParent (by simp) (by simp [hp]) (fun _ _ ↦ rfl) fun _ ↦ ⟨fun h ↦ h, rfl⟩
  · next hp =>
      obtain rfl := Option.some.inj hs
      exact h.moveParent (by simp) (by simp [hp]) (by simp [hp]) fun _ ↦ ⟨fun h ↦ h, rfl⟩
  · next hp =>
      obtain rfl := Option.some.inj hs
      exact h.moveParent (by simp) (by simp [hp]) (by simp [hp]) fun _ ↦ ⟨fun h ↦ h, rfl⟩
  · cases hs

/-- `read` returns only when nothing is being copied. -/
theorem ForkInv.read (h : ForkInv s) {e : ForkEvent} (hcalm : Calm s e) (hp : s.parent = .read)
    (hs : s.read e = some s') : ForkInv s' := by
  obtain ⟨p, hpipe⟩ := Option.ne_none_iff_exists'.mp (h.piped (by simp [hp]))
  have hstop : ¬ s.Copying → ∀ f : Pipe → Pipe,
      (∀ p, (p.bytes = 0 → (f p).bytes = 0) ∧ (f p).childWrite = p.childWrite) →
      ForkInv { s with parent := .closeRead, pipe := s.pipe.map f } := fun hc f hf ↦
    h.moveParent (by simp) (by simp [hp]) (fun hcopy ↦ absurd hcopy hc) hf
  cases e with
  | readByte =>
      simp only [ForkState.read, hpipe] at hs
      split_ifs at hs with hbytes
      obtain rfl := Option.some.inj hs
      have hc : ¬ s.Copying := by
        intro hc
        obtain ⟨-, -, -, q, hq, hzero, -⟩ := h.waiting hc
        obtain rfl : p = q := Option.some.inj (hpipe.symm.trans hq)
        omega
      have := hstop hc (fun p ↦ { p with bytes := p.bytes - 1 }) fun p ↦ ⟨fun hz ↦ by simp [hz], rfl⟩
      rwa [hpipe] at this
  | readEof =>
      simp only [ForkState.read, hpipe] at hs
      split_ifs at hs with hend
      obtain rfl := Option.some.inj hs
      have hc : ¬ s.Copying := by
        intro hc
        obtain ⟨-, -, -, q, hq, -, hopen⟩ := h.waiting hc
        obtain rfl : p = q := Option.some.inj (hpipe.symm.trans hq)
        rw [hend.2.2] at hopen
        cases hopen
      have := hstop hc (fun p ↦ p) fun p ↦ ⟨fun hz ↦ hz, rfl⟩
      rwa [Option.map_id', hpipe] at this
  | readInterrupted =>
      simp only [ForkState.read, hpipe] at hs
      split_ifs at hs with hbytes
      obtain rfl := Option.some.inj hs
      have := hstop hcalm (fun p ↦ p) fun p ↦ ⟨fun hz ↦ hz, rfl⟩
      rwa [Option.map_id', hpipe] at this
  | readStray => simp only [ForkState.read, hpipe, reduceCtorEq] at hs
  | _ => simp only [ForkState.read, reduceCtorEq] at hs

/-- Where there is a child, there is a pipe. -/
theorem ForkInv.exists_pipe (h : ForkInv s) {c : ChildPc} (hc : s.child = some c) :
    ∃ p, s.pipe = some p := by
  refine Option.ne_none_iff_exists'.mp (h.piped fun hp ↦ ?_)
  rw [h.alone (.inl hp)] at hc
  cases hc

/-- The child moves on; as long as it is not over, it leaves the pipe alone. -/
theorem ForkInv.moveChild (h : ForkInv s) {c : ChildPc} (c' : ChildPc) {f : Pipe → Pipe} (hc : s.child = some c)
    (hover : ¬ c'.Over → ¬ c.Over) (hmap : c' ≠ .map)
    (hf : ¬ c'.Over → ∀ p, (f p).bytes = p.bytes ∧ (f p).childWrite = p.childWrite) :
    ForkInv { s with child := some c', pipe := s.pipe.map f } := by
  obtain ⟨p, hpipe⟩ := h.exists_pipe hc
  refine ⟨fun hp ↦ ?_, fun _ ↦ by simp [hpipe], ?_, h.exact, (fun hc ↦ nomatch hc),
    fun hc ↦ absurd (Option.some.inj hc) hmap, h.served⟩
  · rw [h.alone hp] at hc
    cases hc
  · rintro ⟨c'', hc'', hn⟩
    obtain rfl : c' = c'' := Option.some.inj hc''
    obtain ⟨hat, hpages, hserved, q, hq, hbytes, hopen⟩ := h.waiting ⟨c, hc, hover hn⟩
    refine ⟨hat, hpages, hserved, f q, by rw [hq]; rfl, ?_, ?_⟩
    · rw [(hf hn q).1, hbytes]
    · rw [(hf hn q).2, hopen]

/-- The same, without the pipe. -/
theorem ForkInv.stepChild (h : ForkInv s) {c : ChildPc} (c' : ChildPc) (hc : s.child = some c)
    (hover : ¬ c'.Over → ¬ c.Over) (hmap : c' ≠ .map) : ForkInv { s with child := some c' } := by
  have := h.moveChild c' (f := fun p ↦ p) hc hover hmap fun _ _ ↦ ⟨rfl, rfl⟩
  rwa [Option.map_id'] at this

theorem ForkInv.childFd (h : ForkInv s) (hs : s.childFd = some s') : ForkInv s' := by
  unfold ForkState.childFd at hs
  split at hs
  · next hc =>
      obtain rfl := Option.some.inj hs
      exact h.moveChild _ hc (fun _ ↦ not_false) (by simp) fun _ _ ↦ ⟨rfl, rfl⟩
  · next hc =>
      obtain rfl := Option.some.inj hs
      exact h.stepChild _ hc (fun _ ↦ not_false) (by simp)
  · next hc =>
      obtain rfl := Option.some.inj hs
      exact h.stepChild _ hc (fun _ ↦ not_false) (by simp)
  · next hc =>
      obtain rfl := Option.some.inj hs
      exact h.moveChild _ hc (fun hn ↦ absurd trivial hn) (by simp) fun hn ↦ absurd trivial hn
  · cases hs

/-- Each page is copied as it was at `real_fork`. -/
theorem ForkInv.copyPage (h : ForkInv s) (hs : s.copyPage = some s') : ForkInv s' := by
  unfold ForkState.copyPage at hs
  by_cases hcopy : s.child = some .copy ∧ s.copied < ssPages
  swap
  · rw [if_neg hcopy] at hs
    cases hs
  rw [if_pos hcopy] at hs
  obtain rfl := Option.some.inj hs
  obtain ⟨hc, hlt⟩ := hcopy
  have hbusy : s.Copying := ⟨.copy, hc, not_false⟩
  obtain ⟨hat, hpages, hserved, hpipe⟩ := h.waiting hbusy
  refine ⟨fun hp ↦ ?_, h.piped, fun _ ↦ ⟨hat, hpages, hserved, hpipe⟩, fun i hi ↦ ?_,
    (fun hn ↦ nomatch hn), fun hm ↦ ?_, fun hserved' ↦ ?_⟩
  · rw [h.alone hp] at hc
    cases hc
  · change Function.update s.received s.copied (s.pages s.copied) i = s.atFork i
    by_cases hi' : i = s.copied
    · rw [hi', Function.update_self, hpages]
    · have hlt' : i < s.copied + 1 := hi
      rw [Function.update_of_ne hi']
      exact h.exact i (by omega)
  · by_contra hne
    have hm' := Option.some.inj hm
    rw [if_neg (show ¬ s.copied + 1 = ssPages from hne)] at hm'
    cases hm'
  · have hs : s.served = true := hserved'
    rw [hserved] at hs
    cases hs

theorem ForkInv.write (h : ForkInv s) {survives : Bool} (hs : s.write survives = some s') :
    ForkInv s' := by
  unfold ForkState.write at hs
  by_cases hc : s.child = some .write
  swap
  · rw [if_neg hc] at hs
    cases hs
  obtain ⟨p, hpipe⟩ := h.exists_pipe hc
  rw [if_pos hc, hpipe] at hs
  simp only at hs
  split_ifs at hs
  · obtain rfl := Option.some.inj hs
    have := h.moveChild .closeWrite (f := fun p ↦ { p with bytes := p.bytes + 1 }) hc
      (fun hn ↦ absurd trivial hn) (by simp) fun hn ↦ absurd trivial hn
    rwa [hpipe] at this
  · obtain rfl := Option.some.inj hs
    have := h.stepChild .closeWrite hc (fun hn ↦ absurd trivial hn) (by simp)
    rwa [hpipe] at this
  · obtain rfl := Option.some.inj hs
    have := h.moveChild .dead (f := Pipe.childEnds) hc (fun hn ↦ absurd trivial hn) (by simp)
      fun hn ↦ absurd trivial hn
    rwa [hpipe] at this

theorem ForkInv.map (h : ForkInv s) {ok : Bool} (hc : s.child = some .map) :
    ForkInv { s with child := some .write, served := ok } := by
  have hmoved : ForkInv { s with child := some .write } :=
    h.stepChild _ hc (fun hn ↦ absurd trivial hn) (by simp)
  refine ⟨hmoved.alone, hmoved.piped, fun ⟨c, hc, hn⟩ ↦ ?_, h.exact, (fun hn ↦ nomatch hn),
    (fun hn ↦ nomatch hn), fun _ ↦ h.mapping hc⟩
  obtain rfl : .write = c := Option.some.inj hc
  exact absurd trivial hn

/-- The forking thread uses its shadow stack while nothing is being copied. -/
theorem ForkInv.setPages (h : ForkInv s) (hc : ¬ s.Copying) (pages : Nat → PageData) :
    ForkInv { s with pages := pages } :=
  ⟨h.alone, h.piped, fun hcopy ↦ absurd hcopy hc, h.exact, h.fresh, h.mapping, h.served⟩

/-- The parent returns only when nothing is being copied any more. -/
theorem ForkInv.not_copying (h : ForkInv s) (hp : s.parent = .returned) : ¬ s.Copying := by
  intro hc
  rcases (h.waiting hc).1 with hat | hat <;> simp [hp] at hat

end Steps

/-- **One step of a calm `fork`** keeps the invariant. -/
theorem ForkInv.step {s s' : ForkState} {e : ForkEvent} (h : ForkInv s) (hcalm : Calm s e)
    (hs : ForkStep s e s') : ForkInv s' := by
  unfold ForkStep at hs
  cases e with
  | pipe ok =>
      simp only [forkStep] at hs
      split_ifs at hs with hp hok
      · obtain rfl := Option.some.inj hs
        exact h.pipe hp
      · exact absurd hcalm hok
  | fork ok => exact h.fork hs
  | parentClose => exact h.parentClose hs
  | user pages =>
      simp only [forkStep] at hs
      split_ifs at hs with hp
      obtain rfl := Option.some.inj hs
      exact h.setPages (h.not_copying hp) pages
  | handler pages =>
      obtain rfl := Option.some.inj hs
      exact h.setPages hcalm pages
  | childFd => exact h.childFd hs
  | ioctl ok =>
      simp only [forkStep] at hs
      split_ifs at hs with hc hok
      · obtain rfl := Option.some.inj hs
        exact h.stepChild _ hc (fun _ ↦ not_false) (by simp)
      · obtain rfl := Option.some.inj hs
        exact h.stepChild _ hc (fun _ ↦ not_false) (by simp)
  | copyPage => exact h.copyPage hs
  | map ok =>
      simp only [forkStep] at hs
      split_ifs at hs with hc
      obtain rfl := Option.some.inj hs
      exact h.map hc
  | write survives => exact h.write hs
  | childDies =>
      simp only [forkStep] at hs
      split at hs
      · cases hs
      · next c hne hc =>
          obtain rfl := Option.some.inj hs
          exact h.moveChild _ hc (fun hn ↦ absurd trivial hn) (by simp) fun hn ↦ absurd trivial hn
      · cases hs
  | readByte | readEof | readInterrupted | readStray =>
      simp only [forkStep] at hs
      split_ifs at hs with hp
      exact h.read hcalm hp hs

theorem ForkInv.safe {s : ForkState} (h : ForkInv s) : ForkSafe s := by
  refine ⟨fun hp c hc ↦ ?_, h.exact, h.served⟩
  by_contra hn
  exact h.not_copying hp ⟨c, hc, hn⟩

/-- From `real_fork` on: the parent returns at once by `e` and uses its shadow stack, then the child
copies the first page. -/
def earlyReturn (e : ForkEvent) : List ForkEvent :=
  [.parentClose, e, .parentClose, .user fun _ _ ↦ 1, .childFd, .childFd, .childFd, .ioctl true,
    .copyPage]

end ShadowStack.Runtime
