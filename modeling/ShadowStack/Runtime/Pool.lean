import Mathlib.Data.Finset.Basic
import ShadowStack.Lib.Memory
import ShadowStack.Lib.Run

/-!
# The chunk pool of the user-space runtime

`runtime/allocator.c`: `MemPoolInit` maps a pool and `MemPoolAlloc` and `MemPoolRelease` hand out and
take back chunks of it.  Any number of threads is inside these functions at once.  One transition is
one atomic step of a call: the unlocked test of `freelist`, a section under `llock`, the atomic
fetch-add, or the initialisation of a chunk.  The owner of a chunk may write anything into it between
two steps.

The free list is intrusive: its links are the first words of the chunks on it, so it is read from
the same memory that the owners of the other chunks write to.
-/

namespace ShadowStack.Runtime

open Lib

abbrev Tid := Nat

/-- The size of the header of `SSChunk`: `next` at offset 0 and `top` at offset 8, before `data`. -/
def headerSize : Nat := 16

/-- Where a thread is: outside the pool functions, before an atomic step of `MemPoolAlloc` or
`MemPoolRelease`, or before the `return` of `MemPoolAlloc`. -/
inductive Pc where
  | idle
  /-- Before the unlocked test in `recycle_chunk`. -/
  | test
  /-- Before the locked section of `recycle_chunk`. -/
  | pop
  /-- Before the fetch-add. -/
  | bump
  /-- Before `alloc_chunk(lo)`. -/
  | init (lo : Nat)
  /-- Before returning; `0` is `NULL`. -/
  | ret (p : Nat)
  /-- Before the locked section of `MemPoolRelease(chunk)`. -/
  | push (chunk : Nat)
deriving DecidableEq, Repr

/-- The static variables of the pool, the memory, the threads, and the chunks that were returned to
a caller and not released since. -/
structure PoolState where
  memPool : Nat
  freelist : Nat
  chunkSize : Nat
  freeareaStart : Nat
  freeareaEnd : Nat
  mem : Memory
  pc : Tid → Pc
  live : Finset Nat

/-- `MemPoolInit`, for an answer of `mmap`; it returns -1 if that is `MAP_FAILED`. -/
def memPoolInit (mem : Memory) (mmap : Option Nat) (chSize plSize : Nat) : Option PoolState :=
  match mmap with
  | none => none
  | some adr => some {
      memPool := adr
      freelist := 0
      chunkSize := chSize
      freeareaStart := adr
      freeareaEnd := wrapAdd adr plSize
      mem := mem
      pc := fun _ ↦ .idle
      live := ∅ }

/-- `init_chunk`. -/
def initChunk (mem : Memory) (chunk : Nat) : Memory :=
  store64 (store64 mem (wrapAdd chunk 8) (wrapAdd chunk headerSize)) chunk 0

/-- What a thread or its caller does next. -/
inductive PoolEvent where
  /-- Call `MemPoolAlloc`. -/
  | alloc (t : Tid)
  /-- Call `MemPoolRelease`. -/
  | release (t : Tid) (chunk : Nat)
  /-- The next atomic step of the call of a thread. -/
  | step (t : Tid)
  /-- The owner of a chunk writes a byte of it. -/
  | write (chunk : Nat) (i : Nat) (v : UInt8)
deriving DecidableEq, Repr

namespace PoolState

/-- Move a thread. -/
def goto (s : PoolState) (t : Tid) (pc : Pc) : PoolState :=
  { s with pc := Function.update s.pc t pc }

/-- The atomic steps of `MemPoolAlloc` and `MemPoolRelease`. -/
def advance (s : PoolState) (t : Tid) : Option PoolState :=
  match s.pc t with
  | .idle => none
  | .test => some (s.goto t (if s.freelist = 0 then .bump else .pop))
  | .pop =>
      if s.freelist = 0 then some (s.goto t .bump)
      else
        some { s.goto t (.ret s.freelist) with
          freelist := load64 s.mem s.freelist
          mem := initChunk s.mem s.freelist }
  | .bump =>
      some { s.goto t (.init s.freeareaStart) with
        freeareaStart := wrapAdd s.freeareaStart s.chunkSize }
  | .init lo =>
      if s.freeareaEnd ≤ wrapAdd lo s.chunkSize then some (s.goto t (.ret 0))
      else some { s.goto t (.ret lo) with mem := initChunk s.mem lo }
  | .ret p =>
      some { s.goto t .idle with live := if p = 0 then s.live else insert p s.live }
  | .push chunk =>
      some { s.goto t .idle with
        mem := store64 s.mem chunk s.freelist
        freelist := chunk }

/-- One transition.  Only chunks that are live are released, and each is live no longer once its
release has begun. -/
def next (s : PoolState) : PoolEvent → Option PoolState
  | .alloc t => if s.pc t = .idle then some (s.goto t .test) else none
  | .release t chunk =>
      if s.pc t = .idle ∧ chunk ∈ s.live then
        some { s.goto t (.push chunk) with live := s.live.erase chunk }
      else none
  | .step t => s.advance t
  | .write chunk i v =>
      if chunk ∈ s.live ∧ i < s.chunkSize then
        some { s with mem := Function.update s.mem (chunk + i) v }
      else none

end PoolState

/-- The transitions as a relation. -/
def PoolStep (s : PoolState) (e : PoolEvent) (s' : PoolState) : Prop := s.next e = some s'

/-- The fetch-add does not wrap: callers exit at the first `NULL`. -/
def NoWrap (s : PoolState) (e : PoolEvent) : Prop :=
  ∀ t, e = .step t → s.pc t = .bump → s.freeareaStart + s.chunkSize < 2 ^ 64

/-! ## Where the chunks are -/

/-- The free list as a list: following the links from `a` passes these chunks and ends at
`NULL`. -/
def Chain (mem : Memory) : Nat → List Nat → Prop
  | a, [] => a = 0
  | a, c :: cs => a = c ∧ c ≠ 0 ∧ Chain mem (load64 mem c) cs

theorem Chain.congr {mem mem' : Memory} {a : Nat} {cs : List Nat} (h : Chain mem a cs)
    (hsame : ∀ c ∈ cs, load64 mem' c = load64 mem c) : Chain mem' a cs := by
  induction cs generalizing a with
  | nil => exact h
  | cons c cs ih =>
      obtain ⟨rfl, hne, hrest⟩ := h
      refine ⟨rfl, hne, ?_⟩
      rw [hsame a List.mem_cons_self]
      exact ih hrest fun c hc ↦ hsame c (List.mem_cons_of_mem _ hc)

/-- A non-empty list starts at its first chunk. -/
theorem Chain.cons {mem : Memory} {a : Nat} {cs : List Nat} (h : Chain mem a cs) (ha : a ≠ 0) :
    ∃ cs', cs = a :: cs' ∧ Chain mem (load64 mem a) cs' := by
  cases cs with
  | nil => exact absurd h ha
  | cons c cs =>
      obtain ⟨rfl, -, hrest⟩ := h
      exact ⟨cs, rfl, hrest⟩

/-- The chunk that a call has in hand.  The piece it has cut off the free area is one if it fits the
pool. -/
def Pc.held (ch end_ : Nat) : Pc → Option Nat
  | .init lo => if lo + ch < end_ then some lo else none
  | .ret p => if p = 0 then none else some p
  | .push chunk => some chunk
  | _ => none

/-- The places a chunk can be in. -/
inductive Place where
  | live
  | free
  | call (t : Tid)
deriving DecidableEq

/-- The chunk is in the place, for the free list `cs`. -/
def PoolState.At (s : PoolState) (cs : List Nat) : Place → Nat → Prop
  | .live, c => c ∈ s.live
  | .free, c => c ∈ cs
  | .call t, c => (s.pc t).held s.chunkSize s.freeareaEnd = some c

/-- Chunks of `ch` bytes, cut off a pool of `pl` bytes at `base` up to `start`, are each in one
place. -/
structure Placed (base ch pl start : Nat) (At : Place → Nat → Prop) : Prop where
  unique : ∀ c o o', At o c → At o' c → o = o'
  /-- Every chunk was cut off the free area, at a boundary. -/
  carved : ∀ o c, At o c → ∃ k, c = base + k * ch ∧ c + ch ≤ start
  inside : ∀ o c, At o c → c + ch < base + pl
  /-- Every piece of the pool that was cut off is somewhere. -/
  total : ∀ k, base + k * ch + ch ≤ start → base + k * ch + ch < base + pl → ∃ o, At o (base + k * ch)

/-- The shape of a pool of `pl` bytes at `base` with chunks of `ch` bytes. -/
structure Shape (base ch pl : Nat) (s : PoolState) : Prop where
  memPool : s.memPool = base
  chunkSize : s.chunkSize = ch
  freeareaEnd : s.freeareaEnd = base + pl
  /-- The free area starts at a chunk boundary. -/
  bump : ∃ n, s.freeareaStart = base + n * ch
  bump_lt : s.freeareaStart < 2 ^ 64

/-- **The invariant**, for the free list `cs`. -/
structure PoolOk (base ch pl : Nat) (s : PoolState) (cs : List Nat) : Prop where
  shape : Shape base ch pl s
  /-- The pieces in hand before `alloc_chunk` are cut off at boundaries, too. -/
  piece : ∀ t lo, s.pc t = .init lo → lo + ch < 2 ^ 64
  chain : Chain s.mem s.freelist cs
  nodup : cs.Nodup
  placed : Placed base ch pl s.freeareaStart (s.At cs)
  /-- A chunk about to be returned is initialised. -/
  fields : ∀ t p, s.pc t = .ret p → p ≠ 0 →
    load64 s.mem p = 0 ∧ load64 s.mem (p + 8) = p + headerSize

namespace Placed

variable {base ch pl start : Nat} {At At' : Place → Nat → Prop}

/-- Chunks at different addresses do not overlap. -/
theorem apart (h : Placed base ch pl start At) {o o' : Place} {c c' : Nat} (hc : At o c)
    (hc' : At o' c') (hne : c ≠ c') : c + ch ≤ c' ∨ c' + ch ≤ c := by
  obtain ⟨k, rfl, -⟩ := h.carved o c hc
  obtain ⟨k', rfl, -⟩ := h.carved o' c' hc'
  have hk : k ≠ k' := fun hc ↦ hne (by rw [hc])
  rcases Nat.lt_or_gt_of_ne hk with hlt | hlt
  · left
    have hle := Nat.mul_le_mul_right ch hlt
    rw [Nat.succ_mul] at hle
    omega
  · right
    have hle := Nat.mul_le_mul_right ch hlt
    rw [Nat.succ_mul] at hle
    omega

theorem congr (h : Placed base ch pl start At) (hsame : ∀ o c, At' o c ↔ At o c) :
    Placed base ch pl start At' := by
  obtain rfl : At' = At := funext₂ fun o c ↦ propext (hsame o c)
  exact h

/-- A chunk moves from one place to another. -/
theorem move (h : Placed base ch pl start At) {c₀ : Nat} {o p : Place} (hold : At o c₀)
    (hsame : ∀ o c, c ≠ c₀ → (At' o c ↔ At o c)) (hnow : ∀ o, At' o c₀ ↔ o = p) :
    Placed base ch pl start At' := by
  have hback : ∀ o c, At' o c → ∃ o', At o' c := by
    intro o' c hc
    by_cases hne : c = c₀
    · exact ⟨o, hne ▸ hold⟩
    · exact ⟨o', (hsame o' c hne).mp hc⟩
  refine ⟨?_, ?_, ?_, ?_⟩
  · intro c o₁ o₂ h₁ h₂
    by_cases hne : c = c₀
    · subst hne
      rw [(hnow o₁).mp h₁, (hnow o₂).mp h₂]
    · exact h.unique c o₁ o₂ ((hsame o₁ c hne).mp h₁) ((hsame o₂ c hne).mp h₂)
  · intro o' c hc
    obtain ⟨o₁, h₁⟩ := hback o' c hc
    exact h.carved o₁ c h₁
  · intro o' c hc
    obtain ⟨o₁, h₁⟩ := hback o' c hc
    exact h.inside o₁ c h₁
  · intro k hk hin
    obtain ⟨o₁, h₁⟩ := h.total k hk hin
    by_cases hne : base + k * ch = c₀
    · exact ⟨p, hne ▸ (hnow p).mpr rfl⟩
    · exact ⟨o₁, (hsame o₁ _ hne).mpr h₁⟩

/-- A piece is cut off the free area: it is a chunk exactly if it fits the pool. -/
theorem cut (h : Placed base ch pl start At) (hch : 0 < ch) {n : Nat} (hn : start = base + n * ch)
    {p : Place} (hnow : ∀ o c, At' o c ↔ At o c ∨ o = p ∧ c = start ∧ c + ch < base + pl) :
    Placed base ch pl (start + ch) At' := by
  have hnew : ∀ o, ¬ At o start := by
    intro o ho
    obtain ⟨-, -, hle⟩ := h.carved o start ho
    omega
  refine ⟨?_, ?_, ?_, ?_⟩
  · intro c o₁ o₂ h₁ h₂
    rcases (hnow o₁ c).mp h₁ with h₁ | ⟨rfl, rfl, -⟩
    · rcases (hnow o₂ c).mp h₂ with h₂ | ⟨rfl, rfl, -⟩
      · exact h.unique c o₁ o₂ h₁ h₂
      · exact absurd h₁ (hnew o₁)
    · rcases (hnow o₂ c).mp h₂ with h₂ | ⟨rfl, -, -⟩
      · exact absurd h₂ (hnew o₂)
      · rfl
  · intro o c hc
    rcases (hnow o c).mp hc with hc | ⟨-, rfl, -⟩
    · obtain ⟨k, rfl, hle⟩ := h.carved o c hc
      exact ⟨k, rfl, hle.trans (Nat.le_add_right _ _)⟩
    · exact ⟨n, hn, le_rfl⟩
  · intro o c hc
    rcases (hnow o c).mp hc with hc | ⟨-, -, hin⟩
    · exact h.inside o c hc
    · exact hin
  · intro k hk hin
    by_cases hkn : base + k * ch + ch ≤ start
    · obtain ⟨o, ho⟩ := h.total k hkn hin
      exact ⟨o, (hnow o _).mpr (.inl ho)⟩
    · have hkn' : k = n := by
        have h₁ : ¬ k + 1 ≤ n := fun hc ↦ hkn (by
          have := Nat.mul_le_mul_right ch hc
          rw [Nat.succ_mul] at this
          omega)
        have h₂ : k ≤ n := by
          by_contra hc
          have := Nat.mul_le_mul_right ch (Nat.lt_of_not_le hc)
          rw [Nat.succ_mul] at this
          omega
        omega
      subst hkn'
      rw [← hn] at hin ⊢
      exact ⟨p, (hnow p start).mpr (.inr ⟨rfl, rfl, hin⟩)⟩

end Placed

/-! ## What the steps keep -/

theorem initChunk_of_notMem {mem : Memory} {c ch b : Nat} (hch : headerSize ≤ ch)
    (hc : c + ch < 2 ^ 64) (hb : b < 2 ^ 64) (h : b < c ∨ c + ch ≤ b) :
    initChunk mem c b = mem b := by
  unfold headerSize at hch
  have htop : wrapAdd c 8 = c + 8 := by rw [wrapAdd_eq, wrap_of_lt (by omega)]
  rw [initChunk, store64, store64, htop, store_of_notMem (by omega) hb (by omega),
    store_of_notMem (by omega) hb (by omega)]

theorem initChunk_fields {mem : Memory} {c : Nat} (hc : c + headerSize < 2 ^ 64) :
    load64 (initChunk mem c) c = 0 ∧ load64 (initChunk mem c) (c + 8) = c + headerSize := by
  have hdata : wrapAdd c headerSize = c + headerSize := by rw [wrapAdd_eq, wrap_of_lt hc]
  unfold headerSize at *
  have htop : wrapAdd c 8 = c + 8 := by rw [wrapAdd_eq, wrap_of_lt (by omega)]
  rw [initChunk, htop, headerSize, hdata]
  constructor
  · exact load64_store64_same (by omega) (by omega)
  · rw [load64_store64_of_disjoint (by omega) (by omega) (by omega)]
    exact load64_store64_same (by omega) hc

/-- A step that moves thread `t` to `pc`; what it does to the lists and the memory is said apart. -/
structure Moves (s s' : PoolState) (t : Tid) (pc : Pc) : Prop where
  memPool : s'.memPool = s.memPool
  chunkSize : s'.chunkSize = s.chunkSize
  freeareaEnd : s'.freeareaEnd = s.freeareaEnd
  pc : s'.pc = Function.update s.pc t pc

theorem Shape.moves {base ch pl : Nat} {s s' : PoolState} {t : Tid} {pc : Pc}
    (h : Shape base ch pl s) (hm : Moves s s' t pc) (hstart : s'.freeareaStart = s.freeareaStart) :
    Shape base ch pl s' :=
  ⟨hm.memPool.trans h.memPool, hm.chunkSize.trans h.chunkSize, hm.freeareaEnd.trans h.freeareaEnd,
    hstart ▸ h.bump, hstart ▸ h.bump_lt⟩

namespace PoolOk

variable {base ch pl : Nat} {s s' : PoolState} {cs : List Nat} {t : Tid} {pc : Pc}

theorem lt (h : PoolOk base ch pl s cs) {o : Place} {c : Nat} (hc : s.At cs o c) :
    c + ch < 2 ^ 64 := by
  obtain ⟨-, -, hle⟩ := h.placed.carved o c hc
  exact lt_of_le_of_lt hle h.shape.bump_lt

theorem freelist_lt (h : PoolOk base ch pl s cs) : s.freelist < 2 ^ 64 := by
  by_cases hne : s.freelist = 0
  · rw [hne]
    decide
  · obtain ⟨cs', hcs, -⟩ := h.chain.cons hne
    have hat : s.At cs .free s.freelist := by simp [PoolState.At, hcs]
    exact lt_of_le_of_lt (Nat.le_add_right _ _) (h.lt hat)

/-- Writing to one chunk leaves the headers of the others alone. -/
theorem load_eq (h : PoolOk base ch pl s cs) (hch : headerSize ≤ ch) {mem : Memory} {c₀ c : Nat}
    {o₀ o : Place} (h₀ : s.At cs o₀ c₀)
    (hmem : ∀ b < 2 ^ 64, b < c₀ ∨ c₀ + ch ≤ b → mem b = s.mem b) (hc : s.At cs o c) (hne : c ≠ c₀) :
    load64 mem c = load64 s.mem c ∧ load64 mem (c + 8) = load64 s.mem (c + 8) := by
  have hlt := h.lt hc
  have hapart := h.placed.apart hc h₀ hne
  unfold headerSize at hch
  constructor
  · refine load_eq_of_bytes fun i hi ↦ ?_
    rw [wrap_of_lt (by omega)]
    exact hmem _ (by omega) (by omega)
  · refine load_eq_of_bytes fun i hi ↦ ?_
    rw [wrap_of_lt (by omega)]
    exact hmem _ (by omega) (by omega)

/-- Writing to a chunk that is not on the free list keeps the list. -/
theorem chain_eq (h : PoolOk base ch pl s cs) (hch : headerSize ≤ ch) {mem : Memory} {a c₀ : Nat}
    {o₀ : Place} (h₀ : s.At cs o₀ c₀)
    (hmem : ∀ b < 2 ^ 64, b < c₀ ∨ c₀ + ch ≤ b → mem b = s.mem b) {cs' : List Nat}
    (hsub : ∀ c ∈ cs', c ∈ cs ∧ c ≠ c₀) (hchain : Chain s.mem a cs') : Chain mem a cs' := by
  refine hchain.congr fun c hc ↦ ?_
  obtain ⟨hfree, hne⟩ := hsub c hc
  exact (h.load_eq hch h₀ hmem (o := .free) hfree hne).1

/-- Writing to a chunk leaves the headers of the others that are about to be returned alone. -/
theorem fields_eq (h : PoolOk base ch pl s cs) (hch : headerSize ≤ ch) {mem : Memory} {c₀ p : Nat}
    {o₀ : Place} (h₀ : s.At cs o₀ c₀)
    (hmem : ∀ b < 2 ^ 64, b < c₀ ∨ c₀ + ch ≤ b → mem b = s.mem b) (hpc : s.pc t = .ret p)
    (hp : p ≠ 0) (hne : p ≠ c₀) :
    load64 mem p = 0 ∧ load64 mem (p + 8) = p + headerSize := by
  have hat : s.At cs (.call t) p := by simp [PoolState.At, hpc, Pc.held, hp]
  obtain ⟨h₁, h₂⟩ := h.load_eq hch h₀ hmem hat hne
  rw [h₁, h₂]
  exact h.fields t p hpc hp

/-- What the calls have in hand when one thread moves. -/
theorem call_iff (h : PoolOk base ch pl s cs) (hm : Moves s s' t pc) (cs' : List Nat) (u : Tid)
    (c : Nat) :
    s'.At cs' (.call u) c ↔
      if u = t then pc.held ch (base + pl) = some c else s.At cs (.call u) c := by
  simp only [PoolState.At, hm.pc, hm.chunkSize, hm.freeareaEnd, Function.update_apply, h.shape.chunkSize,
    h.shape.freeareaEnd]
  split
  · rfl
  · rfl

/-- The pieces in hand when one thread moves. -/
theorem piece_of_moves (h : PoolOk base ch pl s cs) (hm : Moves s s' t pc)
    (hpc : ∀ lo, pc = .init lo → lo + ch < 2 ^ 64) (u : Tid) (lo : Nat) (hu : s'.pc u = .init lo) :
    lo + ch < 2 ^ 64 := by
  rw [hm.pc, Function.update_apply] at hu
  split at hu
  · exact hpc lo hu
  · exact h.piece u lo hu

/-- A chunk moves to the hands of a call. -/
theorem placed_take (h : PoolOk base ch pl s cs) (hm : Moves s s' t pc) {cs' : List Nat} {c₀ : Nat}
    {o : Place} (h₀ : s.At cs o c₀) (ho : ∀ u, o = .call u → u = t)
    (hold : ∀ c, s.At cs (.call t) c → c = c₀) (hpc : ∀ c, pc.held ch (base + pl) = some c ↔ c = c₀)
    (hlive : ∀ c, c ∈ s'.live ↔ c ∈ s.live ∧ c ≠ c₀) (hfree : ∀ c, c ∈ cs' ↔ c ∈ cs ∧ c ≠ c₀) :
    Placed base ch pl s.freeareaStart (s'.At cs') := by
  refine h.placed.move (p := .call t) h₀ ?_ ?_
  · rintro (_ | _ | u) c hc
    · exact (hlive c).trans (and_iff_left hc)
    · exact (hfree c).trans (and_iff_left hc)
    · rw [h.call_iff hm]
      split
      · next hu =>
          subst hu
          rw [hpc]
          exact iff_of_false hc fun h₁ ↦ hc (hold c h₁)
      · rfl
  · rintro (_ | _ | u)
    · exact iff_of_false (fun hc ↦ ((hlive c₀).mp hc).2 rfl) (by simp)
    · exact iff_of_false (fun hc ↦ ((hfree c₀).mp hc).2 rfl) (by simp)
    · rw [h.call_iff hm]
      split
      · next hu => simp [hu, hpc]
      · next hu =>
          refine iff_of_false (fun hc ↦ ?_) (by simpa using hu)
          exact hu (ho u (h.placed.unique c₀ _ _ h₀ hc))

/-- A chunk leaves the hands of a call. -/
theorem placed_put (h : PoolOk base ch pl s cs) (hm : Moves s s' t pc) {cs' : List Nat} {c₀ : Nat}
    {p : Place} (h₀ : s.At cs (.call t) c₀) (hq : ∀ u, p ≠ .call u)
    (hpc : pc.held ch (base + pl) = none)
    (hlive : ∀ c, c ∈ s'.live ↔ c ∈ s.live ∨ p = .live ∧ c = c₀)
    (hfree : ∀ c, c ∈ cs' ↔ c ∈ cs ∨ p = .free ∧ c = c₀) :
    Placed base ch pl s.freeareaStart (s'.At cs') := by
  have hnot : ∀ o, o ≠ .call t → ¬ s.At cs o c₀ :=
    fun o ho hc ↦ ho (h.placed.unique c₀ _ _ hc h₀)
  refine h.placed.move (p := p) h₀ ?_ ?_
  · rintro (_ | _ | u) c hc
    · exact (hlive c).trans (or_iff_left fun h₁ ↦ hc h₁.2)
    · exact (hfree c).trans (or_iff_left fun h₁ ↦ hc h₁.2)
    · rw [h.call_iff hm]
      split
      · next hu =>
          subst hu
          rw [hpc]
          refine iff_of_false (by simp) fun h₁ ↦ hc ?_
          exact Option.some.inj (Eq.trans (Eq.symm h₁) h₀)
      · rfl
  · rintro (_ | _ | u)
    · have hlive' : c₀ ∉ s.live := hnot .live (by simp)
      refine (hlive c₀).trans ?_
      rw [or_iff_right hlive', and_iff_left rfl, eq_comm]
    · have hfree' : c₀ ∉ cs := hnot .free (by simp)
      refine (hfree c₀).trans ?_
      rw [or_iff_right hfree', and_iff_left rfl, eq_comm]
    · rw [h.call_iff hm]
      refine iff_of_false ?_ (hq u).symm
      split
      · simp [hpc]
      · next hu => exact hnot _ (by simpa using hu)

/-- Steps that move a thread only. -/
theorem goto (h : PoolOk base ch pl s cs)
    (hheld : pc.held ch (base + pl) = (s.pc t).held ch (base + pl))
    (hinit : ∀ lo, pc ≠ .init lo) (hret : ∀ p, pc = .ret p → p = 0) :
    PoolOk base ch pl (s.goto t pc) cs := by
  have hm : Moves s (s.goto t pc) t pc := ⟨rfl, rfl, rfl, rfl⟩
  refine { h with
    shape := h.shape.moves hm rfl
    piece := h.piece_of_moves hm fun lo hlo ↦ absurd hlo (hinit lo)
    placed := h.placed.congr ?_
    fields := ?_ }
  · rintro (_ | _ | u) c
    · rfl
    · rfl
    · rw [h.call_iff hm]
      split
      · next hu => rw [hu, hheld, PoolState.At, h.shape.chunkSize, h.shape.freeareaEnd]
      · rfl
  · intro u p hu hp
    rw [hm.pc, Function.update_apply] at hu
    split at hu
    · exact absurd (hret p hu) hp
    · exact h.fields u p hu hp

/-- The locked section of `recycle_chunk`, on a list that is not empty. -/
theorem pop (h : PoolOk base ch pl s cs) (hch : headerSize ≤ ch) (hpc : s.pc t = .pop)
    (hne : s.freelist ≠ 0) (hm : Moves s s' t (.ret s.freelist))
    (hstart : s'.freeareaStart = s.freeareaStart) (hlive : s'.live = s.live)
    (hfree : s'.freelist = load64 s.mem s.freelist) (hmem : s'.mem = initChunk s.mem s.freelist) :
    ∃ cs', PoolOk base ch pl s' cs' := by
  obtain ⟨cs, rfl, hchain⟩ := h.chain.cons hne
  have hnd := List.nodup_cons.mp h.nodup
  have h₀ : s.At (s.freelist :: cs) .free s.freelist := List.mem_cons_self ..
  have hlt := h.lt h₀
  have hsame : ∀ b < 2 ^ 64, b < s.freelist ∨ s.freelist + ch ≤ b → s'.mem b = s.mem b := by
    intro b hb hout
    rw [hmem]
    exact initChunk_of_notMem hch hlt hb hout
  refine ⟨cs,
    { shape := h.shape.moves hm hstart
      piece := h.piece_of_moves hm (by simp)
      chain := ?_
      nodup := hnd.2
      placed := ?_
      fields := ?_ }⟩
  · rw [hfree]
    refine h.chain_eq hch h₀ hsame (fun c hc ↦ ⟨List.mem_cons_of_mem _ hc, ?_⟩) hchain
    rintro rfl
    exact hnd.1 hc
  · rw [hstart]
    refine h.placed_take hm h₀ (by simp) ?_ ?_ ?_ ?_
    · intro c hc
      simp [PoolState.At, hpc, Pc.held] at hc
    · intro c
      simp [Pc.held, hne, eq_comm]
    · intro c
      rw [hlive]
      refine (and_iff_left_of_imp ?_).symm
      rintro hc rfl
      exact absurd (h.placed.unique _ .live .free hc h₀) (by simp)
    · intro c
      rw [List.mem_cons]
      constructor
      · intro hc
        exact ⟨.inr hc, fun h₁ ↦ hnd.1 (h₁ ▸ hc)⟩
      · rintro ⟨hc, hne'⟩
        exact hc.resolve_left hne'
  · intro u p hu hp
    by_cases hpf : p = s.freelist
    · rw [hpf, hmem]
      exact initChunk_fields (lt_of_le_of_lt (Nat.add_le_add_left hch _) hlt)
    · rw [hm.pc, Function.update_apply] at hu
      split at hu
      · exact absurd (Pc.ret.inj hu).symm hpf
      · exact h.fields_eq hch h₀ hsame hu hp hpf

/-- The fetch-add. -/
theorem fetchAdd (h : PoolOk base ch pl s cs) (hch : headerSize ≤ ch) (hpc : s.pc t = .bump)
    (hwrap : s.freeareaStart + s.chunkSize < 2 ^ 64) (hm : Moves s s' t (.init s.freeareaStart))
    (hstart : s'.freeareaStart = wrapAdd s.freeareaStart s.chunkSize) (hlive : s'.live = s.live)
    (hfree : s'.freelist = s.freelist) (hmem : s'.mem = s.mem) : PoolOk base ch pl s' cs := by
  obtain ⟨n, hn⟩ := h.shape.bump
  rw [wrapAdd_eq, wrap_of_lt hwrap, h.shape.chunkSize] at hstart
  rw [h.shape.chunkSize] at hwrap
  have hpos : 0 < ch := lt_of_lt_of_le (by decide) hch
  exact
    { shape := ⟨hm.memPool.trans h.shape.memPool, hm.chunkSize.trans h.shape.chunkSize,
        hm.freeareaEnd.trans h.shape.freeareaEnd,
        ⟨n + 1, by rw [hstart, hn, Nat.succ_mul, Nat.add_assoc]⟩, hstart ▸ hwrap⟩
      piece := h.piece_of_moves hm fun lo hlo ↦ by rwa [← Pc.init.inj hlo]
      chain := by rw [hmem, hfree]; exact h.chain
      nodup := h.nodup
      placed := by
        rw [hstart]
        refine h.placed.cut hpos hn (p := .call t) ?_
        rintro (_ | _ | u) c
        · simp [PoolState.At, hlive]
        · simp [PoolState.At]
        · rw [h.call_iff hm]
          split
          · next hu =>
              have hnone : ¬ s.At cs (.call u) c := by simp [PoolState.At, hu, hpc, Pc.held]
              rw [or_iff_right hnone, Pc.held, Option.ite_none_right_eq_some, Option.some_inj, hu]
              constructor
              · rintro ⟨hfit, rfl⟩
                exact ⟨rfl, rfl, hfit⟩
              · rintro ⟨-, rfl, hfit⟩
                exact ⟨hfit, rfl⟩
          · next hu => simp [hu]
      fields := by
        intro u p hu hp
        rw [hm.pc, Function.update_apply] at hu
        rw [hmem]
        split at hu
        · cases hu
        · exact h.fields u p hu hp }

/-- `alloc_chunk`, for a piece that fits. -/
theorem allocChunk (h : PoolOk base ch pl s cs) (hch : headerSize ≤ ch) {lo : Nat}
    (hpos : 0 < base) (hpc : s.pc t = .init lo) (hfit : lo + ch < base + pl)
    (hm : Moves s s' t (.ret lo)) (hstart : s'.freeareaStart = s.freeareaStart)
    (hlive : s'.live = s.live) (hfree : s'.freelist = s.freelist)
    (hmem : s'.mem = initChunk s.mem lo) : PoolOk base ch pl s' cs := by
  have hheld : (s.pc t).held s.chunkSize s.freeareaEnd = some lo := by
    rw [hpc, Pc.held, h.shape.chunkSize, h.shape.freeareaEnd, if_pos hfit]
  have h₀ : s.At cs (.call t) lo := hheld
  have hne : lo ≠ 0 := by
    obtain ⟨k, hk, -⟩ := h.placed.carved _ _ h₀
    omega
  have hlt := h.lt h₀
  have hsame : ∀ b < 2 ^ 64, b < lo ∨ lo + ch ≤ b → s'.mem b = s.mem b := by
    intro b hb hout
    rw [hmem]
    exact initChunk_of_notMem hch hlt hb hout
  have hnot : ∀ c, ∀ o, o ≠ .call t → s.At cs o c → c ≠ lo := by
    rintro c o ho hc rfl
    exact ho (h.placed.unique c _ _ hc h₀)
  exact
    { shape := h.shape.moves hm hstart
      piece := h.piece_of_moves hm (by simp)
      chain := by
        rw [hfree]
        exact h.chain_eq hch h₀ hsame (fun c hc ↦ ⟨hc, hnot c .free (by simp) hc⟩) h.chain
      nodup := h.nodup
      placed := by
        rw [hstart]
        refine h.placed_take hm h₀ (by simp) ?_ ?_ ?_ ?_
        · intro c hc
          exact Option.some.inj (Eq.trans (Eq.symm hc) hheld)
        · intro c
          simp [Pc.held, hne, eq_comm]
        · intro c
          rw [hlive]
          exact (and_iff_left_of_imp (hnot c .live (by simp))).symm
        · intro c
          exact (and_iff_left_of_imp (hnot c .free (by simp))).symm
      fields := by
        intro u p hu hp
        by_cases hpl : p = lo
        · rw [hpl, hmem]
          exact initChunk_fields (lt_of_le_of_lt (Nat.add_le_add_left hch _) hlt)
        · rw [hm.pc, Function.update_apply] at hu
          split at hu
          · exact absurd (Pc.ret.inj hu).symm hpl
          · exact h.fields_eq hch h₀ hsame hu hp hpl }

/-- The return of a chunk. -/
theorem ret (h : PoolOk base ch pl s cs) {p : Nat} (hpc : s.pc t = .ret p) (hp : p ≠ 0)
    (hm : Moves s s' t .idle) (hstart : s'.freeareaStart = s.freeareaStart)
    (hlive : s'.live = insert p s.live) (hfree : s'.freelist = s.freelist) (hmem : s'.mem = s.mem) :
    PoolOk base ch pl s' cs := by
  have h₀ : s.At cs (.call t) p := by simp [PoolState.At, hpc, Pc.held, hp]
  exact
    { shape := h.shape.moves hm hstart
      piece := h.piece_of_moves hm (by simp)
      chain := by rw [hmem, hfree]; exact h.chain
      nodup := h.nodup
      placed := by
        rw [hstart]
        refine h.placed_put hm h₀ (p := .live) (by simp) rfl ?_ (by simp)
        intro c
        rw [hlive, Finset.mem_insert, or_comm]
        simp
      fields := by
        intro u q hu hq
        rw [hm.pc, Function.update_apply] at hu
        rw [hmem]
        split at hu
        · cases hu
        · exact h.fields u q hu hq }

/-- The call of `MemPoolRelease`. -/
theorem release (h : PoolOk base ch pl s cs) {c₀ : Nat} (hpc : s.pc t = .idle) (h₀ : c₀ ∈ s.live)
    (hm : Moves s s' t (.push c₀)) (hstart : s'.freeareaStart = s.freeareaStart)
    (hlive : s'.live = s.live.erase c₀) (hfree : s'.freelist = s.freelist) (hmem : s'.mem = s.mem) :
    PoolOk base ch pl s' cs := by
  have hat : s.At cs .live c₀ := h₀
  exact
    { shape := h.shape.moves hm hstart
      piece := h.piece_of_moves hm (by simp)
      chain := by rw [hmem, hfree]; exact h.chain
      nodup := h.nodup
      placed := by
        rw [hstart]
        refine h.placed_take hm hat (by simp) ?_ ?_ ?_ ?_
        · intro c hc
          simp [PoolState.At, hpc, Pc.held] at hc
        · intro c
          simp [Pc.held, eq_comm]
        · intro c
          rw [hlive, Finset.mem_erase, and_comm]
        · intro c
          refine (and_iff_left_of_imp ?_).symm
          rintro hc rfl
          exact absurd (h.placed.unique c .live .free hat hc) (by simp)
      fields := by
        intro u q hu hq
        rw [hm.pc, Function.update_apply] at hu
        rw [hmem]
        split at hu
        · cases hu
        · exact h.fields u q hu hq }

/-- The locked section of `MemPoolRelease`. -/
theorem push (h : PoolOk base ch pl s cs) (hch : headerSize ≤ ch) (hpos : 0 < base) {c₀ : Nat}
    (hpc : s.pc t = .push c₀) (hm : Moves s s' t .idle)
    (hstart : s'.freeareaStart = s.freeareaStart) (hlive : s'.live = s.live)
    (hfree : s'.freelist = c₀) (hmem : s'.mem = store64 s.mem c₀ s.freelist) :
    PoolOk base ch pl s' (c₀ :: cs) := by
  have h₀ : s.At cs (.call t) c₀ := by simp [PoolState.At, hpc, Pc.held]
  have hlt := h.lt h₀
  have hsize : 16 ≤ ch := hch
  have hnot : ∀ o, o ≠ .call t → ¬ s.At cs o c₀ :=
    fun o ho hc ↦ ho (h.placed.unique c₀ _ _ hc h₀)
  have hsame : ∀ b < 2 ^ 64, b < c₀ ∨ c₀ + ch ≤ b → s'.mem b = s.mem b := by
    intro b hb hout
    rw [hmem]
    exact store_of_notMem (by omega) hb (by omega)
  have hne : c₀ ≠ 0 := by
    obtain ⟨k, hk, -⟩ := h.placed.carved _ _ h₀
    omega
  have hnotFree : c₀ ∉ cs := hnot .free (by simp)
  exact
    { shape := h.shape.moves hm hstart
      piece := h.piece_of_moves hm (by simp)
      chain := by
        refine ⟨hfree, hne, ?_⟩
        have hlink : load64 s'.mem c₀ = s.freelist := by
          rw [hmem]
          exact load64_store64_same (by omega) h.freelist_lt
        rw [hlink]
        refine h.chain_eq hch h₀ hsame (fun c hc ↦ ⟨hc, ?_⟩) h.chain
        rintro rfl
        exact hnotFree hc
      nodup := List.nodup_cons.mpr ⟨hnotFree, h.nodup⟩
      placed := by
        rw [hstart]
        refine h.placed_put hm h₀ (p := .free) (by simp) rfl ?_ ?_
        · intro c
          simp [hlive]
        · intro c
          rw [List.mem_cons, or_comm]
          simp
      fields := by
        intro u q hu hq
        rw [hm.pc, Function.update_apply] at hu
        split at hu
        · cases hu
        · next hut =>
            refine h.fields_eq hch h₀ hsame hu hq ?_
            rintro rfl
            refine hnot (.call u) (by simpa using hut) ?_
            simp [PoolState.At, hu, Pc.held, hq] }

/-- Writes to the chunks that are live, and to memory that is not of the pool. -/
theorem setMem (h : PoolOk base ch pl s cs) (hch : headerSize ≤ ch) {mem : Memory}
    (hmem : ∀ b < 2 ^ 64, base ≤ b → b < base + pl → (∀ c ∈ s.live, b < c ∨ c + ch ≤ b) →
      mem b = s.mem b) : PoolOk base ch pl { s with mem := mem } cs := by
  have hload : ∀ o c, o ≠ .live → s.At cs o c →
      load64 mem c = load64 s.mem c ∧ load64 mem (c + 8) = load64 s.mem (c + 8) := by
    intro o c ho hc
    have hlt := h.lt hc
    obtain ⟨k, hk, -⟩ := h.placed.carved o c hc
    have hin := h.placed.inside o c hc
    have hbyte : ∀ b, c ≤ b → b < c + ch → mem b = s.mem b := by
      intro b hlo hhi
      have hbase : base ≤ c := by
        rw [hk]
        exact Nat.le_add_right _ _
      refine hmem b (by omega) (by omega) (by omega) fun c' hc' ↦ ?_
      have hlive : s.At cs .live c' := hc'
      have hne : c ≠ c' := by
        rintro rfl
        exact ho (h.placed.unique c _ _ hc hlive)
      have := h.placed.apart hc hlive hne
      omega
    unfold headerSize at hch
    constructor
    · refine load_eq_of_bytes fun i hi ↦ ?_
      rw [wrap_of_lt (by omega)]
      exact hbyte _ (by omega) (by omega)
    · refine load_eq_of_bytes fun i hi ↦ ?_
      rw [wrap_of_lt (by omega)]
      exact hbyte _ (by omega) (by omega)
  exact
    { h with
      shape := ⟨h.shape.memPool, h.shape.chunkSize, h.shape.freeareaEnd, h.shape.bump,
        h.shape.bump_lt⟩
      chain := h.chain.congr fun c hc ↦ (hload .free c (by simp) hc).1
      placed := h.placed
      fields := by
        intro u q hu hq
        have hu' : s.pc u = .ret q := hu
        have hat : s.At cs (.call u) q := by simp [PoolState.At, hu', Pc.held, hq]
        obtain ⟨h₁, h₂⟩ := hload (.call u) q (by simp) hat
        show load64 mem q = 0 ∧ load64 mem (q + 8) = q + headerSize
        rw [h₁, h₂]
        exact h.fields u q hu' hq }

/-- A write by the owner of a chunk. -/
theorem write (h : PoolOk base ch pl s cs) (hch : headerSize ≤ ch) {c₀ i : Nat} (v : UInt8)
    (h₀ : c₀ ∈ s.live) (hi : i < ch) :
    PoolOk base ch pl { s with mem := Function.update s.mem (c₀ + i) v } cs := by
  refine h.setMem hch fun b _ _ _ hout ↦ Function.update_of_ne ?_ _ _
  have := hout c₀ h₀
  omega

/-- The atomic steps. -/
theorem advance (h : PoolOk base ch pl s cs) (hch : headerSize ≤ ch) (hpos : 0 < base)
    (hwrap : s.pc t = .bump → s.freeareaStart + s.chunkSize < 2 ^ 64) (hs : s.advance t = some s') :
    ∃ cs', PoolOk base ch pl s' cs' := by
  unfold PoolState.advance at hs
  cases hpc : s.pc t with
  | idle => simp [hpc] at hs
  | test =>
      simp only [hpc, Option.some.injEq] at hs
      subst hs
      refine ⟨cs, h.goto ?_ ?_ ?_⟩
      · rw [hpc]
        split <;> rfl
      · intro lo
        split <;> simp
      · intro p
        split <;> simp
  | pop =>
      simp only [hpc] at hs
      split at hs
      · obtain rfl := Option.some.inj hs
        exact ⟨cs, h.goto (by rw [hpc]; rfl) (by simp) (by simp)⟩
      · next hne =>
          obtain rfl := Option.some.inj hs
          exact h.pop hch hpc hne ⟨rfl, rfl, rfl, rfl⟩ rfl rfl rfl rfl
  | bump =>
      simp only [hpc, Option.some.injEq] at hs
      subst hs
      exact ⟨cs, h.fetchAdd hch hpc (hwrap hpc) ⟨rfl, rfl, rfl, rfl⟩ rfl rfl rfl rfl⟩
  | init lo =>
      have hlo : wrapAdd lo s.chunkSize = lo + ch := by
        rw [wrapAdd_eq, h.shape.chunkSize, wrap_of_lt (h.piece t lo hpc)]
      simp only [hpc, hlo, h.shape.freeareaEnd] at hs
      split at hs
      · next hfull =>
          obtain rfl := Option.some.inj hs
          refine ⟨cs, h.goto ?_ (by simp) (by simp)⟩
          rw [hpc, Pc.held, Pc.held, if_pos rfl, if_neg (Nat.not_lt.mpr hfull)]
      · next hfit =>
          obtain rfl := Option.some.inj hs
          exact ⟨cs, h.allocChunk hch hpos hpc (Nat.lt_of_not_le hfit) ⟨rfl, rfl, rfl, rfl⟩ rfl rfl
            rfl rfl⟩
  | ret p =>
      simp only [hpc, Option.some.injEq] at hs
      by_cases hp : p = 0
      · rw [if_pos hp] at hs
        obtain rfl : s.goto t .idle = s' := hs
        exact ⟨cs, h.goto (by rw [hpc, Pc.held, if_pos hp]; rfl) (by simp) (by simp)⟩
      · rw [if_neg hp] at hs
        subst hs
        exact ⟨cs, h.ret hpc hp ⟨rfl, rfl, rfl, rfl⟩ rfl rfl rfl rfl⟩
  | push c =>
      simp only [hpc, Option.some.injEq] at hs
      subst hs
      exact ⟨c :: cs, h.push hch hpos hpc ⟨rfl, rfl, rfl, rfl⟩ rfl rfl rfl rfl⟩

/-- **One transition.** -/
theorem next (h : PoolOk base ch pl s cs) (hch : headerSize ≤ ch) (hpos : 0 < base) {e : PoolEvent}
    (hwrap : NoWrap s e) (hs : s.next e = some s') : ∃ cs', PoolOk base ch pl s' cs' := by
  cases e with
  | alloc t =>
      simp only [PoolState.next, Option.ite_none_right_eq_some, Option.some.injEq] at hs
      obtain ⟨hpc, rfl⟩ := hs
      exact ⟨cs, h.goto (by rw [hpc]; rfl) (by simp) (by simp)⟩
  | release t c =>
      simp only [PoolState.next, Option.ite_none_right_eq_some, Option.some.injEq] at hs
      obtain ⟨⟨hpc, hc⟩, rfl⟩ := hs
      exact ⟨cs, h.release hpc hc ⟨rfl, rfl, rfl, rfl⟩ rfl rfl rfl rfl⟩
  | step t => exact h.advance hch hpos (hwrap t rfl) hs
  | write c i v =>
      simp only [PoolState.next, Option.ite_none_right_eq_some, Option.some.injEq] at hs
      obtain ⟨⟨hc, hi⟩, rfl⟩ := hs
      exact ⟨cs, h.write hch v hc (by rwa [h.shape.chunkSize] at hi)⟩

/-- The pool `MemPoolInit` sets up. -/
theorem init {mem : Memory} (hch : headerSize ≤ ch) (hlt : base + pl < 2 ^ 64)
    (hs : memPoolInit mem (some base) ch pl = some s) : PoolOk base ch pl s [] := by
  have hend : wrapAdd base pl = base + pl := by rw [wrapAdd_eq, wrap_of_lt hlt]
  simp only [memPoolInit, hend, Option.some.injEq] at hs
  have hnone : ∀ o c, ¬ s.At [] o c := by
    subst hs
    rintro (_ | _ | u) c <;> simp [PoolState.At, Pc.held]
  have hstart : s.freeareaStart = base := by rw [← hs]
  have hplaced : Placed base ch pl base (s.At []) := by
    refine ⟨fun c o _ ho ↦ absurd ho (hnone o c), fun o c ho ↦ absurd ho (hnone o c),
      fun o c ho ↦ absurd ho (hnone o c), fun k hk _ ↦ ?_⟩
    unfold headerSize at hch
    omega
  refine ⟨⟨?_, ?_, ?_, ⟨0, by rw [hstart]; simp⟩, by rw [hstart]; omega⟩, ?_, ?_, List.nodup_nil,
    hstart ▸ hplaced, ?_⟩
  all_goals subst hs
  · rfl
  · rfl
  · rfl
  · simp
  · rfl
  · simp

end PoolOk

/-! ## Exclusivity -/

/-- Each chunk of the pool has one owner: the caller it was returned to, the free list, or a call in
flight. -/
structure Exclusive (base ch pl : Nat) (s : PoolState) (cs : List Nat) : Prop where
  /-- The free list is finite and acyclic. -/
  chain : Chain s.mem s.freelist cs
  nodup : cs.Nodup
  /-- No chunk on it is live. -/
  distinct : ∀ c ∈ cs, c ∉ s.live
  /-- Chunks do not overlap. -/
  apart : ∀ c c', c ∈ s.live ∨ c ∈ cs → c' ∈ s.live ∨ c' ∈ cs → c ≠ c' →
    c + ch ≤ c' ∨ c' + ch ≤ c
  /-- They lie in the pool, at multiples of the chunk size. -/
  inside : ∀ c, c ∈ s.live ∨ c ∈ cs → ∃ k, c = s.memPool + k * ch ∧ c + ch ≤ s.memPool + pl
  /-- No chunk is lost: whatever was cut off the pool is live, free or in the hands of one call. -/
  kept : ∀ k, base + k * ch + ch ≤ s.freeareaStart → base + k * ch + ch < base + pl →
    ∃! o, s.At cs o (base + k * ch)
  /-- A chunk about to be returned is empty and linked to nothing. -/
  fields : ∀ t p, s.pc t = .ret p → p ≠ 0 →
    load64 s.mem p = 0 ∧ load64 s.mem (p + 8) = p + headerSize

theorem PoolOk.exclusive {base ch pl : Nat} {s : PoolState} {cs : List Nat}
    (h : PoolOk base ch pl s cs) : Exclusive base ch pl s cs := by
  have hat : ∀ c, c ∈ s.live ∨ c ∈ cs → ∃ o, s.At cs o c := by
    rintro c (hc | hc)
    · exact ⟨.live, hc⟩
    · exact ⟨.free, hc⟩
  refine ⟨h.chain, h.nodup, ?_, ?_, ?_, ?_, h.fields⟩
  · intro c hfree hlive
    exact absurd (h.placed.unique c .free .live hfree hlive) (by simp)
  · intro c c' hc hc' hne
    obtain ⟨o, ho⟩ := hat c hc
    obtain ⟨o', ho'⟩ := hat c' hc'
    exact h.placed.apart ho ho' hne
  · intro c hc
    obtain ⟨o, ho⟩ := hat c hc
    obtain ⟨k, hk, -⟩ := h.placed.carved o c ho
    rw [h.shape.memPool]
    exact ⟨k, hk, (h.placed.inside o c ho).le⟩
  · intro k hk hin
    obtain ⟨o, ho⟩ := h.placed.total k hk hin
    exact ⟨o, ho, fun o' ho' ↦ h.placed.unique _ _ _ ho' ho⟩

/-- **Chunk exclusivity over whole runs.**  `mmap` answered with a mapping of `pl` bytes at `base`
in the address space; from then on, any interleaving of the steps of any number of threads keeps
every chunk with one owner. -/
theorem run_exclusive {m : Memory} {base ch pl : Nat} {s₀ s : PoolState} {es : List PoolEvent}
    (hbase : 0 < base) (hmap : base + pl < 2 ^ 64) (hch : headerSize ≤ ch)
    (hinit : memPoolInit m (some base) ch pl = some s₀)
    (hrun : Run (Guarded NoWrap PoolStep) s₀ es s) : ∃ cs, Exclusive base ch pl s cs := by
  have hok : ∃ cs, PoolOk base ch pl s cs :=
    hrun.invariant (I := fun s ↦ ∃ cs, PoolOk base ch pl s cs) ⟨[], PoolOk.init hch hmap hinit⟩
      fun _ _ _ ⟨_, h⟩ ⟨hwrap, hs⟩ ↦ h.next hch hbase hwrap hs
  obtain ⟨cs, h⟩ := hok
  exact ⟨cs, h.exclusive⟩

/-- A pool of four pages with chunks of 64 bytes. -/
def smallPool : PoolState where
  memPool := 0x1000
  freelist := 0
  chunkSize := 64
  freeareaStart := 0x1000
  freeareaEnd := 0x5000
  mem := fun _ ↦ 0
  pc := fun _ ↦ .idle
  live := ∅

/-- A transition that the fetch-add would not wrap in. -/
def PoolState.nextNoWrap (s : PoolState) (e : PoolEvent) : Option PoolState :=
  if s.freeareaStart + s.chunkSize < 2 ^ 64 then s.next e else none

theorem guarded_of_nextNoWrap (s : PoolState) (e : PoolEvent) (s' : PoolState)
    (h : s.nextNoWrap e = some s') : Guarded NoWrap PoolStep s e s' := by
  rw [PoolState.nextNoWrap, Option.ite_none_right_eq_some] at h
  exact ⟨fun _ _ _ ↦ h.1, h.2⟩

/-- Two threads fetch a piece each before either initialises its chunk; one chunk is released, both threads
find the free list not empty, and one of them comes too late. -/
def racingCalls : List PoolEvent :=
  [.alloc 0, .alloc 1, .step 0, .step 1, .step 1, .step 0, .step 0, .step 1, .step 0, .step 1, .release 0 0x1040,
    .step 0, .alloc 0, .alloc 1, .step 0, .step 1, .step 1, .step 0, .step 0, .step 0]

theorem run_exclusive_two : ∃ s : PoolState, Run (Guarded NoWrap PoolStep) smallPool racingCalls s ∧
    s.pc 0 = .ret 0x1080 ∧ s.pc 1 = .ret 0x1040 ∧ s.live = {0x1000} ∧ ∃ cs, Exclusive 0x1000 64 0x4000 s cs := by
  have hrun : Run (Guarded NoWrap PoolStep) smallPool racingCalls _ := Run.of_foldlM guarded_of_nextNoWrap rfl
  refine ⟨_, hrun, rfl, rfl, by decide, ?_⟩
  exact run_exclusive (m := fun _ ↦ 0) (by decide) (by decide) (by decide) rfl hrun

end ShadowStack.Runtime
