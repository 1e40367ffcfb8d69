import Mathlib.Data.Finset.Card
import ShadowStack.Runtime.Pool
import ShadowStack.X86.Sequences

/-!
# The threads of a process

`runtime/main.c`: the constructor sets up the pool and gets a chunk for the main thread; every thread
made through the interposed `pthread_create` gets one before its start routine, and `gs` then points
to it.  Instrumented functions push to the chunk and pop from it.

A thread that ends keeps its chunk: `put_chunk`, which would return it to the pool, is not called from
anywhere.
-/

namespace ShadowStack.Runtime

open Lib X86

/-- `SHADOW_SIZE`. -/
def shadowSize : Nat := 1024 * 1024

/-- `MEM_SIZE`. -/
def memSize : Nat := 1024 * 1024 * 1024

/-- Why the process is gone. -/
inductive ExitCause where
  /-- `MemPoolAlloc` has returned `NULL`. -/
  | noChunk
  /-- `arch_prctl` has failed. -/
  | prctl
  /-- A function found another address in its return slot than it pushed. -/
  | trapped
deriving DecidableEq, Repr

structure Process where
  pool : PoolState
  /-- The base of `gs`, once a thread has set it. -/
  gs : Tid → Option Nat
  /-- The return slots of the calls of instrumented functions that have not returned, innermost first. -/
  slots : Tid → List Nat
  /-- The threads made by `pthread_create`. -/
  created : Finset Tid
  /-- Those of them that have not ended. -/
  alive : Finset Tid
  exited : Option ExitCause

/-- The main thread. -/
def mainTid : Tid := 0

/-- `shadow_stack_init`, up to its call of `MemPoolAlloc`. -/
def shadowStackInit (mem : Memory) (mmap : Option Nat) : Option Process :=
  (memPoolInit mem mmap shadowSize memSize).map fun pool ↦ {
    pool := pool.goto mainTid .test
    gs := fun _ ↦ none
    slots := fun _ ↦ []
    created := ∅
    alive := ∅
    exited := none }

inductive ProcessEvent where
  /-- `pthread_create` makes a thread, which goes to `shadow_stack_thread_init`. -/
  | create (t : Tid)
  /-- The next step of `MemPoolAlloc`, or what follows its return; `ok` is the answer of `arch_prctl`. -/
  | step (t : Tid) (ok : Bool)
  /-- An instrumented function is called, with the registers and flags of `m`. -/
  | call (t : Tid) (m : Machine)
  /-- It returns. -/
  | ret (t : Tid) (m : Machine) (strategy : ViolationStrategy) (trapBB : Nat) (scratch : Option Reg)
  /-- A thread ends, by returning from its start routine or in any other way. -/
  | finish (t : Tid)
  /-- The program writes to memory. -/
  | app (mem : Memory)

namespace Process

variable (p : Process)

/-- The machine of a thread with its chunk at `c`. -/
def machine (c : Nat) (m : Machine) : Machine := { m with gs := c, mem := p.pool.mem }

def setMem (mem : Memory) : Process := { p with pool := { p.pool with mem := mem } }

def setSlots (t : Tid) (l : List Nat) : Process := { p with slots := Function.update p.slots t l }

def exit (cause : ExitCause) : Process := { p with exited := some cause }

/-- The steps of `MemPoolAlloc`; then `exit` if it has returned `NULL`, and `get_chunk`. -/
def stepInit (t : Tid) (ok : Bool) : Option Process :=
  match p.pool.pc t with
  | .ret chunk =>
      if chunk = 0 then some (p.exit .noChunk)
      else if ok then
        (p.pool.advance t).map fun pool ↦
          { p with pool := pool, gs := Function.update p.gs t (some chunk) }
      else some (p.exit .prctl)
  | _ => (p.pool.advance t).map fun pool ↦ { p with pool := pool }

/-- The instructions that `instrumentPreamble` has put at the start of the function. -/
def stepCall (t : Tid) (c : Nat) (m : Machine) : Process :=
  match straight preamble (p.machine c m) with
  | .stop m' _ => (p.setMem m'.mem).setSlots t (m.regs .rsp :: p.slots t)
  | _ => p

/-- The instructions that `instrumentRet` has put before the return. -/
def stepRet (t : Tid) (c : Nat) (m : Machine) (strategy : ViolationStrategy) (trapBB : Nat)
    (scratch : Option Reg) : Process :=
  match straight (instrumentRet strategy trapBB scratch) (p.machine c m) with
  | .stop m' _ => (p.setMem m'.mem).setSlots t (p.slots t).tail
  | .jump m' _ => (p.setMem m'.mem).exit .trapped
  | .trapped => p.exit .trapped

/-- What may happen next.  Threads are made once the constructor is done. -/
def next : ProcessEvent → Option Process
  | .create t =>
      if p.exited = none ∧ p.gs mainTid ≠ none ∧ t ≠ mainTid ∧ t ∉ p.created then
        some { p with
          pool := p.pool.goto t .test
          created := insert t p.created
          alive := insert t p.alive }
      else none
  | .step t ok => if p.exited = none then p.stepInit t ok else none
  | .call t m => if p.exited = none then (p.gs t).map fun c ↦ p.stepCall t c m else none
  | .ret t m strategy trapBB scratch =>
      if p.exited = none ∧ (p.slots t).head? = some (m.regs .rsp) then
        (p.gs t).map fun c ↦ p.stepRet t c m strategy trapBB scratch
      else none
  | .finish t =>
      if p.exited = none ∧ t ∈ p.alive ∧ p.gs t ≠ none then
        some { p with gs := Function.update p.gs t none, alive := p.alive.erase t }
      else none
  | .app mem => if p.exited = none then some (p.setMem mem) else none

end Process

def ProcessStep (p : Process) (e : ProcessEvent) (p' : Process) : Prop := p.next e = some p'

/-! ## How far the pool lasts -/

/-- The number of threads the pool has chunks for, besides the main thread: the last piece of the pool
does not pass the test in `alloc_chunk`. -/
def maxThreads : Nat := memSize / shadowSize - 2

/-- A thread is made when fewer than `maxThreads` are alive. -/
def FewAlive (p : Process) (e : ProcessEvent) : Prop :=
  ∀ t, e = .create t → p.alive.card < maxThreads

/-- A thread is made when fewer than `maxThreads` were made before. -/
def FewCreated (p : Process) (e : ProcessEvent) : Prop :=
  ∀ t, e = .create t → p.created.card < maxThreads

/-- No thread is refused a chunk. -/
structure Obtains (p : Process) : Prop where
  chunk : ∀ t c, p.pool.pc t = .ret c → c ≠ 0
  exited : p.exited ≠ some .noChunk

/-- The thread has not cut a piece off the free area. -/
def Pc.Before : Pc → Bool
  | .test | .pop | .bump => true
  | _ => false

/-- The threads that have cut off a piece. -/
def Process.past (p : Process) : Finset Tid :=
  (insert mainTid p.created).filter fun t ↦ ¬ (p.pool.pc t).Before

/-- Nothing comes back to the pool, and each thread has taken at most one piece from it. -/
structure Unspent (base : Nat) (p : Process) : Prop where
  chunkSize : p.pool.chunkSize = shadowSize
  freeareaEnd : p.pool.freeareaEnd = base + memSize
  freelist : p.pool.freelist = 0
  start : p.pool.freeareaStart = base + p.past.card * shadowSize
  piece : ∀ t lo, p.pool.pc t = .init lo → base ≤ lo ∧ lo + shadowSize ≤ p.pool.freeareaStart
  push : ∀ t c, p.pool.pc t ≠ .push c
  idle : ∀ t, t ≠ mainTid → t ∉ p.created → p.pool.pc t = .idle
  few : p.created.card ≤ maxThreads
  obtains : Obtains p

variable {base : Nat} {p p' : Process} {t : Tid} {pc : Pc}

/-- The last piece that is cut off is inside of the pool. -/
theorem Unspent.start_le (h : Unspent base p) :
    p.pool.freeareaStart ≤ base + (maxThreads + 1) * shadowSize := by
  have hcard : p.past.card ≤ maxThreads + 1 := by
    refine (Finset.card_filter_le _ _).trans ((Finset.card_insert_le _ _).trans ?_)
    exact Nat.succ_le_succ h.few
  rw [h.start]
  exact Nat.add_le_add_left (Nat.mul_le_mul_right _ hcard) _

/-- A step that cuts nothing off: of one thread, which does not get past the fetch-add by it. -/
theorem Unspent.moves (h : Unspent base p) (pc : Pc) (hm : Moves p.pool p'.pool t pc)
    (hfree : p'.pool.freelist = 0) (hstart : p'.pool.freeareaStart = p.pool.freeareaStart)
    (hcreated : p'.created = p.created) (hexited : p'.exited ≠ some .noChunk)
    (hbefore : pc.Before = (p.pool.pc t).Before) (ht : p.pool.pc t ≠ .idle)
    (hinit : ∀ lo, pc ≠ .init lo) (hpush : ∀ c, pc ≠ .push c) (hret : ∀ c, pc = .ret c → c ≠ 0) :
    Unspent base p' := by
  have hself : p'.pool.pc t = pc := by rw [hm.pc, Function.update_self]
  have hother : ∀ u, u ≠ t → p'.pool.pc u = p.pool.pc u := fun u hu ↦ by
    rw [hm.pc, Function.update_of_ne hu]
  have hpast : p'.past = p.past := by
    unfold Process.past
    rw [hcreated]
    refine Finset.filter_congr fun u _ ↦ ?_
    by_cases hu : u = t
    · rw [hu, hself, hbefore]
    · rw [hother u hu]
  refine ⟨hm.chunkSize.trans h.chunkSize, hm.freeareaEnd.trans h.freeareaEnd, hfree, ?_, ?_, ?_, ?_,
    by rw [hcreated]; exact h.few, ?_, hexited⟩
  · rw [hstart, hpast, h.start]
  · intro u lo hu
    rw [hstart]
    by_cases hut : u = t
    · rw [hut, hself] at hu
      exact absurd hu (hinit lo)
    · exact h.piece u lo (by rw [← hother u hut, hu])
  · intro u c hu
    by_cases hut : u = t
    · rw [hut, hself] at hu
      exact hpush c hu
    · exact h.push u c (by rw [← hother u hut, hu])
  · intro u hu hu'
    rw [hcreated] at hu'
    have hut : u ≠ t := by
      rintro rfl
      exact ht (h.idle u hu hu')
    rw [hother u hut]
    exact h.idle u hu hu'
  · intro u c hu
    by_cases hut : u = t
    · rw [hut, hself] at hu
      exact hret c hu
    · exact h.obtains.chunk u c (by rw [← hother u hut, hu])

/-- A step that leaves the pool alone, but for the contents of its chunks. -/
theorem Unspent.congr (h : Unspent base p) (hpool : ∃ mem, p'.pool = { p.pool with mem := mem })
    (hcreated : p'.created = p.created) (hexited : p'.exited ≠ some .noChunk) : Unspent base p' := by
  obtain ⟨mem, hpool⟩ := hpool
  have hpc : p'.pool.pc = p.pool.pc := by rw [hpool]
  have hpast : p'.past = p.past := by rw [Process.past, Process.past, hcreated, hpc]
  refine ⟨by rw [hpool]; exact h.chunkSize, by rw [hpool]; exact h.freeareaEnd,
    by rw [hpool]; exact h.freelist, by rw [hpast, hpool]; exact h.start, ?_, ?_, ?_,
    by rw [hcreated]; exact h.few, ?_, hexited⟩
  · rw [hpool]
    exact h.piece
  · rw [hpc]
    exact h.push
  · rw [hpc, hcreated]
    exact h.idle
  · rw [hpc]
    exact h.obtains.chunk

/-- The fetch-add: one more thread, one more piece. -/
theorem Unspent.fetchAdd (h : Unspent base p) (hlt : base + memSize < 2 ^ 64) (hpc : p.pool.pc t = .bump) :
    Unspent base { p with pool := { p.pool.goto t (.init p.pool.freeareaStart) with
      freeareaStart := wrapAdd p.pool.freeareaStart p.pool.chunkSize } } := by
  have hle := h.start_le
  have hnext : wrapAdd p.pool.freeareaStart p.pool.chunkSize = p.pool.freeareaStart + shadowSize := by
    rw [h.chunkSize]
    have hsize : (maxThreads + 1) * shadowSize + shadowSize = memSize := by decide
    unfold wrapAdd
    omega
  have ht : t = mainTid ∨ t ∈ p.created := by
    by_contra hc
    rw [not_or] at hc
    rw [h.idle t hc.1 hc.2] at hpc
    cases hpc
  obtain ⟨p', hp'⟩ : ∃ p', { p with pool := { p.pool.goto t (.init p.pool.freeareaStart) with
      freeareaStart := wrapAdd p.pool.freeareaStart p.pool.chunkSize } } = p' := ⟨_, rfl⟩
  have hself : p'.pool.pc t = .init p.pool.freeareaStart := by
    rw [← hp']
    exact Function.update_self ..
  have hother : ∀ u, u ≠ t → p'.pool.pc u = p.pool.pc u := fun u hu ↦ by
    rw [← hp']
    exact Function.update_of_ne hu ..
  have hcreated : p'.created = p.created := by rw [← hp']
  have hstart : p'.pool.freeareaStart = p.pool.freeareaStart + shadowSize := by
    rw [← hp', ← hnext]
  have hpast : p'.past = insert t p.past := by
    ext u
    simp only [Process.past, hcreated, Finset.mem_filter, Finset.mem_insert]
    by_cases hu : u = t
    · rw [hu, hself]
      simp [Pc.Before, ht]
    · rw [hother u hu]
      simp [hu]
  have hnot : t ∉ p.past := by
    simp [Process.past, hpc, Pc.Before]
  rw [hp']
  refine ⟨?_, ?_, ?_, ?_, ?_, ?_, ?_, by rw [hcreated]; exact h.few, ?_, ?_⟩
  · rw [← hp']
    exact h.chunkSize
  · rw [← hp']
    exact h.freeareaEnd
  · rw [← hp']
    exact h.freelist
  · rw [hstart, hpast, Finset.card_insert_of_notMem hnot, h.start, Nat.succ_mul, Nat.add_assoc]
  · intro u lo hu
    rw [hstart]
    by_cases hut : u = t
    · rw [hut, hself] at hu
      obtain rfl := Pc.init.inj hu
      exact ⟨by rw [h.start]; exact Nat.le_add_right _ _, le_rfl⟩
    · obtain ⟨hlo, hhi⟩ := h.piece u lo (by rw [← hother u hut, hu])
      exact ⟨hlo, hhi.trans (Nat.le_add_right _ _)⟩
  · intro u c hu
    by_cases hut : u = t
    · rw [hut, hself] at hu
      cases hu
    · exact h.push u c (by rw [← hother u hut, hu])
  · intro u hu hu'
    rw [hcreated] at hu'
    have hut : u ≠ t := by
      rintro rfl
      exact ht.elim hu hu'
    rw [hother u hut]
    exact h.idle u hu hu'
  · intro u c hu
    by_cases hut : u = t
    · rw [hut, hself] at hu
      cases hu
    · exact h.obtains.chunk u c (by rw [← hother u hut, hu])
  · rw [← hp']
    exact h.obtains.exited

/-- A new thread has not taken anything. -/
theorem Unspent.create (h : Unspent base p) (ht : t ≠ mainTid) (hnew : t ∉ p.created)
    (hfew : p.created.card < maxThreads) (a : Finset Tid) :
    Unspent base { p with pool := p.pool.goto t .test, created := insert t p.created, alive := a } := by
  obtain ⟨p', hp'⟩ : ∃ p', { p with
      pool := p.pool.goto t .test, created := insert t p.created, alive := a } = p' := ⟨_, rfl⟩
  have hself : p'.pool.pc t = .test := by
    rw [← hp']
    exact Function.update_self ..
  have hother : ∀ u, u ≠ t → p'.pool.pc u = p.pool.pc u := fun u hu ↦ by
    rw [← hp']
    exact Function.update_of_ne hu ..
  have hcreated : p'.created = insert t p.created := by rw [← hp']
  have hpast : p'.past = p.past := by
    ext u
    simp only [Process.past, hcreated, Finset.mem_filter, Finset.mem_insert]
    by_cases hu : u = t
    · rw [hu, hself]
      simp [Pc.Before, ht, hnew]
    · rw [hother u hu]
      simp [hu]
  rw [hp']
  refine ⟨?_, ?_, ?_, ?_, ?_, ?_, ?_, ?_, ?_, ?_⟩
  · rw [← hp']
    exact h.chunkSize
  · rw [← hp']
    exact h.freeareaEnd
  · rw [← hp']
    exact h.freelist
  · rw [hpast, ← h.start, ← hp']
    rfl
  · intro u lo hu
    have hut : u ≠ t := by
      rintro rfl
      rw [hself] at hu
      cases hu
    rw [← hp']
    exact h.piece u lo (by rw [← hother u hut, hu])
  · intro u c hu
    by_cases hut : u = t
    · rw [hut, hself] at hu
      cases hu
    · exact h.push u c (by rw [← hother u hut, hu])
  · intro u hu hu'
    rw [hcreated, Finset.mem_insert, not_or] at hu'
    rw [hother u hu'.1]
    exact h.idle u hu hu'.2
  · rw [hcreated, Finset.card_insert_of_notMem hnew]
    exact hfew
  · intro u c hu
    by_cases hut : u = t
    · rw [hut, hself] at hu
      cases hu
    · exact h.obtains.chunk u c (by rw [← hother u hut, hu])
  · rw [← hp']
    exact h.obtains.exited

/-- The steps of a thread that gets its chunk. -/
theorem Unspent.stepInit (h : Unspent base p) (hbase : 0 < base) (hlt : base + memSize < 2 ^ 64) {ok : Bool}
    (hs : p.stepInit t ok = some p') : Unspent base p' := by
  have hexit := h.obtains.exited
  unfold Process.stepInit at hs
  cases hpc : p.pool.pc t with
  | idle => simp [hpc, PoolState.advance] at hs
  | push c => exact absurd hpc (h.push t c)
  | test =>
      simp only [hpc, PoolState.advance, h.freelist, if_true, Option.map_some, Option.some.injEq] at hs
      subst hs
      exact h.moves .bump ⟨rfl, rfl, rfl, rfl⟩ h.freelist rfl rfl hexit (by rw [hpc]; rfl)
        (by rw [hpc]; simp) (by simp) (by simp) (by simp)
  | pop =>
      simp only [hpc, PoolState.advance, h.freelist, if_true, Option.map_some, Option.some.injEq] at hs
      subst hs
      exact h.moves .bump ⟨rfl, rfl, rfl, rfl⟩ h.freelist rfl rfl hexit (by rw [hpc]; rfl)
        (by rw [hpc]; simp) (by simp) (by simp) (by simp)
  | bump =>
      simp only [hpc, PoolState.advance, Option.map_some, Option.some.injEq] at hs
      subst hs
      exact h.fetchAdd hlt hpc
  | init lo =>
      obtain ⟨hlo, hhi⟩ := h.piece t lo hpc
      have hle := h.start_le
      have hsize : (maxThreads + 1) * shadowSize + shadowSize = memSize := by decide
      have hpos : 0 < shadowSize := by decide
      have hnot : ¬ p.pool.freeareaEnd ≤ wrapAdd lo p.pool.chunkSize := by
        rw [h.freeareaEnd, h.chunkSize]
        unfold wrapAdd
        omega
      simp only [hpc, PoolState.advance, if_neg hnot, Option.map_some, Option.some.injEq] at hs
      subst hs
      exact h.moves (.ret lo) ⟨rfl, rfl, rfl, rfl⟩ h.freelist rfl rfl hexit (by rw [hpc]; rfl)
        (by rw [hpc]; simp) (by simp) (by simp) fun c hc ↦ by
          obtain rfl := Pc.ret.inj hc
          omega
  | ret c =>
      have hc := h.obtains.chunk t c hpc
      simp only [hpc, if_neg hc, PoolState.advance, Option.map_some] at hs
      split_ifs at hs
      · obtain rfl := Option.some.inj hs
        exact h.moves .idle ⟨rfl, rfl, rfl, rfl⟩ h.freelist rfl rfl hexit (by rw [hpc]; rfl)
          (by rw [hpc]; simp) (by simp) (by simp) (by simp)
      · obtain rfl := Option.some.inj hs
        exact h.congr ⟨_, rfl⟩ rfl (by simp [Process.exit])

/-- **One step of a process.** -/
theorem Unspent.next (h : Unspent base p) (hbase : 0 < base) (hlt : base + memSize < 2 ^ 64)
    {e : ProcessEvent} (he : FewCreated p e) (hs : ProcessStep p e p') : Unspent base p' := by
  have hexit := h.obtains.exited
  cases e with
  | create t =>
      obtain ⟨⟨-, -, ht, hnew⟩, hs⟩ := Option.ite_none_right_eq_some.mp hs
      obtain rfl := Option.some.inj hs
      exact h.create ht hnew (he t rfl) _
  | step t ok =>
      obtain ⟨-, hs⟩ := Option.ite_none_right_eq_some.mp hs
      exact h.stepInit hbase hlt hs
  | call t m =>
      obtain ⟨-, hs⟩ := Option.ite_none_right_eq_some.mp hs
      obtain ⟨c, -, rfl⟩ := Option.map_eq_some_iff.mp hs
      unfold Process.stepCall
      split
      · exact h.congr ⟨_, rfl⟩ rfl hexit
      · exact h
  | ret t m strategy trapBB scratch =>
      obtain ⟨-, hs⟩ := Option.ite_none_right_eq_some.mp hs
      obtain ⟨c, -, rfl⟩ := Option.map_eq_some_iff.mp hs
      unfold Process.stepRet
      split
      · exact h.congr ⟨_, rfl⟩ rfl hexit
      · exact h.congr ⟨_, rfl⟩ rfl (by simp [Process.exit])
      · exact h.congr ⟨_, rfl⟩ rfl (by simp [Process.exit])
  | finish t =>
      obtain ⟨-, hs⟩ := Option.ite_none_right_eq_some.mp hs
      obtain rfl := Option.some.inj hs
      exact h.congr ⟨_, rfl⟩ rfl hexit
  | app mem =>
      obtain ⟨-, hs⟩ := Option.ite_none_right_eq_some.mp hs
      obtain rfl := Option.some.inj hs
      exact h.congr ⟨_, rfl⟩ rfl hexit

/-- After the constructor has set up the pool. -/
theorem Unspent.init {mem : Memory} (hlt : base + memSize < 2 ^ 64)
    (hinit : shadowStackInit mem (some base) = some p) : Unspent base p := by
  obtain rfl := Option.some.inj hinit
  have hpc : ∀ u c, Function.update (fun _ ↦ Pc.idle) mainTid .test u = c → c = .idle ∨ c = .test := by
    rintro u c rfl
    by_cases hu : u = mainTid
    · rw [hu, Function.update_self]
      exact .inr rfl
    · rw [Function.update_of_ne hu]
      exact .inl rfl
  refine ⟨rfl, ?_, rfl, ?_, fun u lo hu ↦ ?_, fun u c hu ↦ ?_, fun u hu _ ↦ Function.update_of_ne hu ..,
    Nat.zero_le _, fun u c hu ↦ ?_, by simp⟩
  · show wrapAdd base memSize = base + memSize
    unfold wrapAdd
    omega
  · show base = base + Finset.card _ * shadowSize
    simp [Process.past, PoolState.goto, Pc.Before]
  · have := hpc u _ hu
    simp at this
  · have := hpc u _ hu
    simp at this
  · have := hpc u _ hu
    simp at this

/-- **As long as no more than `maxThreads` threads are made in all, each gets its chunk.** -/
theorem run_obtains {mem : Memory} {p₀ : Process} {es : List ProcessEvent} (hbase : 0 < base)
    (hlt : base + memSize < 2 ^ 64) (hinit : shadowStackInit mem (some base) = some p₀)
    (h : Run (Guarded FewCreated ProcessStep) p₀ es p) : Obtains p :=
  (h.invariant (Unspent.init hlt hinit) fun _ _ _ hu hs ↦ hu.next hbase hlt hs.1 hs.2).obtains

/-! ## One thread after the other -/

/-- Thread `t` is at `pc`, the others have ended or not begun, and `n` pieces are cut off. -/
structure Solo (base t n : Nat) (pc : Pc) (a : Finset Tid) (p : Process) : Prop where
  chunkSize : p.pool.chunkSize = shadowSize
  freeareaEnd : p.pool.freeareaEnd = base + memSize
  freelist : p.pool.freelist = 0
  start : p.pool.freeareaStart = base + n * shadowSize
  self : p.pool.pc t = pc
  others : ∀ u, u ≠ t → p.pool.pc u = .idle
  created : ∀ u ∈ p.created, u ≤ t
  alive : p.alive = a
  exited : p.exited = none
  main : t ≠ mainTid ∨ pc = .idle → p.gs mainTid ≠ none
  own : t ∈ a → pc = .idle → p.gs t ≠ none

namespace Solo

variable {n : Nat} {a : Finset Tid}

theorem init {mem : Memory} (hlt : base + memSize < 2 ^ 64)
    (hinit : shadowStackInit mem (some base) = some p) : Solo base mainTid 0 .test ∅ p := by
  obtain rfl := Option.some.inj hinit
  refine ⟨rfl, ?_, rfl, ?_, rfl, fun u hu ↦ Function.update_of_ne hu ..,
    fun u hu ↦ (nomatch hu), rfl, rfl, ?_, fun ht ↦ (nomatch ht)⟩
  · show wrapAdd base memSize = base + memSize
    unfold wrapAdd
    omega
  · show base = base + 0 * shadowSize
    omega
  · rintro (hc | hc)
    · exact absurd rfl hc
    · cases hc

theorem create (h : Solo base t n .idle ∅ p) :
    ∃ p', Guarded FewAlive ProcessStep p (.create (t + 1)) p' ∧ Solo base (t + 1) n .test {t + 1} p' := by
  have hnew : t + 1 ∉ p.created := fun hc ↦ Nat.not_succ_le_self t (h.created _ hc)
  have hmain := h.main (.inr rfl)
  refine ⟨_, ⟨fun _ _ ↦ by rw [h.alive]; decide, if_pos ⟨h.exited, hmain, Nat.succ_ne_zero t, hnew⟩⟩,
    h.chunkSize, h.freeareaEnd, h.freelist, h.start, Function.update_self .., fun u hu ↦ ?_, fun u hu ↦ ?_,
    ?_, h.exited, fun _ ↦ hmain, fun _ hc ↦ (nomatch hc)⟩
  · have hu' : p.pool.pc u = .idle := by
      by_cases hut : u = t
      · rw [hut, h.self]
      · exact h.others u hut
    exact (Function.update_of_ne hu ..).trans hu'
  · rcases Finset.mem_insert.mp hu with rfl | hu
    · exact le_rfl
    · exact (h.created u hu).trans (Nat.le_succ t)
  · show insert (t + 1) p.alive = {t + 1}
    rw [h.alive]
    rfl

/-- A step of the thread within `MemPoolAlloc`. -/
theorem step (pool : PoolState) (pc' : Pc) (n' : Nat) (h : Solo base t n pc a p) (hret : ∀ c, pc ≠ .ret c)
    (hadv : p.pool.advance t = some pool) (hm : Moves p.pool pool t pc') (hne : pc' ≠ .idle)
    (hmain : t ≠ mainTid ∨ pc' = .idle → p.gs mainTid ≠ none)
    (hfree : pool.freelist = 0) (hstart : pool.freeareaStart = base + n' * shadowSize) :
    ∃ p', Guarded FewAlive ProcessStep p (.step t true) p' ∧ Solo base t n' pc' a p' := by
  have hstep : p.stepInit t true = some { p with pool := pool } := by
    unfold Process.stepInit
    rw [h.self, hadv]
    cases pc with
    | ret c => exact absurd rfl (hret c)
    | _ => rfl
  refine ⟨{ p with pool := pool }, ⟨fun _ hc ↦ (nomatch hc), (if_pos h.exited).trans hstep⟩,
    hm.chunkSize.trans h.chunkSize, hm.freeareaEnd.trans h.freeareaEnd, hfree, hstart, ?_, fun u hu ↦ ?_,
    h.created, h.alive, h.exited, hmain, fun _ hc ↦ absurd hc hne⟩
  · show pool.pc t = pc'
    rw [hm.pc, Function.update_self]
  · show pool.pc u = .idle
    rw [hm.pc, Function.update_of_ne hu]
    exact h.others u hu

/-- Up to the fetch-add, which cuts off a piece. -/
theorem fetch (h : Solo base t n .test a p) (hlt : base + n * shadowSize + shadowSize < 2 ^ 64) :
    ∃ p', Run (Guarded FewAlive ProcessStep) p [.step t true, .step t true] p' ∧
      Solo base t (n + 1) (.init (base + n * shadowSize)) a p' := by
  have hmain : t ≠ mainTid → p.gs mainTid ≠ none := fun ht ↦ h.main (.inl ht)
  have hadv₁ : p.pool.advance t = some (p.pool.goto t .bump) := by
    rw [PoolState.advance, h.self, h.freelist]
    rfl
  obtain ⟨p₁, hs₁, h₁⟩ := h.step _ .bump n (by simp) hadv₁ ⟨rfl, rfl, rfl, rfl⟩ (by simp)
    (fun hc ↦ hmain (by simpa using hc)) h.freelist h.start
  have hnext : wrapAdd p₁.pool.freeareaStart p₁.pool.chunkSize = base + (n + 1) * shadowSize := by
    rw [h₁.start, h₁.chunkSize, Nat.succ_mul]
    unfold wrapAdd
    omega
  have hadv₂ : p₁.pool.advance t = some { p₁.pool.goto t (.init (base + n * shadowSize)) with
      freeareaStart := base + (n + 1) * shadowSize } := by
    rw [PoolState.advance, h₁.self, ← hnext, ← h₁.start]
  obtain ⟨p₂, hs₂, h₂⟩ := h₁.step _ (.init (base + n * shadowSize)) (n + 1) (by simp) hadv₂
    ⟨rfl, rfl, rfl, rfl⟩ (by simp) (fun hc ↦ h₁.main (.inl (by simpa using hc))) h₁.freelist rfl
  exact ⟨p₂, (Run.single hs₁).snoc hs₂, h₂⟩

/-- A piece that fits becomes the chunk of the thread, -/
theorem initChunk (h : Solo base t (n + 1) (.init (base + n * shadowSize)) a p)
    (hlt : base + memSize < 2 ^ 64) (hn : n ≤ maxThreads) :
    ∃ p', Guarded FewAlive ProcessStep p (.step t true) p' ∧
      Solo base t (n + 1) (.ret (base + n * shadowSize)) a p' := by
  have hsize : (maxThreads + 1) * shadowSize + shadowSize = memSize := by decide
  have hle := Nat.mul_le_mul_right shadowSize hn
  have hnot : ¬ p.pool.freeareaEnd ≤ wrapAdd (base + n * shadowSize) p.pool.chunkSize := by
    rw [h.freeareaEnd, h.chunkSize]
    rw [Nat.succ_mul] at hsize
    have hpos : 0 < shadowSize := by decide
    unfold wrapAdd
    omega
  have hadv : p.pool.advance t = some { p.pool.goto t (.ret (base + n * shadowSize)) with
      mem := Runtime.initChunk p.pool.mem (base + n * shadowSize) } := by
    rw [PoolState.advance, h.self]
    exact if_neg hnot
  exact h.step _ (.ret (base + n * shadowSize)) (n + 1) (by simp) hadv
    ⟨rfl, rfl, rfl, rfl⟩ (by simp) (fun hc ↦ h.main (.inl (by simpa using hc))) h.freelist h.start

/-- one that does not is refused. -/
theorem noChunk (h : Solo base t (n + 1) (.init (base + n * shadowSize)) a p)
    (hlt : base + n * shadowSize + shadowSize < 2 ^ 64) (hn : maxThreads < n) :
    ∃ p', Guarded FewAlive ProcessStep p (.step t true) p' ∧ p'.pool.pc t = .ret 0 := by
  have hsize : (maxThreads + 1) * shadowSize + shadowSize = memSize := by decide
  have hle := Nat.mul_le_mul_right shadowSize hn
  have hend : p.pool.freeareaEnd ≤ wrapAdd (base + n * shadowSize) p.pool.chunkSize := by
    rw [h.freeareaEnd, h.chunkSize]
    rw [Nat.succ_mul] at hle hsize
    unfold wrapAdd
    omega
  have hadv : p.pool.advance t = some (p.pool.goto t (.ret 0)) := by
    rw [PoolState.advance, h.self]
    exact if_pos hend
  obtain ⟨p', hs, h'⟩ := h.step _ (.ret 0) (n + 1) (by simp) hadv ⟨rfl, rfl, rfl, rfl⟩ (by simp)
    (fun hc ↦ h.main (.inl (by simpa using hc))) h.freelist h.start
  exact ⟨p', hs, h'.self⟩

/-- `get_chunk`. -/
theorem getChunk {c : Nat} (h : Solo base t n (.ret c) a p) (hc : c ≠ 0) :
    ∃ p', Guarded FewAlive ProcessStep p (.step t true) p' ∧ Solo base t n .idle a p' := by
  have hadv : p.pool.advance t = some { p.pool.goto t .idle with live := insert c p.pool.live } := by
    rw [PoolState.advance, h.self]
    simp only [if_neg hc]
  have hstep : p.stepInit t true = some { p with
      pool := { p.pool.goto t .idle with live := insert c p.pool.live }
      gs := Function.update p.gs t (some c) } := by
    simp only [Process.stepInit, h.self, if_neg hc, if_true, hadv, Option.map_some]
  refine ⟨_, ⟨fun _ hc ↦ (nomatch hc), (if_pos h.exited).trans hstep⟩, h.chunkSize, h.freeareaEnd,
    h.freelist, h.start, Function.update_self .., fun u hu ↦ ?_, h.created, h.alive, h.exited, fun _ ↦ ?_,
    fun _ _ ↦ ?_⟩
  · exact (Function.update_of_ne hu ..).trans (h.others u hu)
  · show Function.update p.gs t (some c) mainTid ≠ none
    by_cases ht : mainTid = t
    · simp [ht]
    · rw [Function.update_of_ne ht]
      exact h.main (.inl fun hc ↦ ht hc.symm)
  · show Function.update p.gs t (some c) t ≠ none
    simp

/-- The thread ends. -/
theorem finish (h : Solo base t n .idle {t} p) (ht : t ≠ mainTid) :
    ∃ p', Guarded FewAlive ProcessStep p (.finish t) p' ∧ Solo base t n .idle ∅ p' := by
  have hmem : t ∈ p.alive := by rw [h.alive]; exact Finset.mem_singleton_self t
  refine ⟨_, ⟨fun _ hc ↦ (nomatch hc),
    if_pos ⟨h.exited, hmem, h.own (Finset.mem_singleton_self t) rfl⟩⟩, h.chunkSize, h.freeareaEnd,
    h.freelist, h.start, h.self, h.others, h.created, ?_, h.exited, fun _ ↦ ?_, fun hc ↦ (nomatch hc)⟩
  · show p.alive.erase t = ∅
    rw [h.alive]
    simp
  · show Function.update p.gs t none mainTid ≠ none
    rw [Function.update_of_ne ht.symm]
    exact h.main (.inl ht)

/-- A thread comes and goes, and its chunk is gone. -/
theorem cycle (h : Solo base t n .idle ∅ p) (hbase : 0 < base) (hlt : base + memSize < 2 ^ 64)
    (hn : n ≤ maxThreads) :
    ∃ es p', Run (Guarded FewAlive ProcessStep) p es p' ∧ Solo base (t + 1) (n + 1) .idle ∅ p' := by
  have hsize : (maxThreads + 1) * shadowSize + shadowSize = memSize := by decide
  have hle := Nat.mul_le_mul_right shadowSize hn
  rw [Nat.succ_mul] at hsize
  obtain ⟨p₁, hs₁, h₁⟩ := h.create
  obtain ⟨p₂, hr₂, h₂⟩ := h₁.fetch (by omega)
  obtain ⟨p₃, hs₃, h₃⟩ := h₂.initChunk hlt hn
  obtain ⟨p₄, hs₄, h₄⟩ := h₃.getChunk (by omega)
  obtain ⟨p₅, hs₅, h₅⟩ := h₄.finish (Nat.succ_ne_zero t)
  exact ⟨_, p₅, ((((Run.single hs₁).trans hr₂).snoc hs₃).snoc hs₄).snoc hs₅, h₅⟩

end Solo

/-- After `k` threads, one at a time, `k + 1` pieces are gone. -/
theorem churn {mem : Memory} {p₀ : Process} (hbase : 0 < base) (hlt : base + memSize < 2 ^ 64)
    (hinit : shadowStackInit mem (some base) = some p₀) {k : Nat} (hk : k ≤ maxThreads) :
    ∃ es p, Run (Guarded FewAlive ProcessStep) p₀ es p ∧ Solo base k (k + 1) .idle ∅ p := by
  have hsize : (maxThreads + 1) * shadowSize + shadowSize = memSize := by decide
  induction k with
  | zero =>
      obtain ⟨p₁, hr₁, h₁⟩ := (Solo.init hlt hinit).fetch (by omega)
      obtain ⟨p₂, hs₂, h₂⟩ := h₁.initChunk hlt (Nat.zero_le _)
      obtain ⟨p₃, hs₃, h₃⟩ := h₂.getChunk (by omega)
      exact ⟨_, p₃, (hr₁.snoc hs₂).snoc hs₃, h₃⟩
  | succ k ih =>
      obtain ⟨es, p, hr, h⟩ := ih (by omega)
      obtain ⟨es', p', hr', h'⟩ := h.cycle hbase hlt hk
      exact ⟨_, p', hr.trans hr', h'⟩

/-- A step of a process that has not made many threads. -/
def Process.nextFew (p : Process) (e : ProcessEvent) : Option Process :=
  if p.created.card < maxThreads then p.next e else none

theorem guarded_of_nextFew (p : Process) (e : ProcessEvent) (p' : Process) (h : p.nextFew e = some p') :
    Guarded FewCreated ProcessStep p e p' := by
  rw [Process.nextFew, Option.ite_none_right_eq_some] at h
  exact ⟨fun _ _ ↦ h.1, h.2⟩

/-- The main thread gets the first chunk of the pool, and a thread it makes the second. -/
theorem run_obtains_two : ∃ p₀ p, shadowStackInit (fun _ ↦ 0) (some 0x700000000000) = some p₀ ∧
    Run (Guarded FewCreated ProcessStep) p₀ [.step 0 true, .step 0 true, .step 0 true, .step 0 true,
      .create 1, .step 1 true, .step 1 true, .step 1 true] p ∧
    p.gs mainTid = some 0x700000000000 ∧ p.pool.pc 1 = .ret 0x700000100000 ∧ Obtains p := by
  obtain ⟨p₀, hp₀⟩ : ∃ p₀, shadowStackInit (fun _ ↦ 0) (some 0x700000000000) = some p₀ := ⟨_, rfl⟩
  have hrun : ∃ p, Run (Guarded FewCreated ProcessStep) p₀ [.step 0 true, .step 0 true, .step 0 true,
      .step 0 true, .create 1, .step 1 true, .step 1 true, .step 1 true] p ∧
      p.gs mainTid = some 0x700000000000 ∧ p.pool.pc 1 = .ret 0x700000100000 := by
    obtain rfl := Option.some.inj hp₀
    exact ⟨_, Run.of_foldlM guarded_of_nextFew rfl, rfl, rfl⟩
  obtain ⟨p, hr, hgs, hpc⟩ := hrun
  exact ⟨p₀, p, hp₀, hr, hgs, hpc, run_obtains (by decide) (by decide) hp₀ hr⟩

/-- Threads that come one after the other use up the pool: the one after `maxThreads` of them gets no
chunk, although it is the only one alive. -/
theorem not_run_obtains : ¬ ∀ (mem : Memory) (base : Nat) (p₀ : Process) (es : List ProcessEvent)
    (p : Process), 0 < base → base + memSize < 2 ^ 64 → shadowStackInit mem (some base) = some p₀ →
      Run (Guarded FewAlive ProcessStep) p₀ es p → Obtains p := by
  intro h
  have hsize : (maxThreads + 1) * shadowSize + shadowSize = memSize := by decide
  have hinit : shadowStackInit (fun _ ↦ 0) (some 0x700000000000) = some _ := rfl
  obtain ⟨es, p, hr, hp⟩ := churn (by decide) (by decide) hinit (le_refl maxThreads)
  obtain ⟨p₁, hs₁, h₁⟩ := hp.create
  obtain ⟨p₂, hr₂, h₂⟩ := h₁.fetch (by decide)
  obtain ⟨p₃, hs₃, h₃⟩ := h₂.noChunk (by decide) (Nat.lt_succ_self _)
  exact (h _ _ _ _ _ (by decide) (by decide) rfl (((hr.snoc hs₁).trans hr₂).snoc hs₃)).chunk _ 0 h₃ rfl

end ShadowStack.Runtime
