import ShadowStack.Runtime.Threads

/-!
# The depth of the shadow stack

The preamble of a function stores the return address where `top` of the chunk points and advances it;
nothing compares `top` with the end of the chunk.  A chunk has room for `maxDepth` addresses, and the
ordinary stack of a thread for many more calls.
-/

namespace ShadowStack.Runtime

open Lib X86

/-- The number of return addresses that fit the data of a chunk. -/
def maxDepth : Nat := (shadowSize - headerSize) / 8

/-- What a run keeps to, for threads with stacks from `lo` to `hi`: a return slot, and the 16 bytes that
the preamble uses below it, are in the stack below the slot of the caller; returns do not scavenge the
stack pointer; the program does not write to the pool itself; and the free area does not wrap. -/
structure OnStack (base : Nat) (lo hi : Tid → Nat) (p : Process) (e : ProcessEvent) : Prop where
  call : ∀ t m, e = .call t m →
    lo t + 16 ≤ m.regs .rsp ∧ m.regs .rsp + 8 ≤ (p.slots t).head?.getD (hi t)
  ret : ∀ t m strategy trapBB scratch, e = .ret t m strategy trapBB scratch → scratch ≠ some .rsp
  app : ∀ mem, e = .app mem → ∀ b, base ≤ b → b < base + memSize → mem b = p.pool.mem b
  bump : ∀ t ok, e = .step t ok → p.pool.pc t = .bump → p.pool.freeareaStart + p.pool.chunkSize < 2 ^ 64

/-- Calls nest less than `maxDepth` deep. -/
def Shallow (p : Process) (e : ProcessEvent) : Prop :=
  ∀ t m, e = .call t m → (p.slots t).length < maxDepth

/-- A shadow push at `top` of the chunk `c` is in the data of the chunk, and all that it changes in the
pool is in the chunk, behind its first field. -/
structure PushInside (base : Nat) (p : Process) (e : ProcessEvent) : Prop where
  data : ∀ t m c, e = .call t m → p.exited = none → p.gs t = some c →
    c + headerSize ≤ load64 p.pool.mem (c + 8) ∧ load64 p.pool.mem (c + 8) + 8 ≤ c + shadowSize
  frame : ∀ t m c, e = .call t m → p.exited = none → p.gs t = some c →
    ∀ b, base ≤ b → b < base + memSize → b < c + 8 ∨ c + shadowSize ≤ b →
      (p.stepCall t c m).pool.mem b = p.pool.mem b

/-- Every thread has a chunk of its own, with one return address for each of its calls. -/
structure ShadowOk (base : Nat) (lo hi : Tid → Nat) (p : Process) : Prop where
  pool : ∃ cs, PoolOk base shadowSize memSize p.pool cs
  live : ∀ t c, p.gs t = some c → c ∈ p.pool.live
  inj : ∀ t u c, p.gs t = some c → p.gs u = some c → t = u
  top : ∀ t c, p.gs t = some c → load64 p.pool.mem (c + 8) = c + headerSize + 8 * (p.slots t).length
  depth : ∀ t, (p.slots t).length ≤ maxDepth
  slots : ∀ t, ∀ sp ∈ p.slots t, lo t + 16 ≤ sp ∧ sp + 8 ≤ hi t
  fresh : ∀ t, p.pool.pc t ≠ .idle ∨ (t ≠ mainTid ∧ t ∉ p.created) → p.slots t = [] ∧ p.gs t = none
  idle : ∀ t, t ≠ mainTid → t ∉ p.created → p.pool.pc t = .idle
  freelist : p.pool.freelist = 0
  push : ∀ t c, p.pool.pc t ≠ .push c

variable {base : Nat} {lo hi : Tid → Nat} {p p' : Process} {t : Tid} {c : Nat} {m : Machine}

/-- Where a chunk is. -/
theorem ShadowOk.chunk_spec (h : ShadowOk base lo hi p) (hc : p.gs t = some c) :
    base ≤ c ∧ c + shadowSize < base + memSize ∧ c + shadowSize < 2 ^ 64 := by
  obtain ⟨cs, hpool⟩ := h.pool
  have hat : p.pool.At cs .live c := h.live t c hc
  obtain ⟨k, hk, -⟩ := hpool.placed.carved _ c hat
  exact ⟨by rw [hk]; exact Nat.le_add_right _ _, hpool.placed.inside _ c hat, hpool.lt hat⟩

/-- Chunks of different threads do not overlap. -/
theorem ShadowOk.apart (h : ShadowOk base lo hi p) {u : Tid} {c' : Nat} (hc : p.gs t = some c)
    (hc' : p.gs u = some c') (hne : u ≠ t) : c' + shadowSize ≤ c ∨ c + shadowSize ≤ c' := by
  obtain ⟨cs, hpool⟩ := h.pool
  have hcc : c' ≠ c := by
    rintro rfl
    exact hne (h.inj u t c' hc' hc)
  have hat : p.pool.At cs .live c := h.live t c hc
  have hat' : p.pool.At cs .live c' := h.live u c' hc'
  exact hpool.placed.apart hat' hat hcc

/-- The chunk of a thread, for the machine. -/
def ShadowOk.chunk (h : ShadowOk base lo hi p) (hc : p.gs t = some c) : Chunk :=
  ⟨c, shadowSize, (h.chunk_spec hc).2.2⟩

theorem ShadowOk.header_le (h : ShadowOk base lo hi p) (hc : p.gs t = some c) :
    (h.chunk hc).base + 16 ≤ 2 ^ 64 :=
  (Nat.add_le_add_left (show 16 ≤ shadowSize by decide) c).trans (h.chunk_spec hc).2.2.le

theorem ShadowOk.machine_top (h : ShadowOk base lo hi p) (hc : p.gs t = some c) :
    (p.machine c m).top = c + headerSize + 8 * (p.slots t).length := by
  rw [← h.top t c hc, Machine.top_eq (c := h.chunk hc) rfl (h.header_le hc)]
  rfl

theorem ShadowOk.onChunk (h : ShadowOk base lo hi p) (hc : p.gs t = some c) :
    (p.machine c m).OnChunk (h.chunk hc) := by
  have hdepth : 8 * (p.slots t).length ≤ 8 * maxDepth := Nat.mul_le_mul_left 8 (h.depth t)
  have hsize : headerSize + 8 * maxDepth = shadowSize := by decide
  have hbase : (h.chunk hc).base + (h.chunk hc).size = c + shadowSize := rfl
  refine ⟨rfl, ?_, ?_⟩
  · rw [h.machine_top hc]
    exact Nat.le_add_right _ _
  · rw [h.machine_top hc, hbase]
    omega

/-- The stack is not in the pool. -/
structure StackApart (base : Nat) (lo hi : Tid → Nat) : Prop where
  apart : ∀ t, hi t ≤ base ∨ base + memSize ≤ lo t
  hi_le : ∀ t, hi t ≤ 2 ^ 64

theorem ShadowOk.clear (h : ShadowOk base lo hi p) (hstack : StackApart base lo hi) (hc : p.gs t = some c)
    {sp : Nat} (hlo : lo t + 16 ≤ sp) (hhi : sp + 8 ≤ hi t) : (h.chunk hc).Clear sp := by
  obtain ⟨h₁, h₂, -⟩ := h.chunk_spec hc
  have hle := hstack.hi_le t
  have hbase : (h.chunk hc).base = c := rfl
  have hsize : (h.chunk hc).size = shadowSize := rfl
  refine ⟨by omega, by omega, ?_⟩
  rw [hbase, hsize]
  rcases hstack.apart t with ha | ha
  · exact .inl (by omega)
  · exact .inr (by omega)

/-! ## What a run keeps -/

/-- A thread writes to its chunk, and outside of the pool. -/
theorem ShadowOk.write (h : ShadowOk base lo hi p) (hc : p.gs t = some c) {mem : Memory} {l : List Nat}
    (hmem : ∀ b < 2 ^ 64, base ≤ b → b < base + memSize → b < c ∨ c + shadowSize ≤ b →
      mem b = p.pool.mem b)
    (htop : load64 mem (c + 8) = c + headerSize + 8 * l.length) (hlen : l.length ≤ maxDepth)
    (hslots : ∀ sp ∈ l, lo t + 16 ≤ sp ∧ sp + 8 ≤ hi t) :
    ShadowOk base lo hi ((p.setMem mem).setSlots t l) := by
  obtain ⟨cs, hpool⟩ := h.pool
  have hself : ((p.setMem mem).setSlots t l).slots t = l := Function.update_self ..
  have hother : ∀ u, u ≠ t → ((p.setMem mem).setSlots t l).slots u = p.slots u := fun u hu ↦
    Function.update_of_ne hu ..
  refine ⟨⟨cs, hpool.setMem (by decide) fun b hb hlo hhi hout ↦ hmem b hb hlo hhi (hout c (h.live t c hc))⟩,
    h.live, h.inj, fun u c' hu ↦ ?_, fun u ↦ ?_, fun u sp hsp ↦ ?_, fun u hu ↦ ?_, h.idle, h.freelist, h.push⟩
  · by_cases hut : u = t
    · subst hut
      obtain rfl : c' = c := Option.some.inj (hu.symm.trans hc)
      rw [hself]
      exact htop
    · rw [hother u hut, ← h.top u c' hu]
      obtain ⟨h₁, h₂, h₃⟩ := h.chunk_spec hu
      have hap := h.apart hc hu hut
      have hsize : 16 ≤ shadowSize := by decide
      refine load_eq_of_bytes fun i hi ↦ ?_
      rw [wrap_of_lt (by omega)]
      exact hmem _ (by omega) (by omega) (by omega) (by omega)
  · by_cases hut : u = t
    · rw [hut, hself]
      exact hlen
    · rw [hother u hut]
      exact h.depth u
  · by_cases hut : u = t
    · subst hut
      rw [hself] at hsp
      exact hslots sp hsp
    · rw [hother u hut] at hsp
      exact h.slots u sp hsp
  · obtain ⟨h₁, h₂⟩ := h.fresh u hu
    have hut : u ≠ t := by
      rintro rfl
      rw [hc] at h₂
      cases h₂
    rw [hother u hut]
    exact ⟨h₁, h₂⟩

/-- **A shadow push**, in a chunk that has room for it. -/
theorem ShadowOk.pushed (h : ShadowOk base lo hi p) (hstack : StackApart base lo hi) (hc : p.gs t = some c)
    (hdepth : (p.slots t).length < maxDepth) (hlo : lo t + 16 ≤ m.regs .rsp)
    (hhi : m.regs .rsp + 8 ≤ hi t) :
    ∃ m', Pushed (h.chunk hc) (p.machine c m) m' ∧
      p.stepCall t c m = (p.setMem m'.mem).setSlots t (m.regs .rsp :: p.slots t) := by
  have hroom : (p.machine c m).top + 8 ≤ (h.chunk hc).base + (h.chunk hc).size := by
    have hsize : headerSize + 8 * maxDepth = shadowSize := by decide
    have hbase : (h.chunk hc).base + (h.chunk hc).size = c + shadowSize := rfl
    rw [h.machine_top hc, hbase]
    omega
  obtain ⟨m', hm', hstraight⟩ := preamble_pushed (h.onChunk hc) hroom (h.clear hstack hc hlo hhi)
  refine ⟨m', hm', ?_⟩
  have hend := hstraight []
  rw [List.append_nil] at hend
  rw [Process.stepCall, hend]
  rfl

/-- What the push changes in the pool is in the chunk. -/
theorem ShadowOk.pushed_frame (h : ShadowOk base lo hi p) (hstack : StackApart base lo hi)
    (hc : p.gs t = some c) (hlo : lo t + 16 ≤ m.regs .rsp) (hhi : m.regs .rsp + 8 ≤ hi t) {m' : Machine}
    (hm' : Pushed (h.chunk hc) (p.machine c m) m') {b : Nat} (hb : b < 2 ^ 64) (hbase : base ≤ b)
    (hend : b < base + memSize) (hout : b < c + 8 ∨ c + shadowSize ≤ b) : m'.mem b = p.pool.mem b := by
  by_cases hmem : (h.chunk hc).Mem b
  · have hmem' : c ≤ b ∧ b < c + shadowSize := hmem
    refine hm'.chunk b hmem (.inl ?_) (.inl ?_)
    · show b < c + 8
      omega
    · rw [h.machine_top hc]
      unfold headerSize
      omega
  · refine hm'.outside b hb hmem ?_
    show b < m.regs .rsp - 16 ∨ m.regs .rsp ≤ b
    rcases hstack.apart t with ha | ha <;> omega

theorem ShadowOk.stepCall (h : ShadowOk base lo hi p) (hstack : StackApart base lo hi) (hc : p.gs t = some c)
    (hdepth : (p.slots t).length < maxDepth) (hlo : lo t + 16 ≤ m.regs .rsp)
    (hhi : m.regs .rsp + 8 ≤ hi t) : ShadowOk base lo hi (p.stepCall t c m) := by
  obtain ⟨m', hm', heq⟩ := h.pushed hstack hc hdepth hlo hhi
  rw [heq]
  refine h.write hc (fun b hb hbase hend hout ↦ ?_) ?_ hdepth fun sp hsp ↦ ?_
  · exact h.pushed_frame hstack hc hlo hhi hm' hb hbase hend (by omega)
  · have htop := hm'.top
    rw [Machine.top_eq (c := h.chunk hc) (hm'.gs.trans rfl) (h.header_le hc), h.machine_top hc] at htop
    have hbase : (h.chunk hc).base = c := rfl
    rw [hbase] at htop
    rw [htop, List.length_cons]
    omega
  · rcases List.mem_cons.mp hsp with rfl | hsp
    · exact ⟨hlo, hhi⟩
    · exact h.slots t sp hsp

/-- A pop, or the end of the process. -/
theorem ShadowOk.stepRet (h : ShadowOk base lo hi p) (hstack : StackApart base lo hi) (hc : p.gs t = some c)
    {strategy : ViolationStrategy} {trapBB : Nat} {scratch : Option Reg}
    (hslot : (p.slots t).head? = some (m.regs .rsp)) (hscratch : scratch ≠ some .rsp) :
    (p.stepRet t c m strategy trapBB scratch).exited ≠ none ∨
      ShadowOk base lo hi (p.stepRet t c m strategy trapBB scratch) := by
  obtain ⟨rest, hslots⟩ : ∃ rest, p.slots t = m.regs .rsp :: rest := by
    cases hl : p.slots t with
    | nil => simp [hl] at hslot
    | cons sp rest =>
        rw [hl, List.head?_cons, Option.some.injEq] at hslot
        exact ⟨rest, by rw [hslot]⟩
  obtain ⟨hlo, hhi⟩ := h.slots t (m.regs .rsp) (by rw [hslots]; exact List.mem_cons_self)
  have hlen : (p.slots t).length = rest.length + 1 := by rw [hslots, List.length_cons]
  have hfull : (h.chunk hc).base + 24 ≤ (p.machine c m).top := by
    have hbase : (h.chunk hc).base = c := rfl
    rw [h.machine_top hc, hlen, hbase]
    unfold headerSize
    omega
  have hpops : Pops (h.chunk hc) strategy trapBB scratch (p.machine c m) :=
    instrumentRet_pops scratch (h.onChunk hc) hfull (h.clear hstack hc hlo hhi) hscratch
  obtain ⟨m', hm', hstraight⟩ := hpops
  have hend := hstraight []
  rw [List.append_nil] at hend
  unfold Process.stepRet
  rw [hend]
  split_ifs with hbad
  · exact .inl (by simp [Process.exit])
  · right
    have hpop := hm' hbad
    show ShadowOk base lo hi ((p.setMem m'.mem).setSlots t (p.slots t).tail)
    rw [hslots, List.tail_cons]
    refine h.write hc (fun b hb hbase hend hout ↦ ?_) ?_ (by have := h.depth t; omega) fun sp hsp ↦ ?_
    · refine hpop.outside b hb ?_ ?_
      · rintro ⟨h₁, h₂⟩
        have h₁' : c ≤ b := h₁
        have h₂' : b < c + shadowSize := h₂
        omega
      · have hspill : spillSize scratch ≤ 8 := by
          unfold spillSize
          split <;> omega
        show b < m.regs .rsp - spillSize scratch ∨ m.regs .rsp + 8 ≤ b
        rcases hstack.apart t with ha | ha <;> omega
    · have htop := hpop.top
      rw [Machine.top_eq (c := h.chunk hc) (hpop.gs.trans rfl) (h.header_le hc), h.machine_top hc,
        hlen] at htop
      have hbase : (h.chunk hc).base = c := rfl
      rw [hbase] at htop
      omega
    · exact h.slots t sp (by rw [hslots]; exact List.mem_cons_of_mem _ hsp)

/-- A thread moves within `MemPoolAlloc`, or is made. -/
theorem ShadowOk.moves (h : ShadowOk base lo hi p) {pool : PoolState} {pc : Pc}
    (hpool : ∃ cs, PoolOk base shadowSize memSize pool cs) (hm : Moves p.pool pool t pc)
    (hlive : pool.live = p.pool.live) (hfree : pool.freelist = 0)
    (htops : ∀ u c, p.gs u = some c → load64 pool.mem (c + 8) = load64 p.pool.mem (c + 8))
    (hfresh : p.slots t = [] ∧ p.gs t = none) {created : Finset Tid} (hcreated : p.created ⊆ created)
    (ht : t ≠ mainTid → t ∈ created) (hpush : ∀ c, pc ≠ .push c) (a : Finset Tid) :
    ShadowOk base lo hi { p with pool := pool, created := created, alive := a } := by
  have hpc : ∀ u, u ≠ t → pool.pc u = p.pool.pc u := fun u hu ↦ by rw [hm.pc, Function.update_of_ne hu]
  refine ⟨hpool, fun u c hu ↦ ?_, h.inj, fun u c hu ↦ (htops u c hu).trans (h.top u c hu), h.depth, h.slots,
    fun u hu ↦ ?_, fun u hu hu' ↦ ?_, hfree, fun u c hu ↦ ?_⟩
  · show c ∈ pool.live
    rw [hlive]
    exact h.live u c hu
  · by_cases hut : u = t
    · subst hut
      exact hfresh
    · refine h.fresh u (hu.imp (fun hu ↦ ?_) fun hu ↦ ⟨hu.1, fun hc ↦ hu.2 (hcreated hc)⟩)
      rwa [← hpc u hut]
  · have hut : u ≠ t := by
      rintro rfl
      exact hu' (ht hu)
    show pool.pc u = .idle
    rw [hpc u hut]
    exact h.idle u hu fun hc ↦ hu' (hcreated hc)
  · have hu' : pool.pc u = .push c := hu
    by_cases hut : u = t
    · rw [hut, hm.pc, Function.update_self] at hu'
      exact hpush c hu'
    · exact h.push u c (by rw [← hpc u hut, hu'])

/-- A thread gets its chunk. -/
theorem ShadowOk.getChunk (h : ShadowOk base lo hi p) (hbase : 0 < base) (hpc : p.pool.pc t = .ret c)
    (hne : c ≠ 0) : ShadowOk base lo hi { p with
      pool := { p.pool.goto t .idle with live := insert c p.pool.live }
      gs := Function.update p.gs t (some c) } := by
  obtain ⟨cs, hpool⟩ := h.pool
  obtain ⟨hslots, hgs⟩ := h.fresh t (.inl (by rw [hpc]; simp))
  have hat : p.pool.At cs (.call t) c := by simp [PoolState.At, hpc, Pc.held, hne]
  have hnew : c ∉ p.pool.live := fun hc ↦ by
    have hlive : p.pool.At cs .live c := hc
    cases hpool.placed.unique c _ _ hat hlive
  have hadv : p.pool.advance t = some { p.pool.goto t .idle with live := insert c p.pool.live } := by
    simp only [PoolState.advance, hpc, if_neg hne]
  have hgs' : ∀ u c', Function.update p.gs t (some c) u = some c' →
      (u = t ∧ c' = c) ∨ (u ≠ t ∧ p.gs u = some c') := by
    intro u c' hu
    by_cases hut : u = t
    · subst hut
      rw [Function.update_self] at hu
      exact .inl ⟨rfl, (Option.some.inj hu).symm⟩
    · rw [Function.update_of_ne hut] at hu
      exact .inr ⟨hut, hu⟩
  refine ⟨hpool.advance (by decide) hbase (by simp [hpc]) hadv, fun u c' hu ↦ ?_, fun u v c' hu hv ↦ ?_,
    fun u c' hu ↦ ?_, h.depth, h.slots, fun u hu ↦ ?_, fun u hu hu' ↦ ?_, h.freelist, fun u c' hu ↦ ?_⟩
  · rcases hgs' u c' hu with ⟨-, rfl⟩ | ⟨-, hu⟩
    · exact Finset.mem_insert_self ..
    · exact Finset.mem_insert_of_mem (h.live u c' hu)
  · rcases hgs' u c' hu with ⟨hut, hcu⟩ | ⟨-, hold⟩
    · rcases hgs' v c' hv with ⟨hvt, -⟩ | ⟨-, hold'⟩
      · rw [hut, hvt]
      · exact absurd (hcu ▸ h.live v c' hold') hnew
    · rcases hgs' v c' hv with ⟨-, hcv⟩ | ⟨-, hold'⟩
      · exact absurd (hcv ▸ h.live u c' hold) hnew
      · exact h.inj u v c' hold hold'
  · rcases hgs' u c' hu with ⟨rfl, rfl⟩ | ⟨-, hu⟩
    · show load64 p.pool.mem (c' + 8) = c' + headerSize + 8 * (p.slots u).length
      rw [hslots]
      exact (hpool.fields u c' hpc hne).2
    · exact h.top u c' hu
  · have hut : u ≠ t := by
      rintro rfl
      rcases hu with hu | ⟨hu, hu'⟩
      · exact hu (Function.update_self ..)
      · rw [h.idle u hu hu'] at hpc
        cases hpc
    have hpc' : (p.pool.goto t .idle).pc u = p.pool.pc u := Function.update_of_ne hut ..
    have hold := h.fresh u (hu.imp_left fun hu ↦ by rwa [← hpc'])
    exact ⟨hold.1, (Function.update_of_ne hut ..).trans hold.2⟩
  · by_cases hut : u = t
    · rw [hut]
      exact Function.update_self ..
    · exact (Function.update_of_ne hut ..).trans (h.idle u hu hu')
  · have hu' : Function.update p.pool.pc t .idle u = .push c' := hu
    by_cases hut : u = t
    · rw [hut, Function.update_self] at hu'
      cases hu'
    · rw [Function.update_of_ne hut] at hu'
      exact h.push u c' hu'

/-- The steps of a thread that gets its chunk. -/
theorem ShadowOk.stepInit (h : ShadowOk base lo hi p) (hbase : 0 < base) {ok : Bool}
    (hwrap : p.pool.pc t = .bump → p.pool.freeareaStart + p.pool.chunkSize < 2 ^ 64)
    (hs : p.stepInit t ok = some p') : p'.exited ≠ none ∨ ShadowOk base lo hi p' := by
  obtain ⟨cs, hpool⟩ := h.pool
  have hnext : ∀ pool, p.pool.advance t = some pool → ∃ cs, PoolOk base shadowSize memSize pool cs :=
    fun pool hadv ↦ hpool.advance (by decide) hbase hwrap hadv
  have hfresh : p.pool.pc t ≠ .idle → (p.slots t = [] ∧ p.gs t = none) ∧ (t ≠ mainTid → t ∈ p.created) := by
    intro hpc
    refine ⟨h.fresh t (.inl hpc), fun ht ↦ ?_⟩
    by_contra hc
    exact hpc (h.idle t ht hc)
  unfold Process.stepInit at hs
  cases hpc : p.pool.pc t with
  | idle => simp [hpc, PoolState.advance] at hs
  | push c => exact absurd hpc (h.push t c)
  | test =>
      have hadv : p.pool.advance t = some (p.pool.goto t .bump) := by
        simp only [PoolState.advance, hpc, h.freelist, if_true]
      simp only [hpc, hadv, Option.map_some, Option.some.injEq] at hs
      subst hs
      obtain ⟨hf, ht⟩ := hfresh (by rw [hpc]; simp)
      exact .inr (h.moves (hnext _ hadv) ⟨rfl, rfl, rfl, rfl⟩ rfl h.freelist (fun _ _ _ ↦ rfl) hf
        (Finset.Subset.refl _) ht (by simp) _)
  | pop =>
      have hadv : p.pool.advance t = some (p.pool.goto t .bump) := by
        simp only [PoolState.advance, hpc, h.freelist, if_true]
      simp only [hpc, hadv, Option.map_some, Option.some.injEq] at hs
      subst hs
      obtain ⟨hf, ht⟩ := hfresh (by rw [hpc]; simp)
      exact .inr (h.moves (hnext _ hadv) ⟨rfl, rfl, rfl, rfl⟩ rfl h.freelist (fun _ _ _ ↦ rfl) hf
        (Finset.Subset.refl _) ht (by simp) _)
  | bump =>
      have hadv : p.pool.advance t = some { p.pool.goto t (.init p.pool.freeareaStart) with
          freeareaStart := wrapAdd p.pool.freeareaStart p.pool.chunkSize } := by
        simp only [PoolState.advance, hpc]
      simp only [hpc, hadv, Option.map_some, Option.some.injEq] at hs
      subst hs
      obtain ⟨hf, ht⟩ := hfresh (by rw [hpc]; simp)
      exact .inr (h.moves (hnext _ hadv) ⟨rfl, rfl, rfl, rfl⟩ rfl h.freelist (fun _ _ _ ↦ rfl) hf
        (Finset.Subset.refl _) ht (by simp) _)
  | init a =>
      obtain ⟨hf, ht⟩ := hfresh (by rw [hpc]; simp)
      by_cases hend : p.pool.freeareaEnd ≤ wrapAdd a p.pool.chunkSize
      · have hadv : p.pool.advance t = some (p.pool.goto t (.ret 0)) := by
          simp only [PoolState.advance, hpc, if_pos hend]
        simp only [hpc, hadv, Option.map_some, Option.some.injEq] at hs
        subst hs
        exact .inr (h.moves (hnext _ hadv) ⟨rfl, rfl, rfl, rfl⟩ rfl h.freelist (fun _ _ _ ↦ rfl) hf
          (Finset.Subset.refl _) ht (by simp) _)
      · have hadv : p.pool.advance t = some { p.pool.goto t (.ret a) with
            mem := initChunk p.pool.mem a } := by
          simp only [PoolState.advance, hpc, if_neg hend]
        simp only [hpc, hadv, Option.map_some, Option.some.injEq] at hs
        subst hs
        refine .inr (h.moves (hnext _ hadv) ⟨rfl, rfl, rfl, rfl⟩ rfl h.freelist (fun u c hu ↦ ?_) hf
          (Finset.Subset.refl _) ht (by simp) _)
        -- the chunk that is initialised is not the chunk of a thread
        have hpiece := hpool.piece t a hpc
        have hfit : a + shadowSize < base + memSize := by
          rw [hpool.shape.freeareaEnd, hpool.shape.chunkSize, not_le] at hend
          unfold wrapAdd at hend
          omega
        have hat : p.pool.At cs (.call t) a := by
          simp [PoolState.At, hpc, Pc.held, hpool.shape.chunkSize, hpool.shape.freeareaEnd, hfit]
        have hlive : p.pool.At cs .live c := h.live u c hu
        have hne : c ≠ a := by
          rintro rfl
          cases hpool.placed.unique c _ _ hat hlive
        have hap := hpool.placed.apart hlive hat hne
        have hlt := hpool.lt hlive
        have hsize : headerSize ≤ shadowSize := by decide
        have hheader : headerSize = 16 := rfl
        refine load_eq_of_bytes fun i hi ↦ ?_
        rw [wrap_of_lt (by omega)]
        exact initChunk_of_notMem hsize (by omega) (by omega) (by omega)
  | ret c =>
      simp only [hpc] at hs
      split_ifs at hs with hc hok
      · obtain rfl := Option.some.inj hs
        exact .inl (by simp [Process.exit])
      · have hadv : p.pool.advance t = some { p.pool.goto t .idle with live := insert c p.pool.live } := by
          simp only [PoolState.advance, hpc, if_neg hc]
        rw [hadv, Option.map_some, Option.some.injEq] at hs
        subst hs
        exact .inr (h.getChunk hbase hpc hc)
      · obtain rfl := Option.some.inj hs
        exact .inl (by simp [Process.exit])

/-- No event happens after the end of the process. -/
theorem ProcessStep.running {e : ProcessEvent} (hs : ProcessStep p e p') : p.exited = none := by
  cases e with
  | create t => exact (Option.ite_none_right_eq_some.mp hs).1.1
  | step t ok => exact (Option.ite_none_right_eq_some.mp hs).1
  | call t m => exact (Option.ite_none_right_eq_some.mp hs).1
  | ret t m strategy trapBB scratch => exact (Option.ite_none_right_eq_some.mp hs).1.1
  | finish t => exact (Option.ite_none_right_eq_some.mp hs).1.1
  | app mem => exact (Option.ite_none_right_eq_some.mp hs).1

/-- The return slot of a call is in the stack. -/
theorem ShadowOk.slot_le (h : ShadowOk base lo hi p) {sp : Nat}
    (hsp : sp + 8 ≤ (p.slots t).head?.getD (hi t)) : sp + 8 ≤ hi t := by
  cases hl : p.slots t with
  | nil => simpa [hl] using hsp
  | cons sp' rest =>
      have := (h.slots t sp' (by rw [hl]; exact List.mem_cons_self)).2
      simp only [hl, List.head?_cons, Option.getD_some] at hsp
      omega

/-- **One step of a process** whose calls are not nested too deep. -/
theorem ShadowOk.next (h : ShadowOk base lo hi p) (hstack : StackApart base lo hi) (hbase : 0 < base)
    {e : ProcessEvent} (he : OnStack base lo hi p e) (hshallow : Shallow p e) (hs : ProcessStep p e p') :
    p'.exited ≠ none ∨ ShadowOk base lo hi p' := by
  cases e with
  | create t =>
      obtain ⟨⟨-, -, ht, hnew⟩, hs⟩ := Option.ite_none_right_eq_some.mp hs
      obtain rfl := Option.some.inj hs
      obtain ⟨cs, hpool⟩ := h.pool
      have hidle := h.idle t ht hnew
      refine .inr (h.moves ⟨cs, hpool.goto (by rw [hidle]; rfl) (by simp) (by simp)⟩ ⟨rfl, rfl, rfl, rfl⟩ rfl
        h.freelist (fun _ _ _ ↦ rfl) (h.fresh t (.inr ⟨ht, hnew⟩)) (Finset.subset_insert ..)
        (fun _ ↦ Finset.mem_insert_self ..) (by simp) _)
  | step t ok =>
      obtain ⟨-, hs⟩ := Option.ite_none_right_eq_some.mp hs
      exact h.stepInit hbase (he.bump t ok rfl) hs
  | call t m =>
      obtain ⟨-, hs⟩ := Option.ite_none_right_eq_some.mp hs
      obtain ⟨c, hc, rfl⟩ := Option.map_eq_some_iff.mp hs
      obtain ⟨hlo, hhi⟩ := he.call t m rfl
      exact .inr (h.stepCall hstack hc (hshallow t m rfl) hlo (h.slot_le hhi))
  | ret t m strategy trapBB scratch =>
      obtain ⟨⟨-, hslot⟩, hs⟩ := Option.ite_none_right_eq_some.mp hs
      obtain ⟨c, hc, rfl⟩ := Option.map_eq_some_iff.mp hs
      exact h.stepRet hstack hc hslot (he.ret t m strategy trapBB scratch rfl)
  | finish t =>
      obtain ⟨⟨-, -, hgs⟩, hs⟩ := Option.ite_none_right_eq_some.mp hs
      obtain rfl := Option.some.inj hs
      have hold : ∀ u c, Function.update p.gs t none u = some c → p.gs u = some c := by
        intro u c hu
        by_cases hut : u = t
        · rw [hut, Function.update_self] at hu
          cases hu
        · rwa [Function.update_of_ne hut] at hu
      refine .inr ⟨h.pool, fun u c hu ↦ h.live u c (hold u c hu),
        fun u v c hu hv ↦ h.inj u v c (hold u c hu) (hold v c hv), fun u c hu ↦ h.top u c (hold u c hu),
        h.depth, h.slots, fun u hu ↦ ?_, h.idle, h.freelist, h.push⟩
      obtain ⟨h₁, h₂⟩ := h.fresh u hu
      have hut : u ≠ t := by
        rintro rfl
        exact hgs h₂
      exact ⟨h₁, (Function.update_of_ne hut ..).trans h₂⟩
  | app mem =>
      obtain ⟨-, hs⟩ := Option.ite_none_right_eq_some.mp hs
      obtain rfl := Option.some.inj hs
      obtain ⟨cs, hpool⟩ := h.pool
      have hmem := he.app mem rfl
      refine .inr ⟨⟨cs, hpool.setMem (by decide) fun b _ hlo hhi _ ↦ hmem b hlo hhi⟩, h.live, h.inj,
        fun u c hu ↦ ?_, h.depth, h.slots, h.fresh, h.idle, h.freelist, h.push⟩
      obtain ⟨h₁, h₂, h₃⟩ := h.chunk_spec hu
      have hsize : 16 ≤ shadowSize := by decide
      refine Eq.trans (load_eq_of_bytes fun i hi ↦ ?_) (h.top u c hu)
      rw [wrap_of_lt (by omega)]
      exact hmem _ (by omega) (by omega)

/-- **A push is inside of its chunk exactly if** the calls are not nested too deep. -/
theorem ShadowOk.pushInside_iff (h : ShadowOk base lo hi p) (hstack : StackApart base lo hi)
    (hlt : base + memSize < 2 ^ 64) {e : ProcessEvent} (he : OnStack base lo hi p e)
    (hs : ProcessStep p e p') : PushInside base p e ↔ Shallow p e := by
  have hsize : headerSize + 8 * maxDepth = shadowSize := by decide
  constructor
  · rintro ⟨hdata, -⟩ t m rfl
    obtain ⟨hrun, hs⟩ := Option.ite_none_right_eq_some.mp hs
    obtain ⟨c, hc, -⟩ := Option.map_eq_some_iff.mp hs
    have hroom := (hdata t m c rfl hrun hc).2
    rw [h.top t c hc] at hroom
    omega
  · refine fun hshallow ↦ ⟨?_, ?_⟩
    · rintro t m c rfl - hc
      have hdepth := hshallow t m rfl
      rw [h.top t c hc]
      omega
    · rintro t m c rfl - hc b hb hend hout
      obtain ⟨hlo, hhi⟩ := he.call t m rfl
      obtain ⟨m', hm', heq⟩ := h.pushed hstack hc (hshallow t m rfl) hlo (h.slot_le hhi)
      rw [heq]
      exact h.pushed_frame hstack hc hlo (h.slot_le hhi) hm' (by omega) hb hend hout

/-- After the constructor has set up the pool. -/
theorem ShadowOk.init {mem : Memory} (hlt : base + memSize < 2 ^ 64)
    (hinit : shadowStackInit mem (some base) = some p) : ShadowOk base lo hi p := by
  obtain ⟨pool, hpool, rfl⟩ := Option.map_eq_some_iff.mp hinit
  have hok : PoolOk base shadowSize memSize pool [] := PoolOk.init (by decide) hlt hpool
  have hidle : ∀ u, pool.pc u = .idle := by
    obtain rfl := Option.some.inj hpool
    exact fun _ ↦ rfl
  have hfree : pool.freelist = 0 := by
    obtain rfl := Option.some.inj hpool
    rfl
  refine ⟨⟨[], hok.goto (by rw [hidle]; rfl) (by simp) (by simp)⟩, fun _ _ hc ↦ (nomatch hc),
    fun _ _ _ hc ↦ (nomatch hc), fun _ _ hc ↦ (nomatch hc), fun _ ↦ Nat.zero_le _, fun _ _ hc ↦ (nomatch hc),
    fun _ _ ↦ ⟨rfl, rfl⟩, fun u hu _ ↦ (Function.update_of_ne hu ..).trans (hidle u), hfree, fun u c hu ↦ ?_⟩
  have hu' : Function.update pool.pc mainTid .test u = .push c := hu
  by_cases hum : u = mainTid
  · rw [hum, Function.update_self] at hu'
    cases hu'
  · rw [Function.update_of_ne hum, hidle] at hu'
    cases hu'

section Runs

variable {mem : Memory} {p₀ : Process} {es : List ProcessEvent}

/-- A run without deep nesting keeps every shadow stack in its chunk. -/
theorem ShadowOk.run (hstack : StackApart base lo hi) (hbase : 0 < base) (hlt : base + memSize < 2 ^ 64)
    (hinit : shadowStackInit mem (some base) = some p₀)
    (h : Run (Guarded (fun p e ↦ OnStack base lo hi p e ∧ Shallow p e) ProcessStep) p₀ es p) :
    p.exited ≠ none ∨ ShadowOk base lo hi p := by
  refine h.invariant (I := fun p ↦ p.exited ≠ none ∨ ShadowOk base lo hi p)
    (.inr (ShadowOk.init hlt hinit)) fun _ _ _ hinv hs ↦ ?_
  have hok := hinv.resolve_left fun hc ↦ hc hs.2.running
  exact hok.next hstack hbase hs.1.1 hs.1.2 hs.2

/-- **All pushes of a run are inside of the chunks exactly if** no call is nested `maxDepth` deep. -/
theorem run_pushInside_iff (hstack : StackApart base lo hi) (hbase : 0 < base)
    (hlt : base + memSize < 2 ^ 64) (hinit : shadowStackInit mem (some base) = some p₀) :
    Run (Guarded (fun p e ↦ OnStack base lo hi p e ∧ PushInside base p e) ProcessStep) p₀ es p ↔
      Run (Guarded (fun p e ↦ OnStack base lo hi p e ∧ Shallow p e) ProcessStep) p₀ es p := by
  have hiff : ∀ {es : List ProcessEvent} {p p' : Process} {e : ProcessEvent},
      Run (Guarded (fun p e ↦ OnStack base lo hi p e ∧ Shallow p e) ProcessStep) p₀ es p →
      OnStack base lo hi p e → ProcessStep p e p' → (PushInside base p e ↔ Shallow p e) := by
    intro es p p' e hr he hs
    have hok := (ShadowOk.run hstack hbase hlt hinit hr).resolve_left fun hc ↦ hc hs.running
    exact hok.pushInside_iff hstack hlt he hs
  constructor
  · intro h
    induction h with
    | nil => exact .nil
    | snoc _ hs ih => exact ih.snoc ⟨⟨hs.1.1, (hiff ih hs.1.1 hs.2).mp hs.1.2⟩, hs.2⟩
  · intro h
    induction h with
    | nil => exact .nil
    | snoc hr hs ih => exact ih.snoc ⟨⟨hs.1.1, (hiff hr hs.1.1 hs.2).mpr hs.1.2⟩, hs.2⟩

end Runs

/-! ## A recursion of the main thread -/

/-- A stack of 8 MiB below the addresses of the pool, for each thread. -/
def stackLo (_ : Tid) : Nat := 0x600000000000

def stackHi (t : Tid) : Nat := stackLo t + 8 * 1024 * 1024

theorem stackApart_example : StackApart 0x700000000000 stackLo stackHi :=
  ⟨fun _ ↦ .inl (show 0x600000000000 + 8 * 1024 * 1024 ≤ 0x700000000000 by decide),
    fun _ ↦ show 0x600000000000 + 8 * 1024 * 1024 ≤ 2 ^ 64 by decide⟩

/-- A machine with the stack pointer at `sp`. -/
def machineAt (sp : Nat) : Machine where
  regs r := if r = .rsp then wrap sp else 0
  flags := default
  gs := 0
  mem _ := 0
  regs_lt r := by
    split
    · exact wrap_lt sp
    · decide

/-- A step within `MemPoolAlloc`, of a pool far from the end of the address space. -/
def Process.nextStep (p : Process) (t : Tid) : Option Process :=
  if p.pool.freeareaStart + p.pool.chunkSize < 2 ^ 64 then p.next (.step t true) else none

theorem guarded_of_nextStep (h : p.nextStep t = some p') :
    Guarded (fun p e ↦ OnStack base lo hi p e ∧ Shallow p e) ProcessStep p (.step t true) p' := by
  rw [Process.nextStep, Option.ite_none_right_eq_some] at h
  exact ⟨⟨⟨fun _ _ hc ↦ (nomatch hc), fun _ _ _ _ _ hc ↦ (nomatch hc), fun _ hc ↦ (nomatch hc),
    fun _ _ _ _ ↦ h.1⟩, fun _ _ hc ↦ (nomatch hc)⟩, h.2⟩

/-- The main thread has its chunk and `k` calls on its stack, two words apart. -/
structure Deep (k : Nat) (p : Process) : Prop where
  exited : p.exited = none
  gs : p.gs mainTid = some 0x700000000000
  length : (p.slots mainTid).length = k
  head : (p.slots mainTid).head?.getD (stackHi mainTid) = stackHi mainTid - 16 * k

theorem deep_zero : ∃ p₀ es p, shadowStackInit (fun _ ↦ 0) (some 0x700000000000) = some p₀ ∧
    Run (Guarded (fun p e ↦ OnStack 0x700000000000 stackLo stackHi p e ∧ Shallow p e) ProcessStep) p₀ es p ∧
    Deep 0 p := by
  obtain ⟨p₀, hp₀⟩ : ∃ p₀, shadowStackInit (fun _ ↦ 0) (some 0x700000000000) = some p₀ := ⟨_, rfl⟩
  have hsteps : ∃ p₁ p₂ p₃ p₄, p₀.nextStep mainTid = some p₁ ∧ p₁.nextStep mainTid = some p₂ ∧
      p₂.nextStep mainTid = some p₃ ∧ p₃.nextStep mainTid = some p₄ ∧ p₄.exited = none ∧
      p₄.gs mainTid = some 0x700000000000 ∧ p₄.slots mainTid = [] := by
    obtain rfl := Option.some.inj hp₀
    exact ⟨_, _, _, _, rfl, rfl, rfl, rfl, rfl, rfl, rfl⟩
  obtain ⟨p₁, p₂, p₃, p₄, h₁, h₂, h₃, h₄, hexited, hgs, hslots⟩ := hsteps
  refine ⟨p₀, _, p₄, hp₀, (((Run.single (guarded_of_nextStep h₁)).snoc (guarded_of_nextStep h₂)).snoc
    (guarded_of_nextStep h₃)).snoc (guarded_of_nextStep h₄), hexited, hgs, ?_, ?_⟩
  · rw [hslots]
    rfl
  · rw [hslots]
    rfl

/-- One more call. -/
theorem Deep.call {k : Nat} (h : Deep k p) (hok : ShadowOk 0x700000000000 stackLo stackHi p)
    (hk : k ≤ maxDepth) :
    ∃ e p', OnStack 0x700000000000 stackLo stackHi p e ∧ ProcessStep p e p' ∧
      (∃ m, e = .call mainTid m) ∧ (k < maxDepth → Deep (k + 1) p') := by
  have hdepth : maxDepth = 131070 := by decide
  have hhi : stackHi mainTid = 0x600000000000 + 8 * 1024 * 1024 := rfl
  have hlo : stackLo mainTid = 0x600000000000 := rfl
  obtain ⟨sp, hsp⟩ : ∃ sp, stackHi mainTid - 16 * (k + 1) = sp := ⟨_, rfl⟩
  have hrsp : (machineAt sp).regs .rsp = sp := by
    have hlt : wrap sp = sp := wrap_of_lt (by omega)
    exact hlt
  have hle : sp + 8 ≤ (p.slots mainTid).head?.getD (stackHi mainTid) := by
    rw [h.head]
    omega
  refine ⟨.call mainTid (machineAt sp), p.stepCall mainTid 0x700000000000 (machineAt sp), ?_, ?_, ⟨_, rfl⟩,
    fun hlt ↦ ?_⟩
  · refine ⟨fun t m he ↦ ?_, fun _ _ _ _ _ hc ↦ (nomatch hc), fun _ hc ↦ (nomatch hc), fun _ _ hc ↦ (nomatch hc)⟩
    obtain ⟨rfl, rfl⟩ := ProcessEvent.call.inj he
    rw [hrsp]
    exact ⟨by omega, hle⟩
  · show (if p.exited = none then _ else none) = _
    rw [if_pos h.exited, h.gs]
    rfl
  · obtain ⟨m', -, heq⟩ := hok.pushed stackApart_example h.gs (by rw [h.length]; exact hlt)
      (m := machineAt sp) (by rw [hrsp]; omega) (by rw [hrsp]; exact hok.slot_le hle)
    have hslots : (p.stepCall mainTid 0x700000000000 (machineAt sp)).slots mainTid =
        sp :: p.slots mainTid := by
      rw [heq, hrsp]
      show Function.update p.slots mainTid (sp :: p.slots mainTid) mainTid = _
      rw [Function.update_self]
    refine ⟨by rw [heq]; exact h.exited, by rw [heq]; exact h.gs, ?_, ?_⟩
    · rw [hslots, List.length_cons, h.length]
    · rw [hslots, List.head?_cons, Option.getD_some, hsp]

theorem deep {k : Nat} (hk : k ≤ maxDepth) :
    ∃ p₀ es p, shadowStackInit (fun _ ↦ 0) (some 0x700000000000) = some p₀ ∧
      Run (Guarded (fun p e ↦ OnStack 0x700000000000 stackLo stackHi p e ∧ Shallow p e) ProcessStep) p₀ es p ∧
      Deep k p := by
  induction k with
  | zero => exact deep_zero
  | succ k ih =>
      obtain ⟨p₀, es, p, hinit, hr, hp⟩ := ih (Nat.le_of_succ_le hk)
      have hok := (ShadowOk.run stackApart_example (by decide) (by decide) hinit hr).resolve_left
        fun hc ↦ hc hp.exited
      obtain ⟨e, p', he, hs, ⟨m, rfl⟩, hdeep⟩ := hp.call hok (Nat.le_of_succ_le hk)
      refine ⟨p₀, _, p', hinit, hr.snoc ⟨⟨he, fun t m' hc ↦ ?_⟩, hs⟩, hdeep hk⟩
      obtain ⟨rfl, -⟩ := ProcessEvent.call.inj hc
      rw [hp.length]
      exact hk

/-- A recursion of the main thread, half way. -/
theorem run_pushInside_iff_deep : ∃ p₀ es p, shadowStackInit (fun _ ↦ 0) (some 0x700000000000) = some p₀ ∧
    (p.slots mainTid).length = 65536 ∧
    Run (Guarded (fun p e ↦ OnStack 0x700000000000 stackLo stackHi p e ∧
      PushInside 0x700000000000 p e) ProcessStep) p₀ es p := by
  obtain ⟨p₀, es, p, hinit, hr, hp⟩ := deep (show 65536 ≤ maxDepth by decide)
  exact ⟨p₀, es, p, hinit, hp.length,
    (run_pushInside_iff stackApart_example (by decide) (by decide) hinit).mpr hr⟩

/-- With a stack of 8 MiB, a recursion runs out of its chunk. -/
theorem not_run_pushInside : ¬ ∀ (mem : Memory) (base : Nat) (lo hi : Tid → Nat) (p₀ : Process)
    (es : List ProcessEvent) (p p' : Process) (e : ProcessEvent), StackApart base lo hi →
      (∀ t, hi t = lo t + 8 * 1024 * 1024) → 0 < base → base + memSize < 2 ^ 64 →
      shadowStackInit mem (some base) = some p₀ →
      Run (Guarded (OnStack base lo hi) ProcessStep) p₀ es p → OnStack base lo hi p e → ProcessStep p e p' →
      PushInside base p e := by
  intro h
  obtain ⟨p₀, es, p, hinit, hr, hp⟩ := deep (le_refl maxDepth)
  have hok := (ShadowOk.run stackApart_example (by decide) (by decide) hinit hr).resolve_left
    fun hc ↦ hc hp.exited
  obtain ⟨e, p', he, hs, ⟨m, rfl⟩, -⟩ := hp.call hok (le_refl maxDepth)
  have hin := h _ _ _ _ _ es p p' _ stackApart_example (fun _ ↦ rfl) (by decide) (by decide) hinit
    (hr.mono fun _ _ _ hs ↦ ⟨hs.1.1, hs.2⟩) he hs
  have hlt := (hok.pushInside_iff stackApart_example (by decide) he hs).mp hin mainTid m rfl
  rw [hp.length] at hlt
  exact lt_irrefl _ hlt

end ShadowStack.Runtime
