import ShadowStack.X86.Paths
import ShadowStack.X86.Ticks
import ShadowStack.X86.Transparent

/-!
# Threads

The threads of a process run the instrumented program at once, one instruction at a time and in any order, with
one memory.  Each has a chunk of its own.  Ordinary stores may overwrite return slots, those of other threads
included, but not chunks, and not the slot of a thread that is just about to push it on its shadow stack, or to
return through it.
-/

namespace ShadowStack.X86

open Lib

/-! ## The process -/

/-- The thread with the memory of its process. -/
def State.inMem (s : State) (mem : Memory) : State := { s with m := { s.m with mem := mem } }

/-- The threads and their memory.  The one that is part of a thread's machine is not used. -/
structure Process (ι : Type) where
  mem : Memory
  threads : ι → Option State

inductive Event (ι : Type) where
  | spawn (n : ι) (s : State)
  | tick (n : ι)
  /-- The kernel, or code that is not part of the program, writes to memory. -/
  | poke (mem : Memory)

variable {ι : Type}

inductive Process.Step [DecidableEq ι] (code : Code) (P : Process ι) : Event ι → Process ι → Prop
  | spawn (n : ι) (s : State) : Step code P (.spawn n s) { P with threads := Function.update P.threads n (some s) }
  | next {n : ι} {s s' : State} : P.threads n = some s → code.tick (s.inMem P.mem) = .next s' →
      Step code P (.tick n) ⟨s'.m.mem, Function.update P.threads n (some s')⟩
  | exited {n : ι} {s : State} {m : Machine} : P.threads n = some s → code.tick (s.inMem P.mem) = .exited m →
      Step code P (.tick n) ⟨m.mem, Function.update P.threads n none⟩
  | poke (mem : Memory) : Step code P (.poke mem) { P with mem := mem }

section

variable (p : Program) (strategy : ViolationStrategy) (scavenger : Nat → Scavenger) (c : ι → Chunk) (top₀ : ι → Nat)

/-! ## What a run is assumed to keep to -/

/-- The next instruction of a thread: stores and stacks are not in a chunk, functions restore the stack pointer
before they return, those that are not instrumented have their return slot as it was, those that are do not go
back to their first block, and returns are unconditional. -/
structure Obeys (s : State) : Prop where
  stores : ∀ o rest, s.pos.rest = .orig (.op o) :: rest → ∀ b ∈ o.writes s.m, ∀ k, ¬ (c k).Mem b
  calls : ∀ callee ra rest, s.pos.rest = .orig (.call callee ra) :: rest →
    8 ≤ s.m.regs .rsp ∧ ∀ k, (c k).Clear (s.m.regs .rsp - 8)
  restored : ∀ i fr frames, p.Inside strategy scavenger s.pos → nextOrig s.pos.rest = some i → i.isReturn →
    s.frames = fr :: frames → s.m.regs .rsp = fr.sp
  slot : ∀ i rest fr frames, p.hasCalls s.pos.fn = false → s.pos.rest = .orig i :: rest → i.isReturn →
    s.frames = fr :: frames → load64 s.m.mem fr.sp = fr.ra
  forward : p.reenters s = false
  unconditional : ∀ f cc, nextOrig s.pos.rest ≠ some (.tailJmpCC f cc)

/-- A thread is between a call and the end of the preamble, or between the start of the code before a return and
the return, and `b` is in the bytes of its stack that this code uses. -/
def Exposes (P : Process ι) (k : ι) (b : Nat) : Prop :=
  ∃ s fr frames, P.threads k = some s ∧ ¬ p.Inside strategy scavenger s.pos ∧ s.frames = fr :: frames ∧
    fr.sp - 16 ≤ b ∧ b < fr.sp + 8

/-- The memory `mem` has the exposed bytes of the other threads as they were. -/
def SparesExposed (P : Process ι) (n : ι) (mem : Memory) : Prop :=
  ∀ k ≠ n, ∀ b, Exposes p strategy scavenger P k (wrap b) → mem b = P.mem b

structure Allowed (P : Process ι) (e : Event ι) : Prop where
  /-- The calls of a thread fit its chunk. -/
  fits : ∀ k s, P.threads k = some s → top₀ k + 8 * p.depth s ≤ (c k).base + (c k).size
  obeys : ∀ n s, e = .tick n → P.threads n = some s → Obeys p strategy scavenger c (s.inMem P.mem)
  spares : ∀ n s s', e = .tick n → P.threads n = some s →
    (p.instrumented strategy scavenger).tick (s.inMem P.mem) = .next s' →
    SparesExposed p strategy scavenger P n s'.m.mem
  spawns : ∀ n s, e = .spawn n s → P.threads n = none ∧
    Starts p strategy scavenger (c n) (top₀ n) (s.inMem P.mem) ∧ ∀ k, (c k).Clear (s.m.regs .rsp)
  pokes : ∀ mem, e = .poke mem → ∀ k s, P.threads k = some s →
    ∀ b, (c k).Mem (wrap b) ∨ Exposes p strategy scavenger P k (wrap b) → mem b = P.mem b

/-- The chunks do not overlap. -/
def Apart : Prop := ∀ k l b, (c k).Mem b → (c l).Mem b → k = l

end

/-! ## Places in the code -/

/-- The instructions of the function. -/
def origs : List Inst → List Orig
  | [] => []
  | .orig i :: l => i :: origs l
  | _ :: l => origs l

variable {p : Program} {strategy : ViolationStrategy} {scavenger : Nat → Scavenger} {f blk trapBB : Nat}
  {find : List Orig → Option Reg} {l l' : List Inst} {b os : List Orig}

theorem origs_append : origs (l ++ l') = origs l ++ origs l' := by
  induction l with
  | nil => rfl
  | cons i l ih => cases i <;> simp [origs, ih]

theorem origs_map : origs (os.map .orig) = os := by
  induction os with
  | nil => rfl
  | cons i os ih => rw [List.map_cons, origs, ih]

theorem origs_eq_nil (h : ∀ i ∈ l, i.isOrig = false) : origs l = [] := by
  induction l with
  | nil => rfl
  | cons i l ih =>
      have hrest := ih fun j hj ↦ h j (List.mem_cons_of_mem i hj)
      have hi := h i (List.mem_cons_self ..)
      cases i <;> first | exact hrest | cases hi

theorem origs_instrumentRet (scratch : Option Reg) : origs (instrumentRet strategy trapBB scratch) = [] :=
  origs_eq_nil fun i hi ↦ (mem_instrumentRet scratch i hi).2.1

theorem origs_instrumentBlock : origs (instrumentBlock strategy trapBB find os) = os := by
  induction os with
  | nil => rfl
  | cons i os ih =>
      rw [instrumentBlock, origs_append, origs, ih]
      split
      · rw [origs_instrumentRet, List.nil_append]
      · rfl

theorem origs_compile : origs (p.compile strategy scavenger f blk os) = os := by
  rw [Program.compile]
  split
  · exact origs_instrumentBlock
  · exact origs_map

/-- Inside a function the code is that of the instructions that are left. -/
theorem Program.Inside.eq_compile {pos : Pos} (h : p.Inside strategy scavenger pos) :
    pos.rest = p.compile strategy scavenger pos.fn pos.blk (origs pos.rest) := by
  obtain ⟨b, l, -, -, hrest⟩ := h
  rw [hrest, origs_compile]

/-- What stands in front of a function: its first meta instructions, and the preamble. -/
def lead (b : List Orig) : List Inst := (b.takeWhile Orig.isMeta).map .orig ++ preamble

theorem instrumentFront_eq :
    instrumentFront strategy trapBB find b =
      lead b ++ instrumentBlock strategy trapBB find (b.dropWhile Orig.isMeta) := by
  induction b with
  | nil => rfl
  | cons i b ih =>
      cases i with
      | metaInstr =>
          rw [instrumentFront, ih]
          rfl
      | _ => rfl

theorem isMeta_of_mem_takeWhile {i : Orig} (h : i ∈ b.takeWhile Orig.isMeta) : i.isMeta :=
  List.mem_takeWhile_imp h

theorem instrumentBlock_append_meta {ms : List Orig} (h : ∀ i ∈ ms, i.isMeta) :
    instrumentBlock strategy trapBB find (ms ++ os) = ms.map .orig ++ instrumentBlock strategy trapBB find os := by
  induction ms with
  | nil => rfl
  | cons i ms ih =>
      have hi : i.isReturn = false := by
        have hmeta := h i (List.mem_cons_self ..)
        cases i <;> first | rfl | cases hmeta
      rw [List.cons_append, instrumentBlock, if_neg (by rw [hi]; decide), ih fun j hj ↦ h j (List.mem_cons_of_mem i hj)]
      rfl

/-! ## Where a thread is -/

section

variable (p : Program) (strategy : ViolationStrategy) (scavenger : Nat → Scavenger) (c : Chunk) (top₀ : Nat)

/-- The innermost call, on the machine `m`. -/
structure OnTop (m : Machine) (fr : Frame) (frames : List Frame) : Prop where
  gs : m.gs = c.base
  chain : Chain p strategy scavenger c top₀ m.mem (fr :: frames)

/-- `post` is what is left of what stands in front of a function; the call was on the machine `m`. -/
structure Entering (f : Nat) (b : List Orig) (pre post : List Inst) (m : Machine) (fr : Frame)
    (frames : List Frame) : Prop extends OnTop p strategy scavenger c top₀ m fr frames where
  calls : p.hasCalls f
  block : (p.funcs f).blocks[0]? = some b
  front : pre ++ post = lead b
  more : post ≠ []
  top : m.top = fr.top
  sp : m.regs .rsp = fr.sp
  slot : load64 m.mem fr.sp = fr.ra
  within : Within (Own c fr.sp) m pre

/-- `post` is what is left of the code before the return `i`, which started on the machine `m`. -/
structure Returning (f blk : Nat) (i : Orig) (l : List Orig) (pre post : List Inst) (m : Machine) (fr : Frame)
    (frames : List Frame) : Prop extends OnTop p strategy scavenger c top₀ m fr frames where
  inside : p.Inside strategy scavenger ⟨f, blk, p.compile strategy scavenger f blk (i :: l)⟩
  calls : p.hasCalls f
  isReturn : i.isReturn
  code : pre ++ post = instrumentRet strategy (p.funcs f).blocks.length ((scavenger f).find blk (i :: l))
  started : pre ≠ []
  top : m.top = fr.top + 8
  saved : load64 m.mem fr.top = fr.ra
  sp : m.regs .rsp = fr.sp
  room : fr.top + 8 ≤ c.base + c.size
  falls : Falls m pre
  within : Within (Own c fr.sp) m (pre ++ post)

/-- The shadow stack is right, or will be when the inserted code that has started is through. -/
inductive ThreadOk (s : State) : Prop
  | trapped : s.pos.rest = [.trap] → ThreadOk s
  | inside {fr : Frame} {frames : List Frame} : s.frames = fr :: frames →
      OnTop p strategy scavenger c top₀ s.m fr frames → p.Inside strategy scavenger s.pos → Level p s fr →
      ThreadOk s
  | entering {f : Nat} {b : List Orig} {pre post : List Inst} {m : Machine} {fr : Frame} {frames : List Frame} :
      Entering p strategy scavenger c top₀ f b pre post m fr frames →
      s = ⟨⟨f, 0, post ++ instrumentBlock strategy (p.funcs f).blocks.length ((scavenger f).find 0)
        (b.dropWhile Orig.isMeta)⟩, fr :: frames, execAll m pre⟩ → ThreadOk s
  | returning {f blk : Nat} {i : Orig} {l : List Orig} {pre post : List Inst} {m : Machine} {fr : Frame}
      {frames : List Frame} : Returning p strategy scavenger c top₀ f blk i l pre post m fr frames →
      s = ⟨⟨f, blk, post ++ .orig i :: p.compile strategy scavenger f blk l⟩, fr :: frames, execAll m pre⟩ →
      ThreadOk s

end

variable {c : Chunk} {top₀ : Nat} {s s' : State} {fr : Frame} {frames : List Frame} {m : Machine} {mem : Memory}
  {pre post : List Inst} {i : Orig}

theorem OnTop.inv (h : OnTop p strategy scavenger c top₀ s.m fr frames) (hfr : s.frames = fr :: frames)
    (hphase : Phase p strategy scavenger s fr) : Inv p strategy scavenger c top₀ s := by
  refine ⟨h.gs, hfr ▸ h.chain, fun fr' frames' hfr' ↦ ?_⟩
  obtain ⟨rfl, -⟩ := List.cons.inj (hfr.symm.trans hfr')
  exact hphase

theorem ThreadOk.of_safe (h : Safe p strategy scavenger c top₀ s) : ThreadOk p strategy scavenger c top₀ s := by
  obtain htrap | h := h
  · exact .trapped htrap
  obtain ⟨fr, frames, hfr⟩ := h.chain.exists_cons
  have htop : OnTop p strategy scavenger c top₀ s.m fr frames := ⟨h.gs, hfr ▸ h.chain⟩
  cases h.phase fr frames hfr with
  | inside hin hlevel => exact .inside hfr htop hin hlevel
  | entry hentry htop' hsp hslot =>
      obtain ⟨hf, hblk, b, hb, hrest⟩ := hentry
      rw [instrumentFront_eq] at hrest
      obtain ⟨⟨f, blk, rest⟩, frames', m⟩ := s
      dsimp only at *
      subst hblk hrest hfr
      have hmore : lead b ≠ [] := List.append_ne_nil_of_right_ne_nil _ (List.cons_ne_nil _ _)
      exact .entering ⟨htop, hf, hb, List.nil_append _, hmore, htop', hsp, hslot, trivial⟩ rfl

/-! ### Exposure -/

/-- The last instruction of the preamble is still to come. -/
theorem Entering.mem_post {b : List Orig} (h : Entering p strategy scavenger c top₀ f b pre post m fr frames) :
    .pop64r .r11 ∈ post := by
  have hne : preamble ≠ [] := List.cons_ne_nil _ _
  have hlast : (pre ++ post).getLast? = some (.pop64r .r11) := by
    rw [h.front, lead, List.getLast?_append_of_ne_nil _ hne]
    rfl
  rw [List.getLast?_append_of_ne_nil _ h.more] at hlast
  exact List.mem_of_getLast? hlast

theorem Entering.not_inside {b : List Orig} (h : Entering p strategy scavenger c top₀ f b pre post m fr frames) :
    ¬ p.Inside strategy scavenger ⟨f, 0, post ++ instrumentBlock strategy (p.funcs f).blocks.length
      ((scavenger f).find 0) (b.dropWhile Orig.isMeta)⟩ := by
  intro hin
  have heq := hin.eq_compile
  simp only [Program.compile, h.calls, if_true, origs_append, origs_instrumentBlock] at heq
  have hmeta : ∀ i ∈ origs post, i.isMeta := by
    have hfront : origs (lead b) = b.takeWhile Orig.isMeta := by
      rw [lead, origs_append, origs_map]
      exact List.append_nil _
    intro i hi
    apply isMeta_of_mem_takeWhile (b := b)
    rw [← hfront, ← h.front, origs_append]
    exact List.mem_append_right _ hi
  rw [instrumentBlock_append_meta hmeta] at heq
  have hmem := List.append_cancel_right heq ▸ h.mem_post
  obtain ⟨i, -, hi⟩ := List.mem_map.mp hmem
  cases hi

theorem Returning.not_inside {l : List Orig} (h : Returning p strategy scavenger c top₀ f blk i l pre post m fr frames) :
    ¬ p.Inside strategy scavenger ⟨f, blk, post ++ .orig i :: p.compile strategy scavenger f blk l⟩ := by
  intro hin
  have hpost : origs post = [] := by
    have horigs : origs (pre ++ post) = origs pre ++ origs post := origs_append
    rw [h.code, origs_instrumentRet] at horigs
    exact (List.append_eq_nil_iff.mp horigs.symm).2
  have heq := hin.eq_compile
  simp only [origs_append, hpost, origs, origs_compile, List.nil_append] at heq
  rw [Program.compile, Program.compile, if_pos h.calls, if_pos h.calls, instrumentBlock, if_pos h.isReturn,
    ← h.code] at heq
  have hlen := congrArg List.length (List.append_cancel_right heq)
  rw [List.length_append] at hlen
  exact h.started (List.length_eq_zero_iff.mp (by omega))

/-! ### Writes of somebody else -/

/-- The call with its bounds, from the depth of the calls. -/
theorem OnTop.bounds (h : OnTop p strategy scavenger c top₀ m fr frames) (hlo : c.base + 16 ≤ top₀)
    (hfr : s.frames = fr :: frames) (hfits : top₀ + 8 * p.depth s ≤ c.base + c.size) :
    c.base + 16 ≤ fr.top ∧ fr.top + 8 * (p.hasCalls s.pos.fn).toNat ≤ c.base + c.size := by
  have htop := h.chain.top_eq
  rw [Program.depth, hfr] at hfits
  omega

theorem OnTop.congr {m' : Machine} (h : OnTop p strategy scavenger c top₀ m fr frames) (hlo : c.base ≤ top₀)
    (htop : fr.top ≤ c.base + c.size) (hgs : m'.gs = m.gs) (hmem : ∀ b, c.Mem b → m'.mem b = m.mem b) :
    OnTop p strategy scavenger c top₀ m' fr frames := by
  have hfits := c.fits
  refine ⟨hgs.trans h.gs, h.chain.congr (by omega) fun b hb hb' ↦ ?_⟩
  apply hmem
  exact ⟨by omega, by omega⟩

theorem Chunk.Mem.lt {b : Nat} (h : c.Mem b) : b < 2 ^ 64 := by
  have hfits := c.fits
  unfold Chunk.Mem at h
  omega

theorem Machine.patch_chunk {sp b : Nat} (hb : c.Mem b) : (m.patch (Own c sp) mem).mem b = m.mem b := by
  apply Machine.patch_mem_of_mem
  rw [wrap_of_lt hb.lt]
  exact .inl hb

theorem Machine.load64_patch_slot {sp : Nat} (hsp : c.Clear sp) :
    load64 (m.patch (Own c sp) mem).mem sp = load64 m.mem sp :=
  Machine.load64_patch (own_stack (Nat.sub_le ..) le_rfl hsp.2.1)

theorem Machine.top_patch {sp : Nat} (hgs : m.gs = c.base) (hsize : 16 ≤ c.size) :
    (m.patch (Own c sp) mem).top = m.top := by
  refine top_congr hgs ?_ hsize fun b hb ↦ Machine.patch_chunk hb
  exact hgs

theorem Entering.patch {b : List Orig} (h : Entering p strategy scavenger c top₀ f b pre post m fr frames)
    (mem : Memory) (hlo : c.base + 16 ≤ top₀) (htop : fr.top ≤ c.base + c.size) :
    Entering p strategy scavenger c top₀ f b pre post (m.patch (Own c fr.sp) mem) fr frames := by
  have hle := h.chain.le_top
  constructor
  · exact h.toOnTop.congr (by omega) htop rfl fun b hb ↦ Machine.patch_chunk hb
  · exact h.calls
  · exact h.block
  · exact h.front
  · exact h.more
  · rw [Machine.top_patch h.gs (by omega), h.top]
  · exact h.sp
  · rw [Machine.load64_patch_slot h.chain.clear, h.slot]
  · exact within_patch h.within

theorem Returning.patch {l : List Orig} (h : Returning p strategy scavenger c top₀ f blk i l pre post m fr frames)
    (mem : Memory) (hlo : c.base + 16 ≤ top₀) :
    Returning p strategy scavenger c top₀ f blk i l pre post (m.patch (Own c fr.sp) mem) fr frames := by
  have hle := h.chain.le_top
  have hroom := h.room
  have hwithin := within_append.mp h.within
  constructor
  · exact h.toOnTop.congr (by omega) (by omega) rfl fun b hb ↦ Machine.patch_chunk hb
  · exact h.inside
  · exact h.calls
  · exact h.isReturn
  · exact h.code
  · exact h.started
  · rw [Machine.top_patch h.gs (by omega), h.top]
  · rw [Machine.load64_patch (own_chunk (by omega) hroom), h.saved]
  · exact h.sp
  · exact hroom
  · exact (falls_patch hwithin.1).mpr h.falls
  · exact within_patch h.within

/-- A patch with memory that agrees. -/
theorem Machine.patch_eq {S : Nat → Prop} (h : ∀ b, S (wrap b) → mem b = m.mem b) :
    m.patch S mem = { m with mem := mem } := by
  apply Machine.ext'
  · rfl
  · rfl
  · rfl
  · funext b
    by_cases hb : S (wrap b)
    · exact (Machine.patch_mem_of_mem hb).trans (h b hb).symm
    · exact Machine.patch_mem_of_notMem hb

/-- The code that has run on the machine `m` has run on the machine with the writes as well. -/
theorem execAll_patch_eq {S : Nat → Prop} (hw : Within S m pre)
    (h : ∀ b, S (wrap b) → mem b = (execAll m pre).mem b) :
    execAll (m.patch S mem) pre = { execAll m pre with mem := mem } := by
  rw [execAll_patch hw, Machine.patch_eq h]

variable (p strategy scavenger c) in
/-- Somebody else writes neither to the chunk nor, while inserted code runs, to the bytes of the stack that
it uses. -/
structure Spares (s : State) (mem : Memory) : Prop where
  chunk : ∀ b, c.Mem (wrap b) → mem b = s.m.mem b
  stack : ¬ p.Inside strategy scavenger s.pos → ∀ fr frames, s.frames = fr :: frames → ∀ b,
    fr.sp - 16 ≤ wrap b → wrap b < fr.sp + 8 → mem b = s.m.mem b

theorem Spares.own (h : Spares p strategy scavenger c s mem) (hin : ¬ p.Inside strategy scavenger s.pos)
    (hfr : s.frames = fr :: frames) : ∀ b, Own c fr.sp (wrap b) → mem b = s.m.mem b := by
  intro b hb
  rcases hb with hb | ⟨hlo, hhi⟩
  · exact h.chunk b hb
  · exact h.stack hin fr frames hfr b hlo hhi

/-- **Somebody else's step** keeps the shadow stack right. -/
theorem ThreadOk.inMem (h : ThreadOk p strategy scavenger c top₀ s) (hlo : c.base + 16 ≤ top₀)
    (hfits : top₀ + 8 * p.depth s ≤ c.base + c.size) (hmem : Spares p strategy scavenger c s mem) :
    ThreadOk p strategy scavenger c top₀ (s.inMem mem) := by
  cases h with
  | trapped htrap => exact .trapped htrap
  | @inside fr frames hfr htop hin hlevel =>
      obtain ⟨hlo', hhi⟩ := htop.bounds hlo hfr hfits
      have hchunk : ∀ b, c.Mem b → mem b = s.m.mem b := by
        intro b hb
        apply hmem.chunk
        rwa [wrap_of_lt hb.lt]
      have htop' : (s.inMem mem).m.top = s.m.top := top_congr htop.gs htop.gs (by omega) hchunk
      refine .inside hfr (htop.congr (by omega) (by omega) rfl hchunk) hin ?_
      refine ⟨htop'.trans hlevel.1, fun hf ↦ ?_⟩
      have hf' : p.hasCalls s.pos.fn = true := hf
      rw [hf', Bool.toNat_true] at hhi
      have hcfits := c.fits
      exact (load64_congr (by omega) fun b hb hb' ↦ hchunk b ⟨by omega, by omega⟩).trans (hlevel.2 hf)
  | @entering f b pre post m fr frames he hs =>
      subst hs
      obtain ⟨-, hhi⟩ := he.toOnTop.bounds hlo rfl hfits
      have heq := execAll_patch_eq he.within (hmem.own he.not_inside rfl)
      refine .entering (he.patch mem hlo (by omega)) ?_
      rw [heq]
      rfl
  | @returning f blk i l pre post m fr frames hr hs =>
      subst hs
      have heq := execAll_patch_eq (within_append.mp hr.within).1 (hmem.own hr.not_inside rfl)
      refine .returning (hr.patch mem hlo) ?_
      rw [heq]
      rfl

/-! ## The thread's own instructions -/

/-- What comes next inside a function: the end of the block, an instruction of the function, or the code
before a return. -/
inductive Upcoming (p : Program) (strategy : ViolationStrategy) (scavenger : Nat → Scavenger) (pos : Pos) : Prop
  | done : pos.rest = [] → Upcoming p strategy scavenger pos
  | plain {i : Orig} {l : List Orig} : p.hasCalls pos.fn = false ∨ i.isReturn = false →
      pos.rest = .orig i :: p.compile strategy scavenger pos.fn pos.blk l →
      p.Inside strategy scavenger { pos with rest := p.compile strategy scavenger pos.fn pos.blk l } →
      Upcoming p strategy scavenger pos
  | ret {i : Orig} {l : List Orig} : p.hasCalls pos.fn → i.isReturn →
      pos.rest = p.compile strategy scavenger pos.fn pos.blk (i :: l) →
      pos.rest = instrumentRet strategy (p.funcs pos.fn).blocks.length ((scavenger pos.fn).find pos.blk (i :: l)) ++
        .orig i :: p.compile strategy scavenger pos.fn pos.blk l →
      Upcoming p strategy scavenger pos

theorem Program.Inside.upcoming {pos : Pos} (h : p.Inside strategy scavenger pos) :
    Upcoming p strategy scavenger pos := by
  obtain ⟨b, l, hb, hl, hrest⟩ := h
  cases l with
  | nil =>
      refine .done (hrest.trans ?_)
      rw [Program.compile]
      split <;> rfl
  | cons i l =>
      have hin : p.Inside strategy scavenger { pos with rest := p.compile strategy scavenger pos.fn pos.blk l } :=
        ⟨b, l, hb, (List.suffix_cons i l).trans hl, rfl⟩
      by_cases hf : p.hasCalls pos.fn = true
      · by_cases hi : i.isReturn = true
        · refine .ret hf hi hrest (hrest.trans ?_)
          rw [Program.compile, Program.compile, if_pos hf, if_pos hf, instrumentBlock, if_pos hi]
        · refine .plain (i := i) (.inr (Bool.not_eq_true _ ▸ hi)) (hrest.trans ?_) hin
          rw [Program.compile, Program.compile, if_pos hf, if_pos hf, instrumentBlock, if_neg hi]
          rfl
      · refine .plain (i := i) (.inl (Bool.not_eq_true _ ▸ hf)) (hrest.trans ?_) hin
        rw [Program.compile, Program.compile, if_neg hf, if_neg hf]
        rfl

/-- The code before a return begins with an instruction that is not a branch. -/
theorem instrumentRet_cons (strategy : ViolationStrategy) (trapBB : Nat) (scratch : Option Reg) :
    ∃ x seq, instrumentRet strategy trapBB scratch = x :: seq ∧ ∀ m, x.falls m := by
  cases scratch with
  | none => exact ⟨_, _, rfl, fun _ ↦ rfl⟩
  | some r => exact ⟨_, _, rfl, fun _ ↦ rfl⟩

/-- Only the branch to the trap block may not go on. -/
theorem target_of_not_falls {x : Inst} {scratch : Option Reg} (hx : x ∈ instrumentRet strategy trapBB scratch)
    (h : x.falls m = false) : ∃ cc, x = .jcc1 trapBB cc ∧ cc.holds m.flags = true := by
  obtain ⟨-, horig, htarget⟩ := mem_instrumentRet scratch x hx
  cases x with
  | orig => cases horig
  | trap =>
      exact absurd hx (trap_not_mem_instrumentRet scratch)
  | jcc1 target cc =>
      rcases htarget with hc | ⟨-, hc⟩
      · cases hc
      · obtain rfl := Option.some.inj hc
        exact ⟨cc, rfl, (Bool.not_eq_false' _).mp h⟩
  | _ => cases h

theorem falls_of_mem_lead {x : Inst} (h : x ∈ lead b) : x.falls m := by
  rcases List.mem_append.mp h with h | h
  · obtain ⟨i, hi, rfl⟩ := List.mem_map.mp h
    exact isMeta_of_mem_takeWhile hi
  · simp only [preamble, List.mem_cons, List.not_mem_nil, or_false] at h
    rcases h with rfl | rfl | rfl | rfl | rfl | rfl | rfl | rfl | rfl <;> rfl

theorem falls_of_forall (h : ∀ x ∈ l, ∀ m : Machine, x.falls m) : Falls m l := by
  induction l generalizing m with
  | nil => trivial
  | cons x l ih => exact ⟨h x (List.mem_cons_self ..) m, ih fun y hy ↦ h y (List.mem_cons_of_mem x hy)⟩

/-- Meta instructions do nothing. -/
theorem execAll_meta {ms : List Orig} : execAll m (ms.map .orig) = m := by
  induction ms with
  | nil => rfl
  | cons i ms ih => exact ih

theorem within_meta {S : Nat → Prop} {ms : List Orig} : Within S m (ms.map .orig) := by
  induction ms with
  | nil => trivial
  | cons i ms ih => exact within_cons_of_none rfl ih

theorem execAll_lead : execAll m (lead b) = execAll m preamble := by
  rw [lead, execAll_append, execAll_meta]

theorem within_lead (hm : m.OnChunk c) (hroom : m.top + 8 ≤ c.base + c.size) (hsp : c.Clear (m.regs .rsp)) :
    Within (Own c (m.regs .rsp)) m (lead b) := by
  refine within_append.mpr ⟨within_meta, ?_⟩
  rw [execAll_meta]
  exact within_preamble hm hroom hsp

/-- Instruction by instruction, the preamble pushes as well. -/
theorem execAll_preamble_pushed (hm : m.OnChunk c) (hroom : m.top + 8 ≤ c.base + c.size)
    (hsp : c.Clear (m.regs .rsp)) : Pushed c m (execAll m preamble) := by
  obtain ⟨m', hpush, hst⟩ := preamble_pushed hm hroom hsp
  have hfalls : Falls m preamble := by
    apply falls_of_forall
    intro x hx m
    exact falls_of_mem_lead (b := []) hx
  have hst' : straight (preamble ++ []) m = straight [] (execAll m preamble) := straight_append hfalls
  obtain ⟨hm', -⟩ := Straight.stop.inj (hst'.symm.trans (hst []))
  rwa [show execAll m preamble = m' from hm']

/-- Instruction by instruction, the code before a return pops as well. -/
theorem execAll_instrumentRet_popped {scratch : Option Reg} (hpops : Pops c strategy trapBB scratch m)
    (hfalls : Falls m (instrumentRet strategy trapBB scratch)) :
    Popped c scratch m (execAll m (instrumentRet strategy trapBB scratch)) := by
  obtain ⟨m', hpop, hst⟩ := hpops
  have hst' : straight (instrumentRet strategy trapBB scratch ++ []) m = straight [] (execAll m _) :=
    straight_append hfalls
  have heq := hst'.symm.trans (hst [])
  by_cases hbad : strategy = .trap ∧ load64 m.mem (m.regs .rsp) ≠ load64 m.mem (m.top - 8)
  · rw [if_pos hbad] at heq
    cases heq
  · rw [if_neg hbad] at heq
    obtain ⟨hm', -⟩ := Straight.stop.inj heq
    rw [show execAll m _ = m' from hm']
    exact hpop hbad

/-! ### One instruction -/

variable {C : ι → Chunk} {n : ι} {rest : List Inst}

theorem nextOrig_orig (hi : i.isMeta = false) : nextOrig (.orig i :: rest) = some i := by
  cases i with
  | metaInstr => cases hi
  | _ => rfl

theorem not_isMeta_of_isReturn (hi : i.isReturn) : i.isMeta = false := by
  cases i with
  | metaInstr => cases hi
  | _ => rfl

/-- A place without inserted instructions in front of it. -/
def Bare (rest : List Inst) : Prop := rest = [] ∨ ∃ i r, rest = .orig i :: r ∧ i.isMeta = false

theorem Bare.tick (h : Bare s.pos.rest) (code : Code) : code.tick s = code.step s := by
  apply code.tick_eq_step
  intro x r hx
  obtain h | ⟨i, r', h, hi⟩ := h
  · rw [h] at hx
    cases hx
  · obtain ⟨rfl, -⟩ := List.cons.inj (h.symm.trans hx)
    exact hi

/-- There the thread behaves. -/
theorem Obeys.behaves (h : Obeys p strategy scavenger C s) (hin : p.Inside strategy scavenger s.pos)
    (hbare : Bare s.pos.rest) (hfits : top₀ + 8 * p.depth s ≤ (C n).base + (C n).size) :
    Behaves p (C n) top₀ s := by
  obtain hnil | ⟨i, r, hrest, hi⟩ := hbare
  · have hst : straight s.pos.rest s.m = .stop s.m [] := by
      rw [hnil]
      rfl
    have hnext : nextOrig s.pos.rest = none := by
      rw [hnil]
      rfl
    constructor
    · intro m o rest hs
      cases hst.symm.trans hs
    · intro m callee ra rest hs
      cases hst.symm.trans hs
    · intro i fr frames hs
      cases hnext.symm.trans hs
    · intro i fr frames _ hs
      cases hnext.symm.trans hs
    · exact h.unconditional
    · exact hfits
  · have hst : ∀ m l, straight s.pos.rest s.m = .stop m l → m = s.m ∧ s.pos.rest = l := by
      intro m l hs
      rw [hrest, straight_orig hi r] at hs
      obtain ⟨rfl, rfl⟩ := Straight.stop.inj hs
      exact ⟨rfl, hrest⟩
    constructor
    · intro m o rest hs b hb
      obtain ⟨rfl, hs'⟩ := hst _ _ hs
      exact h.stores o rest hs' b hb n
    · intro m callee ra rest hs
      obtain ⟨rfl, hs'⟩ := hst _ _ hs
      exact (h.calls callee ra rest hs').imp_right fun hc ↦ hc n
    · intro i fr frames
      exact h.restored i fr frames hin
    · intro j fr frames hf hj hret hfr
      rw [hrest, nextOrig_orig hi] at hj
      obtain rfl := Option.some.inj hj
      exact h.slot i r fr frames hf hrest hret hfr
    · exact h.unconditional
    · exact hfits

/-- An instruction of the function. -/
theorem OnTop.next_bare (h : OnTop p strategy scavenger (C n) top₀ s.m fr frames)
    (hin : p.Inside strategy scavenger s.pos) (hlevel : Level p s fr) (ho : Obeys p strategy scavenger C s)
    (hlo : (C n).base + 16 ≤ top₀) (hfr : s.frames = fr :: frames) (hbare : Bare s.pos.rest)
    (hfits : top₀ + 8 * p.depth s ≤ (C n).base + (C n).size)
    (hs : (p.instrumented strategy scavenger).tick s = .next s') :
    ThreadOk p strategy scavenger (C n) top₀ s' := by
  rw [hbare.tick] at hs
  have hsafe : Safe p strategy scavenger (C n) top₀ s := .inr (h.inv hfr (.inside hin hlevel))
  exact .of_safe (hsafe.next (ho.behaves hin hbare hfits) ho.forward hlo hs)

/-- The code before a return starts. -/
theorem OnTop.start_return {l : List Orig} {x : Inst} {seq : List Inst}
    (h : OnTop p strategy scavenger c top₀ m fr frames)
    (hin : p.Inside strategy scavenger ⟨f, blk, p.compile strategy scavenger f blk (i :: l)⟩)
    (htop : m.top = fr.top + 8) (hsaved : load64 m.mem fr.top = fr.ra) (hsp : m.regs .rsp = fr.sp)
    (hlo : c.base + 16 ≤ fr.top) (hroom : fr.top + 8 ≤ c.base + c.size) (hf : p.hasCalls f) (hi : i.isReturn)
    (hseq : instrumentRet strategy (p.funcs f).blocks.length ((scavenger f).find blk (i :: l)) = x :: seq)
    (hx : x.falls m) : Returning p strategy scavenger c top₀ f blk i l [x] seq m fr frames := by
  have honchunk : m.OnChunk c := ⟨h.gs, by omega, by omega⟩
  have hclear : c.Clear (m.regs .rsp) := hsp ▸ h.chain.clear
  have hwithin := within_instrumentRet strategy (p.funcs f).blocks.length
    ((scavenger f).find blk (i :: l)) honchunk (by omega) hclear ((scavenger f).ne_rsp _ _)
  rw [hsp, hseq] at hwithin
  exact ⟨h, hin, hf, hi, hseq.symm, List.cons_ne_nil _ _, htop, hsaved, hsp, hroom, ⟨hx, trivial⟩, hwithin⟩

/-- At the code before a return. -/
theorem OnTop.exists_start {l : List Orig} (h : OnTop p strategy scavenger (C n) top₀ s.m fr frames)
    (hin : p.Inside strategy scavenger s.pos) (hlevel : Level p s fr) (ho : Obeys p strategy scavenger C s)
    (hlo : (C n).base + 16 ≤ top₀) (hfr : s.frames = fr :: frames)
    (hfits : top₀ + 8 * p.depth s ≤ (C n).base + (C n).size) (hf : p.hasCalls s.pos.fn) (hi : i.isReturn)
    (hcode : s.pos.rest = p.compile strategy scavenger s.pos.fn s.pos.blk (i :: l))
    (hrest : s.pos.rest = instrumentRet strategy (p.funcs s.pos.fn).blocks.length
      ((scavenger s.pos.fn).find s.pos.blk (i :: l)) ++ .orig i :: p.compile strategy scavenger s.pos.fn s.pos.blk l) :
    ∃ x seq, (∀ m, x.falls m) ∧
      s.pos.rest = x :: (seq ++ .orig i :: p.compile strategy scavenger s.pos.fn s.pos.blk l) ∧
      Returning p strategy scavenger (C n) top₀ s.pos.fn s.pos.blk i l [x] seq s.m fr frames := by
  obtain ⟨hlo', hhi⟩ := h.bounds hlo hfr hfits
  rw [hf, Bool.toNat_true] at hhi
  have htop := hlevel.1
  rw [hf, Bool.toNat_true] at htop
  have hnext : nextOrig s.pos.rest = some i := by
    rw [hrest, nextOrig_instrumentRet, nextOrig_orig (not_isMeta_of_isReturn hi)]
  have hsp := ho.restored i fr frames hin hnext hi hfr
  have hin' : p.Inside strategy scavenger
      ⟨s.pos.fn, s.pos.blk, p.compile strategy scavenger s.pos.fn s.pos.blk (i :: l)⟩ := hcode ▸ hin
  obtain ⟨x, seq, hseq, hx⟩ := instrumentRet_cons strategy (p.funcs s.pos.fn).blocks.length
    ((scavenger s.pos.fn).find s.pos.blk (i :: l))
  refine ⟨x, seq, hx, ?_, h.start_return hin' htop (hlevel.2 hf) hsp hlo' hhi hf hi hseq (hx s.m)⟩
  rw [hrest, hseq]
  rfl

theorem OnTop.next_inside (h : OnTop p strategy scavenger (C n) top₀ s.m fr frames)
    (hin : p.Inside strategy scavenger s.pos) (hlevel : Level p s fr) (ho : Obeys p strategy scavenger C s)
    (hlo : (C n).base + 16 ≤ top₀) (hfr : s.frames = fr :: frames)
    (hfits : top₀ + 8 * p.depth s ≤ (C n).base + (C n).size)
    (hs : (p.instrumented strategy scavenger).tick s = .next s') :
    ThreadOk p strategy scavenger (C n) top₀ s' := by
  cases hin.upcoming with
  | done hrest => exact h.next_bare hin hlevel ho hlo hfr (.inl hrest) hfits hs
  | @plain i l _ hrest hin' =>
      cases hi : i.isMeta with
      | false => exact h.next_bare hin hlevel ho hlo hfr (.inr ⟨i, _, hrest, hi⟩) hfits hs
      | true =>
          obtain ⟨⟨f, blk, rest⟩, frames', m⟩ := s
          dsimp only at hrest hfr
          subst hrest hfr
          have hfalls : (Inst.orig i).falls m = true := hi
          rw [Code.tick_falls _ hfalls] at hs
          obtain rfl := Outcome.next.inj hs
          cases i with
          | metaInstr => exact .inside rfl h hin' hlevel
          | _ => cases hi
  | @ret i l hf hi hcode hrest =>
      obtain ⟨x, seq, hx, hrest', hstart⟩ := h.exists_start hin hlevel ho hlo hfr hfits hf hi hcode hrest
      obtain ⟨⟨f, blk, rest⟩, frames', m⟩ := s
      dsimp only at hrest' hfr
      subst hrest' hfr
      rw [Code.tick_falls _ (hx m)] at hs
      exact .returning hstart (Outcome.next.inj hs).symm

/-- The machine at a call of an instrumented function. -/
theorem Entering.onChunk {b : List Orig} (h : Entering p strategy scavenger c top₀ f b pre post m fr frames)
    (hlo : c.base + 16 ≤ top₀) (hroom : fr.top + 8 ≤ c.base + c.size) :
    m.OnChunk c ∧ m.top + 8 ≤ c.base + c.size ∧ c.Clear (m.regs .rsp) := by
  have hle := h.chain.le_top
  rw [h.sp]
  exact ⟨⟨h.gs, by rw [h.top]; omega, by rw [h.top]; omega⟩, by rw [h.top]; exact hroom, h.chain.clear⟩

theorem Entering.within_lead {b : List Orig} (h : Entering p strategy scavenger c top₀ f b pre post m fr frames)
    (hlo : c.base + 16 ≤ top₀) (hroom : fr.top + 8 ≤ c.base + c.size) : Within (Own c fr.sp) m (pre ++ post) := by
  obtain ⟨honchunk, htop, hclear⟩ := h.onChunk hlo hroom
  rw [h.front, ← h.sp]
  exact X86.within_lead honchunk htop hclear

/-- In front of a function. -/
theorem Entering.next {b : List Orig} {x : Inst} (code : Code)
    (h : Entering p strategy scavenger c top₀ f b pre (x :: post) m fr frames) (hlo : c.base + 16 ≤ top₀)
    (hroom : fr.top + 8 ≤ c.base + c.size)
    (hs : code.tick ⟨⟨f, 0, x :: post ++ instrumentBlock strategy (p.funcs f).blocks.length ((scavenger f).find 0)
      (b.dropWhile Orig.isMeta)⟩, fr :: frames, execAll m pre⟩ = .next s') :
    ThreadOk p strategy scavenger c top₀ s' := by
  have hle := h.chain.le_top
  have hcode : (pre ++ [x]) ++ post = pre ++ x :: post := List.append_cons .. |>.symm
  have hfront := hcode.trans h.front
  have hx : x.falls (execAll m pre) := by
    apply falls_of_mem_lead (b := b)
    rw [← h.front]
    exact List.mem_append_right _ (List.mem_cons_self ..)
  have hexec : execAll m (pre ++ [x]) = x.exec (execAll m pre) := execAll_append
  rw [List.cons_append, Code.tick_falls _ hx, ← hexec] at hs
  obtain rfl := Outcome.next.inj hs
  cases post with
  | cons y post =>
      have hwithin := h.within_lead hlo hroom
      rw [← hcode] at hwithin
      exact .entering ⟨h.toOnTop, h.calls, h.block, hfront, List.cons_ne_nil _ _, h.top, h.sp, h.slot,
        (within_append.mp hwithin).1⟩ rfl
  | nil =>
      rw [List.append_nil] at hfront
      have hpush : Pushed c m (execAll m (pre ++ [x])) := by
        obtain ⟨honchunk, hhi, hclear⟩ := h.onChunk hlo hroom
        rw [hfront, execAll_lead]
        exact execAll_preamble_pushed honchunk hhi hclear
      have htop := h.top
      have hfits := c.fits
      refine .inside rfl ⟨hpush.gs.trans h.gs, ?_⟩ ?_ ⟨?_, fun _ ↦ ?_⟩
      · refine h.chain.congr (by omega) fun a ha ha' ↦ ?_
        exact hpush.chunk a ⟨by omega, by omega⟩ (by omega) (by omega)
      · refine ⟨b, b.dropWhile Orig.isMeta, h.block, List.dropWhile_suffix _, ?_⟩
        rw [Program.compile, if_pos h.calls]
        rfl
      · rw [hpush.top, htop, h.calls]
        rfl
      · rw [← htop, hpush.saved, h.sp, h.slot]

/-- Before a return. -/
theorem Returning.next {l : List Orig} {x : Inst}
    (h : Returning p strategy scavenger c top₀ f blk i l pre (x :: post) m fr frames)
    (hs : (p.instrumented strategy scavenger).tick
      ⟨⟨f, blk, x :: post ++ .orig i :: p.compile strategy scavenger f blk l⟩, fr :: frames, execAll m pre⟩ =
        .next s') : ThreadOk p strategy scavenger c top₀ s' := by
  have hcode : (pre ++ [x]) ++ post = pre ++ x :: post := List.append_cons .. |>.symm
  have hexec : execAll m (pre ++ [x]) = x.exec (execAll m pre) := execAll_append
  cases hx : x.falls (execAll m pre) with
  | true =>
      rw [List.cons_append, Code.tick_falls _ hx, ← hexec] at hs
      refine .returning ⟨h.toOnTop, h.inside, h.calls, h.isReturn, hcode.trans h.code, ?_, h.top, h.saved, h.sp,
        h.room, falls_append.mpr ⟨h.falls, hx, trivial⟩, ?_⟩ (Outcome.next.inj hs).symm
      · exact List.append_ne_nil_of_right_ne_nil _ (List.cons_ne_nil _ _)
      · rw [hcode]
        exact h.within
  | false =>
      have hmem : x ∈ instrumentRet strategy (p.funcs f).blocks.length ((scavenger f).find blk (i :: l)) := by
        rw [← h.code]
        exact List.mem_append_right _ (List.mem_cons_self ..)
      obtain ⟨cc, rfl, hcc⟩ := target_of_not_falls hmem hx
      rw [List.cons_append, Code.tick_jump _ hcc] at hs
      obtain ⟨b', hb', rfl⟩ := goto_eq_next hs
      exact .trapped (blocks_trap h.calls hb')

/-- The code before a return is through. -/
theorem Returning.atReturn {l : List Orig}
    (h : Returning p strategy scavenger c top₀ f blk i l pre [] m fr frames) (hlo : c.base + 16 ≤ top₀) :
    AtReturn p strategy scavenger c top₀ (execAll m pre) fr frames := by
  have hle := h.chain.le_top
  have hroom := h.room
  have hcode := h.code
  have hfalls := h.falls
  have hscratch := (scavenger f).ne_rsp blk (i :: l)
  have honchunk : m.OnChunk c := ⟨h.gs, by rw [h.top]; omega, by rw [h.top]; exact hroom⟩
  rw [List.append_nil] at hcode
  rw [hcode] at hfalls ⊢
  have hpops : Pops c strategy (p.funcs f).blocks.length _ m := instrumentRet_pops _ honchunk
    (by rw [h.top]; omega) (by rw [h.sp]; exact h.chain.clear) hscratch
  have hinv : Inv p strategy scavenger c top₀
      ⟨⟨f, blk, p.compile strategy scavenger f blk (i :: l)⟩, fr :: frames, m⟩ := by
    refine OnTop.inv h.toOnTop rfl (.inside h.inside ⟨?_, fun _ ↦ h.saved⟩)
    rw [h.calls]
    exact h.top
  exact (execAll_instrumentRet_popped hpops hfalls).atReturn hinv hscratch rfl hlo hroom h.top h.saved h.sp

/-- **The thread's own step** keeps its shadow stack right. -/
theorem ThreadOk.next (h : ThreadOk p strategy scavenger (C n) top₀ s) (ho : Obeys p strategy scavenger C s)
    (hlo : (C n).base + 16 ≤ top₀) (hfits : top₀ + 8 * p.depth s ≤ (C n).base + (C n).size)
    (hs : (p.instrumented strategy scavenger).tick s = .next s') :
    ThreadOk p strategy scavenger (C n) top₀ s' := by
  cases h with
  | trapped htrap =>
      rw [Code.tick, htrap] at hs
      cases hs
  | inside hfr htop hin hlevel => exact htop.next_inside hin hlevel ho hlo hfr hfits hs
  | @entering f b pre post m fr frames he hs' =>
      subst hs'
      obtain ⟨-, hhi⟩ := he.toOnTop.bounds hlo rfl hfits
      have hf := he.calls
      rw [hf, Bool.toNat_true] at hhi
      cases post with
      | nil => exact absurd rfl he.more
      | cons x post => exact he.next _ hlo hhi hs
  | @returning f blk i l pre post m fr frames hr hs' =>
      subst hs'
      cases post with
      | cons x post => exact hr.next hs
      | nil =>
          have hi := not_isMeta_of_isReturn hr.isReturn
          rw [List.nil_append] at hs ho
          rw [Bare.tick (.inr ⟨i, _, rfl, hi⟩), step_of_stop _ (straight_orig hi _ _)] at hs
          refine .of_safe (.inr ((hr.atReturn hlo).inv hr.isReturn (fun f cc hcc ↦ ?_) hs))
          exact ho.unconditional f cc (hcc ▸ nextOrig_orig hi)

end ShadowStack.X86
