import Mathlib.Data.List.DropRight
import ShadowStack.X86.Program

/-!
# Return addresses are safe

A run of the instrumented program, in which stores go anywhere but to the chunk.  The shadow stack has
the return address of every call of an instrumented function that has not returned, in the order of
the calls, and `gs:[8]` points behind the last of them.
-/

namespace ShadowStack.X86

open Lib

section

variable (p : Program) (strategy : ViolationStrategy) (scavenger : Nat → Scavenger) (c : Chunk) (top₀ : Nat)

/-! ## What a run is assumed to keep to -/

/-- The next instruction of the function. -/
def nextOrig : List Inst → Option Orig
  | [] => none
  | .orig .metaInstr :: rest => nextOrig rest
  | .orig i :: _ => some i
  | _ :: rest => nextOrig rest

/-- The function is instrumented. -/
def Program.hasCalls (f : Nat) : Bool := (p.funcs f).hasCalls

/-- The number of calls of instrumented functions that have not returned. -/
def Program.depth (s : State) : Nat :=
  (p.hasCalls s.pos.fn).toNat + s.frames.countP fun fr ↦ fr.cont.any fun pos ↦ p.hasCalls pos.fn

/-- The program does not store to the chunk and has its stack elsewhere, functions restore the stack
pointer before they return, and only those that are not instrumented must leave their return slot
alone; returns are unconditional, and the calls fit the chunk. -/
structure Behaves (s : State) : Prop where
  stores : ∀ m o rest, straight s.pos.rest s.m = .stop m (.orig (.op o) :: rest) →
    ∀ b ∈ o.writes m, ¬ c.Mem b
  calls : ∀ m callee ra rest, straight s.pos.rest s.m = .stop m (.orig (.call callee ra) :: rest) →
    8 ≤ m.regs .rsp ∧ c.Clear (m.regs .rsp - 8)
  restored : ∀ i fr frames, nextOrig s.pos.rest = some i → i.isReturn → s.frames = fr :: frames →
    s.m.regs .rsp = fr.sp
  slot : ∀ i fr frames, p.hasCalls s.pos.fn = false → nextOrig s.pos.rest = some i → i.isReturn →
    s.frames = fr :: frames → load64 s.m.mem fr.sp = fr.ra
  unconditional : ∀ f cc, nextOrig s.pos.rest ≠ some (.tailJmpCC f cc)
  depth : top₀ + 8 * p.depth s ≤ c.base + c.size

/-- The next instruction goes back to the first block of an instrumented function, where the preamble is. -/
def Program.reenters (s : State) : Bool :=
  p.hasCalls s.pos.fn &&
    match straight s.pos.rest s.m with
    | .stop _ (.orig (.jmp target) :: _) => target == 0
    | .stop m (.orig (.jcc target cc) :: _) => target == 0 && cc.holds m.flags
    | _ => false

/-- A thread that starts in a function, with its return address on the stack. -/
structure Starts (s : State) : Prop where
  entry : ∃ f b, ((p.instrumented strategy scavenger).funcs f).blocks[0]? = some b ∧ s.pos = ⟨f, 0, b⟩
  frames : ∃ ra, s.frames = [⟨none, ra, s.m.regs .rsp, top₀⟩] ∧ load64 s.m.mem (s.m.regs .rsp) = ra
  gs : s.m.gs = c.base
  top : s.m.top = top₀
  data : c.base + 16 ≤ top₀ ∧ top₀ ≤ c.base + c.size
  clear : c.Clear (s.m.regs .rsp)

/-! ## Places in the code -/

/-- The code of the end of a block. -/
def Program.compile (f blk : Nat) (l : List Orig) : List Inst :=
  if p.hasCalls f then instrumentBlock strategy (p.funcs f).blocks.length ((scavenger f).find blk) l
  else l.map .orig

/-- A place in a function, after the preamble. -/
def Program.Inside (pos : Pos) : Prop :=
  ∃ b l, (p.funcs pos.fn).blocks[pos.blk]? = some b ∧ l <:+ b ∧
    pos.rest = p.compile strategy scavenger pos.fn pos.blk l

/-- The entry of an instrumented function. -/
def Program.AtEntry (pos : Pos) : Prop :=
  p.hasCalls pos.fn ∧ pos.blk = 0 ∧ ∃ b, (p.funcs pos.fn).blocks[0]? = some b ∧
    pos.rest = instrumentFront strategy (p.funcs pos.fn).blocks.length ((scavenger pos.fn).find 0) b

/-! ## The shadow stack -/

/-- The calls that have not returned, innermost first: `gs:[8]` at each of them, and the return
addresses below it. -/
inductive Chain (mem : Memory) : List Frame → Prop
  | root {fr : Frame} : fr.cont = none → fr.top = top₀ → c.Clear fr.sp → Chain mem [fr]
  | call {fr fr' : Frame} {frames : List Frame} {pos : Pos} : fr.cont = some pos →
      p.Inside strategy scavenger pos → p.hasCalls pos.fn → fr.top = fr'.top + 8 →
      load64 mem fr'.top = fr'.ra → c.Clear fr.sp → Chain mem (fr' :: frames) →
      Chain mem (fr :: fr' :: frames)

/-- `gs:[8]` in a function: behind the return address, if the function is instrumented. -/
def Level (s : State) (fr : Frame) : Prop :=
  s.m.top = fr.top + 8 * (p.hasCalls s.pos.fn).toNat ∧
    (p.hasCalls s.pos.fn → load64 s.m.mem fr.top = fr.ra)

/-- Where the innermost call is: at the entry or in the function. -/
inductive Phase (s : State) (fr : Frame) : Prop
  | entry : p.AtEntry strategy scavenger s.pos → s.m.top = fr.top → s.m.regs .rsp = fr.sp →
      load64 s.m.mem fr.sp = fr.ra → Phase s fr
  | inside : p.Inside strategy scavenger s.pos → Level p s fr → Phase s fr

structure Inv (s : State) : Prop where
  gs : s.m.gs = c.base
  chain : Chain p strategy scavenger c top₀ s.m.mem s.frames
  phase : ∀ fr frames, s.frames = fr :: frames → Phase p strategy scavenger s fr

/-- The invariant, or the end of the run in the trap block. -/
def Safe (s : State) : Prop := s.pos.rest = [.trap] ∨ Inv p strategy scavenger c top₀ s

end

variable {p : Program} {strategy : ViolationStrategy} {scavenger : Nat → Scavenger} {c : Chunk} {top₀ : Nat}

/-! ## Finding blocks -/

/-- The blocks of an instrumented function. -/
theorem blocks_instrumented {f blk : Nat} {b' : List Inst} (hf : p.hasCalls f)
    (h : ((p.instrumented strategy scavenger).funcs f).blocks[blk]? = some b') :
    (∃ b, (p.funcs f).blocks[blk]? = some b ∧
      b' = if blk = 0 then
          instrumentFront strategy (p.funcs f).blocks.length ((scavenger f).find blk) b
        else instrumentBlock strategy (p.funcs f).blocks.length ((scavenger f).find blk) b) ∨
      (blk ≠ 0 ∧ b' = [.trap]) :=
  blocks_runOnMachineFunction hf h

/-- The blocks of the other functions. -/
theorem blocks_leaf {f blk : Nat} {b' : List Inst} (hf : p.hasCalls f = false)
    (h : ((p.instrumented strategy scavenger).funcs f).blocks[blk]? = some b') :
    ∃ b, (p.funcs f).blocks[blk]? = some b ∧ b' = b.map .orig := by
  have hf' : (p.funcs f).hasCalls = false := hf
  change (runOnMachineFunction strategy (scavenger f) (p.funcs f)).blocks[blk]? = some b' at h
  rw [runOnMachineFunction, if_neg (by rw [hf']; decide), MachineFunction.plain, List.getElem?_map] at h
  obtain ⟨b, hb, rfl⟩ := Option.map_eq_some_iff.mp h
  exact ⟨b, hb, rfl⟩

theorem goto_eq_next {code : Code} {frames : List Frame} {m : Machine} {f blk : Nat} {s' : State}
    (h : code.goto frames m f blk = .next s') :
    ∃ b, (code.funcs f).blocks[blk]? = some b ∧ s' = ⟨⟨f, blk, b⟩, frames, m⟩ := by
  unfold Code.goto at h
  split at h
  · next b hb => exact ⟨b, hb, (Outcome.next.inj h).symm⟩
  · cases h

/-- A branch within a function. -/
theorem goto_inside {frames : List Frame} {m : Machine} {f blk : Nat} {s' : State} (hblk : p.hasCalls f → blk ≠ 0)
    (h : (p.instrumented strategy scavenger).goto frames m f blk = .next s') :
    s'.frames = frames ∧ s'.m = m ∧ s'.pos.fn = f ∧
      (p.Inside strategy scavenger s'.pos ∨ s'.pos.rest = [.trap]) := by
  obtain ⟨b', hb', rfl⟩ := goto_eq_next h
  refine ⟨rfl, rfl, rfl, ?_⟩
  by_cases hf : p.hasCalls f = true
  · rcases blocks_instrumented hf hb' with ⟨b, hb, rfl⟩ | ⟨-, rfl⟩
    · refine .inl ⟨b, b, hb, List.suffix_rfl, ?_⟩
      rw [if_neg (hblk hf)]
      simp [Program.compile, hf]
    · exact .inr rfl
  · rw [Bool.not_eq_true] at hf
    obtain ⟨b, hb, rfl⟩ := blocks_leaf hf hb'
    refine .inl ⟨b, b, hb, List.suffix_rfl, ?_⟩
    simp [Program.compile, hf]

/-- The entry of a function. -/
theorem goto_entry {frames : List Frame} {m : Machine} {f : Nat} {s' : State}
    (h : (p.instrumented strategy scavenger).goto frames m f 0 = .next s') :
    s'.frames = frames ∧ s'.m = m ∧ s'.pos.fn = f ∧
      (p.AtEntry strategy scavenger s'.pos ∨
        (p.Inside strategy scavenger s'.pos ∧ p.hasCalls s'.pos.fn = false)) := by
  obtain ⟨b', hb', rfl⟩ := goto_eq_next h
  refine ⟨rfl, rfl, rfl, ?_⟩
  by_cases hf : p.hasCalls f = true
  · rcases blocks_instrumented hf hb' with ⟨b, hb, rfl⟩ | ⟨hne, -⟩
    · rw [if_pos rfl]
      exact .inl ⟨hf, rfl, b, hb, rfl⟩
    · exact absurd rfl hne
  · rw [Bool.not_eq_true] at hf
    obtain ⟨b, hb, rfl⟩ := blocks_leaf hf hb'
    refine .inr ⟨⟨b, b, hb, List.suffix_rfl, ?_⟩, hf⟩
    simp [Program.compile, hf]

/-! ## The chain of calls -/

theorem load64_congr {mem mem' : Memory} {a : Nat} (ha : a + 8 ≤ 2 ^ 64)
    (h : ∀ b, a ≤ b → b < a + 8 → mem' b = mem b) : load64 mem' a = load64 mem a := by
  refine load_eq_of_bytes fun i hi ↦ ?_
  rw [wrap_of_lt (by omega)]
  exact h (a + i) (by omega) (by omega)

namespace Chain

variable {mem mem' : Memory} {fr : Frame} {frames : List Frame}

theorem exists_cons (h : Chain p strategy scavenger c top₀ mem frames) :
    ∃ fr frames', frames = fr :: frames' := by
  cases h with
  | root => exact ⟨_, _, rfl⟩
  | call => exact ⟨_, _, rfl⟩

theorem le_top (h : Chain p strategy scavenger c top₀ mem (fr :: frames)) : top₀ ≤ fr.top := by
  generalize hl : fr :: frames = l at h
  induction h generalizing fr frames with
  | root hc htop _ =>
      obtain ⟨rfl, -⟩ := List.cons.inj hl
      exact htop.ge
  | call hc _ _ htop _ _ _ ih =>
      obtain ⟨rfl, -⟩ := List.cons.inj hl
      have := ih rfl
      omega

theorem clear (h : Chain p strategy scavenger c top₀ mem (fr :: frames)) : c.Clear fr.sp := by
  cases h with
  | root _ _ hclear => exact hclear
  | call _ _ _ _ _ hclear _ => exact hclear

/-- Every call below the innermost one has pushed. -/
theorem top_eq (h : Chain p strategy scavenger c top₀ mem (fr :: frames)) :
    fr.top = top₀ + 8 * (fr :: frames).countP fun fr ↦ fr.cont.any fun pos ↦ p.hasCalls pos.fn := by
  generalize hl : fr :: frames = l at h
  induction h generalizing fr frames with
  | root hc htop _ =>
      obtain ⟨rfl, -⟩ := List.cons.inj hl
      simp [hc, htop]
  | call hc _ hf htop _ _ _ ih =>
      obtain ⟨rfl, -⟩ := List.cons.inj hl
      have := ih rfl
      rw [List.countP_cons_of_pos (by simp [hc, hf])]
      omega

/-- The chain is in the data of the chunk below `gs:[8]`. -/
theorem congr (h : Chain p strategy scavenger c top₀ mem (fr :: frames)) (hhi : fr.top ≤ 2 ^ 64)
    (hmem : ∀ b, top₀ ≤ b → b < fr.top → mem' b = mem b) :
    Chain p strategy scavenger c top₀ mem' (fr :: frames) := by
  generalize hl : fr :: frames = l at h
  induction h generalizing fr frames with
  | root hc htop hclear => exact .root hc htop hclear
  | call hc hin hf htop hra hclear hrest ih =>
      obtain ⟨rfl, -⟩ := List.cons.inj hl
      have hle := hrest.le_top
      refine .call hc hin hf htop ?_ hclear (ih (by omega) (fun b hb hb' ↦ hmem b hb (by omega)) rfl)
      rw [load64_congr (by omega) fun b hb hb' ↦ hmem b (by omega) (by omega), hra]

end Chain

/-! ## The next instruction -/

theorem nextOrig_instrumentRet {trapBB : Nat} (scratch : Option Reg) (rest : List Inst) :
    nextOrig (instrumentRet strategy trapBB scratch ++ rest) = nextOrig rest := by
  cases scratch <;> cases strategy <;> rfl

theorem nextOrig_map (l : List Orig) : nextOrig (l.map .orig) = (l.dropWhile Orig.isMeta).head? := by
  induction l with
  | nil => rfl
  | cons i l ih =>
      cases i with
      | metaInstr => exact ih
      | _ => rfl

theorem straight_map (l : List Orig) (m : Machine) :
    straight (l.map .orig) m = .stop m ((l.dropWhile Orig.isMeta).map .orig) := by
  induction l with
  | nil => rfl
  | cons i l ih =>
      cases i with
      | metaInstr => exact ih
      | _ => rfl

theorem nextOrig_instrumentBlock {trapBB : Nat} {find : List Orig → Option Reg} (l : List Orig) :
    nextOrig (instrumentBlock strategy trapBB find l) = (l.dropWhile Orig.isMeta).head? := by
  induction l with
  | nil => rfl
  | cons i l ih =>
      cases i with
      | metaInstr => exact ih
      | ret | tailJmp | tailJmpCC => exact nextOrig_instrumentRet _ _
      | _ => rfl

theorem nextOrig_instrumentFront {trapBB : Nat} {find : List Orig → Option Reg} (l : List Orig) :
    nextOrig (instrumentFront strategy trapBB find l) = (l.dropWhile Orig.isMeta).head? := by
  induction l with
  | nil => rfl
  | cons i l ih =>
      cases i with
      | metaInstr => exact ih
      | ret | tailJmp | tailJmpCC => exact nextOrig_instrumentRet _ _
      | _ => rfl

/-- The instructions up to the next one of the function. -/
inductive Ahead (p : Program) (strategy : ViolationStrategy) (scavenger : Nat → Scavenger) (pos : Pos) : Prop
  | done : nextOrig pos.rest = none → (∀ m, straight pos.rest m = .stop m []) → Ahead p strategy scavenger pos
  | plain {b : List Orig} {i : Orig} {l : List Orig} : nextOrig pos.rest = some i →
      (p.funcs pos.fn).blocks[pos.blk]? = some b → i :: l <:+ b →
      (p.hasCalls pos.fn = false ∨ i.isReturn = false) →
      (∀ m, straight pos.rest m =
        .stop m (.orig i :: p.compile strategy scavenger pos.fn pos.blk l)) →
      Ahead p strategy scavenger pos
  | ret {b : List Orig} {i : Orig} {l : List Orig} {scratch : Option Reg} : nextOrig pos.rest = some i →
      (p.funcs pos.fn).blocks[pos.blk]? = some b → i :: l <:+ b → scratch ≠ some .rsp →
      p.hasCalls pos.fn → i.isReturn →
      (∀ m, straight pos.rest m = straight (instrumentRet strategy (p.funcs pos.fn).blocks.length scratch ++
        .orig i :: p.compile strategy scavenger pos.fn pos.blk l) m) →
      Ahead p strategy scavenger pos

theorem Program.Inside.ahead {pos : Pos} (h : p.Inside strategy scavenger pos) :
    Ahead p strategy scavenger pos := by
  obtain ⟨b, l, hb, hl, hrest⟩ := h
  have hsuff := (List.dropWhile_suffix Orig.isMeta (l := l)).trans hl
  have hhead : ∀ i r, l.dropWhile Orig.isMeta = i :: r → i.isMeta = false := by
    intro i r hir
    have := List.head?_dropWhile_not Orig.isMeta l
    rw [hir] at this
    simpa using this
  by_cases hf : p.hasCalls pos.fn = true
  · simp only [Program.compile, hf, if_true] at hrest
    cases hd : l.dropWhile Orig.isMeta with
    | nil =>
        refine .done ?_ fun m ↦ ?_
        · rw [hrest, nextOrig_instrumentBlock, hd]
          rfl
        · rw [hrest, straight_instrumentBlock, hd]
          rfl
    | cons i r =>
        rw [hd] at hsuff
        have hnext : nextOrig pos.rest = some i := by rw [hrest, nextOrig_instrumentBlock, hd]; rfl
        cases hi : i.isReturn with
        | true =>
            refine .ret hnext hb hsuff ((scavenger pos.fn).ne_rsp pos.blk (i :: r)) hf hi fun m ↦ ?_
            rw [hrest, straight_instrumentBlock, hd, instrumentBlock, if_pos hi]
            simp [Program.compile, hf]
        | false =>
            refine .plain hnext hb hsuff (.inr hi) fun m ↦ ?_
            rw [hrest, straight_instrumentBlock, hd, instrumentBlock, if_neg (by rw [hi]; decide)]
            simp only [Program.compile, hf, if_true, List.nil_append]
            have hmeta := hhead i r hd
            cases i <;> first | rfl | cases hmeta
  · rw [Bool.not_eq_true] at hf
    have hrest' : pos.rest = l.map .orig := by simpa [Program.compile, hf] using hrest
    cases hd : l.dropWhile Orig.isMeta with
    | nil =>
        refine .done ?_ fun m ↦ ?_
        · rw [hrest', nextOrig_map, hd]
          rfl
        · rw [hrest', straight_map, hd]
          rfl
    | cons i r =>
        rw [hd] at hsuff
        refine .plain (by rw [hrest', nextOrig_map, hd]; rfl) hb hsuff (.inl hf) fun m ↦ ?_
        rw [hrest', straight_map, hd]
        simp [Program.compile, hf]

/-! ## Returning -/

/-- The shadow stack is as it was before the call, and the return slot has the address of the call. -/
structure AtReturn (p : Program) (strategy : ViolationStrategy) (scavenger : Nat → Scavenger) (c : Chunk)
    (top₀ : Nat) (m : Machine) (fr : Frame) (frames : List Frame) : Prop where
  gs : m.gs = c.base
  chain : Chain p strategy scavenger c top₀ m.mem (fr :: frames)
  top : m.top = fr.top
  sp : m.regs .rsp = fr.sp
  slot : load64 m.mem fr.sp = fr.ra

/-- The call has returned to where it continues, with `gs:[8]` as it was before. -/
inductive Returned (fr : Frame) (frames : List Frame) : Outcome → Prop
  | next {pos : Pos} {m : Machine} : fr.cont = some pos → m.top = fr.top →
      Returned fr frames (.next ⟨pos, frames, m⟩)
  | exited {m : Machine} : fr.cont = none → m.top = fr.top → Returned fr frames (.exited m)

/-- `RET` goes back to the call. -/
theorem AtReturn.returned {m : Machine} {fr : Frame} {frames : List Frame}
    (h : AtReturn p strategy scavenger c top₀ m fr frames) (code : Code) (pos : Pos) (rest : List Inst)
    (imm : Nat) : Returned fr frames (code.stepOrig pos (fr :: frames) m rest (.ret imm)) := by
  rw [Code.stepOrig, Code.returnTo, h.sp, if_pos h.slot]
  cases hc : fr.cont with
  | none => exact .exited hc h.top
  | some pos' => exact .next hc h.top

/-- A return keeps the invariant. -/
theorem AtReturn.inv {m : Machine} {fr : Frame} {frames : List Frame} {pos : Pos} {rest : List Inst}
    {i : Orig} {s' : State} (h : AtReturn p strategy scavenger c top₀ m fr frames) (hi : i.isReturn)
    (hcc : ∀ f cc, i ≠ .tailJmpCC f cc)
    (hs : (p.instrumented strategy scavenger).stepOrig pos (fr :: frames) m rest i = .next s') :
    Inv p strategy scavenger c top₀ s' := by
  cases i with
  | ret imm =>
      rw [Code.stepOrig, Code.returnTo, h.sp, if_pos h.slot] at hs
      cases h.chain with
      | root hc =>
          rw [hc] at hs
          cases hs
      | call hc hin hf htop hra _ hrest =>
          rw [hc] at hs
          obtain rfl := Outcome.next.inj hs
          refine ⟨h.gs, hrest, fun fr₂ frames₂ hfr ↦ ?_⟩
          obtain ⟨rfl, -⟩ := List.cons.inj hfr
          refine .inside hin ⟨?_, fun _ ↦ hra⟩
          rw [hf]
          exact h.top.trans htop
  | tailJmp callee =>
      rw [Code.stepOrig] at hs
      unfold Code.enter at hs
      split at hs
      · obtain ⟨hframes, hm, -, hpos⟩ := goto_entry hs
        refine ⟨by rw [hm, h.gs], by rw [hm, hframes]; exact h.chain, fun fr₂ frames₂ hfr ↦ ?_⟩
        obtain ⟨rfl, -⟩ := List.cons.inj (hframes.symm.trans hfr)
        rcases hpos with hpos | ⟨hpos, hf⟩
        · exact .entry hpos (by rw [hm, h.top]) (by rw [hm, h.sp]) (by rw [hm, h.slot])
        · refine .inside hpos ⟨?_, fun hc ↦ ?_⟩
          · rw [hm, h.top, hf]
            rfl
          · rw [hf] at hc
            cases hc
      · cases hs
  | tailJmpCC f cc => exact absurd rfl (hcc f cc)
  | _ => cases hi

/-- The machine on its chunk, with the bound that the depth of the calls gives. -/
theorem Inv.onChunk {s : State} {fr : Frame} {frames : List Frame} (h : Inv p strategy scavenger c top₀ s)
    (hlo : c.base + 16 ≤ top₀) (hfr : s.frames = fr :: frames)
    (hdepth : top₀ + 8 * p.depth s ≤ c.base + c.size) :
    c.base + 16 ≤ fr.top ∧ fr.top + 8 * (p.hasCalls s.pos.fn).toNat ≤ c.base + c.size := by
  have hchain := h.chain
  rw [hfr] at hchain
  have htop := hchain.top_eq
  rw [Program.depth, hfr] at hdepth
  omega

/-- The popped machine is ready to return. -/
theorem Popped.atReturn {s : State} {fr : Frame} {frames : List Frame} {scratch : Option Reg} {m' : Machine}
    (hp : Popped c scratch s.m m') (h : Inv p strategy scavenger c top₀ s) (hscratch : scratch ≠ some .rsp)
    (hfr : s.frames = fr :: frames) (hlo : c.base + 16 ≤ top₀) (hhi : fr.top + 8 ≤ c.base + c.size)
    (htop : s.m.top = fr.top + 8) (hra : load64 s.m.mem fr.top = fr.ra) (hsp : s.m.regs .rsp = fr.sp) :
    AtReturn p strategy scavenger c top₀ m' fr frames := by
  have hfits := c.fits
  have hchain := h.chain
  rw [hfr] at hchain
  have hle := hchain.le_top
  constructor
  · rw [hp.gs, h.gs]
  · refine hchain.congr (by omega) fun b hb hb' ↦ hp.chunk b ⟨by omega, by omega⟩ (by omega)
  · rw [hp.top, htop]
    omega
  · rw [hp.regs .rsp hscratch, hsp]
  · have hslot := hp.slot
    rwa [hsp, htop, Nat.add_sub_cancel, hra] at hslot

/-! ## One step -/

theorem stepOrig_congr (code : Code) {pos pos₁ : Pos} (hfn : pos.fn = pos₁.fn) (hblk : pos.blk = pos₁.blk)
    (frames : List Frame) (m : Machine) (rest : List Inst) (i : Orig) :
    code.stepOrig pos frames m rest i = code.stepOrig pos₁ frames m rest i := by
  obtain ⟨fn, blk, rest₀⟩ := pos
  obtain ⟨fn₁, blk₁, rest₁⟩ := pos₁
  obtain rfl : fn = fn₁ := hfn
  obtain rfl : blk = blk₁ := hblk
  rfl

/-- A step depends on what the inserted instructions lead to. -/
theorem step_congr (code : Code) {s s₁ : State}
    (h : straight s.pos.rest s.m = straight s₁.pos.rest s₁.m) (hfn : s.pos.fn = s₁.pos.fn)
    (hblk : s.pos.blk = s₁.pos.blk) (hframes : s.frames = s₁.frames) : code.step s = code.step s₁ := by
  unfold Code.step
  rw [h, hfn, hblk, hframes]
  split
  · rfl
  · rfl
  · exact stepOrig_congr code hfn hblk ..
  · rfl

/-- A step of an instruction of the function. -/
theorem step_of_stop (code : Code) {s : State} {m : Machine} {i : Orig} {rest : List Inst}
    (h : straight s.pos.rest s.m = .stop m (.orig i :: rest)) :
    code.step s = code.stepOrig s.pos s.frames m rest i := by
  rw [Code.step, h]

/-- **The preamble.**  A step from the entry of an instrumented function is a step from behind the
preamble. -/
theorem Inv.enter {s : State} {fr : Frame} {frames : List Frame} (h : Inv p strategy scavenger c top₀ s)
    (hb : Behaves p c top₀ s) (hlo : c.base + 16 ≤ top₀) (hfr : s.frames = fr :: frames)
    (hentry : p.AtEntry strategy scavenger s.pos) (htop : s.m.top = fr.top)
    (hsp : s.m.regs .rsp = fr.sp) (hslot : load64 s.m.mem fr.sp = fr.ra) :
    ∃ s₁, Inv p strategy scavenger c top₀ s₁ ∧ Behaves p c top₀ s₁ ∧ Pushed c s.m s₁.m ∧
      Level p s₁ fr ∧ p.Inside strategy scavenger s₁.pos ∧ s₁.pos.fn = s.pos.fn ∧ s₁.frames = s.frames ∧
      nextOrig s₁.pos.rest = nextOrig s.pos.rest ∧ p.reenters s₁ = p.reenters s ∧
      (p.instrumented strategy scavenger).step s = (p.instrumented strategy scavenger).step s₁ := by
  obtain ⟨hf, hblk, b, hblock, hrest⟩ := hentry
  obtain ⟨hlo', hhi⟩ := h.onChunk hlo hfr hb.depth
  rw [hf, Bool.toNat_true] at hhi
  have hfits := c.fits
  have hchain := h.chain
  rw [hfr] at hchain
  have hle := hchain.le_top
  have hclear := hchain.clear
  obtain ⟨m₁, hpush, hstraight⟩ := preamble_pushed (m := s.m) (c := c) ⟨h.gs, by omega, by omega⟩
    (by omega) (by rw [hsp]; exact hclear)
  obtain ⟨s₁, hs₁⟩ : ∃ s₁ : State, (⟨⟨s.pos.fn, 0, instrumentBlock strategy (p.funcs s.pos.fn).blocks.length
      ((scavenger s.pos.fn).find 0) (b.dropWhile Orig.isMeta)⟩, s.frames, m₁⟩ : State) = s₁ := ⟨_, rfl⟩
  have hst : straight s.pos.rest s.m = straight s₁.pos.rest s₁.m := by
    rw [hrest, straight_instrumentFront, hstraight, ← hs₁]
  have hnext : nextOrig s₁.pos.rest = nextOrig s.pos.rest := by
    rw [hrest, nextOrig_instrumentFront, ← hs₁, nextOrig_instrumentBlock, List.dropWhile_idempotent]
  have hin : p.Inside strategy scavenger s₁.pos := by
    rw [← hs₁]
    exact ⟨b, b.dropWhile Orig.isMeta, hblock, List.dropWhile_suffix _, by simp [Program.compile, hf]⟩
  have hfn : s₁.pos.fn = s.pos.fn := by rw [← hs₁]
  have hframes : s₁.frames = s.frames := by rw [← hs₁]
  have hpush : Pushed c s.m s₁.m := by rw [← hs₁]; exact hpush
  have hlevel : Level p s₁ fr := by
    refine ⟨?_, fun _ ↦ ?_⟩
    · rw [hpush.top, htop, hfn, hf]
      rfl
    · rw [← htop, hpush.saved, hsp, hslot]
  have hre : p.reenters s₁ = p.reenters s := by
    rw [Program.reenters, Program.reenters, hst, hfn]
  refine ⟨s₁, ?_, ?_, hpush, hlevel, hin, hfn, hframes, hnext, hre,
    step_congr _ hst hfn.symm (by rw [hblk, ← hs₁]) hframes.symm⟩
  · refine ⟨by rw [hpush.gs, h.gs], ?_, fun fr₁ frames₁ hfr₁ ↦ ?_⟩
    · rw [hframes, hfr]
      refine hchain.congr (by omega) fun b hb hb' ↦ hpush.chunk b ⟨by omega, by omega⟩ (by omega) (by omega)
    · obtain ⟨rfl, -⟩ := List.cons.inj ((hframes.trans hfr).symm.trans hfr₁)
      exact .inside hin hlevel
  · constructor
    · rw [← hst]
      exact hb.stores
    · rw [← hst]
      exact hb.calls
    · rw [hnext, hframes, hpush.regs]
      exact hb.restored
    · intro _ _ _ hleaf
      rw [hfn, hf] at hleaf
      cases hleaf
    · rw [hnext]
      exact hb.unconditional
    · rw [Program.depth, hfn, hframes]
      exact hb.depth

/-- In the body of an instrumented function a return is either trapped, or gets the machine to the
state before the call. -/
theorem Inv.at_return {s : State} {fr : Frame} {frames : List Frame} {i : Orig}
    (h : Inv p strategy scavenger c top₀ s) (hb : Behaves p c top₀ s) (hlo : c.base + 16 ≤ top₀)
    (hfr : s.frames = fr :: frames) (hin : p.Inside strategy scavenger s.pos) (hf : p.hasCalls s.pos.fn)
    (htop : s.m.top = fr.top + 8) (hra : load64 s.m.mem fr.top = fr.ra)
    (hnext : nextOrig s.pos.rest = some i) (hi : i.isReturn) :
    (strategy = .trap ∧ load64 s.m.mem fr.sp ≠ fr.ra ∧
      ∃ m, (p.instrumented strategy scavenger).step s =
        (p.instrumented strategy scavenger).goto s.frames m s.pos.fn (p.funcs s.pos.fn).blocks.length) ∨
    (¬ (strategy = .trap ∧ load64 s.m.mem fr.sp ≠ fr.ra) ∧
      ∃ m rest, AtReturn p strategy scavenger c top₀ m fr frames ∧
        (p.instrumented strategy scavenger).step s =
          (p.instrumented strategy scavenger).stepOrig s.pos (fr :: frames) m rest i) := by
  have hsp := hb.restored i fr frames hnext hi hfr
  obtain ⟨hlo', hhi⟩ := h.onChunk hlo hfr hb.depth
  rw [hf, Bool.toNat_true] at hhi
  have hfits := c.fits
  have hclear : c.Clear fr.sp := by
    have := h.chain
    rw [hfr] at this
    exact this.clear
  cases hin.ahead with
  | done hnone => rw [hnext] at hnone; cases hnone
  | plain hnext' _ _ hor =>
      obtain rfl := Option.some.inj (hnext.symm.trans hnext')
      rw [hf, hi] at hor
      simp at hor
  | @ret b i' l scratch hnext' _ _ hscratch _ _ hst =>
      obtain rfl := Option.some.inj (hnext.symm.trans hnext')
      obtain ⟨m', hpop, hstraight⟩ := instrumentRet_pops (m := s.m) (c := c) scratch
        ⟨h.gs, by omega, by omega⟩ (by omega) (by rw [hsp]; exact hclear) hscratch
      rw [hsp, htop, Nat.add_sub_cancel, hra] at hpop hstraight
      by_cases hbad : strategy = .trap ∧ load64 s.m.mem fr.sp ≠ fr.ra
      · refine .inl ⟨hbad.1, hbad.2, m', ?_⟩
        rw [Code.step, hst, hstraight, if_pos hbad]
      · refine .inr ⟨hbad, m', p.compile strategy scavenger s.pos.fn s.pos.blk l,
          (hpop hbad).atReturn h hscratch hfr hlo hhi htop hra hsp, ?_⟩
        rw [← hfr]
        refine step_of_stop _ ?_
        rw [hst, hstraight, if_neg hbad]
        cases i with
        | ret | tailJmp | tailJmpCC => rfl
        | _ => cases hi

/-- `top` is in the chunk. -/
theorem top_congr {m m' : Machine} (hgs : m.gs = c.base) (hgs' : m'.gs = c.base) (hsize : 16 ≤ c.size)
    (hmem : ∀ b, c.Mem b → m'.mem b = m.mem b) : m'.top = m.top := by
  have hfits := c.fits
  rw [Machine.top_eq hgs (by omega), Machine.top_eq hgs' (by omega)]
  exact load64_congr (by omega) fun b hb hb' ↦ hmem b ⟨by omega, by omega⟩

/-- The function goes on, with the chunk as it is. -/
theorem Inv.stay {s s' : State} {fr : Frame} {frames : List Frame} (h : Inv p strategy scavenger c top₀ s)
    (hb : Behaves p c top₀ s) (hlo : c.base + 16 ≤ top₀) (hfr : s.frames = fr :: frames)
    (hlevel : Level p s fr) (hframes : s'.frames = s.frames) (hfn : s'.pos.fn = s.pos.fn)
    (hpos : p.Inside strategy scavenger s'.pos ∨ s'.pos.rest = [.trap]) (hgs : s'.m.gs = s.m.gs)
    (hmem : ∀ b, c.Mem b → s'.m.mem b = s.m.mem b) : Safe p strategy scavenger c top₀ s' := by
  obtain ⟨hlo', hhi⟩ := h.onChunk hlo hfr hb.depth
  have hfits := c.fits
  have hchain := h.chain
  rw [hfr] at hchain
  have hle := hchain.le_top
  have htop : s'.m.top = s.m.top := top_congr h.gs (hgs.trans h.gs) (by omega) hmem
  rcases hpos with hpos | hpos
  · refine .inr ⟨hgs.trans h.gs, ?_, fun fr' frames' hfr' ↦ ?_⟩
    · rw [hframes, hfr]
      exact hchain.congr (by omega) fun b hb hb' ↦ hmem b ⟨by omega, by omega⟩
    · obtain ⟨rfl, -⟩ := List.cons.inj ((hframes.trans hfr).symm.trans hfr')
      refine .inside hpos ⟨?_, fun hc ↦ ?_⟩
      · rw [htop, hfn]
        exact hlevel.1
      · rw [hfn] at hc
        rw [hc, Bool.toNat_true] at hhi
        rw [load64_congr (by omega) fun b hb hb' ↦ hmem b ⟨by omega, by omega⟩, hlevel.2 hc]
  · exact .inl hpos

/-- Instructions of a function with a call. -/
theorem hasCalls_of_call {f blk : Nat} {b l : List Orig} {callee : Callee} {ra : Nat}
    (hb : (p.funcs f).blocks[blk]? = some b) (hl : .call callee ra :: l <:+ b) : p.hasCalls f := by
  have hmem : Orig.call callee ra ∈ b := hl.subset (List.mem_cons_self ..)
  refine List.any_eq_true.mpr ⟨b, List.mem_of_getElem? hb, List.any_eq_true.mpr ⟨_, hmem, rfl⟩⟩

/-- A call. -/
theorem Inv.call {s s' : State} {fr : Frame} {frames : List Frame} {b l : List Orig} {callee : Callee} {ra : Nat}
    (h : Inv p strategy scavenger c top₀ s) (hb : Behaves p c top₀ s) (hlo : c.base + 16 ≤ top₀)
    (hfr : s.frames = fr :: frames) (hlevel : Level p s fr)
    (hblock : (p.funcs s.pos.fn).blocks[s.pos.blk]? = some b) (hl : .call callee ra :: l <:+ b)
    (hsp : 8 ≤ s.m.regs .rsp ∧ c.Clear (s.m.regs .rsp - 8))
    (hs : (p.instrumented strategy scavenger).stepOrig s.pos s.frames s.m
      (p.compile strategy scavenger s.pos.fn s.pos.blk l) (.call callee ra) = .next s') :
    Inv p strategy scavenger c top₀ s' := by
  obtain ⟨hle8, hclear⟩ := hsp
  obtain ⟨hc₁, hc₂, hc₃⟩ := id hclear
  have hf := hasCalls_of_call hblock hl
  obtain ⟨hlo', hhi⟩ := h.onChunk hlo hfr hb.depth
  have hfits := c.fits
  have hchain := h.chain
  rw [hfr] at hchain
  have hle := hchain.le_top
  obtain ⟨sp, hsp⟩ : ∃ sp, s.m.regs .rsp - 8 = sp := ⟨_, rfl⟩
  have hlt := s.m.regs_lt .rsp
  have hsub : wrapSub (s.m.regs .rsp) 8 = sp := by rw [wrapSub_of_le hle8 hlt, hsp]
  rw [hsp] at hclear hc₁ hc₂ hc₃
  rw [Code.stepOrig, Code.pushRet, hsub] at hs
  unfold Code.enter at hs
  split at hs
  · obtain ⟨hframes, hm, -, hpos⟩ := goto_entry hs
    -- the return address goes to the stack, which is not near the chunk
    have hmem : ∀ b, c.Mem b → s'.m.mem b = s.m.mem b := by
      rintro b ⟨hb₁, hb₂⟩
      rw [hm]
      exact store64_of_notMem (by omega) (by omega) (by omega)
    have hgs : s'.m.gs = s.m.gs := by rw [hm]; rfl
    have htop : s'.m.top = s.m.top := top_congr h.gs (hgs.trans h.gs) (by omega) hmem
    have hrsp : s'.m.regs .rsp = sp := by
      rw [hm, Machine.set_regs_self, wrap_of_lt (by omega)]
    have hstore : s'.m.mem = store64 s.m.mem sp ra := by rw [hm]; rfl
    have hslot : load64 s'.m.mem sp = wrap ra := hstore ▸ load_store_same hc₂
    rw [hf, Bool.toNat_true] at hhi
    have hin : p.Inside strategy scavenger
        { s.pos with rest := p.compile strategy scavenger s.pos.fn s.pos.blk l } :=
      ⟨b, l, hblock, (List.suffix_cons _ l).trans hl, rfl⟩
    refine ⟨hgs.trans h.gs, ?_, fun fr' frames' hfr' ↦ ?_⟩
    · rw [hframes, hfr]
      refine .call rfl hin hf ?_ ?_ hclear
        (hchain.congr (by omega) fun b hb hb' ↦ hmem b ⟨by omega, by omega⟩)
      · have := hlevel.1
        rwa [hf, Bool.toNat_true] at this
      · rw [load64_congr (by omega) fun b hb hb' ↦ hmem b ⟨by omega, by omega⟩, hlevel.2 hf]
    · obtain ⟨rfl, -⟩ := List.cons.inj (hframes.symm.trans hfr')
      rcases hpos with hpos | ⟨hpos, hleaf⟩
      · exact .entry hpos htop hrsp hslot
      · refine .inside hpos ⟨?_, fun hc ↦ ?_⟩
        · rw [htop, hleaf, Bool.toNat_false, Nat.mul_zero, Nat.add_zero]
        · rw [hleaf] at hc
          cases hc
  · cases hs

/-- An instruction of a function that is not a return. -/
theorem Inv.plain {s s' : State} {fr : Frame} {frames : List Frame} {b l : List Orig} {i : Orig}
    (h : Inv p strategy scavenger c top₀ s) (hb : Behaves p c top₀ s) (hre : p.reenters s = false) (hlo : c.base + 16 ≤ top₀)
    (hfr : s.frames = fr :: frames) (hlevel : Level p s fr)
    (hblock : (p.funcs s.pos.fn).blocks[s.pos.blk]? = some b) (hl : i :: l <:+ b) (hi : i.isReturn = false)
    (hst : straight s.pos.rest s.m = .stop s.m (.orig i :: p.compile strategy scavenger s.pos.fn s.pos.blk l))
    (hs : (p.instrumented strategy scavenger).stepOrig s.pos s.frames s.m
      (p.compile strategy scavenger s.pos.fn s.pos.blk l) i = .next s') :
    Safe p strategy scavenger c top₀ s' := by
  have hin : p.Inside strategy scavenger
      { s.pos with rest := p.compile strategy scavenger s.pos.fn s.pos.blk l } :=
    ⟨b, l, hblock, (List.suffix_cons i l).trans hl, rfl⟩
  cases i with
  | metaInstr =>
      obtain rfl := Outcome.next.inj hs
      exact h.stay hb hlo hfr hlevel rfl rfl (.inl hin) rfl fun _ _ ↦ rfl
  | op o =>
      obtain rfl := Outcome.next.inj hs
      refine h.stay hb hlo hfr hlevel rfl rfl (.inl hin) rfl fun x hx ↦ ?_
      exact o.exec_mem_of_notMem s.m fun hc ↦ hb.stores _ o _ hst x hc hx
  | jmp target =>
      have hne : p.hasCalls s.pos.fn → target ≠ 0 := by
        rintro hf rfl
        rw [Program.reenters, hf, hst] at hre
        cases hre
      obtain ⟨hframes, hm, hfn, hpos⟩ := goto_inside hne hs
      exact h.stay hb hlo hfr hlevel hframes hfn hpos (by rw [hm]) fun _ _ ↦ by rw [hm]
  | jcc target cc =>
      rw [Code.stepOrig] at hs
      split at hs
      · next hcc =>
        have hne : p.hasCalls s.pos.fn → target ≠ 0 := by
          rintro hf rfl
          rw [Program.reenters, hf, hst] at hre
          simp [hcc] at hre
        obtain ⟨hframes, hm, hfn, hpos⟩ := goto_inside hne hs
        exact h.stay hb hlo hfr hlevel hframes hfn hpos (by rw [hm]) fun _ _ ↦ by rw [hm]
      · obtain rfl := Outcome.next.inj hs
        exact h.stay hb hlo hfr hlevel rfl rfl (.inl hin) rfl fun _ _ ↦ rfl
  | call callee ra => exact .inr (h.call hb hlo hfr hlevel hblock hl (hb.calls _ callee ra _ hst) hs)
  | ret | tailJmp | tailJmpCC => cases hi

/-- A function that is not instrumented is ready to return when it does. -/
theorem Inv.leaf_atReturn {s : State} {fr : Frame} {frames : List Frame} {i : Orig}
    (h : Inv p strategy scavenger c top₀ s) (hb : Behaves p c top₀ s) (hfr : s.frames = fr :: frames)
    (hf : p.hasCalls s.pos.fn = false) (hlevel : Level p s fr) (hnext : nextOrig s.pos.rest = some i)
    (hi : i.isReturn) : AtReturn p strategy scavenger c top₀ s.m fr frames := by
  constructor
  · exact h.gs
  · rw [← hfr]
    exact h.chain
  · rw [hlevel.1, hf]
    rfl
  · exact hb.restored i fr frames hnext hi hfr
  · exact hb.slot i fr frames hf hnext hi hfr

/-- Behind the last block is the trap block. -/
theorem blocks_trap {f : Nat} {b' : List Inst} (hf : p.hasCalls f)
    (h : ((p.instrumented strategy scavenger).funcs f).blocks[(p.funcs f).blocks.length]? = some b') :
    b' = [.trap] := by
  rcases blocks_instrumented hf h with ⟨b, hb, -⟩ | ⟨-, hb⟩
  · rw [List.getElem?_eq_none le_rfl] at hb
    cases hb
  · exact hb

/-- A step from inside a function keeps the invariant. -/
theorem Inv.next_inside {s s' : State} {fr : Frame} {frames : List Frame}
    (h : Inv p strategy scavenger c top₀ s) (hb : Behaves p c top₀ s) (hre : p.reenters s = false)
    (hlo : c.base + 16 ≤ top₀) (hfr : s.frames = fr :: frames) (hin : p.Inside strategy scavenger s.pos)
    (hlevel : Level p s fr) (hs : (p.instrumented strategy scavenger).step s = .next s') : Safe p strategy scavenger c top₀ s' := by
  cases hin.ahead with
  | done _ hst =>
      rw [Code.step, hst] at hs
      obtain ⟨hframes, hm, hfn, hpos⟩ := goto_inside (fun _ ↦ Nat.succ_ne_zero _) hs
      exact h.stay hb hlo hfr hlevel hframes hfn hpos (by rw [hm]) fun _ _ ↦ by rw [hm]
  | @plain b i l hnext hblock hl hor hst =>
      rw [step_of_stop _ (hst _)] at hs
      cases hi : i.isReturn with
      | false => exact h.plain hb hre hlo hfr hlevel hblock hl hi (hst _) hs
      | true =>
          have hf := hor.resolve_right (by rw [hi]; decide)
          rw [hfr] at hs
          exact .inr ((h.leaf_atReturn hb hfr hf hlevel hnext hi).inv hi
            (fun f cc hc ↦ hb.unconditional f cc (by rw [hnext, hc])) hs)
  | @ret b i l scratch hnext hblock hl hscratch hf hi hst =>
      have htop := hlevel.1
      rw [hf, Bool.toNat_true] at htop
      rcases h.at_return hb hlo hfr hin hf htop (hlevel.2 hf) hnext hi with
        ⟨-, -, m, hstep⟩ | ⟨-, m, rest, hready, hstep⟩
      · rw [hstep] at hs
        obtain ⟨b', hb', rfl⟩ := goto_eq_next hs
        exact .inl (blocks_trap hf hb')
      · rw [hstep] at hs
        exact .inr (hready.inv hi (fun f cc hc ↦ hb.unconditional f cc (by rw [hnext, hc])) hs)

/-- **One step keeps the shadow stack right.** -/
theorem Safe.next {s s' : State} (h : Safe p strategy scavenger c top₀ s) (hb : Behaves p c top₀ s)
    (hre : p.reenters s = false) (hlo : c.base + 16 ≤ top₀) (hs : (p.instrumented strategy scavenger).step s = .next s') :
    Safe p strategy scavenger c top₀ s' := by
  rcases h with htrap | h
  · rw [Code.step, htrap] at hs
    cases hs
  · obtain ⟨fr, frames, hfr⟩ := h.chain.exists_cons
    cases h.phase fr frames hfr with
    | inside hin hlevel => exact h.next_inside hb hre hlo hfr hin hlevel hs
    | entry hentry htop hsp hslot =>
        obtain ⟨s₁, h₁, hb₁, -, hlevel, hin, -, hframes, -, hre₁, hstep⟩ :=
          h.enter hb hlo hfr hentry htop hsp hslot
        rw [hstep] at hs
        exact h₁.next_inside hb₁ (hre₁.trans hre) hlo (hframes.trans hfr) hin hlevel hs

theorem Starts.safe {s : State} (h : Starts p strategy scavenger c top₀ s) :
    Safe p strategy scavenger c top₀ s := by
  obtain ⟨f, b, hb, hpos⟩ := h.entry
  obtain ⟨ra, hframes, hra⟩ := h.frames
  have hgoto : (p.instrumented strategy scavenger).goto s.frames s.m f 0 = .next s := by
    obtain ⟨pos, frames, m⟩ := s
    obtain rfl : pos = ⟨f, 0, b⟩ := hpos
    rw [Code.goto, hb]
  obtain ⟨-, -, -, hin⟩ := goto_entry hgoto
  refine .inr ⟨h.gs, ?_, fun fr frames hfr ↦ ?_⟩
  · rw [hframes]
    exact .root rfl rfl h.clear
  · obtain ⟨rfl, -⟩ := List.cons.inj (hframes.symm.trans hfr)
    rcases hin with hin | ⟨hin, hleaf⟩
    · exact .entry hin h.top rfl hra
    · refine .inside hin ⟨?_, fun hc ↦ ?_⟩
      · rw [h.top, hleaf]
        rfl
      · rw [hleaf] at hc
        cases hc

/-- A return of an instrumented function, from behind the preamble. -/
theorem Inv.returns {s : State} {fr : Frame} {frames : List Frame} {imm : Nat}
    (h : Inv p strategy scavenger c top₀ s) (hb : Behaves p c top₀ s) (hlo : c.base + 16 ≤ top₀)
    (hfr : s.frames = fr :: frames) (hin : p.Inside strategy scavenger s.pos) (hlevel : Level p s fr)
    (hnext : nextOrig s.pos.rest = some (.ret imm)) :
    if p.hasCalls s.pos.fn ∧ strategy = .trap ∧ load64 s.m.mem (s.m.regs .rsp) ≠ fr.ra then
      ∃ m, (p.instrumented strategy scavenger).step s =
        .next ⟨⟨s.pos.fn, (p.funcs s.pos.fn).blocks.length, [.trap]⟩, s.frames, m⟩
    else Returned fr frames ((p.instrumented strategy scavenger).step s) := by
  rw [hb.restored _ fr frames hnext rfl hfr]
  by_cases hf : p.hasCalls s.pos.fn = true
  · have htop := hlevel.1
    rw [hf, Bool.toNat_true] at htop
    rcases h.at_return hb hlo hfr hin hf htop (hlevel.2 hf) hnext rfl with
      ⟨htrap, hne, m, hstep⟩ | ⟨hok, m, rest, hready, hstep⟩
    · rw [if_pos ⟨hf, htrap, hne⟩]
      refine ⟨m, ?_⟩
      cases hin.ahead with
      | done hnone => rw [hnext] at hnone; cases hnone
      | plain hnext' _ _ hor =>
          obtain rfl := Option.some.inj (hnext.symm.trans hnext')
          rw [hf] at hor
          simp [Orig.isReturn] at hor
      | ret hnext' hblock hl _ _ hi =>
          have hb' : ((p.instrumented strategy scavenger).funcs s.pos.fn).blocks[(p.funcs s.pos.fn).blocks.length]? =
              some [.trap] := blocks_trap_of_return hf htrap hblock hl hi
          rw [hstep, Code.goto, hb']
    · rw [if_neg fun hc ↦ hok hc.2, hstep]
      exact hready.returned ..
  · rw [if_neg fun hc ↦ hf hc.1]
    rw [Bool.not_eq_true] at hf
    cases hin.ahead with
    | done hnone => rw [hnext] at hnone; cases hnone
    | ret _ _ _ _ hf' => rw [hf] at hf'; cases hf'
    | plain hnext' _ _ _ hst =>
        obtain rfl := Option.some.inj (hnext.symm.trans hnext')
        have hready := h.leaf_atReturn hb hfr hf hlevel hnext rfl
        rw [step_of_stop _ (hst _), hfr]
        exact hready.returned ..

/-- **Returns are safe.**  In every run of the instrumented program, a function returns to the call
that started it, or that started the chain of tail jumps it is at the end of, with `gs:[8]` as before
that call, whatever is in its return slot; or it goes to its trap block, if the strategy is `trap` and
the slot has another address.  The preamble runs again whenever an instrumented function goes back to its first
block, so that the run must not do that. -/
theorem run_returns {s₀ s : State} {es : List Unit} {fr : Frame} {frames : List Frame} {imm : Nat}
    (hstart : Starts p strategy scavenger c top₀ s₀)
    (hrun : Run (Guarded (fun s _ ↦ Behaves p c top₀ s ∧ p.reenters s = false)
      (p.instrumented strategy scavenger).Step) s₀ es s) (hb : Behaves p c top₀ s) (hfr : s.frames = fr :: frames)
    (hnext : nextOrig s.pos.rest = some (.ret imm)) :
    if p.hasCalls s.pos.fn ∧ strategy = .trap ∧ load64 s.m.mem (s.m.regs .rsp) ≠ fr.ra then
      ∃ m, (p.instrumented strategy scavenger).step s =
        .next ⟨⟨s.pos.fn, (p.funcs s.pos.fn).blocks.length, [.trap]⟩, s.frames, m⟩
    else Returned fr frames ((p.instrumented strategy scavenger).step s) := by
  have hlo := hstart.data.1
  have hsafe : Safe p strategy scavenger c top₀ s :=
    hrun.invariant hstart.safe fun _ _ _ h hs ↦ h.next hs.1.1 hs.1.2 hlo hs.2
  rcases hsafe with htrap | h
  · rw [htrap] at hnext
    cases hnext
  · cases h.phase fr frames hfr with
    | inside hin hlevel => exact h.returns hb hlo hfr hin hlevel hnext
    | entry hentry htop hsp hslot =>
        obtain ⟨s₁, h₁, hb₁, hpush, hlevel, hin, hfn, hframes, hnext₁, -, hstep⟩ :=
          h.enter hb hlo hfr hentry htop hsp hslot
        -- the slot is still what the call has pushed
        rw [if_neg fun hc ↦ hc.2.2 (by rw [hsp, hslot]), hstep]
        have hret := h₁.returns hb₁ hlo (hframes.trans hfr) hin hlevel (hnext₁.trans hnext)
        have hclear := h.chain
        rw [hfr] at hclear
        obtain ⟨hc₁, hc₂, hc₃⟩ := hclear.clear
        refine (if_neg fun hc ↦ hc.2.2 ?_).mp hret
        rw [hpush.regs, hsp, load64_congr hc₂ fun b hb hb' ↦ hpush.outside b (by omega) ?_ (by omega), hslot]
        unfold Chunk.Mem
        omega

/-! ## Runs -/

def Outcome.isHijacked : Outcome → Bool
  | .hijacked _ => true
  | _ => false

theorem Returned.not_isHijacked {fr : Frame} {frames : List Frame} {o : Outcome} (h : Returned fr frames o) :
    ¬ o.isHijacked := by
  cases h with
  | next => exact Bool.false_ne_true
  | exited => exact Bool.false_ne_true

/-- `Behaves`, computed. -/
def behaves (p : Program) (c : Chunk) (top₀ : Nat) (s : State) : Bool :=
  (match straight s.pos.rest s.m with
    | .stop m (.orig (.op o) :: _) => (o.writes m).all fun b ↦ !(c.base ≤ b && b < c.base + c.size)
    | .stop m (.orig (.call _ _) :: _) =>
        let sp := m.regs .rsp
        24 ≤ sp && sp ≤ 2 ^ 64 && (sp ≤ c.base || c.base + c.size ≤ sp - 24)
    | _ => true) &&
  (match nextOrig s.pos.rest, s.frames with
    | some i, fr :: _ => !i.isReturn ||
        s.m.regs .rsp == fr.sp && (p.hasCalls s.pos.fn || load64 s.m.mem fr.sp == fr.ra)
    | _, _ => true) &&
  (match nextOrig s.pos.rest with
    | some (.tailJmpCC _ _) => false
    | _ => true) &&
  top₀ + 8 * p.depth s ≤ c.base + c.size

theorem behaves_sound {s : State} (h : behaves p c top₀ s) : Behaves p c top₀ s := by
  simp only [behaves, Bool.and_eq_true, decide_eq_true_eq] at h
  obtain ⟨⟨⟨hst, hret⟩, hcc⟩, hdepth⟩ := h
  constructor
  · intro m o rest hs b hb hmem
    rw [hs] at hst
    have := List.all_eq_true.mp hst b hb
    unfold Chunk.Mem at hmem
    simp at this
    omega
  · intro m callee ra rest hs
    rw [hs] at hst
    simp at hst
    unfold Chunk.Clear
    omega
  · intro i fr frames hi hr hfr
    rw [hi, hfr] at hret
    simp [hr] at hret
    exact hret.1
  · intro i fr frames hf hi hr hfr
    rw [hi, hfr] at hret
    simp [hr, hf] at hret
    exact hret.2
  · intro f cc hc
    rw [hc] at hcc
    cases hcc
  · exact hdepth

/-- The steps from states that meet a condition, computed. -/
def runStep (code : Code) (cond : State → Bool) (s : State) (_ : Unit) : Option State :=
  if cond s then
    match code.step s with
    | .next s' => some s'
    | _ => none
  else none

/-- Overwrite the eight bytes at the stack pointer. -/
def smash : Op where
  uses r := r == .rsp
  defs _ := false
  usesFlags := false
  defsFlags := false
  loads _ := []
  result v _ _ := ⟨fun _ ↦ 0, default, (List.range 8).map fun i ↦ (v .rsp + i, 0x41)⟩

/-- A function that calls another one and overwrites its own return address. -/
def smashed : Program where
  funcs f := if f = 0 then ⟨[[.call (.direct 1) 0x401000, .op smash, .ret 0]]⟩ else ⟨[[.ret 0]]⟩
  address _ := none

/-- No register is ever free. -/
def noScratch (_ : Nat) : Scavenger := ⟨fun _ _ ↦ none, nofun⟩

def someChunk : Chunk := ⟨0x600000000000, 0x100000, by decide⟩

/-- A thread with an empty shadow stack. -/
def someMachine : Machine where
  regs r := if r = .rsp then 0x700000000000 else 0
  flags := default
  gs := 0x600000000000
  mem := store64 (store64 (fun _ ↦ 0) 0x600000000008 0x600000000010) 0x700000000000 0x400000
  regs_lt r := by
    split <;> decide

def smashedStart : State :=
  ⟨⟨0, 0, instrumentFront .blindWrite 1 (fun _ ↦ none) [.call (.direct 1) 0x401000, .op smash, .ret 0]⟩,
    [⟨none, 0x400000, 0x700000000000, 0x600000000010⟩], someMachine⟩

theorem smashed_starts :
    Starts smashed .blindWrite noScratch someChunk 0x600000000010 smashedStart where
  entry := ⟨0, _, rfl, rfl⟩
  frames := ⟨0x400000, rfl, by decide +kernel⟩
  gs := rfl
  top := by decide +kernel
  data := by decide
  clear := by
    unfold Chunk.Clear
    decide

theorem runStep_sound {code : Code} {cond : State → Bool} {P : State → Prop} (hcond : ∀ s, cond s → P s)
    {s s' : State} {e : Unit} (h : runStep code cond s e = some s') :
    Guarded (fun s _ ↦ P s) code.Step s e s' := by
  unfold runStep at h
  split at h
  · next hb =>
      split at h
      · next hs =>
          obtain rfl := Option.some.inj h
          exact ⟨hcond s hb, hs⟩
      · cases h
  · cases h

/-- The only call that has not returned, if the next instruction is a `RET`. -/
def State.returning (s : State) : Option Frame :=
  match nextOrig s.pos.rest, s.frames with
  | some (.ret _), [fr] => some fr
  | _, _ => none

theorem returning_eq_some {s : State} {fr : Frame} (h : s.returning = some fr) :
    s.frames = [fr] ∧ ∃ imm, nextOrig s.pos.rest = some (.ret imm) := by
  unfold State.returning at h
  split at h
  · next imm fr' hn hfr =>
      obtain rfl := Option.some.inj h
      exact ⟨hfr, imm, hn⟩
  · cases h

/-- The function returns although its return slot was overwritten. -/
theorem run_returns_smashed : ∃ s fr, Run (Guarded (fun s _ ↦ Behaves smashed someChunk 0x600000000010 s ∧
      smashed.reenters s = false) (smashed.instrumented .blindWrite noScratch).Step) smashedStart [(), (), ()] s ∧
    s.frames = [fr] ∧ fr.ra = 0x400000 ∧ load64 s.m.mem (s.m.regs .rsp) = 0x4141414141414141 ∧
    Returned fr [] ((smashed.instrumented .blindWrite noScratch).step s) := by
  have hcheck : ([(), (), ()].foldlM (runStep (smashed.instrumented .blindWrite noScratch)
      fun s ↦ behaves smashed someChunk 0x600000000010 s && !smashed.reenters s) smashedStart).any (fun s ↦
        behaves smashed someChunk 0x600000000010 s && s.returning.any (·.ra == 0x400000) &&
        load64 s.m.mem (s.m.regs .rsp) == 0x4141414141414141) = true := by
    decide +kernel
  obtain ⟨s, hs, hcheck⟩ := (Option.any_eq_true _ _).mp hcheck
  simp only [Bool.and_eq_true, beq_iff_eq] at hcheck
  obtain ⟨⟨hb, hret⟩, hslot⟩ := hcheck
  obtain ⟨fr, hfr, hra⟩ := (Option.any_eq_true _ _).mp hret
  obtain ⟨hframes, imm, hnext⟩ := returning_eq_some hfr
  have hcond : ∀ s, (behaves smashed someChunk 0x600000000010 s && !smashed.reenters s) = true →
      Behaves smashed someChunk 0x600000000010 s ∧ smashed.reenters s = false := by
    intro s h
    obtain ⟨hb, hre⟩ := (Bool.and_eq_true _ _).mp h
    exact ⟨behaves_sound hb, (Bool.not_eq_true' _).mp hre⟩
  have hrun := Run.of_foldlM (fun _ _ _ ↦ runStep_sound hcond) hs
  refine ⟨s, fr, hrun, hframes, by simpa using hra, hslot, ?_⟩
  have := run_returns smashed_starts hrun (behaves_sound hb) hframes hnext
  rwa [if_neg (by simp)] at this

/-- Overwrite the eight bytes at the stack pointer, and tell from `rax` whether this is the first time. -/
def smashAgain : Op where
  uses r := r == .rax || r == .rsp
  defs r := r == .rax
  usesFlags := false
  defsFlags := true
  loads _ := []
  result v _ _ := ⟨fun _ ↦ v .rax + 1, { (default : Flags) with zf := v .rax == 0 },
    (List.range 8).map fun i ↦ (v .rsp + i, 0x41)⟩

/-- A function that calls another one, overwrites its own return address, and does so once more from its first
block. -/
def looping : Program where
  funcs f :=
    if f = 0 then ⟨[[.call (.direct 1) 0x401000, .op smashAgain, .jcc 0 .e], [.ret 0]]⟩ else ⟨[[.ret 0]]⟩
  address _ := none

def loopingStart : State :=
  ⟨⟨0, 0, instrumentFront .blindWrite 2 (fun _ ↦ none)
      [.call (.direct 1) 0x401000, .op smashAgain, .jcc 0 .e]⟩,
    [⟨none, 0x400000, 0x700000000000, 0x600000000010⟩], someMachine⟩

theorem looping_starts :
    Starts looping .blindWrite noScratch someChunk 0x600000000010 loopingStart where
  entry := ⟨0, _, rfl, rfl⟩
  frames := ⟨0x400000, rfl, by decide +kernel⟩
  gs := rfl
  top := by decide +kernel
  data := by decide
  clear := by
    unfold Chunk.Clear
    decide

/-- The second preamble has pushed what the first round has written to the return slot. -/
theorem not_run_returns : ¬ ∀ (p : Program) strategy scavenger c top₀ s₀ s es fr frames imm,
    Starts p strategy scavenger c top₀ s₀ →
    Run (Guarded (fun s _ ↦ Behaves p c top₀ s) (p.instrumented strategy scavenger).Step) s₀ es s →
    Behaves p c top₀ s → s.frames = fr :: frames → nextOrig s.pos.rest = some (.ret imm) →
    if p.hasCalls s.pos.fn ∧ strategy = .trap ∧ load64 s.m.mem (s.m.regs .rsp) ≠ fr.ra then
      ∃ m, (p.instrumented strategy scavenger).step s =
        .next ⟨⟨s.pos.fn, (p.funcs s.pos.fn).blocks.length, [.trap]⟩, s.frames, m⟩
    else Returned fr frames ((p.instrumented strategy scavenger).step s) := by
  intro h
  have hcheck : ((List.replicate 9 ()).foldlM (runStep (looping.instrumented .blindWrite noScratch)
      (behaves looping someChunk 0x600000000010)) loopingStart).any (fun s ↦
        behaves looping someChunk 0x600000000010 s && s.returning.any (·.ra == 0x400000) &&
        ((looping.instrumented .blindWrite noScratch).step s).isHijacked) = true := by
    decide +kernel
  obtain ⟨s, hs, hcheck⟩ := (Option.any_eq_true _ _).mp hcheck
  simp only [Bool.and_eq_true] at hcheck
  obtain ⟨⟨hb, hret⟩, hhijacked⟩ := hcheck
  obtain ⟨fr, hfr, -⟩ := (Option.any_eq_true _ _).mp hret
  obtain ⟨hframes, imm, hnext⟩ := returning_eq_some hfr
  have hrun := Run.of_foldlM (fun _ _ _ ↦ runStep_sound fun s ↦ behaves_sound) hs
  have hreturned := h looping .blindWrite noScratch someChunk 0x600000000010 loopingStart s _ fr [] imm
    looping_starts hrun (behaves_sound hb) hframes hnext
  rw [if_neg (by simp)] at hreturned
  exact hreturned.not_isHijacked hhijacked

end ShadowStack.X86
