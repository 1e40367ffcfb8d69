import Mathlib.Data.List.Forall2
import ShadowStack.X86.Dead
import ShadowStack.X86.Integrity

/-!
# The instrumentation is transparent

The program and the instrumented program run side by side, an instruction of the program at a time.  At each
of them they agree but for the chunk and what is dead.
-/

namespace ShadowStack.X86

open Lib

/-- The instructions of the program that are still to come in a block. -/
def Pos.ahead (pos : Pos) : List Orig :=
  (pos.rest.filterMap fun i ↦
    match i with
    | .orig i => some i
    | _ => none).dropWhile Orig.isMeta

/-- The code before a return, where there is one. -/
def Dead.atReturn (d : Dead) (find : List Orig → Option Reg) (sp : Nat) : List Orig → Dead
  | [] => d
  | i :: l => if i.isReturn then d.popped (find (i :: l)) sp else d

section

variable (p : Program) (strategy : ViolationStrategy) (scavenger : Nat → Scavenger) (c : Chunk) (top₀ : Nat)

/-- The place is at the entry of a function. -/
def Program.entering (pos : Pos) : Bool :=
  pos.blk == 0 && (p.funcs pos.fn).blocks[0]?.any fun b ↦ b.length == pos.rest.length

/-- What is dead right before the next instruction of the program, behind the code inserted there. -/
def Program.deadAt (s : State) (d : Dead) : Dead :=
  if p.hasCalls s.pos.fn then
    (if p.entering s.pos then d.pushed (s.m.regs .rsp) else d).atReturn ((scavenger s.pos.fn).find s.pos.blk)
      (s.m.regs .rsp) s.pos.ahead
  else d

/-- What is dead after a step of the program. -/
def Program.track (s : State) (d : Dead) : Dead :=
  match s.pos.ahead with
  | [] => p.deadAt scavenger s d
  | i :: _ => (p.deadAt scavenger s d).after s.m i

/-- A step of the program without instrumentation, with what is dead. -/
def Program.TrackStep (x : State × Dead) (_ : Unit) (y : State × Dead) : Prop :=
  p.plain.step x.1 = .next y.1 ∧ y.2 = p.track scavenger x.1 x.2

/-- What the program itself keeps to: it does not store to the chunk, it has its stack elsewhere, return slots
have the address of the call when a function is left, with the stack pointer restored and unconditionally, the
calls fit the chunk, and nothing dead is read. -/
structure Keeps (s : State) (d : Dead) : Prop where
  stores : ∀ o l, s.pos.ahead = .op o :: l → ∀ b ∈ o.writes s.m, ¬ c.Mem b
  calls : ∀ callee ra l, s.pos.ahead = .call callee ra :: l → 8 ≤ s.m.regs .rsp ∧ c.Clear (s.m.regs .rsp - 8)
  returns : ∀ i l fr frames, s.pos.ahead = i :: l → i.isReturn → s.frames = fr :: frames →
    s.m.regs .rsp = fr.sp ∧ load64 s.m.mem fr.sp = fr.ra
  unconditional : ∀ f cc l, s.pos.ahead ≠ .tailJmpCC f cc :: l
  depth : top₀ + 8 * p.depth s ≤ c.base + c.size
  unread : ∀ i l, s.pos.ahead = i :: l → (p.deadAt scavenger s d).Unread c s.m i

/-! ## Side by side -/

/-- The same place in the program and in the instrumented program. -/
inductive Program.SamePlace : Pos → Pos → Prop
  | entry {f : Nat} {b : List Orig} : p.hasCalls f → (p.funcs f).blocks[0]? = some b →
      SamePlace ⟨f, 0, b.map .orig⟩
        ⟨f, 0, instrumentFront strategy (p.funcs f).blocks.length ((scavenger f).find 0) b⟩
  | inside {f blk : Nat} {b l : List Orig} : (p.funcs f).blocks[blk]? = some b → l <:+ b →
      (p.hasCalls f → p.entering ⟨f, blk, l.map .orig⟩ = false) →
      SamePlace ⟨f, blk, l.map .orig⟩ ⟨f, blk, p.compile strategy scavenger f blk l⟩

/-- The same call. -/
structure Program.SameFrame (fr fr' : Frame) : Prop where
  cont : Option.Rel (p.SamePlace strategy scavenger) fr.cont fr'.cont
  ra : fr'.ra = fr.ra
  sp : fr'.sp = fr.sp

/-- A state of the program and one of the instrumented program. -/
structure Program.Beside (d : Dead) (s s' : State) : Prop where
  place : p.SamePlace strategy scavenger s.pos s'.pos
  frames : List.Forall₂ (p.SameFrame strategy scavenger) s.frames s'.frames
  agrees : s.m.Agrees c d s'.m
  rsp : ¬ d.regs .rsp
  inv : Inv p strategy scavenger c top₀ s'

end

variable {p : Program} {strategy : ViolationStrategy} {scavenger : Nat → Scavenger} {c : Chunk} {top₀ : Nat}
  {d : Dead} {s s' : State} {m m' : Machine}

/-! ## Places -/

theorem ahead_map (f blk : Nat) (l : List Orig) : (⟨f, blk, l.map .orig⟩ : Pos).ahead = l.dropWhile Orig.isMeta := by
  unfold Pos.ahead
  rw [List.filterMap_map]
  congr 1
  exact List.filterMap_some

theorem isMeta_of_dropWhile {l r : List Orig} {i : Orig} (h : l.dropWhile Orig.isMeta = i :: r) : i.isMeta = false := by
  have hhead := List.head?_dropWhile_not Orig.isMeta l
  rw [h] at hhead
  simpa using hhead

namespace Program.SamePlace

variable {pos pos' : Pos}

theorem fn_eq (h : p.SamePlace strategy scavenger pos pos') : pos'.fn = pos.fn := by
  cases h <;> rfl

theorem blk_eq (h : p.SamePlace strategy scavenger pos pos') : pos'.blk = pos.blk := by
  cases h <;> rfl

/-- The instructions still to come are the end of a block. -/
theorem suffix (h : p.SamePlace strategy scavenger pos pos') :
    ∃ b, (p.funcs pos.fn).blocks[pos.blk]? = some b ∧ pos.ahead <:+ b := by
  cases h with
  | entry _ hb => exact ⟨_, hb, ahead_map _ _ _ ▸ List.dropWhile_suffix _⟩
  | inside hb hl _ => exact ⟨_, hb, ahead_map _ _ _ ▸ (List.dropWhile_suffix _).trans hl⟩

theorem isMeta (h : p.SamePlace strategy scavenger pos pos') {i : Orig} {l : List Orig} (hl : pos.ahead = i :: l) :
    i.isMeta = false := by
  cases h with
  | entry => exact isMeta_of_dropWhile ((ahead_map _ _ _).symm.trans hl)
  | inside => exact isMeta_of_dropWhile ((ahead_map _ _ _).symm.trans hl)

theorem straight_plain (h : p.SamePlace strategy scavenger pos pos') (m : Machine) :
    straight pos.rest m = .stop m (pos.ahead.map .orig) := by
  cases h with
  | entry => rw [ahead_map, straight_map]
  | inside => rw [ahead_map, straight_map]

/-- The next instruction is the same. -/
theorem next (h : p.SamePlace strategy scavenger pos pos') : nextOrig pos'.rest = pos.ahead.head? := by
  cases h with
  | entry => rw [ahead_map, nextOrig_instrumentFront]
  | @inside f blk b l hb hl _ =>
      rw [ahead_map]
      unfold Program.compile
      split
      · exact nextOrig_instrumentBlock l
      · exact nextOrig_map l

end Program.SamePlace

/-- A suffix of a block that is not all of it is not its entry. -/
theorem entering_suffix {f blk : Nat} {b l : List Orig} {i : Orig} (hb : (p.funcs f).blocks[blk]? = some b)
    (hl : i :: l <:+ b) : p.entering ⟨f, blk, l.map .orig⟩ = false := by
  have hlen := hl.length_le
  rw [List.length_cons] at hlen
  unfold Program.entering
  by_cases hblk : blk = 0
  · subst hblk
    have hne : (b.length == l.length) = false := by
      rw [beq_eq_false_iff_ne]
      omega
    simp only [hb, Option.any_some, List.length_map, hne, Bool.and_false]
  · simp [hblk]

theorem entering_block {f blk : Nat} (hblk : blk ≠ 0) (rest : List Inst) : p.entering ⟨f, blk, rest⟩ = false := by
  simp [Program.entering, hblk]

theorem entering_entry {f : Nat} {b : List Orig} (hb : (p.funcs f).blocks[0]? = some b) :
    p.entering ⟨f, 0, b.map .orig⟩ = true := by
  simp [Program.entering, hb]

/-- What a block has besides its own instructions comes from the returns. -/
theorem not_mem_instrumentBlock {trapBB : Nat} {find : List Orig → Option Reg} {j : Inst}
    (hret : ∀ scratch, j ∉ instrumentRet strategy trapBB scratch) (horig : ∀ i, j ≠ .orig i) (l : List Orig) :
    j ∉ instrumentBlock strategy trapBB find l := by
  induction l with
  | nil => exact List.not_mem_nil
  | cons i l ih =>
      intro hmem
      rw [instrumentBlock, List.mem_append, List.mem_cons] at hmem
      rcases hmem with hmem | hmem | hmem
      · split at hmem
        · exact hret _ hmem
        · cases hmem
      · exact horig i hmem
      · exact ih hmem

/-- Only the preamble moves `gs:[8]` up. -/
theorem add_not_mem_instrumentRet {trapBB : Nat} (r : Reg) (k : Nat) (scratch : Option Reg) :
    Inst.add64ri8 r k ∉ instrumentRet strategy trapBB scratch := by
  cases scratch <;> cases strategy <;> simp [instrumentRet, popAndEnforce, enforce]

theorem trap_not_mem_instrumentRet {trapBB : Nat} (scratch : Option Reg) :
    Inst.trap ∉ instrumentRet strategy trapBB scratch := by
  cases scratch <;> cases strategy <;> simp [instrumentRet, popAndEnforce, enforce]

theorem add_mem_instrumentFront (strategy : ViolationStrategy) (trapBB : Nat) (find : List Orig → Option Reg)
    (l : List Orig) : Inst.add64ri8 .r11 8 ∈ instrumentFront strategy trapBB find l := by
  induction l with
  | nil => simp [instrumentFront, preamble]
  | cons i l ih =>
      cases i with
      | metaInstr => exact List.mem_cons_of_mem _ ih
      | _ => exact List.mem_append_left _ (by simp [preamble])

/-- A place is not both at the entry and behind the preamble. -/
theorem not_atEntry {pos : Pos} (hin : p.Inside strategy scavenger pos) : ¬ p.AtEntry strategy scavenger pos := by
  rintro ⟨hf, -, b, -, hrest⟩
  obtain ⟨b', l, -, -, hrest'⟩ := hin
  have hmem := add_mem_instrumentFront strategy (p.funcs pos.fn).blocks.length ((scavenger pos.fn).find 0) b
  rw [← hrest, hrest', Program.compile, if_pos hf] at hmem
  exact not_mem_instrumentBlock (add_not_mem_instrumentRet _ _) (fun _ hc ↦ (by cases hc)) l hmem

/-! ## At an instruction of the program -/

/-- The machine in the body of an instrumented function, with the frame of its call. -/
structure Machine.InBody (c : Chunk) (fr : Frame) (m : Machine) : Prop where
  gs : m.gs = c.base
  lo : c.base + 16 ≤ fr.top
  hi : fr.top + 8 ≤ c.base + c.size
  top : m.top = fr.top + 8
  saved : load64 m.mem fr.top = fr.ra
  clear : c.Clear fr.sp

/-- A function can be left: the stack pointer is at the return slot, which has the address of the call. -/
def Leaves (c : Chunk) (d : Dead) (m : Machine) (fr : Frame) (l : List Orig) : Prop :=
  ∀ i r, l = i :: r → i.isReturn → m.regs .rsp = fr.sp ∧ load64 m.mem fr.sp = fr.ra ∧ d.Visible64 c (m.regs .rsp)

theorem atReturn_rsp {S : Scavenger} {blk sp : Nat} (h : ¬ d.regs .rsp) (l : List Orig) :
    ¬ (d.atReturn (S.find blk) sp l).regs .rsp := by
  unfold Dead.atReturn
  split
  · exact h
  · split
    · exact fun hc ↦ (Dead.popped_regs.mp hc).elim h (S.ne_rsp blk _)
    · exact h

/-- What comes in a block of an instrumented function, from an instruction on. -/
theorem straight_orig {i : Orig} (hi : i.isMeta = false) (rest : List Inst) (m : Machine) :
    straight (.orig i :: rest) m = .stop m (.orig i :: rest) := by
  cases i <;> first | rfl | cases hi

/-- The next instruction, and the code of the function behind it. -/
def Program.code (p : Program) (strategy : ViolationStrategy) (scavenger : Nat → Scavenger) (f blk : Nat) :
    List Orig → List Inst
  | [] => []
  | i :: l => .orig i :: p.compile strategy scavenger f blk l

/-- **In the body** of an instrumented function the machines agree when the next instruction is executed. -/
theorem Machine.InBody.boundary {fr : Frame} {f : Nat} (blk : Nat) {l : List Orig} (h : m'.InBody c fr)
    (hf : p.hasCalls f) (hag : m.Agrees c d m') (hrsp : ¬ d.regs .rsp) (hleaves : Leaves c d m fr l)
    (hmeta : ∀ i r, l = i :: r → i.isMeta = false) :
    ∃ m₁, m.Agrees c (d.atReturn ((scavenger f).find blk) (m.regs .rsp) l) m₁ ∧
      straight (instrumentBlock strategy (p.funcs f).blocks.length ((scavenger f).find blk) l) m' =
        .stop m₁ (p.code strategy scavenger f blk l) := by
  cases l with
  | nil => exact ⟨m', hag, rfl⟩
  | cons i r =>
      have hi := hmeta i r rfl
      rw [Program.code, Program.compile, if_pos hf]
      cases hret : i.isReturn with
      | false =>
          refine ⟨m', ?_, ?_⟩
          · rwa [Dead.atReturn, hret, if_neg (by decide)]
          · rw [instrumentBlock, hret, if_neg (by decide), List.nil_append]
            exact straight_orig hi _ _
      | true =>
          obtain ⟨hsp, hslot, hvis⟩ := hleaves i r rfl hret
          have hsp' : m'.regs .rsp = m.regs .rsp := hag.regs .rsp hrsp
          have hlo := h.lo
          have hhi := h.hi
          have htop := h.top
          obtain ⟨m₁, hpop, hstraight⟩ := instrumentRet_pops (m := m') (c := c) ((scavenger f).find blk (i :: r)) ⟨h.gs, by omega, by omega⟩
            (by omega) (by rw [hsp', hsp]; exact h.clear) ((scavenger f).ne_rsp blk _)
          have hsaved : load64 m'.mem (m'.top - 8) = fr.ra := by rw [htop, Nat.add_sub_cancel, h.saved]
          -- no trap: the return slot is what the call has pushed
          have hok : ¬ (strategy = .trap ∧ load64 m'.mem (m'.regs .rsp) ≠ load64 m'.mem (m'.top - 8)) := by
            rintro ⟨-, hne⟩
            refine hne ?_
            rw [hsp', hag.load64 hvis, hsaved, hsp, hslot]
          have hclear := h.clear
          refine ⟨m₁, ?_, ?_⟩
          · rw [Dead.atReturn, hret, if_pos rfl]
            refine hag.pop hsp' (by rw [hsp]; exact hclear.2.1) (hpop hok) ?_
            rw [hsaved, hsp, hslot]
          · rw [instrumentBlock, hret, if_pos rfl, hstraight, if_neg hok]
            exact straight_orig hi _ _

namespace Program.Beside

theorem depth_eq (h : p.Beside strategy scavenger c top₀ d s s') : p.depth s' = p.depth s := by
  have hframes := h.frames
  unfold Program.depth
  rw [h.place.fn_eq]
  congr 1
  generalize s.frames = l, s'.frames = l' at hframes
  induction hframes with
  | nil => rfl
  | @cons fr fr' frames frames' hfr _ ih =>
      have hcont : (fr'.cont.any fun pos ↦ p.hasCalls pos.fn) = fr.cont.any fun pos ↦ p.hasCalls pos.fn := by
        have hrel := hfr.cont
        generalize fr.cont = a, fr'.cont = b at hrel
        cases hrel with
        | none => rfl
        | some hpos =>
            rw [Option.any_some, Option.any_some, hpos.fn_eq]
      rw [List.countP_cons, List.countP_cons, ih, hcont]

theorem rsp_eq (h : p.Beside strategy scavenger c top₀ d s s') : s'.m.regs .rsp = s.m.regs .rsp :=
  h.agrees.regs .rsp h.rsp

/-- The frame of the innermost call, with the bounds that the depth of the calls gives. -/
theorem exists_frame (h : p.Beside strategy scavenger c top₀ d s s') (hk : Keeps p scavenger c top₀ s d)
    (hlo : c.base + 16 ≤ top₀) : ∃ fr frames fr' frames', s.frames = fr :: frames ∧ s'.frames = fr' :: frames' ∧
      p.SameFrame strategy scavenger fr fr' ∧ List.Forall₂ (p.SameFrame strategy scavenger) frames frames' ∧
      c.Clear fr'.sp ∧ c.base + 16 ≤ fr'.top ∧ fr'.top + 8 * (p.hasCalls s'.pos.fn).toNat ≤ c.base + c.size := by
  obtain ⟨fr', frames', hfr'⟩ := h.inv.chain.exists_cons
  have hframes := h.frames
  rw [hfr'] at hframes
  obtain ⟨fr, frames, hfr, hrest, hfr₂⟩ := List.forall₂_cons_right_iff.mp hframes
  have hchain := h.inv.chain
  rw [hfr'] at hchain
  have hdepth := hk.depth
  rw [← h.depth_eq] at hdepth
  obtain ⟨hlo', hhi⟩ := h.inv.onChunk hlo hfr' hdepth
  exact ⟨fr, frames, fr', frames', hfr₂, hfr', hfr, hrest, hchain.clear, hlo', hhi⟩

/-- What is asked of a return is asked of its frame in the instrumented program as well. -/
theorem leaves (hk : Keeps p scavenger c top₀ s d) {fr fr' : Frame} {frames : List Frame}
    (hfr : s.frames = fr :: frames) (hsame : p.SameFrame strategy scavenger fr fr') (d₁ : Dead)
    (hd : ∀ b, d₁.bytes b → (p.deadAt scavenger s d).bytes b) : Leaves c d₁ s.m fr' s.pos.ahead := by
  intro i r hl hi
  obtain ⟨hsp, hslot⟩ := hk.returns i r fr frames hl hi hfr
  have hunread := hk.unread i r hl
  have hvis : (p.deadAt scavenger s d).Visible64 c (s.m.regs .rsp) := by
    cases i with
    | ret => exact hunread
    | tailJmp => exact hunread.2
    | tailJmpCC => exact hunread.2
    | _ => cases hi
  rw [hsame.sp, hsame.ra]
  exact ⟨hsp, hslot, fun k hk ↦ ⟨(hvis k hk).1, fun hc ↦ (hvis k hk).2 (hd _ hc)⟩⟩

theorem atReturn_bytes (d : Dead) (find : List Orig → Option Reg) (sp : Nat) (l : List Orig) {b : Nat}
    (h : d.bytes b) : (d.atReturn find sp l).bytes b := by
  unfold Dead.atReturn
  split
  · exact h
  · split
    · exact Dead.popped_bytes.mpr (.inl h)
    · exact h

/-- Behind the preamble, which has pushed the return address. -/
theorem inBody_preamble (h : p.Beside strategy scavenger c top₀ d s s') {fr' : Frame} {frames' : List Frame}
    (hfr' : s'.frames = fr' :: frames') (hclear : c.Clear fr'.sp) (hlo : c.base + 16 ≤ fr'.top)
    (hhi : fr'.top + 8 ≤ c.base + c.size) (hentry : p.AtEntry strategy scavenger s'.pos) :
    ∃ m₁, m₁.InBody c fr' ∧ s.m.Agrees c (d.pushed (s.m.regs .rsp)) m₁ ∧
      ∀ rest, straight (preamble ++ rest) s'.m = straight rest m₁ := by
  cases h.inv.phase fr' frames' hfr' with
  | inside hin => exact absurd hentry (not_atEntry hin)
  | entry _ htop hsp hslot =>
      obtain ⟨m₁, hpush, hstraight⟩ := preamble_pushed (m := s'.m) (c := c)
        ⟨h.inv.gs, by omega, by omega⟩ (by omega) (by rw [hsp]; exact hclear)
      refine ⟨m₁, ⟨hpush.gs.trans h.inv.gs, hlo, hhi, by rw [hpush.top, htop], ?_, hclear⟩,
        h.agrees.preamble h.rsp_eq hpush, hstraight⟩
      rw [← htop, hpush.saved, hsp, hslot]

/-- From the body of an instrumented function. -/
theorem boundary_body (h : p.Beside strategy scavenger c top₀ d s s') (hk : Keeps p scavenger c top₀ s d)
    {fr fr' : Frame} {frames : List Frame} (hfr : s.frames = fr :: frames) (hsame : p.SameFrame strategy scavenger fr fr')
    (hf : p.hasCalls s.pos.fn) (d₁ : Dead) (hrsp : ¬ d₁.regs .rsp) {m₁ : Machine} (hbody : m₁.InBody c fr')
    (hag : s.m.Agrees c d₁ m₁) (hd : p.deadAt scavenger s d =
      d₁.atReturn ((scavenger s.pos.fn).find s.pos.blk) (s.m.regs .rsp) s.pos.ahead) :
    ∃ m₂, s.m.Agrees c (p.deadAt scavenger s d) m₂ ∧ ¬ (p.deadAt scavenger s d).regs .rsp ∧
      straight (instrumentBlock strategy (p.funcs s.pos.fn).blocks.length ((scavenger s.pos.fn).find s.pos.blk)
        s.pos.ahead) m₁ = .stop m₂ (p.code strategy scavenger s.pos.fn s.pos.blk s.pos.ahead) := by
  have hleaves : Leaves c d₁ s.m fr' s.pos.ahead := leaves hk hfr hsame d₁ fun b hb ↦ by
    rw [hd]
    exact atReturn_bytes _ _ _ _ hb
  obtain ⟨m₂, hag₂, hst⟩ := hbody.boundary s.pos.blk hf hag hrsp hleaves fun i r hl ↦ h.place.isMeta hl
  exact ⟨m₂, hd ▸ hag₂, hd ▸ atReturn_rsp hrsp _, hst⟩

theorem boundary_entry (h : p.Beside strategy scavenger c top₀ d s s') (hk : Keeps p scavenger c top₀ s d)
    (hlo : c.base + 16 ≤ top₀) {f : Nat} {b : List Orig} (hf : p.hasCalls f)
    (hb : (p.funcs f).blocks[0]? = some b) (hpos : s.pos = ⟨f, 0, b.map .orig⟩)
    (hpos' : s'.pos = ⟨f, 0, instrumentFront strategy (p.funcs f).blocks.length ((scavenger f).find 0) b⟩) :
    ∃ m₁, s.m.Agrees c (p.deadAt scavenger s d) m₁ ∧ ¬ (p.deadAt scavenger s d).regs .rsp ∧
      straight s'.pos.rest s'.m = .stop m₁ (p.code strategy scavenger s.pos.fn s.pos.blk s.pos.ahead) := by
  obtain ⟨fr, frames, fr', frames', hfr, hfr', hsame, -, hclear, hlo', hhi⟩ := h.exists_frame hk hlo
  have hentry : p.AtEntry strategy scavenger s'.pos := by
    rw [hpos']
    exact ⟨hf, rfl, b, hb, rfl⟩
  rw [hentry.1, Bool.toNat_true] at hhi
  obtain ⟨m₁, hbody, hag, hstraight⟩ := h.inBody_preamble hfr' hclear hlo' hhi hentry
  have hfn : p.hasCalls s.pos.fn := by rw [hpos]; exact hf
  have hd : p.deadAt scavenger s d = (d.pushed (s.m.regs .rsp)).atReturn ((scavenger s.pos.fn).find s.pos.blk)
      (s.m.regs .rsp) s.pos.ahead := by
    have hent : p.entering s.pos = true := by rw [hpos]; exact entering_entry hb
    rw [Program.deadAt, if_pos hfn, if_pos hent]
  obtain ⟨m₂, hag₂, hrsp, hst⟩ := h.boundary_body hk hfr hsame hfn (d.pushed (s.m.regs .rsp)) h.rsp hbody hag hd
  refine ⟨m₂, hag₂, hrsp, ?_⟩
  rw [← hst, hpos', straight_instrumentFront, hstraight, hpos, ahead_map]

theorem boundary_inside (h : p.Beside strategy scavenger c top₀ d s s') (hk : Keeps p scavenger c top₀ s d)
    (hlo : c.base + 16 ≤ top₀) {f blk : Nat} {b l : List Orig} (hb : (p.funcs f).blocks[blk]? = some b) (hl : l <:+ b)
    (hent : p.hasCalls f → p.entering ⟨f, blk, l.map .orig⟩ = false) (hpos : s.pos = ⟨f, blk, l.map .orig⟩)
    (hpos' : s'.pos = ⟨f, blk, p.compile strategy scavenger f blk l⟩) :
    ∃ m₁, s.m.Agrees c (p.deadAt scavenger s d) m₁ ∧ ¬ (p.deadAt scavenger s d).regs .rsp ∧
      straight s'.pos.rest s'.m = .stop m₁ (p.code strategy scavenger s.pos.fn s.pos.blk s.pos.ahead) := by
  obtain ⟨fr, frames, fr', frames', hfr, hfr', hsame, -, hclear, hlo', hhi⟩ := h.exists_frame hk hlo
  have hin : p.Inside strategy scavenger s'.pos := by
    rw [hpos']
    exact ⟨b, l, hb, hl, rfl⟩
  cases h.inv.phase fr' frames' hfr' with
  | entry hentry => exact absurd hentry (not_atEntry hin)
  | inside _ hlevel =>
      by_cases hf : p.hasCalls f = true
      · have hfn : p.hasCalls s.pos.fn := by rw [hpos]; exact hf
        have hfn' : p.hasCalls s'.pos.fn := by rw [hpos']; exact hf
        have htop := hlevel.1
        rw [hfn', Bool.toNat_true] at hhi htop
        have hd : p.deadAt scavenger s d = d.atReturn ((scavenger s.pos.fn).find s.pos.blk) (s.m.regs .rsp)
            s.pos.ahead := by
          have hent' : p.entering s.pos = false := by rw [hpos]; exact hent hf
          rw [Program.deadAt, if_pos hfn, hent', if_neg (by decide)]
        obtain ⟨m₂, hag₂, hrsp, hst⟩ := h.boundary_body hk hfr hsame hfn d h.rsp
          ⟨h.inv.gs, hlo', hhi, htop, hlevel.2 hfn', hclear⟩ h.agrees hd
        refine ⟨m₂, hag₂, hrsp, ?_⟩
        rw [← hst, hpos', Program.compile, if_pos hf, straight_instrumentBlock, hpos, ahead_map]
      · have hfn : ¬ p.hasCalls s.pos.fn := by rw [hpos]; exact hf
        have hd : p.deadAt scavenger s d = d := by rw [Program.deadAt, if_neg hfn]
        rw [hd]
        refine ⟨s'.m, h.agrees, h.rsp, ?_⟩
        rw [hpos', Program.compile, if_neg hf, straight_map, hpos, ahead_map]
        cases l.dropWhile Orig.isMeta with
        | nil => rfl
        | cons i r => rw [Program.code, Program.compile, if_neg hf]; rfl

/-- **At the next instruction of the program** the machines agree. -/
theorem boundary (h : p.Beside strategy scavenger c top₀ d s s') (hk : Keeps p scavenger c top₀ s d)
    (hlo : c.base + 16 ≤ top₀) : ∃ m₁, s.m.Agrees c (p.deadAt scavenger s d) m₁ ∧
      ¬ (p.deadAt scavenger s d).regs .rsp ∧
      straight s'.pos.rest s'.m = .stop m₁ (p.code strategy scavenger s.pos.fn s.pos.blk s.pos.ahead) := by
  have hplace := h.place
  generalize hpos : s.pos = pos, hpos' : s'.pos = pos' at hplace
  rw [← hpos, ← hpos']
  cases hplace with
  | entry hf hb => exact h.boundary_entry hk hlo hf hb hpos hpos'
  | inside hb hl hent => exact h.boundary_inside hk hlo hb hl hent hpos hpos'

end Program.Beside

/-! ## One instruction of the program -/

/-- The blocks of the instrumented program. -/
theorem blocks_of_program {f blk : Nat} {b : List Orig} (hb : (p.funcs f).blocks[blk]? = some b) :
    ((p.instrumented strategy scavenger).funcs f).blocks[blk]? = some (if p.hasCalls f ∧ blk = 0 then
      instrumentFront strategy (p.funcs f).blocks.length ((scavenger f).find blk) b
    else p.compile strategy scavenger f blk b) := by
  change (runOnMachineFunction strategy (scavenger f) (p.funcs f)).blocks[blk]? = _
  by_cases hf : p.hasCalls f = true
  · have hlt : blk < (p.funcs f).blocks.length := (List.getElem?_eq_some_iff.mp hb).1
    rw [runOnMachineFunction, if_pos (show (p.funcs f).hasCalls = true from hf),
      List.getElem?_append_left (by rwa [List.length_mapIdx]), List.getElem?_mapIdx, hb]
    simp only [Option.map_some, hf, true_and, Program.compile, if_true]
  · rw [runOnMachineFunction, if_neg (show ¬ (p.funcs f).hasCalls = true from hf), MachineFunction.plain,
      List.getElem?_map, hb, if_neg fun hc ↦ hf hc.1, Program.compile, if_neg hf]
    rfl

/-- To go to a block is to go to the same place. -/
theorem goto_beside (strategy : ViolationStrategy) (scavenger : Nat → Scavenger) {frames : List Frame}
    (frames' : List Frame) (m' : Machine) {f blk : Nat} {s₁ : State} (h : p.plain.goto frames m f blk = .next s₁) :
    ∃ pos pos', p.SamePlace strategy scavenger pos pos' ∧ s₁ = ⟨pos, frames, m⟩ ∧
      (p.instrumented strategy scavenger).goto frames' m' f blk = .next ⟨pos', frames', m'⟩ := by
  obtain ⟨b', hb', rfl⟩ := goto_eq_next h
  have hplain : ((p.funcs f).blocks.map (·.map .orig))[blk]? = some b' := hb'
  rw [List.getElem?_map, Option.map_eq_some_iff] at hplain
  obtain ⟨b, hb, rfl⟩ := hplain
  refine ⟨_, _, ?_, rfl, by rw [Code.goto, blocks_of_program hb]⟩
  by_cases hentry : p.hasCalls f = true ∧ blk = 0
  · obtain ⟨hf, rfl⟩ := hentry
    rw [if_pos ⟨hf, rfl⟩]
    exact .entry hf hb
  · rw [if_neg hentry]
    exact .inside hb List.suffix_rfl fun hf ↦ entering_block (fun hc ↦ hentry ⟨hf, hc⟩) _

namespace Machine.Agrees

/-- Calls and tail jumps go to the same function. -/
theorem resolve (h : m.Agrees c d m') {callee : Callee} (ht : d.Target c m callee) :
    (p.instrumented strategy scavenger).resolve m' callee = p.plain.resolve m callee := by
  cases callee with
  | direct f => rfl
  | reg r =>
      show p.address (m'.regs r) = p.address (m.regs r)
      rw [h.regs r ht]
  | mem a =>
      show p.address (Lib.load64 m'.mem (a.addr m')) = p.address (Lib.load64 m.mem (a.addr m))
      rw [h.addr ht.1, h.load64 ht.2]

/-- A call pushes the same address, and its slot is no longer dead. -/
theorem pushRet (h : m.Agrees c d m') (hrsp : ¬ d.regs .rsp) (hsp : 8 ≤ m.regs .rsp) (callee : Callee) (ra : Nat) :
    (Code.pushRet m ra).Agrees c (d.after m (.call callee ra)) (Code.pushRet m' ra) := by
  have hrsp' : m'.regs .rsp = m.regs .rsp := h.regs .rsp hrsp
  have hlt := m.regs_lt .rsp
  have hsub : wrapSub (m.regs .rsp) 8 = m.regs .rsp - 8 := wrapSub_of_le hsp hlt
  unfold Code.pushRet
  rw [hrsp', hsub]
  have hwrite : (m.write (m.regs .rsp - 8) ra).Agrees c (d.after m (.call callee ra))
      (m'.write (m.regs .rsp - 8) ra) := by
    refine ⟨h.regs, h.flags, h.gs, fun b hb hv ↦ ?_⟩
    show (if wrapSub b (m.regs .rsp - 8) < 8 then _ else m'.mem b) =
      if wrapSub b (m.regs .rsp - 8) < 8 then _ else m.mem b
    split
    · rfl
    · next hout =>
        refine h.mem b hb ⟨hv.1, fun hc ↦ hv.2 (Dead.after_call_bytes.mpr ⟨hc, ?_⟩)⟩
        by_contra hin
        rw [not_or, Nat.not_lt, Nat.not_le] at hin
        rw [wrapSub_of_le hin.1 hb] at hout
        omega
  exact hwrite.set _ _

end Machine.Agrees

/-- What both do next. -/
def Program.Steps (p : Program) (strategy : ViolationStrategy) (scavenger : Nat → Scavenger) (c : Chunk) (d : Dead)
    (o : Outcome) (s₁ : State) : Prop :=
  ∃ s₁', o = .next s₁' ∧ p.SamePlace strategy scavenger s₁.pos s₁'.pos ∧
    List.Forall₂ (p.SameFrame strategy scavenger) s₁.frames s₁'.frames ∧ s₁.m.Agrees c d s₁'.m ∧ ¬ d.regs .rsp

theorem goto_steps {frames frames' : List Frame} {f blk : Nat} {s₁ : State}
    (hframes : List.Forall₂ (p.SameFrame strategy scavenger) frames frames') (hag : m.Agrees c d m')
    (hrsp : ¬ d.regs .rsp) (h : p.plain.goto frames m f blk = .next s₁) :
    p.Steps strategy scavenger c d ((p.instrumented strategy scavenger).goto frames' m' f blk) s₁ := by
  obtain ⟨pos, pos', hplace, rfl, hgoto⟩ := goto_beside strategy scavenger frames' m' h
  exact ⟨_, hgoto, hplace, hframes, hag, hrsp⟩

theorem enter_steps {frames frames' : List Frame} {o : Option Nat} {s₁ : State}
    (hframes : List.Forall₂ (p.SameFrame strategy scavenger) frames frames') (hag : m.Agrees c d m')
    (hrsp : ¬ d.regs .rsp) (h : p.plain.enter frames m o = .next s₁) :
    p.Steps strategy scavenger c d ((p.instrumented strategy scavenger).enter frames' m' o) s₁ := by
  cases o with
  | none => cases h
  | some f => exact goto_steps hframes hag hrsp h

namespace Program.Beside

/-- Behind an instruction of a block. -/
theorem place_rest (h : p.Beside strategy scavenger c top₀ d s s') {i : Orig} {l : List Orig}
    (hl : s.pos.ahead = i :: l) : p.SamePlace strategy scavenger ⟨s.pos.fn, s.pos.blk, l.map .orig⟩
      ⟨s'.pos.fn, s'.pos.blk, p.compile strategy scavenger s.pos.fn s.pos.blk l⟩ := by
  obtain ⟨b, hb, hsuff⟩ := h.place.suffix
  rw [hl] at hsuff
  rw [h.place.fn_eq, h.place.blk_eq]
  exact .inside hb ((List.suffix_cons i l).trans hsuff) fun _ ↦ entering_suffix hb hsuff

/-- A return. -/
theorem ret_steps (h : p.Beside strategy scavenger c top₀ d s s') (hk : Keeps p scavenger c top₀ s d) {imm : Nat}
    {l : List Orig} (hl : s.pos.ahead = .ret imm :: l) (hag : s.m.Agrees c d' m') (hrsp : ¬ d'.regs .rsp)
    (hvis : d'.Visible64 c (s.m.regs .rsp)) {s₁ : State}
    (hs : Code.returnTo (load64 s.m.mem (s.m.regs .rsp)) (s.m.set .rsp (s.m.regs .rsp + 8 + imm)) s.frames = .next s₁) :
    p.Steps strategy scavenger c d'
      (Code.returnTo (load64 m'.mem (m'.regs .rsp)) (m'.set .rsp (m'.regs .rsp + 8 + imm)) s'.frames) s₁ := by
  rw [hag.regs .rsp hrsp, hag.load64 hvis]
  have hframes := h.frames
  rcases hfs : s.frames with _ | ⟨fr, frames⟩
  · rw [hfs] at hs
    cases hs
  · rw [hfs] at hs hframes
    obtain ⟨fr', frames', hfr, hrest, hfs'⟩ := List.forall₂_cons_left_iff.mp hframes
    obtain ⟨hsp, hslot⟩ := hk.returns _ l fr frames hl rfl hfs
    rw [hfs']
    rw [hsp, hslot] at hs ⊢
    have hcont := hfr.cont
    rw [Code.returnTo, if_pos rfl] at hs
    rw [Code.returnTo, if_pos hfr.ra.symm]
    generalize fr.cont = a, fr'.cont = b at hcont hs
    cases hcont with
    | none => cases hs
    | some hpos =>
        obtain rfl := Outcome.next.inj hs
        exact ⟨_, rfl, hpos, hrest, hag.set _ _, hrsp⟩

/-- **One instruction of the program**, in both. -/
theorem stepOrig (h : p.Beside strategy scavenger c top₀ d s s') (hk : Keeps p scavenger c top₀ s d) {i : Orig}
    {l : List Orig} (hl : s.pos.ahead = i :: l) (hag : s.m.Agrees c d' m') (hrsp : ¬ d'.regs .rsp)
    (hunread : d'.Unread c s.m i) {s₁ : State}
    (hs : p.plain.stepOrig s.pos s.frames s.m (l.map .orig) i = .next s₁) :
    p.Steps strategy scavenger c (d'.after s.m i) ((p.instrumented strategy scavenger).stepOrig s'.pos s'.frames m'
      (p.compile strategy scavenger s.pos.fn s.pos.blk l) i) s₁ := by
  have hfn := h.place.fn_eq
  cases i with
  | metaInstr => cases h.place.isMeta hl
  | op o =>
      obtain rfl := Outcome.next.inj hs
      exact ⟨_, rfl, h.place_rest hl, h.frames, hag.exec hunread, fun hc ↦ hrsp (Dead.after_op_regs.mp hc).1⟩
  | jmp target =>
      rw [Code.stepOrig, hfn]
      exact goto_steps h.frames hag hrsp hs
  | jcc target cc =>
      rw [Code.stepOrig] at hs ⊢
      rw [hag.flags hunread]
      split at hs
      · next hcc =>
          rw [if_pos hcc, hfn]
          exact goto_steps h.frames hag hrsp hs
      · next hcc =>
          rw [if_neg hcc]
          obtain rfl := Outcome.next.inj hs
          exact ⟨_, rfl, h.place_rest hl, h.frames, hag, hrsp⟩
  | call callee ra =>
      rw [Code.stepOrig] at hs ⊢
      rw [hag.resolve hunread]
      have hframe : p.SameFrame strategy scavenger
          ⟨some ⟨s.pos.fn, s.pos.blk, l.map .orig⟩, wrap ra, wrapSub (s.m.regs .rsp) 8, s.m.top⟩
          ⟨some ⟨s'.pos.fn, s'.pos.blk, p.compile strategy scavenger s.pos.fn s.pos.blk l⟩, wrap ra,
            wrapSub (m'.regs .rsp) 8, m'.top⟩ :=
        ⟨.some (h.place_rest hl), rfl, by rw [hag.regs .rsp hrsp]⟩
      exact enter_steps (.cons hframe h.frames) (hag.pushRet hrsp (hk.calls callee ra l hl).1 callee ra) hrsp hs
  | ret imm =>
      rw [Code.stepOrig] at hs ⊢
      exact h.ret_steps hk hl hag hrsp hunread hs
  | tailJmp callee =>
      rw [Code.stepOrig] at hs ⊢
      rw [hag.resolve hunread.1]
      exact enter_steps h.frames hag hrsp hs
  | tailJmpCC f cc => exact absurd hl (hk.unconditional f cc l)

/-- What is asked of the program makes the instrumented program behave. -/
theorem behaves (h : p.Beside strategy scavenger c top₀ d s s') (hk : Keeps p scavenger c top₀ s d)
    (hlo : c.base + 16 ≤ top₀) : Behaves p c top₀ s' := by
  obtain ⟨m₁, hag, hrsp, hst⟩ := h.boundary hk hlo
  have hahead : ∀ m i rest, straight s'.pos.rest s'.m = .stop m (.orig i :: rest) →
      m = m₁ ∧ ∃ l, s.pos.ahead = i :: l := by
    intro m i rest hs
    obtain ⟨rfl, hcode⟩ := Straight.stop.inj (hst.symm.trans hs)
    cases hl : s.pos.ahead with
    | nil =>
        rw [hl] at hcode
        cases hcode
    | cons i' l =>
        rw [hl] at hcode
        obtain ⟨hi, -⟩ := List.cons.inj hcode
        obtain rfl := Inst.orig.inj hi
        exact ⟨rfl, l, rfl⟩
  have hnext : ∀ i, nextOrig s'.pos.rest = some i → ∃ l, s.pos.ahead = i :: l := by
    intro i hi
    rw [h.place.next] at hi
    exact List.head?_eq_some_iff.mp hi
  have hframe : ∀ fr' frames', s'.frames = fr' :: frames' → ∃ fr frames, s.frames = fr :: frames ∧
      p.SameFrame strategy scavenger fr fr' := by
    intro fr' frames' hfr'
    have hframes := h.frames
    rw [hfr'] at hframes
    obtain ⟨fr, frames, hfr, -, hfs⟩ := List.forall₂_cons_right_iff.mp hframes
    exact ⟨fr, frames, hfs, hfr⟩
  constructor
  · intro m o rest hs b hb
    obtain ⟨rfl, l, hl⟩ := hahead m (.op o) rest hs
    obtain ⟨hregs, hflags, hreads⟩ := hk.unread _ _ hl
    refine hk.stores o l hl b ?_
    unfold Op.writes at hb ⊢
    rwa [hag.output hregs hflags hreads] at hb
  · intro m callee ra rest hs
    obtain ⟨rfl, l, hl⟩ := hahead m (.call callee ra) rest hs
    rw [hag.regs .rsp hrsp]
    exact hk.calls callee ra l hl
  · intro i fr' frames' hi hret hfr'
    obtain ⟨l, hl⟩ := hnext i hi
    obtain ⟨fr, frames, hfr, hsame⟩ := hframe fr' frames' hfr'
    rw [h.rsp_eq, hsame.sp]
    exact (hk.returns i l fr frames hl hret hfr).1
  · intro i fr' frames' hf hi hret hfr'
    obtain ⟨l, hl⟩ := hnext i hi
    obtain ⟨fr, frames, hfr, hsame⟩ := hframe fr' frames' hfr'
    have hd : p.deadAt scavenger s d = d := by
      rw [h.place.fn_eq] at hf
      rw [Program.deadAt, if_neg (by rw [hf]; decide)]
    obtain ⟨hsp, hslot, hvis⟩ := leaves hk hfr hsame d (fun b hb ↦ by rwa [hd]) i l hl hret
    rw [hsp] at hvis
    rw [h.agrees.load64 hvis, hslot]
  · intro f cc hc
    obtain ⟨l, hl⟩ := hnext _ hc
    exact hk.unconditional f cc l hl
  · rw [h.depth_eq]
    exact hk.depth

/-- Both go back to the first block, or none does. -/
theorem reenters_eq (h : p.Beside strategy scavenger c top₀ d s s') (hk : Keeps p scavenger c top₀ s d)
    (hlo : c.base + 16 ≤ top₀) : p.reenters s' = p.reenters s := by
  obtain ⟨m₁, hag, hrsp, hst⟩ := h.boundary hk hlo
  rw [Program.reenters, Program.reenters, hst, h.place.straight_plain s.m, h.place.fn_eq]
  cases hl : s.pos.ahead with
  | nil => rfl
  | cons i l =>
      cases i with
      | jcc target cc =>
          have hflags : m₁.flags = s.m.flags := hag.flags (hk.unread _ l hl)
          simp only [Program.code, List.map_cons, hflags]
      | _ => rfl

end Program.Beside

theorem trap_not_mem_instrumentFront {trapBB : Nat} {find : List Orig → Option Reg} (l : List Orig) :
    Inst.trap ∉ instrumentFront strategy trapBB find l := by
  have hblock : ∀ l, Inst.trap ∉ preamble ++ instrumentBlock strategy trapBB find l := by
    intro l hmem
    rcases List.mem_append.mp hmem with hmem | hmem
    · simp [preamble] at hmem
    · exact not_mem_instrumentBlock trap_not_mem_instrumentRet (fun _ hc ↦ (by cases hc)) l hmem
  induction l with
  | nil => exact hblock []
  | cons i l ih =>
      cases i with
      | metaInstr => exact fun hmem ↦ ih ((List.mem_cons.mp hmem).resolve_left fun hc ↦ (by cases hc))
      | _ => exact hblock _

/-- The trap block is no place of the program. -/
theorem Program.SamePlace.ne_trap {pos pos' : Pos} (h : p.SamePlace strategy scavenger pos pos') :
    pos'.rest ≠ [.trap] := by
  have hmem : Inst.trap ∉ pos'.rest := by
    cases h with
    | entry => exact trap_not_mem_instrumentFront _
    | @inside f blk b l =>
        show Inst.trap ∉ p.compile strategy scavenger f blk l
        unfold Program.compile
        split
        · exact not_mem_instrumentBlock trap_not_mem_instrumentRet (fun _ hc ↦ (by cases hc)) l
        · simp
  intro hc
  rw [hc] at hmem
  exact hmem List.mem_cons_self

/-- **One step** of the program is one step of the instrumented program. -/
theorem Program.Beside.step (h : p.Beside strategy scavenger c top₀ d s s') (hk : Keeps p scavenger c top₀ s d)
    (hre : p.reenters s = false) (hlo : c.base + 16 ≤ top₀) {s₁ : State} (hs : p.plain.step s = .next s₁) :
    ∃ s₁', (p.instrumented strategy scavenger).step s' = .next s₁' ∧
      p.Beside strategy scavenger c top₀ (p.track scavenger s d) s₁ s₁' := by
  obtain ⟨m₁, hag, hrsp, hst⟩ := h.boundary hk hlo
  have hplain := h.place.straight_plain s.m
  have hsteps : p.Steps strategy scavenger c (p.track scavenger s d)
      ((p.instrumented strategy scavenger).step s') s₁ := by
    unfold Program.track
    cases hl : s.pos.ahead with
    | nil =>
        rw [hl] at hplain hst
        rw [Code.step, hplain] at hs
        rw [Code.step, hst]
        show p.Steps strategy scavenger c _
          ((p.instrumented strategy scavenger).goto s'.frames m₁ s'.pos.fn (s'.pos.blk + 1)) s₁
        rw [h.place.fn_eq, h.place.blk_eq]
        exact goto_steps h.frames hag hrsp hs
    | cons i l =>
        rw [hl] at hplain hst
        rw [step_of_stop _ hplain] at hs
        rw [step_of_stop _ hst]
        exact h.stepOrig hk hl hag hrsp (hk.unread i l hl) hs
  obtain ⟨s₁', heq, hplace, hframes, hag₁, hrsp₁⟩ := hsteps
  refine ⟨s₁', heq, hplace, hframes, hag₁, hrsp₁, ?_⟩
  have hsafe : Safe p strategy scavenger c top₀ s₁' := Safe.next (.inr h.inv) (h.behaves hk hlo)
    ((h.reenters_eq hk hlo).trans hre) hlo heq
  exact hsafe.resolve_left hplace.ne_trap

/-! ## Runs -/

/-- A thread of the program and one of the instrumented program start in the same function, with the same
machine. -/
def SameStart (p : Program) (strategy : ViolationStrategy) (scavenger : Nat → Scavenger) (s₀ s₀' : State) : Prop :=
  ∃ f frames m, p.plain.goto frames m f 0 = .next s₀ ∧
    (p.instrumented strategy scavenger).goto frames m f 0 = .next s₀'

theorem SameStart.beside {s₀ s₀' : State} (h : SameStart p strategy scavenger s₀ s₀')
    (hstart : Starts p strategy scavenger c top₀ s₀') : p.Beside strategy scavenger c top₀ .none s₀ s₀' := by
  obtain ⟨f, frames, m, hplain, hinst⟩ := h
  obtain ⟨pos, pos', hplace, rfl, hgoto⟩ := goto_beside strategy scavenger frames m hplain
  obtain rfl := Outcome.next.inj (hgoto.symm.trans hinst)
  refine ⟨hplace, ?_, .refl c m, Bool.false_ne_true, hstart.safe.resolve_left hplace.ne_trap⟩
  obtain ⟨ra, hframes, -⟩ := hstart.frames
  show List.Forall₂ _ frames frames
  rw [show frames = _ from hframes]
  exact .cons ⟨.none, rfl, rfl⟩ .nil

/-- **Runs**: the instrumented program follows the program. -/
theorem run_beside {s₀ s₀' : State} {es : List Unit} {x : State × Dead} (hsame : SameStart p strategy scavenger s₀ s₀')
    (hstart : Starts p strategy scavenger c top₀ s₀')
    (hrun : Run (Guarded (fun x _ ↦ Keeps p scavenger c top₀ x.1 x.2 ∧ p.reenters x.1 = false)
      (p.TrackStep scavenger)) (s₀, .none) es x) :
    ∃ s', Run (p.instrumented strategy scavenger).Step s₀' es s' ∧
      p.Beside strategy scavenger c top₀ x.2 x.1 s' := by
  induction hrun with
  | nil => exact ⟨s₀', .nil, hsame.beside hstart⟩
  | @snoc es e x y _ hs ih =>
      obtain ⟨⟨hk, hre⟩, hstep, hdead⟩ := hs
      obtain ⟨s', hr, hb⟩ := ih
      obtain ⟨s₁', hstep', hb'⟩ := hb.step hk hre hstart.data.1 hstep
      exact ⟨s₁', hr.snoc hstep', hdead ▸ hb'⟩

/-- At an instruction of the program: the instrumented program is there as well, with the same calls; and behind
the inserted code the machines agree but for the chunk and what is dead. -/
structure Transparent (p : Program) (strategy : ViolationStrategy) (scavenger : Nat → Scavenger) (c : Chunk)
    (s : State) (d : Dead) (s' : State) : Prop where
  fn : s'.pos.fn = s.pos.fn
  blk : s'.pos.blk = s.pos.blk
  frames : List.Forall₂ (fun fr fr' ↦ fr'.ra = fr.ra ∧ fr'.sp = fr.sp) s.frames s'.frames
  boundary : ∃ m' rest, straight s'.pos.rest s'.m = .stop m' rest ∧
    rest.head? = s.pos.ahead.head?.map .orig ∧ m'.regs .rsp = s.m.regs .rsp ∧
      s.m.Agrees c (p.deadAt scavenger s d) m'
  /-- The thread ends when the other does. -/
  exits : ∀ m, p.plain.step s = .exited m → ∃ m', (p.instrumented strategy scavenger).step s' = .exited m' ∧
    m.Agrees c (p.deadAt scavenger s d) m'

/-- Only a return ends a thread. -/
theorem exited_inv {code : Code} {pos : Pos} {frames : List Frame} {rest : List Inst} {i : Orig} {m₁ : Machine}
    (h : code.stepOrig pos frames m rest i = .exited m₁) :
    ∃ imm, i = .ret imm ∧ m₁ = m.set .rsp (m.regs .rsp + 8 + imm) ∧
      ∃ fr frames', frames = fr :: frames' ∧ fr.cont = none := by
  have hgoto : ∀ frames m f blk, code.goto frames m f blk ≠ .exited m₁ := by
    intro frames m f blk hc
    unfold Code.goto at hc
    split at hc <;> cases hc
  have henter : ∀ frames m o, code.enter frames m o ≠ .exited m₁ := by
    intro frames m o hc
    unfold Code.enter at hc
    split at hc
    · exact hgoto _ _ _ _ hc
    · cases hc
  cases i with
  | ret imm =>
      rw [Code.stepOrig] at h
      unfold Code.returnTo at h
      split at h
      · cases h
      · next fr frames' =>
          split at h
          · split at h
            · cases h
            · next hcont => exact ⟨imm, rfl, (Outcome.exited.inj h).symm, fr, frames', rfl, hcont⟩
          · cases h
  | metaInstr => cases h
  | op o => cases h
  | jmp target => exact absurd h (hgoto _ _ _ _)
  | jcc target cc =>
      rw [Code.stepOrig] at h
      split at h
      · exact absurd h (hgoto _ _ _ _)
      · cases h
  | call callee ra => exact absurd h (henter _ _ _)
  | tailJmp callee => exact absurd h (henter _ _ _)
  | tailJmpCC f cc =>
      rw [Code.stepOrig] at h
      split at h
      · exact absurd h (hgoto _ _ _ _)
      · cases h

/-- The thread ends in both. -/
theorem Program.Beside.exits (h : p.Beside strategy scavenger c top₀ d s s') (hk : Keeps p scavenger c top₀ s d)
    (hlo : c.base + 16 ≤ top₀) {m₁ : Machine} (hs : p.plain.step s = .exited m₁) :
    ∃ m₁', (p.instrumented strategy scavenger).step s' = .exited m₁' ∧
      m₁.Agrees c (p.deadAt scavenger s d) m₁' := by
  obtain ⟨m', hag, hrsp, hst⟩ := h.boundary hk hlo
  have hplain := h.place.straight_plain s.m
  cases hl : s.pos.ahead with
  | nil =>
      rw [hl] at hplain
      rw [Code.step, hplain] at hs
      have hgoto : p.plain.goto s.frames s.m s.pos.fn (s.pos.blk + 1) = .exited m₁ := hs
      unfold Code.goto at hgoto
      split at hgoto <;> cases hgoto
  | cons i l =>
      rw [hl] at hplain hst
      rw [step_of_stop _ hplain] at hs
      obtain ⟨imm, rfl, rfl, fr, frames, hfr, hcont⟩ := exited_inv hs
      have hframes := h.frames
      rw [hfr] at hframes
      obtain ⟨fr', frames', hsame, -, hfr'⟩ := List.forall₂_cons_left_iff.mp hframes
      obtain ⟨hsp, hslot⟩ := hk.returns _ l fr frames hl rfl hfr
      have hvis : (p.deadAt scavenger s d).Visible64 c (s.m.regs .rsp) := hk.unread _ l hl
      have hcont' : fr'.cont = none := by
        have hrel := hsame.cont
        rw [hcont] at hrel
        generalize fr'.cont = a at hrel ⊢
        cases hrel
        rfl
      refine ⟨m'.set .rsp (s.m.regs .rsp + 8 + imm), ?_, hag.set _ _⟩
      rw [step_of_stop _ hst, Code.stepOrig, Code.returnTo.eq_def, hfr', hag.regs .rsp hrsp, hag.load64 hvis]
      simp only [hcont']
      rw [if_pos (by rw [hsp, hslot, hsame.ra])]

theorem Program.Beside.transparent (h : p.Beside strategy scavenger c top₀ d s s')
    (hk : Keeps p scavenger c top₀ s d) (hlo : c.base + 16 ≤ top₀) : Transparent p strategy scavenger c s d s' where
  fn := h.place.fn_eq
  blk := h.place.blk_eq
  frames := h.frames.imp fun _ _ hfr ↦ ⟨hfr.ra, hfr.sp⟩
  boundary := by
    obtain ⟨m', hag, hrsp, hst⟩ := h.boundary hk hlo
    refine ⟨m', _, hst, ?_, hag.regs .rsp hrsp, hag⟩
    cases s.pos.ahead <;> rfl
  exits _ hs := h.exits hk hlo hs

/-- **The instrumentation is transparent**: the instrumented program follows every run of the program that keeps
to its stack, reads nothing dead, and does not go back to the first block of a function where the preamble is. -/
theorem run_transparent {s₀ s₀' : State} {es : List Unit} (hsame : SameStart p strategy scavenger s₀ s₀')
    (hstart : Starts p strategy scavenger c top₀ s₀')
    (hrun : Run (Guarded (fun x _ ↦ Keeps p scavenger c top₀ x.1 x.2 ∧ p.reenters x.1 = false)
      (p.TrackStep scavenger)) (s₀, .none) es (s, d)) (hk : Keeps p scavenger c top₀ s d) :
    ∃ s', Run (p.instrumented strategy scavenger).Step s₀' es s' ∧ Transparent p strategy scavenger c s d s' := by
  obtain ⟨s', hr, hb⟩ := run_beside hsame hstart hrun
  exact ⟨s', hr, hb.transparent hk hstart.data.1⟩

/-! ## A run -/

/-- `sub rsp, 16`. -/
def grow : Op where
  uses r := r == .rsp
  defs r := r == .rsp
  usesFlags := false
  defsFlags := true
  loads _ := []
  result v _ _ := ⟨fun _ ↦ wrapSub (v .rsp) 16, default, []⟩

/-- A function that makes a frame of sixteen bytes. -/
def framed : Program where
  funcs f := if f = 0 then ⟨[[.op grow, .call (.direct 1) 0x401000, .ret 0]]⟩ else ⟨[[.ret 0]]⟩
  address _ := none

def framedFrames : List Frame := [⟨none, 0x400000, 0x700000000000, 0x600000000010⟩]

def framedMachine : Machine := someMachine.set .r11 7

def framedStart : State :=
  ⟨⟨0, 0, [.orig (.op grow), .orig (.call (.direct 1) 0x401000), .orig (.ret 0)]⟩, framedFrames, framedMachine⟩

def framedStart' : State :=
  ⟨⟨0, 0, instrumentFront .blindWrite 1 (fun _ ↦ none) [.op grow, .call (.direct 1) 0x401000, .ret 0]⟩, framedFrames,
    framedMachine⟩

/-- Behind the instruction that makes the frame. -/
def framedNext : State :=
  ⟨⟨0, 0, [.orig (.call (.direct 1) 0x401000), .orig (.ret 0)]⟩, framedFrames, grow.exec framedMachine⟩

theorem framed_sameStart : SameStart framed .blindWrite noScratch framedStart framedStart' :=
  ⟨0, framedFrames, framedMachine, rfl, rfl⟩

theorem framed_starts : Starts framed .blindWrite noScratch someChunk 0x600000000010 framedStart' where
  entry := ⟨0, _, rfl, rfl⟩
  frames := ⟨0x400000, rfl, by decide +kernel⟩
  gs := rfl
  top := by decide +kernel
  data := by decide
  clear := by
    unfold Chunk.Clear
    decide

theorem framedStart_keeps : Keeps framed noScratch someChunk 0x600000000010 framedStart .none where
  stores o l hl b hb := by
    obtain rfl := Orig.op.inj (List.cons.inj hl).1
    cases hb
  calls callee ra l hl := by cases hl
  returns i l fr frames hl hi := by
    obtain rfl := (List.cons.inj hl).1
    cases hi
  unconditional f cc l hl := by cases hl
  depth := by decide +kernel
  unread i l hl := by
    obtain rfl := (List.cons.inj hl).1
    exact ⟨fun r _ ↦ Bool.false_ne_true, fun h ↦ absurd h Bool.false_ne_true, fun b hb ↦ absurd hb List.not_mem_nil⟩

theorem framedNext_keeps (d : Dead) : Keeps framed noScratch someChunk 0x600000000010 framedNext d where
  stores o l hl := by cases hl
  calls callee ra l hl := by
    unfold Chunk.Clear
    decide +kernel
  returns i l fr frames hl hi := by
    obtain rfl := (List.cons.inj hl).1
    cases hi
  unconditional f cc l hl := by cases hl
  depth := by decide +kernel
  unread i l hl := by
    obtain rfl := (List.cons.inj hl).1
    trivial

theorem framed_run : Run (Guarded (fun x _ ↦ Keeps framed noScratch someChunk 0x600000000010 x.1 x.2 ∧
      framed.reenters x.1 = false) (framed.TrackStep noScratch)) (framedStart, .none) [()]
    (framedNext, framed.track noScratch framedStart .none) :=
  .single ⟨⟨framedStart_keeps, rfl⟩, rfl, rfl⟩

/-- The frame of the function is there in both. -/
theorem run_transparent_framed : ∃ s', Run (framed.instrumented .blindWrite noScratch).Step framedStart' [()] s' ∧
    Transparent framed .blindWrite noScratch someChunk framedNext (framed.track noScratch framedStart .none) s' :=
  run_transparent framed_sameStart framed_starts framed_run (framedNext_keeps _)

/-- A byte of memory after a step, when only the program's own instruction comes next. -/
def Code.byteAfter (code : Code) (s : State) (b : Nat) : Option UInt8 :=
  match code.step s with
  | .next s' =>
      match straight s'.pos.rest s'.m with
      | .stop m' _ => some (m'.mem b)
      | _ => none
  | _ => none

theorem byteAfter_eq_some {code : Code} {s : State} {b : Nat} {v : UInt8} (h : code.byteAfter s b = some v) :
    ∃ s' m' rest, code.step s = .next s' ∧ straight s'.pos.rest s'.m = .stop m' rest ∧ m'.mem b = v := by
  unfold Code.byteAfter at h
  split at h
  · next s' hs =>
      split at h
      · next m' rest hst => exact ⟨s', m', rest, hs, hst, Option.some.inj h⟩
      · cases h
  · cases h

/-- In the frame are the registers that the preamble has saved, not what was there before. -/
theorem not_same_above :
    Run (Guarded (fun x _ ↦ Keeps framed noScratch someChunk 0x600000000010 x.1 x.2 ∧ framed.reenters x.1 = false)
      (framed.TrackStep noScratch)) (framedStart, .none) [()] (framedNext, framed.track noScratch framedStart .none) ∧
    Keeps framed noScratch someChunk 0x600000000010 framedNext (framed.track noScratch framedStart .none) ∧
    ¬ ∀ s', Run (framed.instrumented .blindWrite noScratch).Step framedStart' [()] s' →
      ∀ m' rest, straight s'.pos.rest s'.m = .stop m' rest → ∀ b < 2 ^ 64, framedNext.m.regs .rsp ≤ b →
        ¬ someChunk.Mem b → m'.mem b = framedNext.m.mem b := by
  refine ⟨framed_run, framedNext_keeps _, fun h ↦ ?_⟩
  obtain ⟨s', m', rest, hs, hst, hbyte⟩ := byteAfter_eq_some
    (show (framed.instrumented .blindWrite noScratch).byteAfter framedStart' 0x6ffffffffff8 = some 7 by decide +kernel)
  have hsame := h s' (.single hs) m' rest hst 0x6ffffffffff8 (by decide) (by decide +kernel)
    (by unfold Chunk.Mem; decide)
  rw [hbyte] at hsame
  exact absurd hsame (by decide +kernel)

end ShadowStack.X86
