import ShadowStack.X86.Machine

/-!
# The machine pass

`shadow_stack_x86/X86ShadowStack.cpp`: a function with calls pushes its return address on the shadow
stack before its first instruction, and pops it before each of its returns.

The register scavenger is a parameter: a scratch register for a terminator, from the block and the
instructions of the block that are still to come.
-/

namespace ShadowStack.X86

/-- `ViolationStrategy`. -/
inductive ViolationStrategy where
  | blindWrite
  | trap
deriving DecidableEq, Repr

/-- A function as its list of blocks; the first one is the entry, and a block without a final branch
continues with the next. -/
structure MachineFunction (ι : Type) where
  blocks : List (List ι)

/-- What `scavengeRegisterBackwards` returns, by block and remaining instructions.  The stack pointer
is reserved. -/
structure Scavenger where
  find : Nat → List Orig → Option Reg
  ne_rsp : ∀ blk l, find blk l ≠ some .rsp

namespace MachineFunction

/-- `getFrameInfo().hasCalls()`. -/
def hasCalls (mf : MachineFunction Orig) : Bool := mf.blocks.any (·.any Orig.isCall)

/-- The function as it is. -/
def plain (mf : MachineFunction Orig) : MachineFunction Inst := ⟨mf.blocks.map (·.map .orig)⟩

end MachineFunction

/-- `gs:[8]`. -/
def topOp : MemOp := ⟨none, 1, none, 8, true⟩

/-- `instrumentPreamble`, the instructions it inserts. -/
def preamble : List Inst :=
  [.push64r .r11,
   .push64r .r10,
   .mov64rm .r11 topOp,
   .mov64rm .r10 ⟨some .rsp, 1, none, 16, false⟩,
   .mov64mr ⟨some .r11, 1, none, 0, false⟩ .r10,
   .add64ri8 .r11 8,
   .mov64mr topOp .r11,
   .pop64r .r10,
   .pop64r .r11]

section Pass

variable (strategy : ViolationStrategy) (trapBB : Nat)

/-- What `instrumentRet` does with the address it has popped to `scratch`. -/
def enforce (scratch : Reg) (rspOffset : Nat) : List Inst :=
  match strategy with
  | .blindWrite => [.mov64mr ⟨some .rsp, 1, none, rspOffset, false⟩ scratch]
  | .trap => [.cmp64mr ⟨some .rsp, 1, none, rspOffset, false⟩ scratch, .jcc1 trapBB .ne]

/-- Pop the shadow stack to `scratch`, and use the address. -/
def popAndEnforce (scratch : Reg) (rspOffset : Nat) : List Inst :=
  [.mov64rm scratch topOp,
   .sub64ri8 scratch 8,
   .mov64mr topOp scratch,
   .mov64rm scratch ⟨some scratch, 1, none, 0, false⟩] ++ enforce strategy trapBB scratch rspOffset

/-- `instrumentRet`, with the result of the scavenger: without a free register, `r11` is spilled. -/
def instrumentRet : Option Reg → List Inst
  | some scratch => popAndEnforce strategy trapBB scratch 0
  | none => .push64r .r11 :: popAndEnforce strategy trapBB .r11 8 ++ [.pop64r .r11]

/-- The loop over one block. -/
def instrumentBlock (find : List Orig → Option Reg) : List Orig → List Inst
  | [] => []
  | i :: rest =>
      (if i.isReturn then instrumentRet strategy trapBB (find (i :: rest)) else []) ++
        .orig i :: instrumentBlock find rest

/-- `instrumentPreamble` skips the meta instructions at the start of the first block. -/
def instrumentFront (find : List Orig → Option Reg) : List Orig → List Inst
  | .metaInstr :: rest => .orig .metaInstr :: instrumentFront find rest
  | l => preamble ++ instrumentBlock strategy trapBB find l

/-- `getOrCreateTrapBB`, at the end of the function. -/
def trapBlocks (mf : MachineFunction Orig) : List (List Inst) :=
  if strategy = .trap ∧ mf.blocks.any (·.any Orig.isReturn) then [[.trap]] else []

/-- `runOnMachineFunction`. -/
def runOnMachineFunction (scavenger : Scavenger) (mf : MachineFunction Orig) : MachineFunction Inst :=
  if mf.hasCalls then
    ⟨mf.blocks.mapIdx (fun blk b ↦
      if blk = 0 then instrumentFront strategy mf.blocks.length (scavenger.find blk) b
      else instrumentBlock strategy mf.blocks.length (scavenger.find blk) b) ++ trapBlocks strategy mf⟩
  else mf.plain

end Pass

/-! ## Simple facts -/

@[simp] theorem straight_meta (rest : List Inst) (m : Machine) :
    straight (.orig .metaInstr :: rest) m = straight rest m := rfl

variable {strategy : ViolationStrategy} {trapBB : Nat} {find : List Orig → Option Reg}

theorem straight_instrumentFront (l : List Orig) (m : Machine) :
    straight (instrumentFront strategy trapBB find l) m =
      straight (preamble ++ instrumentBlock strategy trapBB find (l.dropWhile Orig.isMeta)) m := by
  induction l with
  | nil => rfl
  | cons i rest ih =>
      cases i with
      | metaInstr => exact ih
      | _ => rfl

theorem straight_instrumentBlock (l : List Orig) (m : Machine) :
    straight (instrumentBlock strategy trapBB find l) m =
      straight (instrumentBlock strategy trapBB find (l.dropWhile Orig.isMeta)) m := by
  induction l with
  | nil => rfl
  | cons i rest ih =>
      cases i with
      | metaInstr => exact ih
      | _ => rfl

/-- The blocks of an instrumented function. -/
theorem blocks_runOnMachineFunction {scavenger : Scavenger} {mf : MachineFunction Orig} {blk : Nat}
    {b' : List Inst} (hf : mf.hasCalls)
    (h : (runOnMachineFunction strategy scavenger mf).blocks[blk]? = some b') :
    (∃ b, mf.blocks[blk]? = some b ∧
      b' = if blk = 0 then instrumentFront strategy mf.blocks.length (scavenger.find blk) b
        else instrumentBlock strategy mf.blocks.length (scavenger.find blk) b) ∨
      (blk ≠ 0 ∧ b' = [.trap]) := by
  rw [runOnMachineFunction, if_pos hf] at h
  simp only [List.getElem?_append, List.length_mapIdx, List.getElem?_mapIdx] at h
  split at h
  · obtain ⟨b, hb, rfl⟩ := Option.map_eq_some_iff.mp h
    exact .inl ⟨b, hb, rfl⟩
  · next hlt =>
      refine .inr ⟨fun hc ↦ hlt ?_, ?_⟩
      · rw [hc, List.length_pos_iff]
        rintro hnil
        rw [MachineFunction.hasCalls, hnil] at hf
        cases hf
      · unfold trapBlocks at h
        split at h
        · exact List.mem_singleton.mp (List.mem_of_getElem? h)
        · cases h

/-- A function that returns has its trap block. -/
theorem blocks_trap_of_return {scavenger : Scavenger} {mf : MachineFunction Orig} {blk : Nat}
    {b l : List Orig} {i : Orig} (hf : mf.hasCalls) (hstrategy : strategy = .trap)
    (hb : mf.blocks[blk]? = some b) (hl : i :: l <:+ b) (hi : i.isReturn) :
    (runOnMachineFunction strategy scavenger mf).blocks[mf.blocks.length]? = some [.trap] := by
  have hmem : i ∈ b := hl.subset (List.mem_cons_self ..)
  have hany : mf.blocks.any (·.any Orig.isReturn) :=
    List.any_eq_true.mpr ⟨b, List.mem_of_getElem? hb, List.any_eq_true.mpr ⟨i, hmem, hi⟩⟩
  rw [runOnMachineFunction, if_pos hf, trapBlocks, if_pos ⟨hstrategy, hany⟩]
  simp

end ShadowStack.X86
