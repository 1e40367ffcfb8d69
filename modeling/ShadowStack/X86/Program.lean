import ShadowStack.Lib.Run
import ShadowStack.X86.Sequences

/-!
# Programs and their runs

A program is a family of functions with their addresses.  One step runs the next instruction of a
function, with the inserted instructions in front of it.

The calls that have not returned are kept beside the machine, each with the address it has pushed, and
a return to another address than that of the innermost one leaves the program.  The frames also record
the stack pointer and `gs:[8]` at the call; nothing the program does depends on these two.
-/

namespace ShadowStack.X86

open Lib

/-- The functions as the compiler has made them, and which address is the entry of which. -/
structure Program where
  funcs : Nat → MachineFunction Orig
  address : Nat → Option Nat

/-- The code that runs. -/
structure Code where
  funcs : Nat → MachineFunction Inst
  address : Nat → Option Nat

/-- The program without instrumentation. -/
def Program.plain (p : Program) : Code := ⟨fun f ↦ (p.funcs f).plain, p.address⟩

/-- The program after the pass. -/
def Program.instrumented (p : Program) (strategy : ViolationStrategy) (scavenger : Nat → Scavenger) : Code :=
  ⟨fun f ↦ runOnMachineFunction strategy (scavenger f) (p.funcs f), p.address⟩

/-- A place in a function: the block and what remains of it. -/
structure Pos where
  fn : Nat
  blk : Nat
  rest : List Inst

/-- A call that has not returned: where it continues (nowhere for the call that started the thread),
the address it has pushed, and, for reference, the stack pointer after the call and `gs:[8]` before. -/
structure Frame where
  cont : Option Pos
  ra : Nat
  sp : Nat
  top : Nat

structure State where
  pos : Pos
  frames : List Frame
  m : Machine

inductive Outcome where
  | next (s : State)
  /-- The outermost function has returned. -/
  | exited (m : Machine)
  | trapped
  /-- A return to an address where no call waits for it. -/
  | hijacked (addr : Nat)
  /-- There is no code there. -/
  | stuck

namespace Code

variable (code : Code)

/-- Go to a block of a function. -/
def goto (frames : List Frame) (m : Machine) (fn blk : Nat) : Outcome :=
  match (code.funcs fn).blocks[blk]? with
  | some b => .next ⟨⟨fn, blk, b⟩, frames, m⟩
  | none => .stuck

/-- The function a call or a tail jump goes to. -/
def resolve (m : Machine) : Callee → Option Nat
  | .direct f => some f
  | .reg r => code.address (m.regs r)
  | .mem a => code.address (load64 m.mem (a.addr m))

/-- Go to the entry of a function. -/
def enter (frames : List Frame) (m : Machine) : Option Nat → Outcome
  | some f => code.goto frames m f 0
  | none => .stuck

/-- Push the return address. -/
def pushRet (m : Machine) (ra : Nat) : Machine :=
  (m.write (wrapSub (m.regs .rsp) 8) ra).set .rsp (wrapSub (m.regs .rsp) 8)

/-- Return with the address `w` popped. -/
def returnTo (w : Nat) (m : Machine) : List Frame → Outcome
  | [] => .stuck
  | fr :: frames =>
      if w = fr.ra then
        match fr.cont with
        | some pos => .next ⟨pos, frames, m⟩
        | none => .exited m
      else .hijacked w

/-- One instruction of a function, at a place with `rest` behind it. -/
def stepOrig (pos : Pos) (frames : List Frame) (m : Machine) (rest : List Inst) : Orig → Outcome
  | .metaInstr => .next ⟨{ pos with rest := rest }, frames, m⟩
  | .op o => .next ⟨{ pos with rest := rest }, frames, o.exec m⟩
  | .jmp target => code.goto frames m pos.fn target
  | .jcc target cc =>
      if cc.holds m.flags then code.goto frames m pos.fn target
      else .next ⟨{ pos with rest := rest }, frames, m⟩
  | .call callee ra =>
      code.enter (⟨some { pos with rest := rest }, wrap ra, wrapSub (m.regs .rsp) 8, m.top⟩ :: frames)
        (pushRet m ra) (code.resolve m callee)
  | .ret imm =>
      returnTo (load64 m.mem (m.regs .rsp)) (m.set .rsp (m.regs .rsp + 8 + imm)) frames
  | .tailJmp callee => code.enter frames m (code.resolve m callee)
  | .tailJmpCC f cc =>
      if cc.holds m.flags then code.goto frames m f 0
      else .next ⟨{ pos with rest := rest }, frames, m⟩

/-- One step. -/
def step (s : State) : Outcome :=
  match straight s.pos.rest s.m with
  | .trapped => .trapped
  | .jump m target => code.goto s.frames m s.pos.fn target
  | .stop m (.orig i :: rest) => code.stepOrig s.pos s.frames m rest i
  | .stop m _ => code.goto s.frames m s.pos.fn (s.pos.blk + 1)

/-- Steps have no label. -/
def Step (s : State) (_ : Unit) (s' : State) : Prop := code.step s = .next s'

end Code

end ShadowStack.X86
