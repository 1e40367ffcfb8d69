import ShadowStack.Lib.Memory

/-!
# The x86 machine

Registers, flags and memory, as far as the instructions need them that `shadow_stack_x86` inserts, and
the code of the compiled functions around them.  An instruction of a function that is neither a call
nor a branch is an `Op`: it says what it reads, and its results are a function of that.
-/

namespace ShadowStack.X86

open Lib

inductive Reg where
  | rax | rcx | rdx | rbx | rsp | rbp | rsi | rdi
  | r8 | r9 | r10 | r11 | r12 | r13 | r14 | r15
deriving DecidableEq, Repr

/-! ## Flags -/

/-- The flags that conditions are about. -/
structure Flags where
  cf : Bool
  pf : Bool
  zf : Bool
  sf : Bool
  of : Bool
deriving DecidableEq, Repr, Inhabited

def negative (v : Nat) : Bool := 2 ^ 63 ≤ v

/-- The low byte has an even number of ones. -/
def parity (v : Nat) : Bool := (List.range 8).countP v.testBit % 2 == 0

/-- The flags after an addition of 64-bit values. -/
def Flags.ofAdd (a b : Nat) : Flags where
  cf := 2 ^ 64 ≤ a + b
  pf := parity (wrap (a + b))
  zf := wrap (a + b) == 0
  sf := negative (wrap (a + b))
  of := negative a == negative b && negative (wrap (a + b)) != negative a

/-- The flags after a subtraction or a comparison of 64-bit values. -/
def Flags.ofSub (a b : Nat) : Flags where
  cf := a < b
  pf := parity (wrapSub a b)
  zf := wrapSub a b == 0
  sf := negative (wrapSub a b)
  of := negative a != negative b && negative (wrapSub a b) != negative a

inductive Cond where
  | o | no | b | ae | e | ne | be | a | s | ns | p | np | l | ge | le | g
deriving DecidableEq, Repr

def Cond.holds (f : Flags) : Cond → Bool
  | .o => f.of
  | .no => !f.of
  | .b => f.cf
  | .ae => !f.cf
  | .e => f.zf
  | .ne => !f.zf
  | .be => f.cf || f.zf
  | .a => !(f.cf || f.zf)
  | .s => f.sf
  | .ns => !f.sf
  | .p => f.pf
  | .np => !f.pf
  | .l => f.sf != f.of
  | .ge => f.sf == f.of
  | .le => f.zf || f.sf != f.of
  | .g => !(f.zf || f.sf != f.of)

/-- A comparison finds two values different exactly if they are. -/
theorem ne_holds_ofSub {a b : Nat} (ha : a < 2 ^ 64) (hb : b < 2 ^ 64) :
    Cond.ne.holds (.ofSub a b) = decide (a ≠ b) := by
  have hzero : wrapSub a b = 0 ↔ a = b := by
    unfold wrapSub
    omega
  rw [Cond.holds, Flags.ofSub, decide_not]
  congr 1
  rw [Bool.eq_iff_iff, beq_iff_eq, decide_eq_true_iff, hzero]

/-! ## Machine states -/

/-- The state of one thread: 64-bit registers, flags, the base of the `gs` segment, and memory. -/
structure Machine where
  regs : Reg → Nat
  flags : Flags
  gs : Nat
  mem : Memory
  regs_lt : ∀ r, regs r < 2 ^ 64

/-- A memory operand, in the order of the operands of an instruction: base, scale, index, displacement
and whether it is relative to `gs`. -/
structure MemOp where
  base : Option Reg
  scale : Nat
  index : Option Reg
  disp : Nat
  gs : Bool
deriving DecidableEq, Repr

namespace Machine

variable (m : Machine) (r : Reg) (a v : Nat)

def set : Machine where
  regs := Function.update m.regs r (wrap v)
  flags := m.flags
  gs := m.gs
  mem := m.mem
  regs_lt r' := by
    by_cases h : r' = r
    · rw [h, Function.update_self]
      exact wrap_lt v
    · rw [Function.update_of_ne h]
      exact m.regs_lt r'

def write : Machine := { m with mem := store64 m.mem a v }

def setFlags (f : Flags) : Machine := { m with flags := f }

@[simp] theorem set_mem : (m.set r v).mem = m.mem := rfl
@[simp] theorem set_gs : (m.set r v).gs = m.gs := rfl
@[simp] theorem set_flags : (m.set r v).flags = m.flags := rfl
@[simp] theorem set_regs_self : (m.set r v).regs r = wrap v := Function.update_self ..
@[simp] theorem set_regs_of_ne {r' : Reg} (h : r' ≠ r) : (m.set r v).regs r' = m.regs r' :=
  Function.update_of_ne h ..
@[simp] theorem write_mem : (m.write a v).mem = store64 m.mem a v := rfl
@[simp] theorem write_gs : (m.write a v).gs = m.gs := rfl
@[simp] theorem write_regs : (m.write a v).regs = m.regs := rfl
@[simp] theorem write_flags : (m.write a v).flags = m.flags := rfl
@[simp] theorem setFlags_mem (f : Flags) : (m.setFlags f).mem = m.mem := rfl
@[simp] theorem setFlags_gs (f : Flags) : (m.setFlags f).gs = m.gs := rfl
@[simp] theorem setFlags_regs (f : Flags) : (m.setFlags f).regs = m.regs := rfl
@[simp] theorem setFlags_flags (f : Flags) : (m.setFlags f).flags = f := rfl

/-- The value of a register operand, where the number 0 stands for no register. -/
def operand : Option Reg → Nat
  | none => 0
  | some r => m.regs r

end Machine

/-- The effective address. -/
def MemOp.addr (o : MemOp) (m : Machine) : Nat :=
  wrap ((if o.gs then m.gs else 0) + m.operand o.base + o.scale * m.operand o.index + o.disp)

/-! ## The code of the functions -/

/-- What an instruction computes. -/
structure Op.Result where
  regs : Reg → Nat
  flags : Flags
  stores : List (Nat × UInt8)

/-- An instruction that is neither a call nor a branch: the registers and flags it reads and writes,
the bytes it reads, and its results. -/
structure Op where
  uses : Reg → Bool
  defs : Reg → Bool
  usesFlags : Bool
  defsFlags : Bool
  loads : (Reg → Nat) → List Nat
  result : (Reg → Nat) → Flags → List UInt8 → Op.Result

namespace Op

variable (o : Op) (m : Machine)

/-- The registers it reads; the others do not matter. -/
def input : Reg → Nat := fun r ↦ if o.uses r then m.regs r else 0

def inputFlags : Flags := if o.usesFlags then m.flags else default

/-- The addresses it reads. -/
def reads : List Nat := (o.loads (o.input m)).map wrap

def output : Op.Result := o.result (o.input m) (o.inputFlags m) ((o.reads m).map m.mem)

/-- The addresses it writes. -/
def writes : List Nat := (o.output m).stores.map fun p ↦ wrap p.1

/-- Write single bytes. -/
def writeBytes (mem : Memory) : List (Nat × UInt8) → Memory
  | [] => mem
  | (a, b) :: rest => writeBytes (Function.update mem (wrap a) b) rest

def exec : Machine where
  regs r := if o.defs r then wrap ((o.output m).regs r) else m.regs r
  flags := if o.defsFlags then (o.output m).flags else m.flags
  gs := m.gs
  mem := writeBytes m.mem (o.output m).stores
  regs_lt r := by
    split
    · exact wrap_lt _
    · exact m.regs_lt r

@[simp] theorem exec_gs : (o.exec m).gs = m.gs := rfl

/-- Bytes that are not written stay as they are. -/
theorem writeBytes_of_notMem {l : List (Nat × UInt8)} {b : Nat} (mem : Memory)
    (h : b ∉ l.map fun p ↦ wrap p.1) : writeBytes mem l b = mem b := by
  induction l generalizing mem with
  | nil => rfl
  | cons p l ih =>
      obtain ⟨hp, hl⟩ := not_or.mp (List.mem_cons.not.mp h)
      rw [writeBytes, ih _ hl, Function.update_of_ne hp]

/-- Bytes that are written do not depend on what was there. -/
theorem writeBytes_of_mem {l : List (Nat × UInt8)} {b : Nat} (mem mem' : Memory)
    (h : b ∈ l.map fun p ↦ wrap p.1) : writeBytes mem l b = writeBytes mem' l b := by
  induction l generalizing mem mem' with
  | nil => cases h
  | cons p l ih =>
      by_cases hl : b ∈ l.map fun p ↦ wrap p.1
      · exact ih _ _ hl
      · obtain rfl : b = wrap p.1 := (List.mem_cons.mp h).resolve_right hl
        rw [writeBytes, writeBytes, writeBytes_of_notMem _ hl, writeBytes_of_notMem _ hl,
          Function.update_self, Function.update_self]

theorem exec_mem_of_notMem {b : Nat} (h : b ∉ o.writes m) : (o.exec m).mem b = m.mem b :=
  writeBytes_of_notMem m.mem h

end Op

/-- The target of a call or of a tail jump. -/
inductive Callee where
  | direct (f : Nat)
  | reg (r : Reg)
  | mem (a : MemOp)
deriving DecidableEq, Repr

/-- The instructions of a function as the compiler has made it.  `RET` pops `imm` more bytes after the
return address; the address of the instruction after a call is part of the call. -/
inductive Orig where
  | metaInstr
  | op (o : Op)
  | jmp (target : Nat)
  | jcc (target : Nat) (cc : Cond)
  | call (callee : Callee) (ra : Nat)
  | ret (imm : Nat)
  | tailJmp (callee : Callee)
  | tailJmpCC (f : Nat) (cc : Cond)

/-- `isMetaInstruction`. -/
def Orig.isMeta : Orig → Bool
  | .metaInstr => true
  | _ => false

/-- `isReturn`: returns and tail jumps of every kind. -/
def Orig.isReturn : Orig → Bool
  | .ret _ | .tailJmp _ | .tailJmpCC _ _ => true
  | _ => false

def Orig.isCall : Orig → Bool
  | .call _ _ => true
  | _ => false

/-- The instructions after the pass: those of the function, and those the pass inserts. -/
inductive Inst where
  | orig (i : Orig)
  | push64r (r : Reg)
  | pop64r (r : Reg)
  | mov64rm (r : Reg) (a : MemOp)
  | mov64mr (a : MemOp) (r : Reg)
  | add64ri8 (r : Reg) (imm : Nat)
  | sub64ri8 (r : Reg) (imm : Nat)
  | cmp64mr (a : MemOp) (r : Reg)
  | jcc1 (target : Nat) (cc : Cond)
  | trap

/-- An inserted instruction that is not a branch. -/
def Inst.exec (m : Machine) : Inst → Machine
  | .push64r r => (m.write (wrapSub (m.regs .rsp) 8) (m.regs r)).set .rsp (wrapSub (m.regs .rsp) 8)
  | .pop64r r => (m.set .rsp (m.regs .rsp + 8)).set r (load64 m.mem (m.regs .rsp))
  | .mov64rm r a => m.set r (load64 m.mem (a.addr m))
  | .mov64mr a r => m.write (a.addr m) (m.regs r)
  | .add64ri8 r imm => (m.set r (m.regs r + imm)).setFlags (.ofAdd (m.regs r) imm)
  | .sub64ri8 r imm => (m.set r (wrapSub (m.regs r) imm)).setFlags (.ofSub (m.regs r) imm)
  | .cmp64mr a r => m.setFlags (.ofSub (load64 m.mem (a.addr m)) (m.regs r))
  | _ => m

/-- Where the inserted instructions lead: to the next instruction of the function, to another block,
or to a trap. -/
inductive Straight where
  | stop (m : Machine) (rest : List Inst)
  | jump (m : Machine) (target : Nat)
  | trapped

/-- Run the inserted instructions in front of the next instruction of the function. -/
def straight : List Inst → Machine → Straight
  | [], m => .stop m []
  | .orig .metaInstr :: rest, m => straight rest m
  | .orig i :: rest, m => .stop m (.orig i :: rest)
  | .jcc1 target cc :: rest, m => if cc.holds m.flags then .jump m target else straight rest m
  | .trap :: _, _ => .trapped
  | i :: rest, m => straight rest (i.exec m)

end ShadowStack.X86
