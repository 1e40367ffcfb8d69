import Mathlib.Logic.Relation
import ShadowStack.Lib.Auxv

/-!
# Moving the initial stack

`runtime/stckcpy.S`: before `_start`, `relocate_stack` maps a new stack, copies the start image of
the process to it, shifts the pointers of the image and asks the kernel module to take over the new
stack.

The model executes one basic block per step, under the labels of the source.  The two string
instructions run to their end within a block.  What the kernel answers to the system calls is a
parameter.  Every address is readable and writable: a store to a page that is not mapped would kill
the process where the model goes on.
-/

namespace ShadowStack.Runtime

open Lib

/-- `STACK_SIZE`. -/
def stackSize : Nat := 0x800000

/-- `ADR_HINT`. -/
def adrHint : Nat := 0x600000000000

/-- `IOCTL_SHADOW_PIVOT`. -/
def ioctlShadowPivot : Nat := 0xc018ca73

/-- The labels of the source, and the two ways the code ends: at `_start`, or by `exit`. -/
inductive Label where
  | relocateStack
  | scanArgv | incArgv | scanArgvExit
  | scanEnvp | incEnvp | scanEnvpExit
  | scanAuxv | checkAuxp | incAuxv | scanAuxvExit
  | atRndHighest | patch
  | patchArgv | patchArgvExit
  | patchEnvp | patchEnvpExit
  | patchAuxv | doPatchAuxp | patchIncAuxv | patchAuxvExit
  | out2 | out
  | start
  | exited (status : Nat)
deriving DecidableEq, Repr

/-- The registers the code uses, the memory, and whether the code has stored to it. -/
structure Cpu where
  rax : Nat
  rcx : Nat
  rdx : Nat
  rsi : Nat
  rdi : Nat
  rsp : Nat
  r8 : Nat
  r9 : Nat
  r10 : Nat
  r11 : Nat
  r12 : Nat
  r13 : Nat
  r14 : Nat
  r15 : Nat
  mem : Memory
  stored : Bool

/-- The answers of the kernel, in `rax`, and the value that `sa_pivot` leaves in the error field. -/
structure Sys where
  /-- The address of the string `dev_name`. -/
  devName : Nat
  mmap : Nat
  open_ : Nat
  ioctl : Nat
  close : Nat
  error : Nat
  /-- What `syscall` leaves in `rcx` and `r11`, for each call number. -/
  rcx : Nat → Nat
  r11 : Nat → Nat

/-- The string instruction `repne scasb`: `rcx` and `rdi` after the search for `al`. -/
def repneScasb (m : Memory) (al : UInt8) : (rcx rdi : Nat) → Nat × Nat
  | 0, rdi => (0, rdi)
  | rcx + 1, rdi =>
      if m rdi = al then (rcx, wrapAdd rdi 1) else repneScasb m al rcx (wrapAdd rdi 1)

/-- The string instruction `rep movsb`. -/
def repMovsb (m : Memory) : (rcx rsi rdi : Nat) → Memory
  | 0, _, _ => m
  | rcx + 1, rsi, rdi =>
      repMovsb (Function.update m rdi (m rsi)) rcx (wrapAdd rsi 1) (wrapAdd rdi 1)

namespace Cpu

/-- A system call: the answer, and the registers the instruction overwrites. -/
def syscall (c : Cpu) (sys : Sys) (nr answer : Nat) : Cpu :=
  { c with rax := answer, rcx := sys.rcx nr, r11 := sys.r11 nr }

/-- Store to memory. -/
def put (c : Cpu) (a v : Nat) : Cpu := { c with mem := store64 c.mem a v, stored := true }

/-- The first part of `_patch_auxv_exit`: switch to the new stack and open the device. -/
def openDevice (c : Cpu) (sys : Sys) : Cpu :=
  let c := { c with r15 := c.rsp, rsp := c.rax, r14 := c.rax }
  let c := { c with rdi := sys.devName, rsi := 2, rdx := 0 }
  c.syscall sys 2 sys.open_

/-- The second part: the `ioctl`, with its parameters on the new stack. -/
def pivot (c : Cpu) (sys : Sys) : Cpu :=
  let c := { c with r13 := c.rax, rsp := wrapSub c.rsp 24 }
  let c := c.put c.rsp 0
  let c := c.put (wrapAdd c.rsp 8) c.r14
  let c := c.put (wrapAdd c.rsp 16) c.r15
  let c := { c with rdx := c.rsp, rdi := c.r13, rsi := ioctlShadowPivot }
  c.syscall sys 16 sys.ioctl

/-- The last part, after the kernel has copied the error to the parameters: close the device. -/
def closeDevice (c : Cpu) (sys : Sys) : Cpu :=
  let c := { c with mem := store64 c.mem c.rdx sys.error, rsp := wrapAdd c.rsp 24 }
  let c := { c with rdi := c.r13 }
  let c := c.syscall sys 3 sys.close
  { c with rdx := c.r12 }

end Cpu

/-- The keys whose values the code takes for pointers into the stack. -/
def IsPatched (key : Nat) : Prop :=
  key = atBase ∨ key = atPlatform ∨ key = atRandom ∨ key = atExecfn

instance (key : Nat) : Decidable (IsPatched key) := by unfold IsPatched; infer_instance

/-- The body of `_scan_argv` and `_scan_envp`: keep the highest pointer in `rdi`. -/
def scanPointer (next exit : Label) (c : Cpu) : Label × Cpu :=
  let c := { c with r9 := load64 c.mem c.r8 }
  if c.r9 = 0 then (exit, c)
  else if c.r9 ≤ c.rdi then (next, c)
  else (next, { c with rdi := c.r9 })

/-- The body of `_patch_argv` and `_patch_envp`: shift pointers up to the first null. -/
def patchPointer (self exit : Label) (c : Cpu) : Label × Cpu :=
  let c := { c with r11 := load64 c.mem c.r10 }
  if c.r11 = 0 then (exit, c)
  else
    let c := { c with r11 := wrapAdd c.r11 c.r9 }
    let c := c.put c.r10 c.r11
    (self, { c with r10 := wrapAdd c.r10 8 })

/-- One basic block. -/
def step (sys : Sys) : Label × Cpu → Label × Cpu
  | (.relocateStack, c) =>
      let c := { c with r12 := c.rdx }
      let c := { c with
        rax := 9, rdi := adrHint, rsi := stackSize, rdx := 3, r10 := 34, r8 := 2 ^ 64 - 1, r9 := 0 }
      let c := c.syscall sys 9 sys.mmap
      if c.rax = 0 then (.out, c)
      else (.scanArgv, { c with rdi := 0, r11 := 0, r8 := wrapAdd c.rsp 8 })
  | (.scanArgv, c) => scanPointer .incArgv .scanArgvExit c
  | (.incArgv, c) => (.scanArgv, { c with r8 := wrapAdd c.r8 8 })
  | (.scanArgvExit, c) => (.scanEnvp, { c with r8 := wrapAdd c.r8 8 })
  | (.scanEnvp, c) => scanPointer .incEnvp .scanEnvpExit c
  | (.incEnvp, c) => (.scanEnvp, { c with r8 := wrapAdd c.r8 8 })
  | (.scanEnvpExit, c) => (.scanAuxv, { c with r8 := wrapAdd c.r8 8 })
  | (.scanAuxv, c) =>
      let c := { c with r9 := load64 c.mem c.r8 }
      if c.r9 = 0 then (.scanAuxvExit, c)
      else if IsPatched c.r9 then (.checkAuxp, c)
      else (.incAuxv, c)
  | (.checkAuxp, c) =>
      let c := { c with r10 := load64 c.mem (wrapAdd c.r8 8) }
      if c.r10 ≤ c.rdi then (.incAuxv, c)
      else (.incAuxv, { c with rdi := c.r10, r11 := if c.r9 = atRandom then 1 else 0 })
  | (.incAuxv, c) => (.scanAuxv, { c with r8 := wrapAdd c.r8 16 })
  | (.scanAuxvExit, c) =>
      let c := { c with r8 := wrapAdd c.r8 16, rdx := c.rax }
      if c.r11 ≠ 0 then (.atRndHighest, c)
      else
        -- `xor %al, %al` clears the low byte of `rax`, which is dead here
        let r := repneScasb c.mem 0 (2 ^ 64 - 1) c.rdi
        (.patch, { c with rax := c.rax - c.rax % 256, rcx := r.1, rdi := r.2 })
  | (.atRndHighest, c) => (.patch, { c with rdi := wrapAdd c.rdi 16 })
  | (.patch, c) =>
      let c := { c with rcx := wrapAdd (wrapSub c.rdi c.rsp) 1 }
      let c := { c with
        rsi := c.rsp
        rdi := alignDown 4 (wrapSub (wrapAdd c.rdx stackSize) c.rcx) }
      let c := { c with rax := c.rdi }
      let c := { c with
        mem := repMovsb c.mem c.rcx c.rsi c.rdi
        stored := c.stored || c.rcx != 0
        rsi := wrapAdd c.rsi c.rcx
        rdi := wrapAdd c.rdi c.rcx
        rcx := 0 }
      (.patchArgv, { c with r9 := wrapSub c.rax c.rsp, r10 := wrapAdd c.rax 8 })
  | (.patchArgv, c) => patchPointer .patchArgv .patchArgvExit c
  | (.patchArgvExit, c) => (.patchEnvp, { c with r10 := wrapAdd c.r10 8 })
  | (.patchEnvp, c) => patchPointer .patchEnvp .patchEnvpExit c
  | (.patchEnvpExit, c) => (.patchAuxv, { c with r10 := wrapAdd c.r10 8 })
  | (.patchAuxv, c) =>
      let c := { c with r11 := load64 c.mem c.r10 }
      if c.r11 = 0 then (.patchAuxvExit, c)
      else if IsPatched c.r11 then (.doPatchAuxp, c)
      else (.patchIncAuxv, c)
  | (.doPatchAuxp, c) =>
      let c := { c with r11 := load64 c.mem (wrapAdd c.r10 8) }
      let c := { c with r11 := wrapAdd c.r11 c.r9 }
      (.patchIncAuxv, c.put (wrapAdd c.r10 8) c.r11)
  | (.patchIncAuxv, c) => (.patchAuxv, { c with r10 := wrapAdd c.r10 16 })
  | (.patchAuxvExit, c) =>
      let c := c.openDevice sys
      if 2 ^ 63 ≤ c.rax then (.out, c)
      else
        let c := c.pivot sys
        if 2 ^ 63 ≤ c.rax then (.out2, c)
        else (.start, c.closeDevice sys)
  | (.out2, c) => (.exited (c.r13 % 256), c)
  | (.out, c) => (.exited 1, c)
  | (.start, c) => (.start, c)
  | (.exited status, c) => (.exited status, c)

/-- Some number of blocks leads from one state to another. -/
def Reaches (sys : Sys) : Label × Cpu → Label × Cpu → Prop :=
  Relation.ReflTransGen fun x y ↦ step sys x = y

end ShadowStack.Runtime
