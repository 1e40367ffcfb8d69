import ShadowStack.Ir.Mask
import ShadowStack.Lib.Dominance
import ShadowStack.Lib.Memory
import ShadowStack.Lib.Run

/-!
# Functions in SSA form

What the compiler pass sees of a function: blocks of named instructions with phi nodes and a terminator.
Instructions that the pass does not look at are arbitrary computations, and calls do to memory what they want.
-/

universe u v

namespace ShadowStack.Ir

open Lib

/-! ## Syntax -/

/-- A value: a constant, an argument or the address of a global, or what an instruction computes. -/
inductive Value (ν : Type u) where
  | const (c : Nat)
  | arg (i : Nat)
  | inst (n : ν)
deriving DecidableEq, Repr

/-- What kind of `StoreInst` it is. -/
inductive StoreKind where
  | plain | volatile | atomic
deriving DecidableEq, Repr

/-- The instructions that access memory, those that the pass inserts, calls, and all others. -/
inductive Op (ν : Type u) where
  | store (kind : StoreKind) (bytes : Nat) (val ptr : Value ν)
  | load (bytes : Nat) (ptr : Value ν)
  | atomicrmw (bytes : Nat) (f : Nat → Nat → Nat) (ptr val : Value ν)
  | cmpxchg (bytes : Nat) (ptr cmp new : Value ν)
  | memset (dst byte len : Value ν)
  /-- `llvm.memcpy` and `llvm.memmove`. -/
  | memmove (dst src len : Value ν)
  | ptrtoint (v : Value ν)
  | and (v w : Value ν)
  | inttoptr (v : Value ν)
  | pure (f : List Nat → Nat) (args : List (Value ν))
  | call (args : List (Value ν))

structure Inst (ν : Type u) where
  name : ν
  /-- It carries `m-ignore` metadata. -/
  ignore : Bool
  op : Op ν

/-- A phi node, with a value for each block that it can be reached from. -/
structure Phi (ν : Type u) where
  name : ν
  incoming : Nat → Value ν

/-- A terminator: the next block is selected by a value; if there is none the function returns. -/
structure Term (ν : Type u) where
  cond : Value ν
  targets : List Nat
  select : Nat → Nat

structure Block (ν : Type u) where
  phis : List (Phi ν)
  body : List (Inst ν)
  term : Term ν

/-- A function; the first block is the entry block. -/
structure Func (ν : Type u) where
  blocks : List (Block ν)

namespace Func

variable {ν : Type u}

def block (F : Func ν) (b : Nat) : Option (Block ν) := F.blocks[b]?

/-- The instructions in the order of the blocks. -/
def insts (F : Func ν) : List (Inst ν) := F.blocks.flatMap Block.body

theorem mem_insts {F : Func ν} {b : Nat} {B : Block ν} {i : Inst ν} (hB : F.block b = some B)
    (hi : i ∈ B.body) : i ∈ F.insts :=
  List.mem_flatMap.mpr ⟨B, List.mem_of_getElem? hB, hi⟩

end Func

/-! ## Execution -/

/-- A write to memory, with the instruction that does it. -/
structure Write (ν : Type u) where
  inst : ν
  isStore : Bool
  ignore : Bool
  addr : Nat
  len : Nat
  data : Nat → UInt8

/-- Memory after a write. -/
def Write.apply {ν : Type u} (w : Write ν) (m : Memory) : Memory :=
  fun b ↦ if wrapSub b w.addr < w.len then w.data (wrapSub b w.addr) else m b

/-- The bytes of a value in memory. -/
def bytesOf (v i : Nat) : UInt8 := UInt8.ofNat (v / 256 ^ i)

/-- A state of the execution of a function: the block, what is still to be done of it, the values of
instructions and arguments, memory, and the writes so far. -/
structure State (ν : Type u) where
  blk : Nat
  todo : List (Inst ν)
  regs : ν → Nat
  args : Nat → Nat
  mem : Memory
  writes : List (Write ν)

/-- A step of the function; a call, with what it returns and the memory that it leaves; or others change
memory. -/
inductive Event where
  | run
  | call (v : Nat) (m : Memory)
  | env (m : Memory)

section Exec

variable {ν : Type u}

namespace State

def value (s : State ν) : Value ν → Nat
  | .const c => c
  | .arg i => s.args i
  | .inst n => s.regs n

/-- The address that a pointer is. -/
def ptr (s : State ν) (v : Value ν) : Nat := wrap (s.value v)

end State

namespace Inst

/-- The write that an instruction does, where `at_` says where stores without `m-ignore` go. -/
def write (at_ : Nat → Nat) (i : Inst ν) (s : State ν) : Option (Write ν) :=
  match i.op with
  | .store _ bytes val p =>
      some ⟨i.name, true, i.ignore, if i.ignore then s.ptr p else at_ (s.ptr p), bytes, bytesOf (s.value val)⟩
  | .atomicrmw bytes f p val =>
      some ⟨i.name, false, i.ignore, s.ptr p, bytes, bytesOf (f (load s.mem (s.ptr p) bytes) (s.value val))⟩
  | .cmpxchg bytes p cmp new =>
      if load s.mem (s.ptr p) bytes = s.value cmp then
        some ⟨i.name, false, i.ignore, s.ptr p, bytes, bytesOf (s.value new)⟩
      else none
  | .memset dst byte len =>
      some ⟨i.name, false, i.ignore, s.ptr dst, s.value len, fun _ ↦ UInt8.ofNat (s.value byte)⟩
  | .memmove dst src len =>
      some ⟨i.name, false, i.ignore, s.ptr dst, s.value len, fun k ↦ s.mem (wrap (s.ptr src + k))⟩
  | _ => none

/-- The value of an instruction, if it has one; `v` is what a call returns. -/
def result (i : Inst ν) (v : Nat) (s : State ν) : Option Nat :=
  match i.op with
  | .store .. | .memset .. | .memmove .. => none
  | .load bytes p => some (load s.mem (s.ptr p) bytes)
  | .atomicrmw bytes _ p _ => some (load s.mem (s.ptr p) bytes)
  | .cmpxchg bytes p cmp _ =>
      let old := load s.mem (s.ptr p) bytes
      some (old + if old = s.value cmp then 256 ^ bytes else 0)
  | .ptrtoint p => some (s.ptr p)
  | .and x y => some (s.value x &&& s.value y)
  | .inttoptr x => some (s.ptr x)
  | .pure f args => some (f (args.map s.value))
  | .call _ => some v

def isCall (i : Inst ν) : Bool :=
  match i.op with
  | .call _ => true
  | _ => false

end Inst

variable [DecidableEq ν]

namespace State

/-- The values after an instruction. -/
def set (s : State ν) (n : ν) : Option Nat → ν → Nat
  | some v => Function.update s.regs n v
  | none => s.regs

/-- The state after an instruction that leaves this memory, before its own write. -/
def exec (at_ : Nat → Nat) (s : State ν) (i : Inst ν) (rest : List (Inst ν)) (v : Nat) (m : Memory) : State ν where
  blk := s.blk
  todo := rest
  regs := s.set i.name (i.result v s)
  args := s.args
  mem :=
    match i.write at_ s with
    | some w => w.apply m
    | none => m
  writes := s.writes ++ (i.write at_ s).toList

/-- The phi nodes of a block, all at once. -/
def phis (s : State ν) (B : Block ν) (n : ν) : Nat :=
  match B.phis.find? fun φ ↦ φ.name = n with
  | some φ => s.value (φ.incoming s.blk)
  | none => s.regs n

/-- The next block. -/
def jump (F : Func ν) (s : State ν) : Option (State ν) :=
  match F.block s.blk with
  | none => none
  | some B =>
      match B.term.targets[B.term.select (s.value B.term.cond)]? with
      | none => none
      | some b =>
          match F.block b with
          | none => none
          | some B' => some { s with blk := b, todo := B'.body, regs := s.phis B' }

def next (F : Func ν) (at_ : Nat → Nat) (s : State ν) : Event → Option (State ν)
  | .env m => some { s with mem := m }
  | .run =>
      match s.todo with
      | [] => s.jump F
      | i :: rest => if i.isCall then none else some (s.exec at_ i rest 0 s.mem)
  | .call v m =>
      match s.todo with
      | [] => none
      | i :: rest => if i.isCall then some (s.exec at_ i rest v m) else none

/-- The start of a call of the function. -/
def start (F : Func ν) (regs : ν → Nat) (args : Nat → Nat) (mem : Memory) : State ν where
  blk := 0
  todo := ((F.block 0).map Block.body).getD []
  regs := regs
  args := args
  mem := mem
  writes := []

end State

/-- A step, where stores without `m-ignore` go to the address that `at_` makes of their pointer: for
the meaning of a function it is `id`. -/
def Step (F : Func ν) (at_ : Nat → Nat) (s : State ν) (e : Event) (s' : State ν) : Prop :=
  s.next F at_ e = some s'

/-- The event of an instruction that is executed, with what a call returns and the memory that it leaves. -/
def Inst.Fires (i : Inst ν) (mem : Memory) (e : Event) (v : Nat) (m : Memory) : Prop :=
  i.isCall = false ∧ e = .run ∧ v = 0 ∧ m = mem ∨ i.isCall = true ∧ e = .call v m

variable {F : Func ν} {at_ : Nat → Nat} {s s' : State ν} {e : Event} {i : Inst ν} {rest : List (Inst ν)}

theorem step_env (m : Memory) : Step F at_ s (.env m) { s with mem := m } := rfl

theorem step_exec {v : Nat} {m : Memory} (hs : s.todo = i :: rest) (he : i.Fires s.mem e v m) :
    Step F at_ s e (s.exec at_ i rest v m) := by
  unfold Step State.next
  rcases he with ⟨hcall, rfl, rfl, rfl⟩ | ⟨hcall, rfl⟩ <;> simp [hs, hcall]

theorem step_jump (hs : s.todo = []) (h : s.jump F = some s') : Step F at_ s .run s' := by
  unfold Step State.next
  simp only [hs, h]

/-- What can happen when there is an instruction to do. -/
theorem step_cons (hs : s.todo = i :: rest) (h : Step F at_ s e s') :
    (∃ m, e = .env m ∧ s' = { s with mem := m }) ∨ ∃ v m, i.Fires s.mem e v m ∧ s' = s.exec at_ i rest v m := by
  unfold Step State.next at h
  cases e with
  | env m => exact .inl ⟨m, rfl, (Option.some.inj h).symm⟩
  | run =>
      simp only [hs, Option.ite_none_left_eq_some, Bool.not_eq_true] at h
      exact .inr ⟨0, s.mem, .inl ⟨h.1, rfl, rfl, rfl⟩, (Option.some.inj h.2).symm⟩
  | call v m =>
      simp only [hs, Option.ite_none_right_eq_some] at h
      exact .inr ⟨v, m, .inr ⟨h.1, rfl⟩, (Option.some.inj h.2).symm⟩

/-- What can happen at the end of a block. -/
theorem step_nil (hs : s.todo = []) (h : Step F at_ s e s') :
    (∃ m, e = .env m ∧ s' = { s with mem := m }) ∨ e = .run ∧ s.jump F = some s' := by
  unfold Step State.next at h
  cases e with
  | env m => exact .inl ⟨m, rfl, (Option.some.inj h).symm⟩
  | run =>
      simp only [hs] at h
      exact .inr ⟨rfl, h⟩
  | call v m =>
      simp only [hs] at h
      cases h

theorem jump_eq_some : s.jump F = some s' ↔ ∃ B b B', F.block s.blk = some B ∧
    B.term.targets[B.term.select (s.value B.term.cond)]? = some b ∧ F.block b = some B' ∧
      s' = { s with blk := b, todo := B'.body, regs := s.phis B' } := by
  unfold State.jump
  constructor
  · intro h
    split at h
    · cases h
    · next B hB =>
        split at h
        · cases h
        · next b hb =>
            split at h
            · cases h
            · next B' hB' => exact ⟨B, b, B', hB, hb, hB', (Option.some.inj h).symm⟩
  · rintro ⟨B, b, B', hB, hb, hB', rfl⟩
    simp only [hB, hb, hB']

end Exec

/-! ## Control flow -/

/-- A place in a function: the head of a block with its phi nodes, an instruction, or a terminator. -/
inductive Node (ν : Type u) where
  | head (b : Nat)
  | inst (n : ν)
  | term (b : Nat)
deriving DecidableEq

section Flow

variable {ν : Type u}

def Block.nodes (b : Nat) (B : Block ν) : List (Node ν) :=
  .head b :: (B.body.map fun i ↦ .inst i.name) ++ [.term b]

namespace Func

/-- One node can come right after another. -/
inductive Edge (F : Func ν) : Node ν → Node ν → Prop
  | next {b : Nat} {B : Block ν} {i j : Node ν} {l r : List (Node ν)} :
      F.block b = some B → B.nodes b = l ++ i :: j :: r → Edge F i j
  | jump {b b' : Nat} {B : Block ν} : F.block b = some B → b' ∈ B.term.targets → Edge F (.term b) (.head b')

/-- The value is computed at the node. -/
inductive DefinedAt (F : Func ν) (n : ν) : Node ν → Prop
  | phi {b : Nat} {B : Block ν} {φ : Phi ν} : F.block b = some B → φ ∈ B.phis → φ.name = n → DefinedAt F n (.head b)
  | inst {i : Inst ν} : i ∈ F.insts → i.name = n → DefinedAt F n (.inst n)

/-- `d` dominates `i`: it is passed on every path from the entry to `i` before. -/
def Dominates (F : Func ν) (d i : Node ν) : Prop := StrictDom F.Edge (.head 0) d i

/-- What is needed of SSA form: there is an entry block, names belong to one instruction only, and the pointer of
a store is computed before the store on every path. -/
structure Ssa (F : Func ν) : Prop where
  entry : ∃ B, F.block 0 = some B
  unique : (F.insts.map Inst.name).Nodup
  dominated : ∀ i ∈ F.insts, ∀ kind bytes val n, i.op = .store kind bytes val (.inst n) →
    ∀ d, F.DefinedAt n d → F.Dominates d (.inst i.name)

end Func

end Flow

end ShadowStack.Ir
