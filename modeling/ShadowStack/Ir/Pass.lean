import Mathlib.Logic.Function.Basic
import ShadowStack.Ir.Function

/-!
# The masking pass

`SSFunctionPass` of `shadow_stack/ShadowStack.cpp`: in front of each store without `m-ignore` metadata its
pointer is masked, unless one of three optimisations finds that it need not be, or that it has been masked
before.
-/

universe u v

namespace ShadowStack.Ir

open Lib

/-! ## Names and renaming -/

/-- Instructions of the function itself, and those that are put in front of the store `n`. -/
inductive Name where
  | own (n : Nat)
  | toInt (n : Nat)
  | maskedAdr (n : Nat)
  | masked (n : Nat)
deriving DecidableEq, Repr

section Map

variable {ν : Type u} {μ : Type v} (f : ν → μ)

def Value.map : Value ν → Value μ
  | .const c => .const c
  | .arg i => .arg i
  | .inst n => .inst (f n)

def Op.map : Op ν → Op μ
  | .store kind bytes val p => .store kind bytes (val.map f) (p.map f)
  | .load bytes p => .load bytes (p.map f)
  | .atomicrmw bytes g p val => .atomicrmw bytes g (p.map f) (val.map f)
  | .cmpxchg bytes p cmp new => .cmpxchg bytes (p.map f) (cmp.map f) (new.map f)
  | .memset dst byte len => .memset (dst.map f) (byte.map f) (len.map f)
  | .memmove dst src len => .memmove (dst.map f) (src.map f) (len.map f)
  | .ptrtoint x => .ptrtoint (x.map f)
  | .and x y => .and (x.map f) (y.map f)
  | .inttoptr x => .inttoptr (x.map f)
  | .pure g args => .pure g (args.map (Value.map f))
  | .call args => .call (args.map (Value.map f))

def Inst.map (i : Inst ν) : Inst μ := ⟨f i.name, i.ignore, i.op.map f⟩

def Phi.map (φ : Phi ν) : Phi μ := ⟨f φ.name, fun b ↦ (φ.incoming b).map f⟩

def Term.map (t : Term ν) : Term μ := ⟨t.cond.map f, t.targets, t.select⟩

def Block.map (B : Block ν) : Block μ := ⟨B.phis.map (Phi.map f), B.body.map (Inst.map f), B.term.map f⟩

def Func.map (F : Func ν) : Func μ := ⟨F.blocks.map (Block.map f)⟩

end Map

/-! ## Editing a function -/

section Edit

variable {ν : Type u}

/-- Every instruction becomes some instructions. -/
def Func.mapInsts (F : Func ν) (e : Inst ν → List (Inst ν)) : Func ν :=
  ⟨F.blocks.map fun B ↦ { B with body := B.body.flatMap e }⟩

/-- `setOperand(getPointerOperandIndex(), v)`. -/
def Inst.setPointer (i : Inst ν) (v : Value ν) : Inst ν :=
  match i.op with
  | .store kind bytes val _ => { i with op := .store kind bytes val v }
  | _ => i

variable [DecidableEq ν]

/-- Put instructions in front of the one with this name. -/
def Func.insertBefore (F : Func ν) (n : ν) (new : List (Inst ν)) : Func ν :=
  F.mapInsts fun i ↦ if i.name = n then new ++ [i] else [i]

def Func.setPointer (F : Func ν) (n : ν) (v : Value ν) : Func ν :=
  F.mapInsts fun i ↦ if i.name = n then [i.setPointer v] else [i]

end Edit

/-! ## The pass -/

/-- Which optimisations are compiled in: `KNOWNBITS_OPT`, `SCEV_OPT` and `DOMTREE_OPT`. -/
structure Opts where
  knownBits : Bool
  scev : Bool
  domTree : Bool

/-- The answers of the analyses: the bits of a value that `computeKnownBits` finds to be zero, the largest
value in its range by `ScalarEvolution`, and whether an instruction dominates a store by the
`DominatorTree`. -/
structure Analyses where
  knownZero : Value Name → Nat
  unsignedMax : Value Name → Nat
  unsignedMax_lt : ∀ v, unsignedMax v < 2 ^ 64
  dominates : Name → Name → Bool

/-- `~Mask`. -/
def bitsToClear : Nat := 2 ^ 64 - 1 - mask

/-- The function as far as it has been instrumented, and `MaskedPtrs`. -/
structure PassState where
  func : Func Name
  maskedPtrs : Value Name → Option (Value Name)

section Pass

variable (opts : Opts) (an : Analyses)

def knownBitsOpt (p : Value Name) : Bool := an.knownZero p &&& bitsToClear == bitsToClear

def scalarEvolutionOpt (p : Value Name) : Bool := an.unsignedMax p &&& bitsToClear == 0

/-- The masked pointer that the store `n` can use, if there is one. -/
def domTreeOpt (st : PassState) (n : Nat) (p : Value Name) : Option (Value Name) :=
  match st.maskedPtrs p with
  | none => none
  | some (.inst prev) => if an.dominates prev (.own n) then some (.inst prev) else none
  | some v => some v

/-- `ptrtoint`, `and` and `inttoptr` in front of the store `n`.  The builder folds what is done to a
constant; of the address of a global it makes the first of them a constant expression, which is computed like
the instruction. -/
def maskPointer (n : Nat) (p : Value Name) : List (Inst Name) × Value Name :=
  match p with
  | .const c => ([], .const (maskAddr c))
  | p =>
      ([⟨.toInt n, false, .ptrtoint p⟩, ⟨.maskedAdr n, false, .and (.inst (.toInt n)) (.const mask)⟩,
        ⟨.masked n, false, .inttoptr (.inst (.maskedAdr n))⟩], .inst (.masked n))

/-- The store `n` gets new instructions in front of it and the pointer `v`. -/
def PassState.edit (st : PassState) (n : Nat) (new : List (Inst Name)) (v : Value Name) : Func Name :=
  (st.func.insertBefore (.own n) new).setPointer (.own n) v

def instrumentStore (st : PassState) (n : Nat) (p : Value Name) : PassState :=
  if opts.knownBits && knownBitsOpt an p then st
  else if opts.scev && scalarEvolutionOpt an p then st
  else
    match if opts.domTree then domTreeOpt an st n p else none with
    | some v => { st with func := st.func.setPointer (.own n) v }
    | none =>
        { func := st.edit n (maskPointer n p).1 (maskPointer n p).2
          maskedPtrs := Function.update st.maskedPtrs p (some (maskPointer n p).2) }

/-- The stores without `m-ignore` metadata in the order of the blocks, with their pointers. -/
def Func.stores (F : Func Nat) : List (Nat × Value Nat) :=
  F.insts.filterMap fun i ↦
    match i.op with
    | .store _ _ _ p => if i.ignore then none else some (i.name, p)
    | _ => none

def instrumentStores (F : Func Nat) : Func Name :=
  (F.stores.foldl (fun st x ↦ instrumentStore opts an st x.1 (x.2.map .own))
    ⟨F.map .own, fun _ ↦ none⟩).func

/-- `SSFunctionPass::run`. -/
def runPass (instrumentStoresOn : Bool) (F : Func Nat) : Func Name :=
  if F.blocks.isEmpty then F.map .own
  else if instrumentStoresOn then instrumentStores opts an F
  else F.map .own

end Pass

/-- The pass without optimisations: every store is masked in front of it. -/
def Opts.plain : Opts := ⟨false, false, false⟩

end ShadowStack.Ir
