import ShadowStack.X86.Pass

/-!
# Paths through a function

Which inserted instructions are executed on a path from the entry of a function to where it is left.
A path may take every branch either way, whatever the flags are; it is left by a return or a tail jump.
-/

namespace ShadowStack.X86

/-- The path is left here, or may be. -/
def Inst.leaves : Inst → Bool
  | .orig i => i.isReturn
  | _ => false

/-- The path may go on with the next instruction. -/
def Inst.continues : Inst → Bool
  | .orig (.jmp _) | .orig (.ret _) | .orig (.tailJmp _) | .trap => false
  | _ => true

/-- The block a branch may go to. -/
def Inst.target : Inst → Option Nat
  | .orig (.jmp target) | .orig (.jcc target _) | .jcc1 target _ => some target
  | _ => none

/-- What happens on a path: another block is entered, or an instruction executed. -/
inductive Visit where
  | block (blk : Nat)
  | inst (i : Inst)

/-- A path from a place in a block to where the function is left. -/
inductive Path (mf : MachineFunction Inst) : Nat → List Inst → List Visit → Prop
  | leave {blk : Nat} {i : Inst} {rest : List Inst} : i.leaves → Path mf blk (i :: rest) [.inst i]
  | go {blk : Nat} {i : Inst} {rest : List Inst} {t : List Visit} : i.continues → Path mf blk rest t →
      Path mf blk (i :: rest) (.inst i :: t)
  | branch {blk target : Nat} {i : Inst} {rest b : List Inst} {t : List Visit} : i.target = some target →
      mf.blocks[target]? = some b → Path mf target b t →
      Path mf blk (i :: rest) (.inst i :: .block target :: t)
  | fall {blk : Nat} {b : List Inst} {t : List Visit} : mf.blocks[blk + 1]? = some b →
      Path mf (blk + 1) b t → Path mf blk [] (.block (blk + 1) :: t)

/-! ## What is asked of a path -/

/-- The instruction that moves `gs:[8]` up. -/
def Visit.isPush : Visit → Bool
  | .inst (.add64ri8 _ _) => true
  | _ => false

/-- The instruction that moves `gs:[8]` down. -/
def Visit.isPop : Visit → Bool
  | .inst (.sub64ri8 _ _) => true
  | _ => false

/-- A conditional tail jump. -/
def Visit.isCC : Visit → Bool
  | .inst (.orig (.tailJmpCC _ _)) => true
  | _ => false

/-- The first block is entered again. -/
def Visit.isEntry : Visit → Bool
  | .block blk => blk == 0
  | _ => false

def Inst.isOrig : Inst → Bool
  | .orig _ => true
  | _ => false

def Inst.writesFlags : Inst → Bool
  | .orig (.op o) => o.defsFlags
  | .orig (.call _ _) | .add64ri8 _ _ | .sub64ri8 _ _ | .cmp64mr _ _ => true
  | _ => false

/-- Every conditional tail jump sees the flags of the function: the last instruction that has written
flags, `last`, is the last one of the function that has, `lastOrig`. -/
def FlagsKept (last lastOrig : Option Inst) : List Visit → Prop
  | [] => True
  | .block _ :: t => FlagsKept last lastOrig t
  | .inst i :: t =>
      (Visit.isCC (.inst i) → last = lastOrig) ∧
      FlagsKept (if i.writesFlags then some i else last)
        (if i.writesFlags && i.isOrig then some i else lastOrig) t

/-- One push, one pop, and the flags of the function where it tests them. -/
structure Balanced (t : List Visit) : Prop where
  push : t.countP Visit.isPush = 1
  pop : t.countP Visit.isPop = 1
  flags : FlagsKept none none t

/-! ## Inserted code -/

variable {mf : MachineFunction Orig} {strategy : ViolationStrategy} {scavenger : Scavenger}

/-- Nothing leads out of the trap block. -/
theorem not_path_trap {mf : MachineFunction Inst} {blk : Nat} {rest : List Inst} {t : List Visit} :
    ¬ Path mf blk (.trap :: rest) t := by
  intro h
  cases h with
  | leave h => cases h
  | go h => cases h
  | branch h => cases h

/-- The path runs through these instructions, or ends in the trap block. -/
def Forced (mf : MachineFunction Inst) (i : Inst) : Prop :=
  i.leaves = false ∧ ∀ target, i.target = some target → mf.blocks[target]? = some [.trap]

theorem Path.peel {mf : MachineFunction Inst} {blk : Nat} {seq rest : List Inst} {t : List Visit}
    (hseq : ∀ i ∈ seq, Forced mf i) (h : Path mf blk (seq ++ rest) t) :
    ∃ t', t = seq.map .inst ++ t' ∧ Path mf blk rest t' := by
  induction seq generalizing t with
  | nil => exact ⟨t, rfl, h⟩
  | cons i seq ih =>
      obtain ⟨hleave, htarget⟩ := hseq i (List.mem_cons_self ..)
      cases h with
      | leave hi => rw [hleave] at hi; cases hi
      | go _ hrest =>
          obtain ⟨t', rfl, ht'⟩ := ih (fun j hj ↦ hseq j (List.mem_cons_of_mem _ hj)) hrest
          exact ⟨t', rfl, ht'⟩
      | branch hi hb hrest =>
          obtain rfl := Option.some.inj (hb.symm.trans (htarget _ hi))
          exact absurd hrest not_path_trap

theorem forced_preamble {mf : MachineFunction Inst} : ∀ i ∈ preamble, Forced mf i := by
  intro i hi
  simp only [preamble, List.mem_cons, List.not_mem_nil, or_false] at hi
  rcases hi with rfl | rfl | rfl | rfl | rfl | rfl | rfl | rfl | rfl <;> exact ⟨rfl, nofun⟩

/-- The instructions of `instrumentRet`. -/
theorem mem_instrumentRet {trapBB : Nat} (scratch : Option Reg) :
    ∀ i ∈ instrumentRet strategy trapBB scratch, i.leaves = false ∧ i.isOrig = false ∧
      (i.target = none ∨ (strategy = .trap ∧ i.target = some trapBB)) := by
  cases scratch <;> cases strategy <;>
    simp [instrumentRet, popAndEnforce, enforce, Inst.leaves, Inst.isOrig, Inst.target]

theorem forced_instrumentRet {blk : Nat} {b l : List Orig} {i : Orig} (hf : mf.hasCalls)
    (hb : mf.blocks[blk]? = some b) (hl : i :: l <:+ b) (hi : i.isReturn) (scratch : Option Reg) :
    ∀ j ∈ instrumentRet strategy mf.blocks.length scratch,
      Forced (runOnMachineFunction strategy scavenger mf) j := by
  intro j hj
  obtain ⟨hleave, -, htarget⟩ := mem_instrumentRet scratch j hj
  refine ⟨hleave, fun target ht ↦ ?_⟩
  rcases htarget with hnone | ⟨hstrategy, hsome⟩
  · rw [hnone] at ht
    cases ht
  · obtain rfl := Option.some.inj (hsome.symm.trans ht)
    exact blocks_trap_of_return hf hstrategy hb hl hi

/-! ## What a path consists of -/

/-- What is known of a path from a place in a function: it executes the preamble once for each time the
first block is entered, with `k` more if the path begins there. -/
structure Summary (k : Nat) (t : List Visit) : Prop where
  push : t.countP Visit.isPush = t.countP Visit.isEntry + k
  pop : t.countP Visit.isCC = 0 → t.countP Visit.isPop = 1
  flags : ∀ last lastOrig : Option Inst, (∀ i, lastOrig = some i → i.isOrig) →
    (FlagsKept last lastOrig t ↔ t.countP Visit.isCC = 0)

namespace Summary

variable {k : Nat} {t : List Visit}

/-- Entering another block but the first. -/
theorem block (h : Summary k t) {blk : Nat} (hblk : blk ≠ 0) : Summary k (.block blk :: t) where
  push := by
    rw [List.countP_cons_of_neg (by simp [Visit.isPush]), List.countP_cons_of_neg (by simpa [Visit.isEntry])]
    exact h.push
  pop hcc := by
    rw [List.countP_cons_of_neg (by simp [Visit.isCC])] at hcc
    rw [List.countP_cons_of_neg (by simp [Visit.isPop])]
    exact h.pop hcc
  flags last lastOrig ho := by
    rw [List.countP_cons_of_neg (by simp [Visit.isCC]), FlagsKept]
    exact h.flags last lastOrig ho

/-- An instruction of the function that is not a return. -/
theorem orig (h : Summary k t) {i : Orig} (hi : i.isReturn = false) : Summary k (.inst (.orig i) :: t) where
  push := by
    rw [List.countP_cons_of_neg (by simp [Visit.isPush]), List.countP_cons_of_neg (by simp [Visit.isEntry])]
    exact h.push
  pop hcc := by
    have hi' : ¬ Visit.isCC (.inst (.orig i)) := by cases i <;> simp_all [Visit.isCC, Orig.isReturn]
    rw [List.countP_cons_of_neg hi'] at hcc
    rw [List.countP_cons_of_neg (by simp [Visit.isPop])]
    exact h.pop hcc
  flags last lastOrig ho := by
    have hi' : ¬ Visit.isCC (.inst (.orig i)) := by cases i <;> simp_all [Visit.isCC, Orig.isReturn]
    rw [List.countP_cons_of_neg hi', FlagsKept]
    have hrest := h.flags (if (Inst.orig i).writesFlags then some (.orig i) else last)
      (if (Inst.orig i).writesFlags && (Inst.orig i).isOrig then some (.orig i) else lastOrig) (by
        intro j hj
        split at hj
        · rw [← Option.some.inj hj]
          rfl
        · exact ho j hj)
    exact ⟨fun hk ↦ hrest.mp hk.2, fun hk ↦ ⟨fun hc ↦ absurd hc hi', hrest.mpr hk⟩⟩

/-- Entering the first block. -/
theorem entry (h : Summary 1 t) : Summary 0 (.block 0 :: t) where
  push := by
    rw [List.countP_cons_of_neg (by simp [Visit.isPush]), List.countP_cons_of_pos (by simp [Visit.isEntry])]
    exact h.push
  pop hcc := by
    rw [List.countP_cons_of_neg (by simp [Visit.isCC])] at hcc
    rw [List.countP_cons_of_neg (by simp [Visit.isPop])]
    exact h.pop hcc
  flags last lastOrig ho := by
    rw [List.countP_cons_of_neg (by simp [Visit.isCC]), FlagsKept]
    exact h.flags last lastOrig ho

/-- The preamble. -/
theorem preamble (h : Summary 0 t) : Summary 1 (preamble.map .inst ++ t) where
  push := by
    have hpush : (X86.preamble.map Visit.inst).countP Visit.isPush = 1 := rfl
    have hentry : (X86.preamble.map Visit.inst).countP Visit.isEntry = 0 := rfl
    rw [List.countP_append, List.countP_append, h.push, hpush, hentry]
    omega
  pop hcc := by
    have hcc' : t.countP Visit.isCC = 0 := by
      rw [List.countP_append] at hcc
      omega
    have hpop : (X86.preamble.map Visit.inst).countP Visit.isPop = 0 := rfl
    rw [List.countP_append, h.pop hcc', hpop]
  flags last lastOrig ho := by
    have hflags := h.flags (some (.add64ri8 .r11 8)) lastOrig ho
    simpa [X86.preamble, FlagsKept, Visit.isCC, Inst.writesFlags, Inst.isOrig] using hflags

end Summary

variable (strategy) in
/-- The code before a return, on a path. -/
theorem instrumentRet_visits (trapBB : Nat) (scratch : Option Reg) (t : List Visit) :
    let seq := (instrumentRet strategy trapBB scratch).map Visit.inst
    ((seq ++ t).countP Visit.isPush = t.countP Visit.isPush ∧
      (seq ++ t).countP Visit.isEntry = t.countP Visit.isEntry ∧
      (seq ++ t).countP Visit.isPop = t.countP Visit.isPop + 1 ∧
      (seq ++ t).countP Visit.isCC = t.countP Visit.isCC) ∧
    ∃ w : Inst, w.isOrig = false ∧ ∀ last lastOrig,
      FlagsKept last lastOrig (seq ++ t) ↔ FlagsKept (some w) lastOrig t := by
  have hcount : ((instrumentRet strategy trapBB scratch).map Visit.inst).countP Visit.isPush = 0 ∧
      ((instrumentRet strategy trapBB scratch).map Visit.inst).countP Visit.isEntry = 0 ∧
      ((instrumentRet strategy trapBB scratch).map Visit.inst).countP Visit.isPop = 1 ∧
      ((instrumentRet strategy trapBB scratch).map Visit.inst).countP Visit.isCC = 0 := by
    cases scratch <;> cases strategy <;> exact ⟨rfl, rfl, rfl, rfl⟩
  obtain ⟨hpush, hentry, hpop, hcc⟩ := hcount
  constructor
  · simp only [List.countP_append, hpush, hentry, hpop, hcc]
    omega
  · cases strategy with
    | blindWrite =>
        refine ⟨.sub64ri8 (scratch.getD .r11) 8, rfl, fun last lastOrig ↦ ?_⟩
        cases scratch <;>
          simp [instrumentRet, popAndEnforce, enforce, FlagsKept, Visit.isCC, Inst.writesFlags, Inst.isOrig]
    | trap =>
        refine ⟨.cmp64mr ⟨some .rsp, 1, none, if scratch.isNone then 8 else 0, false⟩ (scratch.getD .r11),
          rfl, fun last lastOrig ↦ ?_⟩
        cases scratch <;>
          simp [instrumentRet, popAndEnforce, enforce, FlagsKept, Visit.isCC, Inst.writesFlags, Inst.isOrig]

/-- The path is left by a return, with the code before it. -/
theorem Summary.leave {trapBB : Nat} (scratch : Option Reg) {i : Orig} (hi : i.isReturn) :
    Summary 0 ((instrumentRet strategy trapBB scratch).map .inst ++ [.inst (.orig i)]) := by
  obtain ⟨⟨hpush, hentry, hpop, hcc⟩, w, hw, hflags⟩ :=
    instrumentRet_visits strategy trapBB scratch [.inst (.orig i)]
  constructor
  · rw [hpush, hentry]
    cases i <;> simp [Visit.isPush, Visit.isEntry]
  · rintro -
    rw [hpop]
    cases i <;> simp [Visit.isPop]
  · intro last lastOrig ho
    have hne : some w ≠ lastOrig := by
      intro hc
      rw [ho w hc.symm] at hw
      cases hw
    rw [hflags, hcc]
    cases i <;> simp_all [FlagsKept, Visit.isCC, Orig.isReturn]

/-- A conditional tail jump is not taken. -/
theorem Summary.skip {trapBB : Nat} {t : List Visit} (h : Summary 0 t) (scratch : Option Reg) (f : Nat) (cc : Cond) :
    Summary 0 ((instrumentRet strategy trapBB scratch).map .inst ++ .inst (.orig (.tailJmpCC f cc)) :: t) := by
  obtain ⟨⟨hpush, hentry, hpop, hcc⟩, w, hw, hflags⟩ :=
    instrumentRet_visits strategy trapBB scratch (.inst (.orig (.tailJmpCC f cc)) :: t)
  have hpos : (Visit.inst (.orig (.tailJmpCC f cc)) :: t).countP Visit.isCC ≠ 0 := by
    rw [List.countP_cons_of_pos (by simp [Visit.isCC])]
    omega
  constructor
  · rw [hpush, hentry, List.countP_cons_of_neg (by simp [Visit.isPush]),
      List.countP_cons_of_neg (by simp [Visit.isEntry]), h.push]
  · rw [hcc]
    exact fun hc ↦ absurd hc hpos
  · intro last lastOrig ho
    rw [hflags, hcc, FlagsKept]
    refine ⟨fun hk ↦ ?_, fun hc ↦ absurd hc hpos⟩
    have hlast := ho w (hk.1 rfl).symm
    rw [hlast] at hw
    cases hw

section

variable (mf strategy scavenger)

/-- Every path of this length, from inside a block, is as summarised. -/
def FromInside (t : List Visit) : Prop :=
  ∀ blk b l, mf.blocks[blk]? = some b → l <:+ b →
    Path (runOnMachineFunction strategy scavenger mf) blk
      (instrumentBlock strategy mf.blocks.length (scavenger.find blk) l) t → Summary 0 t

/-- Every path of this length, from the start of a block, is as summarised. -/
def FromBlock (t : List Visit) : Prop :=
  ∀ blk b', (runOnMachineFunction strategy scavenger mf).blocks[blk]? = some b' →
    Path (runOnMachineFunction strategy scavenger mf) blk b' t → Summary (if blk = 0 then 1 else 0) t

end

theorem FromBlock.enter {t : List Visit} (h : FromBlock mf strategy scavenger t) {blk : Nat} {b' : List Inst}
    (hb : (runOnMachineFunction strategy scavenger mf).blocks[blk]? = some b')
    (hp : Path (runOnMachineFunction strategy scavenger mf) blk b' t) : Summary 0 (.block blk :: t) := by
  have hs := h blk b' hb hp
  by_cases hblk : blk = 0
  · rw [if_pos hblk] at hs
    rw [hblk]
    exact hs.entry
  · rw [if_neg hblk] at hs
    exact hs.block hblk

theorem fromInside {t : List Visit} (hf : mf.hasCalls)
    (ih : ∀ t' : List Visit, t'.length < t.length →
      FromInside mf strategy scavenger t' ∧ FromBlock mf strategy scavenger t') :
    FromInside mf strategy scavenger t := by
  intro blk b l hb hl hp
  cases l with
  | nil =>
      cases hp with
      | fall hnext hrest => exact (ih _ (Nat.lt_succ_self _)).2.enter hnext hrest
  | cons i l =>
      have hl' : l <:+ b := (List.suffix_cons i l).trans hl
      cases hi : i.isReturn with
      | false =>
          rw [instrumentBlock, if_neg (by rw [hi]; decide), List.nil_append] at hp
          cases hp with
          | leave hc => rw [Inst.leaves, hi] at hc; cases hc
          | go _ hrest => exact ((ih _ (Nat.lt_succ_self _)).1 blk b l hb hl' hrest).orig hi
          | branch _ hnext hrest =>
              refine ((ih _ ?_).2.enter hnext hrest).orig hi
              rw [List.length_cons, List.length_cons]
              omega
      | true =>
          rw [instrumentBlock, if_pos hi] at hp
          obtain ⟨t', rfl, hp'⟩ := hp.peel (forced_instrumentRet hf hb hl hi _)
          cases hp' with
          | leave => exact .leave _ hi
          | go hc hrest =>
              cases i with
              | tailJmpCC f cc =>
                  refine ((ih _ ?_).1 blk b l hb hl' hrest).skip _ f cc
                  rw [List.length_append, List.length_cons]
                  omega
              | ret | tailJmp => cases hc
              | _ => cases hi
          | branch ht =>
              cases i with
              | jmp | jcc => cases hi
              | _ => cases ht

/-- The first block, from the preamble. -/
theorem fromPreamble {t : List Visit}
    (ih : ∀ t' : List Visit, t'.length < t.length → FromInside mf strategy scavenger t')
    {b l : List Orig} (hb : mf.blocks[0]? = some b) (hl : l <:+ b)
    (hp : Path (runOnMachineFunction strategy scavenger mf) 0
      (preamble ++ instrumentBlock strategy mf.blocks.length (scavenger.find 0) l) t) : Summary 1 t := by
  obtain ⟨t', rfl, hp'⟩ := hp.peel forced_preamble
  refine (ih t' ?_ 0 b l hb hl hp').preamble
  have hlen : preamble.length = 9 := rfl
  rw [List.length_append, List.length_map, hlen]
  omega

/-- The first block, from one of its leading meta instructions. -/
theorem fromFront {t : List Visit}
    (ih : ∀ t' : List Visit, t'.length < t.length → FromInside mf strategy scavenger t')
    {b l : List Orig} (hb : mf.blocks[0]? = some b) (hl : l <:+ b)
    (hp : Path (runOnMachineFunction strategy scavenger mf) 0
      (instrumentFront strategy mf.blocks.length (scavenger.find 0) l) t) : Summary 1 t := by
  induction l generalizing t with
  | nil => exact fromPreamble ih hb hl hp
  | cons i l ihl =>
      cases i with
      | metaInstr =>
          cases hp with
          | leave hc => cases hc
          | branch hc => cases hc
          | go _ hrest =>
              refine (ihl (fun t' ht' ↦ ih t' (ht'.trans (Nat.lt_succ_self _))) ?_ hrest).orig rfl
              exact (List.suffix_cons _ l).trans hl
      | _ => exact fromPreamble ih hb hl hp

/-- **What a path consists of**, by induction on its length. -/
theorem path_summary (hf : mf.hasCalls) (t : List Visit) :
    FromInside mf strategy scavenger t ∧ FromBlock mf strategy scavenger t := by
  induction hn : t.length using Nat.strong_induction_on generalizing t with
  | _ n ih =>
      have ih' : ∀ t' : List Visit, t'.length < t.length →
          FromInside mf strategy scavenger t' ∧ FromBlock mf strategy scavenger t' :=
        fun t' ht' ↦ ih t'.length (hn ▸ ht') t' rfl
      have hinside := fromInside hf ih'
      refine ⟨hinside, fun blk b' hb' hp ↦ ?_⟩
      rcases blocks_runOnMachineFunction hf hb' with ⟨b, hb, rfl⟩ | ⟨-, rfl⟩
      · by_cases hblk : blk = 0
        · subst hblk
          rw [if_pos rfl] at hp ⊢
          exact fromFront (fun t' ht' ↦ (ih' t' ht').1) hb List.suffix_rfl hp
        · rw [if_neg hblk] at hp ⊢
          exact hinside blk b b hb List.suffix_rfl hp
      · exact absurd hp not_path_trap

/-- **Balance.**  A path through an instrumented function pushes once and pops once, and every
conditional return sees the flags of the function, exactly if the path neither executes a conditional
return nor comes back to the first block. -/
theorem path_balanced_iff (hf : mf.hasCalls) {b : List Inst} {t : List Visit}
    (hb : (runOnMachineFunction strategy scavenger mf).blocks[0]? = some b)
    (hp : Path (runOnMachineFunction strategy scavenger mf) 0 b t) :
    Balanced t ↔ (∀ f cc, .inst (.orig (.tailJmpCC f cc)) ∉ t) ∧ .block 0 ∉ t := by
  obtain ⟨hpush, hpop, hflags⟩ := (path_summary hf t).2 0 b hb hp
  rw [if_pos rfl] at hpush
  have hflags' := hflags none none fun _ hc ↦ by cases hc
  have hcc : t.countP Visit.isCC = 0 ↔ ∀ f cc, .inst (.orig (.tailJmpCC f cc)) ∉ t := by
    rw [List.countP_eq_zero]
    refine ⟨fun h f cc hmem ↦ h _ hmem rfl, fun h v hv hc ↦ ?_⟩
    unfold Visit.isCC at hc
    split at hc
    · exact h _ _ hv
    · cases hc
  have hentry : t.countP Visit.isEntry = 0 ↔ .block 0 ∉ t := by
    rw [List.countP_eq_zero]
    refine ⟨fun h hmem ↦ h _ hmem rfl, fun h v hv hc ↦ ?_⟩
    cases v with
    | block blk =>
        obtain rfl : blk = 0 := by simpa [Visit.isEntry] using hc
        exact h hv
    | inst i => cases hc
  rw [← hcc, ← hentry]
  constructor
  · rintro ⟨h₁, h₂, h₃⟩
    exact ⟨hflags'.mp h₃, by omega⟩
  · rintro ⟨h₁, h₂⟩
    exact ⟨by omega, hpop h₁, hflags'.mpr h₁⟩

/-- A function with a call and a return. -/
def plainReturn : MachineFunction Orig := ⟨[[.call (.direct 1) 0x401000, .ret 0]]⟩

/-- A function with a call, a conditional tail jump and a return. -/
def conditionalReturn : MachineFunction Orig :=
  ⟨[[.call (.direct 1) 0x401000, .tailJmpCC 1 .e, .ret 0]]⟩

/-- The scavenger always finds `rcx`. -/
def rcxScratch : Scavenger := ⟨fun _ _ ↦ some .rcx, by simp⟩

/-- The only block of such a function, after the pass. -/
def onlyBlock (mf : MachineFunction Orig) : List Inst :=
  ((runOnMachineFunction .blindWrite rcxScratch mf).blocks[0]?).getD []

theorem plainReturn_path :
    Path (runOnMachineFunction .blindWrite rcxScratch plainReturn) 0 (onlyBlock plainReturn)
      ((onlyBlock plainReturn).map .inst) := by
  repeat first
    | exact .leave rfl
    | refine .go rfl ?_

theorem path_balanced_iff_plainReturn : Balanced ((onlyBlock plainReturn).map .inst) := by
  have hcc : ((onlyBlock plainReturn).map Visit.inst).countP Visit.isCC = 0 := rfl
  have hentry : ((onlyBlock plainReturn).map Visit.inst).countP Visit.isEntry = 0 := rfl
  refine (path_balanced_iff ?_ ?_ plainReturn_path).mpr ⟨fun f cc hmem ↦ ?_, fun hmem ↦ ?_⟩
  · rfl
  · rfl
  · exact List.countP_eq_zero.mp hcc _ hmem rfl
  · exact List.countP_eq_zero.mp hentry _ hmem rfl

/-- The conditional tail jump is not taken, and the function returns after it. -/
theorem conditionalReturn_path :
    Path (runOnMachineFunction .blindWrite rcxScratch conditionalReturn) 0 (onlyBlock conditionalReturn)
      ((onlyBlock conditionalReturn).map .inst) := by
  repeat first
    | exact .leave rfl
    | refine .go rfl ?_

theorem not_path_balanced : ¬ ∀ (mf : MachineFunction Orig) strategy scavenger b t, mf.hasCalls →
    (runOnMachineFunction strategy scavenger mf).blocks[0]? = some b →
    Path (runOnMachineFunction strategy scavenger mf) 0 b t → Balanced t := by
  intro h
  have hpop := (h conditionalReturn .blindWrite rcxScratch _ _ rfl rfl conditionalReturn_path).pop
  have htwo : ((onlyBlock conditionalReturn).map Visit.inst).countP Visit.isPop = 2 := rfl
  rw [htwo] at hpop
  cases hpop

end ShadowStack.X86
