import ShadowStack.X86.Pass

/-!
# What the inserted instructions do

The effect of the preamble and of the code before a return, on a machine whose `gs` points to a chunk
and whose stack pointer is not near it.
-/

namespace ShadowStack.X86

open Lib

/-! ## The chunk and the stack -/

/-- `SSChunk`: the fields `next` and `top`, and the data. -/
structure Chunk where
  base : Nat
  size : Nat
  fits : base + size < 2 ^ 64

namespace Chunk

variable (c : Chunk)

/-- The address of a byte of the chunk. -/
def Mem (b : Nat) : Prop := c.base ≤ b ∧ b < c.base + c.size

/-- A return slot at `sp`, and the space that the inserted code uses below it. -/
def Clear (sp : Nat) : Prop := 16 ≤ sp ∧ sp + 8 ≤ 2 ^ 64 ∧ (sp + 8 ≤ c.base ∨ c.base + c.size ≤ sp - 16)

end Chunk

/-- `top`, the field at `gs:[8]`. -/
def Machine.top (m : Machine) : Nat := load64 m.mem (topOp.addr m)

/-- `gs` points to the chunk, and `top` into its data, or to its end. -/
structure Machine.OnChunk (m : Machine) (c : Chunk) : Prop where
  gs : m.gs = c.base
  data_le : c.base + 16 ≤ m.top
  le_end : m.top ≤ c.base + c.size

variable {c : Chunk} {m m' : Machine} {strategy : ViolationStrategy} {trapBB : Nat}

theorem topOp_addr (h : m.OnChunk c) : topOp.addr m = c.base + 8 := by
  have hlo := h.data_le
  have hhi := h.le_end
  have hfits := c.fits
  simp only [MemOp.addr, topOp, Machine.operand, h.gs, if_true]
  rw [wrap_of_lt (by omega)]

/-- The preamble has pushed the return address. -/
structure Pushed (c : Chunk) (m m' : Machine) : Prop where
  regs : m'.regs = m.regs
  gs : m'.gs = m.gs
  top : m'.top = m.top + 8
  saved : load64 m'.mem m.top = load64 m.mem (m.regs .rsp)
  chunk : ∀ b, c.Mem b → (b < c.base + 8 ∨ c.base + 16 ≤ b) → (b < m.top ∨ m.top + 8 ≤ b) →
    m'.mem b = m.mem b
  outside : ∀ b < 2 ^ 64, ¬ c.Mem b → (b < m.regs .rsp - 16 ∨ m.regs .rsp ≤ b) → m'.mem b = m.mem b

/-! ## Single instructions -/

/-- The parts of a machine, for symbolic execution. -/
structure Machine.Is (m : Machine) (regs : Reg → Nat) (flags : Flags) (gs : Nat) (mem : Memory) : Prop where
  regs : m.regs = regs
  flags : m.flags = flags
  gs : m.gs = gs
  mem : m.mem = mem

namespace Machine.Is

variable {R : Reg → Nat} {F : Flags} {G : Nat} {M : Memory} {r b : Reg} {s a v k d : Nat}

theorem set (h : m.Is R F G M) (hv : v < 2 ^ 64) : (m.set r v).Is (Function.update R r v) F G M := by
  obtain ⟨rfl, rfl, rfl, rfl⟩ := h
  refine ⟨?_, rfl, rfl, rfl⟩
  show Function.update m.regs r (wrap v) = Function.update m.regs r v
  rw [wrap_of_lt hv]

theorem push64r (h : m.Is R F G M) (hs : R .rsp = s) (hle : 8 ≤ s) :
    (Inst.exec m (.push64r r)).Is (Function.update R .rsp (s - 8)) F G (store64 M (s - 8) (R r)) := by
  obtain ⟨rfl, rfl, rfl, rfl⟩ := h
  have hlt := m.regs_lt .rsp
  have hsub : wrapSub (m.regs .rsp) 8 = s - 8 := by rw [wrapSub_of_le (by omega) hlt, hs]
  rw [Inst.exec, hsub]
  exact set ⟨rfl, rfl, rfl, rfl⟩ (by omega)

theorem pop64r (h : m.Is R F G M) (hs : R .rsp = s) (hlt : s + 8 < 2 ^ 64) (hv : load64 M s = v) :
    (Inst.exec m (.pop64r r)).Is (Function.update (Function.update R .rsp (s + 8)) r v) F G M := by
  obtain ⟨rfl, rfl, rfl, rfl⟩ := h
  rw [Inst.exec, hs, hv]
  exact (set ⟨rfl, rfl, rfl, rfl⟩ hlt).set (hv ▸ load64_lt ..)

theorem addr_base (h : m.Is R F G M) (ha : R b + d = a) (hlt : a < 2 ^ 64) :
    MemOp.addr ⟨some b, 1, none, d, false⟩ m = a := by
  simp only [MemOp.addr, Machine.operand, Bool.false_eq_true, if_false, Nat.mul_zero, Nat.zero_add,
    Nat.add_zero, h.regs, ha]
  exact wrap_of_lt hlt

theorem addr_topOp (h : m.Is R F G M) (hlt : G + 8 < 2 ^ 64) : topOp.addr m = G + 8 := by
  simp only [MemOp.addr, topOp, Machine.operand, if_true, Nat.mul_zero, Nat.add_zero, h.gs]
  exact wrap_of_lt hlt

theorem mov64rm (h : m.Is R F G M) {o : MemOp} (ha : o.addr m = a) (hv : load64 M a = v) :
    (Inst.exec m (.mov64rm r o)).Is (Function.update R r v) F G M := by
  rw [Inst.exec, ha, h.mem, hv]
  exact h.set (hv ▸ load64_lt ..)

theorem mov64mr (h : m.Is R F G M) {o : MemOp} (ha : o.addr m = a) (hv : R r = v) :
    (Inst.exec m (.mov64mr o r)).Is R F G (store64 M a v) := by
  obtain ⟨rfl, rfl, rfl, rfl⟩ := h
  rw [Inst.exec, ha, hv]
  exact ⟨rfl, rfl, rfl, rfl⟩

theorem add64ri8 (h : m.Is R F G M) (hv : R r = v) (hlt : v + k < 2 ^ 64) :
    (Inst.exec m (.add64ri8 r k)).Is (Function.update R r (v + k)) (.ofAdd v k) G M := by
  rw [Inst.exec, h.regs, hv]
  obtain ⟨h₁, -, h₃, h₄⟩ := h.set (r := r) hlt
  exact ⟨h₁, rfl, h₃, h₄⟩

theorem sub64ri8 (h : m.Is R F G M) (hv : R r = v) (hle : k ≤ v) (hlt : v < 2 ^ 64) :
    (Inst.exec m (.sub64ri8 r k)).Is (Function.update R r (v - k)) (.ofSub v k) G M := by
  rw [Inst.exec, h.regs, hv, wrapSub_of_le hle hlt]
  obtain ⟨h₁, -, h₃, h₄⟩ := h.set (r := r) (show v - k < 2 ^ 64 by omega)
  exact ⟨h₁, rfl, h₃, h₄⟩

theorem cmp64mr (h : m.Is R F G M) {o : MemOp} (ha : o.addr m = a) :
    (Inst.exec m (.cmp64mr o r)).Is R (.ofSub (load64 M a) (R r)) G M := by
  obtain ⟨rfl, rfl, rfl, rfl⟩ := h
  rw [Inst.exec, ha]
  exact ⟨rfl, rfl, rfl, rfl⟩

end Machine.Is

/-! ## The preamble -/

/-- The memory after the preamble. -/
def pushedMem (m : Machine) : Memory :=
  store64 (store64 (store64 (store64 m.mem (m.regs .rsp - 8) (m.regs .r11))
    (m.regs .rsp - 16) (m.regs .r10)) m.top (load64 m.mem (m.regs .rsp))) (m.gs + 8) (m.top + 8)

theorem straight_preamble (hm : m.OnChunk c) (hroom : m.top + 8 ≤ c.base + c.size)
    (hsp : c.Clear (m.regs .rsp)) :
    ∃ m', m'.Is m.regs (.ofAdd m.top 8) m.gs (pushedMem m) ∧
      ∀ rest, straight (preamble ++ rest) m = straight rest m' := by
  refine ⟨_, ?_, fun rest ↦ rfl⟩
  have htop : load64 m.mem (m.gs + 8) = m.top := by rw [Machine.top, topOp_addr hm, hm.gs]
  obtain ⟨hgs, hlo, hhi⟩ := hm
  obtain ⟨hsp₁, hsp₂, hsp₃⟩ := hsp
  have hfits := c.fits
  unfold pushedMem
  obtain ⟨s, hs⟩ : ∃ s, m.regs .rsp = s := ⟨_, rfl⟩
  obtain ⟨t, ht⟩ : ∃ t, m.top = t := ⟨_, rfl⟩
  obtain ⟨ra, hra⟩ : ∃ ra, load64 m.mem s = ra := ⟨_, rfl⟩
  rw [hs] at hsp₁ hsp₂ hsp₃
  rw [ht] at hlo hhi hroom htop
  rw [hs, ht, hra]
  have hr₁₀ := m.regs_lt .r10
  have hr₁₁ := m.regs_lt .r11
  have h₀ : m.Is m.regs m.flags m.gs m.mem := ⟨rfl, rfl, rfl, rfl⟩
  -- the two registers are saved below the return slot
  have h₁ := h₀.push64r (r := .r11) hs (by omega)
  have h₂ := h₁.push64r (r := .r10) (Function.update_self ..) (by omega)
  rw [Function.update_idem, Nat.sub_sub, Function.update_of_ne (by decide)] at h₂
  obtain ⟨M, hM⟩ : ∃ M, store64 (store64 m.mem (s - 8) (m.regs .r11)) (s - 16) (m.regs .r10) = M :=
    ⟨_, rfl⟩
  have htop' : load64 M (m.gs + 8) = t := by
    rw [← hM, load64_store64_of_disjoint (by omega) (by omega) (by omega),
      load64_store64_of_disjoint (by omega) (by omega) (by omega), htop]
  have hra' : load64 M s = ra := by
    rw [← hM, load64_store64_of_disjoint (by omega) (by omega) (by omega),
      load64_store64_of_disjoint (by omega) (by omega) (by omega), hra]
  obtain ⟨M', hM'⟩ : ∃ M', store64 (store64 M t ra) (m.gs + 8) (t + 8) = M' := ⟨_, rfl⟩
  have hr₁₀' : load64 M' (s - 16) = m.regs .r10 := by
    rw [← hM', load64_store64_of_disjoint (by omega) (by omega) (by omega),
      load64_store64_of_disjoint (by omega) (by omega) (by omega), ← hM,
      load64_store64_same (by omega) hr₁₀]
  have hr₁₁' : load64 M' (s - 8) = m.regs .r11 := by
    rw [← hM', load64_store64_of_disjoint (by omega) (by omega) (by omega),
      load64_store64_of_disjoint (by omega) (by omega) (by omega), ← hM,
      load64_store64_of_disjoint (by omega) (by omega) (by omega), load64_store64_same (by omega) hr₁₁]
  rw [hM] at h₂ ⊢
  rw [hM']
  -- the return address is stored where `top` points, and `top` advanced
  have h₃ := h₂.mov64rm (r := .r11) (h₂.addr_topOp (by omega)) htop'
  have h₄ := h₃.mov64rm (r := .r10) (h₃.addr_base (b := .rsp) (a := s) (d := 16) (by simp; omega) (by omega))
    hra'
  have h₅ := h₄.mov64mr (r := .r10) (v := ra)
    (h₄.addr_base (b := .r11) (a := t) (d := 0) (by simp) (by omega)) (by simp)
  have h₆ := h₅.add64ri8 (r := .r11) (k := 8) (v := t) (by simp) (by omega)
  have h₇ := h₆.mov64mr (r := .r11) (v := t + 8) (h₆.addr_topOp (by omega)) (by simp)
  rw [hM'] at h₇
  -- the registers are restored
  have h₈ := h₇.pop64r (r := .r10) (s := s - 16) (by simp) (by omega) hr₁₀'
  have h₉ := h₈.pop64r (r := .r11) (s := s - 8) (v := m.regs .r11) (by simp; omega) (by omega) hr₁₁'
  refine ⟨h₉.regs.trans ?_, h₉.flags, h₉.gs, h₉.mem⟩
  funext r
  cases r <;> simp [hs]
  omega

/-- A 64-bit store changes its eight bytes only. -/
theorem store64_of_notMem {M : Memory} {a v b : Nat} (ha : a + 8 ≤ 2 ^ 64) (hb : b < 2 ^ 64)
    (h : b < a ∨ a + 8 ≤ b) : store64 M a v b = M b :=
  store_of_notMem ha hb h

theorem Machine.top_eq (hgs : m.gs = c.base) (hlt : c.base + 16 ≤ 2 ^ 64) :
    m.top = load64 m.mem (c.base + 8) := by
  have h : m.Is m.regs m.flags c.base m.mem := ⟨rfl, rfl, hgs, rfl⟩
  rw [Machine.top, h.addr_topOp (by omega)]

/-- **The preamble** pushes the return address and leaves the registers as they were. -/
theorem preamble_pushed (hm : m.OnChunk c) (hroom : m.top + 8 ≤ c.base + c.size)
    (hsp : c.Clear (m.regs .rsp)) :
    ∃ m', Pushed c m m' ∧ ∀ rest, straight (preamble ++ rest) m = straight rest m' := by
  obtain ⟨m', his, hstraight⟩ := straight_preamble hm hroom hsp
  refine ⟨m', ?_, hstraight⟩
  obtain ⟨hgs, hlo, hhi⟩ := hm
  obtain ⟨hsp₁, hsp₂, hsp₃⟩ := hsp
  have hfits := c.fits
  have hra : load64 m.mem (m.regs .rsp) < 2 ^ 64 := load64_lt ..
  have hmem := his.mem
  unfold pushedMem at hmem
  rw [hgs] at hmem
  constructor
  · exact his.regs
  · exact his.gs
  · rw [Machine.top_eq (his.gs.trans hgs) (by omega), hmem, load64_store64_same (by omega) (by omega)]
  · rw [hmem, load64_store64_of_disjoint (by omega) (by omega) (by omega),
      load64_store64_same (by omega) hra]
  · rintro b ⟨hb₁, hb₂⟩ hptr htop
    rw [hmem, store64_of_notMem (by omega) (by omega) (by omega),
      store64_of_notMem (by omega) (by omega) (by omega),
      store64_of_notMem (by omega) (by omega) (by omega),
      store64_of_notMem (by omega) (by omega) (by omega)]
  · intro b hb hout hrange
    have hb' : b < c.base ∨ c.base + c.size ≤ b := by
      unfold Chunk.Mem at hout
      omega
    rw [hmem, store64_of_notMem (by omega) (by omega) (by omega),
      store64_of_notMem (by omega) (by omega) (by omega),
      store64_of_notMem (by omega) (by omega) (by omega),
      store64_of_notMem (by omega) (by omega) (by omega)]

/-! ## Before a return -/

/-- The memory after the return address `ra` was taken from the shadow stack, with the return slot at
`slot`. -/
def poppedMem (strategy : ViolationStrategy) (M : Memory) (base top slot ra : Nat) : Memory :=
  match strategy with
  | .blindWrite => store64 (store64 M (base + 8) (top - 8)) slot ra
  | .trap => store64 M (base + 8) (top - 8)

variable (strategy trapBB) in
/-- The pop, when the return slot is `k` bytes above the stack pointer. -/
theorem straight_popAndEnforce {R : Reg → Nat} {F : Flags} {G t ra s k : Nat} {M : Memory} {r : Reg}
    (h : m.Is R F G M) (hr : r ≠ .rsp) (hG : G + 16 ≤ t - 8) (htlt : t < 2 ^ 64)
    (ht : load64 M (G + 8) = t) (hra : load64 M (t - 8) = ra) (hs : R .rsp + k = s)
    (hslt : s + 8 ≤ 2 ^ 64) (hslot : s + 8 ≤ G ∨ t ≤ s) :
    ∃ m' F', m'.Is (Function.update R r ra) F' G (poppedMem strategy M G t s ra) ∧
      ∀ rest, straight (popAndEnforce strategy trapBB r k ++ rest) m =
        if strategy = .trap ∧ load64 M s ≠ ra then .jump m' trapBB else straight rest m' := by
  have hralt : ra < 2 ^ 64 := hra ▸ load64_lt ..
  have h₁ := h.mov64rm (r := r) (h.addr_topOp (by omega)) ht
  have h₂ := h₁.sub64ri8 (r := r) (k := 8) (v := t) (by simp) (by omega) htlt
  have h₃ := h₂.mov64mr (r := r) (v := t - 8) (h₂.addr_topOp (by omega)) (by simp)
  have hra' : load64 (store64 M (G + 8) (t - 8)) (t - 8) = ra := by
    rw [load64_store64_of_disjoint (by omega) (by omega) (by omega), hra]
  have h₄ := h₃.mov64rm (r := r) (h₃.addr_base (b := r) (a := t - 8) (d := 0) (by simp) (by omega)) hra'
  rw [Function.update_idem, Function.update_idem] at h₄
  have hsp : Function.update R r ra .rsp + k = s := by rw [Function.update_of_ne hr.symm, hs]
  cases strategy with
  | blindWrite =>
      have h₅ := h₄.mov64mr (r := r) (v := ra) (h₄.addr_base hsp (by omega)) (by simp)
      refine ⟨_, _, h₅, fun rest ↦ ?_⟩
      rw [if_neg (by simp)]
      rfl
  | trap =>
      have h₅ := h₄.cmp64mr (r := r) (h₄.addr_base hsp (by omega))
      have hslot' : load64 (store64 M (G + 8) (t - 8)) s = load64 M s :=
        load64_store64_of_disjoint (by omega) (by omega) (by omega)
      obtain ⟨m', hm', hstraight⟩ : ∃ m' : Machine,
          m'.Is (Function.update R r ra) (.ofSub (load64 M s) ra) G (store64 M (G + 8) (t - 8)) ∧
          ∀ rest, straight (popAndEnforce .trap trapBB r k ++ rest) m =
            if Cond.ne.holds m'.flags then .jump m' trapBB else straight rest m' := by
        rw [hslot', Function.update_self] at h₅
        exact ⟨_, h₅, fun _ ↦ rfl⟩
      refine ⟨m', _, hm', fun rest ↦ ?_⟩
      rw [hstraight, hm'.flags, ne_holds_ofSub (load64_lt ..) hralt]
      by_cases hc : load64 M s = ra
      · rw [if_neg (by simp [hc]), if_neg (by simp [hc])]
      · rw [if_pos (by simp [hc]), if_pos ⟨rfl, hc⟩]

/-- The bytes the inserted code uses below the stack pointer. -/
def spillSize (scratch : Option Reg) : Nat := if scratch.isNone then 8 else 0

/-- The return address has been taken from the shadow stack, and is in the return slot. -/
structure Popped (c : Chunk) (scratch : Option Reg) (m m' : Machine) : Prop where
  regs : ∀ r, scratch ≠ some r → m'.regs r = m.regs r
  gs : m'.gs = m.gs
  top : m'.top = m.top - 8
  slot : load64 m'.mem (m.regs .rsp) = load64 m.mem (m.top - 8)
  chunk : ∀ b, c.Mem b → (b < c.base + 8 ∨ c.base + 16 ≤ b) → m'.mem b = m.mem b
  outside : ∀ b < 2 ^ 64, ¬ c.Mem b → (b < m.regs .rsp - spillSize scratch ∨ m.regs .rsp + 8 ≤ b) →
    m'.mem b = m.mem b

/-- The memory after the pop, in the terms of `Popped`. -/
theorem poppedMem_spec (M : Memory) {t s ra : Nat} (hlo : c.base + 24 ≤ t) (hhi : t ≤ c.base + c.size)
    (hs : s + 8 ≤ 2 ^ 64) (hslot : s + 8 ≤ c.base ∨ c.base + c.size ≤ s) (hra : ra < 2 ^ 64)
    (heq : strategy = .trap → load64 M s = ra) :
    load64 (poppedMem strategy M c.base t s ra) (c.base + 8) = t - 8 ∧
    load64 (poppedMem strategy M c.base t s ra) s = ra ∧
    ∀ b < 2 ^ 64, (b < c.base + 8 ∨ c.base + 16 ≤ b) → (b < s ∨ s + 8 ≤ b) →
      poppedMem strategy M c.base t s ra b = M b := by
  have hfits := c.fits
  cases strategy with
  | blindWrite =>
      refine ⟨?_, load64_store64_same hs hra, fun b hb hptr hne ↦ ?_⟩
      · rw [poppedMem, load64_store64_of_disjoint hs (by omega) (by omega),
          load64_store64_same (by omega) (by omega)]
      · rw [poppedMem, store64_of_notMem hs hb hne, store64_of_notMem (by omega) hb (by omega)]
  | trap =>
      refine ⟨load64_store64_same (by omega) (by omega), ?_, fun b hb hptr hne ↦ ?_⟩
      · rw [poppedMem, load64_store64_of_disjoint (by omega) hs (by omega), heq rfl]
      · rw [poppedMem, store64_of_notMem (by omega) hb (by omega)]

/-- The code before a return has this effect: the return address is taken from the shadow stack to the
return slot, or control goes to the trap block if the strategy is `trap` and the slot has another
address. -/
def Pops (c : Chunk) (strategy : ViolationStrategy) (trapBB : Nat) (scratch : Option Reg) (m : Machine) :
    Prop :=
  ∃ m', (¬ (strategy = .trap ∧ load64 m.mem (m.regs .rsp) ≠ load64 m.mem (m.top - 8)) →
      Popped c scratch m m') ∧
    ∀ rest, straight (instrumentRet strategy trapBB scratch ++ rest) m =
      if strategy = .trap ∧ load64 m.mem (m.regs .rsp) ≠ load64 m.mem (m.top - 8) then
        .jump m' trapBB
      else straight rest m'

/-- With a scratch register. -/
theorem pops_scratch {r : Reg} (hm : m.OnChunk c) (hfull : c.base + 24 ≤ m.top) (hsp : c.Clear (m.regs .rsp))
    (hne : r ≠ .rsp) : Pops c strategy trapBB (some r) m := by
  obtain ⟨hgs, hlo, hhi⟩ := hm
  obtain ⟨hsp₁, hsp₂, hsp₃⟩ := hsp
  have hfits := c.fits
  have hralt : load64 m.mem (m.top - 8) < 2 ^ 64 := load64_lt ..
  have htop : load64 m.mem (c.base + 8) = m.top := (Machine.top_eq hgs (by omega)).symm
  have h₀ : m.Is m.regs m.flags c.base m.mem := ⟨rfl, rfl, hgs, rfl⟩
  obtain ⟨m', F', his, hstraight⟩ := straight_popAndEnforce strategy trapBB (k := 0) h₀ hne
    (by omega) (by omega) htop rfl (Nat.add_zero _) hsp₂ (by omega)
  refine ⟨m', fun hok ↦ ?_, hstraight⟩
  obtain ⟨hptr, hslot, hrest⟩ := poppedMem_spec (c := c) m.mem hfull hhi hsp₂ (by omega) hralt
    fun htrap ↦ not_not.mp fun hne ↦ hok ⟨htrap, hne⟩
  constructor
  · intro r' hr'
    rw [his.regs, Function.update_of_ne fun hc ↦ hr' (by rw [hc])]
  · rw [his.gs, hgs]
  · rw [Machine.top_eq his.gs (by omega), his.mem, hptr]
  · rw [his.mem, hslot]
  · rintro b ⟨hb₁, hb₂⟩ hb
    rw [his.mem, hrest b (by omega) hb (by omega)]
  · intro b hb hout hrange
    unfold Chunk.Mem at hout
    have hspill : spillSize (some r) = 0 := rfl
    rw [his.mem, hrest b hb (by omega) (by omega)]

theorem straight_push64r (r : Reg) (rest : List Inst) (m : Machine) :
    straight (.push64r r :: rest) m = straight rest (Inst.exec m (.push64r r)) := rfl

/-- With `r11` spilled. -/
theorem pops_spill (hm : m.OnChunk c) (hfull : c.base + 24 ≤ m.top) (hsp : c.Clear (m.regs .rsp)) :
    Pops c strategy trapBB none m := by
  obtain ⟨hgs, hlo, hhi⟩ := hm
  obtain ⟨hsp₁, hsp₂, hsp₃⟩ := hsp
  have hfits := c.fits
  have hralt : load64 m.mem (m.top - 8) < 2 ^ 64 := load64_lt ..
  have htop : load64 m.mem (c.base + 8) = m.top := (Machine.top_eq hgs (by omega)).symm
  have h₀ : m.Is m.regs m.flags c.base m.mem := ⟨rfl, rfl, hgs, rfl⟩
  have h₁ := h₀.push64r (r := .r11) rfl (by omega)
  obtain ⟨s, hs⟩ : ∃ s, m.regs .rsp = s := ⟨_, rfl⟩
  obtain ⟨M, hM⟩ : ∃ M, store64 m.mem (s - 8) (m.regs .r11) = M := ⟨_, rfl⟩
  rw [hs, hM] at h₁
  rw [hs] at hsp₁ hsp₂ hsp₃
  unfold Pops
  rw [hs]
  have hload : ∀ a, a + 8 ≤ 2 ^ 64 → (a + 8 ≤ s - 8 ∨ s ≤ a) → load64 M a = load64 m.mem a := by
    intro a ha hne
    rw [← hM, load64_store64_of_disjoint (by omega) ha (by omega)]
  obtain ⟨m', F', his, hstraight⟩ := straight_popAndEnforce strategy trapBB (k := 8) (s := s) h₁
    (r := .r11) (by decide) (by omega) (by omega) ((hload _ (by omega) (by omega)).trans htop)
    (hload _ (by omega) (by omega)) (by simp; omega) hsp₂ (by omega)
  rw [hload s hsp₂ (by omega)] at hstraight
  have hseq : ∀ rest, instrumentRet strategy trapBB none ++ rest =
      .push64r .r11 :: (popAndEnforce strategy trapBB .r11 8 ++ (.pop64r .r11 :: rest)) := by
    intro rest
    simp [instrumentRet]
  by_cases hbad : strategy = .trap ∧ load64 m.mem s ≠ load64 m.mem (m.top - 8)
  · refine ⟨m', fun hok ↦ absurd hbad hok, fun rest ↦ ?_⟩
    rw [hseq, straight_push64r, hstraight, if_pos hbad, if_pos hbad]
  · have heq : strategy = .trap → load64 M s = load64 m.mem (m.top - 8) := by
      intro htrap
      rw [hload s hsp₂ (by omega)]
      exact not_not.mp fun hne ↦ hbad ⟨htrap, hne⟩
    obtain ⟨hptr, hslot, hrest⟩ := poppedMem_spec (c := c) M hfull hhi hsp₂ (by omega) hralt heq
    have hsaved : load64 (poppedMem strategy M c.base m.top s (load64 m.mem (m.top - 8))) (s - 8) =
        m.regs .r11 := by
      refine Eq.trans (load_eq_of_bytes fun i hi ↦ ?_) (load64_store64_same (m := m.mem)
        (a := s - 8) (by omega) (m.regs_lt .r11))
      rw [wrap_of_lt (by omega), hM, hrest _ (by omega) (by omega) (by omega)]
    have h₂ := his.pop64r (r := .r11) (s := s - 8) (by simp) (by omega) hsaved
    refine ⟨Inst.exec m' (.pop64r .r11), fun _ ↦ ?_, fun rest ↦ ?_⟩
    · constructor
      · intro r _
        rw [h₂.regs]
        cases r <;> simp [hs]
        omega
      · rw [h₂.gs, hgs]
      · rw [Machine.top_eq h₂.gs (by omega), h₂.mem, hptr]
      · rw [h₂.mem, hs, hslot]
      · rintro b ⟨hb₁, hb₂⟩ hb
        rw [h₂.mem, hrest b (by omega) hb (by omega), ← hM,
          store64_of_notMem (by omega) (by omega) (by omega)]
      · intro b hb hout hrange
        unfold Chunk.Mem at hout
        have hspill : spillSize none = 8 := rfl
        rw [h₂.mem, hrest b hb (by omega) (by omega), ← hM,
          store64_of_notMem (by omega) (by omega) (by omega)]
    · rw [hseq, straight_push64r, hstraight, if_neg hbad, if_neg hbad]
      rfl

/-- **The code before a return.** -/
theorem instrumentRet_pops (scratch : Option Reg) (hm : m.OnChunk c) (hfull : c.base + 24 ≤ m.top)
    (hsp : c.Clear (m.regs .rsp)) (hscratch : scratch ≠ some .rsp) : Pops c strategy trapBB scratch m := by
  cases scratch with
  | some r => exact pops_scratch hm hfull hsp fun hc ↦ hscratch (by rw [hc])
  | none => exact pops_spill hm hfull hsp

end ShadowStack.X86
