import ShadowStack.X86.Integrity

/-!
# Single instructions

A step of a thread runs the inserted instructions together with the next instruction of the function.
Here they run one by one, so that somebody else can write to memory in between.  The inserted instructions
access the chunk and a few bytes of the stack only: a write to any other place does not show in what they do.
-/

namespace ShadowStack.X86

open Lib

/-! ## One instruction -/

/-- The next instruction is the one behind this. -/
def Inst.falls (m : Machine) : Inst → Bool
  | .orig i => i.isMeta
  | .jcc1 _ cc => !cc.holds m.flags
  | .trap => false
  | _ => true

/-- One instruction of a thread. -/
def Code.tick (code : Code) (s : State) : Outcome :=
  match s.pos.rest with
  | [] => code.goto s.frames s.m s.pos.fn (s.pos.blk + 1)
  | .orig i :: rest => code.stepOrig s.pos s.frames s.m rest i
  | .jcc1 target cc :: rest =>
      if cc.holds s.m.flags then code.goto s.frames s.m s.pos.fn target
      else .next ⟨{ s.pos with rest := rest }, s.frames, s.m⟩
  | .trap :: _ => .trapped
  | i :: rest => .next ⟨{ s.pos with rest := rest }, s.frames, i.exec s.m⟩

/-- Run inserted instructions, one after another. -/
def execAll (m : Machine) (l : List Inst) : Machine := l.foldl Inst.exec m

/-- None of them is a branch that is taken. -/
def Falls : Machine → List Inst → Prop
  | _, [] => True
  | m, i :: l => i.falls m ∧ Falls (i.exec m) l

variable {code : Code} {m : Machine} {i : Inst} {l l' rest : List Inst} {s s' : State} {f blk : Nat}
  {frames : List Frame}

@[simp] theorem execAll_nil : execAll m [] = m := rfl

@[simp] theorem execAll_cons : execAll m (i :: l) = execAll (i.exec m) l := rfl

theorem execAll_append : execAll m (l ++ l') = execAll (execAll m l) l' := List.foldl_append

theorem falls_append : Falls m (l ++ l') ↔ Falls m l ∧ Falls (execAll m l) l' := by
  induction l generalizing m with
  | nil => simp [Falls]
  | cons i l ih => rw [List.cons_append, Falls, Falls, ih, execAll_cons, and_assoc]

theorem straight_cons (h : i.falls m) : straight (i :: rest) m = straight rest (i.exec m) := by
  cases i with
  | orig i =>
      cases i with
      | metaInstr => rfl
      | _ => cases h
  | jcc1 target cc =>
      have hcc : cc.holds m.flags = false := Bool.not_eq_true' _ ▸ h
      simp only [straight, hcc, Bool.false_eq_true, if_false, Inst.exec]
  | trap => cases h
  | _ => rfl

theorem straight_append (h : Falls m l) : straight (l ++ rest) m = straight rest (execAll m l) := by
  induction l generalizing m with
  | nil => rfl
  | cons i l ih => rw [List.cons_append, straight_cons h.1, ih h.2, execAll_cons]

theorem Code.tick_falls (code : Code) (h : i.falls m) :
    code.tick ⟨⟨f, blk, i :: rest⟩, frames, m⟩ = .next ⟨⟨f, blk, rest⟩, frames, i.exec m⟩ := by
  cases i with
  | orig i =>
      cases i with
      | metaInstr => rfl
      | _ => cases h
  | jcc1 target cc =>
      have hcc : cc.holds m.flags = false := Bool.not_eq_true' _ ▸ h
      simp only [Code.tick, hcc, Bool.false_eq_true, if_false, Inst.exec]
  | trap => cases h
  | _ => rfl

theorem Code.tick_jump (code : Code) {target : Nat} {cc : Cond} (h : cc.holds m.flags = true) :
    code.tick ⟨⟨f, blk, .jcc1 target cc :: rest⟩, frames, m⟩ = code.goto frames m f target :=
  if_pos h

/-- Where the inserted instructions end, an instruction is a step. -/
theorem Code.tick_eq_step (code : Code) (h : ∀ i rest, s.pos.rest = i :: rest → i.falls s.m = false) :
    code.tick s = code.step s := by
  obtain ⟨⟨f, blk, rest⟩, frames, m⟩ := s
  cases rest with
  | nil => rfl
  | cons i rest =>
      have hi := h i rest rfl
      cases i with
      | orig i =>
          cases i with
          | metaInstr => cases hi
          | _ => rfl
      | jcc1 target cc =>
          have hcc : cc.holds m.flags = true := (Bool.not_eq_false' _).mp hi
          simp only [Code.tick, Code.step, straight, hcc, if_true]
      | trap => rfl
      | _ => cases hi

/-! ## What an inserted instruction accesses -/

/-- The address of the eight bytes that it reads or writes. -/
def Inst.slot (m : Machine) : Inst → Option Nat
  | .push64r _ => some (wrapSub (m.regs .rsp) 8)
  | .pop64r _ => some (m.regs .rsp)
  | .mov64rm _ a | .mov64mr a _ | .cmp64mr a _ => some (a.addr m)
  | _ => none

/-- The instructions access the bytes of `S` only. -/
def Within (S : Nat → Prop) : Machine → List Inst → Prop
  | _, [] => True
  | m, i :: l => (∀ a, i.slot m = some a → ∀ k < 8, S (wrap (a + k))) ∧ Within S (i.exec m) l

variable {S : Nat → Prop} {mem : Memory} {a b v : Nat}

theorem within_append : Within S m (l ++ l') ↔ Within S m l ∧ Within S (execAll m l) l' := by
  induction l generalizing m with
  | nil => simp [Within]
  | cons i l ih => rw [List.cons_append, Within, Within, ih, execAll_cons, and_assoc]

/-- The bytes that a 64-bit store at `a` writes. -/
theorem wrap_add_wrapSub : wrap b = wrap (a + wrapSub b a) := by
  unfold wrapSub wrap
  omega

theorem store64_of_notMem' {M : Memory} (ha : ∀ k < 8, S (wrap (a + k))) (hb : ¬ S (wrap b)) :
    store64 M a v b = M b := by
  have hge : ¬ wrapSub b a < 8 := fun hlt ↦ hb (wrap_add_wrapSub (a := a) ▸ ha _ hlt)
  exact if_neg hge

theorem Inst.exec_mem_of_notMem (h : ∀ a, i.slot m = some a → ∀ k < 8, S (wrap (a + k))) (hb : ¬ S (wrap b)) :
    (i.exec m).mem b = m.mem b := by
  cases i with
  | push64r r => exact store64_of_notMem' (h _ rfl) hb
  | mov64mr o r => exact store64_of_notMem' (h _ rfl) hb
  | _ => rfl

/-! ## Writes to other places -/

open scoped Classical in
/-- The machine, with the memory of somebody else outside of `S`. -/
noncomputable def Machine.patch (m : Machine) (S : Nat → Prop) (mem : Memory) : Machine :=
  { m with mem := fun b ↦ if S (wrap b) then m.mem b else mem b }

theorem Machine.patch_mem_of_mem (hb : S (wrap b)) : (m.patch S mem).mem b = m.mem b := if_pos hb

theorem Machine.patch_mem_of_notMem (hb : ¬ S (wrap b)) : (m.patch S mem).mem b = mem b := if_neg hb

@[ext] theorem Machine.ext' {m m' : Machine} (hregs : m.regs = m'.regs) (hflags : m.flags = m'.flags)
    (hgs : m.gs = m'.gs) (hmem : m.mem = m'.mem) : m = m' := by
  obtain ⟨_, _, _, _, _⟩ := m
  obtain ⟨_, _, _, _, _⟩ := m'
  obtain rfl := hregs
  obtain rfl := hflags
  obtain rfl := hgs
  obtain rfl := hmem
  rfl

theorem Machine.load64_patch (ha : ∀ k < 8, S (wrap (a + k))) : load64 (m.patch S mem).mem a = load64 m.mem a := by
  apply load_eq_of_bytes
  intro k hk
  apply Machine.patch_mem_of_mem
  have hwrap : wrap (wrap (a + k)) = wrap (a + k) := by
    unfold wrap
    omega
  rw [hwrap]
  exact ha k hk

theorem Machine.write_patch (ha : ∀ k < 8, S (wrap (a + k))) :
    (m.patch S mem).write a v = (m.write a v).patch S mem := by
  apply Machine.ext'
  · rfl
  · rfl
  · rfl
  · funext b
    by_cases hb : S (wrap b)
    · rw [Machine.patch_mem_of_mem hb]
      show (if _ then _ else _) = (if _ then _ else _)
      split
      · rfl
      · exact Machine.patch_mem_of_mem hb
    · rw [Machine.patch_mem_of_notMem hb]
      exact (store64_of_notMem' ha hb).trans (Machine.patch_mem_of_notMem hb)

theorem Machine.set_patch {r : Reg} : (m.patch S mem).set r v = (m.set r v).patch S mem := rfl

theorem Machine.setFlags_patch {F : Flags} : (m.patch S mem).setFlags F = (m.setFlags F).patch S mem := rfl

theorem Inst.slot_patch : i.slot (m.patch S mem) = i.slot m := by
  cases i <;> rfl

theorem Inst.falls_patch : i.falls (m.patch S mem) = i.falls m := by
  cases i <;> rfl

/-- An instruction commutes with writes to other places. -/
theorem Inst.exec_patch (h : ∀ a, i.slot m = some a → ∀ k < 8, S (wrap (a + k))) :
    i.exec (m.patch S mem) = (i.exec m).patch S mem := by
  cases i with
  | push64r r => rw [Inst.exec, Inst.exec, ← Machine.set_patch, ← Machine.write_patch (h _ rfl)]; rfl
  | pop64r r =>
      have hload : load64 (m.patch S mem).mem (m.regs .rsp) = load64 m.mem (m.regs .rsp) :=
        Machine.load64_patch (h _ rfl)
      rw [Inst.exec, Inst.exec, ← Machine.set_patch, ← Machine.set_patch, ← hload]
      rfl
  | mov64rm r o =>
      have hload : load64 (m.patch S mem).mem (o.addr m) = load64 m.mem (o.addr m) :=
        Machine.load64_patch (h _ rfl)
      rw [Inst.exec, Inst.exec, ← Machine.set_patch, ← hload]
      rfl
  | mov64mr o r => rw [Inst.exec, Inst.exec, ← Machine.write_patch (h _ rfl)]; rfl
  | cmp64mr o r =>
      have hload : load64 (m.patch S mem).mem (o.addr m) = load64 m.mem (o.addr m) :=
        Machine.load64_patch (h _ rfl)
      rw [Inst.exec, Inst.exec, ← Machine.setFlags_patch, ← hload]
      rfl
  | _ => rfl

theorem execAll_patch (h : Within S m l) : execAll (m.patch S mem) l = (execAll m l).patch S mem := by
  induction l generalizing m with
  | nil => rfl
  | cons i l ih => rw [execAll_cons, Inst.exec_patch h.1, ih h.2, execAll_cons]

theorem falls_patch (h : Within S m l) : Falls (m.patch S mem) l ↔ Falls m l := by
  induction l generalizing m with
  | nil => rfl
  | cons i l ih => rw [Falls, Falls, Inst.falls_patch, Inst.exec_patch h.1, ih h.2]

theorem within_patch (h : Within S m l) : Within S (m.patch S mem) l := by
  induction l generalizing m with
  | nil => trivial
  | cons i l ih =>
      refine ⟨?_, ?_⟩
      · rw [Inst.slot_patch]
        exact h.1
      · rw [Inst.exec_patch h.1]
        exact ih h.2

/-! ## The inserted code is confined -/

/-- The chunk, and the bytes of the stack that the inserted code uses around a return slot at `sp`. -/
def Own (c : Chunk) (sp : Nat) (b : Nat) : Prop := c.Mem b ∨ sp - 16 ≤ b ∧ b < sp + 8

variable {c : Chunk} {strategy : ViolationStrategy} {trapBB : Nat} {t : Nat}

theorem own_stack {sp : Nat} (hlo : sp - 16 ≤ a) (hhi : a ≤ sp) (hsp : sp + 8 ≤ 2 ^ 64) :
    ∀ k < 8, Own c sp (wrap (a + k)) := by
  intro k hk
  rw [wrap_of_lt (by omega)]
  exact .inr ⟨by omega, by omega⟩

theorem own_chunk {sp : Nat} (hlo : c.base ≤ a) (hhi : a + 8 ≤ c.base + c.size) :
    ∀ k < 8, Own c sp (wrap (a + k)) := by
  have hfits := c.fits
  intro k hk
  rw [wrap_of_lt (by omega)]
  exact .inl ⟨by omega, by omega⟩

theorem within_cons_of_slot (ha : i.slot m = some a) (hown : ∀ k < 8, S (wrap (a + k)))
    (hl : Within S (i.exec m) l) : Within S m (i :: l) := by
  refine ⟨fun a' ha' ↦ ?_, hl⟩
  obtain rfl : a = a' := Option.some.inj (ha.symm.trans ha')
  exact hown

theorem within_cons_of_none (ha : i.slot m = none) (hl : Within S (i.exec m) l) : Within S m (i :: l) := by
  refine ⟨fun a' ha' ↦ ?_, hl⟩
  rw [ha] at ha'
  cases ha'

/-- The preamble. -/
theorem within_preamble (hm : m.OnChunk c) (hroom : m.top + 8 ≤ c.base + c.size) (hsp : c.Clear (m.regs .rsp)) :
    Within (Own c (m.regs .rsp)) m preamble := by
  have htop : load64 m.mem (m.gs + 8) = m.top := by rw [Machine.top, topOp_addr hm, hm.gs]
  obtain ⟨hgs, hlo, hhi⟩ := hm
  obtain ⟨hsp₁, hsp₂, hsp₃⟩ := hsp
  have hfits := c.fits
  obtain ⟨s, hs⟩ : ∃ s, m.regs .rsp = s := ⟨_, rfl⟩
  obtain ⟨t, ht⟩ : ∃ t, m.top = t := ⟨_, rfl⟩
  rw [hs] at hsp₁ hsp₂ hsp₃
  rw [ht] at hlo hhi hroom htop
  rw [hs]
  have hlt := m.regs_lt .rsp
  have h₀ : m.Is m.regs m.flags m.gs m.mem := ⟨rfl, rfl, rfl, rfl⟩
  have h₁ := h₀.push64r (r := .r11) hs (by omega)
  have h₂ := h₁.push64r (r := .r10) (Function.update_self ..) (by omega)
  obtain ⟨M, hM⟩ : ∃ M, store64 (store64 m.mem (s - 8) (m.regs .r11)) (s - 8 - 8)
    (Function.update m.regs .rsp (s - 8) .r10) = M := ⟨_, rfl⟩
  have htop' : load64 M (m.gs + 8) = t := by
    rw [← hM, load64_store64_of_disjoint (by omega) (by omega) (by omega),
      load64_store64_of_disjoint (by omega) (by omega) (by omega), htop]
  rw [hM] at h₂
  have h₃ := h₂.mov64rm (r := .r11) (h₂.addr_topOp (by omega)) htop'
  have ha₄ := h₃.addr_base (b := .rsp) (a := s) (d := 16) (by simp; omega) (by omega)
  have h₄ := h₃.mov64rm (r := .r10) ha₄ rfl
  have ha₅ := h₄.addr_base (b := .r11) (a := t) (d := 0) (by simp) (by omega)
  have h₅ := h₄.mov64mr (r := .r10) ha₅ rfl
  have h₆ := h₅.add64ri8 (r := .r11) (k := 8) (v := t) (by simp) (by omega)
  have h₇ := h₆.mov64mr (r := .r11) (h₆.addr_topOp (by omega)) rfl
  have h₈ := h₇.pop64r (r := .r10) (s := s - 16) (by simp; omega) (by omega) rfl
  refine within_cons_of_slot (a := s - 8) ?_ (own_stack (by omega) (by omega) hsp₂) ?_
  · rw [Inst.slot, hs, wrapSub_of_le (by omega) (by omega)]
  refine within_cons_of_slot (a := s - 16) ?_ (own_stack (by omega) (by omega) hsp₂) ?_
  · rw [Inst.slot, h₁.regs, Function.update_self, wrapSub_of_le (by omega) (by omega), Nat.sub_sub]
  refine within_cons_of_slot (a := m.gs + 8) ?_ (own_chunk (by omega) (by omega)) ?_
  · rw [Inst.slot, h₂.addr_topOp (by omega)]
  refine within_cons_of_slot (a := s) ?_ (own_stack (by omega) (by omega) hsp₂) ?_
  · rw [Inst.slot, ha₄]
  refine within_cons_of_slot (a := t) ?_ (own_chunk (by omega) (by omega)) ?_
  · rw [Inst.slot, ha₅]
  refine within_cons_of_none rfl ?_
  refine within_cons_of_slot (a := m.gs + 8) ?_ (own_chunk (by omega) (by omega)) ?_
  · rw [Inst.slot, h₆.addr_topOp (by omega)]
  refine within_cons_of_slot (a := s - 16) ?_ (own_stack (by omega) (by omega) hsp₂) ?_
  · rw [Inst.slot, h₇.regs]
    simp
    omega
  refine within_cons_of_slot (a := s - 8) ?_ (own_stack (by omega) (by omega) hsp₂) trivial
  rw [Inst.slot, h₈.regs]
  simp
  omega

variable (strategy trapBB) in
/-- The pop, when the return slot is `k` bytes above the stack pointer. -/
theorem within_popAndEnforce {R : Reg → Nat} {F : Flags} {G s k : Nat} {M : Memory} {r : Reg} (h : m.Is R F G M)
    (hr : r ≠ .rsp) (hG : c.base = G) (hlo : G + 24 ≤ t) (hhi : t ≤ c.base + c.size) (ht : load64 M (G + 8) = t)
    (hs : R .rsp + k = s) (hslt : s + 8 ≤ 2 ^ 64) : Within (Own c s) m (popAndEnforce strategy trapBB r k) := by
  have hfits := c.fits
  have h₁ := h.mov64rm (r := r) (h.addr_topOp (by omega)) ht
  have h₂ := h₁.sub64ri8 (r := r) (k := 8) (v := t) (by simp) (by omega) (by omega)
  have h₃ := h₂.mov64mr (r := r) (v := t - 8) (h₂.addr_topOp (by omega)) (by simp)
  have ha₄ := h₃.addr_base (b := r) (a := t - 8) (d := 0) (by simp) (by omega)
  have h₄ := h₃.mov64rm (r := r) ha₄ rfl
  have ha₅ := h₄.addr_base (b := .rsp) (a := s) (d := k) (by simp [hr.symm, hs]) (by omega)
  refine within_cons_of_slot (a := G + 8) ?_ (own_chunk (by omega) (by omega)) ?_
  · rw [Inst.slot, h.addr_topOp (by omega)]
  refine within_cons_of_none rfl ?_
  refine within_cons_of_slot (a := G + 8) ?_ (own_chunk (by omega) (by omega)) ?_
  · rw [Inst.slot, h₂.addr_topOp (by omega)]
  refine within_cons_of_slot (a := t - 8) ?_ (own_chunk (by omega) (by omega)) ?_
  · rw [Inst.slot, ha₄]
  cases strategy with
  | blindWrite =>
      refine within_cons_of_slot (a := s) ?_ (own_stack (by omega) le_rfl hslt) trivial
      rw [Inst.slot, ha₅]
  | trap =>
      refine within_cons_of_slot (a := s) ?_ (own_stack (by omega) le_rfl hslt) ?_
      · rw [Inst.slot, ha₅]
      · exact within_cons_of_none rfl trivial

theorem execAll_popAndEnforce_rsp {r : Reg} (hr : r ≠ .rsp) (k : Nat) :
    (execAll m (popAndEnforce strategy trapBB r k)).regs .rsp = m.regs .rsp := by
  cases strategy <;> simp [popAndEnforce, enforce, Inst.exec, hr.symm]

variable (strategy trapBB) in
/-- The code before a return. -/
theorem within_instrumentRet (scratch : Option Reg) (hm : m.OnChunk c) (hfull : c.base + 24 ≤ m.top)
    (hsp : c.Clear (m.regs .rsp)) (hscratch : scratch ≠ some .rsp) :
    Within (Own c (m.regs .rsp)) m (instrumentRet strategy trapBB scratch) := by
  have htop : load64 m.mem (m.gs + 8) = m.top := by rw [Machine.top, topOp_addr hm, hm.gs]
  obtain ⟨hgs, hlo, hhi⟩ := hm
  obtain ⟨hsp₁, hsp₂, hsp₃⟩ := hsp
  have hfits := c.fits
  have hlt := m.regs_lt .rsp
  have h₀ : m.Is m.regs m.flags m.gs m.mem := ⟨rfl, rfl, rfl, rfl⟩
  cases scratch with
  | some r =>
      exact within_popAndEnforce strategy trapBB h₀ (fun hc ↦ hscratch (by rw [hc])) hgs.symm (by omega) hhi htop
        (Nat.add_zero _) hsp₂
  | none =>
      have h₁ := h₀.push64r (r := .r11) rfl (by omega)
      have htop' : load64 (store64 m.mem (m.regs .rsp - 8) (m.regs .r11)) (m.gs + 8) = m.top := by
        rw [load64_store64_of_disjoint (by omega) (by omega) (by omega), htop]
      have hpop := within_popAndEnforce strategy trapBB (c := c) (r := .r11) (k := 8) (s := m.regs .rsp) h₁
        (by decide) hgs.symm (by omega) hhi htop' (by simp; omega) hsp₂
      rw [instrumentRet, List.cons_append]
      refine within_cons_of_slot (a := m.regs .rsp - 8) ?_ (own_stack (by omega) (by omega) hsp₂) ?_
      · rw [Inst.slot, wrapSub_of_le (by omega) hlt]
      refine within_append.mpr ⟨hpop, within_cons_of_slot (a := m.regs .rsp - 8) ?_
        (own_stack (by omega) (by omega) hsp₂) trivial⟩
      rw [Inst.slot, execAll_popAndEnforce_rsp (by decide), h₁.regs, Function.update_self]

end ShadowStack.X86
