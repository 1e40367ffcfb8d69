import ShadowStack.X86.Sequences

/-!
# What the inserted code leaves behind

The inserted instructions use a scratch register, the flags and bytes below the stack pointer.  Until the
program writes them again, these differ from what they are without instrumentation.  Two machines agree if
they differ there and in the chunk only.
-/

namespace ShadowStack.X86

open Lib

/-- Registers, flags and bytes of memory that the inserted code has used and nothing has written since. -/
structure Dead where
  regs : Reg → Bool
  flags : Bool
  bytes : Nat → Bool

namespace Dead

def none : Dead := ⟨fun _ ↦ false, false, fun _ ↦ false⟩

/-- After the preamble, which saves two registers below the stack pointer. -/
def pushed (d : Dead) (sp : Nat) : Dead where
  regs := d.regs
  flags := true
  bytes b := d.bytes b || sp - 16 ≤ b && b < sp

/-- After the code before a return. -/
def popped (d : Dead) (scratch : Option Reg) (sp : Nat) : Dead where
  regs r := d.regs r || scratch == some r
  flags := true
  bytes b := d.bytes b || sp - spillSize scratch ≤ b && b < sp

/-- After an instruction of the program. -/
def after (d : Dead) (m : Machine) : Orig → Dead
  | .op o =>
      { regs := fun r ↦ d.regs r && !o.defs r
        flags := d.flags && !o.defsFlags
        bytes := fun b ↦ d.bytes b && !(o.writes m).contains b }
  | .call _ _ => { d with bytes := fun b ↦ d.bytes b && (b < m.regs .rsp - 8 || m.regs .rsp ≤ b) }
  | _ => d

variable {d : Dead} {m : Machine} {r : Reg} {b : Nat}

theorem pushed_bytes {sp : Nat} : (d.pushed sp).bytes b ↔ d.bytes b ∨ sp - 16 ≤ b ∧ b < sp := by
  simp [pushed]

theorem popped_regs {scratch : Option Reg} {sp : Nat} : (d.popped scratch sp).regs r ↔ d.regs r ∨ scratch = some r := by
  simp [popped]

theorem popped_bytes {scratch : Option Reg} {sp : Nat} :
    (d.popped scratch sp).bytes b ↔ d.bytes b ∨ sp - spillSize scratch ≤ b ∧ b < sp := by
  simp [popped]

theorem after_op_regs {o : Op} : (d.after m (.op o)).regs r ↔ d.regs r ∧ o.defs r = false := by
  simp [after]

theorem after_op_flags {o : Op} : (d.after m (.op o)).flags ↔ d.flags ∧ o.defsFlags = false := by
  simp [after]

theorem after_op_bytes {o : Op} : (d.after m (.op o)).bytes b ↔ d.bytes b ∧ b ∉ o.writes m := by
  simp [after]

theorem after_call_bytes {callee : Callee} {ra : Nat} :
    (d.after m (.call callee ra)).bytes b ↔ d.bytes b ∧ (b < m.regs .rsp - 8 ∨ m.regs .rsp ≤ b) := by
  simp [after]

variable (c : Chunk) (d : Dead) (m : Machine)

/-- The byte is the same with and without instrumentation. -/
def Visible (b : Nat) : Prop := ¬ c.Mem b ∧ ¬ d.bytes b

/-- The eight bytes at an address. -/
def Visible64 (a : Nat) : Prop := ∀ k < 8, d.Visible c (wrap (a + k))

/-- The operand of a call or tail jump is not dead. -/
def Target : Callee → Prop
  | .direct _ => True
  | .reg r => ¬ d.regs r
  | .mem a => (∀ r, a.base = some r ∨ a.index = some r → ¬ d.regs r) ∧ d.Visible64 c (a.addr m)

/-- An instruction of the program reads nothing that is dead.  To leave a function is to use its return
slot. -/
def Unread : Orig → Prop
  | .metaInstr | .jmp _ => True
  | .op o =>
      (∀ r, o.uses r → ¬ d.regs r) ∧ (o.usesFlags → ¬ d.flags) ∧ ∀ b ∈ o.reads m, d.Visible c b
  | .jcc _ _ => ¬ d.flags
  | .call callee _ => d.Target c m callee
  | .ret _ => d.Visible64 c (m.regs .rsp)
  | .tailJmp callee => d.Target c m callee ∧ d.Visible64 c (m.regs .rsp)
  | .tailJmpCC _ _ => ¬ d.flags ∧ d.Visible64 c (m.regs .rsp)

end Dead

/-- The machines differ in the chunk and in what is dead only. -/
structure Machine.Agrees (c : Chunk) (d : Dead) (m m' : Machine) : Prop where
  regs : ∀ r, ¬ d.regs r → m'.regs r = m.regs r
  flags : ¬ d.flags → m'.flags = m.flags
  gs : m'.gs = m.gs
  mem : ∀ b < 2 ^ 64, d.Visible c b → m'.mem b = m.mem b

variable {c : Chunk} {d d' : Dead} {m m' : Machine}

/-- Values in memory that are the same have the same bytes. -/
theorem byte_of_load {mem mem' : Memory} {a n : Nat} (h : load mem a n = load mem' a n) :
    ∀ k < n, mem (wrap (a + k)) = mem' (wrap (a + k)) := by
  induction n generalizing a with
  | zero => exact fun k hk ↦ absurd hk (Nat.not_lt_zero k)
  | succ n ih =>
      have hbyte := (mem (wrap a)).toNat_lt
      have hbyte' := (mem' (wrap a)).toNat_lt
      rw [load, load] at h
      rintro (_ | k) hk
      · exact UInt8.toNat_inj.mp (by rw [Nat.add_zero]; omega)
      · have hrest := ih (a := a + 1) (by omega) k (by omega)
        rwa [Nat.add_assoc, Nat.add_comm 1 k] at hrest

namespace Machine.Agrees

theorem refl (c : Chunk) (m : Machine) : m.Agrees c .none m :=
  ⟨fun _ _ ↦ rfl, fun _ ↦ rfl, rfl, fun _ _ _ ↦ rfl⟩

theorem load64 (h : m.Agrees c d m') {a : Nat} (ha : d.Visible64 c a) : load64 m'.mem a = Lib.load64 m.mem a :=
  load_eq_of_bytes fun k hk ↦ h.mem _ (wrap_lt _) (ha k hk)

theorem operand (h : m.Agrees c d m') {r : Option Reg} (hr : ∀ r', r = some r' → ¬ d.regs r') :
    m'.operand r = m.operand r := by
  cases r with
  | none => rfl
  | some r => exact h.regs r (hr r rfl)

theorem addr (h : m.Agrees c d m') {a : MemOp} (ha : ∀ r, a.base = some r ∨ a.index = some r → ¬ d.regs r) :
    a.addr m' = a.addr m := by
  unfold MemOp.addr
  rw [h.gs, h.operand fun r hr ↦ ha r (.inl hr), h.operand fun r hr ↦ ha r (.inr hr)]

/-- An instruction that reads nothing dead computes the same. -/
theorem output (h : m.Agrees c d m') {o : Op} (hregs : ∀ r, o.uses r → ¬ d.regs r) (hflags : o.usesFlags → ¬ d.flags)
    (hreads : ∀ b ∈ o.reads m, d.Visible c b) : o.output m' = o.output m := by
  have hinput : o.input m' = o.input m := by
    funext r
    unfold Op.input
    split
    · next hr => exact h.regs r (hregs r hr)
    · rfl
  have hinputFlags : o.inputFlags m' = o.inputFlags m := by
    unfold Op.inputFlags
    split
    · next hf => exact h.flags (hflags hf)
    · rfl
  have haddrs : o.reads m' = o.reads m := by
    unfold Op.reads
    rw [hinput]
  have hbytes : (o.reads m).map m'.mem = (o.reads m).map m.mem := by
    refine List.map_congr_left fun b hb ↦ ?_
    obtain ⟨a, -, rfl⟩ := List.mem_map.mp hb
    exact h.mem _ (wrap_lt a) (hreads _ hb)
  unfold Op.output
  rw [hinput, hinputFlags, haddrs, hbytes]

/-- **Such an instruction** keeps the agreement, and what it writes is no longer dead. -/
theorem exec (h : m.Agrees c d m') {o : Op} (hunread : d.Unread c m (.op o)) :
    (o.exec m).Agrees c (d.after m (.op o)) (o.exec m') := by
  have hout := h.output hunread.1 hunread.2.1 hunread.2.2
  constructor
  · intro r hr
    show (if o.defs r then wrap ((o.output m').regs r) else m'.regs r) =
      if o.defs r then wrap ((o.output m).regs r) else m.regs r
    cases hdef : o.defs r with
    | true => rw [hout, if_pos rfl, if_pos rfl]
    | false => exact h.regs r fun hc ↦ hr (Dead.after_op_regs.mpr ⟨hc, hdef⟩)
  · intro hf
    show (if o.defsFlags then (o.output m').flags else m'.flags) =
      if o.defsFlags then (o.output m).flags else m.flags
    cases hdef : o.defsFlags with
    | true => rw [hout, if_pos rfl, if_pos rfl]
    | false => exact h.flags fun hc ↦ hf (Dead.after_op_flags.mpr ⟨hc, hdef⟩)
  · exact h.gs
  · rintro b hb ⟨hout', hbytes⟩
    show Op.writeBytes m'.mem (o.output m').stores b = Op.writeBytes m.mem (o.output m).stores b
    rw [hout]
    by_cases hw : b ∈ o.writes m
    · exact Op.writeBytes_of_mem _ _ hw
    · rw [Op.writeBytes_of_notMem _ hw, Op.writeBytes_of_notMem _ hw]
      exact h.mem b hb ⟨hout', fun hc ↦ hbytes (Dead.after_op_bytes.mpr ⟨hc, hw⟩)⟩

theorem set (h : m.Agrees c d m') (r : Reg) (v : Nat) : (m.set r v).Agrees c d (m'.set r v) := by
  refine ⟨fun r' hr' ↦ ?_, h.flags, h.gs, h.mem⟩
  by_cases hr : r' = r
  · rw [hr, Machine.set_regs_self, Machine.set_regs_self]
  · rw [Machine.set_regs_of_ne _ _ _ hr, Machine.set_regs_of_ne _ _ _ hr]
    exact h.regs r' hr'

/-- More may be dead. -/
theorem mono (h : m.Agrees c d m') (hregs : ∀ r, d.regs r → d'.regs r) (hflags : d.flags → d'.flags)
    (hbytes : ∀ b, d.bytes b → d'.bytes b) : m.Agrees c d' m' :=
  ⟨fun r hr ↦ h.regs r fun hc ↦ hr (hregs r hc), fun hf ↦ h.flags fun hc ↦ hf (hflags hc), h.gs,
    fun b hb hv ↦ h.mem b hb ⟨hv.1, fun hc ↦ hv.2 (hbytes b hc)⟩⟩

/-- **The preamble** leaves the flags and sixteen bytes behind. -/
theorem preamble {m₁ : Machine} (h : m.Agrees c d m') (hsp : m'.regs .rsp = m.regs .rsp) (hp : Pushed c m' m₁) :
    m.Agrees c (d.pushed (m.regs .rsp)) m₁ where
  regs r hr := by
    rw [hp.regs]
    exact h.regs r hr
  flags hf := absurd rfl hf
  gs := hp.gs.trans h.gs
  mem b hb hv := by
    obtain ⟨hout, hbytes⟩ := hv
    obtain ⟨hbytes, hsaved⟩ := not_or.mp fun hc ↦ hbytes (Dead.pushed_bytes.mpr hc)
    rw [hp.outside b hb hout (by rw [hsp]; omega)]
    exact h.mem b hb ⟨hout, hbytes⟩

/-- **The code before a return** leaves its scratch register behind, or eight bytes, and the flags. -/
theorem pop {m₁ : Machine} {scratch : Option Reg} (h : m.Agrees c d m') (hsp : m'.regs .rsp = m.regs .rsp)
    (hlt : m.regs .rsp + 8 ≤ 2 ^ 64) (hp : Popped c scratch m' m₁)
    (hslot : Lib.load64 m.mem (m.regs .rsp) = Lib.load64 m'.mem (m'.top - 8)) :
    m.Agrees c (d.popped scratch (m.regs .rsp)) m₁ where
  regs r hr := by
    obtain ⟨hr, hne⟩ := not_or.mp fun hc ↦ hr (Dead.popped_regs.mpr hc)
    rw [hp.regs r hne]
    exact h.regs r hr
  flags hf := absurd rfl hf
  gs := hp.gs.trans h.gs
  mem b hb hv := by
    obtain ⟨hout, hbytes⟩ := hv
    obtain ⟨hbytes, hspill⟩ := not_or.mp fun hc ↦ hbytes (Dead.popped_bytes.mpr hc)
    by_cases hin : m.regs .rsp ≤ b ∧ b < m.regs .rsp + 8
    · have heq := hp.slot.trans hslot.symm
      rw [hsp] at heq
      have hbyte := byte_of_load heq (b - m.regs .rsp) (by omega)
      rwa [wrap_of_lt (by omega), Nat.add_sub_cancel' hin.1] at hbyte
    · rw [hp.outside b hb hout (by rw [hsp]; omega)]
      exact h.mem b hb ⟨hout, hbytes⟩

end Machine.Agrees

end ShadowStack.X86
