import ShadowStack.Lkm.Areas
import ShadowStack.X86.Interleaved

/-!
# Shadow stacks in the window

The chunks of the threads are areas of the window that the kernel module hands out, and `mem_pool_alloc` has set
them up.  Stores of the program are masked and go below the window, where the stacks are too.  An area may have one
thread after another.
-/

namespace ShadowStack.X86

open Lib
open Lkm (ssStart ssEnd ssSize threadsLimit idToAddr)

/-! ## Areas -/

/-- The window. -/
def windowChunk : Chunk := ⟨ssStart, ssEnd - ssStart, by decide⟩

/-- An area of the window. -/
def areaChunk (id : Fin threadsLimit) : Chunk := ⟨idToAddr id, ssSize, Lkm.idToAddr_add_lt id.isLt.le⟩

variable {ι : Type} {id : Fin threadsLimit} {ids : ι → Fin threadsLimit} {b sp : Nat}

theorem areaChunk_subset (h : (areaChunk id).Mem b) : windowChunk.Mem b := by
  have hlo := Lkm.ssStart_le_idToAddr id.isLt.le
  have hhi := (Lkm.idToAddr_le_iff id.isLt.le).mpr id.isLt
  obtain ⟨hb₁, hb₂⟩ := h
  simp only [areaChunk] at hb₁ hb₂
  simp only [Chunk.Mem, windowChunk]
  omega

theorem Chunk.Clear.area (h : windowChunk.Clear sp) (id : Fin threadsLimit) : (areaChunk id).Clear sp := by
  have hlo := Lkm.ssStart_le_idToAddr id.isLt.le
  have hhi := (Lkm.idToAddr_le_iff id.isLt.le).mpr id.isLt
  obtain ⟨h₁, h₂, h₃⟩ := h
  simp only [windowChunk] at h₃
  refine ⟨h₁, h₂, ?_⟩
  simp only [areaChunk]
  omega

theorem areaChunk_apart (hids : Function.Injective ids) : Apart fun n ↦ areaChunk (ids n) := by
  intro k l b hk hl
  apply hids
  by_contra hne
  have hdisjoint := Lkm.idToAddr_disjoint (ids k).isLt.le (ids l).isLt.le (Fin.val_ne_of_ne hne)
  simp only [Chunk.Mem, areaChunk] at hk hl
  omega

/-! ## `mem_pool_alloc` -/

/-- The fields of a new chunk. -/
def memPoolAlloc (mem : Memory) (chunk : Nat) : Memory := store64 (store64 mem chunk 0) (chunk + 8) (chunk + 16)

theorem load64_memPoolAlloc (mem : Memory) (id : Fin threadsLimit) :
    load64 (memPoolAlloc mem (idToAddr id)) (idToAddr id + 8) = idToAddr id + 16 := by
  have hlt := Lkm.idToAddr_add_lt id.isLt.le
  have hsize : ssSize = 8 * 1024 * 1024 := rfl
  exact load64_store64_same (by omega) (by omega)

/-! ## Threads -/

section

variable (p : Program) (strategy : ViolationStrategy) (scavenger : Nat → Scavenger)

/-- A thread that starts in a function, with an area that is set up. -/
structure StartsArea (id : Fin threadsLimit) (s : State) : Prop where
  entry : ∃ f b, ((p.instrumented strategy scavenger).funcs f).blocks[0]? = some b ∧ s.pos = ⟨f, 0, b⟩
  frames : ∃ ra, s.frames = [⟨none, ra, s.m.regs .rsp, idToAddr id + 16⟩] ∧ load64 s.m.mem (s.m.regs .rsp) = ra
  gs : s.m.gs = idToAddr id
  top : load64 s.m.mem (idToAddr id + 8) = load64 (memPoolAlloc s.m.mem (idToAddr id)) (idToAddr id + 8)
  clear : windowChunk.Clear (s.m.regs .rsp)

variable (ids : ι → Fin threadsLimit)

/-- `Allowed`, where the stores and the stacks are outside of the window. -/
structure AllowedWindow (P : Process ι) (e : Event ι) : Prop where
  fits : ∀ k s, P.threads k = some s → 16 + 8 * p.depth s ≤ ssSize
  obeys : ∀ n s, e = .tick n → P.threads n = some s →
    Obeys p strategy scavenger (fun _ : ι ↦ windowChunk) (s.inMem P.mem)
  spares : ∀ n s s', e = .tick n → P.threads n = some s →
    (p.instrumented strategy scavenger).tick (s.inMem P.mem) = .next s' →
    SparesExposed p strategy scavenger P n s'.m.mem
  spawns : ∀ n s, e = .spawn n s → P.threads n = none ∧ StartsArea p strategy scavenger (ids n) (s.inMem P.mem)
  pokes : ∀ mem, e = .poke mem → ∀ k s, P.threads k = some s →
    ∀ b, (areaChunk (ids k)).Mem (wrap b) ∨ Exposes p strategy scavenger P k (wrap b) → mem b = P.mem b

end

variable {p : Program} {strategy : ViolationStrategy} {scavenger : Nat → Scavenger} {s : State} {n : ι}
  {P : Process ι} {e : Event ι}

theorem StartsArea.starts (h : StartsArea p strategy scavenger id s) :
    Starts p strategy scavenger (areaChunk id) (idToAddr id + 16) s := by
  have hlt := Lkm.idToAddr_add_lt id.isLt.le
  have hsize : ssSize = 8 * 1024 * 1024 := rfl
  constructor
  · exact h.entry
  · exact h.frames
  · exact h.gs
  · rw [Machine.top_eq (c := areaChunk id) h.gs (by simp only [areaChunk]; omega)]
    exact h.top.trans (load64_memPoolAlloc _ id)
  · simp only [areaChunk]
    omega
  · exact h.clear.area id

theorem Obeys.area (h : Obeys p strategy scavenger (fun _ : ι ↦ windowChunk) s) (ids : ι → Fin threadsLimit) :
    Obeys p strategy scavenger (fun n ↦ areaChunk (ids n)) s := by
  constructor
  · intro o rest hrest b hb k hmem
    exact h.stores o rest hrest b hb k (areaChunk_subset hmem)
  · intro callee ra rest hrest
    exact (h.calls callee ra rest hrest).imp_right fun hclear k ↦ (hclear k).area (ids k)
  · exact h.restored
  · exact h.slot
  · exact h.forward
  · exact h.unconditional

theorem AllowedWindow.allowed (h : AllowedWindow p strategy scavenger ids P e) :
    Allowed p strategy scavenger (fun n ↦ areaChunk (ids n)) (fun n ↦ idToAddr (ids n) + 16) P e := by
  constructor
  · intro k s hk
    have hfits := h.fits k s hk
    simp only [areaChunk]
    omega
  · exact fun n s he hn ↦ (h.obeys n s he hn).area ids
  · exact h.spares
  · intro n s he
    obtain ⟨hn, hstarts⟩ := h.spawns n s he
    exact ⟨hn, hstarts.starts, fun k ↦ hstarts.clear.area (ids k)⟩
  · exact h.pokes

/-- **Returns are safe in the window.**  Threads whose shadow stacks are different areas of the window, and whose
stores are outside of it, return to where they were called, as long as their calls fit an area. -/
theorem run_threads_window [DecidableEq ι] {mem : Memory} {es : List (Event ι)} {fr : Frame} {frames : List Frame}
    {imm : Nat} {rest : List Inst} (hids : Function.Injective ids)
    (hrun : Run (Guarded (AllowedWindow p strategy scavenger ids) (Process.Step (p.instrumented strategy scavenger)))
      ⟨mem, fun _ ↦ none⟩ es P)
    (hallowed : AllowedWindow p strategy scavenger ids P (.tick n)) (hn : P.threads n = some s)
    (hfr : s.frames = fr :: frames) (hrest : s.pos.rest = .orig (.ret imm) :: rest) :
    Returned fr frames ((p.instrumented strategy scavenger).tick (s.inMem P.mem)) := by
  have hrun' := hrun.mono fun P e P' hs ↦ (⟨hs.1.allowed, hs.2⟩ :
    Guarded (Allowed p strategy scavenger (fun n ↦ areaChunk (ids n)) fun n ↦ idToAddr (ids n) + 16) _ P e P')
  obtain ⟨hok, -, hdata⟩ := run_steady (areaChunk_apart hids) hrun' hn
  have htick := hallowed.allowed
  exact hok.returned (C := fun n ↦ areaChunk (ids n)) (htick.obeys n s rfl hn) hdata (htick.fits n s hn) hfr hrest

/-! ## A run -/

/-- The first and the last area of the window. -/
def idsOf (n : Bool) : Fin threadsLimit :=
  if n then ⟨threadsLimit - 1, by decide⟩ else ⟨0, by decide⟩

/-- `AllowedWindow`, computed, for an instruction of one of two threads. -/
def tickAllowedWindow (P : Process Bool) (n : Bool) (s : State) : Bool :=
  tickAllowed smashed .blindWrite noScratch (fun n ↦ areaChunk (idsOf n)) (fun n ↦ idToAddr (idsOf n) + 16) P n s &&
    obeys smashed .blindWrite noScratch (fun _ ↦ windowChunk) (s.inMem P.mem)

theorem tickAllowedWindow_sound (P : Process Bool) (n : Bool) (s : State) (hn : P.threads n = some s)
    (h : tickAllowedWindow P n s) : AllowedWindow smashed .blindWrite noScratch idsOf P (.tick n) := by
  obtain ⟨hallowed, hobeys⟩ := (Bool.and_eq_true _ _).mp h
  have hallowed := tickAllowed_sound hn hallowed
  constructor
  · intro k u hu
    have hfits := hallowed.fits k u hu
    simp only [areaChunk] at hfits
    omega
  · intro k u he hu
    cases he
    obtain rfl := Option.some.inj (hn.symm.trans hu)
    exact obeys_sound hobeys
  · exact hallowed.spares
  · intro k u he
    cases he
  · intro mem he
    cases he

theorem startOf_window (P : Process Bool) (n : Bool) (hmem : P.mem = twoStacks fun n ↦ idToAddr (idsOf n))
    (hn : P.threads n = none)
    (hothers : ∀ k s, P.threads k = some s → s = startOf (fun n ↦ idToAddr (idsOf n)) k) :
    AllowedWindow smashed .blindWrite noScratch idsOf P (.spawn n (startOf (fun n ↦ idToAddr (idsOf n)) n)) := by
  constructor
  · intro k s hk
    obtain rfl := hothers k s hk
    cases k <;> decide
  · intro k s he
    cases he
  · intro k s s' he
    cases he
  · intro k s he
    cases he
    refine ⟨hn, ?_⟩
    rw [hmem]
    constructor
    · exact ⟨0, _, rfl, rfl⟩
    · cases n <;> exact ⟨0x400000, rfl, by decide +kernel⟩
    · rfl
    · cases n <;> decide +kernel
    · unfold Chunk.Clear
      cases n <;> decide
  · intro mem he
    cases he

/-- Both threads overwrite their return slots, and the first one returns. -/
theorem run_threads_window_smashed : ∃ P P' s fr,
    Run (Guarded (AllowedWindow smashed .blindWrite noScratch idsOf)
        (Process.Step (smashed.instrumented .blindWrite noScratch)))
      ⟨twoStacks fun n ↦ idToAddr (idsOf n), fun _ ↦ none⟩
      ([.spawn false (startOf (fun n ↦ idToAddr (idsOf n)) false),
        .spawn true (startOf (fun n ↦ idToAddr (idsOf n)) true)] ++ turns 12) P ∧
    load64 P.mem (stackOf false) = 0x4141414141414141 ∧
    Run (Guarded (AllowedWindow smashed .blindWrite noScratch idsOf)
        (Process.Step (smashed.instrumented .blindWrite noScratch))) P (turns 7) P' ∧
    P'.threads false = some s ∧ s.frames = [fr] ∧ fr.ra = 0x400000 ∧
    Returned fr [] ((smashed.instrumented .blindWrite noScratch).tick (s.inMem P'.mem)) := by
  have hcheck : smashes (smashed.instrumented .blindWrite noScratch) tickAllowedWindow
      (fun n ↦ idToAddr (idsOf n)) = true := by
    decide +kernel
  have hids : Function.Injective idsOf := by decide
  obtain ⟨P, P', s, fr, hrun, hslot, hrun', hallowed, hs, hframes, hra, imm, rest, hrest⟩ :=
    smashes_spec (AllowedWindow smashed .blindWrite noScratch idsOf) tickAllowedWindow_sound hcheck
  have hstart := (spawn_both startOf_window).trans hrun
  refine ⟨P, P', s, fr, hstart, hslot, hrun', hs, hframes, hra, ?_⟩
  exact run_threads_window hids (hstart.trans hrun') hallowed hs hframes hrest

end ShadowStack.X86
