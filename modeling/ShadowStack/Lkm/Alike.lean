import ShadowStack.Lkm.Areas
import ShadowStack.Lkm.Quiescence

/-!
# The same module in both models

The state of the sequential model and that of the interleaving one are compared by `Sim`: a descriptor is in the
table in the one, and behind a pointer in the other.  Each operation of a call keeps them alike.
-/

namespace ShadowStack.Lkm.Conc

open Lib

/-! ## The two states -/

/-- What a slot holds: a descriptor behind its pointer, or by value. -/
inductive SameSlot (descs : Nat → Option ThreadDesc) : Option (Slot Nat) → Option (Slot ThreadDesc) → Prop
  | free : SameSlot descs none none
  | reserved : SameSlot descs (some .reserved) (some .reserved)
  | entry {t : Nat} {td : ThreadDesc} (h : descs t = some td) :
      SameSlot descs (some (.entry t)) (some (.entry td))

/-- The same module in both models.  `cargo` is the descriptor that the running call works on, which is in no
table. -/
structure Sim (s : State) (w : World) (cargo : Option (Nat × ThreadDesc)) : Prop where
  reg : ∀ g, s.saAllocators.slot g = (w.reg g).map .entry
  nextAlloc : w.nextAlloc = s.nextAlloc
  destroyed : w.destroyed = s.destroyed
  dead : ∀ a, a ∈ w.dead ↔ a < s.nextAlloc ∧ s.allocs a = none
  glSa : w.glSa = s.glSa
  glSize : w.glSize = s.glSize
  nextPl : w.nextPl = s.nextPl
  tgid : ∀ a d, s.allocs a = some d → w.tgid a = d.tgid
  kref : ∀ a d, s.allocs a = some d → w.kref a = d.kref
  maxId : ∀ a d, s.allocs a = some d → w.maxId a = d.maxId
  slot : ∀ a d i, s.allocs a = some d → SameSlot w.descs ((w.threads a).slot i) (d.threads.slot i)
  fresh : ∀ t, w.nextDesc ≤ t → w.descs t = none
  cargo : ∀ c ∈ cargo, w.descs c.1 = some c.2 ∧
    ∀ a d i, s.allocs a = some d → (w.threads a).slot i ≠ some (.entry c.1)

variable {s s' : State} {w w' : World} {c c' : Option (Nat × ThreadDesc)} {a : AllocPtr}
  {d : AllocatorDesc} {id t : Nat} {td : ThreadDesc} {pl : PlPtr}

theorem SameSlot.isNone {descs : Nat → Option ThreadDesc} {x : Option (Slot Nat)}
    {y : Option (Slot ThreadDesc)} (h : SameSlot descs x y) : x = none ↔ y = none := by
  cases h <;> simp

theorem SameSlot.entry_inv {descs : Nat → Option ThreadDesc} {y : Option (Slot ThreadDesc)}
    (h : SameSlot descs (some (.entry t)) y) : ∃ td, y = some (.entry td) ∧ descs t = some td := by
  generalize hx : some (Slot.entry t) = x at h
  cases h with
  | free => cases hx
  | reserved => cases hx
  | @entry t' td hdesc =>
      obtain rfl : t = t' := Slot.entry.inj (Option.some.inj hx)
      exact ⟨td, rfl, hdesc⟩

theorem SameSlot.of_entry {descs : Nat → Option ThreadDesc} {x : Option (Slot Nat)}
    (h : SameSlot descs x (some (.entry td))) : ∃ t, x = some (.entry t) ∧ descs t = some td := by
  generalize hy : some (Slot.entry td) = y at h
  cases h with
  | free => cases hy
  | reserved => cases hy
  | @entry t td' hdesc =>
      obtain rfl : td = td' := Slot.entry.inj (Option.some.inj hy)
      exact ⟨t, rfl, hdesc⟩

theorem SameSlot.update {descs : Nat → Option ThreadDesc} {x : Option (Slot Nat)}
    {y : Option (Slot ThreadDesc)} (h : SameSlot descs x y) (hx : x ≠ some (.entry t))
    (td : Option ThreadDesc) : SameSlot (Function.update descs t td) x y := by
  cases h with
  | free => exact .free
  | reserved => exact .reserved
  | @entry t' td' h =>
      apply SameSlot.entry
      rwa [Function.update_of_ne fun heq ↦ hx (congrArg (some ∘ Slot.entry) heq)]

namespace Sim

theorem find (h : Sim s w c) (g : Nat) : w.reg g = s.allocFind g := by
  rw [State.allocFind, Xarray.load, h.reg g]
  cases w.reg g <;> rfl

theorem goto (h : Sim s w c) (n : Nat) (f : Frame) (pc : Pc) : Sim s (w.goto n f pc) c := { h with }

theorem finish (h : Sim s w c) (n : Nat) : Sim s (w.finish n) c := { h with }

theorem drop (h : Sim s w c) : Sim s w none :=
  { h with cargo := fun c hc ↦ absurd hc (Option.not_mem_none c) }

/-- Page tables and pages are not compared. -/
theorem congr (h : Sim s w c) (hreg : s'.saAllocators = s.saAllocators) (hallocs : s'.allocs = s.allocs)
    (hnext : s'.nextAlloc = s.nextAlloc) (hdes : s'.destroyed = s.destroyed) (hgl : s'.glSa = s.glSa)
    (hsize : s'.glSize = s.glSize) (hpl : s'.nextPl = s.nextPl) : Sim s' w c where
  reg g := by rw [hreg, h.reg]
  nextAlloc := h.nextAlloc.trans hnext.symm
  destroyed := h.destroyed.trans hdes.symm
  dead a := by rw [hnext, hallocs, h.dead]
  glSa := h.glSa.trans hgl.symm
  glSize := h.glSize.trans hsize.symm
  nextPl := h.nextPl.trans hpl.symm
  tgid a d hd := h.tgid a d (hallocs ▸ hd)
  kref a d hd := h.kref a d (hallocs ▸ hd)
  maxId a d hd := h.maxId a d (hallocs ▸ hd)
  slot a d i hd := h.slot a d i (hallocs ▸ hd)
  fresh := h.fresh
  cargo c hc := ⟨(h.cargo c hc).1, fun a d i hd ↦ (h.cargo c hc).2 a d i (hallocs ▸ hd)⟩

/-- One allocator changes. -/
theorem setAlloc {e : AllocatorDesc} {kref maxId : AllocPtr → Nat} {threads : AllocPtr → Xarray Nat}
    (h : Sim s w c) (hd : s.allocs a = some d) (htgid : e.tgid = d.tgid) (hk : kref a = e.kref)
    (hk' : ∀ b ≠ a, kref b = w.kref b) (hm : maxId a = e.maxId) (hm' : ∀ b ≠ a, maxId b = w.maxId b)
    (ht : ∀ i, SameSlot w.descs ((threads a).slot i) (e.threads.slot i))
    (ht' : ∀ b ≠ a, threads b = w.threads b)
    (hc : ∀ c' ∈ c, ∀ i, (threads a).slot i ≠ some (.entry c'.1)) :
    Sim (s.setAlloc a e) { w with kref := kref, maxId := maxId, threads := threads } c := by
  have hcases : ∀ {b d'}, (s.setAlloc a e).allocs b = some d' →
      (b = a ∧ d' = e) ∨ b ≠ a ∧ s.allocs b = some d' := by
    intro b d' hb
    obtain ⟨hba, he⟩ | hne := update_eq_some hb
    · exact .inl ⟨hba, (Option.some.inj he).symm⟩
    · exact .inr hne
  constructor
  · exact h.reg
  · exact h.nextAlloc
  · exact h.destroyed
  · intro b
    rw [h.dead]
    by_cases hb : b = a
    · simp [hb, hd]
    · rw [State.setAlloc_allocs_of_ne hb]
      rfl
  · exact h.glSa
  · exact h.glSize
  · exact h.nextPl
  · intro b d' hb
    obtain ⟨rfl, rfl⟩ | ⟨-, hb⟩ := hcases hb
    · exact (h.tgid b d hd).trans htgid.symm
    · exact h.tgid b d' hb
  · intro b d' hb
    obtain ⟨rfl, rfl⟩ | ⟨hne, hb⟩ := hcases hb
    · exact hk
    · exact (hk' b hne).trans (h.kref b d' hb)
  · intro b d' hb
    obtain ⟨rfl, rfl⟩ | ⟨hne, hb⟩ := hcases hb
    · exact hm
    · exact (hm' b hne).trans (h.maxId b d' hb)
  · intro b d' i hb
    obtain ⟨rfl, rfl⟩ | ⟨hne, hb⟩ := hcases hb
    · exact ht i
    · show SameSlot w.descs ((threads b).slot i) _
      rw [ht' b hne]
      exact h.slot b d' i hb
  · exact h.fresh
  · refine fun c' hc' ↦ ⟨(h.cargo c' hc').1, fun b d' i hb ↦ ?_⟩
    obtain ⟨rfl, rfl⟩ | ⟨hne, hb⟩ := hcases hb
    · exact hc c' hc' i
    · show (threads b).slot i ≠ _
      rw [ht' b hne]
      exact (h.cargo c' hc').2 b d' i hb

theorem setKref (h : Sim s w c) (hd : s.allocs a = some d) (k : Nat) :
    Sim (s.setAlloc a { d with kref := k }) (w.setKref a k) c := by
  apply h.setAlloc hd
  · rfl
  · exact Function.update_self a k w.kref
  · exact fun b hb ↦ Function.update_of_ne hb k w.kref
  · exact h.maxId a d hd
  · exact fun _ _ ↦ rfl
  · exact fun i ↦ h.slot a d i hd
  · exact fun _ _ ↦ rfl
  · exact fun c' hc' i ↦ (h.cargo c' hc').2 a d i hd

theorem raiseMax (h : Sim s w c) (hd : s.allocs a = some d) (id : Nat) :
    Sim (s.setAlloc a { d with maxId := max d.maxId id }) (w.raiseMax a id) c := by
  apply h.setAlloc hd
  · rfl
  · exact h.kref a d hd
  · exact fun _ _ ↦ rfl
  · rw [Function.update_self, h.maxId a d hd]
  · exact fun b hb ↦ Function.update_of_ne hb _ w.maxId
  · exact fun i ↦ h.slot a d i hd
  · exact fun _ _ ↦ rfl
  · exact fun c' hc' i ↦ (h.cargo c' hc').2 a d i hd

theorem setThreads {x : Xarray Nat} {y : Xarray ThreadDesc} (h : Sim s w c) (hd : s.allocs a = some d)
    (hslot : ∀ i, SameSlot w.descs (x.slot i) (y.slot i)) (hcargo : ∀ c' ∈ c, ∀ i, x.slot i ≠ some (.entry c'.1)) :
    Sim (s.setAlloc a { d with threads := y }) (w.setThreads a x) c := by
  have hself : Function.update w.threads a x a = x := Function.update_self a x w.threads
  apply h.setAlloc hd
  · rfl
  · exact h.kref a d hd
  · exact fun _ _ ↦ rfl
  · exact h.maxId a d hd
  · exact fun _ _ ↦ rfl
  · rwa [hself]
  · exact fun b hb ↦ Function.update_of_ne hb x w.threads
  · rwa [hself]

/-- A slot is reserved, -/
theorem reserve (h : Sim s w c) (hd : s.allocs a = some d) (id : Nat) :
    Sim (s.setAlloc a { d with threads := d.threads.set id .reserved })
      (w.setThreads a ((w.threads a).set id .reserved)) c := by
  apply h.setThreads hd
  · intro i
    rw [Xarray.slot_set, Xarray.slot_set]
    split
    · exact .reserved
    · exact h.slot a d i hd
  · intro c' hc' i
    rw [Xarray.slot_set]
    split
    · intro heq
      cases heq
    · exact (h.cargo c' hc').2 a d i hd

/-- or emptied. -/
theorem erase (h : Sim s w c) (hd : s.allocs a = some d) (id : Nat) :
    Sim (s.setAlloc a { d with threads := d.threads.erase id })
      (w.setThreads a ((w.threads a).erase id)) c := by
  apply h.setThreads hd
  · intro i
    rw [Xarray.slot_erase, Xarray.slot_erase]
    split
    · exact .free
    · exact h.slot a d i hd
  · intro c' hc' i
    rw [Xarray.slot_erase]
    split
    · exact fun heq ↦ absurd heq.symm (Option.some_ne_none _)
    · exact (h.cargo c' hc').2 a d i hd

/-- The call stores its descriptor. -/
theorem publish (h : Sim s w (some (t, td))) (hd : s.allocs a = some d) (id : Nat) :
    Sim (s.setAlloc a { d with threads := d.threads.set id (.entry td) })
      (w.setThreads a ((w.threads a).set id (.entry t))) none := by
  obtain ⟨hdesc, hcargo⟩ := h.cargo (t, td) rfl
  apply h.drop.setThreads hd
  · intro i
    rw [Xarray.slot_set, Xarray.slot_set]
    split
    · exact .entry hdesc
    · exact h.slot a d i hd
  · exact fun c' hc' ↦ absurd hc' (Option.not_mem_none c')

/-- `sa_free` takes a descriptor that is in no other slot. -/
theorem take (h : Sim s w none) (hd : s.allocs a = some d) (hslot : (w.threads a).slot id = some (.entry t))
    (hdesc : w.descs t = some td)
    (honly : ∀ b d' i, s.allocs b = some d' → (w.threads b).slot i = some (.entry t) → b = a ∧ i = id) :
    Sim (s.setAlloc a { d with threads := d.threads.erase id })
      (w.setThreads a ((w.threads a).erase id)) (some (t, td)) := by
  have herase := h.erase hd id
  refine { herase with cargo := fun c' hc' ↦ ?_ }
  obtain rfl := Option.mem_some.mp hc'
  refine ⟨hdesc, fun b d' i hb hentry ↦ ?_⟩
  by_cases hba : b = a
  · subst hba
    have hself : (w.setThreads b ((w.threads b).erase id)).threads b = (w.threads b).erase id :=
      Function.update_self _ _ _
    rw [hself, Xarray.slot_erase] at hentry
    split at hentry
    · cases hentry
    · next hi => exact hi (honly b d i hd hentry).2
  · have hother : (w.setThreads a ((w.threads a).erase id)).threads b = w.threads b :=
      Function.update_of_ne hba _ _
    rw [hother] at hentry
    rw [State.setAlloc_allocs_of_ne hba] at hb
    exact hba (honly b d' i hb hentry).1

/-! ## Descriptors and pagelists -/

theorem kmalloc (h : Sim s w none) : Sim s w.kmalloc (some (w.nextDesc, ⟨0, 0, 0⟩)) := by
  have hne : ∀ b d' i, s.allocs b = some d' → (w.threads b).slot i ≠ some (.entry w.nextDesc) := by
    intro b d' i hb hentry
    have hsame := h.slot b d' i hb
    rw [hentry] at hsame
    obtain ⟨td, -, hdesc⟩ := hsame.entry_inv
    rw [h.fresh w.nextDesc le_rfl] at hdesc
    cases hdesc
  refine { h with slot := fun b d' i hb ↦ (h.slot b d' i hb).update (hne b d' i hb) _, fresh := ?_, cargo := ?_ }
  · intro t ht
    have hlt : w.nextDesc < t := ht
    exact (Function.update_of_ne hlt.ne' _ _).trans (h.fresh t hlt.le)
  · intro c' hc'
    obtain rfl := Option.mem_some.mp hc'
    exact ⟨Function.update_self _ _ _, hne⟩

/-- The call writes its descriptor, -/
theorem setDesc (h : Sim s w (some (t, td))) (td' : ThreadDesc) :
    Sim s (w.setDesc t (some td')) (some (t, td')) := by
  obtain ⟨hdesc, hne⟩ := h.cargo (t, td) rfl
  refine { h with slot := fun b d' i hb ↦ (h.slot b d' i hb).update (hne b d' i hb) _, fresh := ?_, cargo := ?_ }
  · intro t' ht'
    have hlt : t' ≠ t := by
      rintro rfl
      rw [h.fresh t' ht'] at hdesc
      cases hdesc
    exact (Function.update_of_ne hlt _ _).trans (h.fresh t' ht')
  · intro c' hc'
    obtain rfl := Option.mem_some.mp hc'
    exact ⟨Function.update_self _ _ _, hne⟩

/-- or frees it. -/
theorem kfree (h : Sim s w (some (t, td))) : Sim s (w.setDesc t none) none := by
  obtain ⟨hdesc, hne⟩ := h.cargo (t, td) rfl
  refine { h with slot := fun b d' i hb ↦ (h.slot b d' i hb).update (hne b d' i hb) _, fresh := ?_, cargo := ?_ }
  · intro t' ht'
    by_cases heq : t' = t
    · rw [heq]
      exact Function.update_self _ _ _
    · exact (Function.update_of_ne heq _ _).trans (h.fresh t' ht')
  · exact fun c' hc' ↦ absurd hc' (Option.not_mem_none c')

/-- `gl_alloc_stack`. -/
theorem glAllocStack (h : Sim s w c) {ans : Answers} (hs : s.glAllocStack ans = some (pl, s')) :
    ∃ w', w.glAllocStack true = some (pl, w') ∧ Sim s' w' c ∧ w'.calls = w.calls ∧
      w'.nextCall = w.nextCall ∧ w'.grants = w.grants := by
  rw [State.glAllocStack] at hs
  cases hgl : s.glSa with
  | cons pl' rest =>
      simp only [hgl, Option.some.injEq, Prod.mk.injEq] at hs
      obtain ⟨rfl, rfl⟩ := hs
      refine ⟨{ w with glSa := rest, glSize := w.glSize - 1, held := insert pl' w.held }, ?_, ?_, rfl, rfl, rfl⟩
      · simp only [World.glAllocStack, h.glSa, hgl]
      · exact { h with glSa := rfl, glSize := congrArg (· - 1) h.glSize }
  | nil =>
      simp only [hgl] at hs
      split_ifs at hs
      split at hs
      · cases hs
      obtain ⟨rfl, rfl⟩ := Prod.mk.inj (Option.some.inj hs)
      refine ⟨{ w with nextPl := w.nextPl + 1, held := insert w.nextPl w.held }, ?_, ?_, rfl, rfl, rfl⟩
      · simp only [World.glAllocStack, h.glSa, hgl, ↓reduceIte, h.nextPl]
      · exact { h with glSa := h.glSa.trans hgl, nextPl := congrArg (· + 1) h.nextPl }

/-- The next entry of a table, from an index with one behind it. -/
theorem next (h : Sim s w c) {i k : Nat} (hd : s.allocs a = some d) (hik : i ≤ k)
    (hk : d.threads.load k = some td) : ∃ j t td', (w.threads a).next i = some (j, t) ∧ i ≤ j ∧ j ≤ k ∧
      d.threads.load j = some td' ∧ w.descs t = some td' := by
  have hsame := h.slot a d k hd
  rw [Xarray.load_eq_some.mp hk] at hsame
  obtain ⟨tk, hslot, -⟩ := hsame.of_entry
  obtain ⟨j, t, hnext, hij, hjk, hj⟩ := Xarray.next_of_load hik (Xarray.load_eq_some.mpr hslot)
  have hsame' := h.slot a d j hd
  rw [Xarray.load_eq_some.mp hj] at hsame'
  obtain ⟨td', hslot', hdesc⟩ := hsame'.entry_inv
  exact ⟨j, t, td', hnext, hij, hjk, Xarray.load_eq_some.mpr hslot', hdesc⟩

theorem glFree (h : Sim s w c) (pl : PlPtr) : Sim (s.glFree pl) (w.glFree pl) c := by
  rw [State.glFree, World.glFree]
  by_cases hfull : glSaCapacity ≤ s.glSize
  · rw [if_pos hfull, if_pos (h.glSize ▸ hfull)]
    exact { h with }
  · rw [if_neg hfull, if_neg (h.glSize ▸ hfull)]
    exact { h with glSa := congrArg (pl :: ·) h.glSa, glSize := congrArg (· + 1) h.glSize }

/-! ## Allocators -/

/-- `alloc_create`. -/
theorem create (h : Sim s w none) (tgid : Nat) (mm : Option MmId) (hs : s' = { s with
      saAllocators := s.saAllocators.set tgid (.entry s.nextAlloc)
      allocs := Function.update s.allocs s.nextAlloc (some ⟨tgid, mm, .empty, 0, 1⟩)
      nextAlloc := s.nextAlloc + 1 })
    (hw : w' = { w with
      reg := Function.update w.reg tgid (some w.nextAlloc)
      tgid := Function.update w.tgid w.nextAlloc tgid
      threads := Function.update w.threads w.nextAlloc .empty
      maxId := Function.update w.maxId w.nextAlloc 0
      kref := Function.update w.kref w.nextAlloc 1
      nextAlloc := w.nextAlloc + 1 }) : Sim s' w' none := by
  subst hs hw
  have hcases : ∀ {b d'}, Function.update s.allocs s.nextAlloc (some ⟨tgid, mm, .empty, 0, 1⟩) b = some d' →
      (b = w.nextAlloc ∧ d' = ⟨tgid, mm, .empty, 0, 1⟩) ∨ b ≠ w.nextAlloc ∧ s.allocs b = some d' := by
    intro b d' hb
    rw [h.nextAlloc]
    obtain ⟨hba, he⟩ | hne := update_eq_some hb
    · exact .inl ⟨hba, (Option.some.inj he).symm⟩
    · exact .inr hne
  constructor
  · intro g
    dsimp only
    rw [Xarray.slot_set, Function.update_apply, h.nextAlloc]
    split
    · rfl
    · exact h.reg g
  · exact congrArg (· + 1) h.nextAlloc
  · exact h.destroyed
  · intro b
    dsimp only
    rw [h.dead, Function.update_apply]
    by_cases hb : b = s.nextAlloc
    · simp [hb]
    · simp only [Nat.lt_succ_iff_lt_or_eq, hb, or_false, if_false]
  · exact h.glSa
  · exact h.glSize
  · exact h.nextPl
  · intro b d' hb
    obtain ⟨rfl, rfl⟩ | ⟨hne, hb⟩ := hcases hb
    · exact Function.update_self _ _ _
    · exact (Function.update_of_ne hne _ _).trans (h.tgid b d' hb)
  · intro b d' hb
    obtain ⟨rfl, rfl⟩ | ⟨hne, hb⟩ := hcases hb
    · exact Function.update_self _ _ _
    · exact (Function.update_of_ne hne _ _).trans (h.kref b d' hb)
  · intro b d' hb
    obtain ⟨rfl, rfl⟩ | ⟨hne, hb⟩ := hcases hb
    · exact Function.update_self _ _ _
    · exact (Function.update_of_ne hne _ _).trans (h.maxId b d' hb)
  · intro b d' i hb
    obtain ⟨rfl, rfl⟩ | ⟨hne, hb⟩ := hcases hb
    · dsimp only
      rw [Function.update_self]
      exact .free
    · dsimp only
      rw [Function.update_of_ne hne]
      exact h.slot b d' i hb
  · exact h.fresh
  · exact fun c' hc' ↦ absurd hc' (Option.not_mem_none c')

/-- `alloc_destroy` ends the registration. -/
theorem deregister (h : Sim s w c) (hd : s.allocs a = some d)
    (hs : s' = { s with saAllocators := s.saAllocators.erase d.tgid }) :
    Sim s' { w with reg := Function.update w.reg (w.tgid a) none } c := by
  subst hs
  refine { h with reg := fun g ↦ ?_ }
  dsimp only
  rw [Xarray.slot_erase, Function.update_apply, h.tgid a d hd]
  split
  · rfl
  · exact h.reg g

/-- `alloc_destroy_callback`. -/
theorem bury (h : Sim s w none) (hlt : a < s.nextAlloc)
    (hs : s' = { s with allocs := Function.update s.allocs a none }) :
    Sim s' { w with dead := insert a w.dead } none := by
  subst hs
  have hof : ∀ {b d'}, Function.update s.allocs a none b = some d' → s.allocs b = some d' := by
    intro b d' hb
    rw [Function.update_apply] at hb
    split at hb
    · cases hb
    · exact hb
  constructor
  · exact h.reg
  · exact h.nextAlloc
  · exact h.destroyed
  · intro b
    dsimp only
    rw [Finset.mem_insert, h.dead, Function.update_apply]
    by_cases hb : b = a
    · simp [hb, hlt]
    · simp [hb]
  · exact h.glSa
  · exact h.glSize
  · exact h.nextPl
  · exact fun b d' hb ↦ h.tgid b d' (hof hb)
  · exact fun b d' hb ↦ h.kref b d' (hof hb)
  · exact fun b d' hb ↦ h.maxId b d' (hof hb)
  · exact fun b d' i hb ↦ h.slot b d' i (hof hb)
  · exact h.fresh
  · exact fun c' hc' ↦ absurd hc' (Option.not_mem_none c')

end Sim

end ShadowStack.Lkm.Conc
