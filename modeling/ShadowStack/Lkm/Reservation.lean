import ShadowStack.Lkm.Areas
import ShadowStack.Lkm.Lifetime

/-!
# Reserved ids

`sa_alloc` reserves an id in one step and stores its descriptor there several steps later.  As long as
no `sa_free` empties a slot that is only reserved, the reservation keeps every other call away, and
two calls that have returned hold different ids.
-/

namespace ShadowStack.Lkm.Conc

open Lib

/-! ## Where `sa_alloc` is -/

/-- The slot `sa_alloc` has reserved. -/
def Pc.reserved : Pc → Option (AllocPtr × Nat)
  | .allocThread a id | .allocStack a id _ | .allocMap a id _ | .allocMax a id _ | .allocStore a id _
  | .allocGlFree a id _ | .allocKfree a id _ | .allocErase a id => some (a, id)
  | _ => none

/-- The descriptor `sa_alloc` has made and not stored. -/
def Pc.hidden : Pc → Option Nat
  | .allocStack _ _ t | .allocMap _ _ t | .allocMax _ _ t | .allocStore _ _ t | .allocGlFree _ _ t
  | .allocKfree _ _ t => some t
  | _ => none

/-- The id and the descriptor of `sa_alloc`, with the fields written. -/
def Pc.written : Pc → Option (Nat × Nat)
  | .allocMap _ id t | .allocMax _ id t | .allocStore _ id t | .allocRead _ id t => some (id, t)
  | _ => none

/-- The slot and the descriptor that `sa_alloc` has stored there. -/
def Pc.stored : Pc → Option (AllocPtr × Nat × Nat)
  | .allocRead a id t => some (a, id, t)
  | _ => none

/-- The descriptor `sa_free` has taken. -/
def Pc.taken : Pc → Option Nat
  | .freeUnmap _ t | .freeGlFree _ t | .freeKfree _ t => some t
  | _ => none

/-- The call is `sa_alloc` or `sa_free`. -/
def Pc.Plain : Pc → Prop
  | .forkFind _ _ | .forkGet _ _ _ | .forkParent _ _ _ | .forkThread _ _ _ | .forkStack _ _ _ _
  | .forkScan _ _ _ _ _ _ | .forkInsert _ _ _ _ | .forkMap _ _ _ _ | .forkMax _ _ _
  | .forkErase _ _ _ _ | .forkGlFree _ _ _ | .forkKfree _ _ | .destroyErase _ => False
  | _ => True

/-- Two calls of `sa_alloc` by one process that have returned, and whose areas were not freed, have
different addresses and their descriptors in the table. -/
def Distinct (w : World) : Prop :=
  ∀ n m g h, n ≠ m → w.grants n = some g → w.grants m = some h → g.t ∉ w.removed → h.t ∉ w.removed →
    g.a = h.a → g.addr ≠ h.addr ∧ (w.threads g.a).slot g.id = some (.entry g.t) ∧
      (w.threads h.a).slot h.id = some (.entry h.t)

/-- The calls are those of `sa_alloc` and `sa_free`. -/
def AllocAndFree : Event → Prop
  | .create _ => True
  | .enter _ _ entry => entry.pc.Plain
  | .step _ _ => True

/-- `sa_free` empties no slot that is only reserved. -/
def Spares (w : World) : Event → Prop
  | .step n _ => ∀ f a id, w.calls n = some f → f.pc = .freeErase a id →
      (w.threads a).slot id ≠ some .reserved
  | _ => True

/-! ## The invariant -/

/-- What holds of call `n` at `pc`; `maker` tells which call has made a descriptor. -/
structure FrameOk (w : World) (maker : Nat → Nat) (n : Nat) (pc : Pc) : Prop where
  plain : pc.Plain
  ptr : ∀ a, pc.counted = some a ∨ pc.uncounted = some a → a < w.nextAlloc
  reserved : ∀ a id, pc.reserved = some (a, id) →
    (w.threads a).slot id = some .reserved ∧ id ≤ threadsLimit
  hidden : ∀ t, pc.hidden = some t → maker t = n ∧ t < w.nextDesc ∧ t ∉ w.removed ∧
    ∀ a i, (w.threads a).slot i ≠ some (.entry t)
  written : ∀ id t, pc.written = some (id, t) → t ∉ w.removed →
    ∃ d, w.descs t = some d ∧ d.addr = idToAddr id
  stored : ∀ a id t, pc.stored = some (a, id, t) → maker t = n ∧ t < w.nextDesc ∧
    id ≤ threadsLimit ∧ (t ∉ w.removed → (w.threads a).slot id = some (.entry t))
  taken : ∀ t, pc.taken = some t → t ∈ w.removed

/-- What holds of a call that has returned. -/
structure GrantOk (w : World) (maker : Nat → Nat) (n : Nat) (g : Grant) : Prop where
  maker : maker g.t = n
  lt : g.t < w.nextDesc
  ptr : g.a < w.nextAlloc
  id_le : g.id ≤ threadsLimit
  kept : g.t ∉ w.removed → (w.threads g.a).slot g.id = some (.entry g.t) ∧ g.addr = idToAddr g.id

structure ResInv (w : World) (maker : Nat → Nat) : Prop where
  frame : ∀ n f, w.calls n = some f → FrameOk w maker n f.pc
  unique : ∀ n f m g x, w.calls n = some f → f.pc.reserved = some x → w.calls m = some g →
    g.pc.reserved = some x → m = n
  grant : ∀ n g, w.grants n = some g → GrantOk w maker n g
  reg : ∀ g a, w.reg g = some a → a < w.nextAlloc
  removed : ∀ t ∈ w.removed, t < w.nextDesc
  entry : ∀ a i t, (w.threads a).slot i = some (.entry t) → t < w.nextDesc
  calls : ∀ n, w.nextCall ≤ n → w.calls n = none

theorem ResInv.init : ResInv .init fun _ ↦ 0 := by
  constructor <;> simp [World.init]

/-- What the invariant is for: two grants with the same address would be in the same slot. -/
theorem ResInv.distinct {w : World} {maker : Nat → Nat} (h : ResInv w maker) : Distinct w := by
  intro n m g g' hnm hg hg' hr hr' ha
  obtain ⟨hm, -, -, hle, hkept⟩ := h.grant n g hg
  obtain ⟨hm', -, -, hle', hkept'⟩ := h.grant m g' hg'
  obtain ⟨hslot, haddr⟩ := hkept hr
  obtain ⟨hslot', haddr'⟩ := hkept' hr'
  refine ⟨fun hc ↦ hnm ?_, hslot, hslot'⟩
  have hid : g.id = g'.id := by
    rw [← addrToId_idToAddr hle, ← addrToId_idToAddr hle', ← haddr, ← haddr', hc]
  rw [ha, hid, hslot'] at hslot
  rw [← hm, ← hm', Slot.entry.inj (Option.some.inj hslot)]

variable {w w' : World} {maker maker' : Nat → Nat} {n : Nat} {f : Frame} {pc pc' : Pc} {a : AllocPtr}

/-! ## What a step leaves alone -/

/-- What call `n` may change in one step, as the other calls see it. -/
structure Evolves (w w' : World) (maker maker' : Nat → Nat) (n : Nat) : Prop where
  nextAlloc : w.nextAlloc ≤ w'.nextAlloc
  nextDesc : w.nextDesc ≤ w'.nextDesc
  made : ∀ t < w.nextDesc, maker' t = maker t
  removed : w.removed ⊆ w'.removed
  taken : ∀ t ∈ w'.removed, t ∈ w.removed ∨ ∃ a i, (w.threads a).slot i = some (.entry t)
  kept : ∀ a < w.nextAlloc, ∀ i t, (w.threads a).slot i = some (.entry t) → t ∉ w'.removed →
    (w'.threads a).slot i = some (.entry t)
  shown : ∀ a i t, (w'.threads a).slot i = some (.entry t) →
    (w.threads a).slot i = some (.entry t) ∨ (maker t = n ∧ t < w.nextDesc)
  reserved : ∀ a < w.nextAlloc, ∀ i, (w.threads a).slot i = some .reserved →
    (w'.threads a).slot i = some .reserved ∨ ∃ f, w.calls n = some f ∧ f.pc.reserved = some (a, i)
  descs : ∀ t < w.nextDesc, maker t ≠ n → t ∉ w'.removed → w'.descs t = w.descs t

theorem Pc.hidden_or_stored {id t : Nat} (h : pc.written = some (id, t)) :
    pc.hidden = some t ∨ ∃ a, pc.stored = some (a, id, t) := by
  cases pc <;> simp_all [Pc.written, Pc.hidden, Pc.stored]

theorem Pc.counted_of_reserved {i : Nat} (h : pc.reserved = some (a, i)) : pc.counted = some a := by
  cases pc <;> simp_all [Pc.reserved, Pc.counted]

theorem Pc.counted_of_stored {i t : Nat} (h : pc.stored = some (a, i, t)) : pc.counted = some a := by
  cases pc <;> simp_all [Pc.stored, Pc.counted]

/-- The descriptor whose fields a call has written was made by it. -/
theorem FrameOk.maker_written (h : FrameOk w maker n pc) {id t : Nat} (ht : pc.written = some (id, t)) :
    maker t = n ∧ t < w.nextDesc := by
  rcases Pc.hidden_or_stored ht with hc | ⟨a, hc⟩
  · obtain ⟨hm, hlt, -, -⟩ := h.hidden t hc
    exact ⟨hm, hlt⟩
  · obtain ⟨hm, hlt, -, -⟩ := h.stored a id t hc
    exact ⟨hm, hlt⟩

/-- A step of call `n` does not disturb call `m`. -/
theorem FrameOk.evolve {m : Nat} (h : FrameOk w maker m pc) (hev : Evolves w w' maker maker' n)
    (hm : m ≠ n) (hres : ∀ x g, pc.reserved = some x → w.calls n = some g → g.pc.reserved ≠ some x) :
    FrameOk w' maker' m pc where
  plain := h.plain
  ptr a ha := (h.ptr a ha).trans_le hev.nextAlloc
  reserved a id hx := by
    obtain ⟨hslot, hle⟩ := h.reserved a id hx
    refine ⟨(hev.reserved a (h.ptr a (.inl (Pc.counted_of_reserved hx))) id hslot).resolve_right ?_, hle⟩
    rintro ⟨g, hg, hgx⟩
    exact hres _ g hx hg hgx
  hidden t ht := by
    obtain ⟨hmk, hlt, hrem, hslot⟩ := h.hidden t ht
    refine ⟨(hev.made t hlt).trans hmk, hlt.trans_le hev.nextDesc, fun hc ↦ ?_, fun a i hc ↦ ?_⟩
    · rcases hev.taken t hc with hc | ⟨a, i, hc⟩
      · exact hrem hc
      · exact hslot a i hc
    · rcases hev.shown a i t hc with hc | ⟨hc, -⟩
      · exact hslot a i hc
      · exact hm (hmk.symm.trans hc)
  written id t ht hrem := by
    obtain ⟨hmk, hlt⟩ := h.maker_written ht
    rw [hev.descs t hlt (by rw [hmk]; exact hm) hrem]
    exact h.written id t ht fun hc ↦ hrem (hev.removed hc)
  stored a id t ht := by
    obtain ⟨hmk, hlt, hle, hslot⟩ := h.stored a id t ht
    refine ⟨(hev.made t hlt).trans hmk, hlt.trans_le hev.nextDesc, hle, fun hrem ↦ ?_⟩
    exact hev.kept a (h.ptr a (.inl (Pc.counted_of_stored ht))) id t
      (hslot fun hc ↦ hrem (hev.removed hc)) hrem
  taken t ht := hev.removed (h.taken t ht)

/-- The tables and the descriptors are the same. -/
structure SameTables (w w' : World) : Prop where
  threads : w'.threads = w.threads
  descs : w'.descs = w.descs
  removed : w'.removed = w.removed
  nextAlloc : w'.nextAlloc = w.nextAlloc
  nextDesc : w'.nextDesc = w.nextDesc

theorem FrameOk.congr (h : FrameOk w maker n pc) (hs : SameTables w w') : FrameOk w' maker n pc := by
  obtain ⟨hplain, hptr, hres, hhid, hwr, hst, htk⟩ := h
  obtain ⟨hthreads, hdescs, hremoved, halloc, hdesc⟩ := hs
  constructor
  · exact hplain
  · rw [halloc]; exact hptr
  · rw [hthreads]; exact hres
  · rw [hdesc, hremoved, hthreads]; exact hhid
  · rw [hremoved, hdescs]; exact hwr
  · rw [hdesc, hremoved, hthreads]; exact hst
  · rw [hremoved]; exact htk

/-- Nor a call that has returned. -/
theorem GrantOk.evolve {m : Nat} {g : Grant} (h : GrantOk w maker m g)
    (hev : Evolves w w' maker maker' n) : GrantOk w' maker' m g where
  maker := (hev.made g.t h.lt).trans h.maker
  lt := h.lt.trans_le hev.nextDesc
  ptr := h.ptr.trans_le hev.nextAlloc
  id_le := h.id_le
  kept hrem := by
    obtain ⟨hslot, haddr⟩ := h.kept fun hc ↦ hrem (hev.removed hc)
    exact ⟨hev.kept g.a h.ptr g.id g.t hslot hrem, haddr⟩

namespace ResInv

/-- **The step of one call**, from `f` to `frame`. -/
theorem step (h : ResInv w maker) (hf : w.calls n = some f) {frame : Option Frame}
    (hcalls : w'.calls = Function.update w.calls n frame) (hev : Evolves w w' maker maker' n)
    (hreg : w'.reg = w.reg) (hnext : w'.nextCall = w.nextCall)
    (hframe : ∀ f', frame = some f' → FrameOk w' maker' n f'.pc)
    (hfree : ∀ f' a i, frame = some f' → f'.pc.reserved = some (a, i) →
      f.pc.reserved = some (a, i) ∨ (w.threads a).slot i = none)
    (hgrant : ∀ m g, w'.grants m = some g → w.grants m = some g ∨ (m = n ∧ GrantOk w' maker' n g)) :
    ResInv w' maker' := by
  have hothers : ∀ m g, w'.calls m = some g → (m = n ∧ frame = some g) ∨ (m ≠ n ∧ w.calls m = some g) := by
    intro m g hg
    rw [hcalls] at hg
    exact update_eq_some hg
  -- a slot that another call has reserved is not the one call `n` takes
  have hnew : ∀ m g f' x, m ≠ n → w.calls m = some g → g.pc.reserved = some x → frame = some f' →
      f'.pc.reserved ≠ some x := by
    rintro m g f' ⟨a, i⟩ hm hg hx hf' hx'
    rcases hfree f' a i hf' hx' with hc | hc
    · exact hm (h.unique n f m g _ hf hc hg hx)
    · rw [((h.frame m g hg).reserved a i hx).1] at hc
      cases hc
  constructor
  · intro m g hg
    rcases hothers m g hg with ⟨rfl, hc⟩ | ⟨hm, hg⟩
    · exact hframe g hc
    · refine (h.frame m g hg).evolve hev hm fun x g' hx hg' hx' ↦ ?_
      exact hm (h.unique n g' m g x hg' hx' hg hx)
  · intro m g m' g' x hg hx hg' hx'
    rcases hothers m g hg with ⟨rfl, hc⟩ | ⟨hm, hg⟩
    · rcases hothers m' g' hg' with ⟨rfl, -⟩ | ⟨hm', hg'⟩
      · rfl
      · exact absurd hx (hnew m' g' g x hm' hg' hx' hc)
    · rcases hothers m' g' hg' with ⟨rfl, hc⟩ | ⟨-, hg'⟩
      · exact absurd hx' (hnew m g g' x hm hg hx hc)
      · exact h.unique m g m' g' x hg hx hg' hx'
  · intro m g hg
    rcases hgrant m g hg with hg | ⟨rfl, hok⟩
    · exact (h.grant m g hg).evolve hev
    · exact hok
  · intro g a hg
    rw [hreg] at hg
    exact (h.reg g a hg).trans_le hev.nextAlloc
  · intro t ht
    rcases hev.taken t ht with ht | ⟨a, i, ht⟩
    · exact (h.removed t ht).trans_le hev.nextDesc
    · exact (h.entry a i t ht).trans_le hev.nextDesc
  · intro a i t ht
    rcases hev.shown a i t ht with ht | ⟨-, ht⟩
    · exact (h.entry a i t ht).trans_le hev.nextDesc
    · exact ht.trans_le hev.nextDesc
  · intro m hm
    rw [hnext] at hm
    rw [hcalls]
    have hne : m ≠ n := by
      rintro rfl
      rw [h.calls m hm] at hf
      cases hf
    rw [Function.update_of_ne hne, h.calls m hm]

/-- A change of nothing that matters here. -/
theorem same (h : ResInv w maker) (hs : SameTables w w') (hcalls : w'.calls = w.calls)
    (hreg : w'.reg = w.reg) (hnext : w'.nextCall = w.nextCall) (hgrants : w'.grants = w.grants) :
    ResInv w' maker where
  frame n f hf := (h.frame n f (by rw [← hcalls, hf])).congr hs
  unique := by rw [hcalls]; exact h.unique
  grant n g hg := by
    obtain ⟨hmk, hlt, hptr, hle, hkept⟩ := h.grant n g (by rw [← hgrants, hg])
    constructor
    · exact hmk
    · rw [hs.nextDesc]; exact hlt
    · rw [hs.nextAlloc]; exact hptr
    · exact hle
    · rw [hs.removed, hs.threads]; exact hkept
  reg := by rw [hreg, hs.nextAlloc]; exact h.reg
  removed := by rw [hs.removed, hs.nextDesc]; exact h.removed
  entry := by rw [hs.threads, hs.nextDesc]; exact h.entry
  calls := by rw [hcalls, hnext]; exact h.calls

theorem kref (h : ResInv w maker) (a : AllocPtr) (k : Nat) : ResInv (w.setKref a k) maker :=
  h.same ⟨rfl, rfl, rfl, rfl, rfl⟩ rfl rfl rfl rfl

theorem glFree (h : ResInv w maker) (pl : PlPtr) :
    ResInv (w.glFree pl) maker ∧ (w.glFree pl).calls = w.calls := by
  unfold World.glFree
  split
  · exact ⟨h.same ⟨rfl, rfl, rfl, rfl, rfl⟩ rfl rfl rfl rfl, rfl⟩
  · exact ⟨h.same ⟨rfl, rfl, rfl, rfl, rfl⟩ rfl rfl rfl rfl, rfl⟩

theorem glAllocStack (h : ResInv w maker) {ok : Bool} {pl : PlPtr}
    (hs : w.glAllocStack ok = some (pl, w')) : ResInv w' maker ∧ w'.calls = w.calls := by
  unfold World.glAllocStack at hs
  split at hs
  · obtain ⟨rfl, rfl⟩ := Prod.mk.inj (Option.some.inj hs)
    exact ⟨h.same ⟨rfl, rfl, rfl, rfl, rfl⟩ rfl rfl rfl rfl, rfl⟩
  · split_ifs at hs
    obtain ⟨rfl, rfl⟩ := Prod.mk.inj (Option.some.inj hs)
    exact ⟨h.same ⟨rfl, rfl, rfl, rfl, rfl⟩ rfl rfl rfl rfl, rfl⟩

end ResInv

/-- Most steps change at most descriptors. -/
theorem Evolves.of_threads (hthreads : w'.threads = w.threads) (hremoved : w'.removed = w.removed)
    (halloc : w'.nextAlloc = w.nextAlloc) (hdesc : w.nextDesc ≤ w'.nextDesc)
    (hmade : ∀ t < w.nextDesc, maker' t = maker t)
    (hdescs : ∀ t < w.nextDesc, maker t ≠ n → t ∉ w.removed → w'.descs t = w.descs t) :
    Evolves w w' maker maker' n where
  nextAlloc := halloc.ge
  nextDesc := hdesc
  made := hmade
  removed := hremoved.ge
  taken t ht := .inl (hremoved ▸ ht)
  kept a _ i t ht _ := by rw [hthreads, ht]
  shown a i t ht := .inl (by rw [← hthreads, ht])
  reserved a _ i ht := .inl (by rw [hthreads, ht])
  descs t hlt hmk ht := hdescs t hlt hmk (hremoved ▸ ht)

/-- A step that changes one slot of a table: one that is empty, one that the call itself has reserved,
or one whose descriptor `sa_free` takes. -/
theorem Evolves.of_slot {x : Xarray Nat} (id : Nat)
    (hthreads : w'.threads = Function.update w.threads a x)
    (hx : ∀ j, j ≠ id → x.slot j = (w.threads a).slot j) (hsub : w.removed ⊆ w'.removed)
    (htaken : ∀ t ∈ w'.removed, t ∈ w.removed ∨ (w.threads a).slot id = some (.entry t))
    (halloc : w'.nextAlloc = w.nextAlloc) (hdesc : w'.nextDesc = w.nextDesc) (hdescs : w'.descs = w.descs)
    (hentry : ∀ t, (w.threads a).slot id = some (.entry t) → t ∈ w'.removed)
    (hreserved : (w.threads a).slot id = some .reserved →
      ∃ f, w.calls n = some f ∧ f.pc.reserved = some (a, id))
    (hnew : ∀ t, x.slot id = some (.entry t) → maker t = n ∧ t < w.nextDesc) : Evolves w w' maker maker n := by
  have hslot : ∀ b j, (b = a ∧ j = id) ∨ (w'.threads b).slot j = (w.threads b).slot j := by
    intro b j
    rw [hthreads]
    by_cases hb : b = a
    · by_cases hj : j = id
      · exact .inl ⟨hb, hj⟩
      · rw [hb, Function.update_self]
        exact .inr (hx j hj)
    · rw [Function.update_of_ne hb]
      exact .inr rfl
  constructor
  · exact halloc.ge
  · exact hdesc.ge
  · exact fun _ _ ↦ rfl
  · exact hsub
  · intro t ht
    exact (htaken t ht).imp_right fun hc ↦ ⟨a, id, hc⟩
  · intro b _ j t ht hrem
    rcases hslot b j with ⟨rfl, rfl⟩ | hc
    · exact absurd (hentry t ht) hrem
    · rw [hc, ht]
  · intro b j t ht
    rcases hslot b j with ⟨rfl, rfl⟩ | hc
    · rw [hthreads, Function.update_self] at ht
      exact .inr (hnew t ht)
    · exact .inl (by rw [← hc, ht])
  · intro b _ j ht
    rcases hslot b j with ⟨rfl, rfl⟩ | hc
    · exact .inr (hreserved ht)
    · exact .inl (by rw [hc, ht])
  · intro t _ _ _
    rw [hdescs]

/-- The next step asks for nothing that the last did not have. -/
structure Pc.Less (pc' pc : Pc) : Prop where
  plain : pc'.Plain
  ptr : ∀ a, pc'.counted = some a ∨ pc'.uncounted = some a → pc.counted = some a ∨ pc.uncounted = some a
  reserved : ∀ x, pc'.reserved = some x → pc.reserved = some x
  hidden : ∀ t, pc'.hidden = some t → pc.hidden = some t
  written : ∀ x, pc'.written = some x → pc.written = some x
  stored : ∀ x, pc'.stored = some x → pc.stored = some x
  taken : ∀ t, pc'.taken = some t → pc.taken = some t

theorem Pc.Less.of_eq (hplain : pc'.Plain)
    (hptr : ∀ a, pc'.counted = some a ∨ pc'.uncounted = some a → pc.counted = some a ∨ pc.uncounted = some a)
    (hr : pc'.reserved = none ∨ pc'.reserved = pc.reserved) (hh : pc'.hidden = none ∨ pc'.hidden = pc.hidden)
    (hw : pc'.written = none ∨ pc'.written = pc.written) (hs : pc'.stored = none ∨ pc'.stored = pc.stored)
    (ht : pc'.taken = none ∨ pc'.taken = pc.taken) : pc'.Less pc := by
  have hle : ∀ {α : Type} {o o' : Option α}, o = none ∨ o = o' → ∀ x, o = some x → o' = some x := by
    rintro α o o' (rfl | rfl) x hx
    · cases hx
    · exact hx
  exact ⟨hplain, hptr, hle hr, hle hh, hle hw, hle hs, hle ht⟩

theorem FrameOk.less (h : FrameOk w maker n pc) (hl : pc'.Less pc) : FrameOk w maker n pc' where
  plain := hl.plain
  ptr a ha := h.ptr a (hl.ptr a ha)
  reserved a id hx := h.reserved a id (hl.reserved _ hx)
  hidden t ht := h.hidden t (hl.hidden t ht)
  written id t ht := h.written id t (hl.written _ ht)
  stored a id t ht := h.stored a id t (hl.stored _ ht)
  taken t ht := h.taken t (hl.taken t ht)

/-- A call that has only found its allocator. -/
theorem FrameOk.found (ha : a < w.nextAlloc) (hplain : pc.Plain) (hc : pc.counted = none)
    (hu : pc.uncounted = some a) (hr : pc.reserved = none) (hh : pc.hidden = none)
    (hw : pc.written = none) (hs : pc.stored = none) (ht : pc.taken = none) : FrameOk w maker n pc := by
  constructor
  · exact hplain
  · rintro b (hb | hb)
    · rw [hc] at hb; cases hb
    · rw [hu] at hb
      exact Option.some.inj hb ▸ ha
  all_goals simp [*]

namespace ResInv

/-- A call goes on, with the tables as they are. -/
theorem move (h : ResInv w maker) (hf : w.calls n = some f)
    (hcalls : w'.calls = Function.update w.calls n (some { f with pc := pc }))
    (hev : Evolves w w' maker maker' n) (hreg : w'.reg = w.reg) (hnext : w'.nextCall = w.nextCall)
    (hgrants : w'.grants = w.grants) (hok : FrameOk w' maker' n pc)
    (hr : ∀ x, pc.reserved = some x → f.pc.reserved = some x) : ResInv w' maker' := by
  refine h.step hf hcalls hev hreg hnext (fun f' hf' ↦ ?_) (fun f' a i hf' hx ↦ .inl ?_)
    fun m g hg ↦ .inl (by rw [← hgrants, hg])
  all_goals obtain rfl : { f with pc := pc } = f' := Option.some.inj hf'
  · exact hok
  · exact hr _ hx

theorem goto (h : ResInv w maker) (hf : w.calls n = some f) (hok : FrameOk w maker n pc)
    (hr : ∀ x, pc.reserved = some x → f.pc.reserved = some x) : ResInv (w.goto n f pc) maker :=
  h.move hf rfl (.of_threads rfl rfl rfl le_rfl (fun _ _ ↦ rfl) fun _ _ _ _ ↦ rfl) rfl rfl rfl
    (hok.congr ⟨rfl, rfl, rfl, rfl, rfl⟩) hr

theorem goto_less (h : ResInv w maker) (hf : w.calls n = some f) (hl : pc.Less f.pc) :
    ResInv (w.goto n f pc) maker :=
  h.goto hf ((h.frame n f hf).less hl) hl.reserved

/-- A call returns, with the tables as they are. -/
theorem leave (h : ResInv w maker) (hf : w.calls n = some f)
    (hcalls : w'.calls = Function.update w.calls n none) (hs : SameTables w w')
    (hreg : w'.reg = w.reg) (hnext : w'.nextCall = w.nextCall)
    (hgrant : ∀ m g, w'.grants m = some g → w.grants m = some g ∨ (m = n ∧ GrantOk w' maker n g)) :
    ResInv w' maker :=
  h.step hf hcalls (.of_threads hs.threads hs.removed hs.nextAlloc hs.nextDesc.ge (fun _ _ ↦ rfl)
      fun t _ _ _ ↦ by rw [hs.descs]) hreg hnext (fun _ hf' ↦ by cases hf')
    (fun _ _ _ hf' ↦ by cases hf') hgrant

theorem finish (h : ResInv w maker) (hf : w.calls n = some f) : ResInv (w.finish n) maker :=
  h.leave hf rfl ⟨rfl, rfl, rfl, rfl, rfl⟩ rfl rfl fun _ _ ↦ .inl

/-- `xa_alloc`. -/
theorem reserve (h : ResInv w maker) (hf : w.calls n = some f) (hpc : f.pc = .allocReserve a) {id : Nat}
    (hid : (w.threads a).lowestFree 0 threadsLimit = some id) :
    ResInv ((w.setThreads a ((w.threads a).set id .reserved)).goto n f (.allocThread a id)) maker := by
  obtain ⟨-, hle, hnone, -⟩ := Xarray.lowestFree_eq_some hid
  have hev : Evolves w ((w.setThreads a ((w.threads a).set id .reserved)).goto n f (.allocThread a id))
      maker maker n := by
    refine .of_slot id rfl (fun j hj ↦ ?_) subset_rfl (fun _ ht ↦ .inl ht) rfl rfl rfl (fun t ht ↦ ?_)
      (fun ht ↦ ?_) fun t ht ↦ ?_
    · rw [Xarray.slot_set, if_neg hj]
    · rw [hnone] at ht; cases ht
    · rw [hnone] at ht; cases ht
    · rw [Xarray.slot_set, if_pos rfl] at ht; cases ht
  refine h.step hf rfl hev rfl rfl (fun f' hf' ↦ ?_) (fun f' b i hf' hx ↦ .inr ?_) fun _ _ ↦ .inl
  all_goals obtain rfl : { f with pc := .allocThread a id } = f' := Option.some.inj hf'
  · constructor
    · trivial
    · rintro b (hb | hb)
      · refine (h.frame n f hf).ptr b (.inl ?_)
        rw [hpc]
        exact hb
      · cases hb
    · intro b i hx
      obtain ⟨rfl, rfl⟩ := Prod.mk.inj (Option.some.inj hx)
      refine ⟨?_, hle⟩
      show (Function.update w.threads a ((w.threads a).set id .reserved) a).slot id = _
      rw [Function.update_self, Xarray.slot_set, if_pos rfl]
    all_goals nofun
  · obtain ⟨rfl, rfl⟩ := Prod.mk.inj (Option.some.inj hx)
    exact hnone

/-- `kmalloc` of the descriptor. -/
theorem make (h : ResInv w maker) (hf : w.calls n = some f) {id : Nat} (hpc : f.pc = .allocThread a id) :
    ResInv (w.kmalloc.goto n f (.allocStack a id w.nextDesc)) (Function.update maker w.nextDesc n) := by
  have hmade : ∀ t < w.nextDesc, Function.update maker w.nextDesc n t = maker t :=
    fun t ht ↦ Function.update_of_ne ht.ne _ _
  have hown := h.frame n f hf
  rw [hpc] at hown
  refine h.move hf rfl (.of_threads rfl rfl rfl (Nat.le_succ _) hmade fun t ht _ _ ↦ ?_) rfl rfl rfl ?_
    fun x hx ↦ by rw [hpc]; exact hx
  · exact Function.update_of_ne ht.ne _ _
  · constructor
    · trivial
    · exact hown.ptr
    · exact hown.reserved
    · rintro t ht
      obtain rfl := Option.some.inj ht
      refine ⟨Function.update_self .., Nat.lt_succ_self _, fun hc ↦ ?_, fun b i hc ↦ ?_⟩
      · exact (h.removed _ hc).false
      · exact (h.entry b i _ hc).false
    all_goals nofun

/-- The fields of the descriptor are written. -/
theorem write (h : ResInv w maker) (hf : w.calls n = some f) {id t : Nat}
    (hpc : f.pc = .allocStack a id t) (pl : PlPtr) :
    ResInv ((w.setDesc t (some ⟨f.pid, idToAddr id, pl⟩)).goto n f (.allocMap a id t)) maker := by
  have hown := h.frame n f hf
  rw [hpc] at hown
  obtain ⟨hmk, hlt, hrem, hslot⟩ := hown.hidden t rfl
  refine h.move hf rfl (.of_threads rfl rfl rfl le_rfl (fun _ _ ↦ rfl) fun t' _ hmk' _ ↦ ?_) rfl rfl rfl
    ?_ fun x hx ↦ by rw [hpc]; exact hx
  · refine Function.update_of_ne ?_ _ _
    rintro rfl
    exact hmk' hmk
  · constructor
    · trivial
    · exact hown.ptr
    · exact hown.reserved
    · exact hown.hidden
    · rintro i t' ht -
      obtain ⟨rfl, rfl⟩ := Prod.mk.inj (Option.some.inj ht)
      exact ⟨_, Function.update_self .., rfl⟩
    all_goals nofun

/-- `kfree` of a descriptor that is the call's own or is in no table any more. -/
theorem kfree (h : ResInv w maker) (hf : w.calls n = some f) {t : Nat}
    (ht : f.pc.hidden = some t ∨ f.pc.taken = some t) (hl : pc.Less f.pc) (hw : pc.written = none) :
    ResInv ((w.setDesc t none).goto n f pc) maker := by
  obtain ⟨hplain, hptr, hres, hhid, -, hst, htk⟩ := (h.frame n f hf).less hl
  refine h.move hf rfl (.of_threads rfl rfl rfl le_rfl (fun _ _ ↦ rfl) fun t' _ hmk hrem ↦ ?_) rfl rfl rfl
    ⟨hplain, hptr, hres, hhid, fun _ _ hc ↦ (by rw [hw] at hc; cases hc), hst, htk⟩ hl.reserved
  refine Function.update_of_ne ?_ _ _
  rintro rfl
  rcases ht with ht | ht
  · exact hmk ((h.frame n f hf).hidden t' ht).1
  · exact hrem ((h.frame n f hf).taken t' ht)

/-- `xa_store`. -/
theorem store (h : ResInv w maker) (hf : w.calls n = some f) {id t : Nat}
    (hpc : f.pc = .allocStore a id t) :
    ResInv ((w.setThreads a ((w.threads a).set id (.entry t))).goto n f (.allocRead a id t)) maker := by
  have hown := h.frame n f hf
  rw [hpc] at hown
  obtain ⟨hmk, hlt, hrem, -⟩ := hown.hidden t rfl
  obtain ⟨hslot, hle⟩ := hown.reserved a id rfl
  have hev : Evolves w ((w.setThreads a ((w.threads a).set id (.entry t))).goto n f (.allocRead a id t))
      maker maker n := by
    refine .of_slot id rfl (fun j hj ↦ ?_) subset_rfl (fun _ ht ↦ .inl ht) rfl rfl rfl (fun t' ht ↦ ?_)
      (fun _ ↦ ⟨f, hf, by rw [hpc]; rfl⟩) fun t' ht ↦ ?_
    · rw [Xarray.slot_set, if_neg hj]
    · rw [hslot] at ht; cases ht
    · rw [Xarray.slot_set, if_pos rfl] at ht
      exact Slot.entry.inj (Option.some.inj ht) ▸ ⟨hmk, hlt⟩
  refine h.move hf rfl hev rfl rfl rfl ?_ nofun
  constructor
  · trivial
  · exact hown.ptr
  · nofun
  · nofun
  · exact hown.written
  · rintro b i t' ht
    obtain ⟨rfl, hc⟩ := Prod.mk.inj (Option.some.inj ht)
    obtain ⟨rfl, rfl⟩ := Prod.mk.inj hc
    refine ⟨hmk, hlt, hle, fun _ ↦ ?_⟩
    show (Function.update w.threads a ((w.threads a).set id (.entry t)) a).slot id = _
    rw [Function.update_self, Xarray.slot_set, if_pos rfl]
  · nofun

/-- `xa_erase` of the slot the call has reserved. -/
theorem release (h : ResInv w maker) (hf : w.calls n = some f) {id : Nat} (hpc : f.pc = .allocErase a id) :
    ResInv ((w.setThreads a ((w.threads a).erase id)).goto n f (.put a)) maker := by
  have hown := h.frame n f hf
  rw [hpc] at hown
  obtain ⟨hslot, -⟩ := hown.reserved a id rfl
  refine h.move hf rfl (.of_slot id rfl (fun j hj ↦ ?_) subset_rfl (fun _ ht ↦ .inl ht) rfl rfl rfl
    (fun t ht ↦ ?_) (fun _ ↦ ⟨f, hf, by rw [hpc]; rfl⟩) fun t ht ↦ ?_) rfl rfl rfl ?_ nofun
  · rw [Xarray.slot_erase, if_neg hj]
  · rw [hslot] at ht; cases ht
  · rw [Xarray.slot_erase, if_pos rfl] at ht; cases ht
  · exact ⟨trivial, hown.ptr, nofun, nofun, nofun, nofun, nofun⟩

/-- `sa_alloc` returns. -/
theorem read (h : ResInv w maker) (hf : w.calls n = some f) {id t : Nat} (hpc : f.pc = .allocRead a id t)
    (stale : Nat) :
    ResInv { w.finish n with grants := Function.update w.grants n (some ⟨a, id, t, w.addr t stale⟩) }
      maker := by
  have hown := h.frame n f hf
  rw [hpc] at hown
  obtain ⟨hmk, hlt, hle, hslot⟩ := hown.stored a id t rfl
  refine h.leave hf rfl ⟨rfl, rfl, rfl, rfl, rfl⟩ rfl rfl fun m g hg ↦ ?_
  rcases update_eq_some hg with ⟨rfl, hg'⟩ | ⟨-, hg⟩
  · obtain rfl := Option.some.inj hg'
    refine .inr ⟨rfl, hmk, hlt, hown.ptr a (.inl rfl), hle, fun hrem ↦ ⟨hslot hrem, ?_⟩⟩
    obtain ⟨d, hd, haddr⟩ := hown.written id t rfl hrem
    show w.addr t stale = idToAddr id
    rw [World.addr, hd]
    exact haddr
  · exact .inl hg

/-- `sa_free` takes a descriptor out of its table. -/
theorem take (h : ResInv w maker) (hf : w.calls n = some f) {id t : Nat} (hpc : f.pc = .freeErase a id)
    (ht : (w.threads a).load id = some t) :
    ResInv { (w.setThreads a ((w.threads a).erase id)).goto n f (.freeUnmap a t) with
      removed := insert t w.removed } maker := by
  have hown := h.frame n f hf
  rw [hpc] at hown
  have hslot := Xarray.load_eq_some.mp ht
  refine h.move hf rfl (.of_slot id rfl (fun j hj ↦ ?_) (Finset.subset_insert t w.removed)
    (fun t' ht' ↦ ?_) rfl rfl rfl (fun t' ht' ↦ ?_) (fun ht' ↦ ?_) fun t' ht' ↦ ?_) rfl rfl rfl ?_ nofun
  · rw [Xarray.slot_erase, if_neg hj]
  · rcases Finset.mem_insert.mp ht' with rfl | ht'
    · exact .inr hslot
    · exact .inl ht'
  · rw [hslot] at ht'
    rw [← Slot.entry.inj (Option.some.inj ht')]
    exact Finset.mem_insert_self t w.removed
  · rw [hslot] at ht'; cases ht'
  · rw [Xarray.slot_erase, if_pos rfl] at ht'; cases ht'
  · refine ⟨trivial, ?_, nofun, nofun, nofun, nofun, ?_⟩
    · rintro b (hb | hb)
      · exact hown.ptr b (.inr hb)
      · cases hb
    · intro t' ht'
      exact Option.some.inj ht' ▸ Finset.mem_insert_self t w.removed

/-- `sa_free` finds nothing. -/
theorem miss (h : ResInv w maker) (hf : w.calls n = some f) {id : Nat}
    (hslot : (w.threads a).slot id = none) :
    ResInv ((w.setThreads a ((w.threads a).erase id)).finish n) maker := by
  refine h.step hf rfl (.of_slot id rfl (fun j hj ↦ ?_) subset_rfl (fun _ ht ↦ .inl ht) rfl rfl rfl
    (fun t ht ↦ ?_) (fun ht ↦ ?_) fun t ht ↦ ?_) rfl rfl nofun nofun fun _ _ ↦ .inl
  · rw [Xarray.slot_erase, if_neg hj]
  · rw [hslot] at ht; cases ht
  · rw [hslot] at ht; cases ht
  · rw [Xarray.slot_erase, if_pos rfl] at ht; cases ht

theorem stepAlloc (h : ResInv w maker) {ans : Answer} (hf : w.calls n = some f) :
    ∃ maker', ResInv (Conc.stepAlloc w n f ans f.pc) maker' := by
  obtain ⟨pid, tgid, pc⟩ := f
  have hown := h.frame n _ hf
  cases pc with
  | allocFind =>
      refine ⟨maker, ?_⟩
      simp only [Conc.stepAlloc]
      split
      · exact h.finish hf
      · next a ha =>
          exact h.goto hf (.found (h.reg tgid a ha) trivial rfl rfl rfl rfl rfl rfl rfl)
            fun _ hc ↦ by cases hc
  | allocGet a =>
      refine ⟨maker, ?_⟩
      simp only [Conc.stepAlloc]
      split
      · exact h.finish hf
      · refine (h.kref a _).goto_less hf
          (.of_eq trivial (fun b hb ↦ .inr ?_) (.inl rfl) (.inl rfl) (.inl rfl) (.inl rfl) (.inl rfl))
        rcases hb with hb | hb
        · exact hb
        · cases hb
  | allocReserve a =>
      refine ⟨maker, ?_⟩
      simp only [Conc.stepAlloc]
      split
      · exact h.goto_less hf
          (.of_eq trivial (fun _ ↦ id) (.inl rfl) (.inl rfl) (.inl rfl) (.inl rfl) (.inl rfl))
      · next i hi =>
          split
          · exact h.reserve hf rfl hi
          · exact h.goto_less hf
              (.of_eq trivial (fun _ ↦ id) (.inl rfl) (.inl rfl) (.inl rfl) (.inl rfl) (.inl rfl))
  | allocThread a i =>
      simp only [Conc.stepAlloc]
      split
      · exact ⟨_, h.make hf rfl⟩
      · exact ⟨maker, h.goto_less hf
          (.of_eq trivial (fun _ ↦ id) (.inr rfl) (.inl rfl) (.inl rfl) (.inl rfl) (.inl rfl))⟩
  | allocStack a i t =>
      refine ⟨maker, ?_⟩
      simp only [Conc.stepAlloc]
      split
      · exact h.goto_less hf
          (.of_eq trivial (fun _ ↦ id) (.inr rfl) (.inr rfl) (.inl rfl) (.inl rfl) (.inl rfl))
      · next pl w' hs =>
          obtain ⟨h', hcalls⟩ := h.glAllocStack hs
          rw [← hcalls] at hf
          exact h'.write hf rfl pl
  | allocMap a i t =>
      refine ⟨maker, ?_⟩
      simp only [Conc.stepAlloc]
      split
      · exact h.goto_less hf
          (.of_eq trivial (fun _ ↦ id) (.inr rfl) (.inr rfl) (.inr rfl) (.inl rfl) (.inl rfl))
      · exact h.goto_less hf
          (.of_eq trivial (fun _ ↦ id) (.inr rfl) (.inr rfl) (.inl rfl) (.inl rfl) (.inl rfl))
  | allocMax a i t =>
      have hmax : ResInv (w.raiseMax a i) maker := h.same ⟨rfl, rfl, rfl, rfl, rfl⟩ rfl rfl rfl rfl
      exact ⟨maker, hmax.goto_less hf
        (.of_eq trivial (fun _ ↦ id) (.inr rfl) (.inr rfl) (.inr rfl) (.inl rfl) (.inl rfl))⟩
  | allocStore a i t =>
      refine ⟨maker, ?_⟩
      simp only [Conc.stepAlloc]
      rw [if_pos (by rw [(hown.reserved a i rfl).1, Option.isSome_some, Bool.or_true])]
      exact h.store hf rfl
  | allocRead a i t => exact ⟨maker, h.read hf rfl ans.stale⟩
  | allocGlFree a i t =>
      obtain ⟨h', hcalls⟩ := h.glFree (w.pagelist t ans.stale)
      rw [← hcalls] at hf
      exact ⟨maker, h'.goto_less hf
        (.of_eq trivial (fun _ ↦ id) (.inr rfl) (.inr rfl) (.inl rfl) (.inl rfl) (.inl rfl))⟩
  | allocKfree a i t =>
      exact ⟨maker, h.kfree hf (.inl rfl)
        (.of_eq trivial (fun _ ↦ id) (.inr rfl) (.inl rfl) (.inl rfl) (.inl rfl) (.inl rfl)) rfl⟩
  | allocErase a i => exact ⟨maker, h.release hf rfl⟩
  | _ => exact ⟨maker, h⟩

theorem stepFree (h : ResInv w maker) {ans : Answer} (hf : w.calls n = some f)
    (hspare : Spares w (.step n ans)) : ResInv (Conc.stepFree w n f ans f.pc) maker := by
  obtain ⟨pid, tgid, pc⟩ := f
  cases pc with
  | freeFind addr =>
      simp only [Conc.stepFree]
      split
      · exact h.finish hf
      · split
        · exact h.finish hf
        · next a ha =>
            exact h.goto hf (.found (h.reg tgid a ha) trivial rfl rfl rfl rfl rfl rfl rfl)
              fun _ hc ↦ by cases hc
  | freeErase a i =>
      simp only [Conc.stepFree]
      split_ifs
      · exact h.goto_less hf
          (.of_eq trivial (fun _ ↦ id) (.inl rfl) (.inl rfl) (.inl rfl) (.inl rfl) (.inl rfl))
      · split
        · next hload =>
            refine h.miss hf ?_
            have hne := hspare _ a i hf rfl
            cases hs : (w.threads a).slot i with
            | none => rfl
            | some x =>
                cases x with
                | reserved => exact absurd hs hne
                | entry t =>
                    rw [Xarray.load_eq_some.mpr hs] at hload
                    cases hload
        · next t hload => exact h.take hf rfl hload
  | freeUnmap a t =>
      exact h.goto_less hf
        (.of_eq trivial (fun _ ↦ id) (.inl rfl) (.inl rfl) (.inl rfl) (.inl rfl) (.inr rfl))
  | freeGlFree a t =>
      obtain ⟨h', hcalls⟩ := h.glFree (w.pagelist t ans.stale)
      rw [← hcalls] at hf
      exact h'.goto_less hf
        (.of_eq trivial (fun _ ↦ id) (.inl rfl) (.inl rfl) (.inl rfl) (.inl rfl) (.inr rfl))
  | freeKfree a t =>
      exact h.kfree hf (.inr rfl)
        (.of_eq trivial (fun _ ↦ id) (.inl rfl) (.inl rfl) (.inl rfl) (.inl rfl) (.inl rfl)) rfl
  | destroyErase a => exact absurd (h.frame n _ hf).plain (by simp [Pc.Plain])
  | put a =>
      simp only [Conc.stepFree]
      split
      · refine (h.kref a 0).goto_less hf
          (.of_eq trivial ?_ (.inl rfl) (.inl rfl) (.inl rfl) (.inl rfl) (.inl rfl))
        rintro b (hb | hb) <;> cases hb
      · exact (h.kref a _).finish hf
  | callback a => exact h.leave hf rfl ⟨rfl, rfl, rfl, rfl, rfl⟩ rfl rfl fun _ _ ↦ .inl
  | _ => exact h

/-- `alloc_create`. -/
theorem create (h : ResInv w maker) (tgid : Nat) :
    ResInv { w with
      reg := Function.update w.reg tgid (some w.nextAlloc)
      tgid := Function.update w.tgid w.nextAlloc tgid
      threads := Function.update w.threads w.nextAlloc .empty
      maxId := Function.update w.maxId w.nextAlloc 0
      kref := Function.update w.kref w.nextAlloc 1
      nextAlloc := w.nextAlloc + 1 } maker := by
  obtain ⟨w', hw'⟩ : ∃ w' : World, { w with
      reg := Function.update w.reg tgid (some w.nextAlloc)
      tgid := Function.update w.tgid w.nextAlloc tgid
      threads := Function.update w.threads w.nextAlloc .empty
      maxId := Function.update w.maxId w.nextAlloc 0
      kref := Function.update w.kref w.nextAlloc 1
      nextAlloc := w.nextAlloc + 1 } = w' := ⟨_, rfl⟩
  rw [hw']
  have hthreads : w'.threads = Function.update w.threads w.nextAlloc .empty := by rw [← hw']
  have hentry : ∀ a i t, (w'.threads a).slot i = some (.entry t) →
      (w.threads a).slot i = some (.entry t) := by
    intro a i t ht
    rw [hthreads] at ht
    by_cases ha : a = w.nextAlloc
    · rw [ha, Function.update_self] at ht
      cases ht
    · rwa [Function.update_of_ne ha] at ht
  have hold : ∀ a < w.nextAlloc, w'.threads a = w.threads a := by
    intro a ha
    rw [hthreads, Function.update_of_ne ha.ne]
  -- no call makes this change: the number of the next one stands for it
  have hev : Evolves w w' maker maker w.nextCall := by
    constructor
    · rw [← hw']
      exact Nat.le_succ _
    · rw [← hw']
    · exact fun _ _ ↦ rfl
    · rw [← hw']
    · intro t ht
      rw [← hw'] at ht
      exact .inl ht
    · intro a ha i t ht _
      rw [hold a ha, ht]
    · exact fun a i t ht ↦ .inl (hentry a i t ht)
    · intro a ha i ht
      rw [hold a ha]
      exact .inl ht
    · intro t _ _ _
      rw [← hw']
  have hcalls : w'.calls = w.calls := by rw [← hw']
  constructor
  · rw [hcalls]
    intro m g hg
    refine (h.frame m g hg).evolve hev (fun hm ↦ ?_) fun x g' _ hg' ↦ ?_
    · rw [h.calls m hm.ge] at hg
      cases hg
    · rw [h.calls _ le_rfl] at hg'
      cases hg'
  · rw [hcalls]
    exact h.unique
  · intro m g hg
    rw [← hw'] at hg
    exact (h.grant m g hg).evolve hev
  · intro g a hg
    rw [← hw'] at hg ⊢
    by_cases hgt : g = tgid
    · have hg' : Function.update w.reg tgid (some w.nextAlloc) g = some a := hg
      rw [hgt, Function.update_self] at hg'
      exact Option.some.inj hg' ▸ Nat.lt_succ_self _
    · exact (h.reg g a ((Function.update_of_ne hgt _ w.reg).symm.trans hg)).trans (Nat.lt_succ_self _)
  · rw [← hw']
    exact h.removed
  · intro a i t ht
    have ht' := h.entry a i t (hentry a i t ht)
    rw [← hw']
    exact ht'
  · rw [← hw']
    exact h.calls

/-- A call of `sa_alloc` or `sa_free` starts. -/
theorem enter (h : ResInv w maker) (pid tgid : Nat) {entry : Entry} (he : entry.pc.Plain) :
    ResInv { w with
      calls := Function.update w.calls w.nextCall (some ⟨pid, tgid, entry.pc⟩)
      nextCall := w.nextCall + 1
      destroyed := w.destroyed ∪ entry.destroys } maker := by
  have hpc : ∀ w' : World, FrameOk w' maker w.nextCall entry.pc ∧ entry.pc.reserved = none := by
    intro w'
    cases entry with
    | saAlloc => exact ⟨⟨he, nofun, nofun, nofun, nofun, nofun, nofun⟩, rfl⟩
    | saFree addr => exact ⟨⟨he, nofun, nofun, nofun, nofun, nofun, nofun⟩, rfl⟩
    | saFork pt pp => exact he.elim
    | allocDestroy a => exact he.elim
  have hothers : ∀ m g, Function.update w.calls w.nextCall (some ⟨pid, tgid, entry.pc⟩) m = some g →
      (m = w.nextCall ∧ g.pc = entry.pc) ∨ w.calls m = some g := by
    intro m g hg
    refine (update_eq_some hg).imp ?_ And.right
    rintro ⟨hm, hx⟩
    exact ⟨hm, by rw [← Option.some.inj hx]⟩
  constructor
  · intro m g hg
    rcases hothers m g hg with ⟨rfl, hc⟩ | hg
    · rw [hc]
      exact (hpc _).1
    · exact (h.frame m g hg).congr ⟨rfl, rfl, rfl, rfl, rfl⟩
  · intro m g m' g' x hg hx hg' hx'
    rcases hothers m g hg with ⟨-, hc⟩ | hg
    · rw [hc, (hpc w).2] at hx
      cases hx
    · rcases hothers m' g' hg' with ⟨-, hc⟩ | hg'
      · rw [hc, (hpc w).2] at hx'
        cases hx'
      · exact h.unique m g m' g' x hg hx hg' hx'
  · intro m g hg
    obtain ⟨hmk, hlt, hptr, hle, hkept⟩ := h.grant m g hg
    exact ⟨hmk, hlt, hptr, hle, hkept⟩
  · exact h.reg
  · exact h.removed
  · exact h.entry
  · intro m hm
    have hm' : w.nextCall + 1 ≤ m := hm
    show Function.update w.calls w.nextCall _ m = none
    rw [Function.update_of_ne (by omega), h.calls m (by omega)]

/-- **One step keeps the reservations apart.** -/
theorem next (h : ResInv w maker) {e : Event} (hplain : AllocAndFree e) (hspare : Spares w e)
    (hs : Next w e w') : ∃ maker', ResInv w' maker' := by
  unfold Next at hs
  cases e with
  | create tgid =>
      simp only [Conc.next] at hs
      split_ifs at hs
      obtain rfl := Option.some.inj hs
      exact ⟨maker, h.create tgid⟩
  | enter pid tgid entry =>
      obtain rfl := Option.some.inj hs
      exact ⟨maker, h.enter pid tgid hplain⟩
  | step n ans =>
      obtain ⟨f, hf, rfl⟩ := Option.map_eq_some_iff.mp hs
      have hpc := (h.frame n f hf).plain
      unfold stepCall
      split
      all_goals first
        | exact h.stepAlloc hf
        | exact ⟨maker, h.stepFree hf hspare⟩
        | (next heq => rw [heq] at hpc; exact hpc.elim)

end ResInv

/-- **No id is held twice.**  In every run of calls of `sa_alloc` and `sa_free` in which `sa_free`
empties no slot that is only reserved. -/
theorem run_distinct {es : List Event}
    (h : Run (Guarded (fun w e ↦ AllocAndFree e ∧ Spares w e) Next) .init es w) : Distinct w := by
  obtain ⟨maker, hinv⟩ := h.invariant (I := fun w ↦ ∃ maker, ResInv w maker) ⟨_, .init⟩
    fun _ _ _ ⟨_, hinv⟩ hs ↦ hinv.next hs.1.1 hs.1.2 hs.2
  exact hinv.distinct

/-- The event is not the start of another call than `sa_alloc` and `sa_free`. -/
def Event.allocOrFree : Event → Bool
  | .enter _ _ (.saFork _ _) | .enter _ _ (.allocDestroy _) => false
  | _ => true

/-- The event does not empty a slot that is only reserved. -/
def Event.spares (w : World) : Event → Bool
  | .step n _ =>
      match w.calls n with
      | some ⟨_, _, .freeErase a id⟩ => (w.threads a).slot id != some .reserved
      | _ => true
  | _ => true

theorem allocOrFree_sound {e : Event} (h : e.allocOrFree) : AllocAndFree e := by
  cases e with
  | create | step => trivial
  | enter pid tgid entry =>
      cases entry with
      | saAlloc | saFree => trivial
      | saFork | allocDestroy => cases h

theorem spares_sound {e : Event} (h : e.spares w) : Spares w e := by
  cases e with
  | create | enter => trivial
  | step n ans =>
      rintro ⟨pid, tgid, pc⟩ a id hf hpc
      obtain rfl : pc = .freeErase a id := hpc
      simpa [Event.spares, hf] using h

/-- Two calls of `sa_alloc` at once, `sa_free` of the first area, and a third `sa_alloc`. -/
def allocsAndFree : List Event :=
  [.create 1, .enter 10 1 .saAlloc, .enter 11 1 .saAlloc] ++ steps 0 3 ++ steps 1 9 ++ steps 0 6 ++
    [.enter 12 1 (.saFree (idToAddr 0))] ++ steps 2 6 ++ [.enter 10 1 .saAlloc] ++ steps 3 9

theorem run_distinct_allocs : ∃ w,
    Run (Guarded (fun w e ↦ AllocAndFree e ∧ Spares w e) Next) .init allocsAndFree w ∧
    w.grants 0 = some ⟨0, 0, 1, idToAddr 0⟩ ∧ w.grants 1 = some ⟨0, 1, 0, idToAddr 1⟩ ∧
    w.grants 3 = some ⟨0, 0, 2, idToAddr 0⟩ ∧ Distinct w := by
  have hstep : ∀ w e w', (if e.allocOrFree ∧ e.spares w then next w e else none) = some w' →
      Guarded (fun w e ↦ AllocAndFree e ∧ Spares w e) Next w e w' := by
    intro w e w' h
    split_ifs at h with he
    exact ⟨⟨allocOrFree_sound he.1, spares_sound he.2⟩, h⟩
  have hrun : Run (Guarded (fun w e ↦ AllocAndFree e ∧ Spares w e) Next) .init allocsAndFree _ :=
    Run.of_foldlM hstep rfl
  exact ⟨_, hrun, rfl, rfl, rfl, run_distinct hrun⟩

/-- `sa_alloc` reserves the first id, `sa_free` releases it, and a second `sa_alloc` gets it before the
first one has returned. -/
def reserveAndFree : List Event :=
  [.create 1, .enter 10 1 .saAlloc] ++ steps 0 3 ++ [.enter 11 1 (.saFree (idToAddr 0))] ++ steps 1 2 ++
    [.enter 12 1 .saAlloc] ++ steps 2 9 ++ steps 0 6

theorem not_run_distinct :
    ¬ ∀ es w, Run (Guarded (fun _ e ↦ AllocAndFree e) Next) .init es w → Distinct w := by
  intro h
  have hstep : ∀ w e w', (if e.allocOrFree then next w e else none) = some w' →
      Guarded (fun _ e ↦ AllocAndFree e) Next w e w' := by
    intro w e w' hs
    split_ifs at hs with he
    exact ⟨allocOrFree_sound he, hs⟩
  have hrun : Run (Guarded (fun _ e ↦ AllocAndFree e) Next) .init reserveAndFree _ :=
    Run.of_foldlM hstep rfl
  exact (h _ _ hrun 0 2 ⟨0, 0, 1, idToAddr 0⟩ ⟨0, 0, 0, idToAddr 0⟩ (by decide) rfl rfl (by decide)
    (by decide) rfl).1 rfl

end ShadowStack.Lkm.Conc
