import ShadowStack.Lkm.Holding

/-!
# The module at rest

What is left when every call has returned.  As long as `sa_free` keeps away from what other calls work
on and from their reservations, and `alloc_destroy_callback` finds nobody pointing to the allocator
uncounted, no interleaving loses a reference, a descriptor, a pagelist or a reservation.
-/

namespace ShadowStack.Lkm.Conc

open Lib

variable {w w' : World} {n : Nat} {f : Frame} {pc : Pc} {a : AllocPtr} {i t : Nat}
  {owner : Nat → DescOwner} {carrier : PlPtr → Option Nat} {tokens : AllocPtr → Finset Token}

/-! ## Descriptors and pagelists -/

/-- A call carries the pagelist. -/
def Carries (w : World) (f : Frame) (pl : PlPtr) : Prop :=
  ∃ t d, f.pc.desc = some t ∧ w.descs t = some d ∧ f.pc.cargo d = some pl

/-- Every descriptor is worked on or in a table, and every pagelist that is not on the free list comes with
one of them. -/
structure Kept (w : World) : Prop where
  desc : ∀ t d, w.descs t = some d →
    (∃ n f, w.calls n = some f ∧ f.pc.desc = some t) ∨ ∃ a i, (w.threads a).slot i = some (.entry t)
  held : ∀ pl ∈ w.held, (∃ n f, w.calls n = some f ∧ Carries w f pl) ∨
    ∃ a i t d, (w.threads a).slot i = some (.entry t) ∧ w.descs t = some d ∧ d.pagelist = pl

/-- A descriptor that can be seen while its call works on it has the pagelist of the call. -/
theorem DescInv.cargo_of_shown (hd : DescInv False w owner carrier) (hf : w.calls n = some f) {d : ThreadDesc}
    (ht : f.pc.desc = some t) (hs : f.pc.slot = some (a, i, .entry t)) (hdesc : w.descs t = some d) :
    f.pc.cargo d = some d.pagelist := by
  obtain ⟨-, d', hd', -, hst⟩ := hd.frame n f t hf ht
  obtain rfl : d = d' := Option.some.inj (hdesc.symm.trans hd')
  obtain ⟨pid, tgid, pc⟩ := f
  cases pc <;> simp only [Pc.slot, Option.some.injEq, Prod.mk.injEq, reduceCtorEq, and_false] at hs
  case allocRead | forkMax => rfl
  case forkMap | forkErase => exact congrArg some (hst _ rfl).symm

namespace Kept

theorem init : Kept .init := by
  constructor <;> simp [World.init]

theorem alike (h : Kept w) (ha : Alike w w') : Kept w' := by
  obtain ⟨-, -, hthreads, -, -, hdescs, -, hheld, hcalls, -, -⟩ := ha
  constructor
  · rw [hcalls, hthreads, hdescs]
    exact h.desc
  · unfold Carries
    rw [hcalls, hthreads, hdescs, hheld]
    exact h.held

/-- **The step of one call**, from `f` to `frame`; `mine` are the descriptors it works on before or after. -/
theorem step (h : Kept w) (hf : w.calls n = some f) {frame : Option Frame}
    (hcalls : w'.calls = Function.update w.calls n frame) (mine : Nat → Prop)
    (hmine : ∀ t, f.pc.desc = some t → mine t)
    (hown : ∀ t, mine t → ∀ m g, m ≠ n → w.calls m = some g → g.pc.desc ≠ some t)
    (hothers : ∀ t, ¬ mine t → w'.descs t = w.descs t)
    (hslots : ∀ a i t, ¬ mine t → (w.threads a).slot i = some (.entry t) →
      (w'.threads a).slot i = some (.entry t))
    (hdesc : ∀ t d, mine t → w'.descs t = some d → (∃ f', frame = some f' ∧ f'.pc.desc = some t) ∨
      ∃ a i, (w'.threads a).slot i = some (.entry t))
    (hheld : ∀ pl ∈ w'.held, (∃ f', frame = some f' ∧ Carries w' f' pl) ∨
      (∃ a i t d, (w'.threads a).slot i = some (.entry t) ∧ w'.descs t = some d ∧ d.pagelist = pl) ∨
      pl ∈ w.held ∧ ¬ Carries w f pl ∧ ∀ a i t d, mine t → (w.threads a).slot i = some (.entry t) →
        w.descs t = some d → d.pagelist ≠ pl) : Kept w' := by
  have hstay : ∀ m g, m ≠ n → w.calls m = some g → w'.calls m = some g := by
    intro m g hm hg
    rw [hcalls, Function.update_of_ne hm, hg]
  have hhere : ∀ f', frame = some f' → w'.calls n = some f' := by
    intro f' hf'
    rw [hcalls, Function.update_self, hf']
  constructor
  · intro t d hd
    by_cases ht : mine t
    · rcases hdesc t d ht hd with ⟨f', hf', hx⟩ | hx
      · exact .inl ⟨n, f', hhere f' hf', hx⟩
      · exact .inr hx
    · rw [hothers t ht] at hd
      rcases h.desc t d hd with ⟨m, g, hg, hx⟩ | ⟨a, i, he⟩
      · have hm : m ≠ n := by
          rintro rfl
          obtain rfl : f = g := Option.some.inj (hf.symm.trans hg)
          exact ht (hmine t hx)
        exact .inl ⟨m, g, hstay m g hm hg, hx⟩
      · exact .inr ⟨a, i, hslots a i t ht he⟩
  · intro pl hpl
    rcases hheld pl hpl with ⟨f', hf', hx⟩ | hx | ⟨hpl, hnot, hslot⟩
    · exact .inl ⟨n, f', hhere f' hf', hx⟩
    · exact .inr hx
    · rcases h.held pl hpl with ⟨m, g, hg, hc⟩ | ⟨a, i, t, d, he, hd, hx⟩
      · have hm : m ≠ n := by
          rintro rfl
          obtain rfl : f = g := Option.some.inj (hf.symm.trans hg)
          exact hnot hc
        obtain ⟨t, d, ht, hd, hx⟩ := hc
        have hne : ¬ mine t := fun hc ↦ hown t hc m g hm hg ht
        exact .inl ⟨m, g, hstay m g hm hg, t, d, ht, (hothers t hne).trans hd, hx⟩
      · have hne : ¬ mine t := fun hc ↦ hslot a i t d hc he hd hx
        exact .inr ⟨a, i, t, d, hslots a i t hne he, (hothers t hne).trans hd, hx⟩

/-- A call without a descriptor does something that no entry and no descriptor notices. -/
theorem idle (h : Kept w) (hf : w.calls n = some f) {frame : Option Frame}
    (hcalls : w'.calls = Function.update w.calls n frame) (hnone : f.pc.desc = none)
    (hdescs : w'.descs = w.descs) (hheld : w'.held = w.held)
    (hslots : ∀ a i t, (w.threads a).slot i = some (.entry t) → (w'.threads a).slot i = some (.entry t)) :
    Kept w' := by
  refine h.step hf hcalls (fun _ ↦ False) (fun t ht ↦ ?_) (fun _ hx ↦ hx.elim) (fun t _ ↦ by rw [hdescs])
    (fun a i t _ he ↦ hslots a i t he) (fun _ _ hx ↦ hx.elim) fun pl hpl ↦ ?_
  · rw [hnone] at ht
    cases ht
  · refine .inr (.inr ⟨hheld ▸ hpl, ?_, fun _ _ _ _ hx ↦ hx.elim⟩)
    rintro ⟨t, d, ht, -⟩
    rw [hnone] at ht
    cases ht

/-- The descriptor of a call is that of no other. -/
theorem own (hd : DescInv False w owner carrier) (hf : w.calls n = some f) (ht : f.pc.desc = some t) :
    ∀ t', t' = t → ∀ m g, m ≠ n → w.calls m = some g → g.pc.desc ≠ some t' := by
  rintro t' rfl m g hm hg hx
  exact hm (hd.call_unique hf ht hg hx)

/-- A call carries the pagelist of its own descriptor where that can be seen. -/
theorem carries_of_shown (hd : DescInv False w owner carrier) (hf : w.calls n = some f)
    (ht : f.pc.desc = some t) {d : ThreadDesc} (he : (w.threads a).slot i = some (.entry t))
    (hdesc : w.descs t = some d) : f.pc.cargo d = some d.pagelist := by
  have hs : f.pc.slot = some (a, i, .entry t) := Pc.slot_eq_entry.mpr ⟨ht, hd.shown_of_entry hf ht he⟩
  exact hd.cargo_of_shown hf ht hs hdesc

theorem kmalloc (h : Kept w) (hd : DescInv False w owner carrier) (hf : w.calls n = some f)
    (hnone : f.pc.desc = none) (hnew : pc.desc = some w.nextDesc) : Kept (w.kmalloc.goto n f pc) := by
  refine h.step hf rfl (fun t ↦ t = w.nextDesc) (fun t ht ↦ ?_) ?_ (fun t ht ↦ ?_) (fun _ _ _ _ he ↦ he)
    (fun t d ht _ ↦ .inl ⟨_, rfl, hnew.trans (congrArg some ht.symm)⟩) fun pl hpl ↦ ?_
  · rw [hnone] at ht
    cases ht
  · rintro t rfl m g - hg
    exact hd.fresh_ne hg
  · exact Function.update_of_ne ht _ _
  · refine .inr (.inr ⟨hpl, ?_, ?_⟩)
    · rintro ⟨t, d, ht, -⟩
      rw [hnone] at ht
      cases ht
    · rintro a i t d rfl he
      exact absurd (hd.entry_lt he) (lt_irrefl _)

theorem work (h : Kept w) (hd : DescInv False w owner carrier) (hf : w.calls n = some f) {d d' : ThreadDesc}
    {held : Finset PlPtr} (ht : f.pc.desc = some t) (ht' : pc.desc = some t) (hdesc : w.descs t = some d)
    (hheld : ∀ pl ∈ held, pc.cargo d' = some pl ∨ pl ∈ w.held ∧ f.pc.cargo d ≠ some pl) :
    Kept { (w.setDesc t (some d')).goto n f pc with held := held } := by
  refine h.step hf rfl (fun t' ↦ t' = t) (fun t' hx ↦ Option.some.inj (hx.symm.trans ht)) (own hd hf ht)
    (fun t' hx ↦ Function.update_of_ne hx _ _) (fun _ _ _ _ he ↦ he)
    (fun t' d hx _ ↦ .inl ⟨_, rfl, ht'.trans (congrArg some hx.symm)⟩) fun pl hpl ↦ ?_
  rcases hheld pl hpl with hc | ⟨hpl, hc⟩
  · exact .inl ⟨_, rfl, t, d', ht', Function.update_self _ _ _, hc⟩
  · refine .inr (.inr ⟨hpl, ?_, ?_⟩)
    · rintro ⟨t', d'', hx, hy, hz⟩
      obtain rfl := Option.some.inj (ht.symm.trans hx)
      obtain rfl := Option.some.inj (hdesc.symm.trans hy)
      exact hc hz
    · rintro a i t' d'' rfl he hy rfl
      obtain rfl := Option.some.inj (hdesc.symm.trans hy)
      exact hc (carries_of_shown hd hf ht he hdesc)

theorem publish (h : Kept w) (hd : DescInv False w owner carrier) (hh : Holding w) (hf : w.calls n = some f)
    {id : Nat} {d d' : ThreadDesc} (ht : f.pc.desc = some t) (hdesc : w.descs t = some d)
    (hs : f.pc.slot = some (a, id, .reserved) ∨ f.pc.slot = none ∧ (w.threads a).slot id = none)
    (hs' : pc.slot = some (a, id, .entry t))
    (hheld : ∀ pl, f.pc.cargo d = some pl → pc.cargo d' = some pl) :
    Kept (((w.setDesc t (some d')).setThreads a ((w.threads a).set id (.entry t))).goto n f pc) := by
  have ht' := (Pc.slot_eq_entry.mp hs').1
  have hold : ∀ t', (w.threads a).slot id ≠ some (.entry t') := by
    intro t' he
    rcases hs with hs | ⟨-, hfree⟩
    · rw [hh.slot n f a id .reserved hf hs] at he
      cases he
    · rw [hfree] at he
      cases he
  refine h.step hf rfl (fun t' ↦ t' = t) (fun t' hx ↦ Option.some.inj (hx.symm.trans ht)) (own hd hf ht)
    (fun t' hx ↦ Function.update_of_ne hx _ _) (fun b j t' _ he ↦ ?_)
    (fun t' d hx _ ↦ .inl ⟨_, rfl, ht'.trans (congrArg some hx.symm)⟩) fun pl hpl ↦ ?_
  · refine (Holding.slot_update fun k ↦ Xarray.slot_set _ _ _ _).trans ?_
    rw [if_neg]
    · exact he
    · rintro ⟨rfl, rfl⟩
      exact hold t' he
  · by_cases hc : f.pc.cargo d = some pl
    · exact .inl ⟨_, rfl, t, d', ht', Function.update_self _ _ _, hheld pl hc⟩
    · refine .inr (.inr ⟨hpl, ?_, ?_⟩)
      · rintro ⟨t', d'', hx, hy, hz⟩
        obtain rfl := Option.some.inj (ht.symm.trans hx)
        obtain rfl := Option.some.inj (hdesc.symm.trans hy)
        exact hc hz
      · rintro b i t' d'' rfl he hy rfl
        obtain rfl := Option.some.inj (hdesc.symm.trans hy)
        exact hc (carries_of_shown hd hf ht he hdesc)

/-- The call leaves, and the table keeps the descriptor with its pagelist. -/
theorem settle (h : Kept w) (hd : DescInv False w owner carrier) (hh : Holding w) (hf : w.calls n = some f)
    {id : Nat} {d : ThreadDesc} (hs : f.pc.slot = some (a, id, .entry t)) (hdesc : w.descs t = some d)
    (hheld : ∀ pl, f.pc.cargo d = some pl → d.pagelist = pl) : Kept (w.finish n) := by
  have ht := (Pc.slot_eq_entry.mp hs).1
  have he := hh.slot n f a id (.entry t) hf hs
  refine h.step hf rfl (fun t' ↦ t' = t) (fun t' hx ↦ Option.some.inj (hx.symm.trans ht)) (own hd hf ht)
    (fun _ _ ↦ rfl) (fun _ _ _ _ he ↦ he) ?_ fun pl hpl ↦ ?_
  · rintro t' d'' rfl -
    exact .inr ⟨a, id, he⟩
  · by_cases hc : d.pagelist = pl
    · exact .inr (.inl ⟨a, id, t, d, he, hdesc, hc⟩)
    · refine .inr (.inr ⟨hpl, ?_, ?_⟩)
      · rintro ⟨t', d'', hx, hy, hz⟩
        obtain rfl := Option.some.inj (ht.symm.trans hx)
        obtain rfl := Option.some.inj (hdesc.symm.trans hy)
        exact hc (hheld pl hz)
      · rintro b i t' d'' rfl - hy
        obtain rfl := Option.some.inj (hdesc.symm.trans hy)
        exact hc

theorem kfree (h : Kept w) (hd : DescInv False w owner carrier) (hf : w.calls n = some f)
    (ht : f.pc.desc = some t) (hshown : f.pc.shown = none) (hheld : ∀ d, f.pc.cargo d = none) :
    Kept ((w.setDesc t none).goto n f pc) := by
  refine h.step hf rfl (fun t' ↦ t' = t) (fun t' hx ↦ Option.some.inj (hx.symm.trans ht)) (own hd hf ht)
    (fun t' hx ↦ Function.update_of_ne hx _ _) (fun _ _ _ _ he ↦ he) ?_ fun pl hpl ↦ ?_
  · rintro t' d'' rfl hx
    have hgone : Function.update w.descs t' none t' = none := Function.update_self _ _ _
    cases hgone.symm.trans hx
  · refine .inr (.inr ⟨hpl, ?_, ?_⟩)
    · rintro ⟨t', d'', hx, hy, hz⟩
      rw [hheld] at hz
      cases hz
    · rintro b i t' d'' rfl he
      exact absurd he (hd.notMem hf ht hshown b i)

/-- The call empties its slot. -/
theorem release (h : Kept w) (hd : DescInv False w owner carrier) (hh : Holding w) (hf : w.calls n = some f)
    {id : Nat} {s : Slot Nat} (hs : f.pc.slot = some (a, id, s)) (hdesc : pc.desc = f.pc.desc)
    (hheld : ∀ d pl, f.pc.cargo d = some pl → pc.cargo d = some pl) :
    Kept ((w.setThreads a ((w.threads a).erase id)).goto n f pc) := by
  have hslot := hh.slot n f a id s hf hs
  refine h.step hf rfl (fun t ↦ f.pc.desc = some t) (fun _ hx ↦ hx) (fun t ht ↦ own hd hf ht t rfl)
    (fun _ _ ↦ rfl) (fun b j t ht he ↦ ?_) (fun t d ht _ ↦ .inl ⟨_, rfl, hdesc.trans ht⟩) fun pl hpl ↦ ?_
  · refine (Holding.slot_update fun k ↦ Xarray.slot_erase _ _ _).trans ?_
    rw [if_neg, he]
    rintro ⟨rfl, rfl⟩
    obtain rfl := Option.some.inj (hslot.symm.trans he)
    exact ht (Pc.slot_eq_entry.mp hs).1
  · by_cases hc : Carries w f pl
    · obtain ⟨t, d, hx, hy, hz⟩ := hc
      exact .inl ⟨_, rfl, t, d, hdesc.trans hx, hy, hheld d pl hz⟩
    · refine .inr (.inr ⟨hpl, hc, ?_⟩)
      rintro b i t d ht he hy rfl
      exact hc ⟨t, d, ht, hy, carries_of_shown hd hf ht he hy⟩

/-- `sa_free` takes a descriptor with its pagelist. -/
theorem take (h : Kept w) (hf : w.calls n = some f) {id : Nat} (hpc : f.pc = .freeErase a id)
    (he : (w.threads a).slot id = some (.entry t)) (hset : w.Settled t) :
    Kept ((w.setThreads a ((w.threads a).erase id)).goto n f (.freeUnmap a t)) := by
  refine h.step hf rfl (fun t' ↦ t' = t) (fun t' hx ↦ ?_) ?_ (fun _ _ ↦ rfl) (fun b j t' ht he' ↦ ?_)
    (fun t' d hx _ ↦ .inl ⟨_, rfl, congrArg some hx.symm⟩) fun pl hpl ↦ ?_
  · rw [hpc] at hx
    cases hx
  · rintro t' rfl m g - hg
    exact hset m g hg
  · refine (Holding.slot_update fun k ↦ Xarray.slot_erase _ _ _).trans ?_
    rw [if_neg, he']
    rintro ⟨rfl, rfl⟩
    exact ht (Slot.entry.inj (Option.some.inj (he'.symm.trans he)))
  · by_cases hc : ∃ d, w.descs t = some d ∧ d.pagelist = pl
    · obtain ⟨d, hd, hx⟩ := hc
      exact .inl ⟨_, rfl, t, d, rfl, hd, congrArg some hx⟩
    · refine .inr (.inr ⟨hpl, ?_, ?_⟩)
      · rintro ⟨t', d, hx, -⟩
        rw [hpc] at hx
        cases hx
      · rintro b i t' d rfl - hy hx
        exact hc ⟨d, hy, hx⟩

/-- **One step of a call loses no descriptor and no pagelist.** -/
theorem effect (h : Kept w) (hd : DescInv False w owner carrier) (hh : Holding w) (hf : w.calls n = some f)
    (he : Effect w n f w') : Kept w' := by
  cases he with
  | leave hc hdesc ho => exact h.idle hf rfl hdesc rfl rfl fun _ _ _ he ↦ he
  | move pc hc hdesc hdesc' hs ho ho' => exact h.idle hf rfl hdesc rfl rfl fun _ _ _ he ↦ he
  | get a pc hu hk hc hc' hdesc hdesc' hs ho ho' => exact h.idle hf rfl hdesc rfl rfl fun _ _ _ he ↦ he
  | reserve a id hfree hpc =>
      refine h.idle hf rfl (by rw [hpc]; rfl) rfl rfl fun b j t he ↦ ?_
      refine (Holding.slot_update fun k ↦ Xarray.slot_set _ _ _ _).trans ?_
      rw [if_neg, he]
      rintro ⟨rfl, rfl⟩
      rw [hfree] at he
      cases he
  | kmalloc pc hc hdesc hdesc' hs hfill ho ho' => exact h.kmalloc hd hf hdesc hdesc'
  | work pc t d d' held hc hdesc hdesc' hs hdd hfilled haddr hheld ho ho' =>
      exact h.work hd hf hdesc hdesc' hdd hheld
  | publish pc a id t d d' hc hdesc hdd hs hs' haddr hheld ho ho' =>
      exact h.publish hd hh hf hdesc hdd hs hs' hheld
  | settle a id t d hs hdd hheld ho => exact h.settle hd hh hf hs hdd hheld
  | kfree pc t hc hdesc hdesc' hs hshown hheld ho ho' => exact h.kfree hd hf hdesc hshown hheld
  | release pc a id s hc hdesc hs hs' hfill hheld ho ho' => exact h.release hd hh hf hs hdesc hheld
  | take a id t hpc he hset => exact h.take hf hpc he hset
  | deregister a hpc => exact h.idle hf rfl (by rw [hpc]; rfl) rfl rfl fun _ _ _ he ↦ he
  | put a hpc hk => exact h.idle hf rfl (by rw [hpc]; rfl) rfl rfl fun _ _ _ he ↦ he
  | last a hpc hk => exact h.idle hf rfl (by rw [hpc]; rfl) rfl rfl fun _ _ _ he ↦ he
  | bury a hpc => exact h.idle hf rfl (by rw [hpc]; rfl) rfl rfl fun _ _ _ he ↦ he

theorem create (h : Kept w) (hh : Holding w) (tgid : Nat) :
    Kept { w with
      reg := Function.update w.reg tgid (some w.nextAlloc)
      tgid := Function.update w.tgid w.nextAlloc tgid
      threads := Function.update w.threads w.nextAlloc .empty
      maxId := Function.update w.maxId w.nextAlloc 0
      kref := Function.update w.kref w.nextAlloc 1
      nextAlloc := w.nextAlloc + 1 } := by
  constructor
  · intro t d hd
    refine (h.desc t d hd).imp_right ?_
    rintro ⟨b, i, he⟩
    exact ⟨b, i, (hh.slot_create b i).trans he⟩
  · intro pl hpl
    refine (h.held pl hpl).imp_right ?_
    rintro ⟨b, i, t, d, he, hrest⟩
    exact ⟨b, i, t, d, (hh.slot_create b i).trans he, hrest⟩

theorem enter (h : Kept w) (hd : DescInv False w owner carrier) (pid tgid : Nat) (entry : Entry) :
    Kept { w with
      calls := Function.update w.calls w.nextCall (some ⟨pid, tgid, entry.pc⟩)
      nextCall := w.nextCall + 1
      destroyed := w.destroyed ∪ entry.destroys } := by
  have hstay : ∀ m g, w.calls m = some g →
      Function.update w.calls w.nextCall (some ⟨pid, tgid, entry.pc⟩) m = some g := by
    intro m g hg
    have hm : m ≠ w.nextCall := by
      rintro rfl
      rw [hd.calls _ le_rfl] at hg
      cases hg
    rw [Function.update_of_ne hm, hg]
  constructor
  · intro t d hdesc
    refine (h.desc t d hdesc).imp_left ?_
    rintro ⟨m, g, hg, ht⟩
    exact ⟨m, g, hstay m g hg, ht⟩
  · intro pl hpl
    refine (h.held pl hpl).imp_left ?_
    rintro ⟨m, g, hg, hc⟩
    exact ⟨m, g, hstay m g hg, hc⟩

end Kept

/-! ## References -/

/-- What a reference may be for. -/
def World.Justified (w : World) (a : AllocPtr) : Token → Prop
  | .reg => w.reg (w.tgid a) = some a
  | .call n => ∃ f, w.calls n = some f ∧ f.pc.counted = some a
  | .slot i => ∃ t, (w.threads a).slot i = some (.entry t) ∧ w.Settled t

/-- What a step of call `n` does not change stays justified. -/
theorem World.Justified.keep {x : Token} (h : w.Justified a x) (hf : w.calls n = some f)
    {frame : Option Frame} (hcalls : w'.calls = Function.update w.calls n frame)
    (hreg : w.reg (w.tgid a) = some a → x = .reg → w'.reg (w'.tgid a) = some a)
    (hcall : f.pc.counted = some a → x = .call n → ∃ f', frame = some f' ∧ f'.pc.counted = some a)
    (hslot : ∀ i t, x = .slot i → (w.threads a).slot i = some (.entry t) → w.Settled t →
      (w'.threads a).slot i = some (.entry t) ∧ ∀ f', frame = some f' → f'.pc.desc ≠ some t) :
    w'.Justified a x := by
  cases x with
  | reg => exact hreg h rfl
  | call m =>
      obtain ⟨g, hg, hc⟩ := h
      by_cases hm : m = n
      · subst hm
        obtain rfl : f = g := Option.some.inj (hf.symm.trans hg)
        obtain ⟨f', hf', hx⟩ := hcall hc rfl
        exact ⟨f', by rw [hcalls, Function.update_self, hf'], hx⟩
      · exact ⟨g, by rw [hcalls, Function.update_of_ne hm, hg], hc⟩
  | slot i =>
      obtain ⟨t, he, hset⟩ := h
      obtain ⟨he', hnot⟩ := hslot i t rfl he hset
      refine ⟨t, he', fun m g hg ↦ ?_⟩
      rw [hcalls] at hg
      rcases update_eq_some hg with ⟨-, hg⟩ | ⟨-, hg⟩
      · exact hnot g hg
      · exact hset m g hg

/-- All that a count counts can be pointed out, and an allocator without references is gone or about to
go. -/
structure Counted (w : World) : Prop where
  refs : ∀ a, ∃ s : Finset Token, w.kref a ≤ s.card ∧ ∀ x ∈ s, w.Justified a x
  zero : ∀ a < w.nextAlloc, w.kref a = 0 → a ∈ w.dead ∨ ∃ n f, w.calls n = some f ∧ f.pc = .callback a
  dead : ∀ a ∈ w.dead, w.kref a = 0
  gone : ∀ a ∈ w.destroyed, (∀ g, w.reg g ≠ some a) ∨ ∃ n f, w.calls n = some f ∧ f.pc = .destroyErase a

namespace Counted

theorem init : Counted .init := by
  constructor
  · intro a
    exact ⟨∅, le_rfl, fun x hx ↦ by cases hx⟩
  all_goals simp [World.init]

theorem alike (h : Counted w) (ha : Alike w w') : Counted w' := by
  obtain ⟨hreg, htgid, hthreads, hkref, hnext, -, -, -, hcalls, hdes, hdead⟩ := ha
  constructor
  · intro a
    obtain ⟨s, hs, hx⟩ := h.refs a
    refine ⟨s, by rw [hkref]; exact hs, fun x hmem ↦ ?_⟩
    have hj := hx x hmem
    cases x with
    | reg => rwa [World.Justified, hreg, htgid]
    | call m => rwa [World.Justified, hcalls]
    | slot i =>
        obtain ⟨t, he, hset⟩ := hj
        refine ⟨t, by rw [hthreads]; exact he, ?_⟩
        unfold World.Settled
        rw [hcalls]
        exact hset
  · rw [hnext, hkref, hdead, hcalls]
    exact h.zero
  · rw [hdead, hkref]
    exact h.dead
  · rw [hdes, hreg, hcalls]
    exact h.gone

/-- **The step of one call**, from `f` to `frame`. -/
theorem step (h : Counted w) (hf : w.calls n = some f) {frame : Option Frame}
    (hcalls : w'.calls = Function.update w.calls n frame) (hnext : w'.nextAlloc = w.nextAlloc)
    (hdes : w'.destroyed = w.destroyed) (hsub : w.dead ⊆ w'.dead)
    (hrefs : ∀ (b : AllocPtr) (s : Finset Token), w.kref b ≤ s.card → (∀ x ∈ s, w.Justified b x) →
      ∃ s' : Finset Token, w'.kref b ≤ s'.card ∧ ∀ x ∈ s', w'.Justified b x)
    (hzero : ∀ b < w.nextAlloc, w'.kref b = 0 → w.kref b = 0 ∨ ∃ f', frame = some f' ∧ f'.pc = .callback b)
    (hcallback : ∀ b, f.pc = .callback b → b ∈ w'.dead)
    (hdead : ∀ b ∈ w'.dead, w'.kref b = 0) (hreg : ∀ g b, w'.reg g = some b → w.reg g = some b)
    (hdestroy : ∀ b, f.pc = .destroyErase b → ∀ g, w'.reg g ≠ some b) : Counted w' := by
  have hstay : ∀ m g, m ≠ n → w.calls m = some g → w'.calls m = some g := by
    intro m g hm hg
    rw [hcalls, Function.update_of_ne hm, hg]
  constructor
  · intro b
    obtain ⟨s, hs, hx⟩ := h.refs b
    exact hrefs b s hs hx
  · intro b hb hk
    rw [hnext] at hb
    rcases hzero b hb hk with hk | ⟨f', hf', hpc⟩
    · rcases h.zero b hb hk with hx | ⟨m, g, hg, hpc⟩
      · exact .inl (hsub hx)
      · by_cases hm : m = n
        · subst hm
          obtain rfl : f = g := Option.some.inj (hf.symm.trans hg)
          exact .inl (hcallback b hpc)
        · exact .inr ⟨m, g, hstay m g hm hg, hpc⟩
    · exact .inr ⟨n, f', by rw [hcalls, Function.update_self, hf'], hpc⟩
  · exact hdead
  · intro b hb
    rw [hdes] at hb
    rcases h.gone b hb with hx | ⟨m, g, hg, hpc⟩
    · exact .inl fun g hg ↦ hx g (hreg g b hg)
    · by_cases hm : m = n
      · subst hm
        obtain rfl : f = g := Option.some.inj (hf.symm.trans hg)
        exact .inl (hdestroy b hpc)
      · exact .inr ⟨m, g, hstay m g hm hg, hpc⟩

/-- A step that changes no count, of a call that stays counted. -/
theorem same (h : Counted w) (hf : w.calls n = some f) {frame : Option Frame}
    (hcalls : w'.calls = Function.update w.calls n frame) (hsame : SameAllocs w w') (hreg : w'.reg = w.reg)
    (hkref : w'.kref = w.kref) (ho : f.pc.Ordinary)
    (hcounted : ∀ b, f.pc.counted = some b → ∃ f', frame = some f' ∧ f'.pc.counted = some b)
    (hslot : ∀ b i t, (w.threads b).slot i = some (.entry t) → w.Settled t →
      (w'.threads b).slot i = some (.entry t) ∧ ∀ f', frame = some f' → f'.pc.desc ≠ some t) :
    Counted w' := by
  obtain ⟨htgid, hnext, hdead, hdes⟩ := hsame
  refine h.step hf hcalls hnext hdes (by rw [hdead]) (fun b s hs hx ↦ ?_) (fun b _ hk ↦ ?_)
    (fun b hb ↦ absurd hb (ho.ne b).2) (fun b hb ↦ ?_) (fun g b hg ↦ ?_) fun b hb ↦ absurd hb (ho.ne b).1
  · refine ⟨s, by rw [hkref]; exact hs, fun x hmem ↦ (hx x hmem).keep hf hcalls (fun hreg' _ ↦ ?_)
      (fun hcall _ ↦ ?_) fun i t _ he hset ↦ hslot b i t he hset⟩
    · rw [hreg, htgid]
      exact hreg'
    · exact hcounted b hcall
  · rw [hkref] at hk
    exact .inl hk
  · rw [hkref]
    exact h.dead b (hdead ▸ hb)
  · rwa [hreg] at hg

/-- A call that is not counted for an allocator is no reference to it. -/
theorem notMem_call (hf : w.calls n = some f) {b : AllocPtr} {s : Finset Token}
    (hs : ∀ x ∈ s, w.Justified b x) (hc : f.pc.counted ≠ some b) : .call n ∉ s := by
  intro hx
  obtain ⟨g, hg, hcg⟩ := hs _ hx
  obtain rfl : f = g := Option.some.inj (hf.symm.trans hg)
  exact hc hcg

/-- One reference for another. -/
theorem card_swap {s : Finset Token} {x y : Token} (hx : x ∉ s) : s.card ≤ (insert x (s.erase y)).card := by
  rw [Finset.card_insert_of_notMem fun hc ↦ hx (Finset.mem_of_mem_erase hc)]
  exact Nat.sub_le_iff_le_add.mp Finset.pred_card_le_card_erase

/-- `alloc_get`. -/
theorem get (h : Counted w) (hf : w.calls n = some f) (hk : w.kref a ≠ 0) (hc : f.pc.counted = none)
    (hc' : pc.counted = some a) (hd' : pc.desc = none) (ho : f.pc.Ordinary) :
    Counted ((w.setKref a (w.kref a + 1)).goto n f pc) := by
  have hkref : ∀ b, Function.update w.kref a (w.kref a + 1) b = if b = a then w.kref a + 1 else w.kref b :=
    fun b ↦ Function.update_apply _ _ _ _
  have hkeep : ∀ b x, w.Justified b x → ((w.setKref a (w.kref a + 1)).goto n f pc).Justified b x := by
    intro b x hx
    refine hx.keep hf rfl (fun hr _ ↦ hr) (fun hcb _ ↦ ?_) fun i t _ he _ ↦ ⟨he, fun f' hf' ↦ ?_⟩
    · rw [hc] at hcb
      cases hcb
    · obtain rfl := Option.some.inj hf'
      rw [show Frame.pc _ = pc from rfl, hd']
      exact Option.some_ne_none t |>.symm
  refine h.step hf rfl rfl rfl subset_rfl (fun b s hs hx ↦ ?_) (fun b _ hz ↦ ?_)
    (fun b hb ↦ absurd hb (ho.ne b).2) (fun b hb ↦ ?_) (fun _ _ hg ↦ hg) fun b hb ↦ absurd hb (ho.ne b).1
  · by_cases hb : b = a
    · subst hb
      refine ⟨insert (.call n) s, ?_, fun x hmem ↦ ?_⟩
      · rw [Finset.card_insert_of_notMem (notMem_call hf hx (by rw [hc]; exact (Option.some_ne_none b).symm))]
        refine le_trans (le_of_eq ?_) (Nat.add_le_add_right hs 1)
        exact Function.update_self _ _ _
      · rcases Finset.mem_insert.mp hmem with rfl | hmem
        · exact ⟨{ f with pc := pc }, Function.update_self _ _ _, hc'⟩
        · exact hkeep b x (hx x hmem)
    · refine ⟨s, le_trans (le_of_eq ?_) hs, fun x hmem ↦ hkeep b x (hx x hmem)⟩
      exact Function.update_of_ne hb _ _
  · have hz' : (if b = a then w.kref a + 1 else w.kref b) = 0 := (hkref b).symm.trans hz
    split_ifs at hz'
    exact .inl hz'
  · have hb' : b ≠ a := by
      rintro rfl
      exact hk (h.dead b hb)
    exact (Function.update_of_ne hb' _ _).trans (h.dead b hb)

/-- The reference of a call becomes that of its descriptor. -/
theorem settle (h : Counted w) (hd : DescInv False w owner carrier) (hh : Holding w) (hf : w.calls n = some f)
    {id : Nat} (hs : f.pc.slot = some (a, id, .entry t)) (ho : f.pc.Ordinary) : Counted (w.finish n) := by
  obtain ⟨ht, hshown⟩ := Pc.slot_eq_entry.mp hs
  have he := hh.slot n f a id (.entry t) hf hs
  have hc := Pc.counted_of_slot hs
  have hkeep : ∀ b x, w.Justified b x → x ≠ .call n → (w.finish n).Justified b x := fun b x hx hne ↦
    hx.keep hf rfl (fun hr _ ↦ hr) (fun _ hc ↦ absurd hc hne) fun i t _ he _ ↦ ⟨he, fun f' hf' ↦ by cases hf'⟩
  refine h.step hf rfl rfl rfl subset_rfl (fun b s hle hx ↦ ?_) (fun _ _ hz ↦ .inl hz)
    (fun b hb ↦ absurd hb (ho.ne b).2) h.dead (fun _ _ hg ↦ hg) fun b hb ↦ absurd hb (ho.ne b).1
  by_cases hb : b = a
  · subst hb
    have hnot : .slot id ∉ s := by
      intro hmem
      obtain ⟨t', he', hset⟩ := hx _ hmem
      obtain rfl := Slot.entry.inj (Option.some.inj (he.symm.trans he'))
      exact hset n f hf ht
    refine ⟨insert (.slot id) (s.erase (.call n)), hle.trans (card_swap hnot), fun x hmem ↦ ?_⟩
    rcases Finset.mem_insert.mp hmem with rfl | hmem
    · refine ⟨t, he, fun m g hg hx ↦ ?_⟩
      rcases update_eq_some hg with ⟨-, hg⟩ | ⟨hm, hg⟩
      · cases hg
      · exact hm (hd.call_unique hf ht hg hx)
    · exact hkeep b x (hx x (Finset.mem_of_mem_erase hmem)) (Finset.ne_of_mem_erase hmem)
  · refine ⟨s, hle, fun x hmem ↦ hkeep b x (hx x hmem) ?_⟩
    rintro rfl
    exact notMem_call hf hx (fun hcb ↦ hb (Option.some.inj (hcb.symm.trans hc))) hmem

/-- `sa_free` gets the reference of a descriptor. -/
theorem take (h : Counted w) (hd : DescInv False w owner carrier) (hf : w.calls n = some f) {id : Nat}
    (hpc : f.pc = .freeErase a id) (he : (w.threads a).slot id = some (.entry t)) (hset : w.Settled t) :
    Counted ((w.setThreads a ((w.threads a).erase id)).goto n f (.freeUnmap a t)) := by
  have hnone : ∀ b, f.pc.counted ≠ some b := by
    intro b hc
    rw [hpc] at hc
    cases hc
  have ho : f.pc.Ordinary := by rw [hpc]; trivial
  have hkeep : ∀ b x, w.Justified b x → (b = a → x ≠ .slot id) →
      ((w.setThreads a ((w.threads a).erase id)).goto n f (.freeUnmap a t)).Justified b x := by
    intro b x hx hne
    refine hx.keep hf rfl (fun hr _ ↦ hr) (fun hc _ ↦ absurd hc (hnone b)) fun j t' hj he' hset' ↦
      ⟨?_, fun f' hf' hx' ↦ ?_⟩
    · refine (Holding.slot_update fun k ↦ Xarray.slot_erase _ _ _).trans ?_
      rw [if_neg]
      · exact he'
      · rintro ⟨hb, rfl⟩
        exact hne hb hj
    · obtain rfl := Option.some.inj hf'
      obtain rfl := Option.some.inj hx'
      -- the descriptor is in one slot only
      have hslot := (hd.slot_of_settled hset (.inl he)).symm.trans (hd.slot_of_settled hset' (.inl he'))
      obtain ⟨hb, hi⟩ := DescOwner.slot.inj hslot
      exact hne hb.symm (by rw [hj, hi])
  refine h.step hf rfl rfl rfl subset_rfl (fun b s hle hx ↦ ?_) (fun _ _ hz ↦ .inl hz)
    (fun b hb ↦ absurd hb (ho.ne b).2) h.dead (fun _ _ hg ↦ hg) fun b hb ↦ absurd hb (ho.ne b).1
  by_cases hb : b = a
  · subst hb
    refine ⟨insert (.call n) (s.erase (.slot id)),
      hle.trans (card_swap (notMem_call hf hx (hnone b))), fun x hmem ↦ ?_⟩
    rcases Finset.mem_insert.mp hmem with rfl | hmem
    · exact ⟨_, Function.update_self _ _ _, rfl⟩
    · exact hkeep b x (hx x (Finset.mem_of_mem_erase hmem)) fun _ ↦ Finset.ne_of_mem_erase hmem
  · exact ⟨s, hle, fun x hmem ↦ hkeep b x (hx x hmem) fun hc ↦ absurd hc hb⟩

/-- `alloc_destroy` gets the reference of the registration. -/
theorem deregister (h : Counted w) (hl : LifeInv w tokens) (hf : w.calls n = some f)
    (hpc : f.pc = .destroyErase a) :
    Counted { w.goto n f (.put a) with reg := Function.update w.reg (w.tgid a) none } := by
  obtain ⟨hreg, -, -⟩ := hl.destroying n f a hf hpc
  have hnone : ∀ b, f.pc.counted ≠ some b := by
    intro b hc
    rw [hpc] at hc
    cases hc
  have hold : ∀ g b, Function.update w.reg (w.tgid a) none g = some b → g ≠ w.tgid a ∧ w.reg g = some b := by
    intro g b hg
    rcases update_eq_some hg with ⟨-, hg⟩ | hg
    · cases hg
    · exact hg
  have hkeep : ∀ b x, w.Justified b x → (b = a → x ≠ .reg) →
      World.Justified { w.goto n f (.put a) with reg := Function.update w.reg (w.tgid a) none } b x := by
    intro b x hx hne
    refine hx.keep hf rfl (fun hr hx' ↦ ?_) (fun hc _ ↦ absurd hc (hnone b)) fun j t' _ he' _ ↦
      ⟨he', fun f' hf' hc ↦ ?_⟩
    · have hg : w.tgid b ≠ w.tgid a := by
        intro hc
        rw [hc, hreg] at hr
        exact hne (Option.some.inj hr).symm hx'
      exact (Function.update_of_ne hg _ _).trans hr
    · obtain rfl := Option.some.inj hf'
      cases hc
  refine h.step hf rfl rfl rfl subset_rfl (fun b s hle hx ↦ ?_) (fun _ _ hz ↦ .inl hz)
    (fun b hb ↦ ?_) h.dead (fun g b hg ↦ (hold g b hg).2) fun b hb g hg ↦ ?_
  · by_cases hb : b = a
    · subst hb
      refine ⟨insert (.call n) (s.erase .reg),
        hle.trans (card_swap (notMem_call hf hx (hnone b))), fun x hmem ↦ ?_⟩
      rcases Finset.mem_insert.mp hmem with rfl | hmem
      · exact ⟨_, Function.update_self _ _ _, rfl⟩
      · exact hkeep b x (hx x (Finset.mem_of_mem_erase hmem)) fun _ ↦ Finset.ne_of_mem_erase hmem
    · exact ⟨s, hle, fun x hmem ↦ hkeep b x (hx x hmem) fun hc ↦ absurd hc hb⟩
  · rw [hpc] at hb
    cases hb
  · obtain rfl : a = b := Pc.destroyErase.inj (hpc.symm.trans hb)
    obtain ⟨hne, hg⟩ := hold g a hg
    exact hne (hl.reg g a hg).2.1.symm

/-- `alloc_put`: the call gives up its reference, and with the last one only the callback is left. -/
theorem put (h : Counted w) (hl : LifeInv w tokens) (hf : w.calls n = some f) (hpc : f.pc = .put a) {k : Nat}
    (frame : Option Frame) (hk : k ≤ w.kref a - 1)
    (hzero : k = 0 → ∃ f', frame = some f' ∧ f'.pc = .callback a)
    (hdesc : ∀ f' t, frame = some f' → f'.pc.desc ≠ some t) :
    Counted { w.setKref a k with calls := Function.update w.calls n frame } := by
  obtain ⟨-, -, hlive⟩ := hl.counted n f a hf (by rw [hpc]; rfl)
  have hc : f.pc.counted = some a := by rw [hpc]; rfl
  have hkeep : ∀ b x, w.Justified b x → x ≠ .call n →
      World.Justified { w.setKref a k with calls := Function.update w.calls n frame } b x := fun b x hx hne ↦
    hx.keep hf rfl (fun hr _ ↦ hr) (fun _ hc ↦ absurd hc hne) fun i t _ he _ ↦ ⟨he, fun f' hf' ↦ hdesc f' t hf'⟩
  have hkref : ∀ b, b ≠ a → Function.update w.kref a k b = w.kref b := fun b hb ↦ Function.update_of_ne hb _ _
  have hself : Function.update w.kref a k a = k := Function.update_self _ _ _
  refine h.step hf rfl rfl rfl subset_rfl (fun b s hle hx ↦ ?_) (fun b _ hz ↦ ?_)
    (fun b hb ↦ ?_) (fun b hb ↦ ?_) (fun _ _ hg ↦ hg) fun b hb ↦ ?_
  · by_cases hb : b = a
    · subst hb
      refine ⟨s.erase (.call n), ?_, fun x hmem ↦
        hkeep b x (hx x (Finset.mem_of_mem_erase hmem)) (Finset.ne_of_mem_erase hmem)⟩
      exact (le_of_eq hself).trans (hk.trans ((Nat.sub_le_sub_right hle 1).trans Finset.pred_card_le_card_erase))
    · refine ⟨s, (le_of_eq (hkref b hb)).trans hle, fun x hmem ↦ hkeep b x (hx x hmem) ?_⟩
      rintro rfl
      exact notMem_call hf hx (fun hcb ↦ hb (Option.some.inj (hcb.symm.trans hc))) hmem
  · by_cases hb : b = a
    · subst hb
      exact .inr (hzero (hself.symm.trans hz))
    · exact .inl ((hkref b hb).symm.trans hz)
  · rw [hpc] at hb
    cases hb
  · have hb' : b ≠ a := by
      rintro rfl
      exact hlive hb
    exact (hkref b hb').trans (h.dead b hb)
  · rw [hpc] at hb
    cases hb

/-- `alloc_destroy_callback`. -/
theorem bury (h : Counted w) (hl : LifeInv w tokens) (hf : w.calls n = some f) (hpc : f.pc = .callback a) :
    Counted { w.finish n with dead := insert a w.dead } := by
  obtain ⟨hk, -, -⟩ := hl.callback n f a hf hpc
  refine h.step hf rfl rfl rfl (Finset.subset_insert _ _) (fun b s hle hx ↦ ⟨s, hle, fun x hmem ↦ ?_⟩)
    (fun _ _ hz ↦ .inl hz) (fun b hb ↦ ?_) (fun b hb ↦ ?_) (fun _ _ hg ↦ hg) fun b hb ↦ ?_
  · refine (hx x hmem).keep hf rfl (fun hr _ ↦ hr) (fun hc _ ↦ ?_) fun i t _ he _ ↦ ⟨he, fun f' hf' ↦ by cases hf'⟩
    rw [hpc] at hc
    cases hc
  · obtain rfl : a = b := Pc.callback.inj (hpc.symm.trans hb)
    exact Finset.mem_insert_self _ _
  · rcases Finset.mem_insert.mp hb with rfl | hb
    · exact hk
    · exact h.dead b hb
  · rw [hpc] at hb
    cases hb

/-- **One step of a call keeps the counts.** -/
theorem effect (h : Counted w) (hd : DescInv False w owner carrier) (hl : LifeInv w tokens) (hh : Holding w)
    (hf : w.calls n = some f) (he : Effect w n f w') : Counted w' := by
  cases he with
  | leave hc hdesc ho =>
      refine h.same hf rfl ⟨rfl, rfl, rfl, rfl⟩ rfl rfl ho (fun b hb ↦ ?_)
        fun b i t he _ ↦ ⟨he, fun f' hf' ↦ by cases hf'⟩
      rw [hc] at hb
      cases hb
  | move pc hc hdesc hdesc' hs ho ho' =>
      refine h.same hf rfl ⟨rfl, rfl, rfl, rfl⟩ rfl rfl ho (fun b hb ↦ ⟨_, rfl, hc.trans hb⟩)
        fun b i t he _ ↦ ⟨he, fun f' hf' ht ↦ ?_⟩
      obtain rfl := Option.some.inj hf'
      cases hdesc'.symm.trans ht
  | get a pc hu hk hc hc' hdesc hdesc' hs ho ho' => exact h.get hf hk hc hc' hdesc' ho
  | reserve a id hfree hpc =>
      refine h.same hf rfl ⟨rfl, rfl, rfl, rfl⟩ rfl rfl (by rw [hpc]; trivial) (fun b hb ↦ ⟨_, rfl, ?_⟩)
        fun b i t he _ ↦ ⟨?_, fun f' hf' ht ↦ ?_⟩
      · rw [hpc] at hb
        exact hb
      · refine (Holding.slot_update fun k ↦ Xarray.slot_set _ _ _ _).trans ?_
        rw [if_neg, he]
        rintro ⟨rfl, rfl⟩
        rw [hfree] at he
        cases he
      · obtain rfl := Option.some.inj hf'
        cases ht
  | kmalloc pc hc hdesc hdesc' hs hfill ho ho' =>
      refine h.same hf rfl ⟨rfl, rfl, rfl, rfl⟩ rfl rfl ho (fun b hb ↦ ⟨_, rfl, hc.trans hb⟩)
        fun b i t he _ ↦ ⟨he, fun f' hf' ht ↦ ?_⟩
      obtain rfl := Option.some.inj hf'
      obtain rfl := Option.some.inj (hdesc'.symm.trans ht)
      exact lt_irrefl _ (hd.entry_lt he)
  | work pc t d d' held hc hdesc hdesc' hs hdd hfilled haddr hheld ho ho' =>
      refine h.same hf rfl ⟨rfl, rfl, rfl, rfl⟩ rfl rfl ho (fun b hb ↦ ⟨_, rfl, hc.trans hb⟩)
        fun b i t' he hset ↦ ⟨he, fun f' hf' ht ↦ ?_⟩
      obtain rfl := Option.some.inj hf'
      exact hset n f hf (hdesc.trans (hdesc'.symm.trans ht))
  | publish pc a id t d d' hc hdesc hdd hs hs' haddr hheld ho ho' =>
      refine h.same hf rfl ⟨rfl, rfl, rfl, rfl⟩ rfl rfl ho (fun b hb ↦ ⟨_, rfl, ?_⟩)
        fun b i t' he hset ↦ ⟨?_, fun f' hf' ht ↦ ?_⟩
      · exact (Pc.counted_of_slot hs').trans (hc.symm.trans hb)
      · refine (Holding.slot_update fun k ↦ Xarray.slot_set _ _ _ _).trans ?_
        rw [if_neg]
        · exact he
        · rintro ⟨rfl, rfl⟩
          rcases hs with hs | ⟨-, hfree⟩
          · rw [hh.slot n f b i .reserved hf hs] at he
            cases he
          · rw [hfree] at he
            cases he
      · obtain rfl := Option.some.inj hf'
        exact hset n f hf (hdesc.trans ((Pc.slot_eq_entry.mp hs').1.symm.trans ht))
  | settle a id t d hs hdd hheld ho => exact h.settle hd hh hf hs ho
  | kfree pc t hc hdesc hdesc' hs hshown hheld ho ho' =>
      refine h.same hf rfl ⟨rfl, rfl, rfl, rfl⟩ rfl rfl ho (fun b hb ↦ ⟨_, rfl, hc.trans hb⟩)
        fun b i t' he _ ↦ ⟨he, fun f' hf' ht ↦ ?_⟩
      obtain rfl := Option.some.inj hf'
      cases hdesc'.symm.trans ht
  | release pc a id s hc hdesc hs hs' hfill hheld ho ho' =>
      refine h.same hf rfl ⟨rfl, rfl, rfl, rfl⟩ rfl rfl ho (fun b hb ↦ ⟨_, rfl, hc.trans hb⟩)
        fun b i t he hset ↦ ⟨?_, fun f' hf' ht ↦ ?_⟩
      · refine (Holding.slot_update fun k ↦ Xarray.slot_erase _ _ _).trans ?_
        rw [if_neg, he]
        rintro ⟨rfl, rfl⟩
        obtain rfl := Option.some.inj ((hh.slot n f b i s hf hs).symm.trans he)
        exact hset n f hf (Pc.slot_eq_entry.mp hs).1
      · obtain rfl := Option.some.inj hf'
        exact hset n f hf (hdesc.symm.trans ht)
  | take a id t hpc he hset => exact h.take hd hf hpc he hset
  | deregister a hpc => exact h.deregister hl hf hpc
  | put a hpc hk =>
      have hpos : 0 < w.kref a := by
        refine lt_of_lt_of_le (Finset.card_pos.mpr ⟨.call n, ?_⟩) (hl.card a)
        exact (hl.counted n f a hf (by rw [hpc]; rfl)).1
      exact h.put hl hf hpc none le_rfl (fun hz ↦ by omega) fun f' t hf' ↦ by cases hf'
  | last a hpc hk =>
      exact h.put hl hf hpc (some { f with pc := .callback a }) (Nat.zero_le _) (fun _ ↦ ⟨_, rfl, rfl⟩)
        fun f' t hf' ht ↦ by
          obtain rfl := Option.some.inj hf'
          cases ht
  | bury a hpc => exact h.bury hl hf hpc

theorem create (h : Counted w) (hl : LifeInv w tokens) (hh : Holding w) {tgid : Nat}
    (hfree : w.reg tgid = none) :
    Counted { w with
      reg := Function.update w.reg tgid (some w.nextAlloc)
      tgid := Function.update w.tgid w.nextAlloc tgid
      threads := Function.update w.threads w.nextAlloc .empty
      maxId := Function.update w.maxId w.nextAlloc 0
      kref := Function.update w.kref w.nextAlloc 1
      nextAlloc := w.nextAlloc + 1 } := by
  constructor
  · intro b
    by_cases hb : b = w.nextAlloc
    · subst hb
      refine ⟨{.reg}, le_of_eq (Function.update_self _ _ _), fun x hx ↦ ?_⟩
      rw [Finset.mem_singleton.mp hx]
      change Function.update w.reg tgid (some w.nextAlloc)
        (Function.update w.tgid w.nextAlloc tgid w.nextAlloc) = some w.nextAlloc
      rw [Function.update_self, Function.update_self]
    · obtain ⟨s, hle, hx⟩ := h.refs b
      refine ⟨s, (le_of_eq (Function.update_of_ne hb _ _)).trans hle, fun x hmem ↦ ?_⟩
      have hj := hx x hmem
      cases x with
      | reg =>
          have hr : w.reg (w.tgid b) = some b := hj
          change Function.update w.reg tgid (some w.nextAlloc) (Function.update w.tgid w.nextAlloc tgid b) = some b
          rw [Function.update_of_ne hb, Function.update_of_ne, hr]
          intro hc
          rw [hc, hfree] at hr
          cases hr
      | call m => exact hj
      | slot i =>
          obtain ⟨t, he, hset⟩ := hj
          exact ⟨t, (hh.slot_create b i).trans he, hset⟩
  · intro b hb hk
    by_cases hbn : b = w.nextAlloc
    · subst hbn
      cases (Function.update_self w.nextAlloc 1 w.kref).symm.trans hk
    · exact h.zero b (lt_of_le_of_ne (Nat.le_of_lt_succ hb) hbn) ((Function.update_of_ne hbn _ _).symm.trans hk)
  · intro b hb
    have hbn : b ≠ w.nextAlloc := ne_of_lt (hl.dead b hb)
    exact (Function.update_of_ne hbn _ _).trans (h.dead b hb)
  · intro b hb
    refine (h.gone b hb).imp_left fun hx g hg ↦ ?_
    rcases update_eq_some hg with ⟨-, hg⟩ | ⟨-, hg⟩
    · exact absurd (hl.destroyed b hb) (by rw [Option.some.inj hg]; exact lt_irrefl _)
    · exact hx g hg

theorem enter (h : Counted w) (hd : DescInv False w owner carrier) (pid tgid : Nat) (entry : Entry) :
    Counted { w with
      calls := Function.update w.calls w.nextCall (some ⟨pid, tgid, entry.pc⟩)
      nextCall := w.nextCall + 1
      destroyed := w.destroyed ∪ entry.destroys } := by
  have hstay : ∀ m g, w.calls m = some g →
      Function.update w.calls w.nextCall (some ⟨pid, tgid, entry.pc⟩) m = some g := by
    intro m g hg
    have hm : m ≠ w.nextCall := by
      rintro rfl
      rw [hd.calls _ le_rfl] at hg
      cases hg
    rw [Function.update_of_ne hm, hg]
  constructor
  · intro b
    obtain ⟨s, hle, hx⟩ := h.refs b
    refine ⟨s, hle, fun x hmem ↦ ?_⟩
    have hj := hx x hmem
    cases x with
    | reg => exact hj
    | call m =>
        obtain ⟨g, hg, hc⟩ := hj
        exact ⟨g, hstay m g hg, hc⟩
    | slot i =>
        obtain ⟨t, he, hset⟩ := hj
        refine ⟨t, he, fun m g hg ht ↦ ?_⟩
        rcases update_eq_some hg with ⟨-, hg⟩ | ⟨-, hg⟩
        · obtain rfl := Option.some.inj hg
          cases entry <;> cases ht
        · exact hset m g hg ht
  · intro b hb hk
    refine (h.zero b hb hk).imp_right ?_
    rintro ⟨m, g, hg, hpc⟩
    exact ⟨m, g, hstay m g hg, hpc⟩
  · exact h.dead
  · intro b hb
    rcases Finset.mem_union.mp hb with hb | hb
    · refine (h.gone b hb).imp_right ?_
      rintro ⟨m, g, hg, hpc⟩
      exact ⟨m, g, hstay m g hg, hpc⟩
    · refine .inr ⟨w.nextCall, _, Function.update_self _ _ _, ?_⟩
      cases entry with
      | allocDestroy c =>
          obtain rfl : b = c := Finset.mem_singleton.mp hb
          rfl
      | saAlloc | saFork | saFree => cases hb

end Counted

/-! ## Runs -/

/-- Everything that is kept in a run. -/
def Tally (w : World) : Prop :=
  ∃ owner carrier tokens, DescInv False w owner carrier ∧ LifeInv w tokens ∧ Holding w ∧ Kept w ∧ Counted w

theorem Tally.init : Tally .init := ⟨_, _, _, .init, .init, .init, .init, .init⟩

/-- **One step keeps everything.** -/
theorem Tally.next (h : Tally w) {e : Event} (hcareful : Careful w e) (hspare : Spares w e)
    (hs : Next w e w') : Tally w' := by
  obtain ⟨owner, carrier, tokens, hd, hl, hh, hk, hc⟩ := h
  obtain ⟨owner', carrier', hd'⟩ := hd.next hcareful.1 False.elim hs
  obtain ⟨tokens', hl'⟩ := hl.next hd hcareful hs
  refine ⟨owner', carrier', tokens', hd', hl', ?_⟩
  clear hd' hl'
  unfold Next at hs
  cases e with
  | create tgid =>
      simp only [Conc.next] at hs
      split_ifs at hs with hfree
      obtain rfl := Option.some.inj hs
      exact ⟨hh.create tgid, hk.create hh tgid, hc.create hl hh (Option.isNone_iff_eq_none.mp hfree)⟩
  | enter pid tgid entry =>
      obtain rfl := Option.some.inj hs
      exact ⟨hh.enter hd pid tgid entry, hk.enter hd pid tgid entry, hc.enter hd pid tgid entry⟩
  | step n ans =>
      obtain ⟨f, hf, rfl⟩ := Option.map_eq_some_iff.mp hs
      obtain ⟨w₁, he, ha⟩ := hh.does hd hf hcareful.1 hspare
      exact ⟨(hh.effect hd hl hf he).alike ha, (hk.effect hd hh hf he).alike ha,
        (hc.effect hd hl hh hf he).alike ha⟩

/-- No call is under way. -/
def World.Quiet (w : World) : Prop := ∀ n, w.calls n = none

/-- Nothing is lost and nothing is left over. -/
structure AtRest (w : World) : Prop where
  /-- An allocator is counted once for each area and once for its registration, -/
  kref : ∀ a < w.nextAlloc, a ∉ w.dead →
    w.kref a = (w.threads a).count + if w.reg (w.tgid a) = some a then 1 else 0
  /-- and is gone as soon as it has neither. -/
  pos : ∀ a < w.nextAlloc, a ∉ w.dead → 0 < w.kref a
  dead : ∀ a ∈ w.dead, w.kref a = 0 ∧ (∀ i, (w.threads a).slot i = none) ∧ ∀ g, w.reg g ≠ some a
  /-- It is registered until `alloc_destroy` was called for it. -/
  registered : ∀ a < w.nextAlloc, w.reg (w.tgid a) = some a ↔ a ∉ w.destroyed
  /-- A slot in use holds a descriptor with its address, -/
  slots : ∀ a i s, (w.threads a).slot i = some s →
    ∃ t d, s = .entry t ∧ w.descs t = some d ∧ d.addr = idToAddr i
  /-- a descriptor is in one slot, -/
  descs : ∀ t d, w.descs t = some d → ∃! x : AllocPtr × Nat, (w.threads x.1).slot x.2 = some (.entry t)
  /-- and the pagelists that are not on the free list are those of the descriptors, one each. -/
  held : ∀ pl, pl ∈ w.held ↔ ∃ t d, w.descs t = some d ∧ d.pagelist = pl
  pagelist : ∀ t t' d d', w.descs t = some d → w.descs t' = some d' → d.pagelist = d'.pagelist → t = t'
  glSa : w.glSa.Nodup ∧ ∀ pl ∈ w.glSa, pl ∉ w.held

/-- When every call has returned, a count is the number of its references. -/
theorem LifeInv.kref_eq (hl : LifeInv w tokens) (hc : Counted w) (hq : w.Quiet) (a : AllocPtr) :
    w.kref a = (w.threads a).count + if w.reg (w.tgid a) = some a then 1 else 0 := by
  obtain ⟨refs, hrefs⟩ : ∃ refs : Finset Token, refs = (w.threads a).entries.image .slot ∪
      if w.reg (w.tgid a) = some a then {.reg} else ∅ := ⟨_, rfl⟩
  have hcard : refs.card = (w.threads a).count + if w.reg (w.tgid a) = some a then 1 else 0 := by
    rw [hrefs, Finset.card_union_of_disjoint, Finset.card_image_of_injective]
    · rw [Xarray.count]
      split_ifs <;> simp
    · intro i j hij
      exact Token.slot.inj hij
    · rw [Finset.disjoint_left]
      intro x hx hx'
      obtain ⟨i, -, rfl⟩ := Finset.mem_image.mp hx
      split_ifs at hx'
      · cases Finset.mem_singleton.mp hx'
      · cases hx'
  rw [← hcard]
  apply le_antisymm
  · obtain ⟨s, hle, hx⟩ := hc.refs a
    refine hle.trans (Finset.card_le_card fun x hmem ↦ ?_)
    have hj := hx x hmem
    rw [hrefs]
    cases x with
    | reg =>
        have hr : w.reg (w.tgid a) = some a := hj
        rw [if_pos hr]
        exact Finset.mem_union_right _ (Finset.mem_singleton_self _)
    | call m =>
        obtain ⟨f, hf, -⟩ := hj
        rw [hq m] at hf
        cases hf
    | slot i =>
        obtain ⟨t, he, -⟩ := hj
        refine Finset.mem_union_left _ (Finset.mem_image_of_mem _ ?_)
        rw [Xarray.mem_entries, Xarray.load_eq_some.mpr he]
        rfl
  · refine (Finset.card_le_card fun x hmem ↦ ?_).trans (hl.card a)
    rw [hrefs] at hmem
    rcases Finset.mem_union.mp hmem with hmem | hmem
    · obtain ⟨i, hi, rfl⟩ := Finset.mem_image.mp hmem
      obtain ⟨t, he⟩ := Option.isSome_iff_exists.mp (Xarray.mem_entries.mp hi)
      refine hl.slot a i t (Xarray.load_eq_some.mp he) fun m g hg ↦ ?_
      rw [hq m] at hg
      cases hg
    · split_ifs at hmem with hr
      · obtain rfl := Finset.mem_singleton.mp hmem
        exact (hl.reg _ a hr).1
      · cases hmem

/-- What has been kept, once nobody is working any more. -/
theorem Tally.atRest (h : Tally w) (hq : w.Quiet) : AtRest w := by
  obtain ⟨owner, carrier, tokens, hd, hl, hh, hk, hc⟩ := h
  have hnone : ∀ {m : Nat} {g : Frame}, w.calls m = some g → False := by
    intro m g hg
    rw [hq m] at hg
    cases hg
  have hset : ∀ t, w.Settled t := fun t m g hg ↦ (hnone hg).elim
  have hentry : ∀ t d, w.descs t = some d → ∃ a i, (w.threads a).slot i = some (.entry t) := by
    intro t d hdesc
    rcases hk.desc t d hdesc with ⟨m, g, hg, -⟩ | he
    · exact (hnone hg).elim
    · exact he
  have hcarrier : ∀ t d, w.descs t = some d → carrier d.pagelist = some t := by
    intro t d hdesc
    obtain ⟨a, i, he⟩ := hentry t d hdesc
    obtain ⟨-, d', hd', hx⟩ := hd.entry a i t (.inl he)
    rwa [Option.some.inj (hdesc.symm.trans hd')]
  constructor
  · exact fun a _ _ ↦ hl.kref_eq hc hq a
  · intro a ha hdead
    rw [Nat.pos_iff_ne_zero]
    intro hz
    rcases hc.zero a ha hz with hx | ⟨m, g, hg, -⟩
    · exact hdead hx
    · exact hnone hg
  · intro a ha
    have hz := hc.dead a ha
    refine ⟨hz, fun i ↦ ?_, fun g hg ↦ (hl.reg g a hg).2.2.2 ha⟩
    cases hs : (w.threads a).slot i with
    | none => rfl
    | some s =>
        cases s with
        | reserved =>
            obtain ⟨m, g, hg, -⟩ := hh.reserver a i hs
            exact (hnone hg).elim
        | entry t =>
            have hpos := Finset.card_pos.mpr ⟨_, hl.slot a i t hs (hset t)⟩
            have hle := hl.card a
            omega
  · intro a ha
    constructor
    · intro hr hdes
      rcases hc.gone a hdes with hx | ⟨m, g, hg, -⟩
      · exact hx _ hr
      · exact hnone hg
    · exact hl.kept a ha
  · intro a i s hs
    cases s with
    | reserved =>
        obtain ⟨m, g, hg, -⟩ := hh.reserver a i hs
        exact (hnone hg).elim
    | entry t =>
        obtain ⟨-, d, hdesc, -⟩ := hd.entry a i t (.inl hs)
        exact ⟨t, d, rfl, hdesc, hh.addr a i t d hs hdesc⟩
  · intro t d hdesc
    obtain ⟨a, i, he⟩ := hentry t d hdesc
    refine ⟨(a, i), he, ?_⟩
    rintro ⟨b, j⟩ he'
    have hslot := (hd.slot_of_settled (hset t) (.inl he)).symm.trans (hd.slot_of_settled (hset t) (.inl he'))
    obtain ⟨rfl, rfl⟩ := DescOwner.slot.inj hslot
    rfl
  · intro pl
    constructor
    · intro hpl
      rcases hk.held pl hpl with ⟨m, g, hg, -⟩ | ⟨a, i, t, d, -, hdesc, hx⟩
      · exact (hnone hg).elim
      · exact ⟨t, d, hdesc, hx⟩
    · rintro ⟨t, d, hdesc, rfl⟩
      exact hd.held _ t (hcarrier t d hdesc)
  · intro t t' d d' hdesc hdesc' hx
    have hc' := hcarrier t' d' hdesc'
    rw [← hx, hcarrier t d hdesc] at hc'
    exact Option.some.inj hc'
  · exact ⟨hd.glSa_nodup, fun pl hpl ↦ (hd.glSa pl hpl).1⟩

/-- **No interleaving loses anything.**  In every run in which `alloc_destroy` is called once for an
allocator, its callback finds no call that points to it uncounted, and `sa_free` leaves alone what other
calls work on or have reserved, the module is in order whenever all calls have returned. -/
theorem run_atRest {es : List Event}
    (h : Run (Guarded (fun w e ↦ Careful w e ∧ Spares w e) Next) .init es w) (hq : w.Quiet) : AtRest w :=
  (h.invariant (I := Tally) .init fun _ _ _ ht hs ↦ ht.next hs.1.1 hs.1.2 hs.2).atRest hq

/-- Whether all calls that have been made pass a test. -/
def World.allCalls (w : World) (p : Pc → Bool) : Bool :=
  (List.range w.nextCall).all fun m ↦ (w.calls m).all fun g ↦ p g.pc

/-- The event takes nothing that is in use or reserved, and ends no allocator that somebody points to. -/
def Event.calm (w : World) : Event → Bool
  | .create _ => true
  | .enter _ _ entry => decide (∀ a ∈ entry.destroys, a < w.nextAlloc ∧ a ∉ w.destroyed)
  | .step n _ =>
      match w.calls n with
      | some ⟨_, _, .freeErase a id⟩ =>
          match (w.threads a).slot id with
          | some (.entry t) => w.allCalls fun pc ↦ pc.desc != some t
          | some .reserved => false
          | none => true
      | some ⟨_, _, .callback a⟩ => w.allCalls fun pc ↦ pc.uncounted != some a
      | _ => true

theorem Tally.of_allCalls (h : Tally w) {p : Pc → Bool} (hp : w.allCalls p) :
    ∀ m g, w.calls m = some g → p g.pc := by
  obtain ⟨owner, carrier, tokens, hd, -⟩ := h
  intro m g hg
  have hm : m < w.nextCall := by
    by_contra hc
    rw [hd.calls m (Nat.le_of_not_lt hc)] at hg
    cases hg
  have hall := List.all_eq_true.mp hp m (List.mem_range.mpr hm)
  rwa [hg] at hall

theorem Tally.quiet (h : Tally w) (hp : w.allCalls fun _ ↦ false) : w.Quiet := by
  intro m
  cases hg : w.calls m with
  | none => rfl
  | some g => exact absurd (h.of_allCalls hp m g hg) Bool.false_ne_true

theorem Tally.careful (h : Tally w) {e : Event} (he : e.calm w) : Careful w e ∧ Spares w e := by
  cases e with
  | create => exact ⟨⟨trivial, trivial⟩, trivial⟩
  | enter pid tgid entry => exact ⟨⟨trivial, of_decide_eq_true he⟩, trivial⟩
  | step n ans =>
      refine ⟨⟨?_, ?_⟩, ?_⟩
      · rintro ⟨pid, tgid, pc⟩ a id t hf hpc hload
        obtain rfl : pc = .freeErase a id := hpc
        simp only [Event.calm, hf, Xarray.load_eq_some.mp hload] at he
        intro m g hg
        exact bne_iff_ne.mp (h.of_allCalls he m g hg)
      · rintro ⟨pid, tgid, pc⟩ a hf hpc
        obtain rfl : pc = .callback a := hpc
        simp only [Event.calm, hf] at he
        intro m g hg
        exact bne_iff_ne.mp (h.of_allCalls he m g hg)
      · rintro ⟨pid, tgid, pc⟩ a id hf hpc hres
        obtain rfl : pc = .freeErase a id := hpc
        simp [Event.calm, hf, hres] at he

/-- Calm events make a run. -/
theorem Tally.run {es : List Event} (h : Tally w)
    (hs : es.foldlM (fun w e ↦ if e.calm w then Conc.next w e else none) w = some w') :
    Run (Guarded (fun w e ↦ Careful w e ∧ Spares w e) Next) w es w' := by
  induction es generalizing w with
  | nil =>
      obtain rfl : w = w' := Option.some.inj hs
      exact .nil
  | cons e es ih =>
      rw [List.foldlM_cons, Option.bind_eq_bind, Option.bind_eq_some_iff] at hs
      obtain ⟨u, hu, hrest⟩ := hs
      split_ifs at hu with he
      obtain ⟨hc, hsp⟩ := h.careful he
      exact (Run.single ⟨⟨hc, hsp⟩, hu⟩).trans (ih (h.next hc hsp hu) hrest)

/-- Two calls of `sa_alloc` at once, `sa_free` of both areas at once, and `alloc_destroy` in between. -/
def allocsAndDestroy : List Event :=
  [.create 1, .enter 10 1 .saAlloc, .enter 11 1 .saAlloc] ++ steps 0 3 ++ steps 1 9 ++ steps 0 6 ++
    [.enter 12 1 (.saFree (idToAddr 0)), .enter 13 1 (.saFree (idToAddr 1))] ++ steps 2 3 ++ steps 3 2 ++
    [.enter 14 1 (.allocDestroy 0)] ++ steps 4 2 ++ steps 2 3 ++ steps 3 5

theorem run_atRest_destroyed : ∃ w,
    Run (Guarded (fun w e ↦ Careful w e ∧ Spares w e) Next) .init allocsAndDestroy w ∧ w.Quiet ∧
      w.dead = {0} ∧ AtRest w := by
  have hrun : Run (Guarded (fun w e ↦ Careful w e ∧ Spares w e) Next) .init allocsAndDestroy _ :=
    Tally.run .init rfl
  have htally := hrun.invariant Tally.init fun _ _ _ ht hs ↦ ht.next hs.1.1 hs.1.2 hs.2
  have hquiet := htally.quiet rfl
  exact ⟨_, hrun, hquiet, rfl, run_atRest hrun hquiet⟩

end ShadowStack.Lkm.Conc
