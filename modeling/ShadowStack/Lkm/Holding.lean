import ShadowStack.Lkm.Effects

/-!
# Who holds which slot

A reservation has one call that will store into it or release it, what a call has put into a slot stays
there, and no allocator to come has a table.
-/

namespace ShadowStack.Lkm.Conc

open Lib

variable {w w' : World} {n : Nat} {f : Frame} {pc : Pc} {a : AllocPtr} {i t : Nat}
  {owner : Nat → DescOwner} {carrier : PlPtr → Option Nat} {tokens : AllocPtr → Finset Token}

/-- A descriptor in a table has been made. -/
theorem DescInv.entry_lt (hd : DescInv False w owner carrier) (he : (w.threads a).slot i = some (.entry t)) :
    t < w.nextDesc := by
  by_contra hc
  have hnobody := hd.fresh t (Nat.le_of_not_lt hc)
  rcases (hd.entry a i t (.inl he)).1 with hslot | ⟨m, g, hg, ht, -⟩
  · rw [hnobody] at hslot
    cases hslot
  · have hcall := (hd.frame m g t hg ht).1
    rw [hnobody] at hcall
    cases hcall

namespace Holding

theorem init : Holding .init := by
  constructor <;> simp [World.init]

theorem alike (h : Holding w) (ha : Alike w w') : Holding w' := by
  obtain ⟨-, -, hthreads, -, hnext, hdescs, -, -, hcalls, -, -⟩ := ha
  constructor
  · rw [hcalls, hthreads]
    exact h.slot
  · rw [hcalls]
    exact h.unique
  · rw [hcalls, hthreads]
    exact h.reserver
  · rw [hnext, hthreads]
    exact h.blank
  · rw [hcalls, hdescs]
    exact h.filled
  · rw [hthreads, hdescs]
    exact h.addr

/-- **The step of one call**, from `f` to `frame`. -/
theorem step (h : Holding w) (hf : w.calls n = some f) {frame : Option Frame}
    (hcalls : w'.calls = Function.update w.calls n frame)
    (hslot : ∀ m g a i s, m ≠ n → w.calls m = some g → g.pc.slot = some (a, i, s) →
      (w'.threads a).slot i = (w.threads a).slot i)
    (hnew : ∀ f' a i s, frame = some f' → f'.pc.slot = some (a, i, s) → (w'.threads a).slot i = some s ∧
      ∀ m g s', m ≠ n → w.calls m = some g → g.pc.slot ≠ some (a, i, s'))
    (hres : ∀ a i, (w'.threads a).slot i = some .reserved →
      (w.threads a).slot i = some .reserved ∧ f.pc.slot ≠ some (a, i, .reserved) ∨
        ∃ f', frame = some f' ∧ f'.pc.slot = some (a, i, .reserved))
    (hblank : ∀ a i, w'.nextAlloc ≤ a → (w'.threads a).slot i = none)
    (hfilled : ∀ m g id t d, w'.calls m = some g → g.pc.filled = some (id, t) → w'.descs t = some d →
      d.addr = idToAddr id)
    (haddr : ∀ a i t d, (w'.threads a).slot i = some (.entry t) → w'.descs t = some d →
      d.addr = idToAddr i) : Holding w' := by
  have hothers : ∀ m g, w'.calls m = some g → (m = n ∧ frame = some g) ∨ (m ≠ n ∧ w.calls m = some g) := by
    intro m g hg
    rw [hcalls] at hg
    exact update_eq_some hg
  constructor
  · intro m g a i s hg hs
    rcases hothers m g hg with ⟨rfl, hframe⟩ | ⟨hm, hg⟩
    · exact (hnew g a i s hframe hs).1
    · rw [hslot m g a i s hm hg hs]
      exact h.slot m g a i s hg hs
  · intro m g m' g' a i s s' hg hs hg' hs'
    rcases hothers m g hg with ⟨rfl, hframe⟩ | ⟨hm, hg⟩
    · rcases hothers m' g' hg' with ⟨rfl, -⟩ | ⟨hm', hg'⟩
      · rfl
      · exact absurd hs' ((hnew g a i s hframe hs).2 m' g' s' hm' hg')
    · rcases hothers m' g' hg' with ⟨rfl, hframe⟩ | ⟨-, hg'⟩
      · exact absurd hs ((hnew g' a i s' hframe hs').2 m g s hm hg)
      · exact h.unique m g m' g' a i s s' hg hs hg' hs'
  · intro a i hr
    rcases hres a i hr with ⟨hr, hnot⟩ | ⟨f', hframe, hs⟩
    · obtain ⟨m, g, hg, hs⟩ := h.reserver a i hr
      have hm : m ≠ n := by
        rintro rfl
        obtain rfl : f = g := Option.some.inj (hf.symm.trans hg)
        exact hnot hs
      exact ⟨m, g, by rw [hcalls, Function.update_of_ne hm, hg], hs⟩
    · exact ⟨n, f', by rw [hcalls, Function.update_self, hframe], hs⟩
  · exact hblank
  · exact hfilled
  · exact haddr

/-- A step that leaves tables and descriptors alone, of a call that keeps its slot or lets go of one that is
not reserved. -/
theorem stay (h : Holding w) (hf : w.calls n = some f) {frame : Option Frame}
    (hcalls : w'.calls = Function.update w.calls n frame) (hthreads : w'.threads = w.threads)
    (hnext : w'.nextAlloc = w.nextAlloc)
    (hdescs : ∀ t d, w'.descs t = some d → w.descs t = some d ∨
      (∀ a i, (w.threads a).slot i ≠ some (.entry t)) ∧
        ∀ m g id, w'.calls m = some g → g.pc.filled ≠ some (id, t))
    (hframe : ∀ f', frame = some f' → f'.pc.slot = f.pc.slot)
    (hfilled : ∀ f' id t, frame = some f' → f'.pc.filled = some (id, t) → f.pc.filled = some (id, t))
    (hres : frame = none → ∀ a i, f.pc.slot ≠ some (a, i, .reserved)) : Holding w' := by
  refine h.step hf hcalls (fun _ _ a i _ _ _ _ ↦ by rw [hthreads]) (fun f' a i s hf' hs ↦ ?_)
    (fun a i hr ↦ ?_) (fun a i ha ↦ ?_) (fun m g id t d hg hid hd ↦ ?_) fun a i t d he hd ↦ ?_
  · rw [hframe f' hf'] at hs
    rw [hthreads]
    exact ⟨h.slot n f a i s hf hs, fun m g s' hm hg hs' ↦ hm (h.unique n f m g a i s s' hf hs hg hs')⟩
  · rw [hthreads] at hr
    by_cases hs : f.pc.slot = some (a, i, .reserved)
    · cases hx : frame with
      | none => exact absurd hs (hres hx a i)
      | some f' => exact .inr ⟨f', rfl, by rw [hframe f' hx, hs]⟩
    · exact .inl ⟨hr, hs⟩
  · rw [hthreads]
    exact h.blank a i (hnext ▸ ha)
  · rcases hdescs t d hd with hd | ⟨-, hno⟩
    · rw [hcalls] at hg
      rcases update_eq_some hg with ⟨rfl, hf'⟩ | ⟨-, hg⟩
      · exact h.filled m f id t d hf (hfilled g id t hf' hid) hd
      · exact h.filled m g id t d hg hid hd
    · exact absurd hid (hno m g id hg)
  · rw [hthreads] at he
    rcases hdescs t d hd with hd | ⟨hno, -⟩
    · exact h.addr a i t d he hd
    · exact absurd he (hno a i)

/-- A call writes its own descriptor. -/
theorem write (h : Holding w) (hd : DescInv False w owner carrier) (hf : w.calls n = some f) {d' : ThreadDesc}
    {held : Finset PlPtr} (ht : f.pc.desc = some t) (hs : pc.slot = f.pc.slot)
    (hfilled : ∀ id, pc.filled = some (id, t) → d'.addr = idToAddr id)
    (haddr : ∀ a i, f.pc.shown = some (a, i) → d'.addr = idToAddr i) (ht' : pc.desc = some t) :
    Holding { (w.setDesc t (some d')).goto n f pc with held := held } := by
  have hdescs : ∀ t' d, Function.update w.descs t (some d') t' = some d →
      t' = t ∧ d = d' ∨ t' ≠ t ∧ w.descs t' = some d := by
    intro t' d he
    refine (update_eq_some he).imp_left ?_
    rintro ⟨h₁, h₂⟩
    exact ⟨h₁, (Option.some.inj h₂).symm⟩
  refine h.step hf rfl (fun _ _ _ _ _ _ _ _ ↦ rfl) (fun f' a i s hf' hx ↦ ?_) (fun a i hr ↦ ?_) h.blank
    (fun m g id t' d hg hid he ↦ ?_) fun a i t' d he hdesc ↦ ?_
  · obtain rfl := Option.some.inj hf'
    rw [show Frame.pc _ = pc from rfl, hs] at hx
    exact ⟨h.slot n f a i s hf hx, fun m g s' hm hg hx' ↦ hm (h.unique n f m g a i s s' hf hx hg hx')⟩
  · by_cases hx : f.pc.slot = some (a, i, .reserved)
    · exact .inr ⟨_, rfl, hs.trans hx⟩
    · exact .inl ⟨hr, hx⟩
  · rcases update_eq_some hg with ⟨rfl, hgn⟩ | ⟨hm, hg⟩
    · obtain rfl := Option.some.inj hgn
      obtain rfl := Option.some.inj (ht'.symm.trans (Pc.desc_of_filled hid))
      rcases hdescs t d he with ⟨-, rfl⟩ | ⟨hne, -⟩
      · exact hfilled id hid
      · exact absurd rfl hne
    · rcases hdescs t' d he with ⟨rfl, -⟩ | ⟨-, he⟩
      · exact absurd (hd.call_unique hf ht hg (Pc.desc_of_filled hid)) hm
      · exact h.filled m g id t' d hg hid he
  · rcases hdescs t' d hdesc with ⟨rfl, rfl⟩ | ⟨-, hdesc⟩
    · exact haddr a i (hd.shown_of_entry hf ht he)
    · exact h.addr a i t' d he hdesc

/-- The slots of an array after one of them has changed. -/
theorem slot_update {x : Xarray Nat} {b : AllocPtr} {j id : Nat} {y : Option (Slot Nat)}
    (hx : ∀ k, x.slot k = if k = id then y else (w.threads a).slot k) :
    (Function.update w.threads a x b).slot j = if b = a ∧ j = id then y else (w.threads b).slot j := by
  by_cases hb : b = a
  · subst hb
    rw [Function.update_self, hx]
    simp
  · rw [Function.update_of_ne hb, if_neg fun hc ↦ hb hc.1]

/-- `sa_alloc` reserves a free slot. -/
theorem reserve (h : Holding w) (hf : w.calls n = some f) {id : Nat} (hlt : a < w.nextAlloc)
    (hfree : (w.threads a).slot id = none) (hpc : f.pc = .allocReserve a) :
    Holding ((w.setThreads a ((w.threads a).set id .reserved)).goto n f (.allocThread a id)) := by
  have hslot : ∀ b j, (((w.setThreads a ((w.threads a).set id .reserved)).goto n f
      (.allocThread a id)).threads b).slot j =
      if b = a ∧ j = id then some .reserved else (w.threads b).slot j :=
    fun b j ↦ slot_update fun k ↦ Xarray.slot_set _ _ _ _
  have hnobody : ∀ m g s, w.calls m = some g → g.pc.slot ≠ some (a, id, s) := by
    intro m g s hg hs
    rw [h.slot m g a id s hg hs] at hfree
    cases hfree
  refine h.step hf rfl (fun m g b j s hm hg hs ↦ ?_) (fun f' b j s hf' hs ↦ ?_) (fun b j hr ↦ ?_)
    (fun b j hb ↦ ?_) (fun m g id' t d hg hid hd ↦ ?_) fun b j t d he hd ↦ ?_
  · rw [hslot, if_neg]
    rintro ⟨rfl, rfl⟩
    exact hnobody m g s hg hs
  · obtain rfl := Option.some.inj hf'
    obtain ⟨rfl, hrest⟩ := Prod.mk.inj (Option.some.inj hs)
    obtain ⟨rfl, rfl⟩ := Prod.mk.inj hrest
    exact ⟨by simp [hslot], fun m g s' _ hg ↦ hnobody m g s' hg⟩
  · rw [hslot] at hr
    split_ifs at hr with hx
    · obtain ⟨rfl, rfl⟩ := hx
      exact .inr ⟨_, rfl, rfl⟩
    · exact .inl ⟨hr, by simp [hpc, Pc.slot]⟩
  · rw [hslot, if_neg]
    · exact h.blank b j hb
    · rintro ⟨rfl, -⟩
      exact absurd hlt (Nat.not_lt.mpr hb)
  · rcases update_eq_some hg with ⟨rfl, hgn⟩ | ⟨-, hg⟩
    · obtain rfl := Option.some.inj hgn
      cases hid
    · exact h.filled m g id' t d hg hid hd
  · rw [hslot] at he
    split_ifs at he
    · cases he
    · exact h.addr b j t d he hd

/-- A call stores its descriptor in its slot, or in a free one. -/
theorem publish (h : Holding w) (hd : DescInv False w owner carrier) (hf : w.calls n = some f) {id : Nat}
    {d' : ThreadDesc} (hlt : a < w.nextAlloc) (ht : f.pc.desc = some t)
    (hs : f.pc.slot = some (a, id, .reserved) ∨ f.pc.slot = none ∧ (w.threads a).slot id = none)
    (hs' : pc.slot = some (a, id, .entry t)) (haddr : d'.addr = idToAddr id) :
    Holding (((w.setDesc t (some d')).setThreads a ((w.threads a).set id (.entry t))).goto n f pc) := by
  have hslot : ∀ b j, ((((w.setDesc t (some d')).setThreads a ((w.threads a).set id (.entry t))).goto n f
      pc).threads b).slot j = if b = a ∧ j = id then some (.entry t) else (w.threads b).slot j :=
    fun b j ↦ slot_update fun k ↦ Xarray.slot_set _ _ _ _
  have hnobody : ∀ m g s, m ≠ n → w.calls m = some g → g.pc.slot ≠ some (a, id, s) := by
    intro m g s hm hg hx
    rcases hs with hs | ⟨-, hfree⟩
    · exact hm (h.unique n f m g a id _ s hf hs hg hx)
    · rw [h.slot m g a id s hg hx] at hfree
      cases hfree
  have hdescs : ∀ t' d, Function.update w.descs t (some d') t' = some d →
      t' = t ∧ d = d' ∨ t' ≠ t ∧ w.descs t' = some d := by
    intro t' d he
    refine (update_eq_some he).imp_left ?_
    rintro ⟨h₁, h₂⟩
    exact ⟨h₁, (Option.some.inj h₂).symm⟩
  refine h.step hf rfl (fun m g b j s hm hg hx ↦ ?_) (fun f' b j s hf' hx ↦ ?_) (fun b j hr ↦ ?_)
    (fun b j hb ↦ ?_) (fun m g id' t' d hg hid he ↦ ?_) fun b j t' d he hdesc ↦ ?_
  · rw [hslot, if_neg]
    rintro ⟨rfl, rfl⟩
    exact hnobody m g s hm hg hx
  · obtain rfl := Option.some.inj hf'
    obtain ⟨rfl, hrest⟩ := Prod.mk.inj (Option.some.inj (hs'.symm.trans hx))
    obtain ⟨rfl, rfl⟩ := Prod.mk.inj hrest
    exact ⟨by simp [hslot], hnobody⟩
  · rw [hslot] at hr
    split_ifs at hr with hx
    · cases hr
    refine .inl ⟨hr, fun hc ↦ ?_⟩
    rcases hs with hs | ⟨hs, -⟩
    · obtain ⟨rfl, hrest⟩ := Prod.mk.inj (Option.some.inj (hs.symm.trans hc))
      exact hx ⟨rfl, (Prod.mk.inj hrest).1.symm⟩
    · rw [hs] at hc
      cases hc
  · rw [hslot, if_neg]
    · exact h.blank b j hb
    · rintro ⟨rfl, -⟩
      exact absurd hlt (Nat.not_lt.mpr hb)
  · rcases update_eq_some hg with ⟨rfl, hgn⟩ | ⟨hm, hg⟩
    · obtain rfl := Option.some.inj hgn
      obtain ⟨rfl, rfl⟩ := Prod.mk.inj (Option.some.inj ((Pc.filled_of_slot hs').symm.trans hid))
      rcases hdescs t d he with ⟨-, rfl⟩ | ⟨hne, -⟩
      · exact haddr
      · exact absurd rfl hne
    · rcases hdescs t' d he with ⟨rfl, -⟩ | ⟨-, he⟩
      · exact absurd (hd.call_unique hf ht hg (Pc.desc_of_filled hid)) hm
      · exact h.filled m g id' t' d hg hid he
  · rw [hslot] at he
    split_ifs at he with hx
    · obtain ⟨rfl, rfl⟩ := hx
      obtain rfl := Slot.entry.inj (Option.some.inj he)
      rcases hdescs t d hdesc with ⟨-, rfl⟩ | ⟨hne, -⟩
      · exact haddr
      · exact absurd rfl hne
    · rcases hdescs t' d hdesc with ⟨rfl, -⟩ | ⟨-, hdesc⟩
      · -- the descriptor was in no slot before
        have hshown := hd.shown_of_entry hf ht he
        have hc := Pc.slot_eq_entry.mpr ⟨ht, hshown⟩
        rcases hs with hs | ⟨hs, -⟩
        · rw [hs] at hc
          cases hc
        · rw [hs] at hc
          cases hc
      · exact h.addr b j t' d he hdesc

/-- A slot is emptied: the one of the call, or one of nobody. -/
theorem erase (h : Holding w) (hf : w.calls n = some f) {id : Nat}
    (hs : (∃ s, f.pc.slot = some (a, id, s)) ∨
      f.pc.slot = none ∧ ∀ m g s, w.calls m = some g → g.pc.slot ≠ some (a, id, s))
    (hs' : pc.slot = none) (hfilled : pc.filled = none) :
    Holding ((w.setThreads a ((w.threads a).erase id)).goto n f pc) := by
  have hslot : ∀ b j, (((w.setThreads a ((w.threads a).erase id)).goto n f pc).threads b).slot j =
      if b = a ∧ j = id then none else (w.threads b).slot j :=
    fun b j ↦ slot_update fun k ↦ Xarray.slot_erase _ _ _
  refine h.step hf rfl (fun m g b j s hm hg hx ↦ ?_) (fun f' b j s hf' hx ↦ ?_) (fun b j hr ↦ ?_)
    (fun b j hb ↦ ?_) (fun m g id' t' d hg hid he ↦ ?_) fun b j t' d he hdesc ↦ ?_
  · rw [hslot, if_neg]
    rintro ⟨rfl, rfl⟩
    rcases hs with ⟨s', hs⟩ | ⟨-, hno⟩
    · exact hm (h.unique n f m g b j s' s hf hs hg hx)
    · exact hno m g s hg hx
  · obtain rfl := Option.some.inj hf'
    rw [show Frame.pc _ = pc from rfl, hs'] at hx
    cases hx
  · rw [hslot] at hr
    split_ifs at hr with hx
    refine .inl ⟨hr, fun hc ↦ ?_⟩
    rcases hs with ⟨s', hs⟩ | ⟨hs, -⟩
    · obtain ⟨rfl, hrest⟩ := Prod.mk.inj (Option.some.inj (hs.symm.trans hc))
      exact hx ⟨rfl, (Prod.mk.inj hrest).1.symm⟩
    · rw [hs] at hc
      cases hc
  · rw [hslot]
    split_ifs
    · rfl
    · exact h.blank b j hb
  · rcases update_eq_some hg with ⟨rfl, hgn⟩ | ⟨-, hg⟩
    · obtain rfl := Option.some.inj hgn
      rw [show Frame.pc _ = pc from rfl, hfilled] at hid
      cases hid
    · exact h.filled m g id' t' d hg hid he
  · rw [hslot] at he
    split_ifs at he
    exact h.addr b j t' d he hdesc

/-- **One step of a call keeps everyone responsible for their slots.** -/
theorem effect (h : Holding w) (hd : DescInv False w owner carrier) (hl : LifeInv w tokens)
    (hf : w.calls n = some f) (he : Effect w n f w') : Holding w' := by
  have hlt : ∀ b, f.pc.counted = some b → b < w.nextAlloc := fun b hb ↦ (hl.counted n f b hf hb).2.1
  have hsame : ∀ t d, w.descs t = some d → w.descs t = some d ∨
      (∀ a i, (w.threads a).slot i ≠ some (.entry t)) ∧ ∀ m g id, w'.calls m = some g → g.pc.filled ≠ some (id, t) :=
    fun _ _ hx ↦ .inl hx
  cases he with
  | leave hc hdesc ho =>
      refine h.stay hf rfl rfl rfl hsame (fun _ hx ↦ by cases hx) (fun _ _ _ hx ↦ by cases hx)
        fun _ b i hs ↦ ?_
      rw [Pc.counted_of_slot hs] at hc
      cases hc
  | move pc hc hdesc hdesc' hs ho ho' =>
      refine h.stay hf rfl rfl rfl hsame (fun f' hx ↦ ?_) (fun f' id t hx hid ↦ ?_) fun hx ↦ by cases hx
      all_goals obtain rfl := Option.some.inj hx
      · exact hs
      · rw [show Frame.pc _ = pc from rfl] at hid
        rw [Pc.desc_of_filled hid] at hdesc'
        cases hdesc'
  | get a pc hu hk hc hc' hdesc hdesc' hs ho ho' =>
      have hnone : f.pc.slot = none := by
        cases hx : f.pc.slot with
        | none => rfl
        | some x =>
            obtain ⟨b, i, s⟩ := x
            rw [Pc.counted_of_slot hx] at hc
            cases hc
      refine h.stay hf rfl rfl rfl hsame (fun f' hx ↦ ?_) (fun f' id t hx hid ↦ ?_) fun hx ↦ by cases hx
      all_goals obtain rfl := Option.some.inj hx
      · exact hs.trans hnone.symm
      · rw [show Frame.pc _ = pc from rfl] at hid
        rw [Pc.desc_of_filled hid] at hdesc'
        cases hdesc'
  | reserve a id hfree hpc => exact h.reserve hf (hlt a (by rw [hpc]; rfl)) hfree hpc
  | kmalloc pc hc hdesc hdesc' hs hfill ho ho' =>
      refine h.stay hf rfl rfl rfl (fun t d hx ↦ ?_) (fun f' hx ↦ ?_) (fun f' id t hx hid ↦ ?_)
        fun hx ↦ by cases hx
      · rcases update_eq_some hx with ⟨rfl, -⟩ | ⟨-, hx⟩
        · refine .inr ⟨fun b i hb ↦ lt_irrefl _ (hd.entry_lt hb), fun m g id hg hid ↦ ?_⟩
          rcases update_eq_some hg with ⟨rfl, hgn⟩ | ⟨-, hg⟩
          · obtain rfl := Option.some.inj hgn
            rw [show Frame.pc _ = pc from rfl, hfill] at hid
            cases hid
          · exact hd.fresh_ne hg (Pc.desc_of_filled hid)
        · exact .inl hx
      all_goals obtain rfl := Option.some.inj hx
      · exact hs
      · rw [show Frame.pc _ = pc from rfl, hfill] at hid
        cases hid
  | work pc t d d' held hc hdesc hdesc' hs hdd hfilled haddr hheld ho ho' =>
      exact h.write hd hf hdesc hs hfilled haddr hdesc'
  | publish pc a id t d d' hc hdesc hdd hs hs' haddr hheld ho ho' =>
      exact h.publish hd hf (hlt a hc) hdesc hs hs' haddr
  | settle a id t d hs hdd hheld ho =>
      refine h.stay hf rfl rfl rfl hsame (fun _ hx ↦ by cases hx) (fun _ _ _ hx ↦ by cases hx)
        fun _ b i hs' ↦ ?_
      rw [hs] at hs'
      cases hs'
  | kfree pc t hc hdesc hdesc' hs hshown hheld ho ho' =>
      refine h.stay hf rfl rfl rfl (fun t' d hx ↦ ?_) (fun f' hx ↦ ?_) (fun f' id t hx hid ↦ ?_)
        fun hx ↦ by cases hx
      · rcases update_eq_some hx with ⟨-, hx⟩ | ⟨-, hx⟩
        · cases hx
        · exact .inl hx
      all_goals obtain rfl := Option.some.inj hx
      · exact hs
      · rw [show Frame.pc _ = pc from rfl] at hid
        rw [Pc.desc_of_filled hid] at hdesc'
        cases hdesc'
  | release pc a id s hc hdesc hs hs' hfill hheld ho ho' => exact h.erase hf (.inl ⟨s, hs⟩) hs' hfill
  | take a id t hpc he hset =>
      refine h.erase hf (.inr ⟨by rw [hpc]; rfl, fun m g s hg hs ↦ ?_⟩) rfl rfl
      obtain rfl := Option.some.inj ((h.slot m g a id s hg hs).symm.trans he)
      exact hset m g hg (Pc.slot_eq_entry.mp hs).1
  | deregister a hpc =>
      refine h.stay hf rfl rfl rfl hsame (fun f' hx ↦ ?_) (fun f' id t hx hid ↦ ?_) fun hx ↦ by cases hx
      all_goals obtain rfl := Option.some.inj hx
      · rw [hpc]
        rfl
      · cases hid
  | put a hpc hk =>
      refine h.stay hf rfl rfl rfl hsame (fun _ hx ↦ by cases hx) (fun _ _ _ hx ↦ by cases hx)
        fun _ b i hs ↦ ?_
      rw [hpc] at hs
      cases hs
  | last a hpc hk =>
      refine h.stay hf rfl rfl rfl hsame (fun f' hx ↦ ?_) (fun f' id t hx hid ↦ ?_) fun hx ↦ by cases hx
      all_goals obtain rfl := Option.some.inj hx
      · rw [hpc]
        rfl
      · cases hid
  | bury a hpc =>
      refine h.stay hf rfl rfl rfl hsame (fun _ hx ↦ by cases hx) (fun _ _ _ hx ↦ by cases hx)
        fun _ b i hs ↦ ?_
      rw [hpc] at hs
      cases hs

/-- A new allocator has an empty table, as it had before. -/
theorem slot_create (h : Holding w) (b : AllocPtr) (j : Nat) :
    (Function.update w.threads w.nextAlloc .empty b).slot j = (w.threads b).slot j := by
  by_cases hb : b = w.nextAlloc
  · rw [hb, Function.update_self, h.blank w.nextAlloc j le_rfl, Xarray.slot_empty]
  · rw [Function.update_of_ne hb]

theorem create (h : Holding w) (tgid : Nat) :
    Holding { w with
      reg := Function.update w.reg tgid (some w.nextAlloc)
      tgid := Function.update w.tgid w.nextAlloc tgid
      threads := Function.update w.threads w.nextAlloc .empty
      maxId := Function.update w.maxId w.nextAlloc 0
      kref := Function.update w.kref w.nextAlloc 1
      nextAlloc := w.nextAlloc + 1 } := by
  have hslot := h.slot_create
  constructor
  · intro m g b i s hg hs
    rw [hslot]
    exact h.slot m g b i s hg hs
  · exact h.unique
  · intro b i hr
    rw [hslot] at hr
    exact h.reserver b i hr
  · intro b i hb
    rw [hslot]
    exact h.blank b i (Nat.le_of_succ_le hb)
  · exact h.filled
  · intro b i t d he hd
    rw [hslot] at he
    exact h.addr b i t d he hd

theorem enter (h : Holding w) (hd : DescInv False w owner carrier) (pid tgid : Nat) (entry : Entry) :
    Holding { w with
      calls := Function.update w.calls w.nextCall (some ⟨pid, tgid, entry.pc⟩)
      nextCall := w.nextCall + 1
      destroyed := w.destroyed ∪ entry.destroys } := by
  have hnone : entry.pc.slot = none ∧ entry.pc.filled = none := by
    cases entry <;> exact ⟨rfl, rfl⟩
  have hold : ∀ m g x, Function.update w.calls w.nextCall (some ⟨pid, tgid, entry.pc⟩) m = some g →
      g.pc.slot = some x ∨ (∃ y, g.pc.filled = some y) → w.calls m = some g := by
    intro m g x hg hx
    rcases update_eq_some hg with ⟨-, hg⟩ | ⟨-, hg⟩
    · obtain rfl := Option.some.inj hg
      rcases hx with hx | ⟨y, hx⟩
      · rw [show Frame.pc _ = entry.pc from rfl, hnone.1] at hx
        cases hx
      · rw [show Frame.pc _ = entry.pc from rfl, hnone.2] at hx
        cases hx
    · exact hg
  constructor
  · intro m g b i s hg hs
    exact h.slot m g b i s (hold m g _ hg (.inl hs)) hs
  · intro m g m' g' b i s s' hg hs hg' hs'
    exact h.unique m g m' g' b i s s' (hold m g _ hg (.inl hs)) hs (hold m' g' _ hg' (.inl hs')) hs'
  · intro b i hr
    obtain ⟨m, g, hg, hs⟩ := h.reserver b i hr
    have hm : m ≠ w.nextCall := by
      rintro rfl
      rw [hd.calls _ le_rfl] at hg
      cases hg
    exact ⟨m, g, (Function.update_of_ne hm _ _).trans hg, hs⟩
  · exact h.blank
  · intro m g id t d hg hid hdesc
    exact h.filled m g id t d (hold m g (0, 0, .reserved) hg (.inr ⟨_, hid⟩)) hid hdesc
  · exact h.addr

end Holding

end ShadowStack.Lkm.Conc
