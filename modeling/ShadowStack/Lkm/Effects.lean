import ShadowStack.Lkm.Reservation

/-!
# What a step can do

The steps of all calls, sorted by what they do to the tables, the counts and the lists: fifteen kinds.
Who wants to show that something is kept goes through these, and not through the calls.
-/

namespace ShadowStack.Lkm.Conc

open Lib

/-! ## More about where a call is -/

/-- The slot a call is responsible for, and what it has put there. -/
def Pc.slot : Pc → Option (AllocPtr × Nat × Slot Nat)
  | .allocThread a id | .allocStack a id _ | .allocMap a id _ | .allocMax a id _ | .allocStore a id _
  | .allocGlFree a id _ | .allocKfree a id _ | .allocErase a id => some (a, id, .reserved)
  | .allocRead a id t | .forkMap a id t _ | .forkMax a id t | .forkErase a id t _ =>
      some (a, id, .entry t)
  | _ => none

/-- The descriptor of a call, once its fields are written, with its id. -/
def Pc.filled : Pc → Option (Nat × Nat)
  | .allocMap _ id t | .allocMax _ id t | .allocStore _ id t | .allocRead _ id t
  | .forkMap _ id t _ | .forkMax _ id t | .forkErase _ id t _ => some (id, t)
  | _ => none

variable {w w' : World} {n : Nat} {f : Frame} {pc : Pc} {a : AllocPtr} {i t : Nat}

theorem Pc.counted_of_slot {s : Slot Nat} (h : pc.slot = some (a, i, s)) : pc.counted = some a := by
  cases pc <;> simp_all [Pc.slot, Pc.counted]

theorem Pc.slot_eq_entry : pc.slot = some (a, i, .entry t) ↔ pc.desc = some t ∧ pc.shown = some (a, i) := by
  cases pc <;> simp [Pc.slot, Pc.desc, Pc.shown]
  all_goals tauto

theorem Pc.desc_of_filled {id : Nat} (h : pc.filled = some (id, t)) : pc.desc = some t := by
  cases pc <;> simp_all [Pc.filled, Pc.desc]

theorem Pc.filled_of_slot (h : pc.slot = some (a, i, .entry t)) : pc.filled = some (i, t) := by
  cases pc <;> simp_all [Pc.slot, Pc.filled]

/-- Who is responsible for what a slot holds: a reservation is that of one call, what a call has put into
its slot is still there, and a descriptor that can be seen has the address of its slot. -/
structure Holding (w : World) : Prop where
  slot : ∀ n f a i s, w.calls n = some f → f.pc.slot = some (a, i, s) → (w.threads a).slot i = some s
  unique : ∀ n f m g a i s s', w.calls n = some f → f.pc.slot = some (a, i, s) → w.calls m = some g →
    g.pc.slot = some (a, i, s') → m = n
  reserver : ∀ a i, (w.threads a).slot i = some .reserved →
    ∃ n f, w.calls n = some f ∧ f.pc.slot = some (a, i, .reserved)
  blank : ∀ a i, w.nextAlloc ≤ a → (w.threads a).slot i = none
  filled : ∀ n f id t d, w.calls n = some f → f.pc.filled = some (id, t) → w.descs t = some d →
    d.addr = idToAddr id
  addr : ∀ a i t d, (w.threads a).slot i = some (.entry t) → w.descs t = some d → d.addr = idToAddr i

/-! ## The kinds of steps -/

/-- What step `f` of call `n` does to everything but `max_id`, the free list and the returned grants. -/
inductive Effect (w : World) (n : Nat) (f : Frame) : World → Prop
  /-- A call that has nothing returns. -/
  | leave (hc : f.pc.counted = none) (hd : f.pc.desc = none) (ho : f.pc.Ordinary) :
      Effect w n f (w.finish n)
  /-- A call without a descriptor goes on. -/
  | move (pc : Pc) (hc : pc.counted = f.pc.counted) (hd : f.pc.desc = none) (hd' : pc.desc = none)
      (hs : pc.slot = f.pc.slot) (ho : f.pc.Ordinary) (ho' : pc.Ordinary) : Effect w n f (w.goto n f pc)
  /-- `alloc_get`. -/
  | get (a : AllocPtr) (pc : Pc) (hu : f.pc.uncounted = some a) (hk : w.kref a ≠ 0)
      (hc : f.pc.counted = none) (hc' : pc.counted = some a) (hd : f.pc.desc = none)
      (hd' : pc.desc = none) (hs : pc.slot = none) (ho : f.pc.Ordinary) (ho' : pc.Ordinary) :
      Effect w n f ((w.setKref a (w.kref a + 1)).goto n f pc)
  /-- A free slot is reserved. -/
  | reserve (a : AllocPtr) (id : Nat) (hfree : (w.threads a).slot id = none)
      (hpc : f.pc = .allocReserve a) :
      Effect w n f ((w.setThreads a ((w.threads a).set id .reserved)).goto n f (.allocThread a id))
  /-- `kmalloc`. -/
  | kmalloc (pc : Pc) (hc : pc.counted = f.pc.counted) (hd : f.pc.desc = none)
      (hd' : pc.desc = some w.nextDesc) (hs : pc.slot = f.pc.slot) (hf : pc.filled = none)
      (ho : f.pc.Ordinary) (ho' : pc.Ordinary) : Effect w n f (w.kmalloc.goto n f pc)
  /-- A call works on its descriptor, and takes or gives up a pagelist. -/
  | work (pc : Pc) (t : Nat) (d d' : ThreadDesc) (held : Finset PlPtr) (hc : pc.counted = f.pc.counted)
      (hd : f.pc.desc = some t) (hd' : pc.desc = some t) (hs : pc.slot = f.pc.slot)
      (hdesc : w.descs t = some d) (hfilled : ∀ id, pc.filled = some (id, t) → d'.addr = idToAddr id)
      (haddr : ∀ a i, f.pc.shown = some (a, i) → d'.addr = idToAddr i)
      (hheld : ∀ pl ∈ held, pc.cargo d' = some pl ∨ pl ∈ w.held ∧ f.pc.cargo d ≠ some pl)
      (ho : f.pc.Ordinary) (ho' : pc.Ordinary) :
      Effect w n f { (w.setDesc t (some d')).goto n f pc with held := held }
  /-- A call stores its descriptor in a slot it has reserved, or that is free. -/
  | publish (pc : Pc) (a : AllocPtr) (id t : Nat) (d d' : ThreadDesc) (hc : f.pc.counted = some a)
      (hd : f.pc.desc = some t) (hdesc : w.descs t = some d)
      (hs : f.pc.slot = some (a, id, .reserved) ∨ f.pc.slot = none ∧ (w.threads a).slot id = none)
      (hs' : pc.slot = some (a, id, .entry t)) (haddr : d'.addr = idToAddr id)
      (hheld : ∀ pl, f.pc.cargo d = some pl → pc.cargo d' = some pl)
      (ho : f.pc.Ordinary) (ho' : pc.Ordinary) :
      Effect w n f (((w.setDesc t (some d')).setThreads a ((w.threads a).set id (.entry t))).goto n f pc)
  /-- A call returns and leaves its descriptor in the table. -/
  | settle (a : AllocPtr) (id t : Nat) (d : ThreadDesc) (hs : f.pc.slot = some (a, id, .entry t))
      (hdesc : w.descs t = some d) (hheld : ∀ pl, f.pc.cargo d = some pl → d.pagelist = pl)
      (ho : f.pc.Ordinary) : Effect w n f (w.finish n)
  /-- `kfree`. -/
  | kfree (pc : Pc) (t : Nat) (hc : pc.counted = f.pc.counted) (hd : f.pc.desc = some t)
      (hd' : pc.desc = none) (hs : pc.slot = f.pc.slot) (hshown : f.pc.shown = none)
      (hheld : ∀ d, f.pc.cargo d = none) (ho : f.pc.Ordinary) (ho' : pc.Ordinary) :
      Effect w n f ((w.setDesc t none).goto n f pc)
  /-- A call empties its slot. -/
  | release (pc : Pc) (a : AllocPtr) (id : Nat) (s : Slot Nat) (hc : pc.counted = f.pc.counted)
      (hd : pc.desc = f.pc.desc) (hs : f.pc.slot = some (a, id, s)) (hs' : pc.slot = none)
      (hf : pc.filled = none)
      (hheld : ∀ d pl, f.pc.cargo d = some pl → pc.cargo d = some pl) (ho : f.pc.Ordinary)
      (ho' : pc.Ordinary) :
      Effect w n f ((w.setThreads a ((w.threads a).erase id)).goto n f pc)
  /-- `sa_free` takes a descriptor that no call works on. -/
  | take (a : AllocPtr) (id t : Nat) (hpc : f.pc = .freeErase a id)
      (he : (w.threads a).slot id = some (.entry t)) (hset : w.Settled t) :
      Effect w n f ((w.setThreads a ((w.threads a).erase id)).goto n f (.freeUnmap a t))
  /-- `alloc_destroy` ends the registration. -/
  | deregister (a : AllocPtr) (hpc : f.pc = .destroyErase a) :
      Effect w n f { w.goto n f (.put a) with reg := Function.update w.reg (w.tgid a) none }
  /-- `alloc_put`, -/
  | put (a : AllocPtr) (hpc : f.pc = .put a) (hk : w.kref a ≠ 1) :
      Effect w n f ((w.setKref a (w.kref a - 1)).finish n)
  /-- of the last reference. -/
  | last (a : AllocPtr) (hpc : f.pc = .put a) (hk : w.kref a = 1) :
      Effect w n f ((w.setKref a 0).goto n f (.callback a))
  /-- `alloc_destroy_callback`. -/
  | bury (a : AllocPtr) (hpc : f.pc = .callback a) :
      Effect w n f { w.finish n with dead := insert a w.dead }

/-- The rest of the state. -/
structure Alike (w w' : World) : Prop where
  reg : w'.reg = w.reg
  tgid : w'.tgid = w.tgid
  threads : w'.threads = w.threads
  kref : w'.kref = w.kref
  nextAlloc : w'.nextAlloc = w.nextAlloc
  descs : w'.descs = w.descs
  nextDesc : w'.nextDesc = w.nextDesc
  held : w'.held = w.held
  calls : w'.calls = w.calls
  destroyed : w'.destroyed = w.destroyed
  dead : w'.dead = w.dead

theorem Alike.refl (w : World) : Alike w w := ⟨rfl, rfl, rfl, rfl, rfl, rfl, rfl, rfl, rfl, rfl, rfl⟩

theorem Alike.goto (h : Alike w w') (n : Nat) (f : Frame) (pc : Pc) :
    Alike (w.goto n f pc) (w'.goto n f pc) :=
  { h with calls := by rw [World.goto, World.goto, h.calls] }

theorem alike_glFree (w : World) (pl : PlPtr) : Alike { w with held := w.held.erase pl } (w.glFree pl) := by
  unfold World.glFree
  split
  · exact .refl _
  · exact ⟨rfl, rfl, rfl, rfl, rfl, rfl, rfl, rfl, rfl, rfl, rfl⟩

theorem alike_glAllocStack {ok : Bool} {pl : PlPtr} (hs : w.glAllocStack ok = some (pl, w')) :
    Alike { w with held := insert pl w.held } w' := by
  unfold World.glAllocStack at hs
  split at hs
  · obtain ⟨rfl, rfl⟩ := Prod.mk.inj (Option.some.inj hs)
    exact ⟨rfl, rfl, rfl, rfl, rfl, rfl, rfl, rfl, rfl, rfl, rfl⟩
  · split_ifs at hs
    obtain ⟨rfl, rfl⟩ := Prod.mk.inj (Option.some.inj hs)
    exact ⟨rfl, rfl, rfl, rfl, rfl, rfl, rfl, rfl, rfl, rfl, rfl⟩

/-- The step of a call is one of the kinds. -/
def Does (w : World) (n : Nat) (f : Frame) (w' : World) : Prop :=
  ∃ w₁, Effect w n f w₁ ∧ Alike w₁ w'

theorem Effect.does (h : Effect w n f w') : Does w n f w' := ⟨w', h, .refl _⟩

variable {owner : Nat → DescOwner} {carrier : PlPtr → Option Nat}

/-! ## The steps of the calls -/

/-- A call goes on with its descriptor as it is. -/
theorem Holding.does_work (h : Holding w) (hf : w.calls n = some f) (pc : Pc) {d : ThreadDesc}
    (hc : pc.counted = f.pc.counted) (hd : f.pc.desc = some t) (hd' : pc.desc = some t)
    (hs : pc.slot = f.pc.slot) (hdesc : w.descs t = some d)
    (hfilled : ∀ id, pc.filled = some (id, t) → f.pc.filled = some (id, t))
    (hcargo : ∀ pl, f.pc.cargo d = some pl → pc.cargo d = some pl)
    (ho : f.pc.Ordinary) (ho' : pc.Ordinary) (hw : Alike (w.goto n f pc) w') : Does w n f w' := by
  refine ⟨_, .work pc t d d w.held hc hd hd' hs hdesc
    (fun id hid ↦ h.filled n f id t d hf (hfilled id hid) hdesc) (fun a i hsh ↦ ?_) (fun pl hpl ↦ ?_) ho ho', ?_⟩
  · exact h.filled n f i t d hf (Pc.filled_of_slot (Pc.slot_eq_entry.mpr ⟨hd, hsh⟩)) hdesc
  · by_cases hx : f.pc.cargo d = some pl
    · exact .inl (hcargo pl hx)
    · exact .inr ⟨hpl, hx⟩
  · refine { hw with descs := hw.descs.trans ?_ }
    exact (Function.update_eq_self_iff.mpr hdesc.symm).symm

/-- A call passes its pagelist to `gl_free`. -/
theorem DescInv.does_glFree (h : DescInv False w owner carrier) (hf : w.calls n = some f) (pc : Pc) {pl : PlPtr}
    (hc : pc.counted = f.pc.counted) (hd : f.pc.desc = some t) (hd' : pc.desc = some t)
    (hs : pc.slot = f.pc.slot) (hshown : f.pc.shown = none) (hfilled : pc.filled = none)
    (hcargo : ∀ d, w.descs t = some d → f.pc.cargo d = some pl)
    (ho : f.pc.Ordinary) (ho' : pc.Ordinary) : Does w n f ((w.glFree pl).goto n f pc) := by
  obtain ⟨-, d, hdesc, -, -⟩ := h.frame n f t hf hd
  refine ⟨_, .work pc t d d (w.held.erase pl) hc hd hd' hs hdesc (fun id hid ↦ ?_) (fun a i hsh ↦ ?_)
    (fun p hp ↦ .inr ⟨Finset.mem_of_mem_erase hp, fun hx ↦ ?_⟩) ho ho', ?_⟩
  · rw [hfilled] at hid
    cases hid
  · rw [hshown] at hsh
    cases hsh
  · rw [hcargo d hdesc] at hx
    exact Finset.ne_of_mem_erase hp (Option.some.inj hx).symm
  · refine { (alike_glFree w pl).goto n f pc with descs := ?_ }
    exact ((alike_glFree w pl).descs).trans (Function.update_eq_self_iff.mpr hdesc.symm).symm

/-- A call gets a pagelist from `gl_alloc_stack`. -/
theorem DescInv.does_glAllocStack (h : DescInv False w owner carrier) (hf : w.calls n = some f) (pc : Pc)
    {ok : Bool} {pl : PlPtr} {w₂ : World} (hs : w.glAllocStack ok = some (pl, w₂)) (d' : ThreadDesc)
    (hc : pc.counted = f.pc.counted) (hd : f.pc.desc = some t) (hd' : pc.desc = some t)
    (hslot : pc.slot = f.pc.slot) (hshown : f.pc.shown = none)
    (hfilled : ∀ id, pc.filled = some (id, t) → d'.addr = idToAddr id)
    (hnone : ∀ d, f.pc.cargo d = none) (hcargo : pc.cargo d' = some pl)
    (ho : f.pc.Ordinary) (ho' : pc.Ordinary) : Does w n f ((w₂.setDesc t (some d')).goto n f pc) := by
  obtain ⟨-, d, hdesc, -, -⟩ := h.frame n f t hf hd
  have ha := alike_glAllocStack hs
  refine ⟨_, .work pc t d d' (insert pl w.held) hc hd hd' hslot hdesc hfilled (fun a i hsh ↦ ?_)
    (fun p hp ↦ ?_) ho ho', ?_⟩
  · rw [hshown] at hsh
    cases hsh
  · rcases Finset.mem_insert.mp hp with rfl | hp
    · exact .inl hcargo
    · exact .inr ⟨hp, by simp [hnone]⟩
  · have hg := ha.goto n f pc
    refine { hg with descs := ?_ }
    change Function.update w₂.descs t _ = Function.update w.descs t _
    rw [ha.descs]

/-- The call a step belongs to, with `alloc_destroy` and the end of each call under `sa_free`. -/
inductive Kind where
  | alloc
  | fork
  | free
deriving DecidableEq, Repr

def Pc.kind : Pc → Kind
  | .allocFind | .allocGet _ | .allocReserve _ | .allocThread _ _ | .allocStack _ _ _
  | .allocMap _ _ _ | .allocMax _ _ _ | .allocStore _ _ _ | .allocRead _ _ _
  | .allocGlFree _ _ _ | .allocKfree _ _ _ | .allocErase _ _ => .alloc
  | .forkFind _ _ | .forkGet _ _ _ | .forkParent _ _ _ | .forkThread _ _ _ | .forkStack _ _ _ _
  | .forkScan _ _ _ _ _ _ | .forkInsert _ _ _ _ | .forkMap _ _ _ _ | .forkMax _ _ _
  | .forkErase _ _ _ _ | .forkGlFree _ _ _ | .forkKfree _ _ => .fork
  | _ => .free

theorem Holding.does_alloc (h : Holding w) (hd : DescInv False w owner carrier) {ans : Answer}
    (hf : w.calls n = some f) (hk : f.pc.kind = .alloc) : Does w n f (stepCall w n f ans) := by
  obtain ⟨pid, tgid, pc⟩ := f
  cases pc with
  | allocFind =>
      simp only [stepCall, stepAlloc]
      split
      · exact Effect.does (.leave rfl rfl trivial)
      · exact Effect.does (.move _ rfl rfl rfl rfl trivial trivial)
  | allocGet a =>
      simp only [stepCall, stepAlloc]
      split
      · exact Effect.does (.leave rfl rfl trivial)
      · next hk => exact Effect.does (.get a _ rfl hk rfl rfl rfl rfl rfl trivial trivial)
  | allocReserve a =>
      simp only [stepCall, stepAlloc]
      split
      · exact Effect.does (.move _ rfl rfl rfl rfl trivial trivial)
      · next id hid =>
          split
          · exact Effect.does (.reserve a id (Xarray.lowestFree_eq_some hid).2.2.1 rfl)
          · exact Effect.does (.move _ rfl rfl rfl rfl trivial trivial)
  | allocThread a id =>
      simp only [stepCall, stepAlloc]
      split
      · exact Effect.does (.kmalloc _ rfl rfl rfl rfl rfl trivial trivial)
      · exact Effect.does (.move _ rfl rfl rfl rfl trivial trivial)
  | allocStack a id t =>
      obtain ⟨-, d, hdesc, -, -⟩ := hd.frame n _ t hf rfl
      simp only [stepCall, stepAlloc]
      split
      · exact h.does_work hf (.allocKfree a id t) rfl rfl rfl rfl hdesc (fun _ hx ↦ by cases hx)
          (fun _ hx ↦ by cases hx) trivial trivial (.refl _)
      · next pl w₂ hs =>
          exact hd.does_glAllocStack hf (.allocMap a id t) hs _ rfl rfl rfl rfl rfl
            (fun id' hx ↦ by rw [(Prod.mk.inj (Option.some.inj hx)).1]) (fun _ ↦ rfl) rfl trivial trivial
  | allocMap a id t =>
      obtain ⟨-, d, hdesc, -, -⟩ := hd.frame n _ t hf rfl
      simp only [stepCall, stepAlloc]
      split
      · exact h.does_work hf (.allocMax a id t) rfl rfl rfl rfl hdesc (fun _ hx ↦ hx) (fun _ hx ↦ hx)
          trivial trivial (.refl _)
      · exact h.does_work hf (.allocGlFree a id t) rfl rfl rfl rfl hdesc (fun _ hx ↦ by cases hx)
          (fun _ hx ↦ hx) trivial trivial (.refl _)
  | allocMax a id t =>
      obtain ⟨-, d, hdesc, -, -⟩ := hd.frame n _ t hf rfl
      exact h.does_work hf (.allocStore a id t) rfl rfl rfl rfl hdesc (fun _ hx ↦ hx) (fun _ hx ↦ hx)
        trivial trivial ⟨rfl, rfl, rfl, rfl, rfl, rfl, rfl, rfl, rfl, rfl, rfl⟩
  | allocStore a id t =>
      obtain ⟨-, d, hdesc, -, -⟩ := hd.frame n _ t hf rfl
      -- the slot is reserved, so the store cannot fail
      have hres := h.slot n _ a id .reserved hf rfl
      have hok : (ans.ok || ((w.threads a).slot id).isSome) = true := by simp [hres]
      simp only [stepCall, stepAlloc, hok, ↓reduceIte]
      refine ⟨_, .publish (.allocRead a id t) a id t d d rfl rfl hdesc (.inl rfl) rfl
        (h.filled n _ id t d hf rfl hdesc) (fun _ hx ↦ hx) trivial trivial, ?_⟩
      refine { Alike.refl _ with descs := ?_ }
      exact (Function.update_eq_self_iff.mpr hdesc.symm).symm
  | allocRead a id t =>
      obtain ⟨-, d, hdesc, -, -⟩ := hd.frame n _ t hf rfl
      exact ⟨_, .settle a id t d rfl hdesc (fun pl hx ↦ Option.some.inj hx) trivial,
        ⟨rfl, rfl, rfl, rfl, rfl, rfl, rfl, rfl, rfl, rfl, rfl⟩⟩
  | allocGlFree a id t =>
      obtain ⟨-, d, hdesc, -, -⟩ := hd.frame n _ t hf rfl
      have hpl : w.pagelist t ans.stale = d.pagelist := by rw [World.pagelist, hdesc]
      simp only [stepCall, stepAlloc, hpl]
      refine hd.does_glFree hf (.allocKfree a id t) rfl rfl rfl rfl rfl rfl (fun d' hd' ↦ ?_) trivial trivial
      rw [Option.some.inj (hdesc.symm.trans hd')]
      rfl
  | allocKfree a id t =>
      exact Effect.does (.kfree _ t rfl rfl rfl rfl rfl (fun _ ↦ rfl) trivial trivial)
  | allocErase a id =>
      exact Effect.does (.release _ a id .reserved rfl rfl rfl rfl rfl (fun _ _ hx ↦ by cases hx)
        trivial trivial)
  | _ => cases hk

theorem Holding.does_fork (h : Holding w) (hd : DescInv False w owner carrier) {ans : Answer}
    (hf : w.calls n = some f) (hk : f.pc.kind = .fork) : Does w n f (stepCall w n f ans) := by
  obtain ⟨pid, tgid, pc⟩ := f
  cases pc with
  | forkFind pt pp =>
      simp only [stepCall, stepFork]
      split
      · exact Effect.does (.leave rfl rfl trivial)
      · exact Effect.does (.move _ rfl rfl rfl rfl trivial trivial)
  | forkGet a pt pp =>
      simp only [stepCall, stepFork]
      split
      · exact Effect.does (.leave rfl rfl trivial)
      · next hk => exact Effect.does (.get a _ rfl hk rfl rfl rfl rfl rfl trivial trivial)
  | forkParent a pt pp =>
      simp only [stepCall, stepFork]
      split
      · exact Effect.does (.move _ rfl rfl rfl rfl trivial trivial)
      · exact Effect.does (.move _ rfl rfl rfl rfl trivial trivial)
  | forkThread a parent pp =>
      simp only [stepCall, stepFork]
      split
      · exact Effect.does (.kmalloc _ rfl rfl rfl rfl rfl trivial trivial)
      · exact Effect.does (.move _ rfl rfl rfl rfl trivial trivial)
  | forkStack a parent pp t =>
      obtain ⟨-, d, hdesc, -, -⟩ := hd.frame n _ t hf rfl
      simp only [stepCall, stepFork]
      split
      · exact h.does_work hf (.forkKfree a t) rfl rfl rfl rfl hdesc (fun _ hx ↦ by cases hx)
          (fun _ hx ↦ by cases hx) trivial trivial (.refl _)
      · next pl w₂ hs =>
          have ha := alike_glAllocStack hs
          have hdoes := hd.does_glAllocStack hf (.forkScan a parent pp t pl .lock) hs d rfl rfl rfl rfl rfl
            (fun id' hx ↦ by cases hx) (fun _ ↦ rfl) rfl trivial trivial
          rwa [World.setDesc, Function.update_eq_self_iff.mpr (by rw [ha.descs, hdesc])] at hdoes
  | forkScan a parent pp t pl s =>
      obtain ⟨-, d, hdesc, -, -⟩ := hd.frame n _ t hf rfl
      simp only [stepCall, stepFork]
      obtain ⟨s', heq⟩ | heq | ⟨id, heq⟩ := w.scan_cases a parent pp t pl ans.stale s
      all_goals rw [heq]
      · exact h.does_work hf (.forkScan a parent pp t pl s') rfl rfl rfl rfl hdesc (fun _ hx ↦ by cases hx)
          (fun _ hx ↦ hx) trivial trivial (.refl _)
      · exact h.does_work hf (.forkGlFree a t pl) rfl rfl rfl rfl hdesc (fun _ hx ↦ by cases hx)
          (fun _ hx ↦ hx) trivial trivial (.refl _)
      · exact h.does_work hf (.forkInsert a id t pl) rfl rfl rfl rfl hdesc (fun _ hx ↦ by cases hx)
          (fun _ hx ↦ hx) trivial trivial (.refl _)
  | forkInsert a id t pl =>
      obtain ⟨-, d, hdesc, -, -⟩ := hd.frame n _ t hf rfl
      simp only [stepCall, stepFork]
      split
      · next hok =>
          have hfree : (w.threads a).slot id = none := by
            simp only [Bool.and_eq_true, Option.isNone_iff_eq_none] at hok
            exact hok.2
          exact Effect.does (.publish (.forkMap a id t pl) a id t d ⟨pid, idToAddr id, pl⟩ rfl rfl hdesc
            (.inr ⟨rfl, hfree⟩) rfl rfl (fun _ hx ↦ hx) trivial trivial)
      · refine Effect.does (.work (.forkGlFree a t pl) t d ⟨pid, idToAddr id, pl⟩ w.held rfl rfl rfl rfl hdesc
          (fun _ hx ↦ by cases hx) (fun _ _ hx ↦ by cases hx) (fun q hq ↦ ?_) trivial trivial)
        by_cases hx : q = pl
        · exact .inl (congrArg some hx.symm)
        · exact .inr ⟨hq, fun hc ↦ hx (Option.some.inj hc).symm⟩
  | forkMap a id t pl =>
      obtain ⟨-, d, hdesc, -, hst⟩ := hd.frame n _ t hf rfl
      simp only [stepCall, stepFork]
      split
      · refine h.does_work hf (.forkMax a id t) rfl rfl rfl rfl hdesc (fun _ hx ↦ hx) (fun q hx ↦ ?_)
          trivial trivial (.refl _)
        rw [← hx]
        exact congrArg some (hst pl rfl)
      · exact h.does_work hf (.forkErase a id t pl) rfl rfl rfl rfl hdesc (fun _ hx ↦ hx) (fun _ hx ↦ hx)
          trivial trivial (.refl _)
  | forkMax a id t =>
      obtain ⟨-, d, hdesc, -, -⟩ := hd.frame n _ t hf rfl
      exact ⟨_, .settle a id t d rfl hdesc (fun pl hx ↦ Option.some.inj hx) trivial,
        ⟨rfl, rfl, rfl, rfl, rfl, rfl, rfl, rfl, rfl, rfl, rfl⟩⟩
  | forkErase a id t pl =>
      exact Effect.does (.release _ a id (.entry t) rfl rfl rfl rfl rfl (fun _ _ hx ↦ hx) trivial trivial)
  | forkGlFree a t pl =>
      exact hd.does_glFree hf (.forkKfree a t) rfl rfl rfl rfl rfl rfl (fun _ _ ↦ rfl) trivial trivial
  | forkKfree a t =>
      exact Effect.does (.kfree _ t rfl rfl rfl rfl rfl (fun _ ↦ rfl) trivial trivial)
  | _ => cases hk

theorem World.setThreads_erase_free {id : Nat} (h : (w.threads a).slot id = none) :
    w.setThreads a ((w.threads a).erase id) = w := by
  have hx : (w.threads a).erase id = w.threads a := by
    apply Xarray.ext_slot
    intro j
    by_cases hj : j = id
    · simp [hj, h]
    · simp [hj]
  rw [World.setThreads, hx, Function.update_eq_self]

theorem Holding.does_free (h : Holding w) (hd : DescInv False w owner carrier) {ans : Answer}
    (hf : w.calls n = some f) (hk : f.pc.kind = .free) (hund : Undisturbed w (.step n ans))
    (hspare : Spares w (.step n ans)) : Does w n f (stepCall w n f ans) := by
  obtain ⟨pid, tgid, pc⟩ := f
  cases pc with
  | freeFind addr =>
      simp only [stepCall, stepFree]
      split
      · exact Effect.does (.leave rfl rfl trivial)
      · split
        · exact Effect.does (.leave rfl rfl trivial)
        · exact Effect.does (.move _ rfl rfl rfl rfl trivial trivial)
  | freeErase a id =>
      simp only [stepCall, stepFree]
      split_ifs
      · exact Effect.does (.move _ rfl rfl rfl rfl trivial trivial)
      · split
        · next hload =>
            have hfree : (w.threads a).slot id = none := by
              cases hs : (w.threads a).slot id with
              | none => rfl
              | some s =>
                  cases s with
                  | reserved => exact absurd hs (hspare _ a id hf rfl)
                  | entry t =>
                      rw [Xarray.load_eq_some.mpr hs] at hload
                      cases hload
            rw [World.setThreads_erase_free hfree]
            exact Effect.does (.leave rfl rfl trivial)
        · next t hload =>
            exact ⟨_, .take a id t rfl (Xarray.load_eq_some.mp hload) (hund _ a id t hf rfl hload),
              ⟨rfl, rfl, rfl, rfl, rfl, rfl, rfl, rfl, rfl, rfl, rfl⟩⟩
  | freeUnmap a t =>
      obtain ⟨-, d, hdesc, -, -⟩ := hd.frame n _ t hf rfl
      exact h.does_work hf (.freeGlFree a t) rfl rfl rfl rfl hdesc (fun _ hx ↦ by cases hx) (fun _ hx ↦ hx)
        trivial trivial (.refl _)
  | freeGlFree a t =>
      obtain ⟨-, d, hdesc, -, -⟩ := hd.frame n _ t hf rfl
      have hpl : w.pagelist t ans.stale = d.pagelist := by rw [World.pagelist, hdesc]
      simp only [stepCall, stepFree, hpl]
      refine hd.does_glFree hf (.freeKfree a t) rfl rfl rfl rfl rfl rfl (fun d' hd' ↦ ?_) trivial trivial
      rw [Option.some.inj (hdesc.symm.trans hd')]
      rfl
  | freeKfree a t =>
      exact Effect.does (.kfree _ t rfl rfl rfl rfl rfl (fun _ ↦ rfl) trivial trivial)
  | destroyErase a => exact Effect.does (.deregister a rfl)
  | put a =>
      simp only [stepCall, stepFree]
      split
      · next hk => exact Effect.does (.last a rfl hk)
      · next hk => exact Effect.does (.put a rfl hk)
  | callback a => exact Effect.does (.bury a rfl)
  | _ => cases hk

/-- **Every step is one of the kinds**, unless `sa_free` takes what another call works on or has
reserved. -/
theorem Holding.does (h : Holding w) (hd : DescInv False w owner carrier) {ans : Answer}
    (hf : w.calls n = some f) (hund : Undisturbed w (.step n ans)) (hspare : Spares w (.step n ans)) :
    Does w n f (stepCall w n f ans) := by
  cases hk : f.pc.kind with
  | alloc => exact h.does_alloc hd hf hk
  | fork => exact h.does_fork hd hf hk
  | free => exact h.does_free hd hf hk hund hspare

end ShadowStack.Lkm.Conc
