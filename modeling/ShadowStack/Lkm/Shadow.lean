import ShadowStack.Lkm.ForkCopy

/-!
# Shadow memory as processes see it

What the module is for, without pages, tables and reference counts: a process has numbered areas, a
new one is zero or a copy of another, and what is stored in an area is what is loaded from it later,
whatever other processes do.  `Shadow` is the memory of that description and `Shadow.Step` its
steps.

`State.shadow` reads such a memory off the state of the module, and `Backed` is what ties the two
together: every live area is mapped, page after page, to the pages of its descriptor.
-/

namespace ShadowStack.Lkm

open Lib State

/-! ## The abstract memory -/

/-- An area: the thread it is for, and its bytes by offset. -/
@[ext] structure Area where
  tid : Nat
  bytes : Nat → UInt8

/-- The allocators of processes, and their areas by id. -/
@[ext] structure Shadow where
  allocator : Nat → Option AllocPtr
  area : Nat → Nat → Option Area

/-- What happens to shadow memory: a call that got a reply, or a byte stored or loaded by a process. -/
inductive Action where
  | call (e : Event) (r : Reply)
  | store (g a : Nat) (v : UInt8)
  | load (g a : Nat) (v : UInt8)

/-- Address `a` lies in the area of an id. -/
def InArea (id a : Nat) : Prop := idToAddr id ≤ a ∧ a < idToAddr id + ssSize

namespace Shadow

/-- No process has an allocator. -/
def empty : Shadow := ⟨fun _ ↦ none, fun _ _ ↦ none⟩

/-- Replace one area. -/
def setArea (m : Shadow) (g id : Nat) (x : Option Area) : Shadow :=
  { m with area := Function.update m.area g (Function.update (m.area g) id x) }

@[simp] theorem setArea_area (m : Shadow) (g id : Nat) (x : Option Area) (g' i : Nat) :
    (m.setArea g id x).area g' i = if g' = g ∧ i = id then x else m.area g' i := by
  unfold setArea
  by_cases hg : g' = g
  · subst hg
    by_cases hi : i = id <;> simp [hi]
  · simp [hg]

/-- What a call does that replies 0.  `sa_fork` takes the area with the lowest id among those that are
for the thread it names. -/
def Effect (m : Shadow) (cur : Task) (r : Reply) (m' : Shadow) : Call → Prop
  | .allocCreate tgid _ => m' = m ∨ m.allocator tgid = none ∧ (∀ id, m.area tgid id = none) ∧
      ∃ a, m' = { m with allocator := Function.update m.allocator tgid (some a) }
  | .allocDestroy a => m' = m ∨ ∃ g, m.allocator g = some a ∧
      m' = ⟨Function.update m.allocator g none, Function.update m.area g fun _ ↦ none⟩
  | .saAlloc => ∃ id, r.addr = some (idToAddr id) ∧ m.allocator cur.tgid ≠ none ∧
      m.area cur.tgid id = none ∧ m' = m.setArea cur.tgid id (some ⟨cur.pid, fun _ ↦ 0⟩)
  | .saFork pt pp => ∃ id x, m.area pt id = some x ∧ x.tid = pp ∧
      (∀ i y, m.area pt i = some y → y.tid = pp → id ≤ i) ∧ m.allocator cur.tgid ≠ none ∧
      m.area cur.tgid id = none ∧ m' = m.setArea cur.tgid id (some ⟨cur.pid, x.bytes⟩)
  | .saFree addr => ValidAddr addr ∧ m.area cur.tgid (addrToId addr) ≠ none ∧
      m' = m.setArea cur.tgid (addrToId addr) none
  | .vmaFree => m' = m

/-- One step.  A call that fails changes nothing; an access is to an area of the process, and what is
loaded is what the area holds. -/
def Step (m : Shadow) : Action → Shadow → Prop
  | .call e r, m' => if r.err = none then m.Effect e.cur r m' e.call else m' = m
  | .store g a v, m' => ∃ id x, m.area g id = some x ∧ InArea id a ∧
      m' = m.setArea g id (some { x with bytes := Function.update x.bytes (a - idToAddr id) v })
  | .load g a v, m' => ∃ id x, m.area g id = some x ∧ InArea id a ∧ x.bytes (a - idToAddr id) = v ∧
      m' = m

/-- A call that replies 0. -/
theorem Step.ok {m m' : Shadow} {e : Event} {r : Reply} (hr : r.err = none)
    (h : m.Effect e.cur r m' e.call) : m.Step (.call e r) m' := by
  rw [Step, if_pos hr]
  exact h

/-- A call that fails. -/
theorem Step.failed {m m' : Shadow} {e : Event} {r : Reply} (hr : r.err ≠ none) (h : m' = m) :
    m.Step (.call e r) m' := by
  rw [Step, if_neg hr]
  exact h

end Shadow

/-! ## The memory of a state -/

namespace State

/-- The descriptor of process `g` at an id. -/
def desc (s : State) (g id : Nat) : Option ThreadDesc :=
  (s.allocFind g).bind fun a ↦ (s.threads a).load id

/-- The byte at an offset of a pagelist. -/
def byteOf (s : State) (pl : PlPtr) (off : Nat) : UInt8 :=
  match (s.pagesOf pl)[off / pageSize]? with
  | some p => s.data p (off % pageSize)
  | none => 0

/-- The abstract memory that a state of the module stands for. -/
def shadow (s : State) : Shadow where
  allocator := s.allocFind
  area g id := (s.desc g id).map fun t ↦ ⟨t.tid, s.byteOf t.pagelist⟩

/-- A byte stored in a page. -/
def storeByte (s : State) (p : Page) (off : Nat) (v : UInt8) : State :=
  { s with data := Function.update s.data p (Function.update (s.data p) off v) }

end State

/-- One step of the machine: a complete call, or an access of a process through its page tables. -/
inductive MemStep (mmOf : Nat → MmId) (s : State) : Action → State → Prop
  | call (e : Event) : MemStep mmOf s (.call e (exec s e).1) (exec s e).2
  | store {g a : Nat} {v : UInt8} {p : Page} (h : (s.mms (mmOf g)).pteAt s.l5 a = .present p) :
      MemStep mmOf s (.store g a v) (s.storeByte p (a % pageSize) v)
  | load {g a : Nat} {v : UInt8} (h : s.read (mmOf g) a = some v) : MemStep mmOf s (.load g a v) s

/-- An admissible call by a process on its own address space. -/
structure OwnCall (mmOf : Nat → MmId) (s : State) (e : Event) : Prop where
  adm : Admissible s e
  mm : ∀ mm, e.cur.mm = some mm → mm = mmOf e.cur.tgid
  create : ∀ tgid mm, e.call = .allocCreate tgid (some mm) → mm = mmOf tgid

/-- Calls are on the process's own address space, accesses are to its live areas. -/
def Proper (mmOf : Nat → MmId) (s : State) : Action → Prop
  | .call e _ => OwnCall mmOf s e
  | .store g a _ | .load g a _ => ∃ id t, s.Live g id t ∧ InArea id a

variable {s s' s₁ : State} {mmOf : Nat → MmId} {pl : PlPtr} {ans : Answers} {g id : Nat} {t : ThreadDesc}

theorem State.desc_eq_some : s.desc g id = some t ↔ s.Live g id t := by
  unfold desc Live
  cases s.allocFind g with
  | none => simp
  | some a =>
      cases hd : s.allocs a with
      | none => simp [threads, hd]
      | some d => simp [threads, hd]

theorem State.area_eq_some {x : Area} :
    s.shadow.area g id = some x ↔ ∃ t, s.Live g id t ∧ x = ⟨t.tid, s.byteOf t.pagelist⟩ := by
  unfold shadow
  rw [Option.map_eq_some_iff]
  exact exists_congr fun t ↦ and_congr desc_eq_some eq_comm

theorem State.Live.area (h : s.Live g id t) :
    s.shadow.area g id = some ⟨t.tid, s.byteOf t.pagelist⟩ :=
  area_eq_some.mpr ⟨t, h, rfl⟩

theorem State.area_eq_none : s.shadow.area g id = none ↔ ∀ t, ¬ s.Live g id t := by
  unfold shadow
  rw [Option.map_eq_none_iff, Option.eq_none_iff_forall_ne_some]
  exact forall_congr' fun t ↦ not_congr desc_eq_some

/-- The bytes of a pagelist are those of its pages. -/
theorem State.byteOf_congr (hpages : s'.pagesOf pl = s.pagesOf pl)
    (hdata : ∀ p ∈ s.pagesOf pl, s'.data p = s.data p) : s'.byteOf pl = s.byteOf pl := by
  funext off
  unfold byteOf
  rw [hpages]
  cases hp : (s.pagesOf pl)[off / pageSize]? with
  | none => rfl
  | some p => exact congrFun (hdata p (List.mem_of_getElem? hp)) _

/-- An area is the same if its descriptor, its pages and their contents are. -/
theorem State.area_congr (hlive : ∀ t, s'.Live g id t ↔ s.Live g id t)
    (hpages : ∀ t, s.Live g id t → s'.pagesOf t.pagelist = s.pagesOf t.pagelist)
    (hdata : ∀ t, s.Live g id t → ∀ p ∈ s.pagesOf t.pagelist, s'.data p = s.data p) :
    s'.shadow.area g id = s.shadow.area g id := by
  ext x
  simp only [area_eq_some, hlive]
  refine exists_congr fun t ↦ and_congr_right fun ht ↦ ?_
  rw [byteOf_congr (hpages t ht) (hdata t ht)]

/-- A memory that differs from another in one area. -/
theorem State.shadow_eq_setArea {x : Option Area} (hfind : s'.allocFind = s.allocFind)
    (hself : s'.shadow.area g id = x)
    (hrest : ∀ g' i, ¬ (g' = g ∧ i = id) → s'.shadow.area g' i = s.shadow.area g' i) :
    s'.shadow = s.shadow.setArea g id x := by
  refine Shadow.ext hfind (funext fun g' ↦ funext fun i ↦ ?_)
  rw [Shadow.setArea_area]
  split
  · next h => rw [h.1, h.2, hself]
  · next h => exact hrest _ _ h

/-- A memory that does not differ from another. -/
theorem State.shadow_congr (hfind : s'.allocFind = s.allocFind)
    (harea : ∀ g i, s'.shadow.area g i = s.shadow.area g i) : s'.shadow = s.shadow :=
  Shadow.ext hfind (funext fun g ↦ funext fun i ↦ harea g i)

/-! ## The invariant -/

/-- The pages on the free list are clear. -/
def State.Zeroed (s : State) : Prop := ∀ q ∈ s.glSa, ∀ p ∈ s.pagesOf q, s.data p = fun _ ↦ 0

/-- The area of a descriptor is mapped, page after page. -/
def State.Mapped (s : State) (mm : MmId) (id : Nat) (t : ThreadDesc) : Prop :=
  ∀ off < ssSize, ∃ p, (s.pagesOf t.pagelist)[off / pageSize]? = some p ∧
    (s.mms mm).pteAt s.l5 (idToAddr id + off) = .present p

/-- Every live area is backed by its own pages, and free pages are clear. -/
structure Backed (mmOf : Nat → MmId) (s : State) : Prop where
  inv : Inv Set.univ s []
  zeroed : s.Zeroed
  mapped : ∀ g id t, s.Live g id t → s.Mapped (mmOf g) id t
  mm : ∀ g a d m, s.allocFind g = some a → s.allocs a = some d → d.mm = some m → m = mmOf g

/-- The state of a call that obtained the pagelist `pl`, with the pages of live areas as they were and
those still free clear. -/
structure Taken (s s₁ : State) (pl : PlPtr) : Prop extends Prepared Set.univ s s₁ pl where
  data : ∀ g id t, s.Live g id t → ∀ p ∈ s.pagesOf t.pagelist, s₁.data p = s.data p
  zeroed : s₁.Zeroed

theorem State.Live.le (h : s.Live g id t) (hinv : AllocOk s) : id ≤ threadsLimit := by
  obtain ⟨a, d, -, hd, ht⟩ := h
  exact hinv.bound a d id t hd ht

/-- The pages of live descriptors are held. -/
theorem State.Live.held (h : s.Live g id t) (hinv : Inv Set.univ s []) {p : Page}
    (hp : p ∈ s.pagesOf t.pagelist) : p ∈ s.held := by
  obtain ⟨a, ho⟩ := h.owns []
  obtain ⟨l, hl⟩ := Option.ne_none_iff_exists'.mp (hinv.owners.exists ho)
  exact hinv.pages.mem_held _ l p hl (by rwa [pagesOf_eq hl] at hp)

theorem State.mapped_congr {mm mm' : MmId} (hpages : s'.pagesOf t.pagelist = s.pagesOf t.pagelist)
    (hpte : ∀ off < ssSize, (s'.mms mm').pteAt s'.l5 (idToAddr id + off) =
      (s.mms mm).pteAt s.l5 (idToAddr id + off)) (h : s.Mapped mm id t) : s'.Mapped mm' id t := by
  intro off hoff
  rw [hpages, hpte off hoff]
  exact h off hoff

/-- The areas outside of `P` keep their descriptors, their pages, the contents of these and their PTEs. -/
structure Untouched (mmOf : Nat → MmId) (P : Nat → Nat → Prop) (s s' : State) : Prop where
  live : ∀ g i t, ¬ P g i → (s'.Live g i t ↔ s.Live g i t)
  pagesOf : ∀ g i t, ¬ P g i → s.Live g i t → s'.pagesOf t.pagelist = s.pagesOf t.pagelist
  data : ∀ g i t, ¬ P g i → s.Live g i t → ∀ p ∈ s.pagesOf t.pagelist, s'.data p = s.data p
  pte : ∀ g i t, ¬ P g i → s.Live g i t → ∀ off < ssSize,
    (s'.mms (mmOf g)).pteAt s'.l5 (idToAddr i + off) = (s.mms (mmOf g)).pteAt s.l5 (idToAddr i + off)

theorem Untouched.area {P : Nat → Nat → Prop} (h : Untouched mmOf P s s') {i : Nat} (hP : ¬ P g i) :
    s'.shadow.area g i = s.shadow.area g i :=
  area_congr (fun t ↦ h.live g i t hP) (fun t ↦ h.pagesOf g i t hP) fun t ↦ h.data g i t hP

/-- They stay backed, so only the areas of `P` are left to look at. -/
theorem Backed.of_untouched {P : Nat → Nat → Prop} (h : Backed mmOf s) (hu : Untouched mmOf P s s')
    (hinv : Inv Set.univ s' []) (hz : s'.Zeroed)
    (hnew : ∀ g i t, P g i → s'.Live g i t → s'.Mapped (mmOf g) i t)
    (hmm : ∀ g a d m, s'.allocFind g = some a → s'.allocs a = some d → d.mm = some m → m = mmOf g) :
    Backed mmOf s' := by
  refine ⟨hinv, hz, fun g i t hl ↦ ?_, hmm⟩
  by_cases hP : P g i
  · exact hnew g i t hP hl
  · have hl' := (hu.live g i t hP).mp hl
    exact mapped_congr (hu.pagesOf g i t hP hl') (hu.pte g i t hP hl') (h.mapped g i t hl')

/-- A call that touches no area. -/
theorem Backed.of_untouched_all (h : Backed mmOf s) (hu : Untouched mmOf (fun _ _ ↦ False) s s')
    (hinv : Inv Set.univ s' []) (hz : s'.Zeroed) (hreg : s'.saAllocators = s.saAllocators)
    (hallocs : s'.allocs = s.allocs) : Backed mmOf s' ∧ s'.shadow = s.shadow := by
  have hfind : s'.allocFind = s.allocFind := funext fun g ↦ by rw [allocFind, hreg, allocFind]
  refine ⟨h.of_untouched hu hinv hz (fun _ _ _ hP ↦ hP.elim) fun g b d m hb hd ↦ ?_,
    shadow_congr hfind fun g i ↦ hu.area not_false⟩
  rw [hfind] at hb
  rw [hallocs] at hd
  exact h.mm g b d m hb hd

/-- An allocator that has changed is still for the address space of its process. -/
theorem Backed.mm_update (h : Backed mmOf s) {a : AllocPtr} {d e : AllocatorDesc}
    (hfind : s'.allocFind = s.allocFind) (hd : s.allocs a = some d) (he : e.mm = d.mm)
    (hallocs : s'.allocs = Function.update s.allocs a (some e)) (g : Nat) (b : AllocPtr) (d' : AllocatorDesc)
    (m : MmId) (hb : s'.allocFind g = some b) (hd' : s'.allocs b = some d') (hm : d'.mm = some m) :
    m = mmOf g := by
  rw [hfind] at hb
  rw [hallocs] at hd'
  by_cases hba : b = a
  · subst hba
    rw [Function.update_self] at hd'
    obtain rfl := Option.some.inj hd'
    exact h.mm g b d m hb hd (he ▸ hm)
  · rw [Function.update_of_ne hba] at hd'
    exact h.mm g b d' m hb hd' hm

/-- `gl_alloc_stack` takes a pagelist whose pages are clear. -/
theorem Backed.take (h : Backed mmOf s) (hfresh : ans.Fresh s) (hs : s.glAllocStack ans = some (pl, s₁)) :
    Taken s s₁ pl ∧ ∀ p ∈ s₁.pagesOf pl, s₁.data p = fun _ ↦ 0 := by
  have hp := h.inv.prepared hfresh hs
  have hdata : ∀ g id t, s.Live g id t → ∀ p ∈ s.pagesOf t.pagelist, s₁.data p = s.data p :=
    fun g id t ht p hp ↦ glAllocStack_data hfresh hs (ht.held h.inv hp)
  unfold State.glAllocStack at hs
  split at hs
  · next q rest hgl =>
      obtain ⟨rfl, rfl⟩ := Prod.mk.inj (Option.some.inj hs)
      have hmem : ∀ r ∈ q :: rest, ∀ p ∈ s.pagesOf r, s.data p = fun _ ↦ 0 := by
        rw [← hgl]
        exact h.zeroed
      exact ⟨⟨hp, hdata, fun r hr ↦ hmem r (List.mem_cons_of_mem q hr)⟩, hmem q List.mem_cons_self⟩
  · next hgl =>
      split at hs
      · split at hs
        · cases hs
        · next ps hps =>
            obtain ⟨rfl, rfl⟩ := Prod.mk.inj (Option.some.inj hs)
            refine ⟨⟨hp, hdata, fun r hr ↦ ?_⟩, fun p hp ↦ ?_⟩
            · rw [show _ = s.glSa from rfl, hgl] at hr
              cases hr
            · simp only [pagesOf, Function.update_self] at hp
              simp only [if_pos hp]
      · cases hs

/-- The pagelist of the call is not on the list. -/
theorem Taken.ne_of_mem (h : Taken s s₁ pl) {q : PlPtr} (hq : q ∈ s₁.glSa) : q ≠ pl := by
  rintro rfl
  have hcall : s₁.Owns [q] .call q := List.mem_singleton_self q
  simpa using h.inv.owners.unique q .gl .call hq hcall

/-- It has no page in common with a live area, -/
theorem Taken.apart (h : Taken s s₁ pl) (hinv : Inv Set.univ s []) (ht : s.Live g id t) {p : Page}
    (hp : p ∈ s.pagesOf t.pagelist) : p ∉ s₁.pagesOf pl := by
  obtain ⟨-, hpages, hne⟩ := h.live hinv ht
  exact fun hc ↦ hne (h.inv.live_page (by rw [hpages]; exact hp) hc)

/-- nor with those on the list. -/
theorem Taken.apart_list (h : Taken s s₁ pl) {q : PlPtr} (hq : q ∈ s₁.glSa) {p : Page}
    (hp : p ∈ s₁.pagesOf q) : p ∉ s₁.pagesOf pl :=
  fun hc ↦ h.ne_of_mem hq (h.inv.live_page hp hc)

/-- Copying to the pages of the call. -/
theorem Taken.copyPages (h : Taken s s₁ pl) (hinv : Inv Set.univ s []) (src : List Page) :
    Taken s (copyPages s₁ (s₁.pagesOf pl) src) pl := by
  refine ⟨h.toPrepared.copyPages _ _, fun g id t ht p hp ↦ ?_, fun q hq p hp ↦ ?_⟩
  · rw [← h.data g id t ht p hp]
    exact copyData_of_notMem _ _ (h.apart hinv ht hp)
  · rw [← h.zeroed q hq p hp]
    exact copyData_of_notMem _ _ (h.apart_list hq hp)

/-- `gl_free` clears the pages it puts on the list. -/
theorem State.Zeroed.glFree (h : s.Zeroed) (hne : ∀ q ∈ s.glSa, q ≠ pl) : (s.glFree pl).Zeroed := by
  intro q hq p hp
  unfold State.glFree at hq hp ⊢
  split at hq
  · next hcap =>
      rw [if_pos hcap] at hp ⊢
      have hpages : (s.saPagelistFree pl).pagesOf q = s.pagesOf q := by
        simp [pagesOf, saPagelistFree, hne q hq]
      rw [hpages] at hp
      exact h q hq p hp
  · next hcap =>
      rw [if_neg hcap] at hp ⊢
      have hpages : p ∈ s.pagesOf q := hp
      by_cases hpl : p ∈ s.pagesOf pl
      · simp only [zeroPages, if_pos hpl]
      · simp only [zeroPages, if_neg hpl]
        rcases List.mem_cons.mp hq with rfl | hq
        · exact absurd hpages hpl
        · exact h q hq p hpages

/-- It does not touch other pages. -/
theorem State.glFree_data {p : Page} (hp : p ∉ s.pagesOf pl) : (s.glFree pl).data p = s.data p := by
  unfold State.glFree
  split
  · rfl
  · simp only [zeroPages, if_neg hp]

end ShadowStack.Lkm
