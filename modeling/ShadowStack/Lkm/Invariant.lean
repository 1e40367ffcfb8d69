import ShadowStack.Lib.Run
import ShadowStack.Lkm.Outcome

/-!
# Reference counts and page ownership

What holds between complete calls, in three independent parts: the allocators and their reference
counts (`AllocOk`), the pagelists and the pages they hold (`PagesOk`), and who owns each pagelist
(`OwnersOk`).  Inside a call a pagelist may belong to the call itself; `OwnersOk` takes the list of
those as an argument, so that an operation which hands a pagelist over is an instance of one rule,
`OwnersOk.transfer`.

The lemmas of the first part follow the operations of `lkm/core/api.c`, those of the second the
calls, by the lists of outcomes.
-/

namespace ShadowStack.Lkm

open Lib State

/-- Who owns a pagelist. -/
inductive Owner where
  /-- The global free list. -/
  | gl
  /-- The descriptor at an id of an allocator. -/
  | desc (a : AllocPtr) (id : Nat)
  /-- The running call. -/
  | call
deriving DecidableEq, Repr

/-- `s.Owns own o pl`: pagelist `pl` belongs to `o`, where `own` are the pagelists of the running
call. -/
def State.Owns (s : State) (own : List PlPtr) : Owner → PlPtr → Prop
  | .gl, pl => pl ∈ s.glSa
  | .desc a id, pl => ∃ t, (s.threads a).load id = some t ∧ t.pagelist = pl
  | .call, pl => pl ∈ own

/-- Allocators and their reference counts. -/
structure AllocOk (s : State) : Prop where
  lt : ∀ a d, s.allocs a = some d → a < s.nextAlloc
  registered : ∀ g x, s.saAllocators.slot g = some x →
    ∃ a d, x = .entry a ∧ s.allocs a = some d ∧ d.tgid = g
  kref : ∀ a d, s.allocs a = some d →
    d.kref = d.threads.count + if s.allocFind d.tgid = some a then 1 else 0
  alive : ∀ a d, s.allocs a = some d → 0 < d.kref
  kept : ∀ a, a < s.nextAlloc → a ∉ s.destroyed →
    ∃ d, s.allocs a = some d ∧ s.allocFind d.tgid = some a
  settled : ∀ a d id, s.allocs a = some d → d.threads.slot id ≠ some .reserved
  bound : ∀ a d id t, s.allocs a = some d → d.threads.load id = some t → id ≤ threadsLimit
  addr : ∀ a d id t, s.allocs a = some d → d.threads.load id = some t → t.addr = idToAddr id
  callback : ∀ x ∈ s.callbacks, x.2 = .empty ∧ x.1 < s.nextAlloc ∧ s.allocs x.1 = none
  once : (s.callbacks.map Prod.fst).Nodup

/-- Pagelists and their pages; pages that are held without being in a pagelist are in `S`. -/
structure PagesOk (S : Set Page) (s : State) : Prop where
  lt : ∀ pl l, s.pagelists pl = some l → pl < s.nextPl
  size : ∀ pl l, s.pagelists pl = some l → l.pages.length = ssPages
  nodup : ∀ pl l, s.pagelists pl = some l → l.pages.Nodup
  disjoint : ∀ pl l pl' l' p, s.pagelists pl = some l → s.pagelists pl' = some l' →
    p ∈ l.pages → p ∈ l'.pages → pl = pl'
  mem_held : ∀ pl l p, s.pagelists pl = some l → p ∈ l.pages → p ∈ s.held
  stray : ∀ p ∈ s.held, p ∉ S → ∃ pl l, s.pagelists pl = some l ∧ p ∈ l.pages

/-- Owners of pagelists: each pagelist has one, and nothing else is owned. -/
structure OwnersOk (s : State) (own : List PlPtr) : Prop where
  glNodup : s.glSa.Nodup
  ownNodup : own.Nodup
  owned : ∀ pl, (∃ o, s.Owns own o pl) ↔ s.pagelists pl ≠ none
  unique : ∀ pl o o', s.Owns own o pl → s.Owns own o' pl → o = o'

/-- The invariant, within a call that holds the pagelists `own`. -/
structure Inv (S : Set Page) (s : State) (own : List PlPtr) : Prop where
  alloc : AllocOk s
  pages : PagesOk S s
  owners : OwnersOk s own

variable {S : Set Page} {s s' : State} {own own' : List PlPtr} {a : AllocPtr} {d : AllocatorDesc} {pl : PlPtr}
  {ans : Answers}

/-! ## What each part depends on -/

theorem AllocOk.congr (h : AllocOk s) (h₁ : s'.saAllocators = s.saAllocators)
    (h₂ : s'.allocs = s.allocs) (h₃ : s'.nextAlloc = s.nextAlloc)
    (h₄ : s'.destroyed = s.destroyed) (h₅ : s'.callbacks = s.callbacks) : AllocOk s' := by
  obtain ⟨lt, reg, kref, alive, kept, settled, bound, addr, callback, once⟩ := h
  constructor <;> simpa only [allocFind, h₁, h₂, h₃, h₄, h₅]

theorem PagesOk.congr (h : PagesOk S s) (h₁ : s'.pagelists = s.pagelists)
    (h₂ : s'.nextPl = s.nextPl) (h₃ : s'.held = s.held) : PagesOk S s' := by
  obtain ⟨lt, size, nodup, disjoint, mem_held, stray⟩ := h
  constructor <;> simpa only [h₁, h₂, h₃]

theorem State.owns_congr (h₁ : s'.threads = s.threads) (h₂ : s'.glSa = s.glSa) (o : Owner)
    (pl : PlPtr) : s'.Owns own o pl ↔ s.Owns own o pl := by
  cases o <;> simp only [Owns, h₁, h₂]

theorem OwnersOk.congr (h : OwnersOk s own) (h₁ : s'.threads = s.threads) (h₂ : s'.glSa = s.glSa)
    (h₃ : s'.pagelists = s.pagelists) : OwnersOk s' own := by
  obtain ⟨gl, hown, owned, unique⟩ := h
  refine ⟨by rwa [h₂], hown, fun q ↦ ?_, fun q o o' ↦ ?_⟩
  · simp only [owns_congr h₁ h₂, h₃]
    exact owned q
  · simp only [owns_congr h₁ h₂]
    exact unique q o o'

/-- The page tables and the contents of pages do not matter. -/
theorem Inv.withTables (h : Inv S s own) (mm : MmId) (r : Mm × Bool) :
    Inv S (s.withTables mm r).1 own :=
  ⟨h.alloc.congr rfl rfl rfl rfl rfl, h.pages.congr rfl rfl rfl, h.owners.congr rfl rfl rfl⟩

theorem Inv.mapArea (h : Inv S s own) (mm : MmId) (addr : Nat) (pl : PlPtr) (ans : Answers) :
    Inv S (s.mapArea mm addr pl ans).1 own :=
  h.withTables mm _

theorem Inv.copyPages (h : Inv S s own) (dst src : List Page) : Inv S (copyPages s dst src) own :=
  ⟨h.alloc.congr rfl rfl rfl rfl rfl, h.pages.congr rfl rfl rfl, h.owners.congr rfl rfl rfl⟩

/-! ## Handing over a pagelist -/

/-- **A pagelist changes hands.**  Other pagelists keep their owners, and `pl` has one new owner. -/
theorem OwnersOk.transfer (h : OwnersOk s own) {o : Owner} (hpls : s'.pagelists = s.pagelists)
    (hgl : s'.glSa.Nodup) (hown : own'.Nodup) (hex : s.pagelists pl ≠ none)
    (ho : s'.Owns own' o pl) (honly : ∀ o', s'.Owns own' o' pl → o' = o)
    (hrest : ∀ q o', q ≠ pl → (s'.Owns own' o' q ↔ s.Owns own o' q)) : OwnersOk s' own' where
  glNodup := hgl
  ownNodup := hown
  owned q := by
    rw [hpls]
    by_cases hq : q = pl
    · subst hq
      exact ⟨fun _ ↦ hex, fun _ ↦ ⟨o, ho⟩⟩
    · simp only [hrest q _ hq]
      exact h.owned q
  unique q o₁ o₂ h₁ h₂ := by
    by_cases hq : q = pl
    · subst hq
      rw [honly o₁ h₁, honly o₂ h₂]
    · exact h.unique q o₁ o₂ ((hrest q o₁ hq).mp h₁) ((hrest q o₂ hq).mp h₂)

/-- What has an owner exists. -/
theorem OwnersOk.exists (h : OwnersOk s own) {o : Owner} (ho : s.Owns own o pl) :
    s.pagelists pl ≠ none :=
  (h.owned pl).mp ⟨o, ho⟩

/-- A pagelist the call holds exists. -/
theorem Inv.pagelist_of_call (h : Inv S s (pl :: own)) : ∃ l, s.pagelists pl = some l := by
  have hcall : s.Owns (pl :: own) .call pl := List.mem_cons_self ..
  exact Option.ne_none_iff_exists'.mp (h.owners.exists hcall)

/-- `gl_alloc_stack` taking the first pagelist of the list. -/
theorem OwnersOk.pop (h : OwnersOk s own) (hthreads : s'.threads = s.threads)
    (hpls : s'.pagelists = s.pagelists) (hgl : s.glSa = pl :: s'.glSa) :
    OwnersOk s' (pl :: own) := by
  have hnd := h.glNodup
  rw [hgl, List.nodup_cons] at hnd
  have hmem : s.Owns own .gl pl := by simp [Owns, hgl]
  have hnot : ∀ o, o ≠ .gl → ¬ s.Owns own o pl := fun o ho hc ↦ ho (h.unique pl o .gl hc hmem)
  refine h.transfer (o := .call) hpls hnd.2 ?_ (h.exists hmem) (List.mem_cons_self ..) ?_ ?_
  · exact List.nodup_cons.mpr ⟨hnot .call (by simp), h.ownNodup⟩
  · rintro (_ | ⟨b, i⟩ | _) ho
    · exact absurd ho hnd.1
    · simp only [Owns, hthreads] at ho
      exact absurd ho (hnot (.desc b i) (by simp))
    · rfl
  · rintro q (_ | ⟨b, i⟩ | _) hq
    · simp [Owns, hgl, hq]
    · simp only [Owns, hthreads]
    · simp [Owns, hq]

/-- `gl_free` putting a pagelist of the call on the list. -/
theorem OwnersOk.push (h : OwnersOk s (pl :: own)) (hthreads : s'.threads = s.threads)
    (hpls : s'.pagelists = s.pagelists) (hgl : s'.glSa = pl :: s.glSa) : OwnersOk s' own := by
  have hnd := h.ownNodup
  rw [List.nodup_cons] at hnd
  have hmem : s.Owns (pl :: own) .call pl := List.mem_cons_self ..
  have hnot : ∀ o, o ≠ .call → ¬ s.Owns (pl :: own) o pl :=
    fun o ho hc ↦ ho (h.unique pl o .call hc hmem)
  refine h.transfer (o := .gl) hpls ?_ hnd.2 (h.exists hmem) (by simp [Owns, hgl]) ?_ ?_
  · rw [hgl]
    exact List.nodup_cons.mpr ⟨hnot .gl (by simp), h.glNodup⟩
  · rintro (_ | ⟨b, i⟩ | _) ho
    · rfl
    · simp only [Owns, hthreads] at ho
      exact absurd ho (hnot (.desc b i) (by simp))
    · exact absurd ho hnd.1
  · rintro q (_ | ⟨b, i⟩ | _) hq
    · simp [Owns, hgl, hq]
    · simp only [Owns, hthreads]
    · simp [Owns, hq]

/-- Pagelists of a call do not show in who owns the others. -/
theorem State.owns_cons {q : PlPtr} (hq : q ≠ pl) (o : Owner) :
    s.Owns (pl :: own) o q ↔ s.Owns own o q := by
  cases o with
  | gl => exact Iff.rfl
  | desc b i => exact Iff.rfl
  | call => simp [Owns, hq]

/-- A new pagelist belongs to the call. -/
theorem OwnersOk.fresh (h : OwnersOk s own) (hthreads : s'.threads = s.threads)
    (hgl : s'.glSa = s.glSa) {l : Pagelist} (hnew : s.pagelists pl = none)
    (hpls : s'.pagelists = Function.update s.pagelists pl (some l)) : OwnersOk s' (pl :: own) := by
  have hnot : ∀ o, ¬ s.Owns own o pl := fun o ho ↦ h.exists ho hnew
  have hself : ∀ o, s.Owns (pl :: own) o pl ↔ o = .call := by
    rintro (_ | ⟨b, i⟩ | _)
    · exact iff_of_false (hnot .gl) (by simp)
    · exact iff_of_false (hnot (.desc b i)) (by simp)
    · simp [Owns]
  refine ⟨by rw [hgl]; exact h.glNodup, List.nodup_cons.mpr ⟨hnot .call, h.ownNodup⟩,
    fun q ↦ ?_, fun q o o' ↦ ?_⟩
  · simp only [owns_congr hthreads hgl, hpls]
    by_cases hq : q = pl
    · subst hq
      simp [hself]
    · rw [Function.update_of_ne hq, ← h.owned q]
      exact exists_congr (owns_cons hq)
  · simp only [owns_congr hthreads hgl]
    by_cases hq : q = pl
    · subst hq
      exact fun h₁ h₂ ↦ ((hself o).mp h₁).trans ((hself o').mp h₂).symm
    · rw [owns_cons hq, owns_cons hq]
      exact h.unique q o o'

/-- `sa_pagelist_free` on a pagelist of the call. -/
theorem OwnersOk.release (h : OwnersOk s (pl :: own)) (hthreads : s'.threads = s.threads)
    (hgl : s'.glSa = s.glSa) (hpls : s'.pagelists = Function.update s.pagelists pl none) :
    OwnersOk s' own := by
  have hnd := h.ownNodup
  rw [List.nodup_cons] at hnd
  have hmem : s.Owns (pl :: own) .call pl := List.mem_cons_self ..
  have hnot : ∀ o, ¬ s.Owns own o pl := by
    rintro (_ | ⟨b, i⟩ | _) ho
    · simpa using h.unique pl .gl .call ho hmem
    · simpa using h.unique pl (.desc b i) .call ho hmem
    · exact hnd.1 ho
  refine ⟨by rw [hgl]; exact h.glNodup, hnd.2, fun q ↦ ?_, fun q o o' ↦ ?_⟩
  · simp only [owns_congr hthreads hgl, hpls]
    by_cases hq : q = pl
    · subst hq
      simpa using hnot
    · rw [Function.update_of_ne hq, ← h.owned q]
      exact exists_congr fun o ↦ (owns_cons hq o).symm
  · simp only [owns_congr hthreads hgl]
    by_cases hq : q = pl
    · subst hq
      exact fun h₁ _ ↦ absurd h₁ (hnot o)
    · exact fun h₁ h₂ ↦ h.unique q o o' ((owns_cons hq o).mpr h₁) ((owns_cons hq o').mpr h₂)

/-- A descriptor takes over a pagelist of the call. -/
theorem OwnersOk.give (h : OwnersOk s (pl :: own)) (a : AllocPtr) (id : Nat) {t : ThreadDesc}
    (hgl : s'.glSa = s.glSa) (hpls : s'.pagelists = s.pagelists)
    (hfree : (s.threads a).load id = none) (ht : t.pagelist = pl)
    (hload : ∀ b i, (s'.threads b).load i =
      if b = a ∧ i = id then some t else (s.threads b).load i) : OwnersOk s' own := by
  have hnd := h.ownNodup
  rw [List.nodup_cons] at hnd
  have hmem : s.Owns (pl :: own) .call pl := List.mem_cons_self ..
  refine h.transfer (o := .desc a id) hpls (by rw [hgl]; exact h.glNodup) hnd.2 (h.exists hmem)
    ⟨t, by simp [hload], ht⟩ ?_ ?_
  · rintro (_ | ⟨b, i⟩ | _) ho
    · rw [Owns, hgl] at ho
      simpa using h.unique pl .gl .call ho hmem
    · obtain ⟨t', ht', hpl⟩ := ho
      rw [hload] at ht'
      split at ht'
      · next hbi => rw [hbi.1, hbi.2]
      · simpa using h.unique pl (.desc b i) .call ⟨t', ht', hpl⟩ hmem
    · exact absurd ho hnd.1
  · rintro q (_ | ⟨b, i⟩ | _) hq
    · rw [Owns, hgl, Owns]
    · simp only [Owns, hload]
      by_cases hbi : b = a ∧ i = id
      · obtain ⟨rfl, rfl⟩ := hbi
        simp [hfree, ht, Ne.symm hq]
      · simp [hbi]
    · simp [Owns, hq]

/-- A descriptor that is removed leaves its pagelist to the call. -/
theorem OwnersOk.take (h : OwnersOk s own) (a : AllocPtr) (id : Nat) {t : ThreadDesc}
    (hgl : s'.glSa = s.glSa) (hpls : s'.pagelists = s.pagelists)
    (ht : (s.threads a).load id = some t)
    (hload : ∀ b i, (s'.threads b).load i =
      if b = a ∧ i = id then none else (s.threads b).load i) :
    OwnersOk s' (t.pagelist :: own) := by
  have hmem : s.Owns own (.desc a id) t.pagelist := ⟨t, ht, rfl⟩
  have hnot : ∀ o, o ≠ .desc a id → ¬ s.Owns own o t.pagelist :=
    fun o ho hc ↦ ho (h.unique t.pagelist o _ hc hmem)
  refine h.transfer (o := .call) hpls (by rw [hgl]; exact h.glNodup)
    (List.nodup_cons.mpr ⟨hnot .call (by simp), h.ownNodup⟩) (h.exists hmem)
    (List.mem_cons_self ..) ?_ ?_
  · rintro (_ | ⟨b, i⟩ | _) ho
    · rw [Owns, hgl] at ho
      exact absurd ho (hnot .gl (by simp))
    · obtain ⟨t', ht', hpl⟩ := ho
      rw [hload] at ht'
      split at ht'
      · cases ht'
      · next hbi =>
          refine absurd ⟨t', ht', hpl⟩ (hnot (.desc b i) fun hc ↦ hbi ?_)
          simpa using hc
    · rfl
  · rintro q (_ | ⟨b, i⟩ | _) hq
    · rw [Owns, hgl, Owns]
    · simp only [Owns, hload]
      by_cases hbi : b = a ∧ i = id
      · obtain ⟨rfl, rfl⟩ := hbi
        simp [ht, Ne.symm hq]
      · simp [hbi]
    · simp [Owns, hq]

/-! ## Pages -/

theorem State.pagesOf_eq {l : Pagelist} (h : s.pagelists pl = some l) : s.pagesOf pl = l.pages := by
  simp [pagesOf, h]

/-- New pages, not in use before, go into a new pagelist. -/
theorem PagesOk.fresh (h : PagesOk S s) {ps : List Page} (hlen : ps.length = ssPages)
    (hnd : ps.Nodup) (hunused : ∀ p ∈ ps, p ∉ s.held) (hnext : s'.nextPl = s.nextPl + 1)
    (hpls : s'.pagelists = Function.update s.pagelists s.nextPl (some ⟨ps⟩))
    (hheld : s'.held = s.held ∪ ps.toFinset) : PagesOk S s' := by
  have hnew : s.pagelists s.nextPl = none := by
    cases hl : s.pagelists s.nextPl with
    | none => rfl
    | some l => exact absurd (h.lt _ l hl) (lt_irrefl _)
  -- a pagelist is the new one, with the new pages, or an old one, whose pages were in use
  have hcases : ∀ pl l, s'.pagelists pl = some l →
      (pl = s.nextPl ∧ l.pages = ps) ∨ (pl ≠ s.nextPl ∧ s.pagelists pl = some l) := by
    intro pl l hl
    rw [hpls] at hl
    by_cases hpl : pl = s.nextPl
    · rw [hpl, Function.update_self] at hl
      exact .inl ⟨hpl, by rw [← Option.some.inj hl]⟩
    · rw [Function.update_of_ne hpl] at hl
      exact .inr ⟨hpl, hl⟩
  have hold : ∀ pl l p, s.pagelists pl = some l → p ∈ l.pages → p ∉ ps :=
    fun pl l p hl hp hc ↦ hunused p hc (h.mem_held pl l p hl hp)
  constructor
  · intro pl l hl
    rw [hnext]
    rcases hcases pl l hl with ⟨rfl, -⟩ | ⟨-, hl⟩
    · exact Nat.lt_succ_self _
    · exact Nat.lt_succ_of_lt (h.lt pl l hl)
  · intro pl l hl
    rcases hcases pl l hl with ⟨-, hp⟩ | ⟨-, hl⟩
    · rw [hp, hlen]
    · exact h.size pl l hl
  · intro pl l hl
    rcases hcases pl l hl with ⟨-, hp⟩ | ⟨-, hl⟩
    · rwa [hp]
    · exact h.nodup pl l hl
  · intro pl l pl' l' p hl hl' hp hp'
    rcases hcases pl l hl with ⟨rfl, hps⟩ | ⟨-, hl⟩ <;>
      rcases hcases pl' l' hl' with ⟨rfl, hps'⟩ | ⟨-, hl'⟩
    · rfl
    · exact absurd (hps ▸ hp) (hold pl' l' p hl' hp')
    · exact absurd (hps' ▸ hp') (hold pl l p hl hp)
    · exact h.disjoint pl l pl' l' p hl hl' hp hp'
  · intro pl l p hl hp
    rw [hheld, Finset.mem_union, List.mem_toFinset]
    rcases hcases pl l hl with ⟨-, hps⟩ | ⟨-, hl⟩
    · exact .inr (hps ▸ hp)
    · exact .inl (h.mem_held pl l p hl hp)
  · intro p hp hS
    rw [hheld, Finset.mem_union, List.mem_toFinset] at hp
    rcases hp with hp | hp
    · obtain ⟨pl, l, hl, hmem⟩ := h.stray p hp hS
      have hne : pl ≠ s.nextPl := fun hc ↦ by rw [hc, hnew] at hl; cases hl
      exact ⟨pl, l, by rw [hpls, Function.update_of_ne hne, hl], hmem⟩
    · exact ⟨s.nextPl, ⟨ps⟩, by rw [hpls, Function.update_self], hp⟩

/-- `sa_pagelist_free` returns the pages of one pagelist. -/
theorem PagesOk.release (h : PagesOk S s) (pl : PlPtr) : PagesOk S (s.saPagelistFree pl) := by
  have hsub : ∀ q l, (s.saPagelistFree pl).pagelists q = some l →
      q ≠ pl ∧ s.pagelists q = some l := by
    intro q l hl
    by_cases hq : q = pl
    · simp [saPagelistFree, hq] at hl
    · exact ⟨hq, by simpa [saPagelistFree, hq] using hl⟩
  have hheld : ∀ p, p ∈ (s.saPagelistFree pl).held ↔ p ∈ s.held ∧ p ∉ s.pagesOf pl := by
    simp [saPagelistFree]
  constructor
  · exact fun q l hl ↦ h.lt q l (hsub q l hl).2
  · exact fun q l hl ↦ h.size q l (hsub q l hl).2
  · exact fun q l hl ↦ h.nodup q l (hsub q l hl).2
  · exact fun q l q' l' p hl hl' ↦ h.disjoint q l q' l' p (hsub q l hl).2 (hsub q' l' hl').2
  · intro q l p hl hp
    obtain ⟨hq, hl⟩ := hsub q l hl
    rw [hheld]
    refine ⟨h.mem_held q l p hl hp, fun hc ↦ hq ?_⟩
    cases hpl : s.pagelists pl with
    | none => simp [pagesOf, hpl] at hc
    | some l' => exact h.disjoint q l pl l' p hl hpl hp (by rwa [pagesOf_eq hpl] at hc)
  · intro p hp hS
    rw [hheld] at hp
    obtain ⟨q, l, hl, hmem⟩ := h.stray p hp.1 hS
    have hq : q ≠ pl := fun hc ↦ hp.2 (by rw [← hc, pagesOf_eq hl]; exact hmem)
    exact ⟨q, l, by simpa [saPagelistFree, hq] using hl, hmem⟩

/-- Holding more pages outside of pagelists, if they are expected there. -/
theorem PagesOk.take (h : PagesOk S s) {T : Finset Page} (hpls : s'.pagelists = s.pagelists)
    (hnext : s'.nextPl = s.nextPl) (hheld : s'.held = s.held ∪ T) (hT : ∀ p ∈ T, p ∈ S) :
    PagesOk S s' where
  lt := by rw [hpls, hnext]; exact h.lt
  size := by rw [hpls]; exact h.size
  nodup := by rw [hpls]; exact h.nodup
  disjoint := by rw [hpls]; exact h.disjoint
  mem_held pl l p hl hp := by
    rw [hpls] at hl
    rw [hheld]
    exact Finset.mem_union_left _ (h.mem_held pl l p hl hp)
  stray p hp hS := by
    rw [hpls]
    rw [hheld, Finset.mem_union] at hp
    rcases hp with hp | hp
    · exact h.stray p hp hS
    · exact absurd (hT p hp) hS

/-! ## `gl_alloc_stack`, `gl_free` and `vma_free` -/

/-- `gl_alloc_stack` gives the call a pagelist. -/
theorem Inv.glAllocStack (h : Inv S s own) (hfresh : ans.Fresh s)
    (hs : s.glAllocStack ans = some (pl, s')) : Inv S s' (pl :: own) := by
  unfold State.glAllocStack at hs
  split at hs
  · next pl' rest hgl =>
      obtain ⟨rfl, rfl⟩ := Prod.mk.inj (Option.some.inj hs)
      exact ⟨h.alloc.congr rfl rfl rfl rfl rfl, h.pages.congr rfl rfl rfl, h.owners.pop rfl rfl hgl⟩
  · next hgl =>
      split at hs
      · split at hs
        · cases hs
        · next ps hps =>
            obtain ⟨rfl, rfl⟩ := Prod.mk.inj (Option.some.inj hs)
            unfold saPagelistAllocPages at hps
            split at hps
            · split at hps
              · next hlen =>
                  obtain rfl := Option.some.inj hps
                  have hnew : s.pagelists s.nextPl = none := by
                    cases hl : s.pagelists s.nextPl with
                    | none => rfl
                    | some l => exact absurd (h.pages.lt _ l hl) (lt_irrefl _)
                  exact ⟨h.alloc.congr rfl rfl rfl rfl rfl,
                    h.pages.fresh hlen hfresh.nodup hfresh.unused rfl rfl rfl,
                    h.owners.fresh rfl rfl hnew rfl⟩
              · cases hps
            · cases hps
      · cases hs

theorem Inv.saPagelistFree (h : Inv S s (pl :: own)) : Inv S (s.saPagelistFree pl) own :=
  ⟨h.alloc.congr rfl rfl rfl rfl rfl, h.pages.release pl, h.owners.release rfl rfl rfl⟩

/-- `gl_free` takes a pagelist off the call. -/
theorem Inv.glFree (h : Inv S s (pl :: own)) : Inv S (s.glFree pl) own := by
  unfold State.glFree
  split
  · exact h.saPagelistFree
  · exact ⟨h.alloc.congr rfl rfl rfl rfl rfl, h.pages.congr rfl rfl rfl,
      h.owners.push rfl rfl rfl⟩

/-- Taking the whole list makes its pagelists the call's. -/
theorem OwnersOk.splice (h : OwnersOk s []) (hthreads : s'.threads = s.threads)
    (hpls : s'.pagelists = s.pagelists) (hgl : s'.glSa = []) : OwnersOk s' s.glSa := by
  -- the owner of a pagelist is the call where it was the list
  let swap : Owner → Owner := fun o ↦ match o with
    | .call => .gl
    | .gl => .call
    | .desc b i => .desc b i
  have hswap : ∀ o q, s'.Owns s.glSa o q ↔ s.Owns [] (swap o) q := by
    rintro (_ | ⟨b, i⟩ | _) q
    · simp [Owns, swap, hgl]
    · simp only [Owns, swap, hthreads]
    · simp [Owns, swap]
  have hinj : ∀ o o', swap o = swap o' → o = o' := by
    rintro (_ | ⟨b, i⟩ | _) (_ | ⟨b', i'⟩ | _) <;> simp [swap]
  have hsurj : ∀ o, ∃ o', swap o' = o := by
    rintro (_ | ⟨b, i⟩ | _)
    · exact ⟨.call, rfl⟩
    · exact ⟨.desc b i, rfl⟩
    · exact ⟨.gl, rfl⟩
  refine ⟨by rw [hgl]; exact List.nodup_nil, h.glNodup, fun q ↦ ?_, fun q o o' h₁ h₂ ↦ ?_⟩
  · rw [hpls, ← h.owned q]
    constructor
    · rintro ⟨o, ho⟩
      exact ⟨swap o, (hswap o q).mp ho⟩
    · rintro ⟨o, ho⟩
      obtain ⟨o', rfl⟩ := hsurj o
      exact ⟨o', (hswap o' q).mpr ho⟩
  · exact hinj o o' (h.unique q _ _ ((hswap o q).mp h₁) ((hswap o' q).mp h₂))

/-- `vma_free` frees what was on the list. -/
theorem Inv.vmaFree (h : Inv S s []) : Inv S s.vmaFree [] := by
  have hfold : ∀ (l : List PlPtr) (s : State), Inv S s l →
      Inv S (l.foldl State.saPagelistFree s) [] := by
    intro l
    induction l with
    | nil => exact fun _ h ↦ h
    | cons pl rest ih => exact fun s h ↦ ih _ h.saPagelistFree
  refine hfold s.glSa _ ⟨h.alloc.congr rfl rfl rfl rfl rfl, h.pages.congr rfl rfl rfl, ?_⟩
  exact h.owners.splice rfl rfl rfl

/-! ## Allocators -/

/-- Replacing an allocator by one with the same group and a consistent count. -/
theorem AllocOk.setAlloc (h : AllocOk s) (hd : s.allocs a = some d) {e : AllocatorDesc}
    (htgid : e.tgid = d.tgid)
    (hkref : e.kref = e.threads.count + if s.allocFind d.tgid = some a then 1 else 0)
    (hpos : 0 < e.kref) (hset : ∀ id, e.threads.slot id ≠ some .reserved)
    (hbound : ∀ id t, e.threads.load id = some t → id ≤ threadsLimit)
    (haddr : ∀ id t, e.threads.load id = some t → t.addr = idToAddr id) :
    AllocOk (s.setAlloc a e) := by
  -- the allocators of the new state
  have hcases : ∀ b f, (s.setAlloc a e).allocs b = some f →
      (b = a ∧ f = e) ∨ (b ≠ a ∧ s.allocs b = some f) := by
    intro b f hf
    by_cases hb : b = a
    · subst hb
      rw [setAlloc_allocs] at hf
      exact .inl ⟨rfl, (Option.some.inj hf).symm⟩
    · rw [setAlloc_allocs_of_ne hb] at hf
      exact .inr ⟨hb, hf⟩
  -- and what became of the old ones
  have hkeep : ∀ b f, s.allocs b = some f →
      ∃ f', (s.setAlloc a e).allocs b = some f' ∧ f'.tgid = f.tgid := by
    intro b f hf
    by_cases hb : b = a
    · subst hb
      exact ⟨e, setAlloc_allocs, by rw [htgid, Option.some.inj (hd.symm.trans hf)]⟩
    · exact ⟨f, by rw [setAlloc_allocs_of_ne hb, hf], rfl⟩
  constructor
  · intro b f hf
    rcases hcases b f hf with ⟨rfl, -⟩ | ⟨-, hf⟩
    · exact h.lt b d hd
    · exact h.lt b f hf
  · intro g x hx
    obtain ⟨b, f, rfl, hf, hg⟩ := h.registered g x hx
    obtain ⟨f', hf', hg'⟩ := hkeep b f hf
    exact ⟨b, f', rfl, hf', hg'.trans hg⟩
  · intro b f hf
    rcases hcases b f hf with ⟨rfl, rfl⟩ | ⟨-, hf⟩
    · rw [htgid]
      exact hkref
    · exact h.kref b f hf
  · intro b f hf
    rcases hcases b f hf with ⟨rfl, rfl⟩ | ⟨-, hf⟩
    · exact hpos
    · exact h.alive b f hf
  · intro b hlt hnd
    obtain ⟨f, hf, hreg⟩ := h.kept b hlt hnd
    obtain ⟨f', hf', hg'⟩ := hkeep b f hf
    exact ⟨f', hf', by rw [hg']; exact hreg⟩
  · intro b f id hf
    rcases hcases b f hf with ⟨rfl, rfl⟩ | ⟨-, hf⟩
    · exact hset id
    · exact h.settled b f id hf
  · intro b f id t hf
    rcases hcases b f hf with ⟨rfl, rfl⟩ | ⟨-, hf⟩
    · exact hbound id t
    · exact h.bound b f id t hf
  · intro b f id t hf
    rcases hcases b f hf with ⟨rfl, rfl⟩ | ⟨-, hf⟩
    · exact haddr id t
    · exact h.addr b f id t hf
  · intro x hx
    obtain ⟨h₁, h₂, h₃⟩ := h.callback x hx
    refine ⟨h₁, h₂, ?_⟩
    have hne : x.1 ≠ a := fun hc ↦ by rw [hc, hd] at h₃; cases h₃
    rw [setAlloc_allocs_of_ne hne, h₃]
  · exact h.once

/-- The allocator after a descriptor was removed: one reference less. -/
def AllocatorDesc.remove (d : AllocatorDesc) (id : Nat) : AllocatorDesc :=
  { d with kref := d.kref - 1, threads := d.threads.erase id }

/-- A new descriptor, at a free id, with a pagelist of the call. -/
theorem Inv.add (h : Inv S s (pl :: own)) (hd : s.allocs a = some d) {id tid : Nat}
    (hfree : d.threads.slot id = none) (hid : id ≤ threadsLimit) :
    Inv S (s.setAlloc a (d.add id ⟨tid, idToAddr id, pl⟩)) own := by
  have hload : d.threads.load id = none := Xarray.load_eq_none_of_slot hfree
  have hkref := h.alloc.kref a d hd
  refine ⟨h.alloc.setAlloc hd rfl ?_ (Nat.succ_pos _) ?_ ?_ ?_, h.pages.congr rfl rfl rfl,
    h.owners.give a id (t := ⟨tid, idToAddr id, pl⟩) rfl rfl ?_ rfl ?_⟩
  · simp only [AllocatorDesc.add, Xarray.count_set_entry hload, hkref]
    omega
  · intro i
    by_cases hi : i = id
    · simp [AllocatorDesc.add, hi]
    · simpa [AllocatorDesc.add, hi] using h.alloc.settled a d i hd
  · intro i t ht
    by_cases hi : i = id
    · rwa [hi]
    · exact h.alloc.bound a d i t hd (by simpa [AllocatorDesc.add, hi] using ht)
  · intro i t ht
    by_cases hi : i = id
    · subst hi
      obtain rfl : _ = t := by simpa [AllocatorDesc.add] using ht
      rfl
    · exact h.alloc.addr a d i t hd (by simpa [AllocatorDesc.add, hi] using ht)
  · rw [threads_eq hd, hload]
  · intro b i
    rw [threads_setAlloc]
    by_cases hb : b = a
    · subst hb
      simp [AllocatorDesc.add, threads_eq hd]
    · simp [hb]

/-- A registered allocator with a descriptor has more than one reference. -/
theorem AllocOk.two_le (h : AllocOk s) (hd : s.allocs a = some d)
    (hreg : s.allocFind d.tgid = some a) {id : Nat} {t : ThreadDesc}
    (ht : d.threads.load id = some t) : 2 ≤ d.kref := by
  have hkref := h.kref a d hd
  have hcount := Xarray.count_erase_some ht
  rw [if_pos hreg] at hkref
  omega

/-- The descriptor at an id is removed, and its pagelist is the call's. -/
theorem Inv.remove (h : Inv S s own) (hd : s.allocs a = some d) (hreg : s.allocFind d.tgid = some a)
    {id : Nat} {t : ThreadDesc} (ht : d.threads.load id = some t) :
    Inv S (s.setAlloc a (d.remove id)) (t.pagelist :: own) := by
  have hkref := h.alloc.kref a d hd
  have htwo := h.alloc.two_le hd hreg ht
  have hcount := Xarray.count_erase_some ht
  refine ⟨h.alloc.setAlloc hd rfl ?_ ?_ ?_ ?_ ?_, h.pages.congr rfl rfl rfl,
    h.owners.take a id rfl rfl (by rw [threads_eq hd, ht]) ?_⟩
  · rw [if_pos hreg] at hkref ⊢
    simp only [AllocatorDesc.remove]
    omega
  · simp only [AllocatorDesc.remove]
    omega
  · intro i
    by_cases hi : i = id
    · simp [AllocatorDesc.remove, hi]
    · simpa [AllocatorDesc.remove, hi] using h.alloc.settled a d i hd
  · intro i t' ht'
    by_cases hi : i = id
    · simp [AllocatorDesc.remove, hi] at ht'
    · exact h.alloc.bound a d i t' hd (by simpa [AllocatorDesc.remove, hi] using ht')
  · intro i t' ht'
    by_cases hi : i = id
    · simp [AllocatorDesc.remove, hi] at ht'
    · exact h.alloc.addr a d i t' hd (by simpa [AllocatorDesc.remove, hi] using ht')
  · intro b i
    rw [threads_setAlloc]
    by_cases hb : b = a
    · subst hb
      simp [AllocatorDesc.remove, threads_eq hd]
    · simp [hb]

/-- The allocator a lookup finds exists, for the group it was looked up under. -/
theorem AllocOk.find (h : AllocOk s) {g : Nat} (hf : s.allocFind g = some a) :
    ∃ d, s.allocs a = some d ∧ d.tgid = g := by
  obtain ⟨b, d, hb, hd, hg⟩ := h.registered g _ (Xarray.load_eq_some.mp hf)
  obtain rfl : a = b := by simpa using hb
  exact ⟨d, hd, hg⟩

/-- The id under which a registered allocator has a thread. -/
theorem AllocOk.find_le (h : AllocOk s) {g id : Nat} {t : ThreadDesc} {p : ThreadDesc → Bool}
    (hf : s.allocFind g = some a) (ht : (s.threads a).find? p = some (id, t)) :
    id ≤ threadsLimit := by
  obtain ⟨d, hd, -⟩ := h.find hf
  have hload := (Xarray.find?_eq_some ht).1
  rw [threads_eq hd] at hload
  exact h.bound a d id t hd hload

/-- A new allocator, registered under a group that had none. -/
theorem AllocOk.create (h : AllocOk s) {g : Nat} {mm : Option MmId}
    (hslot : s.saAllocators.slot g = none)
    (hreg : s'.saAllocators = s.saAllocators.set g (.entry s.nextAlloc))
    (hallocs : s'.allocs = Function.update s.allocs s.nextAlloc (some ⟨g, mm, .empty, 0, 1⟩))
    (hnext : s'.nextAlloc = s.nextAlloc + 1) (hdes : s'.destroyed = s.destroyed)
    (hcb : s'.callbacks = s.callbacks) : AllocOk s' := by
  have hcases : ∀ b f, s'.allocs b = some f →
      (b = s.nextAlloc ∧ f = ⟨g, mm, .empty, 0, 1⟩) ∨ (b < s.nextAlloc ∧ s.allocs b = some f) := by
    intro b f hf
    rw [hallocs] at hf
    by_cases hb : b = s.nextAlloc
    · rw [hb, Function.update_self] at hf
      exact .inl ⟨hb, (Option.some.inj hf).symm⟩
    · rw [Function.update_of_ne hb] at hf
      exact .inr ⟨h.lt b f hf, hf⟩
  have hold : ∀ b, b < s.nextAlloc → s'.allocs b = s.allocs b := by
    intro b hb
    rw [hallocs, Function.update_of_ne hb.ne]
  have hfind : ∀ k, s'.allocFind k = if k = g then some s.nextAlloc else s.allocFind k := by
    intro k
    rw [allocFind, hreg, Xarray.load_set_entry, allocFind]
  have hnone : s.allocFind g = none := Xarray.load_eq_none_of_slot hslot
  constructor
  · intro b f hf
    rw [hnext]
    rcases hcases b f hf with ⟨rfl, -⟩ | ⟨hb, -⟩
    · exact Nat.lt_succ_self _
    · exact Nat.lt_succ_of_lt hb
  · intro k x hx
    rw [hreg, Xarray.slot_set] at hx
    split at hx
    · next hk =>
        exact ⟨s.nextAlloc, _, (Option.some.inj hx).symm, by rw [hallocs, Function.update_self],
          hk.symm⟩
    · obtain ⟨b, f, rfl, hf, hk⟩ := h.registered k x hx
      exact ⟨b, f, rfl, by rw [hold b (h.lt b f hf), hf], hk⟩
  · intro b f hf
    rcases hcases b f hf with ⟨rfl, rfl⟩ | ⟨hb, hf⟩
    · simp [hfind]
    · rw [h.kref b f hf, hfind]
      by_cases hk : f.tgid = g
      · simp [hk, hnone, hb.ne']
      · simp [hk]
  · intro b f hf
    rcases hcases b f hf with ⟨rfl, rfl⟩ | ⟨-, hf⟩
    · exact Nat.one_pos
    · exact h.alive b f hf
  · intro b hb hnd
    rw [hnext] at hb
    rw [hdes] at hnd
    rcases Nat.lt_succ_iff_lt_or_eq.mp hb with hb | rfl
    · obtain ⟨f, hf, hr⟩ := h.kept b hb hnd
      have hk : f.tgid ≠ g := fun hc ↦ by rw [hc, hnone] at hr; cases hr
      exact ⟨f, by rw [hold b hb, hf], by rw [hfind, if_neg hk, hr]⟩
    · exact ⟨_, by rw [hallocs, Function.update_self], by simp [hfind]⟩
  · intro b f id hf
    rcases hcases b f hf with ⟨rfl, rfl⟩ | ⟨-, hf⟩
    · simp
    · exact h.settled b f id hf
  · intro b f id t hf
    rcases hcases b f hf with ⟨rfl, rfl⟩ | ⟨-, hf⟩
    · simp
    · exact h.bound b f id t hf
  · intro b f id t hf
    rcases hcases b f hf with ⟨rfl, rfl⟩ | ⟨-, hf⟩
    · simp
    · exact h.addr b f id t hf
  · intro x hx
    rw [hcb] at hx
    obtain ⟨h₁, h₂, h₃⟩ := h.callback x hx
    exact ⟨h₁, by rw [hnext]; exact Nat.lt_succ_of_lt h₂, by rw [hold _ h₂, h₃]⟩
  · rw [hcb]
    exact h.once

/-- An allocator that does not exist has no descriptors. -/
theorem State.threads_eq_empty (h : s.allocs a = none) : s.threads a = .empty := by
  simp [threads, h]

/-- `alloc_create`. -/
theorem Inv.allocCreate (h : Inv S s []) (tgid : Nat) (mm : Option MmId) (ans : Answers) :
    Inv S (s.allocCreate tgid mm ans).2 [] := by
  unfold State.allocCreate
  split
  · next hc =>
      have hslot : s.saAllocators.slot tgid = none := by
        simp only [Bool.and_eq_true, Option.isNone_iff_eq_none] at hc
        exact hc.2
      refine ⟨h.alloc.create hslot rfl rfl rfl rfl rfl, h.pages.congr rfl rfl rfl,
        h.owners.congr ?_ rfl rfl⟩
      -- the new table is empty, as was the table of an allocator that did not exist
      funext b
      by_cases hb : b = s.nextAlloc
      · have hnone : s.allocs s.nextAlloc = none := by
          cases hl : s.allocs s.nextAlloc with
          | none => rfl
          | some f => exact absurd (h.alloc.lt _ f hl) (lt_irrefl _)
        rw [hb, threads_eq_empty hnone]
        simp [threads]
      · simp [threads, hb]
  · exact h

/-! ## `alloc_destroy` -/

/-- An allocator with no references left but the one to be dropped, which is not registered, has
an empty table. -/
theorem AllocOk.threads_empty (h : AllocOk s) (hd : s.allocs a = some d)
    (hcount : d.threads.count = 0) : d.threads = .empty := by
  refine Xarray.ext_slot fun i ↦ ?_
  have hload := Xarray.count_eq_zero.mp hcount i
  cases hs : d.threads.slot i with
  | none => rfl
  | some x =>
      cases x with
      | reserved => exact absurd hs (h.settled a d i hd)
      | entry t => rw [Xarray.load_eq_some.mpr hs] at hload; cases hload

/-- Deregistering an allocator and dropping its reference: the allocator stays if it has
descriptors, else `alloc_destroy_callback` runs for it. -/
theorem AllocOk.deregister (h : AllocOk s) (hd : s.allocs a = some d)
    (hreg : s.allocFind d.tgid = some a) (new : Option AllocatorDesc)
    (hsa : s'.saAllocators = s.saAllocators.erase d.tgid)
    (hallocs : s'.allocs = Function.update s.allocs a new)
    (hnext : s'.nextAlloc = s.nextAlloc) (hdes : s'.destroyed = insert a s.destroyed)
    (hnew : (d.threads.count ≠ 0 ∧ new = some { d with kref := d.kref - 1 } ∧
        s'.callbacks = s.callbacks) ∨
      (d.threads.count = 0 ∧ new = none ∧ s'.callbacks = s.callbacks ++ [(a, d.threads)])) :
    AllocOk s' := by
  have hkref := h.kref a d hd
  rw [if_pos hreg] at hkref
  have hcases : ∀ b f, s'.allocs b = some f →
      (b = a ∧ f = { d with kref := d.kref - 1 } ∧ d.threads.count ≠ 0) ∨
        (b ≠ a ∧ s.allocs b = some f) := by
    intro b f hf
    rw [hallocs] at hf
    by_cases hb : b = a
    · rw [hb, Function.update_self] at hf
      rcases hnew with ⟨h₁, h₂, -⟩ | ⟨-, h₂, -⟩
      · exact .inl ⟨hb, Option.some.inj (hf.symm.trans h₂), h₁⟩
      · rw [h₂] at hf
        cases hf
    · rw [Function.update_of_ne hb] at hf
      exact .inr ⟨hb, hf⟩
  have hold : ∀ b, b ≠ a → s'.allocs b = s.allocs b := by
    intro b hb
    rw [hallocs, Function.update_of_ne hb]
  have hfind : ∀ k, s'.allocFind k = if k = d.tgid then none else s.allocFind k := by
    intro k
    rw [allocFind, hsa, Xarray.load_erase, allocFind]
  -- no other allocator was registered under this group
  have hother : ∀ b, b ≠ a → ∀ k, (s'.allocFind k = some b ↔ s.allocFind k = some b) := by
    intro b hb k
    rw [hfind]
    split
    · next hk => simp [hk, hreg, hb.symm]
    · exact Iff.rfl
  constructor
  · intro b f hf
    rw [hnext]
    rcases hcases b f hf with ⟨rfl, -, -⟩ | ⟨-, hf⟩
    · exact h.lt b d hd
    · exact h.lt b f hf
  · intro k x hx
    rw [hsa, Xarray.slot_erase] at hx
    split at hx
    · cases hx
    · next hk =>
        obtain ⟨b, f, rfl, hf, hg⟩ := h.registered k x hx
        have hb : b ≠ a := fun hc ↦ hk (by rw [hc, hd] at hf; rw [Option.some.inj hf, hg])
        exact ⟨b, f, rfl, by rw [hold b hb, hf], hg⟩
  · intro b f hf
    rcases hcases b f hf with ⟨rfl, rfl, -⟩ | ⟨hb, hf⟩
    · simp [hfind, hkref]
    · rw [h.kref b f hf]
      simp only [hother b hb]
  · intro b f hf
    rcases hcases b f hf with ⟨rfl, rfl, hc⟩ | ⟨-, hf⟩
    · simp only
      omega
    · exact h.alive b f hf
  · intro b hb hnd
    rw [hnext] at hb
    rw [hdes, Finset.mem_insert, not_or] at hnd
    obtain ⟨f, hf, hr⟩ := h.kept b hb hnd.2
    exact ⟨f, by rw [hold b hnd.1, hf], (hother b hnd.1 _).mpr hr⟩
  · intro b f id hf
    rcases hcases b f hf with ⟨rfl, rfl, -⟩ | ⟨-, hf⟩
    · exact h.settled b d id hd
    · exact h.settled b f id hf
  · intro b f id t hf
    rcases hcases b f hf with ⟨rfl, rfl, -⟩ | ⟨-, hf⟩
    · exact h.bound b d id t hd
    · exact h.bound b f id t hf
  · intro b f id t hf
    rcases hcases b f hf with ⟨rfl, rfl, -⟩ | ⟨-, hf⟩
    · exact h.addr b d id t hd
    · exact h.addr b f id t hf
  · intro x hx
    -- callbacks of the past were for allocators that were gone already
    have hpast : x ∈ s.callbacks → x.2 = .empty ∧ x.1 < s'.nextAlloc ∧ s'.allocs x.1 = none := by
      intro hx
      obtain ⟨h₁, h₂, h₃⟩ := h.callback x hx
      have hne : x.1 ≠ a := fun hc ↦ by rw [hc, hd] at h₃; cases h₃
      exact ⟨h₁, by rw [hnext]; exact h₂, by rw [hold _ hne, h₃]⟩
    rcases hnew with ⟨-, -, h₃⟩ | ⟨h₁, h₂, h₃⟩
    · exact hpast (h₃ ▸ hx)
    · rw [h₃, List.mem_append, List.mem_singleton] at hx
      rcases hx with hx | rfl
      · exact hpast hx
      · exact ⟨h.threads_empty hd h₁, by rw [hnext]; exact h.lt a d hd,
          by rw [hallocs, Function.update_self, h₂]⟩
  · rcases hnew with ⟨-, -, h₃⟩ | ⟨-, -, h₃⟩
    · rw [h₃]
      exact h.once
    · rw [h₃, List.map_append, List.nodup_append]
      refine ⟨h.once, List.nodup_singleton _, ?_⟩
      rintro b hb c hc rfl
      obtain ⟨x, hx, rfl⟩ := List.mem_map.mp hb
      have hnone := (h.callback x hx).2.2
      rw [List.map_singleton, List.mem_singleton] at hc
      rw [hc, hd] at hnone
      cases hnone

/-- The walk of the callback obtains no page: it meets no PTE table, or every request for a page
is refused. -/
def Quiet (mm : Mm) (ans : Answers) : Prop := mm.Bare ∨ ∀ p, some p ∉ ans.nowait

theorem State.teardown_taken {mm : Mm} (h : Quiet mm ans) : (s.teardown mm ans).2.taken = [] := by
  unfold teardown
  rcases h with h | h
  · exact freePgdRange_zero_taken h rfl
  · refine List.eq_nil_iff_forall_not_mem.mpr fun p hp ↦ h p ?_
    have hfrom := freePgdRange_zero_keeps mm.pgd (Walk.closed_takesFrom s.l5 ans.nowait)
      (w := startWalk mm ans.nowait) ⟨fun _ h ↦ h, by simp [startWalk]⟩
    exact hfrom.2 p hp

/-- `alloc_destroy`, for an allocator it was not called for yet. -/
theorem Inv.allocDestroy (h : Inv S s []) (hnd : a ∉ s.destroyed)
    (hquiet : ∀ d m, s.allocs a = some d → d.threads.count = 0 → d.mm = some m →
      Quiet (s.mms m) ans ∨ S = Set.univ) : Inv S (s.allocDestroy a ans) [] := by
  cases hd : s.allocs a with
  | none => simpa only [State.allocDestroy, hd] using h
  | some d =>
      obtain ⟨d', hd', hreg⟩ := h.alloc.kept a (h.alloc.lt a d hd) hnd
      obtain rfl : d = d' := Option.some.inj (hd.symm.trans hd')
      have hkref := h.alloc.kref a d hd
      rw [if_pos hreg] at hkref
      obtain ⟨s₁, hs₁⟩ : ∃ s₁ : State, s₁ = { s with
        saAllocators := s.saAllocators.erase d.tgid, destroyed := insert a s.destroyed } := ⟨_, rfl⟩
      have hd₁ : s₁.allocs a = some d := by rw [hs₁, hd]
      have heq : s.allocDestroy a ans = s₁.allocPut a ans := by
        simp only [State.allocDestroy, hd, hs₁]
      rw [heq]
      by_cases hcount : d.threads.count = 0
      · -- the last reference
        have hput : s₁.allocPut a ans =
            (s₁.allocDestroyCallback a { d with kref := 0 } ans).1 := by
          simp only [allocPut, hd₁, hkref, hcount, ↓reduceIte]
        rw [hput]
        obtain ⟨s₂, hs₂⟩ : ∃ s₂ : State, s₂ = { s₁ with
          callbacks := s₁.callbacks ++ [(a, d.threads)]
          allocs := Function.update s₁.allocs a none } := ⟨_, rfl⟩
        have hinv : Inv S s₂ [] := by
          refine ⟨h.alloc.deregister hd hreg none ?_ ?_ ?_ ?_ (.inr ⟨hcount, rfl, ?_⟩),
            h.pages.congr ?_ ?_ ?_, h.owners.congr ?_ ?_ ?_⟩
          all_goals subst hs₂ hs₁
          all_goals try rfl
          -- the table that goes away is empty
          funext b
          by_cases hb : b = a
          · rw [hb, threads_eq hd, h.alloc.threads_empty hd hcount]
            simp [threads]
          · simp [threads, hb]
        cases hmm : d.mm with
        | none => simpa only [allocDestroyCallback, hmm, hs₂] using hinv
        | some m =>
            have htaken : ∀ p ∈ (s₂.teardown (s₁.mms m) ans).2.taken.toFinset, p ∈ S := by
              rcases hquiet d m hd hcount hmm with hq | hS
              · have hmms : s₁.mms = s.mms := by rw [hs₁]
                rw [hmms, teardown_taken hq]
                simp
              · simp [hS]
            simp only [allocDestroyCallback, ← hs₂]
            subst hs₂
            exact ⟨hinv.alloc.congr rfl rfl rfl rfl rfl, hinv.pages.take rfl rfl rfl htaken,
              hinv.owners.congr rfl rfl rfl⟩
      · have hput : s₁.allocPut a ans = s₁.setAlloc a { d with kref := d.kref - 1 } := by
          have hd₂ : s₁.allocs a = some { d with kref := d.kref - 1 + 1 } := by
            rw [hd₁, Nat.sub_add_cancel (h.alloc.alive a d hd)]
          exact allocPut_eq hd₂ (by omega)
        rw [hput]
        refine ⟨h.alloc.deregister hd hreg (some { d with kref := d.kref - 1 }) ?_ ?_ ?_ ?_
          (.inl ⟨hcount, rfl, ?_⟩), h.pages.congr ?_ ?_ ?_, h.owners.congr ?_ ?_ ?_⟩
        all_goals subst hs₁
        all_goals try rfl
        funext b
        rw [threads_setAlloc]
        split
        · next hb => rw [hb, threads_eq hd]
        · rfl

/-! ## The calls -/

theorem Inv.saAlloc (h : Inv S s []) (cur : Task) (hfresh : ans.Fresh s) :
    Inv S (saAlloc s cur ans).2 [] := by
  rcases saAlloc_cases s cur ans with
    ⟨-, heq⟩ | ⟨mm, a, d, pl, s₁, id, hm, hlow, ⟨-, -, heq⟩ | ⟨-, -, heq⟩⟩
  · rwa [heq]
  · rw [heq]
    exact ((h.glAllocStack hfresh hm.stack).mapArea mm _ pl ans).glFree
  · rw [heq]
    have hd : (s₁.mapArea mm (idToAddr id) pl ans).1.allocs a = some d := by
      rw [mapArea_allocs, glAllocStack_allocs hm.stack, hm.alloc]
    obtain ⟨-, hid, hfree, -⟩ := Xarray.lowestFree_eq_some hlow
    exact ((h.glAllocStack hfresh hm.stack).mapArea mm _ pl ans).add hd hfree hid

theorem Inv.saFork (h : Inv S s []) {cur : Task} (hfresh : ans.Fresh s) (pt pp : Nat) :
    Inv S (saFork s cur ans pt pp).2 [] := by
  rcases saFork_cases s cur ans pt pp with
    ⟨-, heq⟩ | ⟨mm, a, d, pl, s₁, parent, hm, hp, ⟨-, heq⟩ | ⟨id, t, s₂, ht, hs₂, hrest⟩⟩
  · rwa [heq]
  · rw [heq]
    exact (h.glAllocStack hfresh hm.stack).glFree
  · have h₂ : Inv S s₂ [pl] := by
      rw [hs₂]
      exact (h.glAllocStack hfresh hm.stack).copyPages _ _
    have hallocs : s₂.allocs = s.allocs := by
      rw [hs₂, ← glAllocStack_allocs hm.stack]
      rfl
    rcases hrest with ⟨-, heq⟩ | ⟨hfree, ⟨-, -, heq⟩ | ⟨-, -, heq⟩⟩
    · rw [heq]
      exact h₂.glFree
    · rw [heq]
      exact (h₂.mapArea mm _ pl ans).glFree
    · rw [heq]
      refine (h₂.mapArea mm _ pl ans).add ?_ hfree (h.alloc.find_le hp ht)
      rw [mapArea_allocs, hallocs, hm.alloc]

/-- Without reservations, clearing a slot that holds no descriptor changes nothing. -/
theorem AllocOk.erase_eq (h : AllocOk s) {id : Nat} (hload : (s.threads a).load id = none) :
    (s.modThreads a fun x ↦ x.erase id) = s := by
  cases hd : s.allocs a with
  | none =>
      rw [modThreads, modAlloc, hd, Option.map_none]
      simp [← hd]
  | some d =>
      have hslot : d.threads.slot id = none := by
        rw [threads_eq hd] at hload
        cases hs : d.threads.slot id with
        | none => rfl
        | some x =>
            cases x with
            | reserved => exact absurd hs (h.settled a d id hd)
            | entry t => rw [Xarray.load_eq_some.mpr hs] at hload; cases hload
      have herase : d.threads.erase id = d.threads := by
        refine Xarray.ext_slot fun i ↦ ?_
        by_cases hi : i = id <;> simp [hi, hslot]
      rw [modThreads_eq hd, herase]
      exact setAlloc_self hd

/-- Removing a descriptor of a registered allocator never drops the last reference. -/
theorem AllocOk.free_eq (h : AllocOk s) (hd : s.allocs a = some d)
    (hreg : s.allocFind d.tgid = some a) {id : Nat} {t : ThreadDesc}
    (ht : d.threads.load id = some t) :
    ((s.modThreads a fun x ↦ x.erase id).glFree t.pagelist).allocPut a ans =
      (s.setAlloc a (d.remove id)).glFree t.pagelist := by
  have htwo := h.two_le hd hreg ht
  obtain ⟨k, hk⟩ : ∃ k, d.kref = k + 1 := ⟨d.kref - 1, by omega⟩
  have hd' : ((s.glFree t.pagelist).setAlloc a { d with threads := d.threads.erase id }).allocs a =
      some { d with threads := d.threads.erase id, kref := k + 1 } := by
    rw [setAlloc_allocs, ← hk]
  rw [modThreads_eq hd, glFree_setAlloc, glFree_setAlloc,
    allocPut_eq (d := { d with threads := d.threads.erase id }) hd' (by omega), setAlloc_setAlloc]
  simp [AllocatorDesc.remove, hk]

/-- **What `sa_free` does between complete calls**: nothing, or it removes one descriptor. -/
theorem AllocOk.saFree_cases (h : AllocOk s) (cur : Task) (ans : Answers) (addr : Nat) :
    ((saFree s cur ans addr).1.err ≠ none ∧ (saFree s cur ans addr).2 = s) ∨
    ∃ mm a d t, cur.mm = some mm ∧ ValidAddr addr ∧ s.allocFind cur.tgid = some a ∧
      s.allocs a = some d ∧ s.allocFind d.tgid = some a ∧
      d.threads.load (addrToId addr) = some t ∧ (saFree s cur ans addr).1 = ⟨none, none⟩ ∧
      (saFree s cur ans addr).2 = (s.setAlloc a (d.remove (addrToId addr))).glFree t.pagelist := by
  rcases Lkm.saFree_cases s cur ans addr with
    ⟨herr, heq | ⟨a, -, hload, heq⟩⟩ | ⟨mm, a, t, hmm, hv, hfind, hload, hr, heq⟩
  · exact .inl ⟨herr, heq⟩
  · exact .inl ⟨herr, by rw [heq, h.erase_eq hload]⟩
  · obtain ⟨d, hd, hg⟩ := h.find hfind
    rw [threads_eq hd] at hload
    rw [← hg] at hfind
    exact .inr ⟨mm, a, d, t, hmm, hv, by rw [← hg, hfind], hd, hfind, hload, hr,
      by rw [heq, h.free_eq hd hfind hload]⟩

theorem Inv.saFree (h : Inv S s []) (cur : Task) (ans : Answers) (addr : Nat) :
    Inv S (saFree s cur ans addr).2 [] := by
  rcases h.alloc.saFree_cases cur ans addr with
    ⟨-, heq⟩ | ⟨mm, a, d, t, -, -, -, hd, hreg, ht, -, heq⟩
  · rwa [heq]
  · rw [heq]
    exact (h.remove hd hreg ht).glFree

/-! ## Runs -/

/-- A step of the module: one complete call. -/
def Step (s : State) (e : Event) (s' : State) : Prop := s' = (exec s e).2

/-- What is asked of a call: pages come from the page allocator fresh, and `alloc_destroy` is
called at most once for an allocator. -/
structure Admissible (s : State) (e : Event) : Prop where
  fresh : e.ans.Fresh s
  once : ∀ a, e.call = .allocDestroy a → a ∉ s.destroyed

/-- The call drops no last reference, or the walk this starts obtains no page. -/
def NoBatch (s : State) (e : Event) : Prop :=
  ∀ a d m, e.call = .allocDestroy a → s.allocs a = some d → d.threads.count = 0 →
    d.mm = some m → Quiet (s.mms m) e.ans

/-- **One call keeps the invariant.** -/
theorem Inv.exec (h : Inv S s []) {e : Event} (he : Admissible s e)
    (hq : NoBatch s e ∨ S = Set.univ) : Inv S (exec s e).2 [] := by
  obtain ⟨cur, call, ans⟩ := e
  cases call with
  | allocCreate tgid mm => exact h.allocCreate tgid mm ans
  | allocDestroy a =>
      exact h.allocDestroy (he.once a rfl) fun d m hd hc hm ↦ hq.imp_left fun hq ↦
        hq a d m rfl hd hc hm
  | saAlloc => exact h.saAlloc _ he.fresh
  | saFork pt pp => exact h.saFork he.fresh pt pp
  | saFree addr => exact h.saFree cur ans addr
  | vmaFree => exact h.vmaFree

theorem Inv.init (l5 : Bool) (mms : MmId → Mm) (data : Page → PageData) :
    Inv S (State.init l5 mms data) [] where
  alloc := by constructor <;> simp [State.init]
  pages := by constructor <;> simp [State.init]
  owners := by
    have hnot : ∀ o q, ¬ (State.init l5 mms data).Owns [] o q := by
      rintro (_ | ⟨b, i⟩ | _) q <;> simp [Owns, State.init, threads]
    exact ⟨List.nodup_nil, List.nodup_nil, fun q ↦ by simp [hnot]; rfl,
      fun q o _ ho ↦ absurd ho (hnot o q)⟩

/-- **The invariant holds after every run.** -/
theorem Inv.of_run {l5 : Bool} {mms : MmId → Mm} {data : Page → PageData} {es : List Event}
    (h : Run (Guarded Admissible Step) (State.init l5 mms data) es s) : Inv Set.univ s [] :=
  h.invariant (I := fun s ↦ Inv Set.univ s []) (Inv.init l5 mms data) fun _ _ _ hinv hstep ↦ by
    obtain ⟨hadm, rfl⟩ := hstep
    exact hinv.exec hadm (.inr rfl)

/-- If no call obtains a batch page, no page is held outside of the pagelists. -/
theorem Inv.of_quiet_run {l5 : Bool} {mms : MmId → Mm} {data : Page → PageData} {es : List Event}
    (h : Run (Guarded (fun s e ↦ Admissible s e ∧ NoBatch s e) Step) (State.init l5 mms data) es s) :
    Inv ∅ s [] :=
  h.invariant (I := fun s ↦ Inv ∅ s []) (Inv.init l5 mms data) fun _ _ _ hinv hstep ↦ by
    obtain ⟨⟨hadm, hq⟩, rfl⟩ := hstep
    exact hinv.exec hadm (.inl hq)

end ShadowStack.Lkm
