import ShadowStack.Lkm.ForkCopy

/-!
# Secrecy of shadow pages

Two runs of the same calls, from states that differ in the contents of one process's shadow pages
only.  `Agree D` relates the states of the two runs: equal up to the contents of the pages in `D`.
Every operation of the module keeps it, since none of them looks at page contents, except the copy
loop of `sa_fork`, which must not read from `D`.

What `sa_fork` reads is decided by two numbers from user space.  Nothing checks that they name the
caller's parent, so the copy reads from any process whose thread the caller can name.
-/

namespace ShadowStack.Lkm

open Lib State

/-- The same state with other page contents. -/
def State.withData (s : State) (data : Page → PageData) : State := { s with data := data }

/-- The states differ in the contents of pages of `D` at most. -/
def Agree (D : Set Page) (s s₂ : State) : Prop :=
  ∃ data, s₂ = s.withData data ∧ ∀ p, p ∉ D → data p = s.data p

/-- The pages of the live areas of process `g`. -/
def State.pagesOfProcess (s : State) (g : Nat) : Set Page :=
  { p | ∃ id t, s.Live g id t ∧ p ∈ s.pagesOf t.pagelist }

/-- Where shadow areas may be mapped; the last id lies behind the window. -/
def InShadow (a : Nat) : Prop := ssStart ≤ a ∧ a < ssEnd + ssSize

variable {S D : Set Page} {s s' s₁ s₂ : State} {pl : PlPtr} {ans : Answers} {cur : Task}

/-! ## Operations keep agreement -/

namespace Agree

theorem refl (D : Set Page) (s : State) : Agree D s s := ⟨s.data, rfl, fun _ _ ↦ rfl⟩

theorem setAlloc (h : Agree D s s₂) (a : AllocPtr) (d : AllocatorDesc) :
    Agree D (s.setAlloc a d) (s₂.setAlloc a d) := by
  obtain ⟨data, rfl, hdata⟩ := h
  exact ⟨data, rfl, hdata⟩

theorem glFree (h : Agree D s s₂) (pl : PlPtr) : Agree D (s.glFree pl) (s₂.glFree pl) := by
  obtain ⟨data, rfl, hdata⟩ := h
  unfold State.glFree
  by_cases hcap : glSaCapacity ≤ s.glSize
  · have hcap' : glSaCapacity ≤ (s.withData data).glSize := hcap
    rw [if_pos hcap, if_pos hcap']
    exact ⟨data, rfl, hdata⟩
  · have hcap' : ¬ glSaCapacity ≤ (s.withData data).glSize := hcap
    rw [if_neg hcap, if_neg hcap']
    refine ⟨fun p ↦ if p ∈ s.pagesOf pl then fun _ ↦ 0 else data p, rfl, fun p hp ↦ ?_⟩
    simp only [zeroPages, hdata p hp]

/-- `gl_alloc_stack` goes the same way in both states. -/
theorem glAllocStack (h : Agree D s s₂) (ans : Answers) :
    (s.glAllocStack ans = none ∧ s₂.glAllocStack ans = none) ∨
      ∃ pl s' s₂', s.glAllocStack ans = some (pl, s') ∧ s₂.glAllocStack ans = some (pl, s₂') ∧
        Agree D s' s₂' := by
  obtain ⟨data, rfl, hdata⟩ := h
  unfold State.glAllocStack
  cases hgl : s.glSa with
  | cons pl rest =>
      have hgl' : (s.withData data).glSa = pl :: rest := hgl
      simp only [hgl']
      exact .inr ⟨pl, _, _, rfl, rfl, data, rfl, hdata⟩
  | nil =>
      have hgl' : (s.withData data).glSa = [] := hgl
      simp only [hgl']
      by_cases hpl : ans.pagelist = true
      · rw [if_pos hpl, if_pos hpl]
        cases saPagelistAllocPages ans ssPages with
        | none => exact .inl ⟨rfl, rfl⟩
        | some ps =>
            refine .inr ⟨_, _, _, rfl, rfl, fun p ↦ if p ∈ ps then fun _ ↦ 0 else data p, rfl,
              fun p hp ↦ ?_⟩
            simp only [hdata p hp]
      · rw [if_neg hpl, if_neg hpl]
        exact .inl ⟨rfl, rfl⟩

theorem mapArea (h : Agree D s s₂) (mm : MmId) (addr : Nat) (pl : PlPtr) (ans : Answers) :
    ∃ r, s.mapArea mm addr pl ans = s.withTables mm r ∧
      s₂.mapArea mm addr pl ans = s₂.withTables mm r := by
  obtain ⟨data, rfl, -⟩ := h
  exact ⟨_, rfl, rfl⟩

theorem withTables (h : Agree D s s₂) (mm : MmId) (r : Mm × Bool) :
    Agree D (s.withTables mm r).1 (s₂.withTables mm r).1 := by
  obtain ⟨data, rfl, hdata⟩ := h
  exact ⟨data, rfl, hdata⟩

theorem copyData {data data₂ : Page → PageData} (h : ∀ p, p ∉ D → data₂ p = data p)
    {dst src : List Page} (hsrc : ∀ p ∈ src, p ∉ D) :
    ∀ p, p ∉ D → Lkm.copyData data₂ dst src p = Lkm.copyData data dst src p := by
  unfold Lkm.copyData
  induction dst generalizing src data data₂ with
  | nil => simpa using h
  | cons x dst ih =>
      cases src with
      | nil => simpa using h
      | cons y src =>
          rw [List.zip_cons_cons, List.foldl_cons, List.foldl_cons]
          refine ih (fun p hp ↦ ?_) fun p hp ↦ hsrc p (List.mem_cons_of_mem _ hp)
          by_cases hpx : p = x
          · rw [hpx, Function.update_self, Function.update_self, h y (hsrc y (List.mem_cons_self ..))]
          · rw [Function.update_of_ne hpx, Function.update_of_ne hpx, h p hp]

/-- The copy loop, reading outside of `D`. -/
theorem copyPages (h : Agree D s s₂) (dst : List Page) {src : List Page} (hsrc : ∀ p ∈ src, p ∉ D) :
    Agree D (copyPages s dst src) (copyPages s₂ dst src) := by
  obtain ⟨data, rfl, hdata⟩ := h
  exact ⟨Lkm.copyData data dst src, rfl, copyData hdata hsrc⟩

/-! ### What the states have in common -/

theorem allocFind (h : Agree D s s₂) (g : Nat) : s₂.allocFind g = s.allocFind g := by
  obtain ⟨data, rfl, -⟩ := h
  rfl

theorem allocs (h : Agree D s s₂) : s₂.allocs = s.allocs := by
  obtain ⟨data, rfl, -⟩ := h
  rfl

theorem threads (h : Agree D s s₂) (a : AllocPtr) : s₂.threads a = s.threads a := by
  obtain ⟨data, rfl, -⟩ := h
  rfl

theorem pagesOf (h : Agree D s s₂) (pl : PlPtr) : s₂.pagesOf pl = s.pagesOf pl := by
  obtain ⟨data, rfl, -⟩ := h
  rfl

theorem pteAt (h : Agree D s s₂) (mm : MmId) (a : Nat) :
    (s₂.mms mm).pteAt s₂.l5 a = (s.mms mm).pteAt s.l5 a := by
  obtain ⟨data, rfl, -⟩ := h
  rfl

theorem data_eq (h : Agree D s s₂) {p : Page} (hp : p ∉ D) : s₂.data p = s.data p := by
  obtain ⟨data, rfl, hdata⟩ := h
  exact hdata p hp

theorem allocOk (h : Agree D s s₂) (hs : AllocOk s) : AllocOk s₂ := by
  obtain ⟨data, rfl, -⟩ := h
  exact hs.congr rfl rfl rfl rfl rfl

/-! ### The calls -/

theorem allocGet_none (h : Agree D s s₂) {g : Nat} (hget : s.allocGet g = none) :
    s₂.allocGet g = none := by
  cases hf : s.allocFind g with
  | none => simp only [State.allocGet, h.allocFind, hf]
  | some a =>
      cases hd : s.allocs a with
      | none => simp only [State.allocGet, h.allocFind, h.allocs, hf, hd]
      | some d =>
          by_cases hk : d.kref = 0
          · simp only [State.allocGet, h.allocFind, h.allocs, hf, hd, hk, ↓reduceIte]
          · rw [allocGet_eq hf hd hk] at hget
            cases hget

/-- `sa_alloc` goes the same way in both states. -/
theorem saAlloc (h : Agree D s s₂) (cur : Task) (ans : Answers) :
    Agree D (saAlloc s cur ans).2 (saAlloc s₂ cur ans).2 := by
  cases hmm : cur.mm with
  | none => simpa only [Lkm.saAlloc, hmm] using h
  | some mm =>
      cases hget : s.allocGet cur.tgid with
      | none => simpa only [Lkm.saAlloc, hmm, hget, h.allocGet_none hget] using h
      | some r =>
          obtain ⟨a, s'⟩ := r
          obtain ⟨d, hfind, hd, hk, rfl⟩ := allocGet_eq_some hget
          have hd₂ : s₂.allocs a = some d := by rw [h.allocs, hd]
          have hget₂ := allocGet_eq (s := s₂) (by rw [h.allocFind, hfind]) hd₂ hk
          have hput : ∀ s₀ : State, s₀.allocs a = some d →
              (s₀.setAlloc a { d with kref := d.kref + 1 }).allocPut a ans = s₀ := by
            intro s₀ h₀
            rw [allocPut_eq setAlloc_allocs hk, setAlloc_setAlloc, setAlloc_self h₀]
          have hxa₂ : (s₂.setAlloc a { d with kref := d.kref + 1 }).xaAlloc a ans =
              (s.setAlloc a { d with kref := d.kref + 1 }).xaAlloc a ans := by
            simp only [xaAlloc, threads_eq setAlloc_allocs]
          cases hxa : (s.setAlloc a { d with kref := d.kref + 1 }).xaAlloc a ans with
          | error e =>
              rw [hxa] at hxa₂
              simpa only [Lkm.saAlloc, hmm, hget, hget₂, hxa, hxa₂, hput s hd, hput s₂ hd₂] using h
          | ok id =>
              rw [hxa] at hxa₂
              have hfree : d.threads.slot id = none := by
                have hlow := (xaAlloc_eq_ok hxa).1
                rw [threads_eq setAlloc_allocs] at hlow
                exact (Xarray.lowestFree_eq_some hlow).2.2.1
              rw [saAlloc_eq hmm hget hd hk hfree hxa, saAlloc_eq hmm hget₂ hd₂ hk hfree hxa₂]
              by_cases hth : ans.thread = true
              · rw [if_pos hth, if_pos hth]
                rcases h.glAllocStack ans with ⟨hn, hn₂⟩ | ⟨pl, s₃, s₄, hs, hs₂, h'⟩
                · rw [hn, hn₂]
                  exact h
                · rw [hs, hs₂]
                  obtain ⟨r, hr, hr₂⟩ := h'.mapArea mm (idToAddr id) pl ans
                  simp only [hr, hr₂]
                  have hsnd : ∀ s₀ : State, (s₀.withTables mm r).2 = r.2 := fun _ ↦ rfl
                  rw [hsnd, hsnd]
                  by_cases herr : r.2 = true
                  · rw [if_pos herr, if_pos herr]
                    exact (h'.withTables mm r).glFree pl
                  · rw [if_neg herr, if_neg herr]
                    exact (h'.withTables mm r).setAlloc a _
              · rw [if_neg hth, if_neg hth]
                exact h

/-- `sa_fork` goes the same way in both states, if it does not copy from `D`. -/
theorem saFork (h : Agree D s s₂) (cur : Task) (ans : Answers) {pt pp : Nat}
    (hsrc : ∀ parent id t pl s₁, s.allocFind pt = some parent →
      ((s.threads parent).find? fun t ↦ t.tid == pp) = some (id, t) →
      s.glAllocStack ans = some (pl, s₁) → ∀ p ∈ s₁.pagesOf t.pagelist, p ∉ D) :
    Agree D (saFork s cur ans pt pp).2 (saFork s₂ cur ans pt pp).2 := by
  cases hmm : cur.mm with
  | none => simpa only [Lkm.saFork, hmm] using h
  | some mm =>
      cases hget : s.allocGet cur.tgid with
      | none => simpa only [Lkm.saFork, hmm, hget, h.allocGet_none hget] using h
      | some r =>
          obtain ⟨a, s'⟩ := r
          obtain ⟨d, hfind, hd, hk, rfl⟩ := allocGet_eq_some hget
          have hd₂ : s₂.allocs a = some d := by rw [h.allocs, hd]
          have hget₂ := allocGet_eq (s := s₂) (by rw [h.allocFind, hfind]) hd₂ hk
          cases hparent : s.allocFind pt with
          | none =>
              have hput : ∀ s₀ : State, s₀.allocs a = some d →
                  (s₀.setAlloc a { d with kref := d.kref + 1 }).allocPut a ans = s₀ := by
                intro s₀ h₀
                rw [allocPut_eq setAlloc_allocs hk, setAlloc_setAlloc, setAlloc_self h₀]
              have hp : (s.setAlloc a { d with kref := d.kref + 1 }).allocFind pt = none := hparent
              have hp₂ : (s₂.setAlloc a { d with kref := d.kref + 1 }).allocFind pt = none :=
                (h.allocFind pt).trans hparent
              simpa only [Lkm.saFork, hmm, hget, hget₂, hp, hp₂, hput s hd, hput s₂ hd₂] using h
          | some parent =>
              rw [saFork_eq hmm hget hd hk hparent,
                saFork_eq hmm hget₂ hd₂ hk ((h.allocFind pt).trans hparent), h.threads]
              by_cases hth : ans.thread = true
              · rw [if_pos hth, if_pos hth]
                rcases h.glAllocStack ans with ⟨hn, hn₂⟩ | ⟨pl, s₃, s₄, hs, hs₂, h'⟩
                · rw [hn, hn₂]
                  exact h
                · rw [hs, hs₂]
                  cases hp : (s.threads parent).find? fun t ↦ t.tid == pp with
                  | none => exact h'.glFree pl
                  | some r =>
                      obtain ⟨id, t⟩ := r
                      simp only [h'.pagesOf]
                      have hc := h'.copyPages (s₃.pagesOf pl)
                        (hsrc parent id t pl s₃ hparent hp hs)
                      obtain ⟨s₅, hs₅⟩ : ∃ s₅, Lkm.copyPages s₃ (s₃.pagesOf pl)
                        (s₃.pagesOf t.pagelist) = s₅ := ⟨_, rfl⟩
                      obtain ⟨s₆, hs₆⟩ : ∃ s₆, Lkm.copyPages s₄ (s₃.pagesOf pl)
                        (s₃.pagesOf t.pagelist) = s₆ := ⟨_, rfl⟩
                      rw [hs₅, hs₆] at hc ⊢
                      by_cases hin : (d.threads.slot id).isSome = true
                      · rw [if_pos hin, if_pos hin]
                        exact hc.glFree pl
                      rw [if_neg hin, if_neg hin]
                      by_cases hmem : (!ans.xaMem) = true
                      · rw [if_pos hmem, if_pos hmem]
                        exact hc.glFree pl
                      rw [if_neg hmem, if_neg hmem]
                      obtain ⟨r, hr, hr₂⟩ := hc.mapArea mm (idToAddr id) pl ans
                      rw [hr, hr₂]
                      have hsnd : ∀ s₀ : State, (s₀.withTables mm r).2 = r.2 := fun _ ↦ rfl
                      rw [hsnd, hsnd]
                      by_cases herr : r.2 = true
                      · rw [if_pos herr, if_pos herr]
                        exact (hc.withTables mm r).glFree pl
                      · rw [if_neg herr, if_neg herr]
                        exact (hc.withTables mm r).setAlloc a _
              · rw [if_neg hth, if_neg hth]
                exact h

/-- `sa_free` goes the same way in both states. -/
theorem saFree (h : Agree D s s₂) (hok : AllocOk s) (cur : Task) (ans : Answers) (addr : Nat) :
    Agree D (saFree s cur ans addr).2 (saFree s₂ cur ans addr).2 := by
  have hok₂ := h.allocOk hok
  cases hmm : cur.mm with
  | none => simpa only [Lkm.saFree, hmm] using h
  | some mm =>
      by_cases hv : addr < ssStart ∨ ssEnd ≤ addr ∨ (addr - ssStart) % ssSize ≠ 0
      · simpa only [Lkm.saFree, hmm, if_pos hv] using h
      have hv' : ValidAddr addr := by
        simp only [not_or, not_lt, not_le, ne_eq, not_not] at hv
        exact hv
      cases hfind : s.allocFind cur.tgid with
      | none => simpa only [Lkm.saFree, hmm, if_neg hv, hfind, h.allocFind] using h
      | some a =>
          have hfind₂ := (h.allocFind cur.tgid).trans hfind
          cases hload : (s.threads a).load (addrToId addr) with
          | none =>
              have hload₂ : (s₂.threads a).load (addrToId addr) = none := by rw [h.threads, hload]
              simpa only [Lkm.saFree, hmm, if_neg hv, hfind, hfind₂, hload, hload₂,
                hok.erase_eq hload, hok₂.erase_eq hload₂] using h
          | some t =>
              obtain ⟨d, hd, hg⟩ := hok.find hfind
              have hload₂ : (s₂.threads a).load (addrToId addr) = some t := by rw [h.threads, hload]
              rw [saFree_eq hmm hv' hfind hload, saFree_eq hmm hv' hfind₂ hload₂]
              rw [threads_eq hd] at hload
              have hd₂ : s₂.allocs a = some d := by rw [h.allocs, hd]
              rw [hok.free_eq hd (by rw [hg, hfind]) hload,
                hok₂.free_eq hd₂ (by rw [hg, hfind₂]) hload]
              exact (h.setAlloc a _).glFree _

end Agree

/-! ## What keeps a secret -/

/-- A PTE that maps no page of `D`. -/
def PteApart (D : Set Page) : Pte → Prop
  | .present p => p ∉ D
  | .wild => False
  | _ => True

/-- The pages of `D` belong to live areas of process `P`, and none of them is mapped in the shadow
areas of the address space `mq`. -/
structure Secret (D : Set Page) (P : Nat) (mq : MmId) (s : State) : Prop where
  inv : Inv Set.univ s []
  owned : ∀ p ∈ D, p ∈ s.pagesOfProcess P
  apart : ∀ a, InShadow a → PteApart D ((s.mms mq).pteAt s.l5 a)

/-- Pages of a process stay its pages as long as its descriptors keep their pagelists. -/
theorem State.pagesOfProcess_mono {P : Nat}
    (h : ∀ id t, s.Live P id t → s'.Live P id t ∧ s'.pagesOf t.pagelist = s.pagesOf t.pagelist)
    {p : Page} (hp : p ∈ s.pagesOfProcess P) : p ∈ s'.pagesOfProcess P := by
  obtain ⟨id, t, ht, hp⟩ := hp
  obtain ⟨ht', hpages⟩ := h id t ht
  exact ⟨id, t, ht', by rw [hpages]; exact hp⟩

/-- The pages of the call are not those of a process. -/
theorem Prepared.apart (h : Prepared S s s₁ pl) (hinv : Inv S s []) {P : Nat}
    (howned : ∀ p ∈ D, p ∈ s.pagesOfProcess P) {p : Page} (hp : p ∈ s₁.pagesOf pl) : p ∉ D := by
  intro hD
  obtain ⟨id, t, ht, hpt⟩ := howned p hD
  obtain ⟨-, hpages, hne⟩ := h.live hinv ht
  exact hne (h.inv.live_page (by rw [hpages]; exact hpt) hp)

/-- Mapping the call's pages keeps the secret apart, however far the mapping gets. -/
theorem Secret.mapArea {P : Nat} {mq : MmId} (h : Secret D P mq s)
    (hp : Prepared Set.univ s s₁ pl) {mm : MmId} {id : Nat} (hid : id ≤ threadsLimit)
    {r : Mm × Bool} (hr : s₁.mapArea mm (idToAddr id) pl ans = s₁.withTables mm r) {a : Nat}
    (ha : InShadow a) : PteApart D (((s₁.withTables mm r).1.mms mq).pteAt s.l5 a) := by
  have ha64 : a < 2 ^ 64 := lt_trans ha.2 (by decide)
  have hmms : (s₁.withTables mm r).1.mms = Function.update s.mms mm r.1 := by
    rw [← hp.frame.mms]
    rfl
  rw [hmms]
  by_cases hmq : mq = mm
  · obtain ⟨m, hm⟩ := mapArea_rewrites hid s₁ mm pl ans
    have hlook := hm.look a ⟨ha.1, ha64⟩
    rw [hr, hmms, hp.frame.l5, hp.frame.mms] at hlook
    rw [hmq, hlook]
    split
    · next harea =>
        obtain ⟨l, hl⟩ := hp.inv.pagelist_of_call
        obtain ⟨p, hpage, hpte⟩ := mkPte_idToAddr (s₁.pagesOf pl)
          (by rw [pagesOf_eq hl]; exact hp.inv.pages.size pl l hl) harea.1
          (lt_of_lt_of_le harea.2 hm.le_end) ha64
        rw [hpte]
        exact hp.apart h.inv h.owned (List.mem_of_getElem? hpage)
    · rw [← hmq]
      exact h.apart a ha
  · rw [Function.update_of_ne hmq]
    exact h.apart a ha

section Calls

variable {P : Nat} {mq : MmId}

/-- A call that gives its pagelist up, after mapping some of it or none. -/
theorem Secret.glFree (h : Secret D P mq s) (hp : Prepared Set.univ s s₁ pl) {mm : MmId}
    {r : Mm × Bool}
    (hr : ∀ a, InShadow a → PteApart D (((s₁.withTables mm r).1.mms mq).pteAt s.l5 a)) :
    Secret D P mq ((s₁.withTables mm r).1.glFree pl) where
  inv := (hp.inv.withTables mm r).glFree
  owned p hD := pagesOfProcess_mono (fun _ _ ht ↦ hp.live_glFree h.inv ht mm r) (h.owned p hD)
  apart a ha := by
    have hframe := glFree_frame (s₁.withTables mm r).1 pl
    have hl5 : (s₁.withTables mm r).1.l5 = s.l5 := hp.frame.l5
    rw [hframe.mms, hframe.l5, hl5]
    exact hr a ha

/-- A call that succeeds in mapping its pagelist. -/
theorem Secret.add (h : Secret D P mq s) (hp : Prepared Set.univ s s₁ pl) {mm : MmId}
    {a : AllocPtr} {d : AllocatorDesc} (hd : s.allocs a = some d) {id tid : Nat}
    (hfree : d.threads.slot id = none) (hid : id ≤ threadsLimit) {r : Mm × Bool}
    (hr : s₁.mapArea mm (idToAddr id) pl ans = s₁.withTables mm r) :
    Secret D P mq ((s₁.withTables mm r).1.setAlloc a (d.add id ⟨tid, idToAddr id, pl⟩)) where
  inv := by
    refine (hp.inv.withTables mm r).add ?_ hfree hid
    have hallocs : (s₁.withTables mm r).1.allocs = s₁.allocs := rfl
    rw [hallocs, hp.frame.allocs, hd]
  owned p hD :=
    pagesOfProcess_mono (fun _ _ ht ↦ hp.live_add h.inv ht hd hfree mm r) (h.owned p hD)
  apart b hb := by
    have hl5 : ((s₁.withTables mm r).1.setAlloc a (d.add id ⟨tid, idToAddr id, pl⟩)).l5 = s.l5 :=
      hp.frame.l5
    rw [hl5]
    exact h.mapArea hp hid hr hb

theorem Secret.glFree_self (h : Secret D P mq s) (hp : Prepared Set.univ s s₁ pl) :
    Secret D P mq (s₁.glFree pl) := by
  have hself : (s₁.withTables 0 (s₁.mms 0, false)).1 = s₁ := by simp [State.withTables]
  have hr : ∀ a, InShadow a →
      PteApart D (((s₁.withTables 0 (s₁.mms 0, false)).1.mms mq).pteAt s.l5 a) := by
    intro a ha
    rw [hself, hp.frame.mms]
    exact h.apart a ha
  have hfree := h.glFree hp hr
  rwa [hself] at hfree

theorem Secret.saAlloc (h : Secret D P mq s) (hfresh : ans.Fresh s) (cur : Task) :
    Secret D P mq (saAlloc s cur ans).2 := by
  rcases saAlloc_cases s cur ans with
    ⟨-, heq⟩ | ⟨mm, a, d, pl, s₁, id, hm, hlow, ⟨-, -, heq⟩ | ⟨-, -, heq⟩⟩
  · rwa [heq]
  all_goals
    obtain ⟨-, hid, hfree, -⟩ := Xarray.lowestFree_eq_some hlow
    have hp := h.inv.prepared hfresh hm.stack
    obtain ⟨r, hr⟩ := mapArea_eq s₁ mm (idToAddr id) pl ans
    rw [heq, hr]
  · exact h.glFree hp fun a ha ↦ h.mapArea hp hid hr ha
  · exact h.add hp hm.alloc hfree hid hr

theorem Secret.saFork (h : Secret D P mq s) (hfresh : ans.Fresh s) (cur : Task) (pt pp : Nat) :
    Secret D P mq (saFork s cur ans pt pp).2 := by
  rcases saFork_cases s cur ans pt pp with
    ⟨-, heq⟩ | ⟨mm, a, d, pl, s₁, parent, hm, hparent, ⟨-, heq⟩ | ⟨id, t, s₂, ht, hs₂, hrest⟩⟩
  · rwa [heq]
  · rw [heq]
    exact h.glFree_self (h.inv.prepared hfresh hm.stack)
  · have hp : Prepared Set.univ s s₂ pl := by
      rw [hs₂]
      exact (h.inv.prepared hfresh hm.stack).copyPages _ _
    have hid := h.inv.alloc.find_le hparent ht
    obtain ⟨r, hr⟩ := mapArea_eq s₂ mm (idToAddr id) pl ans
    rcases hrest with ⟨-, heq⟩ | ⟨hfree, ⟨-, -, heq⟩ | ⟨-, -, heq⟩⟩
    · rw [heq]
      exact h.glFree_self hp
    · rw [heq, hr]
      exact h.glFree hp fun a ha ↦ h.mapArea hp hid hr ha
    · rw [heq, hr]
      exact h.add hp hm.alloc hfree hid hr

/-- Removing a descriptor of another process. -/
theorem Secret.saFree (h : Secret D P mq s) {cur : Task} (hPQ : cur.tgid ≠ P) (ans : Answers)
    (addr : Nat) : Secret D P mq (saFree s cur ans addr).2 := by
  have hinv := h.inv.saFree cur ans addr
  rcases h.inv.alloc.saFree_cases cur ans addr with
    ⟨-, heq⟩ | ⟨mm, a, d, t, -, -, hfind, hd, hreg, ht, -, heq⟩
  · rwa [heq]
  · rw [heq] at hinv ⊢
    obtain ⟨s₁, hs₁⟩ : ∃ s₁, s.setAlloc a (d.remove (addrToId addr)) = s₁ := ⟨_, rfl⟩
    have hframe := glFree_frame s₁ t.pagelist
    have hallocs : s₁.allocs = Function.update s.allocs a (some (d.remove (addrToId addr))) := by
      rw [← hs₁]
      rfl
    have hsame : s₁.saAllocators = s.saAllocators ∧ s₁.mms = s.mms ∧ s₁.l5 = s.l5 ∧
        s₁.pagelists = s.pagelists := by
      rw [← hs₁]
      exact ⟨rfl, rfl, rfl, rfl⟩
    obtain ⟨hreg₁, hmms₁, hl5₁, hpls₁⟩ := hsame
    rw [hs₁] at hinv ⊢
    refine ⟨hinv, fun p hD ↦ pagesOfProcess_mono (fun id t' ht' ↦ ?_) (h.owned p hD),
      fun b hb ↦ ?_⟩
    · have hne : t'.pagelist ≠ t.pagelist := fun hc ↦
        hPQ (h.inv.live_group ht' ⟨a, d, hfind, hd, ht⟩ hc).symm
      refine ⟨?_, ?_⟩
      · obtain ⟨b, e, hb, he, hload⟩ := ht'
        have hba : b ≠ a := fun hc ↦ by
          obtain ⟨e', he', hg⟩ := h.inv.alloc.find hb
          obtain ⟨d', hd', hg'⟩ := h.inv.alloc.find hfind
          rw [hc, hd'] at he'
          rw [Option.some.inj he', hg] at hg'
          exact hPQ hg'.symm
        refine ⟨b, e, ?_, ?_, hload⟩
        · rw [State.allocFind, hframe.saAllocators, hreg₁]
          exact hb
        · rw [hframe.allocs, hallocs, Function.update_of_ne hba, he]
      · rw [glFree_pagesOf hne, State.pagesOf, hpls₁, State.pagesOf]
    · rw [hframe.mms, hframe.l5, hmms₁, hl5₁]
      exact h.apart b hb

end Calls

/-! ## Runs -/

/-- A call of process `Q`, on its address space `mq`, that comes from an `ioctl`. -/
structure IoctlBy (Q : Nat) (mq : MmId) (s : State) (e : Event) : Prop where
  fresh : e.ans.Fresh s
  tgid : e.cur.tgid = Q
  mm : ∀ mm, e.cur.mm = some mm → mm = mq
  call : e.call = .saAlloc ∨ (∃ pt pp, e.call = .saFork pt pp) ∨ ∃ addr, e.call = .saFree addr

/-- The call does not ask `sa_fork` for a live thread of `P`. -/
def ForksElsewhere (P : Nat) (s : State) (e : Event) : Prop :=
  ∀ pp, e.call = .saFork P pp → ∀ id t, s.Live P id t → t.tid ≠ pp

/-- **One call keeps the secret and the agreement.** -/
theorem Secret.exec {P Q : Nat} {mq : MmId} (h : Secret D P mq s) (hagree : Agree D s s₂)
    (hPQ : Q ≠ P) {e : Event} (he : IoctlBy Q mq s e) (hforks : ForksElsewhere P s e) :
    Secret D P mq (exec s e).2 ∧ Agree D (exec s e).2 (exec s₂ e).2 := by
  obtain ⟨cur, call, ans⟩ := e
  obtain ⟨hfresh, rfl, -, hcall⟩ := he
  rcases hcall with rfl | ⟨pt, pp, rfl⟩ | ⟨addr, rfl⟩
  · exact ⟨h.saAlloc hfresh cur, hagree.saAlloc cur ans⟩
  · refine ⟨h.saFork hfresh cur pt pp, hagree.saFork cur ans fun parent id t pl s₁ hp ht hs p hmem ↦ ?_⟩
    -- the thread copied from is not one of `P`, so its pages are not
    have hpre := h.inv.prepared hfresh hs
    obtain ⟨d, hd, hg⟩ := h.inv.alloc.find hp
    obtain ⟨hload, htid, -⟩ := Xarray.find?_eq_some ht
    have hlive : s.Live pt id t := ⟨parent, d, hp, hd, by rwa [threads_eq hd] at hload⟩
    rw [(hpre.live h.inv hlive).2.1] at hmem
    intro hD
    obtain ⟨id', t', ht', hmem'⟩ := h.owned p hD
    obtain rfl : pt = P := h.inv.live_group hlive ht' (h.inv.live_page hmem hmem')
    exact hforks pp rfl id t hlive (by simpa using htid)
  · exact ⟨h.saFree hPQ ans addr, hagree.saFree h.inv.alloc cur ans addr⟩

/-- Pages apart from `D` read the same. -/
theorem Secret.read_eq {P : Nat} {mq : MmId} (h : Secret D P mq s) (hagree : Agree D s s₂) {a : Nat}
    (ha : InShadow a) : s₂.read mq a = s.read mq a := by
  have hpte := h.apart a ha
  unfold State.read
  rw [hagree.pteAt]
  cases hp : (s.mms mq).pteAt s.l5 a with
  | present p =>
      rw [hp] at hpte
      simp only [hagree.data_eq hpte]
  | none => rfl
  | absent => rfl
  | wild => rfl

/-- **Secrecy over whole runs**: two runs of the same calls by `Q`, from states that differ in the
contents of the pages of `P` only, end with the same bytes in all shadow areas of `Q`.  None of the
calls may ask for a thread of `P`, and none of its pages may be mapped for `Q` to begin with. -/
theorem run_secrecy {l5 : Bool} {mms : MmId → Mm} {data data₁ data₂ : Page → PageData}
    {es₀ es : List Event} {t₁ t₂ : State} {P Q : Nat} {mq : MmId}
    (hreach : Run (Guarded Admissible Step) (State.init l5 mms data) es₀ s) (hPQ : Q ≠ P)
    (hdata : ∀ p, p ∉ s.pagesOfProcess P → data₂ p = data₁ p)
    (hapart : ∀ a, InShadow a → PteApart (s.pagesOfProcess P) ((s.mms mq).pteAt s.l5 a))
    (hrun₁ : Run (Guarded (fun s e ↦ IoctlBy Q mq s e ∧ ForksElsewhere P s e) Step)
      (s.withData data₁) es t₁)
    (hrun₂ : Run Step (s.withData data₂) es t₂) {a : Nat} (ha : InShadow a) :
    t₂.read mq a = t₁.read mq a := by
  obtain ⟨D, hD⟩ : ∃ D, s.pagesOfProcess P = D := ⟨_, rfl⟩
  rw [hD] at hdata hapart
  have hinv := Inv.of_run hreach
  have hstart : Secret D P mq (s.withData data₁) ∧ Agree D (s.withData data₁) (s.withData data₂) :=
    ⟨⟨⟨hinv.alloc.congr rfl rfl rfl rfl rfl, hinv.pages.congr rfl rfl rfl,
      hinv.owners.congr rfl rfl rfl⟩, fun p hp ↦ hD ▸ hp, hapart⟩, data₂, rfl, hdata⟩
  obtain ⟨hsecret, hagree⟩ := hrun₁.relate (R := fun s s₂ ↦ Secret D P mq s ∧ Agree D s s₂) hstart
    (fun t e t' u u' ⟨h₁, h₂⟩ ⟨⟨he, hforks⟩, hs⟩ hs' ↦ by
      rw [hs, hs']
      exact h₁.exec h₂ hPQ he hforks) hrun₂
  exact hsecret.read_eq hagree ha

/-! ## A fork from anywhere -/

/-- After a successful `sa_fork` the caller reads the first byte of the thread it named. -/
theorem saFork_read (h : Inv S s []) (hfresh : ans.Fresh s) {mm : MmId} {pt pp : Nat}
    (hmm : cur.mm = some mm) (hok : (saFork s cur ans pt pp).1 = ⟨none, none⟩) :
    ∃ id t q, s.Live pt id t ∧ t.tid = pp ∧ q ∈ s.pagesOf t.pagelist ∧
      (saFork s cur ans pt pp).2.read mm (idToAddr id) = some (s.data q 0) := by
  obtain ⟨mm', a, d, pl, s₁, parent, id, t, s₂, hm, hmap⟩ := saFork_ok (by rw [hok])
  obtain rfl : mm' = mm := Option.some.inj (hm.mm.symm.trans hmm)
  obtain ⟨hload, htid, -⟩ := Xarray.find?_eq_some hm.found
  obtain ⟨e, he, hg⟩ := h.alloc.find hm.findParent
  obtain ⟨q, hq, hread⟩ := hm.read h hfresh hmap (show 0 < ssSize by decide)
  refine ⟨id, t, q, ⟨parent, e, hm.findParent, he, by rwa [threads_eq he] at hload⟩,
    by simpa using htid, List.mem_of_getElem? hq, ?_⟩
  simpa using hread

theorem ioctlBy_forkEvent (h : Filled 1 s) : IoctlBy 2 1 s forkEvent :=
  ⟨h.fresh, rfl, by simp [forkEvent], .inr (.inl ⟨1, 1, rfl⟩)⟩

/-- The pages of process 1 are not mapped for process 2. -/
theorem Shared.apart (h : Shared 1 s) (D : Set Page) {a : Nat} (ha : InShadow a) :
    PteApart D ((s.mms 1).pteAt s.l5 a) := by
  have hidx : pgdIndex false a ≠ 0 := by
    have h₁ := ha.1
    have h₂ := ha.2
    simp only [ssStart, ssEnd, ssSize] at h₁ h₂
    simp only [pgdIndex, pgdirShift, ptrs, Bool.false_eq_true, ↓reduceIte]
    omega
  have hnone : textMm.pgd (pgdIndex false a) = .none := by simp [textMm, hidx]
  rw [h.mm, h.l5, Mm.pteAt, hnone]
  trivial

theorem Shared.withData (h : Shared 1 s) (data : Page → PageData) : Shared 1 (s.withData data) :=
  ⟨⟨h.filled.find, h.filled.alloc, h.filled.gl, h.filled.held⟩, h.load, h.find, h.alloc, h.mm, h.l5, h.mapped⟩

/-- `sa_alloc` by process 2. -/
def allocEvent₂ : Event := ⟨⟨2, 2, some 1⟩, .saAlloc, grants (1 * ssPages)⟩

/-- Next to process 1, whose pages hold zeros in one run and ones in the other, process 2 asks for
an area of its own. -/
theorem run_secrecy_alloc : ∃ (es₀ : List Event) (s : State) (data₂ : Page → PageData),
    Run (Guarded Admissible Step) (State.init false (fun _ ↦ textMm) fun _ _ ↦ 0) es₀ s ∧
      (∀ p ∈ s.pagesOfProcess 1, data₂ p 0 = 1) ∧
      (exec (s.withData data₂) allocEvent₂).2.read 1 ssStart =
        (exec (s.withData fun _ _ ↦ 0) allocEvent₂).2.read 1 ssStart := by
  classical
  obtain ⟨es₀, s, hrun, hs⟩ := shared_run 1
  let data₂ : Page → PageData := fun p _ ↦ if p ∈ s.pagesOfProcess 1 then 1 else 0
  have hby : IoctlBy 2 1 (s.withData fun _ _ ↦ 0) allocEvent₂ :=
    ⟨(hs.withData _).filled.fresh, rfl, by simp [allocEvent₂], .inl rfl⟩
  have helse : ForksElsewhere 1 (s.withData fun _ _ ↦ 0) allocEvent₂ := fun pp hpp ↦ by
    simp [allocEvent₂] at hpp
  refine ⟨es₀, s, data₂, hrun, fun p hp ↦ by simp [data₂, hp], ?_⟩
  exact run_secrecy hrun (P := 1) (Q := 2) (by decide) (fun p hp ↦ by simp [data₂, hp])
    (fun a ha ↦ hs.apart _ ha) (Run.single ⟨⟨hby, helse⟩, rfl⟩) (Run.single rfl)
    ⟨le_rfl, by decide⟩

/-- A process that forks from another one reads what the other has on its shadow stack: secrecy
fails on some pair of runs. -/
theorem not_run_secrecy :
    ¬ ∀ (l5 : Bool) (mms : MmId → Mm) (data data₁ data₂ : Page → PageData) (es₀ es : List Event)
      (s t₁ t₂ : State) (P Q : Nat) (mq : MmId),
      Run (Guarded Admissible Step) (State.init l5 mms data) es₀ s → Q ≠ P →
      (∀ p, p ∉ s.pagesOfProcess P → data₂ p = data₁ p) →
      (∀ a, InShadow a → PteApart (s.pagesOfProcess P) ((s.mms mq).pteAt s.l5 a)) →
      Run (Guarded (IoctlBy Q mq) Step) (s.withData data₁) es t₁ →
      Run Step (s.withData data₂) es t₂ →
      ∀ a, InShadow a → t₂.read mq a = t₁.read mq a := by
  classical
  intro h
  obtain ⟨es₀, s, hrun, hs⟩ := shared_run 1
  have hinv := Inv.of_run hrun
  have hinv' : ∀ data, Inv Set.univ (s.withData data) [] := fun data ↦
    ⟨hinv.alloc.congr rfl rfl rfl rfl rfl, hinv.pages.congr rfl rfl rfl,
      hinv.owners.congr rfl rfl rfl⟩
  have hs' : ∀ data, Shared 1 (s.withData data) := hs.withData
  -- what process 2 reads at the start of its only area
  have hread : ∀ data, ∃ q ∈ s.pagesOfProcess 1,
      (exec (s.withData data) forkEvent).2.read 1 (idToAddr 0) = some (data q 0) := by
    intro data
    obtain ⟨id, t, q, hlive, -, hq, hr⟩ := saFork_read (hinv' data) (hs' data).filled.fresh rfl
      (hs' data).saFork
    obtain rfl := (hs' data).live hlive
    exact ⟨q, ⟨0, t, hlive, hq⟩, hr⟩
  let data₂ : Page → PageData := fun p _ ↦ if p ∈ s.pagesOfProcess 1 then 1 else 0
  have hsame := h _ _ _ (fun _ _ ↦ 0) data₂ _ [forkEvent] s _ _ 1 2 1 hrun (by decide)
    (fun p hp ↦ by simp [data₂, hp]) (fun a ha ↦ hs.apart _ ha)
    (Run.single ⟨ioctlBy_forkEvent (hs' _).filled, rfl⟩) (Run.single rfl) (idToAddr 0)
    ⟨ssStart_le_idToAddr (Nat.zero_le _), by decide⟩
  obtain ⟨q₁, -, h₁⟩ := hread fun _ _ ↦ 0
  obtain ⟨q₂, hq₂, h₂⟩ := hread data₂
  rw [h₁, h₂] at hsame
  simp [data₂, hq₂] at hsame

end ShadowStack.Lkm
