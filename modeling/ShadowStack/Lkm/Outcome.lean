import ShadowStack.Lkm.State

/-!
# What a call can do

Each entry point of `lkm/core/api.c` takes resources in turn and, on failure, jumps to a label that
gives back what it took so far.  Here this is read once and for all: `saAlloc_cases`,
`saFork_cases` and `saFree_cases` list the outcomes of a call together with the state each of them
leaves.  Invariants are proved from these lists and do not open the calls again.

Taking a reference, reserving a slot and giving both back cancel out, so most failures leave the
state as it was.  To see this, a call's changes of its own allocator are moved past the other
operations, none of which looks at allocators: `setAlloc` commutes with them.
-/

namespace ShadowStack.Lkm

open Lib

namespace State

variable {s : State} {a : AllocPtr} {d e : AllocatorDesc} {ans : Answers}

/-! ## One allocator -/

/-- Put an allocator at its place. -/
def setAlloc (s : State) (a : AllocPtr) (d : AllocatorDesc) : State :=
  { s with allocs := Function.update s.allocs a (some d) }

theorem modAlloc_eq (h : s.allocs a = some d) (f : AllocatorDesc → AllocatorDesc) :
    s.modAlloc a f = s.setAlloc a (f d) := by
  simp [modAlloc, setAlloc, h]

theorem modThreads_eq (h : s.allocs a = some d) (f : Xarray ThreadDesc → Xarray ThreadDesc) :
    s.modThreads a f = s.setAlloc a { d with threads := f d.threads } :=
  modAlloc_eq h _

@[simp] theorem setAlloc_allocs : (s.setAlloc a d).allocs a = some d := by
  simp [setAlloc]

@[simp] theorem setAlloc_saAllocators : (s.setAlloc a d).saAllocators = s.saAllocators := rfl

@[simp] theorem setAlloc_setAlloc : (s.setAlloc a d).setAlloc a e = s.setAlloc a e := by
  simp [setAlloc]

theorem setAlloc_self (h : s.allocs a = some d) : s.setAlloc a d = s := by
  simp [setAlloc, ← h]

theorem setAlloc_allocs_of_ne {b : AllocPtr} (h : b ≠ a) :
    (s.setAlloc a d).allocs b = s.allocs b := by
  simp [setAlloc, h]

theorem threads_eq (h : s.allocs a = some d) : s.threads a = d.threads := by
  simp [threads, h]

theorem threads_setAlloc (b : AllocPtr) :
    (s.setAlloc a d).threads b = if b = a then d.threads else s.threads b := by
  by_cases h : b = a <;> simp [threads, setAlloc, h]

/-! ## Changes of one allocator commute with the rest -/

@[simp] theorem pagesOf_setAlloc (pl : PlPtr) : (s.setAlloc a d).pagesOf pl = s.pagesOf pl := rfl

theorem glAllocStack_setAlloc :
    (s.setAlloc a d).glAllocStack ans =
      (s.glAllocStack ans).map fun r ↦ (r.1, r.2.setAlloc a d) := by
  obtain ⟨l5, reg, allocs, na, pls, np, gl, sz, held, data, mms, destroyed, callbacks⟩ := s
  unfold glAllocStack setAlloc
  cases gl with
  | cons pl rest => rfl
  | nil =>
      simp only
      split
      · split <;> rfl
      · rfl

theorem glFree_setAlloc (pl : PlPtr) : (s.setAlloc a d).glFree pl = (s.glFree pl).setAlloc a d := by
  unfold glFree
  by_cases h : glSaCapacity ≤ s.glSize
  · have h' : glSaCapacity ≤ (s.setAlloc a d).glSize := h
    rw [if_pos h, if_pos h']
    rfl
  · have h' : ¬ glSaCapacity ≤ (s.setAlloc a d).glSize := h
    rw [if_neg h, if_neg h']
    rfl

theorem mapArea_setAlloc (mm : MmId) (addr : Nat) (pl : PlPtr) :
    (s.setAlloc a d).mapArea mm addr pl ans =
      ((s.mapArea mm addr pl ans).1.setAlloc a d, (s.mapArea mm addr pl ans).2) := by
  have h : ∀ r, (s.setAlloc a d).withTables mm r =
      ((s.withTables mm r).1.setAlloc a d, (s.withTables mm r).2) := fun _ ↦ rfl
  exact h _

/-- Mapping changes page tables and nothing else. -/
theorem mapArea_eq (s : State) (mm : MmId) (addr : Nat) (pl : PlPtr) (ans : Answers) :
    ∃ r, s.mapArea mm addr pl ans = s.withTables mm r := ⟨_, rfl⟩

@[simp] theorem mapArea_allocs (mm : MmId) (addr : Nat) (pl : PlPtr) :
    (s.mapArea mm addr pl ans).1.allocs = s.allocs := by
  obtain ⟨r, hr⟩ := mapArea_eq s mm addr pl ans
  rw [hr]
  rfl

@[simp] theorem mapArea_saAllocators (mm : MmId) (addr : Nat) (pl : PlPtr) :
    (s.mapArea mm addr pl ans).1.saAllocators = s.saAllocators := by
  obtain ⟨r, hr⟩ := mapArea_eq s mm addr pl ans
  rw [hr]
  rfl

/-- The pagelists, the free list and the contents of pages may differ, the rest is the same. -/
structure Frame (s s' : State) : Prop where
  l5 : s'.l5 = s.l5
  saAllocators : s'.saAllocators = s.saAllocators
  allocs : s'.allocs = s.allocs
  mms : s'.mms = s.mms

theorem glFree_frame (s : State) (pl : PlPtr) : s.Frame (s.glFree pl) := by
  unfold glFree
  split <;> exact ⟨rfl, rfl, rfl, rfl⟩

@[simp] theorem glFree_allocs (pl : PlPtr) : (s.glFree pl).allocs = s.allocs :=
  (glFree_frame s pl).allocs

theorem glAllocStack_frame {pl : PlPtr} {s' : State} (h : s.glAllocStack ans = some (pl, s')) :
    s.Frame s' := by
  unfold glAllocStack at h
  split at h
  · obtain ⟨rfl, rfl⟩ := Prod.mk.inj (Option.some.inj h)
    exact ⟨rfl, rfl, rfl, rfl⟩
  · split at h
    · split at h
      · cases h
      · obtain ⟨rfl, rfl⟩ := Prod.mk.inj (Option.some.inj h)
        exact ⟨rfl, rfl, rfl, rfl⟩
    · cases h

theorem glAllocStack_allocs {pl : PlPtr} {s' : State} (h : s.glAllocStack ans = some (pl, s')) :
    s'.allocs = s.allocs :=
  (glAllocStack_frame h).allocs

/-- The clearing of PTEs being commented out, `unmap_range` changes nothing. -/
theorem unmapArea_eq (mm : MmId) (addr : Nat) : s.unmapArea mm addr = s := by
  simp [unmapArea, unmapRange]

/-! ## References -/

/-- `alloc_get` finds the registered allocator and takes a reference to it. -/
theorem allocGet_eq_some {tgid : Nat} {s' : State} (h : s.allocGet tgid = some (a, s')) :
    ∃ d, s.allocFind tgid = some a ∧ s.allocs a = some d ∧ d.kref ≠ 0 ∧
      s' = s.setAlloc a { d with kref := d.kref + 1 } := by
  unfold allocGet at h
  split at h
  · cases h
  · next b hb =>
      split at h
      · cases h
      · next d hd =>
          split at h
          · cases h
          · next hk =>
              obtain ⟨rfl, rfl⟩ := Prod.mk.inj (Option.some.inj h)
              exact ⟨d, hb, hd, hk, modAlloc_eq hd _⟩

theorem allocGet_eq {tgid : Nat} (hfind : s.allocFind tgid = some a) (hd : s.allocs a = some d)
    (hk : d.kref ≠ 0) :
    s.allocGet tgid = some (a, s.setAlloc a { d with kref := d.kref + 1 }) := by
  simp only [allocGet, hfind, hd, hk, ↓reduceIte, modAlloc_eq hd]

/-- Giving back a reference that is not the last one. -/
theorem allocPut_eq {k : Nat} (h : s.allocs a = some { d with kref := k + 1 }) (hk : k ≠ 0) :
    s.allocPut a ans = s.setAlloc a { d with kref := k } := by
  unfold allocPut
  rw [h]
  simp only [Nat.add_eq_right, hk, ↓reduceIte]
  exact modAlloc_eq h _

end State

open State

/-- A call by `cur` gets as far as having a pagelist: it found its allocator `a`, and obtained the
pagelist `pl`, with which the state is `s₁`. -/
structure Maps (s : State) (cur : Task) (ans : Answers) (mm : MmId) (a : AllocPtr)
    (d : AllocatorDesc) (pl : PlPtr) (s₁ : State) : Prop where
  mm : cur.mm = some mm
  find : s.allocFind cur.tgid = some a
  alloc : s.allocs a = some d
  kref : d.kref ≠ 0
  stack : s.glAllocStack ans = some (pl, s₁)

/-- The allocator after a descriptor was added for good: one more reference. -/
def AllocatorDesc.add (d : AllocatorDesc) (id : Nat) (t : ThreadDesc) : AllocatorDesc :=
  { d with kref := d.kref + 1, maxId := max d.maxId id, threads := d.threads.set id (.entry t) }

/-! ## `sa_alloc` -/

/-- `xa_alloc` hands out the lowest id that is free. -/
theorem State.xaAlloc_eq_ok {s : State} {a : AllocPtr} {ans : Answers} {id : Nat}
    (h : s.xaAlloc a ans = .ok id) :
    (s.threads a).lowestFree 0 threadsLimit = some id ∧ ans.xaMem = true := by
  unfold xaAlloc at h
  split at h
  · cases h
  · next i hi =>
      split at h
      · next hmem =>
          obtain rfl := Except.ok.inj h
          exact ⟨hi, hmem⟩
      · cases h

/-- `sa_alloc` from the reservation of `id` on.  Up to the mapping its failures cancel out. -/
theorem saAlloc_eq {s : State} {cur : Task} {ans : Answers} {mm : MmId} {a : AllocPtr}
    {d : AllocatorDesc} {id : Nat} (hmm : cur.mm = some mm)
    (hget : s.allocGet cur.tgid = some (a, s.setAlloc a { d with kref := d.kref + 1 }))
    (hd : s.allocs a = some d) (hk : d.kref ≠ 0) (hfree : d.threads.slot id = none)
    (hxa : (s.setAlloc a { d with kref := d.kref + 1 }).xaAlloc a ans = .ok id) :
    saAlloc s cur ans =
      if ans.thread then
        match s.glAllocStack ans with
        | none => (.fail .ENOMEM, s)
        | some (pl, s₁) =>
            if (s₁.mapArea mm (idToAddr id) pl ans).2 then
              (⟨some .ENOMEM, some (idToAddr id)⟩,
                (s₁.mapArea mm (idToAddr id) pl ans).1.glFree pl)
            else
              (⟨none, some (idToAddr id)⟩, (s₁.mapArea mm (idToAddr id) pl ans).1.setAlloc a
                (d.add id ⟨cur.pid, idToAddr id, pl⟩))
      else (.fail .ENOMEM, s) := by
  -- the allocator while the call holds a reference and a reservation
  let d₁ : AllocatorDesc := { d with kref := d.kref + 1, threads := d.threads.set id .reserved }
  have hres : (s.setAlloc a { d with kref := d.kref + 1 }).modThreads a
      (fun x ↦ x.set id .reserved) = s.setAlloc a d₁ := by
    rw [modThreads_eq setAlloc_allocs, setAlloc_setAlloc]
  -- the exit that gives both back
  have herr : ∀ s₁ : State, s₁.allocs a = some d →
      ((s₁.setAlloc a d₁).modThreads a fun x ↦ x.erase id).allocPut a ans = s₁ := by
    intro s₁ h₁
    rw [modThreads_eq setAlloc_allocs, setAlloc_setAlloc,
      allocPut_eq (d := d) (k := d.kref) (by simp [d₁, Xarray.erase_set hfree]) hk,
      setAlloc_setAlloc, setAlloc_self h₁]
  simp only [saAlloc, hmm, hget, hxa, hres, herr s hd, glAllocStack_setAlloc]
  by_cases hth : ans.thread = true
  · rw [if_pos hth, if_pos hth]
    cases hgl : s.glAllocStack ans with
    | none => simp only [Option.map_none]
    | some r =>
        obtain ⟨pl, s₁⟩ := r
        obtain ⟨r, hr⟩ : ∃ r, s₁.mapArea mm (idToAddr id) pl ans = r := ⟨_, rfl⟩
        have hset : (s₁.setAlloc a d₁).mapArea mm (idToAddr id) pl ans =
            (r.1.setAlloc a d₁, r.2) := by rw [mapArea_setAlloc, hr]
        have h₁ : (r.1.glFree pl).allocs a = some d := by
          rw [glFree_allocs, ← hr, mapArea_allocs, glAllocStack_allocs hgl, hd]
        simp only [Option.map_some, hr, hset, glFree_setAlloc, herr _ h₁]
        by_cases hmap : r.2 = true
        · rw [if_pos hmap, if_pos hmap]
        · rw [if_neg hmap, if_neg hmap, publish, modAlloc_eq setAlloc_allocs, setAlloc_setAlloc]
          simp only [d₁, Xarray.set_set, AllocatorDesc.add]
  · rw [if_neg hth, if_neg hth]

/-- `sa_alloc` gets as far as `map_range`, with a pagelist and an id. -/
structure AllocMaps (s : State) (cur : Task) (ans : Answers) (mm : MmId) (a : AllocPtr)
    (d : AllocatorDesc) (pl : PlPtr) (s₁ : State) (id : Nat) : Prop
    extends Maps s cur ans mm a d pl s₁ where
  lowest : d.threads.lowestFree 0 threadsLimit = some id
  xaMem : ans.xaMem = true
  thread : ans.thread = true

/-- `sa_alloc` from `map_range` on. -/
theorem AllocMaps.saAlloc_eq {s s₁ : State} {cur : Task} {ans : Answers} {mm : MmId} {a : AllocPtr}
    {d : AllocatorDesc} {pl : PlPtr} {id : Nat} (h : AllocMaps s cur ans mm a d pl s₁ id) :
    saAlloc s cur ans =
      if (s₁.mapArea mm (idToAddr id) pl ans).2 then
        (⟨some .ENOMEM, some (idToAddr id)⟩, (s₁.mapArea mm (idToAddr id) pl ans).1.glFree pl)
      else
        (⟨none, some (idToAddr id)⟩, (s₁.mapArea mm (idToAddr id) pl ans).1.setAlloc a
          (d.add id ⟨cur.pid, idToAddr id, pl⟩)) := by
  have hfree := (Xarray.lowestFree_eq_some h.lowest).2.2.1
  have hxa : (s.setAlloc a { d with kref := d.kref + 1 }).xaAlloc a ans = .ok id := by
    simp only [xaAlloc, threads_eq setAlloc_allocs, h.lowest, h.xaMem, ↓reduceIte]
  rw [Lkm.saAlloc_eq h.mm (allocGet_eq h.find h.alloc h.kref) h.alloc h.kref hfree hxa,
    if_pos h.thread, h.stack]

/-- An `sa_alloc` that does not get there fails, has not written an address and has given back what it
took. -/
theorem saAlloc_of_not_maps {s : State} {cur : Task} {ans : Answers}
    (h : ¬ ∃ mm a d pl s₁ id, AllocMaps s cur ans mm a d pl s₁ id) :
    (saAlloc s cur ans).1.err ≠ none ∧ (saAlloc s cur ans).1.addr = none ∧
      (saAlloc s cur ans).2 = s := by
  cases hmm : cur.mm with
  | none => simp [saAlloc, hmm, Reply.fail]
  | some mm =>
      cases hget : s.allocGet cur.tgid with
      | none => simp [saAlloc, hmm, hget, Reply.fail]
      | some r =>
          obtain ⟨a, s'⟩ := r
          obtain ⟨d, hfind, hd, hk, rfl⟩ := allocGet_eq_some hget
          -- an exit that has given everything back
          have hput : (s.setAlloc a { d with kref := d.kref + 1 }).allocPut a ans = s := by
            rw [allocPut_eq setAlloc_allocs hk, setAlloc_setAlloc, setAlloc_self hd]
          cases hxa : (s.setAlloc a { d with kref := d.kref + 1 }).xaAlloc a ans with
          | error e => simp [saAlloc, hmm, hget, hxa, hput, Reply.fail]
          | ok id =>
              have hlow := xaAlloc_eq_ok hxa
              rw [threads_eq setAlloc_allocs] at hlow
              have hfree := (Xarray.lowestFree_eq_some hlow.1).2.2.1
              rw [saAlloc_eq hmm hget hd hk hfree hxa]
              cases hth : ans.thread with
              | false => simp [Reply.fail]
              | true =>
                  cases hgl : s.glAllocStack ans with
                  | none => simp [Reply.fail]
                  | some r =>
                      obtain ⟨pl, s₁⟩ := r
                      exact absurd ⟨mm, a, d, pl, s₁, id, ⟨hmm, hfind, hd, hk, hgl⟩, hlow.1, hlow.2, hth⟩ h

/-- **The outcomes of `sa_alloc`**: a failure before the mapping, which changes nothing; a failed
mapping, after which only the page tables and the free list differ; success. -/
theorem saAlloc_cases (s : State) (cur : Task) (ans : Answers) :
    ((saAlloc s cur ans).1.err ≠ none ∧ (saAlloc s cur ans).2 = s) ∨
    ∃ mm a d pl s₁ id, Maps s cur ans mm a d pl s₁ ∧
      d.threads.lowestFree 0 threadsLimit = some id ∧
      (((s₁.mapArea mm (idToAddr id) pl ans).2 = true ∧
          (saAlloc s cur ans).1 = ⟨some .ENOMEM, some (idToAddr id)⟩ ∧
          (saAlloc s cur ans).2 = (s₁.mapArea mm (idToAddr id) pl ans).1.glFree pl) ∨
        ((s₁.mapArea mm (idToAddr id) pl ans).2 = false ∧
          (saAlloc s cur ans).1 = ⟨none, some (idToAddr id)⟩ ∧
          (saAlloc s cur ans).2 = (s₁.mapArea mm (idToAddr id) pl ans).1.setAlloc a
            (d.add id ⟨cur.pid, idToAddr id, pl⟩))) := by
  by_cases h : ∃ mm a d pl s₁ id, AllocMaps s cur ans mm a d pl s₁ id
  · obtain ⟨mm, a, d, pl, s₁, id, hm⟩ := h
    refine .inr ⟨mm, a, d, pl, s₁, id, hm.toMaps, hm.lowest, ?_⟩
    rw [hm.saAlloc_eq]
    cases hmap : (s₁.mapArea mm (idToAddr id) pl ans).2 with
    | true => exact .inl ⟨rfl, by simp, by simp⟩
    | false => exact .inr ⟨rfl, by simp, by simp⟩
  · obtain ⟨herr, -, heq⟩ := saAlloc_of_not_maps h
    exact .inl ⟨herr, heq⟩

/-! ## `sa_fork` -/

section Fork

variable {s : State} {cur : Task} {ans : Answers} {pt pp : Nat} {mm : MmId} {a parent : AllocPtr}
  {d : AllocatorDesc}

/-- `sa_fork` once it holds a reference to the caller's allocator. -/
theorem saFork_eq (hmm : cur.mm = some mm)
    (hget : s.allocGet cur.tgid = some (a, s.setAlloc a { d with kref := d.kref + 1 }))
    (hd : s.allocs a = some d) (hk : d.kref ≠ 0) (hparent : s.allocFind pt = some parent) :
    saFork s cur ans pt pp =
      if ans.thread then
        match s.glAllocStack ans with
        | none => (.fail .ENOMEM, s)
        | some (pl, s₁) =>
            match (s.threads parent).find? fun t ↦ t.tid == pp with
            | none => (.fail .ENOENT, s₁.glFree pl)
            | some (id, t) =>
                let s₂ := copyPages s₁ (s₁.pagesOf pl) (s₁.pagesOf t.pagelist)
                if (d.threads.slot id).isSome then (.fail .EBUSY, s₂.glFree pl)
                else if !ans.xaMem then (.fail .ENOMEM, s₂.glFree pl)
                else if (s₂.mapArea mm (idToAddr id) pl ans).2 then
                  (.fail .ENOMEM, (s₂.mapArea mm (idToAddr id) pl ans).1.glFree pl)
                else
                  (⟨none, none⟩, (s₂.mapArea mm (idToAddr id) pl ans).1.setAlloc a
                    (d.add id ⟨cur.pid, idToAddr id, pl⟩))
      else (.fail .ENOMEM, s) := by
  obtain ⟨d₀, hd₀⟩ : ∃ d₀ : AllocatorDesc, d₀ = { d with kref := d.kref + 1 } := ⟨_, rfl⟩
  rw [← hd₀] at hget
  -- the exit that gives the reference back
  have hput : ∀ s₁ : State, s₁.allocs a = some d → (s₁.setAlloc a d₀).allocPut a ans = s₁ := by
    intro s₁ h₁
    rw [hd₀, allocPut_eq setAlloc_allocs hk, setAlloc_setAlloc, setAlloc_self h₁]
  have hfind : (s.setAlloc a d₀).allocFind pt = some parent := hparent
  simp only [saFork, hmm, hget, hfind, hput s hd, glAllocStack_setAlloc]
  by_cases hth : ans.thread = true
  · rw [if_pos hth, if_pos hth]
    cases hgl : s.glAllocStack ans with
    | none => simp only [Option.map_none]
    | some r =>
        obtain ⟨pl, s₁⟩ := r
        have h₁ : s₁.allocs = s.allocs := glAllocStack_allocs hgl
        have hthreads : (s₁.setAlloc a d₀).threads parent = s.threads parent := by
          rw [threads_setAlloc]
          by_cases hp : parent = a
          · rw [if_pos hp, hp, threads_eq hd, hd₀]
          · rw [if_neg hp, threads, threads, h₁]
        have hfree : ∀ s₂ : State, s₂.allocs = s.allocs → (s₂.glFree pl).allocs a = some d := by
          intro s₂ h₂
          rw [glFree_allocs, h₂, hd]
        simp only [Option.map_some, hthreads, glFree_setAlloc, hput _ (hfree s₁ h₁)]
        cases hp : (s.threads parent).find? fun t ↦ t.tid == pp with
        | none => rfl
        | some r =>
            obtain ⟨id, t⟩ := r
            obtain ⟨s₂, hs₂⟩ : ∃ s₂, copyPages s₁ (s₁.pagesOf pl) (s₁.pagesOf t.pagelist) = s₂ :=
              ⟨_, rfl⟩
            have h₂ : s₂.allocs = s.allocs := by rw [← hs₂, ← h₁]; rfl
            have hcopy : copyPages (s₁.setAlloc a d₀) ((s₁.setAlloc a d₀).pagesOf pl)
                ((s₁.setAlloc a d₀).pagesOf t.pagelist) = s₂.setAlloc a d₀ := by rw [← hs₂]; rfl
            have hslot : ((s₂.setAlloc a d₀).threads a).slot id = d.threads.slot id := by
              rw [threads_eq setAlloc_allocs, hd₀]
            simp only [hcopy, hs₂, hslot, glFree_setAlloc, hput _ (hfree s₂ h₂)]
            by_cases hin : (d.threads.slot id).isSome = true
            · rw [if_pos hin, if_pos hin]
            rw [if_neg hin, if_neg hin]
            by_cases hmem : (!ans.xaMem) = true
            · rw [if_pos hmem, if_pos hmem]
            rw [if_neg hmem, if_neg hmem]
            -- the descriptor is in the table before the area is mapped
            obtain ⟨d₁, hd₁⟩ : ∃ d₁ : AllocatorDesc, d₁ = { d₀ with
              threads := d₀.threads.set id (.entry ⟨cur.pid, idToAddr id, pl⟩) } := ⟨_, rfl⟩
            obtain ⟨r, hr⟩ : ∃ r, s₂.mapArea mm (idToAddr id) pl ans = r := ⟨_, rfl⟩
            have hset : (s₂.setAlloc a d₁).mapArea mm (idToAddr id) pl ans =
                (r.1.setAlloc a d₁, r.2) := by rw [mapArea_setAlloc, hr]
            have hr₁ : r.1.allocs = s.allocs := by rw [← hr, mapArea_allocs, h₂]
            have hins : ((s₂.setAlloc a d₀).modThreads a fun x ↦
                x.set id (.entry ⟨cur.pid, idToAddr id, pl⟩)) = s₂.setAlloc a d₁ := by
              rw [modThreads_eq setAlloc_allocs, setAlloc_setAlloc, hd₁]
            have hnone : d₀.threads.slot id = none := by
              rw [hd₀]
              simpa using hin
            have herase : ((r.1.setAlloc a d₁).modThreads a fun x ↦ x.erase id) =
                r.1.setAlloc a d₀ := by
              rw [modThreads_eq setAlloc_allocs, setAlloc_setAlloc, hd₁]
              simp only [Xarray.erase_set hnone]
            have hmax : ((r.1.setAlloc a d₁).modAlloc a fun d ↦ { d with maxId := max d.maxId id }) =
                r.1.setAlloc a (d.add id ⟨cur.pid, idToAddr id, pl⟩) := by
              rw [modAlloc_eq setAlloc_allocs, setAlloc_setAlloc, hd₁, hd₀, AllocatorDesc.add]
            simp only [hins, hset, hr, herase, glFree_setAlloc, hput _ (hfree r.1 hr₁), hmax]
  · rw [if_neg hth, if_neg hth]

/-- `sa_fork` gets as far as `map_range`: it has found the parent's thread `t` at `id`, and `id` is free
in the caller's table.  `s₂` is the state once the pages are copied. -/
structure ForkMaps (s : State) (cur : Task) (ans : Answers) (pt pp : Nat) (mm : MmId) (a : AllocPtr)
    (d : AllocatorDesc) (pl : PlPtr) (s₁ : State) (parent : AllocPtr) (id : Nat) (t : ThreadDesc)
    (s₂ : State) : Prop extends Maps s cur ans mm a d pl s₁ where
  findParent : s.allocFind pt = some parent
  found : ((s.threads parent).find? fun t ↦ t.tid == pp) = some (id, t)
  copied : s₂ = copyPages s₁ (s₁.pagesOf pl) (s₁.pagesOf t.pagelist)
  free : d.threads.slot id = none
  xaMem : ans.xaMem = true
  thread : ans.thread = true

/-- `sa_fork` from `map_range` on. -/
theorem ForkMaps.saFork_eq {pl : PlPtr} {s₁ s₂ : State} {id : Nat} {t : ThreadDesc}
    (h : ForkMaps s cur ans pt pp mm a d pl s₁ parent id t s₂) :
    saFork s cur ans pt pp =
      if (s₂.mapArea mm (idToAddr id) pl ans).2 then
        (.fail .ENOMEM, (s₂.mapArea mm (idToAddr id) pl ans).1.glFree pl)
      else
        (⟨none, none⟩, (s₂.mapArea mm (idToAddr id) pl ans).1.setAlloc a
          (d.add id ⟨cur.pid, idToAddr id, pl⟩)) := by
  rw [Lkm.saFork_eq h.mm (allocGet_eq h.find h.alloc h.kref) h.alloc h.kref h.findParent, if_pos h.thread,
    h.stack]
  simp only [h.found, h.free, h.xaMem, ← h.copied, Option.isSome_none, Bool.false_eq_true,
    Bool.not_true, ↓reduceIte]

/-- An `sa_fork` that does not get there fails, and leaves allocators and page tables alone. -/
theorem saFork_of_not_maps
    (h : ¬ ∃ mm a d pl s₁ parent id t s₂, ForkMaps s cur ans pt pp mm a d pl s₁ parent id t s₂) :
    (saFork s cur ans pt pp).1.err ≠ none ∧
      ((saFork s cur ans pt pp).2 = s ∨
        ∃ mm a d pl s₁ parent, Maps s cur ans mm a d pl s₁ ∧ s.allocFind pt = some parent ∧
          ((saFork s cur ans pt pp).2 = s₁.glFree pl ∨
            ∃ id t s₂, ((s.threads parent).find? fun t ↦ t.tid == pp) = some (id, t) ∧
              s₂ = copyPages s₁ (s₁.pagesOf pl) (s₁.pagesOf t.pagelist) ∧
              (saFork s cur ans pt pp).2 = s₂.glFree pl)) := by
  cases hmm : cur.mm with
  | none => simp [saFork, hmm, Reply.fail]
  | some mm =>
      cases hget : s.allocGet cur.tgid with
      | none => simp [saFork, hmm, hget, Reply.fail]
      | some r =>
          obtain ⟨a, s'⟩ := r
          obtain ⟨d, hfind, hd, hk, rfl⟩ := allocGet_eq_some hget
          cases hparent : s.allocFind pt with
          | none =>
              have hput : (s.setAlloc a { d with kref := d.kref + 1 }).allocPut a ans = s := by
                rw [allocPut_eq setAlloc_allocs hk, setAlloc_setAlloc, setAlloc_self hd]
              have hp : (s.setAlloc a { d with kref := d.kref + 1 }).allocFind pt = none := hparent
              exact ⟨by simp [saFork, hmm, hget, hp, Reply.fail],
                .inl (by simp [saFork, hmm, hget, hp, hput])⟩
          | some parent =>
              rw [saFork_eq hmm hget hd hk hparent]
              cases hth : ans.thread with
              | false => exact ⟨by simp [Reply.fail], .inl rfl⟩
              | true =>
                  cases hgl : s.glAllocStack ans with
                  | none => exact ⟨by simp [Reply.fail], .inl rfl⟩
                  | some r =>
                      obtain ⟨pl, s₁⟩ := r
                      have hm : Maps s cur ans mm a d pl s₁ := ⟨hmm, hfind, hd, hk, hgl⟩
                      cases hp : (s.threads parent).find? fun t ↦ t.tid == pp with
                      | none => exact ⟨by simp [Reply.fail], .inr ⟨mm, a, d, pl, s₁, parent, hm, rfl, .inl rfl⟩⟩
                      | some r =>
                          obtain ⟨id, t⟩ := r
                          simp only [↓reduceIte]
                          by_cases hin : (d.threads.slot id).isSome = true
                          · rw [if_pos hin]
                            exact ⟨by simp [Reply.fail],
                              .inr ⟨mm, a, d, pl, s₁, parent, hm, rfl, .inr ⟨id, t, _, hp, rfl, rfl⟩⟩⟩
                          rw [if_neg hin]
                          by_cases hmem : (!ans.xaMem) = true
                          · rw [if_pos hmem]
                            exact ⟨by simp [Reply.fail],
                              .inr ⟨mm, a, d, pl, s₁, parent, hm, rfl, .inr ⟨id, t, _, hp, rfl, rfl⟩⟩⟩
                          exact absurd ⟨mm, a, d, pl, s₁, parent, id, t, _, hm, hparent, hp, rfl,
                            by simpa using hin, by simpa using hmem, hth⟩ h

/-- **The outcomes of `sa_fork`**: a failure before a pagelist was taken, which changes nothing; a
failure after it, when the parent thread is not found, the id is in use or the mapping fails;
success.  The parent's pages have been copied by the time the id is looked at. -/
theorem saFork_cases (s : State) (cur : Task) (ans : Answers) (pt pp : Nat) :
    ((saFork s cur ans pt pp).1.err ≠ none ∧ (saFork s cur ans pt pp).2 = s) ∨
    ∃ mm a d pl s₁ parent, Maps s cur ans mm a d pl s₁ ∧ s.allocFind pt = some parent ∧
      (((saFork s cur ans pt pp).1.err ≠ none ∧ (saFork s cur ans pt pp).2 = s₁.glFree pl) ∨
      ∃ id t s₂, ((s.threads parent).find? fun t ↦ t.tid == pp) = some (id, t) ∧
        s₂ = copyPages s₁ (s₁.pagesOf pl) (s₁.pagesOf t.pagelist) ∧
        (((saFork s cur ans pt pp).1.err ≠ none ∧ (saFork s cur ans pt pp).2 = s₂.glFree pl) ∨
        (d.threads.slot id = none ∧
          (((s₂.mapArea mm (idToAddr id) pl ans).2 = true ∧
            (saFork s cur ans pt pp).1.err ≠ none ∧
            (saFork s cur ans pt pp).2 = (s₂.mapArea mm (idToAddr id) pl ans).1.glFree pl) ∨
          ((s₂.mapArea mm (idToAddr id) pl ans).2 = false ∧
            (saFork s cur ans pt pp).1 = ⟨none, none⟩ ∧
            (saFork s cur ans pt pp).2 = (s₂.mapArea mm (idToAddr id) pl ans).1.setAlloc a
              (d.add id ⟨cur.pid, idToAddr id, pl⟩)))))) := by
  by_cases h : ∃ mm a d pl s₁ parent id t s₂, ForkMaps s cur ans pt pp mm a d pl s₁ parent id t s₂
  · obtain ⟨mm, a, d, pl, s₁, parent, id, t, s₂, hm⟩ := h
    refine .inr ⟨mm, a, d, pl, s₁, parent, hm.toMaps, hm.findParent, .inr ⟨id, t, s₂, hm.found,
      hm.copied, .inr ⟨hm.free, ?_⟩⟩⟩
    rw [hm.saFork_eq]
    cases hmap : (s₂.mapArea mm (idToAddr id) pl ans).2 with
    | true => exact .inl ⟨rfl, by simp [Reply.fail], by simp⟩
    | false => exact .inr ⟨rfl, by simp, by simp⟩
  · rcases saFork_of_not_maps h with
      ⟨herr, heq | ⟨mm, a, d, pl, s₁, parent, hm, hparent, heq | ⟨id, t, s₂, hfound, hcopied, heq⟩⟩⟩
    · exact .inl ⟨herr, heq⟩
    · exact .inr ⟨mm, a, d, pl, s₁, parent, hm, hparent, .inl ⟨herr, heq⟩⟩
    · exact .inr ⟨mm, a, d, pl, s₁, parent, hm, hparent, .inr ⟨id, t, s₂, hfound, hcopied,
        .inl ⟨herr, heq⟩⟩⟩

end Fork

/-! ## `sa_free` -/

/-- The addresses `sa_free` accepts: the starts of the areas of the window. -/
def ValidAddr (addr : Nat) : Prop := ssStart ≤ addr ∧ addr < ssEnd ∧ (addr - ssStart) % ssSize = 0

/-- `sa_free` of a live area. -/
theorem saFree_eq {s : State} {cur : Task} {ans : Answers} {addr : Nat} {mm : MmId} {a : AllocPtr}
    {t : ThreadDesc} (hmm : cur.mm = some mm) (hv : ValidAddr addr)
    (hfind : s.allocFind cur.tgid = some a)
    (hload : (s.threads a).load (addrToId addr) = some t) :
    saFree s cur ans addr = (⟨none, none⟩,
      ((s.modThreads a fun x ↦ x.erase (addrToId addr)).glFree t.pagelist).allocPut a ans) := by
  have hv' : ¬ (addr < ssStart ∨ ssEnd ≤ addr ∨ (addr - ssStart) % ssSize ≠ 0) := by
    simp only [not_or, not_lt, not_le, ne_eq, not_not]
    exact hv
  simp only [saFree, hmm, if_neg hv', hfind, hload, unmapArea_eq]

/-- **The outcomes of `sa_free`**: a failure that at most clears a slot without a descriptor, or
the removal of a descriptor.  The page tables stay as they are in any case. -/
theorem saFree_cases (s : State) (cur : Task) (ans : Answers) (addr : Nat) :
    ((saFree s cur ans addr).1.err ≠ none ∧ ((saFree s cur ans addr).2 = s ∨
      ∃ a, s.allocFind cur.tgid = some a ∧ (s.threads a).load (addrToId addr) = none ∧
        (saFree s cur ans addr).2 = s.modThreads a fun x ↦ x.erase (addrToId addr))) ∨
    ∃ mm a t, cur.mm = some mm ∧ ValidAddr addr ∧ s.allocFind cur.tgid = some a ∧
      (s.threads a).load (addrToId addr) = some t ∧ (saFree s cur ans addr).1 = ⟨none, none⟩ ∧
      (saFree s cur ans addr).2 =
        ((s.modThreads a fun x ↦ x.erase (addrToId addr)).glFree t.pagelist).allocPut a ans := by
  cases hmm : cur.mm with
  | none => exact .inl (by simp [saFree, hmm, Reply.fail])
  | some mm =>
      by_cases hv : addr < ssStart ∨ ssEnd ≤ addr ∨ (addr - ssStart) % ssSize ≠ 0
      · exact .inl (by simp [saFree, hmm, hv, Reply.fail])
      cases hfind : s.allocFind cur.tgid with
      | none => exact .inl (by simp [saFree, hmm, hv, hfind, Reply.fail])
      | some a =>
          cases hload : (s.threads a).load (addrToId addr) with
          | none =>
              refine .inl ⟨by simp [saFree, hmm, hv, hfind, hload, Reply.fail],
                .inr ⟨a, rfl, hload, ?_⟩⟩
              simp [saFree, hmm, hv, hfind, hload]
          | some t =>
              have hv' : ValidAddr addr := by
                simp only [not_or, not_lt, not_le, ne_eq, not_not] at hv
                exact hv
              rw [saFree_eq hmm hv' hfind hload]
              exact .inr ⟨mm, a, t, rfl, hv', rfl, hload, rfl, rfl⟩

end ShadowStack.Lkm
