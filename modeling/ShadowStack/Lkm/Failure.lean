import ShadowStack.Lkm.Device
import ShadowStack.Lkm.Mapped

/-!
# Calls that fail

What `sa_alloc`, `sa_fork` and `sa_free` leave behind when they return an error, and what
`chrdev_ioctl` makes of it.  The calls undo their steps on descriptors and references in reverse order,
and the pages go to `gl_sa` or back to the page allocator.  The dispatcher around them does not undo
anything: an operation stays done when its reply cannot be written, and a reply without an address is
filled up with what the stack held.
-/

namespace ShadowStack.Lkm

open Lib State

/-! ## Pages of a failing call -/

/-- The pages of the pagelist a call gets: those of the first one of `gl_sa`, or those the page
allocator hands out, which can be too few. -/
def State.offered (s : State) (ans : Answers) : List Page :=
  match s.glSa with
  | pl :: _ => s.pagesOf pl
  | [] => if ans.pagelist && ans.kvcalloc then obtained ans ssPages else []

/-- The page belongs to a pagelist on `gl_sa`, or to the page allocator. -/
def State.Returned (s : State) (p : Page) : Prop := (∃ pl ∈ s.glSa, p ∈ s.pagesOf pl) ∨ p ∉ s.held

section Pages

variable {s s₁ : State} {ans : Answers} {pl : PlPtr} {p : Page}

/-- Before a call takes them, the pages are nobody's. -/
theorem State.returned_of_offered (hfresh : ans.Fresh s) (hp : p ∈ s.offered ans) : s.Returned p := by
  unfold offered at hp
  split at hp
  · next pl rest hgl =>
      refine .inl ⟨pl, ?_, hp⟩
      rw [hgl]
      exact List.mem_cons_self
  · split at hp
    · exact .inr (hfresh.unused p hp)
    · cases hp

/-- A pagelist that was obtained has the pages that were offered. -/
theorem State.offered_eq (h : s.glAllocStack ans = some (pl, s₁)) : s.offered ans = s₁.pagesOf pl := by
  unfold offered
  cases hgl : s.glSa with
  | cons q rest =>
      simp only [glAllocStack, hgl, Option.some.injEq, Prod.mk.injEq] at h
      obtain ⟨rfl, rfl⟩ := h
      rfl
  | nil =>
      simp only [glAllocStack, hgl, saPagelistAllocPages] at h
      cases hpl : ans.pagelist with
      | false => simp [hpl] at h
      | true =>
          cases hkv : ans.kvcalloc with
          | false => simp [hpl, hkv] at h
          | true =>
              by_cases hlen : (obtained ans ssPages).length = ssPages
              · simp only [hpl, hkv, hlen, ↓reduceIte, Option.some.injEq, Prod.mk.injEq] at h
                obtain ⟨rfl, rfl⟩ := h
                simp [pagesOf]
              · simp [hpl, hkv, hlen] at h

/-- `gl_free` gives the pages back one way or the other. -/
theorem State.glFree_returned (hp : p ∈ s.pagesOf pl) : (s.glFree pl).Returned p := by
  unfold glFree
  split
  · refine .inr fun hheld ↦ ?_
    exact (Finset.mem_sdiff.mp hheld).2 (List.mem_toFinset.mpr hp)
  · exact .inl ⟨pl, List.mem_cons_self, hp⟩

end Pages

/-! ## The calls -/

/-- A call has left `sa_allocators` and every allocator as they were, and holds none of the pages it
was offered. -/
structure Restored (s s' : State) (ans : Answers) : Prop where
  saAllocators : s'.saAllocators = s.saAllocators
  allocs : s'.allocs = s.allocs
  pages : ∀ p ∈ s.offered ans, s'.Returned p

section Calls

variable {s s₁ : State} {cur : Task} {ans : Answers} {mm : MmId} {a : AllocPtr} {d : AllocatorDesc}
  {pl : PlPtr}

theorem Restored.refl (hfresh : ans.Fresh s) : Restored s s ans :=
  ⟨rfl, rfl, fun _ hp ↦ returned_of_offered hfresh hp⟩

/-- The exits that free the pagelist, from any state that still has its pages. -/
theorem Maps.restored (hm : Maps s cur ans mm a d pl s₁) {s₂ : State}
    (hreg : s₂.saAllocators = s₁.saAllocators) (hallocs : s₂.allocs = s₁.allocs)
    (hpls : s₂.pagelists = s₁.pagelists) : Restored s (s₂.glFree pl) ans := by
  have hframe := glAllocStack_frame hm.stack
  have hframe' := glFree_frame s₂ pl
  refine ⟨?_, ?_, fun p hp ↦ glFree_returned ?_⟩
  · rw [hframe'.saAllocators, hreg, hframe.saAllocators]
  · rw [hframe'.allocs, hallocs, hframe.allocs]
  · rw [offered_eq hm.stack] at hp
    rw [pagesOf, hpls]
    exact hp

/-- The exit after a failed mapping. -/
theorem Maps.restored_mapArea (hm : Maps s cur ans mm a d pl s₁) {s₂ : State}
    (hreg : s₂.saAllocators = s₁.saAllocators) (hallocs : s₂.allocs = s₁.allocs)
    (hpls : s₂.pagelists = s₁.pagelists) (addr : Nat) :
    Restored s ((s₂.mapArea mm addr pl ans).1.glFree pl) ans := by
  obtain ⟨r, hr⟩ := mapArea_eq s₂ mm addr pl ans
  rw [hr]
  exact hm.restored hreg hallocs hpls

/-- **One failing call restores the descriptor state.** -/
theorem AllocOk.restored (h : AllocOk s) (hfresh : ans.Fresh s) {call : Call} (hcall : call.ServesArea)
    (herr : (exec s ⟨cur, call, ans⟩).1.err ≠ none) :
    Restored s (exec s ⟨cur, call, ans⟩).2 ans := by
  cases call with
  | saAlloc =>
      have herr : (saAlloc s cur ans).1.err ≠ none := herr
      show Restored s (saAlloc s cur ans).2 ans
      rcases saAlloc_cases s cur ans with
        ⟨-, heq⟩ | ⟨mm, a, d, pl, s₁, id, hm, -, ⟨-, -, heq⟩ | ⟨-, hr, -⟩⟩
      · rw [heq]
        exact .refl hfresh
      · rw [heq]
        exact hm.restored_mapArea rfl rfl rfl _
      · rw [hr] at herr
        exact absurd rfl herr
  | saFork pt pp =>
      have herr : (saFork s cur ans pt pp).1.err ≠ none := herr
      show Restored s (saFork s cur ans pt pp).2 ans
      rcases saFork_cases s cur ans pt pp with
        ⟨-, heq⟩ | ⟨mm, a, d, pl, s₁, parent, hm, -, ⟨-, heq⟩ | ⟨id, t, s₂, -, hs₂, hrest⟩⟩
      · rw [heq]
        exact .refl hfresh
      · rw [heq]
        exact hm.restored rfl rfl rfl
      · subst hs₂
        rcases hrest with ⟨-, heq⟩ | ⟨-, ⟨-, -, heq⟩ | ⟨-, hr, -⟩⟩
        · rw [heq]
          exact hm.restored rfl rfl rfl
        · rw [heq]
          refine hm.restored_mapArea ?_ ?_ ?_ _ <;> rfl
        · rw [hr] at herr
          exact absurd rfl herr
  | saFree addr =>
      have herr : (saFree s cur ans addr).1.err ≠ none := herr
      show Restored s (saFree s cur ans addr).2 ans
      rcases h.saFree_cases cur ans addr with ⟨-, heq⟩ | ⟨mm, a, d, t, -, -, -, -, -, -, hr, -⟩
      · rw [heq]
        exact .refl hfresh
      · rw [hr] at herr
        exact absurd rfl herr
  | allocCreate => exact hcall.elim
  | allocDestroy => exact hcall.elim
  | vmaFree => exact hcall.elim

end Calls

/-- **A failing call restores the descriptor state**, after every run of complete calls, whatever the
kernel refuses. -/
theorem run_failed_restored {l5 : Bool} {mms : MmId → Mm} {data : Page → PageData} {es : List Event}
    {s : State} (hrun : Run (Guarded Admissible Step) (State.init l5 mms data) es s) {cur : Task}
    {ans : Answers} (hfresh : ans.Fresh s) {call : Call} (hcall : call.ServesArea)
    (herr : (exec s ⟨cur, call, ans⟩).1.err ≠ none) :
    Restored s (exec s ⟨cur, call, ans⟩).2 ans :=
  (Inv.of_run hrun).alloc.restored hfresh hcall herr

/-- A kernel with one page to hand out, where a pagelist needs more. -/
def onePage : Answers := { noPages with single := [some 7, none] }

/-- `sa_alloc` with too few pages: the one it got is given back. -/
theorem run_failed_restored_short :
    Restored created (exec created ⟨⟨1, 1, some 0⟩, .saAlloc, onePage⟩).2 onePage := by
  have hob : obtained onePage ssPages = [7] := by
    simp [obtained, onePage, noPages, allocHigh, allocBulk, allocSingle, ssPages, ssSize, pageSize,
      pageShift]
  have hpages : saPagelistAllocPages onePage ssPages = none := by
    rw [saPagelistAllocPages, hob]
    decide
  have hgl : created.glAllocStack onePage = none := by
    rw [created_eq, State.glAllocStack]
    simp only [State.init, hpages]
    exact ite_self _
  refine run_failed_restored (Run.single ⟨admissible_createEvent _, rfl⟩) ⟨?_, ?_⟩ trivial ?_
  · rw [hob]
    exact List.nodup_singleton 7
  · intro p _ hp
    cases hp
  · refine (saAlloc_of_not_maps ?_).1
    rintro ⟨mm, a, d, pl, s₁, id, hm⟩
    cases hgl.symm.trans hm.stack

/-! ## The dispatcher, command by command -/

section Dispatch

variable {d : Device} {cur : Task} {r : Request}

theorem ioctl_commands_ne : ioctlShadowFree ≠ ioctlShadowReq ∧ ioctlShadowFork ≠ ioctlShadowReq ∧
    ioctlShadowFork ≠ ioctlShadowFree ∧ ioctlShadowPivot ≠ ioctlShadowReq ∧
    ioctlShadowPivot ≠ ioctlShadowFree ∧ ioctlShadowPivot ≠ ioctlShadowFork := by
  decide

/-- A command that passes the filter is one of the four. -/
theorem checkIoctlCmd_eq_zero {cmd : Nat} (h : checkIoctlCmd cmd = 0) :
    cmd = ioctlShadowReq ∨ cmd = ioctlShadowFree ∨ cmd = ioctlShadowFork ∨ cmd = ioctlShadowPivot := by
  unfold checkIoctlCmd at h
  split_ifs at h with h₁ h₂ h₃ h₄
  · cases h
  · cases h
  · exact h₃
  · exact h₃

/-- A request whose struct has been read goes to its operation. -/
theorem Device.chrdevIoctl_eq (hcheck : checkIoctlCmd r.cmd = 0) (hfrom : r.copyFrom = true) :
    d.chrdevIoctl cur r = d.dispatch cur r := by
  rw [Device.chrdevIoctl, if_neg (not_not.mpr hcheck), if_pos hfrom]

theorem Device.dispatch_req (hcmd : r.cmd = ioctlShadowReq) :
    d.dispatch cur r = some (copyOut r { r.arg with
        error := (saAlloc d.lkm cur r.ans).1.code
        second := (saAlloc d.lkm cur r.ans).1.addr.getD r.stale },
      { d with lkm := (saAlloc d.lkm cur r.ans).2 }) := by
  rw [Device.dispatch, if_pos hcmd]

theorem Device.dispatch_free (hcmd : r.cmd = ioctlShadowFree) :
    d.dispatch cur r = some (copyOut r { r.arg with
        error := (saFree d.lkm cur r.ans r.arg.second).1.code },
      { d with lkm := (saFree d.lkm cur r.ans r.arg.second).2 }) := by
  obtain ⟨h₁, -⟩ := ioctl_commands_ne
  rw [Device.dispatch, hcmd, if_neg h₁, if_pos rfl]

theorem Device.dispatch_fork (hcmd : r.cmd = ioctlShadowFork) :
    d.dispatch cur r = some (copyOut r { r.arg with
        error := (saFork d.lkm cur r.ans r.arg.pTgid r.arg.pPid).1.code },
      { d with lkm := (saFork d.lkm cur r.ans r.arg.pTgid r.arg.pPid).2 }) := by
  obtain ⟨-, h₁, h₂, -⟩ := ioctl_commands_ne
  rw [Device.dispatch, hcmd, if_neg h₁, if_neg h₂, if_pos rfl]

end Dispatch

/-! ## Replies -/

/-- The request, with another value on the stack. -/
def Request.withStale (r : Request) (x : Nat) : Request := { r with stale := x }

/-- Whatever the local variables of `chrdev_ioctl` held before, it returns the same value and writes the
same struct. -/
def SameReply (d : Device) (cur : Task) (r : Request) : Prop :=
  ∀ x y, (d.chrdevIoctl cur (r.withStale x)).map Prod.fst =
    (d.chrdevIoctl cur (r.withStale y)).map Prod.fst

/-- Only the reply to a request for an area looks at the stale value. -/
theorem Device.dispatch_stale {d : Device} {cur : Task} {r : Request} (hcmd : r.cmd ≠ ioctlShadowReq)
    (x : Nat) : d.dispatch cur (r.withStale x) = d.dispatch cur r := by
  simp only [Device.dispatch, Request.withStale, if_neg hcmd, copyOut]
  exact if_neg hcmd

/-- The reply to a request for an area that can be read. -/
theorem Device.chrdevIoctl_stale {d : Device} {cur : Task} {r : Request} (hcmd : r.cmd = ioctlShadowReq)
    (hfrom : r.copyFrom = true) (x : Nat) :
    (d.chrdevIoctl cur (r.withStale x)).map Prod.fst = some (copyOut r { r.arg with
      error := (saAlloc d.lkm cur r.ans).1.code
      second := (saAlloc d.lkm cur r.ans).1.addr.getD x }) := by
  have hcheck : checkIoctlCmd r.cmd = 0 := by
    rw [hcmd]
    decide
  rw [Device.chrdevIoctl_eq (r := r.withStale x) hcheck hfrom, Device.dispatch_req (r := r.withStale x) hcmd]
  rfl

@[simp] theorem length_wordBytes (w : Nat) : (wordBytes w).length = 8 := by simp [wordBytes]

/-- The second word of a struct can be told from what is written of it, from its first byte on. -/
theorem copyOut_second_ne {r : Request} (h : r.copyTo = true ∨ 8 < r.torn) (e : Int) (third : Nat) :
    copyOut r ⟨e, 0, third⟩ ≠ copyOut r ⟨e, 1, third⟩ := by
  intro heq
  unfold copyOut at heq
  by_cases hto : r.copyTo = true
  · rw [if_pos hto, if_pos hto] at heq
    simp at heq
  · have htorn := h.resolve_left hto
    rw [if_neg hto, if_neg hto] at heq
    have hbytes := congrArg (fun l ↦ l[8]?) (Prod.mk.inj (Except.error.inj heq)).2
    simp [Params.bytes, htorn] at hbytes
    simp [wordBytes] at hbytes

/-- What is written of the first word does not show the second. -/
theorem copyOut_second_eq {r : Request} (hto : r.copyTo = false) (htorn : r.torn ≤ 8) (e : Int)
    (x y third : Nat) : copyOut r ⟨e, x, third⟩ = copyOut r ⟨e, y, third⟩ := by
  have hfirst : ∀ z, (Params.bytes ⟨e, z, third⟩).take r.torn = (wordBytes (e % 2 ^ 64).toNat).take r.torn := by
    intro z
    rw [Params.bytes, List.append_assoc, List.take_append_of_le_length (by simpa using htorn)]
  rw [copyOut, copyOut, if_neg (by rw [hto]; decide), if_neg (by rw [hto]; decide), hfirst, hfirst]

/-- **When a reply tells nothing about the stack**: exactly if it is not the reply to a request for an
area that failed before it had one, or no more of it than `error` is written. -/
theorem sameReply_iff (d : Device) (cur : Task) (r : Request) :
    SameReply d cur r ↔ (r.cmd = ioctlShadowReq → r.copyFrom = true → r.copyTo = true ∨ 8 < r.torn →
      ∃ mm a e pl s₁ id, AllocMaps d.lkm cur r.ans mm a e pl s₁ id) := by
  constructor
  · intro hsame hcmd hfrom hto
    by_contra hno
    obtain ⟨-, haddr, -⟩ := saAlloc_of_not_maps hno
    have h := hsame 0 1
    rw [Device.chrdevIoctl_stale hcmd hfrom, Device.chrdevIoctl_stale hcmd hfrom, haddr] at h
    exact copyOut_second_ne hto _ _ (Option.some.inj h)
  · intro hmaps x y
    by_cases hcmd : r.cmd = ioctlShadowReq ∧ r.copyFrom = true
    · obtain ⟨hcmd, hfrom⟩ := hcmd
      rw [Device.chrdevIoctl_stale hcmd hfrom, Device.chrdevIoctl_stale hcmd hfrom]
      by_cases hto : r.copyTo = true ∨ 8 < r.torn
      · obtain ⟨mm, a, e, pl, s₁, id, hm⟩ := hmaps hcmd hfrom hto
        -- the address is there, so the stale value is not looked at
        have haddr : (saAlloc d.lkm cur r.ans).1.addr = some (idToAddr id) := by
          rw [hm.saAlloc_eq]
          split <;> rfl
        rw [haddr, Option.getD_some, Option.getD_some]
      · rw [not_or, Bool.not_eq_true, Nat.not_lt] at hto
        exact congrArg some (copyOut_second_eq hto.1 hto.2 _ _ _ _)
    · have hsame : ∀ z, (d.chrdevIoctl cur (r.withStale z)).map Prod.fst =
          (d.chrdevIoctl cur r).map Prod.fst := by
        intro z
        by_cases hcheck : checkIoctlCmd r.cmd = 0
        · by_cases hfrom : r.copyFrom = true
          · rw [Device.chrdevIoctl_eq (r := r.withStale z) hcheck hfrom,
              Device.chrdevIoctl_eq hcheck hfrom, Device.dispatch_stale fun hreq ↦ hcmd ⟨hreq, hfrom⟩]
          · rw [Device.chrdevIoctl, Device.chrdevIoctl, if_neg hfrom,
              if_neg (show ¬ (r.withStale z).copyFrom = true from hfrom)]
            rfl
        · rw [Device.chrdevIoctl, Device.chrdevIoctl, if_pos hcheck,
            if_pos (show checkIoctlCmd (r.withStale z).cmd ≠ 0 from hcheck)]
          rfl
      rw [hsame x, hsame y]

/-- The first request of a process without an allocator is answered with eight bytes of the stack. -/
theorem not_sameReply : ¬ ∀ (d : Device) (cur : Task) (r : Request), SameReply d cur r := by
  intro h
  have hreply := h openedDevice ⟨1, 1, some 0⟩ firstRequest 0 0xffff888000000000
  have hno : saAlloc openedDevice.lkm ⟨1, 1, some 0⟩ firstRequest.ans = (.fail .ENOMEM, openedDevice.lkm) :=
    NoAllocator.saAlloc (fun _ ↦ rfl) rfl
  have hto : firstRequest.copyTo = true := rfl
  rw [Device.chrdevIoctl_stale rfl rfl, Device.chrdevIoctl_stale rfl rfl, hno, copyOut, copyOut, if_pos hto,
    if_pos hto] at hreply
  simp [Reply.fail] at hreply

/-! ## Effects of a failing `ioctl` -/

/-- The registered allocators, the descriptor tables and reference counts, the page tables and the
address spaces are the same. -/
structure Device.Untouched (d d' : Device) : Prop where
  registered : d'.lkm.saAllocators = d.lkm.saAllocators
  tables : ∀ a, (d'.lkm.allocs a).map (fun e ↦ (e.threads, e.kref)) =
    (d.lkm.allocs a).map fun e ↦ (e.threads, e.kref)
  pageTables : d'.lkm.mms = d.lkm.mms
  layouts : d'.layouts = d.layouts

/-- Mapping the area of `id` changes nothing: the kernel refuses the first table that is missing for
some page, and the pages before it are mapped as they should be already. -/
def State.Blocked (s : State) (mm : MmId) (id : Nat) (ans : Answers) : Prop :=
  ∃ m, idToAddr id ≤ m ∧ m < idToAddr id + ssSize ∧ (s.mms mm).stuck s.l5 ans.tables m ∧
    ∀ b, idToAddr id ≤ b → b < m → (s.mms mm).pteAt s.l5 b = mkPte (idToAddr id) (s.offered ans) b

/-- The operation a request asks for has something to do.  `sa_alloc` and `sa_fork` get as far as
`map_range`, and that is not blocked; `sa_free` finds a descriptor; `sa_pivot` finds an area at the old
stack pointer. -/
def Device.Effective (d : Device) (cur : Task) (r : Request) : Prop :=
  (r.cmd = ioctlShadowReq ∧ ∃ mm a e pl s₁ id, AllocMaps d.lkm cur r.ans mm a e pl s₁ id ∧
    ¬ d.lkm.Blocked mm id r.ans) ∨
  (r.cmd = ioctlShadowFree ∧ cur.mm.isSome ∧ ValidAddr r.arg.second ∧ ∃ a t,
    d.lkm.allocFind cur.tgid = some a ∧
      (d.lkm.threads a).load (addrToId r.arg.second) = some t) ∨
  (r.cmd = ioctlShadowFork ∧ ∃ mm a e pl s₁ parent id t s₂,
    ForkMaps d.lkm cur r.ans r.arg.pTgid r.arg.pPid mm a e pl s₁ parent id t s₂ ∧
      ¬ d.lkm.Blocked mm id r.ans) ∨
  (r.cmd = ioctlShadowPivot ∧ ∃ mm old, cur.mm = some mm ∧
    findVma (d.layouts mm).vmas r.arg.third = some old)

section Effects

variable {s s₁ s₂ : State} {cur : Task} {ans : Answers} {mm : MmId} {a : AllocPtr}
  {e : AllocatorDesc} {pl : PlPtr} {id : Nat}

/-- The mapping of a call is blocked exactly if it fails and leaves the page tables alone. -/
theorem Maps.blocked_iff (hm : Maps s cur ans mm a e pl s₁) (hid : id ≤ threadsLimit)
    (hl5 : s₂.l5 = s₁.l5) (hmms : s₂.mms = s₁.mms) (hpls : s₂.pagelists = s₁.pagelists) :
    s.Blocked mm id ans ↔ (s₂.mapArea mm (idToAddr id) pl ans).2 = true ∧
      (s₂.mapArea mm (idToAddr id) pl ans).1.mms = s.mms := by
  have hframe := glAllocStack_frame hm.stack
  have hpages : s.offered ans = s₂.pagesOf pl := by
    rw [offered_eq hm.stack, pagesOf, pagesOf, hpls]
  have hold : (s.mms mm).pteAt s.l5 = (s₂.mms mm).pteAt s₂.l5 := by
    rw [hmms, hl5, hframe.mms, hframe.l5]
  have hstuck : (s.mms mm).stuck s.l5 ans.tables = (s₂.mms mm).stuck s₂.l5 ans.tables := by
    rw [hmms, hl5, hframe.mms, hframe.l5]
  have hidle := mapArea_idle hid s₂ mm pl ans
  have hrw := mapArea_rewrites hid s₂ mm pl ans
  have hspec := pgdStuck_spec s₂.l5 ans.tables
  rw [← hframe.mms, ← hmms, hidle, State.Blocked, hpages, hold, hstuck]
  constructor
  · rintro ⟨m, h₁, h₂, hK, hbelow⟩
    exact ⟨err_of_refused hrw h₁ h₂ (hspec.denied _ _ hK), .inr ⟨m, h₁, h₂, hK, hbelow⟩⟩
  · rintro ⟨hfail, hall | hblocked⟩
    · -- a refused address is not mapped, so not everything was there
      obtain ⟨m, h₁, h₂, hD⟩ := refused_of_err hrw hfail
      exact absurd ((hall m h₁ h₂).symm.trans (hspec.look _ _ hD)) (mkPte_ne_none _ _ _)
    · exact hblocked

/-- A descriptor that was added can be told from the table before. -/
theorem add_ne {e : AllocatorDesc} {t : ThreadDesc} :
    ((e.add id t).threads, (e.add id t).kref) ≠ (e.threads, e.kref) := by
  intro h
  have hk : e.kref + 1 = e.kref := congrArg Prod.snd h
  omega

/-- The two ways a call ends once it maps: the descriptor is there for good, or only the page tables can
have changed. -/
theorem Maps.untouched_iff (hm : Maps s cur ans mm a e pl s₁) (hid : id ≤ threadsLimit)
    (hl5 : s₂.l5 = s₁.l5) (hmms : s₂.mms = s₁.mms)
    (hreg : s₂.saAllocators = s₁.saAllocators) (hallocs : s₂.allocs = s₁.allocs)
    (hpls : s₂.pagelists = s₁.pagelists) (t : ThreadDesc) {d : Device} (hd : d.lkm = s) {s' : State}
    (hs' : s' = if (s₂.mapArea mm (idToAddr id) pl ans).2 then
      (s₂.mapArea mm (idToAddr id) pl ans).1.glFree pl
      else (s₂.mapArea mm (idToAddr id) pl ans).1.setAlloc a (e.add id t)) :
    d.Untouched { d with lkm := s' } ↔ s.Blocked mm id ans := by
  subst hd
  rw [hm.blocked_iff hid hl5 hmms hpls]
  cases hfail : (s₂.mapArea mm (idToAddr id) pl ans).2 with
  | false =>
      rw [hfail, if_neg Bool.false_ne_true] at hs'
      refine ⟨fun h ↦ ?_, fun h ↦ nomatch h.1⟩
      have htab := h.tables a
      rw [hs', setAlloc_allocs, hm.alloc] at htab
      exact absurd (Option.some.inj htab) add_ne
  | true =>
      rw [hfail, if_pos rfl] at hs'
      have hframe := glFree_frame (s₂.mapArea mm (idToAddr id) pl ans).1 pl
      have hframe₁ := glAllocStack_frame hm.stack
      constructor
      · intro h
        refine ⟨rfl, ?_⟩
        have hpt := h.pageTables
        rwa [hs', hframe.mms] at hpt
      · rintro ⟨-, hpt⟩
        refine ⟨?_, fun b ↦ ?_, ?_, rfl⟩
        · rw [hs', hframe.saAllocators, mapArea_saAllocators, hreg, hframe₁.saAllocators]
        · rw [hs', hframe.allocs, mapArea_allocs, hallocs, hframe₁.allocs]
        · rw [hs', hframe.mms, hpt]

variable {d : Device} {r : Request}

theorem Device.effective_req (hcmd : r.cmd = ioctlShadowReq) :
    d.Effective cur r ↔ ∃ mm a e pl s₁ id, AllocMaps d.lkm cur r.ans mm a e pl s₁ id ∧
      ¬ d.lkm.Blocked mm id r.ans := by
  obtain ⟨h₁, h₂, h₃, h₄, h₅, h₆⟩ := ioctl_commands_ne
  simp only [Device.Effective, hcmd, h₁.symm, h₂.symm, h₄.symm, true_and, false_and, or_false]

theorem Device.effective_free (hcmd : r.cmd = ioctlShadowFree) :
    d.Effective cur r ↔ cur.mm.isSome ∧ ValidAddr r.arg.second ∧ ∃ a t,
      d.lkm.allocFind cur.tgid = some a ∧
        (d.lkm.threads a).load (addrToId r.arg.second) = some t := by
  obtain ⟨h₁, h₂, h₃, h₄, h₅, h₆⟩ := ioctl_commands_ne
  simp only [Device.Effective, hcmd, h₁, h₃.symm, h₅.symm, true_and, false_and, or_false, false_or]

theorem Device.effective_fork (hcmd : r.cmd = ioctlShadowFork) :
    d.Effective cur r ↔ ∃ mm a e pl s₁ parent id t s₂,
      ForkMaps d.lkm cur r.ans r.arg.pTgid r.arg.pPid mm a e pl s₁ parent id t s₂ ∧
        ¬ d.lkm.Blocked mm id r.ans := by
  obtain ⟨h₁, h₂, h₃, h₄, h₅, h₆⟩ := ioctl_commands_ne
  simp only [Device.Effective, hcmd, h₂, h₃, h₆.symm, true_and, false_and, or_false, false_or]

theorem Device.effective_pivot (hcmd : r.cmd = ioctlShadowPivot) :
    d.Effective cur r ↔ ∃ mm old, cur.mm = some mm ∧
      findVma (d.layouts mm).vmas r.arg.third = some old := by
  obtain ⟨h₁, h₂, h₃, h₄, h₅, h₆⟩ := ioctl_commands_ne
  simp only [Device.Effective, hcmd, h₄, h₅, h₆, true_and, false_and, false_or]

theorem Device.Untouched.refl (d : Device) : d.Untouched d := ⟨rfl, fun _ ↦ rfl, rfl, rfl⟩

/-- `sa_alloc` touches nothing exactly if it has nothing to do. -/
theorem Device.untouched_req (hcmd : r.cmd = ioctlShadowReq) :
    d.Untouched { d with lkm := (saAlloc d.lkm cur r.ans).2 } ↔ ¬ d.Effective cur r := by
  rw [Device.effective_req hcmd]
  by_cases h : ∃ mm a e pl s₁ id, AllocMaps d.lkm cur r.ans mm a e pl s₁ id
  · have hiff : ∀ {mm a e pl s₁ id}, AllocMaps d.lkm cur r.ans mm a e pl s₁ id →
        (d.Untouched { d with lkm := (saAlloc d.lkm cur r.ans).2 } ↔ d.lkm.Blocked mm id r.ans) := by
      intro mm a e pl s₁ id hm
      refine hm.toMaps.untouched_iff (Xarray.lowestFree_eq_some hm.lowest).2.1 rfl rfl rfl rfl rfl
        ⟨cur.pid, idToAddr id, pl⟩ rfl ?_
      rw [hm.saAlloc_eq]
      split <;> rfl
    obtain ⟨mm, a, e, pl, s₁, id, hm⟩ := h
    constructor
    · rintro hsame ⟨mm', a', e', pl', s₁', id', hm', hopen⟩
      exact hopen ((hiff hm').mp hsame)
    · intro hno
      refine (hiff hm).mpr ?_
      by_contra hopen
      exact hno ⟨mm, a, e, pl, s₁, id, hm, hopen⟩
  · rw [(saAlloc_of_not_maps h).2.2]
    refine ⟨?_, fun _ ↦ .refl d⟩
    rintro - ⟨mm, a, e, pl, s₁, id, hm, -⟩
    exact h ⟨mm, a, e, pl, s₁, id, hm⟩

/-- `sa_fork` touches nothing exactly if it has nothing to do. -/
theorem Device.untouched_fork (hok : AllocOk d.lkm) (hcmd : r.cmd = ioctlShadowFork) :
    d.Untouched { d with lkm := (saFork d.lkm cur r.ans r.arg.pTgid r.arg.pPid).2 } ↔
      ¬ d.Effective cur r := by
  rw [Device.effective_fork hcmd]
  by_cases h : ∃ mm a e pl s₁ parent id t s₂,
      ForkMaps d.lkm cur r.ans r.arg.pTgid r.arg.pPid mm a e pl s₁ parent id t s₂
  · have hiff : ∀ {mm a e pl s₁ parent id t s₂},
        ForkMaps d.lkm cur r.ans r.arg.pTgid r.arg.pPid mm a e pl s₁ parent id t s₂ →
        (d.Untouched { d with lkm := (saFork d.lkm cur r.ans r.arg.pTgid r.arg.pPid).2 } ↔
          d.lkm.Blocked mm id r.ans) := by
      intro mm a e pl s₁ parent id t s₂ hm
      have hl5 : s₂.l5 = s₁.l5 := by rw [hm.copied]; rfl
      refine hm.toMaps.untouched_iff (hok.find_le hm.findParent hm.found) hl5 (by rw [hm.copied]; rfl)
        (by rw [hm.copied]; rfl) (by rw [hm.copied]; rfl) (by rw [hm.copied]; rfl)
        ⟨cur.pid, idToAddr id, pl⟩ rfl ?_
      rw [hm.saFork_eq]
      split <;> rfl
    obtain ⟨mm, a, e, pl, s₁, parent, id, t, s₂, hm⟩ := h
    constructor
    · rintro hsame ⟨mm', a', e', pl', s₁', parent', id', t', s₂', hm', hopen⟩
      exact hopen ((hiff hm').mp hsame)
    · intro hno
      refine (hiff hm).mpr ?_
      by_contra hopen
      exact hno ⟨mm, a, e, pl, s₁, parent, id, t, s₂, hm, hopen⟩
  · refine ⟨?_, fun _ ↦ ?_⟩
    · rintro - ⟨mm, a, e, pl, s₁, parent, id, t, s₂, hm, -⟩
      exact h ⟨mm, a, e, pl, s₁, parent, id, t, s₂, hm⟩
    · -- the early exits have at most exchanged the pagelist
      rcases (saFork_of_not_maps h).2 with
        heq | ⟨mm, a, e, pl, s₁, parent, hm, -, heq | ⟨id, t, s₂, -, hs₂, heq⟩⟩
      · rw [heq]
        exact .refl d
      · have h₁ := glAllocStack_frame hm.stack
        have h₂ := glFree_frame s₁ pl
        rw [heq]
        exact ⟨h₂.saAllocators.trans h₁.saAllocators, fun b ↦ by rw [h₂.allocs, h₁.allocs],
          h₂.mms.trans h₁.mms, rfl⟩
      · have h₁ := glAllocStack_frame hm.stack
        have h₂ := glFree_frame s₂ pl
        rw [heq]
        rw [hs₂] at h₂ ⊢
        exact ⟨h₂.saAllocators.trans h₁.saAllocators,
          fun b ↦ congrArg _ (congrFun (h₂.allocs.trans h₁.allocs) b), h₂.mms.trans h₁.mms, rfl⟩

/-- `sa_free` touches nothing exactly if it has nothing to do. -/
theorem Device.untouched_free (hok : AllocOk d.lkm) (hcmd : r.cmd = ioctlShadowFree) :
    d.Untouched { d with lkm := (saFree d.lkm cur r.ans r.arg.second).2 } ↔ ¬ d.Effective cur r := by
  rw [Device.effective_free hcmd]
  rcases hok.saFree_cases cur r.ans r.arg.second with
    ⟨herr, heq⟩ | ⟨mm, a, e, t, hmm, hv, hfind, he, hreg, ht, -, heq⟩
  · rw [heq]
    refine ⟨?_, fun _ ↦ .refl d⟩
    rintro - ⟨hmm, hv, a, t, hfind, ht⟩
    obtain ⟨mm, hmm⟩ := Option.isSome_iff_exists.mp hmm
    rw [saFree_eq hmm hv hfind ht] at herr
    exact herr rfl
  · refine ⟨fun h ↦ ?_, fun hno ↦ ?_⟩
    · have htab := h.tables a
      rw [heq, glFree_allocs, setAlloc_allocs, he] at htab
      have hk : e.kref - 1 = e.kref := congrArg Prod.snd (Option.some.inj htab)
      have hpos := hok.alive a e he
      omega
    · refine absurd ⟨?_, hv, a, t, hfind, ?_⟩ hno
      · rw [hmm]
        rfl
      · rw [threads_eq he]
        exact ht

/-- Whatever `sa_pivot` makes of its arguments, the old area is gone. -/
theorem saPivot_munmap {mm : MmFields} {rsp : Nat} {old : Vma} (newStackAddress : Nat)
    (hold : findVma mm.vmas rsp = some old) :
    ∃ err l, saPivot (some mm) rsp newStackAddress = some (err, some l) ∧ old ∉ l.vmas := by
  have hgone : ∀ l : MmFields, old ∉ (l.munmap old).vmas := by
    intro l hmem
    have h := (List.mem_filter.mp hmem).2
    simp at h
  unfold saPivot
  simp only [hold]
  split
  · exact ⟨_, _, rfl, hgone _⟩
  · split
    · exact ⟨_, _, rfl, hgone _⟩
    · split
      · exact ⟨_, _, rfl, hgone _⟩
      · exact ⟨_, _, rfl, hgone _⟩

/-- `sa_pivot` touches nothing exactly if it has nothing to do. -/
theorem Device.untouched_pivot (hcmd : r.cmd = ioctlShadowPivot) :
    (∀ res d', d.dispatch cur r = some (res, d') → d.Untouched d') ↔ ¬ d.Effective cur r := by
  rw [Device.effective_pivot hcmd]
  obtain ⟨h₁, h₂, h₃, h₄, h₅, h₆⟩ := ioctl_commands_ne
  simp only [Device.dispatch, hcmd, if_neg h₄, if_neg h₅, if_neg h₆]
  cases hmm : cur.mm with
  | none =>
      refine ⟨?_, fun _ res d' h ↦ ?_⟩
      · rintro - ⟨mm, old, hc, -⟩
        cases hc
      · obtain ⟨-, rfl⟩ := Prod.mk.inj (Option.some.inj h)
        exact .refl d
  | some mm =>
      cases hold : findVma (d.layouts mm).vmas r.arg.third with
      | none =>
          refine ⟨?_, fun _ res d' h ↦ ?_⟩
          · rintro - ⟨mm', old, hmm', hold'⟩
            obtain rfl := Option.some.inj hmm'
            rw [hold] at hold'
            cases hold'
          · simp [saPivot, hold] at h
      | some old =>
          obtain ⟨err, l, heq, hgone⟩ := saPivot_munmap r.arg.second hold
          simp only [Option.map_some, heq]
          constructor
          · intro h
            have hlayouts : Function.update d.layouts mm l = d.layouts := (h _ _ rfl).layouts
            have hl := congrFun hlayouts mm
            rw [Function.update_self] at hl
            rw [hl] at hgone
            exact absurd (List.mem_of_find?_eq_some hold) hgone
          · intro h
            exact absurd ⟨mm, old, rfl, hold⟩ h

/-- An operation that is carried out touches nothing exactly if it has nothing to do. -/
theorem Device.dispatch_untouched_iff (hok : AllocOk d.lkm) (hcheck : checkIoctlCmd r.cmd = 0) :
    (∀ res d', d.dispatch cur r = some (res, d') → d.Untouched d') ↔ ¬ d.Effective cur r := by
  have hsome : ∀ {x : IoctlResult} {s' : State},
      d.dispatch cur r = some (x, { d with lkm := s' }) →
      ((∀ res d', d.dispatch cur r = some (res, d') → d.Untouched d') ↔
        d.Untouched { d with lkm := s' }) := by
    intro x s' heq
    refine ⟨fun h ↦ h _ _ heq, fun h res d' h' ↦ ?_⟩
    obtain ⟨-, rfl⟩ := Prod.mk.inj (Option.some.inj (heq.symm.trans h'))
    exact h
  rcases checkIoctlCmd_eq_zero hcheck with hcmd | hcmd | hcmd | hcmd
  · exact (hsome (Device.dispatch_req hcmd)).trans (Device.untouched_req hcmd)
  · exact (hsome (Device.dispatch_free hcmd)).trans (Device.untouched_free hok hcmd)
  · exact (hsome (Device.dispatch_fork hcmd)).trans (Device.untouched_fork hok hcmd)
  · exact Device.untouched_pivot hcmd

/-- An operation ends with writing its reply. -/
theorem Device.dispatch_reply {res : IoctlResult} {d' : Device} (hcheck : checkIoctlCmd r.cmd = 0)
    (h : d.dispatch cur r = some (res, d')) : ∃ p, res = copyOut r p := by
  rcases checkIoctlCmd_eq_zero hcheck with hcmd | hcmd | hcmd | hcmd
  · rw [Device.dispatch_req hcmd] at h
    exact ⟨_, (Prod.mk.inj (Option.some.inj h)).1.symm⟩
  · rw [Device.dispatch_free hcmd] at h
    exact ⟨_, (Prod.mk.inj (Option.some.inj h)).1.symm⟩
  · rw [Device.dispatch_fork hcmd] at h
    exact ⟨_, (Prod.mk.inj (Option.some.inj h)).1.symm⟩
  · obtain ⟨h₁, h₂, h₃, h₄, h₅, h₆⟩ := ioctl_commands_ne
    simp only [Device.dispatch, hcmd, if_neg h₄, if_neg h₅, if_neg h₆] at h
    split at h
    · cases h
    · exact ⟨_, (Prod.mk.inj (Option.some.inj h)).1.symm⟩

end Effects

/-- A failing `ioctl` has touched nothing. -/
def FailsClean (d : Device) (cur : Task) (r : Request) : Prop :=
  ∀ err w d', d.chrdevIoctl cur r = some (.error (err, w), d') → err < 0 → d.Untouched d'

/-- With the reply unwritable, being clean is a matter of the operation. -/
theorem failsClean_iff_of_unwritable {d : Device} {cur : Task} {r : Request} (hok : AllocOk d.lkm)
    (hcheck : checkIoctlCmd r.cmd = 0) (hfrom : r.copyFrom = true) (hto : r.copyTo = false) :
    FailsClean d cur r ↔ ¬ d.Effective cur r := by
  rw [FailsClean, Device.chrdevIoctl_eq hcheck hfrom, ← Device.dispatch_untouched_iff hok hcheck]
  constructor
  · intro h res d' hres
    obtain ⟨p, hp⟩ := Device.dispatch_reply hcheck hres
    rw [copyOut, hto, if_neg Bool.false_ne_true] at hp
    rw [hp] at hres
    exact h _ _ d' hres (by decide)
  · intro h err w d' hres _
    exact h _ d' hres

/-- **When a failing `ioctl` has no effect**: exactly if it fails before its operation, does not fail at
all, or its operation has nothing to do. -/
theorem run_failsClean_iff {l5 : Bool} {mms : MmId → Mm} {data : Page → PageData} {es : List Event}
    {d : Device} (hrun : Run (Guarded Admissible Step) (State.init l5 mms data) es d.lkm) (cur : Task)
    (r : Request) :
    FailsClean d cur r ↔ checkIoctlCmd r.cmd ≠ 0 ∨ r.copyFrom = false ∨ r.copyTo = true ∨
      ¬ d.Effective cur r := by
  by_cases hcheck : checkIoctlCmd r.cmd = 0
  · cases hfrom : r.copyFrom with
    | false =>
        refine ⟨fun _ ↦ .inr (.inl rfl), fun _ err w d' h _ ↦ ?_⟩
        rw [Device.chrdevIoctl, if_neg (not_not.mpr hcheck), hfrom, if_neg Bool.false_ne_true] at h
        obtain ⟨-, rfl⟩ := Prod.mk.inj (Option.some.inj h)
        exact .refl d
    | true =>
        cases hto : r.copyTo with
        | true =>
            refine ⟨fun _ ↦ .inr (.inr (.inl rfl)), fun _ err w d' h _ ↦ ?_⟩
            rw [Device.chrdevIoctl_eq hcheck hfrom] at h
            obtain ⟨p, hp⟩ := Device.dispatch_reply hcheck h
            rw [copyOut, if_pos hto] at hp
            cases hp
        | false =>
            rw [failsClean_iff_of_unwritable (Inv.of_run hrun).alloc hcheck hfrom hto]
            simp [hcheck]
  · refine ⟨fun _ ↦ .inl hcheck, fun _ err w d' h _ ↦ ?_⟩
    rw [Device.chrdevIoctl, if_pos hcheck] at h
    obtain ⟨-, rfl⟩ := Prod.mk.inj (Option.some.inj h)
    exact .refl d

/-- A request for an area whose reply cannot be written. -/
def unwritable (ans : Answers) : Request := ⟨ioctlShadowReq, ⟨0, 0, 0⟩, true, false, 0, 0, ans⟩

/-- The device of a process that has an allocator. -/
def createdDevice : Device := ⟨created, fun _ ↦ ⟨[], 0, 0, 0, 0, 0, []⟩, [1]⟩

theorem run_createdDevice : Run (Guarded Admissible Step) (State.init false (fun _ ↦ textMm) fun _ _ ↦ 0)
    [createEvent] createdDevice.lkm := Run.single ⟨admissible_createEvent _, rfl⟩

/-- Process 2 has no allocator, so that there is nothing to do, and failing is clean. -/
theorem run_failsClean_iff_no_allocator :
    FailsClean createdDevice ⟨2, 2, some 1⟩ (unwritable noPages) := by
  refine (run_failsClean_iff run_createdDevice _ _).mpr (.inr (.inr (.inr ?_)))
  rw [Device.effective_req rfl]
  rintro ⟨mm, a, e, pl, s₁, id, hm, -⟩
  have hfind : createdDevice.lkm.allocFind 2 = none := by simp [createdDevice, State.allocFind, created_eq]
  cases hfind.symm.trans hm.find

/-- Where every table is granted, nothing blocks the mapping. -/
theorem State.not_blocked {s : State} {mm : MmId} {id : Nat} {ans : Answers}
    (h : ∀ level n, ans.tables level n ≠ none) : ¬ s.Blocked mm id ans := by
  rintro ⟨m, -, -, hK, -⟩
  exact not_denied h (s.mms mm) m ((pgdStuck_spec s.l5 ans.tables).denied _ _ hK)

/-- With an allocator, the request fails and the area stays: nobody knows its address. -/
theorem not_run_failsClean :
    ¬ ∀ (l5 : Bool) (mms : MmId → Mm) (data : Page → PageData) (es : List Event) (d : Device)
      (cur : Task) (r : Request),
      Run (Guarded Admissible Step) (State.init l5 mms data) es d.lkm → FailsClean d cur r := by
  intro h
  have hclean := h _ _ _ _ createdDevice ⟨1, 1, some 0⟩ (unwritable (grants (0 * ssPages))) run_createdDevice
  rw [failsClean_iff_of_unwritable (Inv.of_run run_createdDevice).alloc rfl rfl rfl,
    Device.effective_req rfl] at hclean
  obtain ⟨e, he, hk, hslot⟩ := filled_created.alloc
  refine hclean ⟨0, 0, e, _, _, 0, ⟨⟨rfl, filled_created.find, he, hk,
    filled_created.glAllocStack rfl⟩, ?_, rfl, rfl⟩, State.not_blocked fun _ _ ↦ nofun⟩
  exact Xarray.lowestFree_eq_of le_rfl (Nat.zero_le _) ((hslot 0).mpr le_rfl) fun j _ hj ↦ nomatch hj

end ShadowStack.Lkm
