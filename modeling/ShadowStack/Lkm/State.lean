import ShadowStack.Lib.Xarray
import ShadowStack.Lkm.FreeRange
import ShadowStack.Lkm.MapRange

/-!
# The allocator of the kernel module

The data of `lkm/core/api.c` and its entry points `alloc_create`, `alloc_destroy`, `sa_alloc`,
`sa_fork`, `sa_free` and `vma_free`, as functions on a module state.  Calls are complete here: this
is the sequential model, without the locks.

Everything the module asks the kernel for is an `Answers` record passed to the call, so that every
pattern of allocation failures is a value of that type.  Objects the module allocates with
`kmalloc` are named by numbers that are never used twice; a freed object is `none`.  Descriptors
are referenced from one table slot only and are stored there by value.
-/

namespace ShadowStack.Lkm

open Lib

/-- The error numbers the module returns, negated in the source. -/
inductive Errno where
  | EINVAL | ENOMEM | ENOENT | EBUSY
deriving DecidableEq, Repr

abbrev MmId := Nat
abbrev AllocPtr := Nat
abbrev PlPtr := Nat

/-- The bytes of a page. -/
abbrev PageData := Nat → UInt8

/-- The calling thread: `current->pid`, `current->tgid` and `current->mm`, which kernel threads do
not have. -/
structure Task where
  pid : Nat
  tgid : Nat
  mm : Option MmId
deriving DecidableEq, Repr

/-- `struct sa_pagelist`; `nr_pages` is the length. -/
structure Pagelist where
  pages : List Page
deriving DecidableEq, Repr

/-- `struct sa_thread_desc`. -/
structure ThreadDesc where
  tid : Nat
  addr : Nat
  pagelist : PlPtr
deriving DecidableEq, Repr

/-- `struct sa_allocator_desc`. -/
structure AllocatorDesc where
  tgid : Nat
  mm : Option MmId
  threads : Xarray ThreadDesc
  maxId : Nat
  kref : Nat

/-- The state of the module, with the page tables and page contents it works on. -/
structure State where
  /-- Whether the machine uses five-level paging. -/
  l5 : Bool
  /-- `sa_allocators`: allocators by thread group. -/
  saAllocators : Xarray AllocPtr
  /-- The allocators that exist. -/
  allocs : AllocPtr → Option AllocatorDesc
  nextAlloc : AllocPtr
  /-- The pagelists that exist. -/
  pagelists : PlPtr → Option Pagelist
  nextPl : PlPtr
  /-- `gl_sa`, first entry first. -/
  glSa : List PlPtr
  glSize : Int
  /-- The pages obtained from the page allocator and not returned to it. -/
  held : Finset Page
  data : Page → PageData
  mms : MmId → Mm
  /-- The allocators `alloc_destroy` was called for. -/
  destroyed : Finset AllocPtr
  /-- The runs of `alloc_destroy_callback`: the allocator, and its descriptor table then. -/
  callbacks : List (AllocPtr × Xarray ThreadDesc)

/-- How the kernel answers the requests of one call. -/
structure Answers where
  /-- `kmalloc_obj(*alloc)` succeeds. -/
  allocDesc : Bool
  /-- An xarray insertion finds memory for its nodes. -/
  xaMem : Bool
  /-- `kmalloc_obj(*thread)` succeeds. -/
  thread : Bool
  /-- `kmalloc_obj(*pagelist)` succeeds. -/
  pagelist : Bool
  /-- The page array is granted. -/
  kvcalloc : Bool
  /-- The high-order requests in turn: the first page of a block, or failure. -/
  high : List (Option Page)
  /-- The bulk requests in turn. -/
  bulk : List (List Page)
  /-- The single-page requests in turn; `none` is failure or a pending fatal signal. -/
  single : List (Option Page)
  /-- The page-table requests. -/
  tables : TableAnswers
  /-- The `GFP_NOWAIT` requests for release batches in turn. -/
  nowait : List (Option Page)

/-- `GL_SA_CAPACITY`. -/
def glSaCapacity : Int := 128

/-! ## Pages -/

/-- `COMPAT_MAX_ORDER`. -/
def compatMaxOrder : Nat := 10

/-- `ilog2` as an unsigned value; at zero it is `-1`. -/
def ilog2 (n : Nat) : Nat := if n = 0 then 2 ^ 32 - 1 else Nat.log2 n

/-- The first loop of `sa_pagelist_alloc_pages`: blocks of decreasing order, the order coming from
what is still missing and from the last failure. -/
def allocHigh (nr : Nat) : List (Option Page) → List Page → Nat → Nat → List Page
  | [], acc, _, _ => acc
  | answer :: rest, acc, order, maxOrder =>
      if 0 < order ∧ acc.length < nr then
        match answer with
        | none => allocHigh nr rest acc (order - 1) (order - 1)
        | some p =>
            let acc := acc ++ List.range' p (2 ^ order)
            allocHigh nr rest acc (min maxOrder (ilog2 (nr - acc.length))) maxOrder
      else acc

/-- The second loop: bulk requests of at most 100 pages, until one falls short. -/
def allocBulk (nr : Nat) : List (List Page) → List Page → List Page
  | [], acc => acc
  | answer :: rest, acc =>
      if acc.length < nr then
        let request := min 100 (nr - acc.length)
        let got := answer.take request
        if got.length ≠ request then acc ++ got else allocBulk nr rest (acc ++ got)
      else acc

/-- The third loop: single pages, until one is refused. -/
def allocSingle (nr : Nat) : List (Option Page) → List Page → List Page
  | some p :: rest, acc => if acc.length < nr then allocSingle nr rest (acc ++ [p]) else acc
  | _, acc => acc

/-- The pages the three loops obtain, in the order of `pages[]`. -/
def obtained (ans : Answers) (nr : Nat) : List Page :=
  allocSingle nr ans.single (allocBulk nr ans.bulk
    (allocHigh nr ans.high [] (min compatMaxOrder (ilog2 nr)) compatMaxOrder))

/-- `sa_pagelist_alloc_pages`: all of the pages, or none: those obtained are freed again. -/
def saPagelistAllocPages (ans : Answers) (nr : Nat) : Option (List Page) :=
  if ans.kvcalloc then
    if (obtained ans nr).length = nr then some (obtained ans nr) else none
  else none

/-- The number of pages of a shadow area, `SS_SIZE >> PAGE_SHIFT`. -/
def ssPages : Nat := ssSize / pageSize

namespace State

/-- The pages of a pagelist. -/
def pagesOf (s : State) (pl : PlPtr) : List Page :=
  match s.pagelists pl with
  | some l => l.pages
  | none => []

/-- `clear_highpage` on each page. -/
def zeroPages (s : State) (ps : List Page) : State :=
  { s with data := fun p ↦ if p ∈ ps then fun _ ↦ 0 else s.data p }

/-- `sa_pagelist_free`: the pages go back to the page allocator. -/
def saPagelistFree (s : State) (pl : PlPtr) : State :=
  { s with
    pagelists := Function.update s.pagelists pl none
    held := s.held \ (s.pagesOf pl).toFinset }

/-- `gl_alloc_stack`: recycle the first pagelist of `gl_sa`, or make a new one with zeroed
pages. -/
def glAllocStack (s : State) (ans : Answers) : Option (PlPtr × State) :=
  match s.glSa with
  | pl :: rest => some (pl, { s with glSa := rest, glSize := s.glSize - 1 })
  | [] =>
      if ans.pagelist then
        match saPagelistAllocPages ans ssPages with
        | none => none
        | some ps =>
            some (s.nextPl, { s with
              pagelists := Function.update s.pagelists s.nextPl (some ⟨ps⟩)
              nextPl := s.nextPl + 1
              held := s.held ∪ ps.toFinset
              data := fun p ↦ if p ∈ ps then fun _ ↦ 0 else s.data p })
      else none

/-- `gl_free`: clear the pages and put the pagelist on `gl_sa`, or free it if the list is full. -/
def glFree (s : State) (pl : PlPtr) : State :=
  if glSaCapacity ≤ s.glSize then s.saPagelistFree pl
  else { s.zeroPages (s.pagesOf pl) with glSize := s.glSize + 1, glSa := pl :: s.glSa }

/-- `vma_free`: empty `gl_sa` and free every pagelist that was on it. -/
def vmaFree (s : State) : State :=
  s.glSa.foldl saPagelistFree { s with glSa := [], glSize := 0 }

/-! ## Allocators -/

/-- Change one allocator in place. -/
def modAlloc (s : State) (a : AllocPtr) (f : AllocatorDesc → AllocatorDesc) : State :=
  { s with allocs := Function.update s.allocs a ((s.allocs a).map f) }

/-- The walk of `alloc_destroy_callback` before its first step. -/
def startWalk (mm : Mm) (nowait : List (Option Page)) : Walk where
  tlb := ⟨0, 0, false, none⟩
  nowait := nowait
  taken := []
  freed := []
  nrPtes := mm.nrPtes
  nrPmds := mm.nrPmds
  nrPuds := mm.nrPuds
  log := []

/-- The walk of `alloc_destroy_callback` over an address space. -/
def teardown (s : State) (mm : Mm) (ans : Answers) : (Nat → Entry P4dTable) × Walk :=
  freePgdRange s.l5 0 0 0 0 mm.pgd (startWalk mm ans.nowait)

/-- `alloc_destroy_callback`, with the log of its walk. -/
def allocDestroyCallback (s : State) (a : AllocPtr) (d : AllocatorDesc) (ans : Answers) :
    State × List WalkEvent :=
  let s := { s with
    callbacks := s.callbacks ++ [(a, d.threads)]
    allocs := Function.update s.allocs a none }
  match d.mm with
  | none => (s, [])
  | some m =>
      let r := s.teardown (s.mms m) ans
      ({ s with
          mms := Function.update s.mms m ⟨r.1, r.2.nrPtes, r.2.nrPmds, r.2.nrPuds⟩
          held := s.held ∪ r.2.taken.toFinset }, r.2.log)

/-- `alloc_put`. -/
def allocPut (s : State) (a : AllocPtr) (ans : Answers) : State :=
  match s.allocs a with
  | none => s
  | some d =>
      if d.kref = 1 then (s.allocDestroyCallback a { d with kref := 0 } ans).1
      else s.modAlloc a fun d ↦ { d with kref := d.kref - 1 }

/-- `alloc_create`: the new allocator, or `NULL`. -/
def allocCreate (s : State) (tgid : Nat) (mm : Option MmId) (ans : Answers) :
    Option AllocPtr × State :=
  if ans.allocDesc && ans.xaMem && (s.saAllocators.slot tgid).isNone then
    (some s.nextAlloc, { s with
      saAllocators := s.saAllocators.set tgid (.entry s.nextAlloc)
      allocs := Function.update s.allocs s.nextAlloc (some ⟨tgid, mm, .empty, 0, 1⟩)
      nextAlloc := s.nextAlloc + 1 })
  else (none, s)

/-- `alloc_destroy`. -/
def allocDestroy (s : State) (a : AllocPtr) (ans : Answers) : State :=
  match s.allocs a with
  | none => s
  | some d =>
      allocPut { s with
        saAllocators := s.saAllocators.erase d.tgid
        destroyed := insert a s.destroyed } a ans

/-- `alloc_find`. -/
def allocFind (s : State) (tgid : Nat) : Option AllocPtr := s.saAllocators.load tgid

/-- `alloc_get`: find the allocator of a thread group and take a reference to it. -/
def allocGet (s : State) (tgid : Nat) : Option (AllocPtr × State) :=
  match s.allocFind tgid with
  | none => none
  | some a =>
      match s.allocs a with
      | none => none
      | some d =>
          if d.kref = 0 then none
          else some (a, s.modAlloc a fun d ↦ { d with kref := d.kref + 1 })

/-- The descriptor table of an allocator. -/
def threads (s : State) (a : AllocPtr) : Xarray ThreadDesc :=
  match s.allocs a with
  | some d => d.threads
  | none => .empty

/-- Change the descriptor table of an allocator. -/
def modThreads (s : State) (a : AllocPtr) (f : Xarray ThreadDesc → Xarray ThreadDesc) : State :=
  s.modAlloc a fun d ↦ { d with threads := f d.threads }

/-- New page tables for an address space, passing on whether the walk that made them failed. -/
def withTables (s : State) (mm : MmId) (r : Mm × Bool) : State × Bool :=
  ({ s with mms := Function.update s.mms mm r.1 }, r.2)

/-- `map_range` on the page tables of an address space. -/
def mapArea (s : State) (mm : MmId) (addr : Nat) (pl : PlPtr) (ans : Answers) : State × Bool :=
  s.withTables mm
    (mapRange s.l5 ans.tables addr (s.pagesOf pl) (s.mms mm) (wrapAdd addr ssSize))

/-- `unmap_range` on the page tables of an address space. -/
def unmapArea (s : State) (mm : MmId) (addr : Nat) : State :=
  { s with
    mms := Function.update s.mms mm (unmapRange (s.mms mm) addr (wrapAdd addr ssSize)) }

/-- `xa_alloc` on a descriptor table, with `XA_LIMIT(0, THREADS_LIMIT)`. -/
def xaAlloc (s : State) (a : AllocPtr) (ans : Answers) : Except Errno Nat :=
  match (s.threads a).lowestFree 0 threadsLimit with
  | none => .error .EBUSY
  | some id => if ans.xaMem then .ok id else .error .ENOMEM

/-- `atomic64_max` on `max_id`, and the store of the descriptor. -/
def publish (s : State) (a : AllocPtr) (id : Nat) (t : ThreadDesc) : State :=
  s.modAlloc a fun d ↦
    { d with maxId := max d.maxId id, threads := d.threads.set id (.entry t) }

end State

/-! ## The calls -/

/-- What a call gives back: the error, `none` standing for 0, and the address `sa_alloc` wrote. -/
structure Reply where
  err : Option Errno
  addr : Option Nat
deriving DecidableEq, Repr

/-- A failing reply without an address. -/
def Reply.fail (e : Errno) : Reply := ⟨some e, none⟩

section Calls

variable (s : State) (cur : Task) (ans : Answers)

/-- `sa_alloc`. -/
def saAlloc : Reply × State :=
  match cur.mm with
  | none => (.fail .EINVAL, s)
  | some mm =>
      match s.allocGet cur.tgid with
      | none => (.fail .ENOMEM, s)
      | some (a, s) =>
          match s.xaAlloc a ans with
          | .error e => (.fail e, s.allocPut a ans)
          | .ok id =>
              let s := s.modThreads a fun x ↦ x.set id .reserved
              let errErase (s : State) : State :=
                (s.modThreads a fun x ↦ x.erase id).allocPut a ans
              if ans.thread then
                match s.glAllocStack ans with
                | none => (.fail .ENOMEM, errErase s)
                | some (pl, s) =>
                    let t : ThreadDesc := ⟨cur.pid, idToAddr id, pl⟩
                    let r := s.mapArea mm t.addr pl ans
                    if r.2 then (⟨some .ENOMEM, some t.addr⟩, errErase (r.1.glFree pl))
                    else (⟨none, some t.addr⟩, r.1.publish a id t)
              else (.fail .ENOMEM, errErase s)

/-- The copy loop of `sa_fork`: `copy_highpage` from each page of `src` to the page at the same
position of `dst`. -/
def copyData (data : Page → PageData) (dst src : List Page) : Page → PageData :=
  (dst.zip src).foldl (fun data p ↦ Function.update data p.1 (data p.2)) data

/-- The copy loop on the state. -/
def copyPages (s : State) (dst src : List Page) : State :=
  { s with data := copyData s.data dst src }

/-- `sa_fork`. -/
def saFork (parentTgid parentPid : Nat) : Reply × State :=
  match cur.mm with
  | none => (.fail .EINVAL, s)
  | some mm =>
      match s.allocGet cur.tgid with
      | none => (.fail .ENOMEM, s)
      | some (child, s) =>
          match s.allocFind parentTgid with
          | none => (.fail .ENOENT, s.allocPut child ans)
          | some parent =>
              if ans.thread then
                match s.glAllocStack ans with
                | none => (.fail .ENOMEM, s.allocPut child ans)
                | some (stack, s) =>
                    match (s.threads parent).find? fun t ↦ t.tid == parentPid with
                    | none => (.fail .ENOENT, (s.glFree stack).allocPut child ans)
                    | some (id, t) =>
                        let s := copyPages s (s.pagesOf stack) (s.pagesOf t.pagelist)
                        let thread : ThreadDesc := ⟨cur.pid, idToAddr id, stack⟩
                        if ((s.threads child).slot id).isSome then
                          (.fail .EBUSY, (s.glFree stack).allocPut child ans)
                        else if !ans.xaMem then
                          (.fail .ENOMEM, (s.glFree stack).allocPut child ans)
                        else
                          let s := s.modThreads child fun x ↦ x.set id (.entry thread)
                          let r := s.mapArea mm thread.addr stack ans
                          if r.2 then
                            (.fail .ENOMEM,
                              ((r.1.modThreads child fun x ↦ x.erase id).glFree stack).allocPut
                                child ans)
                          else
                            (⟨none, none⟩,
                              r.1.modAlloc child fun d ↦ { d with maxId := max d.maxId id })
              else (.fail .ENOMEM, s.allocPut child ans)

/-- `sa_free`. -/
def saFree (addr : Nat) : Reply × State :=
  match cur.mm with
  | none => (.fail .EINVAL, s)
  | some mm =>
      if addr < ssStart ∨ ssEnd ≤ addr ∨ (addr - ssStart) % ssSize ≠ 0 then (.fail .EINVAL, s)
      else
        match s.allocFind cur.tgid with
        | none => (.fail .EINVAL, s)
        | some a =>
            let id := addrToId addr
            match (s.threads a).load id with
            | none => (.fail .EINVAL, s.modThreads a fun x ↦ x.erase id)
            | some t =>
                let s := (s.modThreads a fun x ↦ x.erase id).unmapArea mm addr
                (⟨none, none⟩, (s.glFree t.pagelist).allocPut a ans)

end Calls

/-- The entry points of the module. -/
inductive Call where
  | allocCreate (tgid : Nat) (mm : Option MmId)
  | allocDestroy (a : AllocPtr)
  | saAlloc
  | saFork (parentTgid parentPid : Nat)
  | saFree (addr : Nat)
  | vmaFree
deriving DecidableEq, Repr

/-- A call: who makes it, what it is and how the kernel answers its requests. -/
structure Event where
  cur : Task
  call : Call
  ans : Answers

/-- The reply and the state after a complete call. -/
def exec (s : State) (e : Event) : Reply × State :=
  match e.call with
  | .allocCreate tgid mm => (⟨none, none⟩, (s.allocCreate tgid mm e.ans).2)
  | .allocDestroy a => (⟨none, none⟩, s.allocDestroy a e.ans)
  | .saAlloc => saAlloc s e.cur e.ans
  | .saFork parentTgid parentPid => saFork s e.cur e.ans parentTgid parentPid
  | .saFree addr => saFree s e.cur e.ans addr
  | .vmaFree => (⟨none, none⟩, s.vmaFree)

/-- What the page allocator promises of its answers in a state: the pages it hands out for a
pagelist are distinct and not in use by the module already. -/
structure Answers.Fresh (s : State) (ans : Answers) : Prop where
  nodup : (obtained ans ssPages).Nodup
  unused : ∀ p ∈ obtained ans ssPages, p ∉ s.held

/-- The module right after it was loaded, for address spaces `mms`. -/
def State.init (l5 : Bool) (mms : MmId → Mm) (data : Page → PageData) : State where
  l5 := l5
  saAllocators := .empty
  allocs _ := none
  nextAlloc := 0
  pagelists _ := none
  nextPl := 0
  glSa := []
  glSize := 0
  held := ∅
  data := data
  mms := mms
  destroyed := ∅
  callbacks := []

end ShadowStack.Lkm
