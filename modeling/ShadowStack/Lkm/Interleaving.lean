import ShadowStack.Lib.Run
import ShadowStack.Lkm.Outcome

/-!
# Calls in single steps

The entry points of `lkm/core/api.c` once more, with any number of calls under way at once.  A step is
one operation on an xarray, one section under a lock, one change of a reference count, one mapping or
unmapping of an area, or one `kmalloc` or `kfree`; steps of different calls happen in any order.
`alloc_create` works on an object no one else sees until its one `xa_insert`, and is a single step.
The one section under a lock that takes many steps is the scan of `sa_fork`, which reads the table of
the parent and copies pages while it holds `al_lock` for reading.  Only `sa_free` waits for it.

An allocator stays in the model after `alloc_destroy_callback` has freed it, with what it last
contained: who reads it then reads freed memory.  Reading a freed descriptor gives the `stale` value
that comes with the step, and so does the length of a freed pagelist.
-/

namespace ShadowStack.Lkm.Conc

open Lib

/-- Where `sa_fork` is between `down_read` and `up_read`: its next step. -/
inductive Scan where
  | lock
  /-- To find the next entry, from index `i` on. -/
  | next (i : Nat)
  /-- To compare `t->tid`, for the descriptor `t` at index `i`. -/
  | tid (i t : Nat)
  /-- To copy page `k` of `t->pagelist`, if there is one. -/
  | copy (i t k : Nat)
  | unlock (found : Option Nat)
deriving DecidableEq, Repr

/-- Where a call is: its next step, with the local variables that are still of use.  Allocators are
`a`, with `parent` for the second one of `sa_fork`; descriptors are `t` and pagelists `pl`. -/
inductive Pc where
  /- `sa_alloc`, -/
  | allocFind
  | allocGet (a : AllocPtr)
  | allocReserve (a : AllocPtr)
  | allocThread (a : AllocPtr) (id : Nat)
  | allocStack (a : AllocPtr) (id t : Nat)
  | allocMap (a : AllocPtr) (id t : Nat)
  | allocMax (a : AllocPtr) (id t : Nat)
  | allocStore (a : AllocPtr) (id t : Nat)
  | allocRead (a : AllocPtr) (id t : Nat)
  /- and its way out of a failure. -/
  | allocGlFree (a : AllocPtr) (id t : Nat)
  | allocKfree (a : AllocPtr) (id t : Nat)
  | allocErase (a : AllocPtr) (id : Nat)
  /- `sa_fork`, -/
  | forkFind (parentTgid parentPid : Nat)
  | forkGet (a : AllocPtr) (parentTgid parentPid : Nat)
  | forkParent (a : AllocPtr) (parentTgid parentPid : Nat)
  | forkThread (a parent : AllocPtr) (parentPid : Nat)
  | forkStack (a parent : AllocPtr) (parentPid t : Nat)
  | forkScan (a parent : AllocPtr) (parentPid t : Nat) (pl : PlPtr) (s : Scan)
  | forkInsert (a : AllocPtr) (id t : Nat) (pl : PlPtr)
  | forkMap (a : AllocPtr) (id t : Nat) (pl : PlPtr)
  | forkMax (a : AllocPtr) (id t : Nat)
  /- and its way out of a failure. -/
  | forkErase (a : AllocPtr) (id t : Nat) (pl : PlPtr)
  | forkGlFree (a : AllocPtr) (t : Nat) (pl : PlPtr)
  | forkKfree (a : AllocPtr) (t : Nat)
  /- `sa_free`. -/
  | freeFind (addr : Nat)
  | freeErase (a : AllocPtr) (id : Nat)
  | freeUnmap (a : AllocPtr) (t : Nat)
  | freeGlFree (a : AllocPtr) (t : Nat)
  | freeKfree (a : AllocPtr) (t : Nat)
  /- `alloc_destroy`. -/
  | destroyErase (a : AllocPtr)
  /- `alloc_put` at the end of any of them. -/
  | put (a : AllocPtr)
  | callback (a : AllocPtr)
deriving DecidableEq, Repr

/-- The allocator whose `al_lock` a call holds for reading. -/
def Pc.reading : Pc → Option AllocPtr
  | .forkScan _ _ _ _ _ .lock => none
  | .forkScan _ parent _ _ _ _ => some parent
  | _ => none

/-- A call under way, by a thread of a process with a user address space. -/
structure Frame where
  pid : Nat
  tgid : Nat
  pc : Pc
deriving DecidableEq, Repr

/-- A call of `sa_alloc` that has returned 0: the id and the descriptor it made, and the address it
returned. -/
structure Grant where
  a : AllocPtr
  id : Nat
  t : Nat
  addr : Nat
deriving DecidableEq, Repr

/-- The shared state, and the calls under way. -/
structure World where
  /-- `sa_allocators`. -/
  reg : Nat → Option AllocPtr
  tgid : AllocPtr → Nat
  threads : AllocPtr → Xarray Nat
  maxId : AllocPtr → Nat
  kref : AllocPtr → Nat
  nextAlloc : AllocPtr
  /-- The descriptors that `kmalloc` has returned and `kfree` has not taken back. -/
  descs : Nat → Option ThreadDesc
  nextDesc : Nat
  /-- The pagelists that came out of `gl_alloc_stack` and were not passed to `gl_free` since. -/
  held : Finset PlPtr
  glSa : List PlPtr
  glSize : Int
  nextPl : PlPtr
  calls : Nat → Option Frame
  nextCall : Nat
  /-- The allocators `alloc_destroy` was called for. -/
  destroyed : Finset AllocPtr
  /-- The allocators `alloc_destroy_callback` has run for. -/
  dead : Finset AllocPtr
  /-- The descriptors that `sa_free` has removed from a table. -/
  removed : Finset Nat
  /-- The calls of `sa_alloc` that have returned 0. -/
  grants : Nat → Option Grant

/-- The answer of the kernel to the request of a step: whether it is granted; and what a read of freed
memory gives. -/
structure Answer where
  ok : Bool
  stale : Nat

namespace World

variable (w : World)

/-- The module right after it was loaded. -/
def init : World where
  reg _ := none
  tgid _ := 0
  threads _ := .empty
  maxId _ := 0
  kref _ := 0
  nextAlloc := 0
  descs _ := none
  nextDesc := 0
  held := ∅
  glSa := []
  glSize := 0
  nextPl := 0
  calls _ := none
  nextCall := 0
  destroyed := ∅
  dead := ∅
  removed := ∅
  grants _ := none

/-! ## Operations of one step -/

/-- Call `n` goes on with `pc`. -/
def goto (n : Nat) (f : Frame) (pc : Pc) : World :=
  { w with calls := Function.update w.calls n (some { f with pc := pc }) }

/-- Call `n` returns. -/
def finish (n : Nat) : World := { w with calls := Function.update w.calls n none }

def setThreads (a : AllocPtr) (x : Xarray Nat) : World :=
  { w with threads := Function.update w.threads a x }

def setKref (a : AllocPtr) (k : Nat) : World := { w with kref := Function.update w.kref a k }

def setDesc (t : Nat) (d : Option ThreadDesc) : World :=
  { w with descs := Function.update w.descs t d }

/-- `atomic64_max`. -/
def raiseMax (a : AllocPtr) (id : Nat) : World :=
  { w with maxId := Function.update w.maxId a (max (w.maxId a) id) }

/-- `kmalloc` of a descriptor. -/
def kmalloc : World :=
  { w with descs := Function.update w.descs w.nextDesc (some ⟨0, 0, 0⟩), nextDesc := w.nextDesc + 1 }

/-- `gl_alloc_stack`: the first pagelist of `gl_sa`, or a new one. -/
def glAllocStack (ok : Bool) : Option (PlPtr × World) :=
  match w.glSa with
  | pl :: rest => some (pl, { w with glSa := rest, glSize := w.glSize - 1, held := insert pl w.held })
  | [] =>
      if ok then some (w.nextPl, { w with nextPl := w.nextPl + 1, held := insert w.nextPl w.held })
      else none

/-- `gl_free`. -/
def glFree (pl : PlPtr) : World :=
  if glSaCapacity ≤ w.glSize then { w with held := w.held.erase pl }
  else { w with held := w.held.erase pl, glSize := w.glSize + 1, glSa := pl :: w.glSa }

/-- `t->pagelist`. -/
def pagelist (t stale : Nat) : PlPtr :=
  match w.descs t with
  | some d => d.pagelist
  | none => stale

/-- `t->addr`. -/
def addr (t stale : Nat) : Nat :=
  match w.descs t with
  | some d => d.addr
  | none => stale

/-- `t->tid`. -/
def tid (t stale : Nat) : Nat :=
  match w.descs t with
  | some d => d.tid
  | none => stale

/-- `pl->nr_pages`, of a pagelist that is in use, in the free list, or freed. -/
def nrPages (pl : PlPtr) (stale : Nat) : Nat :=
  if pl ∈ w.held ∨ pl ∈ w.glSa then ssPages else stale

/-- Some call holds `al_lock` for reading. -/
def readLocked (a : AllocPtr) : Bool :=
  (List.range w.nextCall).any fun n ↦ (w.calls n).any fun f ↦ f.pc.reading == some a

/-- What follows a step of the scan. -/
def scan (a parent : AllocPtr) (pp t : Nat) (pl : PlPtr) (stale : Nat) : Scan → Pc
  | .lock => .forkScan a parent pp t pl (.next 0)
  | .next i =>
      match (w.threads parent).next i with
      | none => .forkScan a parent pp t pl (.unlock none)
      | some (j, t') => .forkScan a parent pp t pl (.tid j t')
  | .tid i t' =>
      if w.tid t' stale = pp then .forkScan a parent pp t pl (.copy i t' 0)
      else .forkScan a parent pp t pl (.next (i + 1))
  | .copy i t' k =>
      if k < w.nrPages (w.pagelist t' stale) stale then .forkScan a parent pp t pl (.copy i t' (k + 1))
      else .forkScan a parent pp t pl (.unlock (some i))
  | .unlock none => .forkGlFree a t pl
  | .unlock (some id) => .forkInsert a id t pl

/-- The scan goes on, or it is over. -/
theorem scan_cases (a parent : AllocPtr) (pp t : Nat) (pl : PlPtr) (stale : Nat) (s : Scan) :
    (∃ s', w.scan a parent pp t pl stale s = .forkScan a parent pp t pl s') ∨
      w.scan a parent pp t pl stale s = .forkGlFree a t pl ∨
        ∃ id, w.scan a parent pp t pl stale s = .forkInsert a id t pl := by
  cases s with
  | lock => exact .inl ⟨_, rfl⟩
  | unlock found =>
      cases found with
      | none => exact .inr (.inl rfl)
      | some id => exact .inr (.inr ⟨id, rfl⟩)
  | _ =>
      refine .inl ?_
      simp only [scan]
      split <;> exact ⟨_, rfl⟩

end World

/-! ## The steps of the calls -/

section Steps

variable (w : World) (n : Nat) (f : Frame) (ans : Answer)

/-- The steps of `sa_alloc`. -/
def stepAlloc : Pc → World
  | .allocFind =>
      match w.reg f.tgid with
      | none => w.finish n
      | some a => w.goto n f (.allocGet a)
  | .allocGet a =>
      if w.kref a = 0 then w.finish n
      else (w.setKref a (w.kref a + 1)).goto n f (.allocReserve a)
  | .allocReserve a =>
      match (w.threads a).lowestFree 0 threadsLimit with
      | none => w.goto n f (.put a)
      | some id =>
          if ans.ok then
            (w.setThreads a ((w.threads a).set id .reserved)).goto n f (.allocThread a id)
          else w.goto n f (.put a)
  | .allocThread a id =>
      if ans.ok then w.kmalloc.goto n f (.allocStack a id w.nextDesc)
      else w.goto n f (.allocErase a id)
  | .allocStack a id t =>
      match w.glAllocStack ans.ok with
      | none => w.goto n f (.allocKfree a id t)
      | some (pl, w) =>
          (w.setDesc t (some ⟨f.pid, idToAddr id, pl⟩)).goto n f (.allocMap a id t)
  | .allocMap a id t =>
      if ans.ok then w.goto n f (.allocMax a id t) else w.goto n f (.allocGlFree a id t)
  | .allocMax a id t => (w.raiseMax a id).goto n f (.allocStore a id t)
  | .allocStore a id t =>
      -- a store to an index in use needs no memory; the result is not looked at
      if ans.ok || ((w.threads a).slot id).isSome then
        (w.setThreads a ((w.threads a).set id (.entry t))).goto n f (.allocRead a id t)
      else w.goto n f (.allocRead a id t)
  | .allocRead a id t =>
      { w.finish n with
        grants := Function.update w.grants n (some ⟨a, id, t, w.addr t ans.stale⟩) }
  | .allocGlFree a id t => (w.glFree (w.pagelist t ans.stale)).goto n f (.allocKfree a id t)
  | .allocKfree a id t => (w.setDesc t none).goto n f (.allocErase a id)
  | .allocErase a id => (w.setThreads a ((w.threads a).erase id)).goto n f (.put a)
  | _ => w

/-- The steps of `sa_fork`. -/
def stepFork : Pc → World
  | .forkFind pt pp =>
      match w.reg f.tgid with
      | none => w.finish n
      | some a => w.goto n f (.forkGet a pt pp)
  | .forkGet a pt pp =>
      if w.kref a = 0 then w.finish n
      else (w.setKref a (w.kref a + 1)).goto n f (.forkParent a pt pp)
  | .forkParent a pt pp =>
      match w.reg pt with
      | none => w.goto n f (.put a)
      | some parent => w.goto n f (.forkThread a parent pp)
  | .forkThread a parent pp =>
      if ans.ok then w.kmalloc.goto n f (.forkStack a parent pp w.nextDesc)
      else w.goto n f (.put a)
  | .forkStack a parent pp t =>
      match w.glAllocStack ans.ok with
      | none => w.goto n f (.forkKfree a t)
      | some (pl, w) => w.goto n f (.forkScan a parent pp t pl .lock)
  | .forkScan a parent pp t pl s => w.goto n f (w.scan a parent pp t pl ans.stale s)
  | .forkInsert a id t pl =>
      let w := w.setDesc t (some ⟨f.pid, idToAddr id, pl⟩)
      if ans.ok && ((w.threads a).slot id).isNone then
        (w.setThreads a ((w.threads a).set id (.entry t))).goto n f (.forkMap a id t pl)
      else w.goto n f (.forkGlFree a t pl)
  | .forkMap a id t pl =>
      if ans.ok then w.goto n f (.forkMax a id t) else w.goto n f (.forkErase a id t pl)
  | .forkMax a id _ => (w.raiseMax a id).finish n
  | .forkErase a id t pl =>
      (w.setThreads a ((w.threads a).erase id)).goto n f (.forkGlFree a t pl)
  | .forkGlFree a t pl => (w.glFree pl).goto n f (.forkKfree a t)
  | .forkKfree a t => (w.setDesc t none).goto n f (.put a)
  | _ => w

/-- The steps of `sa_free`, `alloc_destroy` and `alloc_put`. -/
def stepFree : Pc → World
  | .freeFind addr =>
      if addr < ssStart ∨ ssEnd ≤ addr ∨ (addr - ssStart) % ssSize ≠ 0 then w.finish n
      else
        match w.reg f.tgid with
        | none => w.finish n
        | some a => w.goto n f (.freeErase a (addrToId addr))
  | .freeErase a id =>
      -- `down_write` waits for the readers
      if w.readLocked a then w.goto n f (.freeErase a id)
      else
        match (w.threads a).load id with
        | none => (w.setThreads a ((w.threads a).erase id)).finish n
        | some t =>
            { (w.setThreads a ((w.threads a).erase id)).goto n f (.freeUnmap a t) with
              removed := insert t w.removed }
  | .freeUnmap a t => w.goto n f (.freeGlFree a t)
  | .freeGlFree a t => (w.glFree (w.pagelist t ans.stale)).goto n f (.freeKfree a t)
  | .freeKfree a t => (w.setDesc t none).goto n f (.put a)
  | .destroyErase a =>
      { w.goto n f (.put a) with reg := Function.update w.reg (w.tgid a) none }
  | .put a =>
      if w.kref a = 1 then (w.setKref a 0).goto n f (.callback a)
      else (w.setKref a (w.kref a - 1)).finish n
  | .callback a => { w.finish n with dead := insert a w.dead }
  | _ => w

/-- The next step of a call. -/
def stepCall : World :=
  match f.pc with
  | .allocFind | .allocGet _ | .allocReserve _ | .allocThread _ _ | .allocStack _ _ _
  | .allocMap _ _ _ | .allocMax _ _ _ | .allocStore _ _ _ | .allocRead _ _ _
  | .allocGlFree _ _ _ | .allocKfree _ _ _ | .allocErase _ _ => stepAlloc w n f ans f.pc
  | .forkFind _ _ | .forkGet _ _ _ | .forkParent _ _ _ | .forkThread _ _ _ | .forkStack _ _ _ _
  | .forkScan _ _ _ _ _ _ | .forkInsert _ _ _ _ | .forkMap _ _ _ _ | .forkMax _ _ _
  | .forkErase _ _ _ _ | .forkGlFree _ _ _ | .forkKfree _ _ => stepFork w n f ans f.pc
  | .freeFind _ | .freeErase _ _ | .freeUnmap _ _ | .freeGlFree _ _ | .freeKfree _ _
  | .destroyErase _ | .put _ | .callback _ => stepFree w n f ans f.pc

end Steps

/-- The calls. -/
inductive Entry where
  | saAlloc
  | saFork (parentTgid parentPid : Nat)
  | saFree (addr : Nat)
  | allocDestroy (a : AllocPtr)
deriving DecidableEq, Repr

/-- The first step of a call. -/
def Entry.pc : Entry → Pc
  | .saAlloc => .allocFind
  | .saFork pt pp => .forkFind pt pp
  | .saFree addr => .freeFind addr
  | .allocDestroy a => .destroyErase a

/-- The allocator a call of `alloc_destroy` is for. -/
def Entry.destroys : Entry → Finset AllocPtr
  | .allocDestroy a => {a}
  | _ => ∅

inductive Event where
  /-- `alloc_create`, which needs memory and a thread group without an allocator. -/
  | create (tgid : Nat)
  /-- A thread enters the module. -/
  | enter (pid tgid : Nat) (entry : Entry)
  /-- A call does its next step. -/
  | step (n : Nat) (ans : Answer)

/-- What may happen next. -/
def next (w : World) : Event → Option World
  | .create tgid =>
      if (w.reg tgid).isNone then some { w with
        reg := Function.update w.reg tgid (some w.nextAlloc)
        tgid := Function.update w.tgid w.nextAlloc tgid
        threads := Function.update w.threads w.nextAlloc .empty
        maxId := Function.update w.maxId w.nextAlloc 0
        kref := Function.update w.kref w.nextAlloc 1
        nextAlloc := w.nextAlloc + 1 }
      else none
  | .enter pid tgid entry => some { w with
      calls := Function.update w.calls w.nextCall (some ⟨pid, tgid, entry.pc⟩)
      nextCall := w.nextCall + 1
      destroyed := w.destroyed ∪ entry.destroys }
  | .step n ans => (w.calls n).map fun f ↦ stepCall w n f ans

def Next (w : World) (e : Event) (w' : World) : Prop := next w e = some w'

end ShadowStack.Lkm.Conc
