import ShadowStack.Lib.Run
import ShadowStack.Lkm.State

/-!
# The global free list under concurrency

`gl_alloc_stack`, `gl_free` and `vma_free` with any number of calls under way at once.  A section under
`gl_lock` is one step, and so are the unlocked read of `gl_size`, each request to an allocator, each
`clear_highpage` and each page or object given back.  Between two steps `gl_lock` is free.

Who asks for pagelists is a number; it owns what `gl_alloc_stack` returned to it until it calls
`gl_free`.  Only owners write to the pages of a pagelist.
-/

namespace ShadowStack.Lkm.Gl

open Lib

/-- Where a call is. -/
inductive Pc where
  /- `gl_alloc_stack`: the section under the lock, `kmalloc_obj`, -/
  | allocLock
  | allocObj
  /- `sa_pagelist_alloc_pages`: the page array, the three loops, the check of `nr_allocated`, -/
  | allocArray (pl : PlPtr)
  | allocHigh (pl : PlPtr) (order maxOrder : Nat)
  | allocBulk (pl : PlPtr)
  | allocSingle (pl : PlPtr)
  | allocCheck (pl : PlPtr)
  /- and `return 0`. -/
  | allocRet (pl : PlPtr)
  /- `gl_free`: the read of `gl_size`, the loop over the pages, the section under the lock. -/
  | freeCheck (pl : PlPtr)
  | freeClear (pl : PlPtr) (i : Nat)
  | freePush (pl : PlPtr)
  /- The section of `vma_free` under the lock. -/
  | splice
  /- `sa_pagelist_free` of one pagelist after the other, the first one being emptied. -/
  | drop (pls : List PlPtr)
deriving DecidableEq, Repr

/-- A call under way, and who made it. -/
structure Frame where
  caller : Nat
  pc : Pc
deriving DecidableEq, Repr

structure World where
  glSa : List PlPtr
  glSize : Int
  /-- The pagelists that exist, with the pages they have so far. -/
  pagelists : PlPtr → Option Pagelist
  data : Page → PageData
  /-- The pagelists each caller got and has not given back. -/
  owned : Nat → Finset PlPtr
  calls : Nat → Option Frame

/-- The answer of the kernel to the request of a step: whether `kmalloc` and `kvcalloc` succeed and
the object made, and the pages that are handed out. -/
structure Answer where
  ok : Bool
  ptr : PlPtr
  pages : List Page

namespace World

variable (w : World)

/-- The module right after it was loaded. -/
def init (data : Page → PageData) : World where
  glSa := []
  glSize := 0
  pagelists _ := none
  data := data
  owned _ := ∅
  calls _ := none

def pagesOf (pl : PlPtr) : List Page :=
  match w.pagelists pl with
  | some l => l.pages
  | none => []

/-- Call `n` goes on with `pc`. -/
def goto (n : Nat) (f : Frame) (pc : Pc) : World :=
  { w with calls := Function.update w.calls n (some { f with pc := pc }) }

/-- Call `n` returns. -/
def finish (n : Nat) : World := { w with calls := Function.update w.calls n none }

def setPages (pl : PlPtr) (ps : List Page) : World :=
  { w with pagelists := Function.update w.pagelists pl (some ⟨ps⟩) }

/-- The given pages hold zeros. -/
def zero (ps : List Page) : World :=
  { w with data := fun p ↦ if p ∈ ps then fun _ ↦ 0 else w.data p }

/-- More pages for a pagelist; all requests ask for zeroed ones. -/
def grow (pl : PlPtr) (ps : List Page) : World := (w.zero ps).setPages pl (w.pagesOf pl ++ ps)

/-- `kfree` of a pagelist. -/
def kfree (pl : PlPtr) : World := { w with pagelists := Function.update w.pagelists pl none }

end World

section Steps

variable (w : World) (n : Nat) (f : Frame) (ans : Answer)

/-- The steps of `gl_alloc_stack`. -/
def stepAlloc : Pc → World
  | .allocLock =>
      match w.glSa with
      | pl :: rest => { w.goto n f (.allocRet pl) with glSa := rest, glSize := w.glSize - 1 }
      | [] => w.goto n f .allocObj
  | .allocObj =>
      if ans.ok then (w.setPages ans.ptr []).goto n f (.allocArray ans.ptr) else w.finish n
  | .allocArray pl =>
      if ans.ok then
        w.goto n f (.allocHigh pl (min compatMaxOrder (ilog2 ssPages)) compatMaxOrder)
      else w.goto n f (.drop [pl])
  | .allocHigh pl order maxOrder =>
      if 0 < order ∧ (w.pagesOf pl).length < ssPages then
        if ans.pages.length = 2 ^ order then
          (w.grow pl ans.pages).goto n f (.allocHigh pl
            (min maxOrder (ilog2 (ssPages - (w.pagesOf pl ++ ans.pages).length))) maxOrder)
        else w.goto n f (.allocHigh pl (order - 1) (order - 1))
      else w.goto n f (.allocBulk pl)
  | .allocBulk pl =>
      if (w.pagesOf pl).length < ssPages then
        let request := min 100 (ssPages - (w.pagesOf pl).length)
        let got := ans.pages.take request
        (w.grow pl got).goto n f (if got.length ≠ request then .allocSingle pl else .allocBulk pl)
      else w.goto n f (.allocSingle pl)
  | .allocSingle pl =>
      if (w.pagesOf pl).length < ssPages then
        -- a pending fatal signal is a refusal
        match ans.pages with
        | p :: _ => (w.grow pl [p]).goto n f (.allocSingle pl)
        | [] => w.goto n f (.allocCheck pl)
      else w.goto n f (.allocCheck pl)
  | .allocCheck pl =>
      if (w.pagesOf pl).length = ssPages then w.goto n f (.allocRet pl)
      else w.goto n f (.drop [pl])
  | .allocRet pl =>
      { w.finish n with
        owned := Function.update w.owned f.caller (insert pl (w.owned f.caller)) }
  | _ => w

/-- The steps of `gl_free` and `vma_free`. -/
def stepFree : Pc → World
  | .freeCheck pl =>
      if glSaCapacity ≤ w.glSize then w.goto n f (.drop [pl]) else w.goto n f (.freeClear pl 0)
  | .freeClear pl i =>
      match (w.pagesOf pl)[i]? with
      | some p => (w.zero [p]).goto n f (.freeClear pl (i + 1))
      | none => w.goto n f (.freePush pl)
  | .freePush pl => { w.finish n with glSize := w.glSize + 1, glSa := pl :: w.glSa }
  | .splice => { w.goto n f (.drop w.glSa) with glSa := [], glSize := 0 }
  | .drop (pl :: pls) =>
      -- the pages are given back from the last one on, then the object
      if w.pagesOf pl = [] then (w.kfree pl).goto n f (.drop pls)
      else (w.setPages pl (w.pagesOf pl).dropLast).goto n f (.drop (pl :: pls))
  | .drop [] => w.finish n
  | _ => w

/-- The next step of a call. -/
def stepCall : World :=
  match f.pc with
  | .allocLock | .allocObj | .allocArray _ | .allocHigh _ _ _ | .allocBulk _ | .allocSingle _
  | .allocCheck _ | .allocRet _ => stepAlloc w n f ans f.pc
  | .freeCheck _ | .freeClear _ _ | .freePush _ | .splice | .drop _ => stepFree w n f f.pc

end Steps

inductive Event where
  /-- A caller asks for a pagelist, -/
  | alloc (n c : Nat)
  /-- gives one back, -/
  | free (n c : Nat) (pl : PlPtr)
  /-- or empties the list. -/
  | vmaFree (n c : Nat)
  /-- A call does its next step. -/
  | step (n : Nat) (ans : Answer)
  /-- An owner writes to a page, -/
  | write (c : Nat) (pl : PlPtr) (p : Page) (data : PageData)
  /-- or hands its pagelist on. -/
  | pass (c c' : Nat) (pl : PlPtr)
  /-- Someone else writes to a page that the module does not have. -/
  | foreign (p : Page) (data : PageData)

/-- What may happen next.  A pagelist is given back, written to or handed on by its owner only. -/
def next (w : World) : Event → Option World
  | .alloc n c => if w.calls n = none then some (w.goto n ⟨c, .allocLock⟩ .allocLock) else none
  | .free n c pl =>
      if w.calls n = none ∧ pl ∈ w.owned c then
        some { w.goto n ⟨c, .freeCheck pl⟩ (.freeCheck pl) with
          owned := Function.update w.owned c ((w.owned c).erase pl) }
      else none
  | .vmaFree n c => if w.calls n = none then some (w.goto n ⟨c, .splice⟩ .splice) else none
  | .step n ans => (w.calls n).map fun f ↦ stepCall w n f ans
  | .write c pl p data =>
      if pl ∈ w.owned c ∧ p ∈ w.pagesOf pl then
        some { w with data := Function.update w.data p data }
      else none
  | .pass c c' pl =>
      if pl ∈ w.owned c then
        let owned := Function.update w.owned c ((w.owned c).erase pl)
        some { w with owned := Function.update owned c' (insert pl (owned c')) }
      else none
  | .foreign p data => some { w with data := Function.update w.data p data }

def Next (w : World) (e : Event) (w' : World) : Prop := next w e = some w'

/-- No pagelist has the page. -/
def World.Unused (w : World) (p : Page) : Prop := ∀ pl, p ∉ w.pagesOf pl

/-- What the kernel promises: an object or a page that is handed out is not in use; and pages of the
module are not written to by others. -/
def Allowed (w : World) : Event → Prop
  | .step _ ans => w.pagelists ans.ptr = none ∧ ans.pages.Nodup ∧ ∀ p ∈ ans.pages, w.Unused p
  | .foreign p _ => w.Unused p
  | _ => True

/-! ## Who has which pagelist -/

/-- The pagelists a call has in its hands. -/
def Pc.pls : Pc → List PlPtr
  | .allocLock | .allocObj | .splice => []
  | .allocArray pl | .allocHigh pl _ _ | .allocBulk pl | .allocSingle pl | .allocCheck pl
  | .allocRet pl | .freeCheck pl | .freeClear pl _ | .freePush pl => [pl]
  | .drop pls => pls

inductive Holder where
  | list
  | caller (c : Nat)
  | call (n : Nat)
deriving DecidableEq, Repr

def World.Holds (w : World) : Holder → PlPtr → Prop
  | .list, pl => pl ∈ w.glSa
  | .caller c, pl => pl ∈ w.owned c
  | .call n, pl => ∃ f, w.calls n = some f ∧ pl ∈ f.pc.pls

/-- It has all the pages of an area. -/
def World.Full (w : World) (pl : PlPtr) : Prop := (w.pagesOf pl).length = ssPages

/-- Its pages hold zeros. -/
def World.Zeroed (w : World) (pl : PlPtr) : Prop := ∀ p ∈ w.pagesOf pl, w.data p = fun _ ↦ 0

/-- What a call knows of the pagelist in its hands. -/
def PcOk (w : World) : Pc → Prop
  | .allocArray pl | .allocHigh pl _ _ | .allocBulk pl | .allocSingle pl | .allocCheck pl => w.Zeroed pl
  | .allocRet pl | .freePush pl => w.Full pl ∧ w.Zeroed pl
  | .freeCheck pl => w.Full pl
  | .freeClear pl i => w.Full pl ∧ ∀ p ∈ (w.pagesOf pl).take i, w.data p = fun _ ↦ 0
  | _ => True

/-- Pagelists exist as long as someone has them, and have no page in common. -/
structure PagesOk (w : World) : Prop where
  nodup : ∀ pl, (w.pagesOf pl).Nodup
  disjoint : ∀ pl pl' p, p ∈ w.pagesOf pl → p ∈ w.pagesOf pl' → pl = pl'
  held : ∀ h pl, w.Holds h pl → w.pagelists pl ≠ none

/-- What each holder has. -/
structure Known (w : World) : Prop where
  list : ∀ pl ∈ w.glSa, w.Full pl ∧ w.Zeroed pl
  caller : ∀ c, ∀ pl ∈ w.owned c, w.Full pl
  call : ∀ n f, w.calls n = some f → PcOk w f.pc

structure Inv (w : World) : Prop where
  size : w.glSize = w.glSa.length
  nodup : w.glSa.Nodup
  callNodup : ∀ n f, w.calls n = some f → f.pc.pls.Nodup
  unique : ∀ pl h h', w.Holds h pl → w.Holds h' pl → h = h'
  pages : PagesOk w
  known : Known w

variable {w w' : World} {n : Nat} {f : Frame} {pc : Pc} {pl : PlPtr} {ps : List Page} {ans : Answer}

@[simp] theorem World.setPages_pagesOf_self : (w.setPages pl ps).pagesOf pl = ps := by
  simp [World.pagesOf, World.setPages]

theorem World.setPages_pagesOf_of_ne {q : PlPtr} (hq : q ≠ pl) :
    (w.setPages pl ps).pagesOf q = w.pagesOf q := by
  simp [World.pagesOf, World.setPages, hq]

theorem World.setPages_ne_none {q : PlPtr} (hq : w.pagelists q ≠ none) :
    (w.setPages pl ps).pagelists q ≠ none := by
  by_cases h : q = pl
  · simp [World.setPages, h]
  · simpa [World.setPages, h] using hq

/-! ## What one step leaves alone -/

/-- A pagelist with the same pages and the same contents. -/
def Same (w w' : World) (pl : PlPtr) : Prop :=
  w'.pagesOf pl = w.pagesOf pl ∧ ∀ p ∈ w.pagesOf pl, w'.data p = w.data p

theorem Same.full (h : Same w w' pl) (hf : w.Full pl) : w'.Full pl := by
  rwa [World.Full, h.1]

theorem Same.zeroed (h : Same w w' pl) (hz : w.Zeroed pl) : w'.Zeroed pl := by
  intro p hp
  rw [h.1] at hp
  rw [h.2 p hp, hz p hp]

theorem PcOk.congr (h : PcOk w pc) (hs : ∀ q ∈ pc.pls, Same w w' q) : PcOk w' pc := by
  cases pc with
  | allocLock => trivial
  | allocObj => trivial
  | splice => trivial
  | drop pls => trivial
  | allocArray pl => exact (hs pl List.mem_cons_self).zeroed h
  | allocHigh pl _ _ => exact (hs pl List.mem_cons_self).zeroed h
  | allocBulk pl => exact (hs pl List.mem_cons_self).zeroed h
  | allocSingle pl => exact (hs pl List.mem_cons_self).zeroed h
  | allocCheck pl => exact (hs pl List.mem_cons_self).zeroed h
  | allocRet pl => exact ⟨(hs pl List.mem_cons_self).full h.1, (hs pl List.mem_cons_self).zeroed h.2⟩
  | freePush pl => exact ⟨(hs pl List.mem_cons_self).full h.1, (hs pl List.mem_cons_self).zeroed h.2⟩
  | freeCheck pl => exact (hs pl List.mem_cons_self).full h
  | freeClear pl i =>
      obtain ⟨hpages, hdata⟩ := hs pl List.mem_cons_self
      refine ⟨(hs pl List.mem_cons_self).full h.1, fun p hp ↦ ?_⟩
      rw [hpages] at hp
      rw [hdata p (List.mem_of_mem_take hp), h.2 p hp]

/-- The frames after a step of call `n`. -/
theorem forall_update {P : Nat → Frame → Prop} {x : Option Frame}
    (h : ∀ m g, m ≠ n → w.calls m = some g → P m g) (hx : ∀ g, x = some g → P n g) :
    ∀ m g, Function.update w.calls n x m = some g → P m g := by
  intro m g hg
  rcases update_eq_some hg with ⟨rfl, hg'⟩ | ⟨hm, hg'⟩
  · exact hx g hg'
  · exact h m g hm hg'

theorem holds_call_of_ne {x : Option Frame} (hcalls : w'.calls = Function.update w.calls n x) {m : Nat}
    (hm : m ≠ n) : w'.Holds (.call m) pl ↔ w.Holds (.call m) pl := by
  simp only [World.Holds, hcalls, Function.update_of_ne hm]

theorem holds_call_self {x : Option Frame} (hcalls : w'.calls = Function.update w.calls n x) :
    w'.Holds (.call n) pl ↔ ∃ g, x = some g ∧ pl ∈ g.pc.pls := by
  simp only [World.Holds, hcalls, Function.update_self]

/-- Holders stay unique when some pagelists go to one holder. -/
theorem Inv.unique_of_moved (h : Inv w) (M : PlPtr → Prop) (k₀ : Holder)
    (hM : ∀ k q, w'.Holds k q → (¬ M q ∧ w.Holds k q) ∨ (M q ∧ k = k₀)) :
    ∀ pl k k', w'.Holds k pl → w'.Holds k' pl → k = k' := by
  intro q k k' hk hk'
  rcases hM k q hk with ⟨hq, hk⟩ | ⟨hq, rfl⟩
  · rcases hM k' q hk' with ⟨-, hk'⟩ | ⟨hq', -⟩
    · exact h.unique q k k' hk hk'
    · exact absurd hq' hq
  · rcases hM k' q hk' with ⟨hq', -⟩ | ⟨-, rfl⟩
    · exact absurd hq hq'
    · rfl

/-- What a call has in its hands nobody else has. -/
theorem Inv.call_of_holds (h : Inv w) (hn : w.calls n = some f) (hpl : pl ∈ f.pc.pls) {k : Holder}
    (hk : w.Holds k pl) : k = .call n :=
  h.unique pl k (.call n) hk ⟨f, hn, hpl⟩

/-- **A step on pagelists in the hands of the call.**  It may change those, and one it has just
made. -/
theorem Inv.work (h : Inv w) (hn : w.calls n = some f) (hgl : w'.glSa = w.glSa)
    (hsize : w'.glSize = w.glSize) (howned : w'.owned = w.owned)
    (hcalls : w'.calls = Function.update w.calls n (some { f with pc := pc }))
    (hpls : ∀ q ∈ pc.pls, (q ∈ f.pc.pls ∨ w.pagelists q = none) ∧ w'.pagelists q ≠ none)
    (hnodup : pc.pls.Nodup) (hsame : ∀ k q, k ≠ .call n → w.Holds k q → Same w w' q ∧ w'.pagelists q ≠ none)
    (hpages : ∀ q, (w'.pagesOf q).Nodup)
    (hdisj : ∀ q q' p, p ∈ w'.pagesOf q → p ∈ w'.pagesOf q' → q = q') (hpc : PcOk w' pc) : Inv w' := by
  have hold : ∀ k q, k ≠ .call n → w'.Holds k q → w.Holds k q := by
    intro k q hk hq
    cases k with
    | list => rwa [World.Holds, hgl] at hq
    | caller c => rwa [World.Holds, howned] at hq
    | call m => exact (holds_call_of_ne hcalls fun hm ↦ hk (by rw [hm])).mp hq
  have hself : ∀ q, w'.Holds (.call n) q → q ∈ pc.pls := by
    intro q hq
    obtain ⟨g, hg, hq⟩ := (holds_call_self hcalls).mp hq
    obtain rfl := Option.some.inj hg
    exact hq
  refine ⟨by rw [hsize, hgl, h.size], by rw [hgl]; exact h.nodup, ?_, ?_,
    ⟨hpages, hdisj, fun k q hq ↦ ?_⟩, ?_, ?_, ?_⟩
  · rw [hcalls]
    exact forall_update (P := fun _ g ↦ g.pc.pls.Nodup) (fun m g _ hg ↦ h.callNodup m g hg)
      (by rintro g ⟨⟩; exact hnodup)
  · refine h.unique_of_moved (· ∈ pc.pls) (.call n) fun k q hq ↦ ?_
    by_cases hk : k = .call n
    · subst hk
      exact .inr ⟨hself q hq, rfl⟩
    · have hq' := hold k q hk hq
      refine .inl ⟨fun hin ↦ ?_, hq'⟩
      rcases (hpls q hin).1 with hf | hnone
      · exact hk (h.call_of_holds hn hf hq')
      · exact h.pages.held k q hq' hnone
  · by_cases hk : k = .call n
    · subst hk
      exact (hpls q (hself q hq)).2
    · exact (hsame k q hk (hold k q hk hq)).2
  · intro q hq
    rw [hgl] at hq
    have hs := (hsame .list q (by simp) hq).1
    exact ⟨hs.full (h.known.list q hq).1, hs.zeroed (h.known.list q hq).2⟩
  · intro c q hq
    rw [howned] at hq
    exact (hsame (.caller c) q (by simp) hq).1.full (h.known.caller c q hq)
  · rw [hcalls]
    refine forall_update (P := fun _ g ↦ PcOk w' g.pc) (fun m g hm hg ↦ ?_) (by rintro g ⟨⟩; exact hpc)
    exact (h.known.call m g hg).congr fun q hq ↦
      (hsame (.call m) q (by simpa using hm) ⟨g, hg, hq⟩).1

/-- **A step that passes pagelists on** and does not change them: those of `M` go to `k₀`. -/
theorem Inv.moved (h : Inv w) (M : PlPtr → Prop) (k₀ : Holder) (hpl : w'.pagelists = w.pagelists)
    (hdata : w'.data = w.data) (hsize : w'.glSize = w'.glSa.length) (hnodup : w'.glSa.Nodup)
    (hcalls : ∀ m g, w'.calls m = some g → w.calls m = some g ∨ (g.pc.pls.Nodup ∧ PcOk w g.pc))
    (hM : ∀ k q, w'.Holds k q → (¬ M q ∧ w.Holds k q) ∨ (M q ∧ k = k₀))
    (hex : ∀ q, M q → w.pagelists q ≠ none)
    (hlist : ∀ q ∈ w'.glSa, w.Full q ∧ w.Zeroed q) (hcaller : ∀ c, ∀ q ∈ w'.owned c, w.Full q) :
    Inv w' := by
  have hsame : ∀ q, Same w w' q := by
    intro q
    exact ⟨by rw [World.pagesOf, World.pagesOf, hpl], fun p _ ↦ by rw [hdata]⟩
  refine ⟨hsize, hnodup, ?_, h.unique_of_moved M k₀ hM, ⟨fun q ↦ ?_, fun q q' p hq hq' ↦ ?_,
    fun k q hq ↦ ?_⟩, fun q hq ↦ ?_, fun c q hq ↦ (hsame q).full (hcaller c q hq), ?_⟩
  · intro m g hg
    rcases hcalls m g hg with hg | hg
    · exact h.callNodup m g hg
    · exact hg.1
  · rw [(hsame q).1]
    exact h.pages.nodup q
  · rw [(hsame q).1] at hq
    rw [(hsame q').1] at hq'
    exact h.pages.disjoint q q' p hq hq'
  · rw [hpl]
    rcases hM k q hq with ⟨-, hq⟩ | ⟨hq, -⟩
    · exact h.pages.held k q hq
    · exact hex q hq
  · exact ⟨(hsame q).full (hlist q hq).1, (hsame q).zeroed (hlist q hq).2⟩
  · intro m g hg
    rcases hcalls m g hg with hg | hg
    · exact (h.known.call m g hg).congr fun q _ ↦ hsame q
    · exact hg.2.congr fun q _ ↦ hsame q

/-! ## The steps -/

/-- A step that changes nothing but where the call is. -/
theorem Inv.goto (h : Inv w) (hn : w.calls n = some f) (hpls : pc.pls = f.pc.pls) (hpc : PcOk w pc) :
    Inv (w.goto n f pc) := by
  have hheld : ∀ k q, w.Holds k q → w.pagelists q ≠ none := h.pages.held
  refine h.work hn rfl rfl rfl rfl (fun q hq ↦ ?_) ?_ (fun k q _ hq ↦ ⟨⟨rfl, fun _ _ ↦ rfl⟩, ?_⟩)
    h.pages.nodup h.pages.disjoint (hpc.congr fun _ _ ↦ ⟨rfl, fun _ _ ↦ rfl⟩)
  · rw [hpls] at hq
    exact ⟨.inl hq, hheld (.call n) q ⟨f, hn, hq⟩⟩
  · rw [hpls]
    exact h.callNodup n f hn
  · exact hheld k q hq

/-- A pagelist in the hands of a call gets other pages, of its own or not in use, and pages in its
hands or not in use are overwritten. -/
theorem Inv.setPages (h : Inv w) (hn : w.calls n = some f) (pc : Pc) (hpl : pl ∈ f.pc.pls ∨ w.pagelists pl = none)
    (hpls : ∀ q ∈ pc.pls, q ∈ f.pc.pls ∨ q = pl) (hnodup : pc.pls.Nodup) (hps : ps.Nodup)
    (hown : ∀ p ∈ ps, p ∈ w.pagesOf pl ∨ w.Unused p) {w₁ : World}
    (hw₁ : ∃ data, w₁ = { w with data := data } ∧
      ∀ p, p ∉ w.pagesOf pl → ¬ w.Unused p → data p = w.data p)
    (hpc : PcOk ((w₁.setPages pl ps).goto n f pc) pc) : Inv ((w₁.setPages pl ps).goto n f pc) := by
  obtain ⟨data, rfl, hdata⟩ := hw₁
  have hself : (World.goto (World.setPages { w with data := data } pl ps) n f pc).pagesOf pl = ps :=
    World.setPages_pagesOf_self
  have hother : ∀ q, q ≠ pl →
      (World.goto (World.setPages { w with data := data } pl ps) n f pc).pagesOf q = w.pagesOf q :=
    fun q hq ↦ World.setPages_pagesOf_of_ne hq
  have hheld : ∀ q, w.pagelists q ≠ none →
      (World.goto (World.setPages { w with data := data } pl ps) n f pc).pagelists q ≠ none :=
    fun q hq ↦ World.setPages_ne_none hq
  have hpl_ne : (World.goto (World.setPages { w with data := data } pl ps) n f pc).pagelists pl ≠ none := by
    simp [World.goto, World.setPages]
  -- no other pagelist has one of the new pages
  have hapart : ∀ q p, q ≠ pl → p ∈ ps → p ∉ w.pagesOf q := by
    intro q p hq hp hpq
    rcases hown p hp with hmem | hun
    · exact hq (h.pages.disjoint q pl p hpq hmem)
    · exact hun q hpq
  refine h.work hn rfl rfl rfl rfl (fun q hq ↦ ?_) hnodup (fun k q hk hq ↦ ?_) (fun q ↦ ?_)
    (fun q q' p hq hq' ↦ ?_) hpc
  · by_cases hqpl : q = pl
    · subst hqpl
      exact ⟨hpl, hpl_ne⟩
    · have hqf := (hpls q hq).resolve_right hqpl
      exact ⟨.inl hqf, hheld q (h.pages.held (.call n) q ⟨f, hn, hqf⟩)⟩
  · have hqpl : q ≠ pl := by
      rintro rfl
      rcases hpl with hf | hnone
      · exact hk (h.call_of_holds hn hf hq)
      · exact h.pages.held k q hq hnone
    refine ⟨⟨hother q hqpl, fun p hp ↦ hdata p ?_ fun hun ↦ hun q hp⟩, hheld q (h.pages.held k q hq)⟩
    exact fun hc ↦ hqpl (h.pages.disjoint q pl p hp hc)
  · by_cases hqpl : q = pl
    · rw [hqpl, hself]
      exact hps
    · rw [hother q hqpl]
      exact h.pages.nodup q
  · by_cases hqpl : q = pl
    · by_cases hqpl' : q' = pl
      · rw [hqpl, hqpl']
      · rw [hqpl, hself] at hq
        rw [hother q' hqpl'] at hq'
        exact absurd hq' (hapart q' p hqpl' hq)
    · by_cases hqpl' : q' = pl
      · rw [hother q hqpl] at hq
        rw [hqpl', hself] at hq'
        exact absurd hq (hapart q p hqpl hq')
      · rw [hother q hqpl] at hq
        rw [hother q' hqpl'] at hq'
        exact h.pages.disjoint q q' p hq hq'

/-- The pages that come from the allocator hold zeros. -/
theorem World.Zeroed.grow (h : w.Zeroed pl) : (w.grow pl ps).Zeroed pl := by
  intro p hp
  have hdata : (w.grow pl ps).data p = if p ∈ ps then fun _ ↦ 0 else w.data p := rfl
  have hpages : (w.grow pl ps).pagesOf pl = w.pagesOf pl ++ ps := World.setPages_pagesOf_self
  rw [hpages, List.mem_append] at hp
  rw [hdata]
  split_ifs with hmem
  · rfl
  · exact h p (hp.resolve_right hmem)

/-- More pages for a pagelist. -/
theorem Inv.grow (h : Inv w) (hn : w.calls n = some f) (hf : f.pc.pls = [pl]) (hpc : pc.pls = [pl])
    (hps : ps.Nodup) (hun : ∀ p ∈ ps, w.Unused p) (hok : PcOk ((w.grow pl ps).goto n f pc) pc) :
    Inv ((w.grow pl ps).goto n f pc) := by
  refine h.setPages hn pc (.inl (by rw [hf]; exact List.mem_cons_self)) (fun q hq ↦ .inr ?_)
    (by simp [hpc]) ?_ (fun p hp ↦ ?_) ⟨_, rfl, fun p _ hp ↦ if_neg fun hc ↦ hp (hun p hc)⟩ hok
  · simpa [hpc] using hq
  · rw [List.nodup_append]
    refine ⟨h.pages.nodup pl, hps, fun p hp q hq ↦ ?_⟩
    rintro rfl
    exact hun p hq pl hp
  · exact (List.mem_append.mp hp).imp_right (hun p)

/-- A call that has nothing in its hands returns. -/
theorem Inv.finish (h : Inv w) (n : Nat) : Inv (w.finish n) := by
  refine h.moved (fun _ ↦ False) .list rfl rfl h.size h.nodup
    (forall_update (fun m g _ hg ↦ .inl hg) fun g hg ↦ nomatch hg) (fun k q hq ↦ .inl ⟨not_false, ?_⟩) (fun q hq ↦ hq.elim) h.known.list h.known.caller
  cases k with
  | list => exact hq
  | caller c => exact hq
  | call m =>
      obtain ⟨g, hg, hq⟩ := hq
      by_cases hm : m = n
      · subst hm
        simp [World.finish] at hg
      · exact ⟨g, by simpa [World.finish, hm] using hg, hq⟩

/-- Taking the first pagelist of the list. -/
theorem Inv.pop (h : Inv w) {rest : List PlPtr} (hgl : w.glSa = pl :: rest) :
    Inv { w.goto n f (.allocRet pl) with glSa := rest, glSize := w.glSize - 1 } := by
  have hnd := h.nodup
  rw [hgl, List.nodup_cons] at hnd
  have hmem : pl ∈ w.glSa := by rw [hgl]; exact List.mem_cons_self
  have hrest : ∀ q ∈ rest, q ∈ w.glSa := fun q hq ↦ by rw [hgl]; exact List.mem_cons_of_mem _ hq
  refine h.moved (· = pl) (.call n) rfl rfl ?_ hnd.2
    (forall_update (fun m g _ hg ↦ .inl hg) fun g hg ↦ .inr ?_) (fun k q hq ↦ ?_)
    (fun q hq ↦ ?_) (fun q hq ↦ h.known.list q (hrest q hq)) h.known.caller
  · have hsize := h.size
    rw [hgl, List.length_cons] at hsize
    simp only
    omega
  · obtain rfl := Option.some.inj hg
    exact ⟨List.nodup_singleton pl, h.known.list pl hmem⟩
  · have hnot : ∀ k', k' ≠ .list → w.Holds k' q → q ≠ pl := by
      rintro k' hk' hkq rfl
      exact hk' (h.unique q k' .list hkq hmem)
    cases k with
    | list => exact .inl ⟨fun hc ↦ hnd.1 (hc ▸ hq), hrest q hq⟩
    | caller c => exact .inl ⟨hnot (.caller c) (by simp) hq, hq⟩
    | call m =>
        by_cases hm : m = n
        · subst hm
          obtain ⟨g, hg, hq⟩ := (holds_call_self rfl).mp hq
          obtain rfl := Option.some.inj hg
          exact .inr ⟨List.mem_singleton.mp hq, rfl⟩
        · have hq' := (holds_call_of_ne rfl hm).mp hq
          exact .inl ⟨hnot (.call m) (by simp) hq', hq'⟩
  · rw [hq]
    exact h.pages.held .list pl hmem

/-- A call with one pagelist in its hands returns and leaves it to the list or to its caller: the
other holders keep what they have. -/
theorem Inv.holds_of_finish (h : Inv w) (hn : w.calls n = some f) (hf : f.pc.pls = [pl]) {m : Nat}
    {q : PlPtr} (hq : (w.finish n).Holds (.call m) q) : q ≠ pl ∧ w.Holds (.call m) q := by
  have hm : m ≠ n := by
    rintro rfl
    obtain ⟨g, hg, -⟩ := (holds_call_self rfl).mp hq
    cases hg
  have hq' : w.Holds (.call m) q := (holds_call_of_ne rfl hm).mp hq
  refine ⟨?_, hq'⟩
  rintro rfl
  have hc := h.call_of_holds hn (by rw [hf]; exact List.mem_cons_self) hq'
  exact hm (by simpa using hc)

theorem Inv.ret (h : Inv w) (hn : w.calls n = some f) (hpc : f.pc = .allocRet pl) :
    Inv { w.finish n with owned := Function.update w.owned f.caller (insert pl (w.owned f.caller)) } := by
  have hf : f.pc.pls = [pl] := by rw [hpc]; rfl
  have hmem : pl ∈ f.pc.pls := by rw [hf]; exact List.mem_cons_self
  have hok := h.known.call n f hn
  rw [hpc] at hok
  refine h.moved (· = pl) (.caller f.caller) rfl rfl h.size h.nodup
    (forall_update (fun m g _ hg ↦ .inl hg) fun g hg ↦ nomatch hg) (fun k q hq ↦ ?_) (fun q hq ↦ ?_) h.known.list (fun c q hq ↦ ?_)
  · have hnot : ∀ k', k' ≠ .call n → w.Holds k' q → q ≠ pl := by
      rintro k' hk' hkq rfl
      exact hk' (h.call_of_holds hn hmem hkq)
    cases k with
    | list => exact .inl ⟨hnot .list (by simp) hq, hq⟩
    | caller c =>
        by_cases hc : c = f.caller
        · subst hc
          have hq' : q ∈ insert pl (w.owned f.caller) := by simpa [World.Holds] using hq
          rcases Finset.mem_insert.mp hq' with rfl | hq'
          · exact .inr ⟨rfl, rfl⟩
          · exact .inl ⟨hnot (.caller f.caller) (by simp) hq', hq'⟩
        · have hq' : q ∈ w.owned c := by simpa [World.Holds, hc] using hq
          exact .inl ⟨hnot (.caller c) (by simp) hq', hq'⟩
    | call m => exact .inl (h.holds_of_finish hn hf hq)
  · rw [hq]
    exact h.pages.held (.call n) pl ⟨f, hn, hmem⟩
  · by_cases hc : c = f.caller
    · subst hc
      have hq' : q ∈ insert pl (w.owned f.caller) := by simpa using hq
      rcases Finset.mem_insert.mp hq' with rfl | hq'
      · exact hok.1
      · exact h.known.caller f.caller q hq'
    · exact h.known.caller c q (by simpa [hc] using hq)

/-- Putting a pagelist on the list. -/
theorem Inv.push (h : Inv w) (hn : w.calls n = some f) (hpc : f.pc = .freePush pl) :
    Inv { w.finish n with glSize := w.glSize + 1, glSa := pl :: w.glSa } := by
  have hf : f.pc.pls = [pl] := by rw [hpc]; rfl
  have hmem : pl ∈ f.pc.pls := by rw [hf]; exact List.mem_cons_self
  have hok := h.known.call n f hn
  rw [hpc] at hok
  have hnot : ∀ k' q, k' ≠ .call n → w.Holds k' q → q ≠ pl := by
    rintro k' q hk' hq rfl
    exact hk' (h.call_of_holds hn hmem hq)
  refine h.moved (· = pl) .list rfl rfl ?_ ?_
    (forall_update (fun m g _ hg ↦ .inl hg) fun g hg ↦ nomatch hg) (fun k q hq ↦ ?_) (fun q hq ↦ ?_) (fun q hq ↦ ?_) h.known.caller
  · simp only [List.length_cons, Nat.cast_add, Nat.cast_one, h.size]
  · exact List.nodup_cons.mpr ⟨fun hc ↦ hnot .list pl (by simp) hc rfl, h.nodup⟩
  · cases k with
    | list =>
        rcases List.mem_cons.mp hq with rfl | hq
        · exact .inr ⟨rfl, rfl⟩
        · exact .inl ⟨hnot .list q (by simp) hq, hq⟩
    | caller c => exact .inl ⟨hnot (.caller c) q (by simp) hq, hq⟩
    | call m => exact .inl (h.holds_of_finish hn hf hq)
  · rw [hq]
    exact h.pages.held (.call n) pl ⟨f, hn, hmem⟩
  · rcases List.mem_cons.mp hq with rfl | hq
    · exact hok
    · exact h.known.list q hq

/-- Emptying the list. -/
theorem Inv.splice (h : Inv w) :
    Inv { w.goto n f (.drop w.glSa) with glSa := [], glSize := 0 } := by
  have hnot : ∀ k' q, k' ≠ .list → w.Holds k' q → q ∉ w.glSa :=
    fun k' q hk' hq hc ↦ hk' (h.unique q k' .list hq hc)
  refine h.moved (· ∈ w.glSa) (.call n) rfl rfl rfl List.nodup_nil
    (forall_update (fun m g _ hg ↦ .inl hg) fun g hg ↦ .inr ?_) (fun k q hq ↦ ?_) (fun q hq ↦ h.pages.held .list q hq) (by simp) h.known.caller
  · obtain rfl := Option.some.inj hg
    exact ⟨h.nodup, trivial⟩
  · cases k with
    | list => simp [World.Holds] at hq
    | caller c => exact .inl ⟨hnot (.caller c) q (by simp) hq, hq⟩
    | call m =>
        by_cases hm : m = n
        · subst hm
          obtain ⟨g, hg, hq⟩ := (holds_call_self rfl).mp hq
          obtain rfl := Option.some.inj hg
          exact .inr ⟨hq, rfl⟩
        · have hq' := (holds_call_of_ne rfl hm).mp hq
          exact .inl ⟨hnot (.call m) q (by simp) hq', hq'⟩

/-- One more page cleared. -/
theorem Inv.clear (h : Inv w) (hn : w.calls n = some f) {i : Nat} (hpc : f.pc = .freeClear pl i) {p : Page}
    (hp : (w.pagesOf pl)[i]? = some p) : Inv ((w.zero [p]).goto n f (.freeClear pl (i + 1))) := by
  have hmem : pl ∈ f.pc.pls := by rw [hpc]; exact List.mem_cons_self
  have hok := h.known.call n f hn
  rw [hpc] at hok
  have hdata : ∀ q, q ≠ p → (w.zero [p]).data q = w.data q := fun q hq ↦
    if_neg fun hc ↦ hq (List.mem_singleton.mp hc)
  refine h.work hn rfl rfl rfl rfl (fun q hq ↦ ?_) (List.nodup_singleton pl) (fun k q hk hq ↦ ?_)
    h.pages.nodup h.pages.disjoint ⟨hok.1, fun q hq ↦ ?_⟩
  · obtain rfl := List.mem_singleton.mp hq
    exact ⟨.inl hmem, h.pages.held (.call n) q ⟨f, hn, hmem⟩⟩
  · refine ⟨⟨rfl, fun x hx ↦ hdata x ?_⟩, h.pages.held k q hq⟩
    rintro rfl
    obtain rfl := h.pages.disjoint q pl x hx (List.mem_of_getElem? hp)
    exact hk (h.call_of_holds hn hmem hq)
  · by_cases hqp : q = p
    · exact if_pos (List.mem_singleton.mpr hqp)
    · have htake : q ∈ (w.pagesOf pl).take (i + 1) := hq
      rw [List.take_add_one, hp, List.mem_append] at htake
      have hdata' : ((w.zero [p]).goto n f (.freeClear pl (i + 1))).data q = w.data q := hdata q hqp
      rw [hdata']
      exact hok.2 q (htake.resolve_right (by simpa using hqp))

/-- An empty pagelist is freed. -/
theorem Inv.kfree (h : Inv w) (hn : w.calls n = some f) {pls : List PlPtr} (hpc : f.pc = .drop (pl :: pls))
    (hempty : w.pagesOf pl = []) : Inv ((w.kfree pl).goto n f (.drop pls)) := by
  have hf : f.pc.pls = pl :: pls := by rw [hpc]; rfl
  have hnd := h.callNodup n f hn
  rw [hf, List.nodup_cons] at hnd
  have hpages : ∀ q, ((w.kfree pl).goto n f (.drop pls)).pagesOf q = w.pagesOf q := by
    intro q
    by_cases hq : q = pl
    · rw [hq, hempty]
      simp [World.goto, World.kfree, World.pagesOf]
    · simp [World.goto, World.kfree, World.pagesOf, hq]
  have hne : ∀ q, q ≠ pl → w.pagelists q ≠ none →
      ((w.kfree pl).goto n f (.drop pls)).pagelists q ≠ none := by
    intro q hq hw
    simpa [World.goto, World.kfree, hq] using hw
  refine h.work hn rfl rfl rfl rfl (fun q hq ↦ ?_) hnd.2 (fun k q hk hq ↦ ?_) (fun q ↦ ?_)
    (fun q q' p hq hq' ↦ ?_) trivial
  · have hq' : q ∈ pl :: pls := List.mem_cons_of_mem _ hq
    refine ⟨.inl (by rw [hf]; exact hq'), hne q ?_ (h.pages.held (.call n) q ⟨f, hn, by rw [hf]; exact hq'⟩)⟩
    rintro rfl
    exact hnd.1 hq
  · refine ⟨⟨hpages q, fun _ _ ↦ rfl⟩, hne q ?_ (h.pages.held k q hq)⟩
    rintro rfl
    exact hk (h.call_of_holds hn (by rw [hf]; exact List.mem_cons_self) hq)
  · rw [hpages]
    exact h.pages.nodup q
  · rw [hpages] at hq hq'
    exact h.pages.disjoint q q' p hq hq'

theorem Inv.stepAlloc (h : Inv w) (hn : w.calls n = some f) (hans : w.pagelists ans.ptr = none)
    (hnd : ans.pages.Nodup) (hun : ∀ p ∈ ans.pages, w.Unused p) : Inv (stepAlloc w n f ans f.pc) := by
  have hok := h.known.call n f hn
  cases hpc : f.pc with
  | allocLock =>
      simp only [Gl.stepAlloc]
      cases hgl : w.glSa with
      | nil => exact h.goto hn (by rw [hpc]; rfl) trivial
      | cons pl rest => exact h.pop hgl
  | allocObj =>
      simp only [Gl.stepAlloc]
      split_ifs with hans'
      · refine h.setPages hn (.allocArray ans.ptr) (.inr hans) (fun q hq ↦ .inr ?_)
          (List.nodup_singleton _) List.nodup_nil (fun p hp ↦ absurd hp (List.not_mem_nil)) ⟨w.data, rfl, fun _ _ _ ↦ rfl⟩ fun p hp ↦ ?_
        · exact List.mem_singleton.mp hq
        · have hnil : (World.goto (w.setPages ans.ptr []) n f (.allocArray ans.ptr)).pagesOf ans.ptr = [] :=
            World.setPages_pagesOf_self
          rw [hnil] at hp
          cases hp
      · exact h.finish n
  | allocArray pl =>
      rw [hpc] at hok
      simp only [Gl.stepAlloc]
      split_ifs
      · exact h.goto hn (by rw [hpc]; rfl) hok
      · exact h.goto hn (by rw [hpc]; rfl) trivial
  | allocHigh pl order maxOrder =>
      rw [hpc] at hok
      simp only [Gl.stepAlloc]
      split_ifs
      · exact h.grow hn (by rw [hpc]; rfl) rfl hnd hun (World.Zeroed.grow hok)
      · exact h.goto hn (by rw [hpc]; rfl) hok
      · exact h.goto hn (by rw [hpc]; rfl) hok
  | allocBulk pl =>
      rw [hpc] at hok
      simp only [Gl.stepAlloc]
      have hnd' := hnd.sublist (List.take_sublist (min 100 (ssPages - (w.pagesOf pl).length)) ans.pages)
      split_ifs
      · exact h.grow hn (by rw [hpc]; rfl) rfl hnd' (fun p hp ↦ hun p (List.mem_of_mem_take hp))
          (World.Zeroed.grow hok)
      · exact h.grow hn (by rw [hpc]; rfl) rfl hnd' (fun p hp ↦ hun p (List.mem_of_mem_take hp))
          (World.Zeroed.grow hok)
      · exact h.goto hn (by rw [hpc]; rfl) hok
  | allocSingle pl =>
      rw [hpc] at hok
      simp only [Gl.stepAlloc]
      split_ifs
      · cases hp : ans.pages with
        | nil => exact h.goto hn (by rw [hpc]; rfl) hok
        | cons p rest =>
            refine h.grow hn (by rw [hpc]; rfl) rfl (List.nodup_singleton p) (fun q hq ↦ ?_)
              (World.Zeroed.grow hok)
            obtain rfl := List.mem_singleton.mp hq
            exact hun q (by rw [hp]; exact List.mem_cons_self)
      · exact h.goto hn (by rw [hpc]; rfl) hok
  | allocCheck pl =>
      rw [hpc] at hok
      simp only [Gl.stepAlloc]
      split_ifs with hlen
      · exact h.goto hn (by rw [hpc]; rfl) ⟨hlen, hok⟩
      · exact h.goto hn (by rw [hpc]; rfl) trivial
  | allocRet pl => exact h.ret hn hpc
  | freeCheck pl => exact h
  | freeClear pl i => exact h
  | freePush pl => exact h
  | splice => exact h
  | drop pls => exact h

theorem Inv.stepFree (h : Inv w) (hn : w.calls n = some f) : Inv (stepFree w n f f.pc) := by
  have hok := h.known.call n f hn
  cases hpc : f.pc with
  | freeCheck pl =>
      rw [hpc] at hok
      simp only [Gl.stepFree]
      split_ifs
      · exact h.goto hn (by rw [hpc]; rfl) trivial
      · exact h.goto hn (by rw [hpc]; rfl) ⟨hok, by simp⟩
  | freeClear pl i =>
      rw [hpc] at hok
      simp only [Gl.stepFree]
      cases hp : (w.pagesOf pl)[i]? with
      | some p => exact h.clear hn hpc hp
      | none =>
          refine h.goto hn (by rw [hpc]; rfl) ⟨hok.1, fun p hp' ↦ hok.2 p ?_⟩
          rwa [List.take_of_length_le (List.getElem?_eq_none_iff.mp hp)]
  | freePush pl => exact h.push hn hpc
  | splice => exact h.splice
  | drop pls =>
      cases pls with
      | nil => exact h.finish n
      | cons pl pls =>
          simp only [Gl.stepFree]
          split_ifs with hempty
          · exact h.kfree hn hpc hempty
          · have hf : f.pc.pls = pl :: pls := by rw [hpc]; rfl
            have hnodup := h.callNodup n f hn
            rw [hf] at hnodup
            refine h.setPages hn (.drop (pl :: pls)) (.inl (by rw [hf]; exact List.mem_cons_self))
              (fun q hq ↦ .inl (by rw [hf]; exact hq)) hnodup
              ((h.pages.nodup pl).sublist (List.dropLast_sublist _)) (fun p hp ↦ .inl ?_)
              ⟨w.data, rfl, fun _ _ _ ↦ rfl⟩ trivial
            exact List.mem_of_mem_dropLast hp
  | allocLock => exact h
  | allocObj => exact h
  | allocArray pl => exact h
  | allocHigh pl order maxOrder => exact h
  | allocBulk pl => exact h
  | allocSingle pl => exact h
  | allocCheck pl => exact h
  | allocRet pl => exact h

/-! ## Calls and owners -/

/-- A call comes in, with pagelists in its hands that its caller had. -/
theorem Inv.enter (h : Inv w) (f : Frame) (c : Nat) {owned : Nat → Finset PlPtr}
    (hpls : ∀ pl ∈ f.pc.pls, pl ∈ w.owned c)
    (howned : ∀ b, ∀ q ∈ owned b, q ∈ w.owned b ∧ q ∉ f.pc.pls) (hnd : f.pc.pls.Nodup)
    (hok : PcOk w f.pc) : Inv { w.goto n f f.pc with owned := owned } := by
  refine h.moved (· ∈ f.pc.pls) (.call n) rfl rfl h.size h.nodup
    (forall_update (fun m g _ hg ↦ .inl hg) fun g hg ↦ .inr ?_) (fun k q hq ↦ ?_)
    (fun q hq ↦ h.pages.held (.caller c) q (hpls q hq)) h.known.list
    fun b q hq ↦ h.known.caller b q (howned b q hq).1
  · obtain rfl := Option.some.inj hg
    exact ⟨hnd, hok⟩
  · have hnot : ∀ k', k' ≠ .caller c → w.Holds k' q → q ∉ f.pc.pls :=
      fun k' hk' hkq hc ↦ hk' (h.unique q k' (.caller c) hkq (hpls q hc))
    cases k with
    | list => exact .inl ⟨hnot .list (by simp) hq, hq⟩
    | caller b => exact .inl ⟨(howned b q hq).2, (howned b q hq).1⟩
    | call m =>
        by_cases hm : m = n
        · subst hm
          obtain ⟨g, hg, hq⟩ := (holds_call_self rfl).mp hq
          obtain rfl := Option.some.inj hg
          exact .inr ⟨hq, rfl⟩
        · have hq' := (holds_call_of_ne rfl hm).mp hq
          exact .inl ⟨hnot (.call m) (by simp) hq', hq'⟩

/-- A pagelist goes from one caller to another. -/
theorem Inv.pass (h : Inv w) {c c' : Nat} (hpl : pl ∈ w.owned c) :
    Inv { w with
      owned := Function.update (Function.update w.owned c ((w.owned c).erase pl)) c'
        (insert pl (Function.update w.owned c ((w.owned c).erase pl) c')) } := by
  -- a caller has what it had, less `pl` for the first and with `pl` for the second
  have hmem : ∀ b q, q ∈ Function.update (Function.update w.owned c ((w.owned c).erase pl)) c'
      (insert pl (Function.update w.owned c ((w.owned c).erase pl) c')) b →
      (q = pl ∧ b = c') ∨ (q ≠ pl ∧ q ∈ w.owned b) := by
    intro b q hq
    have hother : ∀ b, b ≠ c → q ∈ w.owned b → q ≠ pl := by
      rintro b hb hqb rfl
      exact hb (by simpa using h.unique q (.caller b) (.caller c) hqb hpl)
    have herase : ∀ b, q ∈ Function.update w.owned c ((w.owned c).erase pl) b → q ≠ pl ∧ q ∈ w.owned b := by
      intro b hq
      by_cases hb : b = c
      · subst hb
        rw [Function.update_self] at hq
        exact Finset.mem_erase.mp hq
      · rw [Function.update_of_ne hb] at hq
        exact ⟨hother b hb hq, hq⟩
    by_cases hb : b = c'
    · subst hb
      rw [Function.update_self] at hq
      rcases Finset.mem_insert.mp hq with rfl | hq
      · exact .inl ⟨rfl, rfl⟩
      · exact .inr (herase b hq)
    · rw [Function.update_of_ne hb] at hq
      exact .inr (herase b hq)
  have hnot : ∀ k' q, (∀ b, k' ≠ .caller b) → w.Holds k' q → q ≠ pl := by
    rintro k' q hk' hkq rfl
    exact hk' c (h.unique q k' (.caller c) hkq hpl)
  refine h.moved (· = pl) (.caller c') rfl rfl h.size h.nodup (fun m g hg ↦ .inl hg) (fun k q hq ↦ ?_)
    (fun q hq ↦ ?_) h.known.list (fun b q hq ↦ ?_)
  · cases k with
    | list => exact .inl ⟨hnot .list q (by simp) hq, hq⟩
    | caller b =>
        rcases hmem b q hq with ⟨heq, hb⟩ | ⟨hne, hq⟩
        · exact .inr ⟨heq, by rw [hb]⟩
        · exact .inl ⟨hne, hq⟩
    | call m => exact .inl ⟨hnot (.call m) q (by simp) hq, hq⟩
  · rw [hq]
    exact h.pages.held (.caller c) pl hpl
  · rcases hmem b q hq with ⟨rfl, -⟩ | ⟨-, hq⟩
    · exact h.known.caller c q hpl
    · exact h.known.caller b q hq

/-- A page is written to that only a caller may have. -/
theorem Inv.setData (h : Inv w) (p : Page) (data : PageData)
    (hp : ∀ k q, w.Holds k q → p ∈ w.pagesOf q → ∃ c, k = .caller c) :
    Inv { w with data := Function.update w.data p data } := by
  have hsame : ∀ k q, w.Holds k q → (∀ c, k ≠ .caller c) →
      Same w { w with data := Function.update w.data p data } q := by
    refine fun k q hq hk ↦ ⟨rfl, fun x hx ↦ Function.update_of_ne ?_ _ _⟩
    rintro rfl
    obtain ⟨c, hc⟩ := hp k q hq hx
    exact hk c hc
  refine ⟨h.size, h.nodup, h.callNodup, h.unique, ⟨h.pages.nodup, h.pages.disjoint, h.pages.held⟩, ?_,
    h.known.caller, fun m g hg ↦ ?_⟩
  · intro q hq
    have hs := hsame .list q hq (by simp)
    exact ⟨hs.full (h.known.list q hq).1, hs.zeroed (h.known.list q hq).2⟩
  · exact (h.known.call m g hg).congr fun q hq ↦ hsame (.call m) q ⟨g, hg, hq⟩ (by simp)

/-- **Every step keeps the invariant.** -/
theorem Inv.next (h : Inv w) {e : Event} (he : Allowed w e) (hs : Next w e w') : Inv w' := by
  cases e with
  | alloc n c =>
      obtain ⟨-, hw⟩ := Option.ite_none_right_eq_some.mp hs
      obtain rfl := Option.some.inj hw
      exact h.enter ⟨c, .allocLock⟩ c (by simp [Pc.pls]) (fun b q hq ↦ ⟨hq, by simp [Pc.pls]⟩)
        List.nodup_nil trivial
  | vmaFree n c =>
      obtain ⟨-, hw⟩ := Option.ite_none_right_eq_some.mp hs
      obtain rfl := Option.some.inj hw
      exact h.enter ⟨c, .splice⟩ c (by simp [Pc.pls]) (fun b q hq ↦ ⟨hq, by simp [Pc.pls]⟩)
        List.nodup_nil trivial
  | free n c pl =>
      obtain ⟨⟨-, hpl⟩, hw⟩ := Option.ite_none_right_eq_some.mp hs
      obtain rfl := Option.some.inj hw
      refine h.enter ⟨c, .freeCheck pl⟩ c (by simpa [Pc.pls] using hpl) (fun b q hq ↦ ?_)
        (List.nodup_singleton pl) (h.known.caller c pl hpl)
      by_cases hb : b = c
      · subst hb
        rw [Function.update_self] at hq
        obtain ⟨hne, hq⟩ := Finset.mem_erase.mp hq
        exact ⟨hq, by simpa [Pc.pls] using hne⟩
      · rw [Function.update_of_ne hb] at hq
        refine ⟨hq, fun hc ↦ hb ?_⟩
        obtain rfl : q = pl := by simpa [Pc.pls] using hc
        simpa using h.unique q (.caller b) (.caller c) hq hpl
  | step n ans =>
      obtain ⟨f, hf, rfl⟩ := Option.map_eq_some_iff.mp hs
      obtain ⟨hptr, hnd, hun⟩ := he
      have ha := h.stepAlloc hf hptr hnd hun
      have hfree := h.stepFree hf
      unfold stepCall
      split
      all_goals assumption
  | write c pl p data =>
      obtain ⟨⟨hpl, hp⟩, hw⟩ := Option.ite_none_right_eq_some.mp hs
      obtain rfl := Option.some.inj hw
      refine h.setData p data fun k q hq hpq ↦ ⟨c, ?_⟩
      obtain rfl := h.pages.disjoint q pl p hpq hp
      exact h.unique q k (.caller c) hq hpl
  | pass c c' pl =>
      obtain ⟨hpl, hw⟩ := Option.ite_none_right_eq_some.mp hs
      obtain rfl := Option.some.inj hw
      exact h.pass hpl
  | foreign p data =>
      obtain rfl := Option.some.inj hs
      exact h.setData p data fun k q _ hpq ↦ absurd hpq (he q)

theorem Inv.init (data : Page → PageData) : Inv (World.init data) := by
  have hnot : ∀ k q, ¬ (World.init data).Holds k q := by
    rintro (_ | c | m) q hq
    · cases hq
    · cases hq
    · obtain ⟨f, hf, -⟩ := hq
      cases hf
  exact ⟨rfl, List.nodup_nil, fun _ _ hf ↦ (nomatch hf), fun q k _ hk ↦ absurd hk (hnot k q),
    ⟨fun _ ↦ List.nodup_nil, fun _ _ _ hp ↦ (nomatch hp), fun k q hk ↦ absurd hk (hnot k q)⟩,
    fun _ hq ↦ (nomatch hq), fun c q hq ↦ absurd hq (hnot (.caller c) q), fun _ _ hf ↦ (nomatch hf)⟩

/-- The free list is in order: the counter is right, no pagelist is on it twice, none is on it or in
other hands while a caller has it, and what `gl_alloc_stack` returns is an area of zeros. -/
structure ListOk (w : World) : Prop where
  size : w.glSize = w.glSa.length
  nodup : w.glSa.Nodup
  owner : ∀ c c' pl, pl ∈ w.owned c → pl ∈ w.owned c' → c = c'
  apart : ∀ c pl, pl ∈ w.owned c → pl ∉ w.glSa
  returned : ∀ n c pl, w.calls n = some ⟨c, .allocRet pl⟩ →
    pl ∉ w.glSa ∧ (∀ c', pl ∉ w.owned c') ∧ (∀ m c', w.calls m = some ⟨c', .allocRet pl⟩ → m = n) ∧
      ∃ l, w.pagelists pl = some l ∧ l.pages.length = ssPages ∧ ∀ p ∈ l.pages, w.data p = fun _ ↦ 0

theorem Inv.listOk (h : Inv w) : ListOk w := by
  refine ⟨h.size, h.nodup, fun c c' pl hc hc' ↦ ?_, fun c pl hc hl ↦ ?_, fun n c pl hn ↦ ?_⟩
  · simpa using h.unique pl (.caller c) (.caller c') hc hc'
  · simpa using h.unique pl (.caller c) .list hc hl
  · have hcall : w.Holds (.call n) pl := ⟨_, hn, List.mem_cons_self⟩
    obtain ⟨hfull, hzero⟩ := h.known.call n _ hn
    obtain ⟨l, hl⟩ := Option.ne_none_iff_exists'.mp (h.pages.held _ _ hcall)
    have hpages : w.pagesOf pl = l.pages := by rw [World.pagesOf, hl]
    rw [World.Full, hpages] at hfull
    rw [World.Zeroed, hpages] at hzero
    refine ⟨fun hl ↦ ?_, fun c' hc ↦ ?_, fun m c' hm ↦ ?_, l, hl, hfull, hzero⟩
    · simpa using h.unique pl (.call n) .list hcall hl
    · simpa using h.unique pl (.call n) (.caller c') hcall hc
    · simpa using h.unique pl (.call m) (.call n) ⟨_, hm, List.mem_cons_self⟩ hcall

/-- **The free list is in order in every interleaving.** -/
theorem run_listOk {data : Page → PageData} {es : List Event}
    (h : Run (Guarded Allowed Next) (World.init data) es w) : ListOk w :=
  (h.invariant (Inv.init data) fun _ _ _ hinv hs ↦ hinv.next hs.1 hs.2).listOk

/-- Caller 1 owns the pagelists below `k`; there is none above `k`, and no call but possibly call 0. -/
structure Stocked (k : Nat) (w : World) : Prop where
  pages : ∀ pl < k, w.pagelists pl = some ⟨List.range' (2048 * pl) 2048⟩
  absent : ∀ pl, k < pl → w.pagelists pl = none
  owned : ∀ pl < k, pl ∈ w.owned 1
  calls : ∀ n, n ≠ 0 → w.calls n = none
  glSa : w.glSa = []
  glSize : w.glSize = 0

theorem World.goto_calls_self (w : World) (n : Nat) (f : Frame) (pc : Pc) :
    (w.goto n f pc).calls n = some { f with pc := pc } := by
  simp [World.goto]

theorem World.goto_calls_of_ne (w : World) {m n : Nat} (f : Frame) (pc : Pc) (h : m ≠ n) :
    (w.goto n f pc).calls m = w.calls m := by
  simp [World.goto, h]

/-- Call 0, by caller 1, is at `pc` with pagelist `k`. -/
structure Making (k : Nat) (w : World) (ps : List Page) (pc : Pc) : Prop extends Stocked k w where
  call : w.calls 0 = some ⟨1, pc⟩
  made : w.pagelists k = some ⟨ps⟩

theorem Making.pagesOf {k : Nat} (h : Making k w ps pc) : w.pagesOf k = ps := by
  rw [World.pagesOf, h.made]

theorem Making.allowed {k : Nat} (h : Making k w ps pc) {qs : List Page} (hqs : qs.Nodup)
    (hge : ∀ p ∈ qs, 2048 * k ≤ p) (hdisj : ∀ p ∈ qs, p ∉ ps) : Allowed w (.step 0 ⟨true, k + 1, qs⟩) := by
  refine ⟨h.absent _ (Nat.lt_succ_self k), hqs, fun p hp pl hpl ↦ ?_⟩
  rcases Nat.lt_trichotomy pl k with hlt | rfl | hlt
  · rw [World.pagesOf, h.pages pl hlt, List.mem_range'_1] at hpl
    have hp' := hge p hp
    omega
  · rw [h.pagesOf] at hpl
    exact hdisj p hp hpl
  · rw [World.pagesOf, h.absent pl hlt] at hpl
    cases hpl

/-- A step with nothing to hand out. -/
theorem Making.goto {k : Nat} (h : Making k w ps pc) (pc' : Pc)
    (hstep : stepCall w 0 ⟨1, pc⟩ ⟨true, k + 1, []⟩ = w.goto 0 ⟨1, pc⟩ pc') :
    ∃ w', Guarded Allowed Next w (.step 0 ⟨true, k + 1, []⟩) w' ∧ Making k w' ps pc' := by
  refine ⟨w.goto 0 ⟨1, pc⟩ pc', ⟨h.allowed List.nodup_nil (by simp) (by simp), ?_⟩,
    ⟨h.pages, h.absent, h.owned, fun n hn ↦ ?_, h.glSa, h.glSize⟩, w.goto_calls_self .., h.made⟩
  · rw [Next, next, h.call, Option.map_some, hstep]
  · exact (w.goto_calls_of_ne _ _ hn).trans (h.calls n hn)

/-- A block of pages. -/
theorem Making.block {k order : Nat} (h : Making k w ps (.allocHigh k order order)) (qs : List Page)
    (hqs : qs.Nodup) (hge : ∀ p ∈ qs, 2048 * k ≤ p) (hdisj : ∀ p ∈ qs, p ∉ ps) (hlen : qs.length = 2 ^ order)
    (horder : 0 < order) (hps : ps.length < ssPages) (hlog : order ≤ ilog2 (ssPages - (ps ++ qs).length)) :
    ∃ w', Guarded Allowed Next w (.step 0 ⟨true, k + 1, qs⟩) w' ∧
      Making k w' (ps ++ qs) (.allocHigh k order order) := by
  refine ⟨(w.grow k qs).goto 0 ⟨1, .allocHigh k order order⟩ (.allocHigh k order order),
    ⟨h.allowed hqs hge hdisj, ?_⟩, ⟨fun pl hpl ↦ ?_, fun pl hpl ↦ ?_, h.owned, fun n hn ↦ ?_, h.glSa, h.glSize⟩,
    World.goto_calls_self .., ?_⟩
  · have hstep : stepCall w 0 ⟨1, .allocHigh k order order⟩ ⟨true, k + 1, qs⟩ =
        (w.grow k qs).goto 0 ⟨1, .allocHigh k order order⟩ (.allocHigh k order order) := by
      simp only [stepCall, stepAlloc, h.pagesOf]
      rw [if_pos ⟨horder, hps⟩, if_pos hlen, min_eq_left hlog]
    rw [Next, next, h.call, Option.map_some, hstep]
  · exact (Function.update_of_ne hpl.ne _ w.pagelists).trans (h.pages pl hpl)
  · exact (Function.update_of_ne hpl.ne' _ w.pagelists).trans (h.absent pl hpl)
  · exact (World.goto_calls_of_ne _ _ _ hn).trans (h.calls n hn)
  · rw [← h.pagesOf]
    exact Function.update_self k _ w.pagelists

/-- A call of `gl_alloc_stack` finds the list empty and makes a pagelist, -/
theorem Stocked.start {k : Nat} (h : Stocked k w) (hcall : w.calls 0 = none) (hnone : w.pagelists k = none) :
    ∃ es w', Run (Guarded Allowed Next) w es w' ∧ Making k w' [] (.allocArray k) := by
  have hans : ∀ w : World, w.pagelists k = none → Allowed w (.step 0 ⟨true, k, []⟩) :=
    fun w hw ↦ ⟨hw, List.nodup_nil, fun p hp ↦ nomatch hp⟩
  obtain ⟨w₁, hw₁⟩ : ∃ w₁, w₁ = w.goto 0 ⟨1, .allocLock⟩ .allocLock := ⟨_, rfl⟩
  obtain ⟨w₂, hw₂⟩ : ∃ w₂, w₂ = w₁.goto 0 ⟨1, .allocLock⟩ .allocObj := ⟨_, rfl⟩
  obtain ⟨w₃, hw₃⟩ : ∃ w₃, w₃ = (w₂.setPages k []).goto 0 ⟨1, .allocObj⟩ (.allocArray k) := ⟨_, rfl⟩
  have hempty : w₁.glSa = [] := by rw [hw₁]; exact h.glSa
  have hpl₁ : w₁.pagelists = w.pagelists := by rw [hw₁]; rfl
  have hpl₂ : w₂.pagelists = w.pagelists := by rw [hw₂, ← hpl₁]; rfl
  have hcall₁ : w₁.calls 0 = some ⟨1, .allocLock⟩ := by rw [hw₁]; exact w.goto_calls_self ..
  have hcall₂ : w₂.calls 0 = some ⟨1, .allocObj⟩ := by rw [hw₂]; exact w₁.goto_calls_self ..
  have hs₁ : Next w (.alloc 0 1) w₁ := by
    rw [Next, next, if_pos hcall, hw₁]
  have hs₂ : Next w₁ (.step 0 ⟨true, k, []⟩) w₂ := by
    rw [Next, next, hcall₁, Option.map_some, hw₂]
    simp only [stepCall, stepAlloc, hempty]
  have hs₃ : Next w₂ (.step 0 ⟨true, k, []⟩) w₃ := by
    rw [Next, next, hcall₂, Option.map_some, hw₃]
    rfl
  have hothers : ∀ n, n ≠ 0 → w₃.calls n = none := by
    intro n hn
    rw [hw₃, World.goto_calls_of_ne _ _ _ hn]
    show w₂.calls n = none
    rw [hw₂, World.goto_calls_of_ne _ _ _ hn, hw₁, World.goto_calls_of_ne _ _ _ hn]
    exact h.calls n hn
  have hpl₃ : w₃.pagelists = Function.update w.pagelists k (some ⟨[]⟩) := by rw [hw₃, ← hpl₂]; rfl
  have hfirst : Guarded Allowed Next w (.alloc 0 1) w₁ := ⟨trivial, hs₁⟩
  refine ⟨_, w₃, ((Run.single hfirst).snoc ⟨hans w₁ (by rw [hpl₁]; exact hnone), hs₂⟩).snoc
    ⟨hans w₂ (by rw [hpl₂]; exact hnone), hs₃⟩, ⟨fun pl hlt ↦ ?_, fun pl hlt ↦ ?_, ?_, hothers, ?_, ?_⟩, ?_, ?_⟩
  · rw [hpl₃, Function.update_of_ne hlt.ne]
    exact h.pages pl hlt
  · rw [hpl₃, Function.update_of_ne hlt.ne']
    exact h.absent pl hlt
  · rw [hw₃, hw₂, hw₁]
    exact h.owned
  · rw [hw₃, hw₂, hw₁]
    exact h.glSa
  · rw [hw₃, hw₂, hw₁]
    exact h.glSize
  · rw [hw₃]
    exact World.goto_calls_self ..
  · rw [hpl₃, Function.update_self]

/-- and is granted all it asks for. -/
theorem Stocked.granted {k : Nat} (h : Stocked k w) (hcall : w.calls 0 = none) (hnone : w.pagelists k = none) :
    ∃ es w', Run (Guarded Allowed Next) w es w' ∧
      Making k w' (List.range' (2048 * k) 2048) (.allocRet k) := by
  obtain ⟨es, w₁, hrun, h₁⟩ := h.start hcall hnone
  have hlen : ∀ a : Nat, (List.range' a 1024).length = 1024 := fun a ↦ List.length_range'
  obtain ⟨w₂, hs₂, h₂⟩ := h₁.goto (.allocHigh k 10 10) rfl
  obtain ⟨w₃, hs₃, h₃⟩ := h₂.block (List.range' (2048 * k) 1024) List.nodup_range'
    (fun p hp ↦ (List.mem_range'_1.mp hp).1) (by simp)
    (hlen _) (by decide) (by decide) (by rw [List.nil_append, hlen]; decide)
  rw [List.nil_append] at h₃
  obtain ⟨w₄, hs₄, h₄⟩ := h₃.block (List.range' (2048 * k + 1024) 1024) List.nodup_range' (by
    intro p hp
    rw [List.mem_range'_1] at hp
    omega) (by
    intro p hp hp'
    simp only [List.mem_range'_1] at hp hp'
    omega) (hlen _) (by decide) (by rw [hlen]; decide)
    (by rw [List.length_append, hlen, hlen]; decide)
  have hall : List.range' (2048 * k) 1024 ++ List.range' (2048 * k + 1024) 1024 = List.range' (2048 * k) 2048 :=
    List.range'_append_1
  rw [hall] at h₄
  have hfull : (List.range' (2048 * k) 2048).length = ssPages := by
    rw [List.length_range']
    decide
  have hnot : ¬ (List.range' (2048 * k) 2048).length < ssPages := by
    rw [hfull]
    exact lt_irrefl _
  obtain ⟨w₅, hs₅, h₅⟩ := h₄.goto (.allocBulk k) (by
    simp only [stepCall, stepAlloc, h₄.pagesOf]
    rw [if_neg fun hc ↦ hnot hc.2])
  obtain ⟨w₆, hs₆, h₆⟩ := h₅.goto (.allocSingle k) (by
    simp only [stepCall, stepAlloc, h₅.pagesOf]
    rw [if_neg hnot])
  obtain ⟨w₇, hs₇, h₇⟩ := h₆.goto (.allocCheck k) (by
    simp only [stepCall, stepAlloc, h₆.pagesOf]
    rw [if_neg hnot])
  obtain ⟨w₈, hs₈, h₈⟩ := h₇.goto (.allocRet k) (by
    simp only [stepCall, stepAlloc, h₇.pagesOf]
    rw [if_pos hfull])
  exact ⟨_, w₈, ((((((hrun.snoc hs₂).snoc hs₃).snoc hs₄).snoc hs₅).snoc hs₆).snoc hs₇).snoc hs₈, h₈⟩

theorem stocked_init (data : Page → PageData) : Stocked 0 (World.init data) :=
  ⟨fun _ hpl ↦ absurd hpl (Nat.not_lt_zero _), fun _ _ ↦ rfl, fun _ hpl ↦ absurd hpl (Nat.not_lt_zero _),
    fun _ _ ↦ rfl, rfl, rfl⟩

/-- The pages it gets hold zeros, whatever memory held before. -/
theorem run_listOk_granted : ∃ es w, Run (Guarded Allowed Next) (World.init fun _ _ ↦ 7) es w ∧
    ∃ l, w.pagelists 0 = some l ∧ l.pages.length = 2048 ∧ ∀ p ∈ l.pages, w.data p = fun _ ↦ 0 := by
  obtain ⟨es, w, hrun, h⟩ := (stocked_init fun _ _ ↦ 7).granted rfl rfl
  obtain ⟨-, -, -, l, hl, hlen, hzero⟩ := (run_listOk hrun).returned 0 1 0 h.call
  exact ⟨es, w, hrun, l, hl, hlen, hzero⟩

end ShadowStack.Lkm.Gl
