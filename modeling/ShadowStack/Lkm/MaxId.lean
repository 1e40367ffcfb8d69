import Mathlib.Data.Int.Order.Basic
import ShadowStack.Lkm.Outcome
import ShadowStack.Lkm.Invariant

/-!
# `max_id`

`atomic64_max` of `lkm/core/api.c` in single steps, with any number of calls under way at once: the
atomic read, the test, and the compare-exchange, which on failure leaves the value it found in `old`
and goes back to the test.  The calls of `sa_alloc` and `sa_fork` make one each.
-/

namespace ShadowStack.Lkm

open Lib

/-! ## The loop in steps -/

/-- Where a call of `atomic64_max(curr, id)` is. -/
inductive MaxPc where
  | idle
  /-- Before `atomic64_read`. -/
  | read (id : Int)
  /-- Before the test of `old`. -/
  | test (id old : Int)
  /-- Before `atomic64_try_cmpxchg`. -/
  | cmpxchg (id old : Int)
deriving DecidableEq, Repr

/-- The value of `max_id`, and the callers by their `pid`. -/
structure MaxState where
  curr : Int
  pc : Nat → MaxPc

/-- A call, or the next step of the call of a caller. -/
inductive MaxEvent where
  | call (pid : Nat) (id : Int)
  | step (pid : Nat)
deriving DecidableEq, Repr

namespace MaxState

/-- Move a caller. -/
def goto (s : MaxState) (pid : Nat) (pc : MaxPc) : MaxState :=
  { s with pc := Function.update s.pc pid pc }

/-- The steps of `atomic64_max`. -/
def advance (s : MaxState) (pid : Nat) : Option MaxState :=
  match s.pc pid with
  | .idle => none
  | .read id => some (s.goto pid (.test id s.curr))
  | .test id old => some (s.goto pid (if id ≤ old then .idle else .cmpxchg id old))
  | .cmpxchg id old =>
      if s.curr = old then some { s.goto pid .idle with curr := id }
      else some (s.goto pid (.test id s.curr))

/-- One transition. -/
def next (s : MaxState) : MaxEvent → Option MaxState
  | .call pid id => if s.pc pid = .idle then some (s.goto pid (.read id)) else none
  | .step pid => s.advance pid

/-- `max_id` with no call under way. -/
def start (curr : Int) : MaxState := ⟨curr, fun _ ↦ .idle⟩

/-- All calls have returned. -/
def Quiet (s : MaxState) : Prop := ∀ pid, s.pc pid = .idle

end MaxState

/-- The transitions as a relation. -/
def MaxStep (s : MaxState) (e : MaxEvent) (s' : MaxState) : Prop := s.next e = some s'

/-- The ids passed to the calls of a run, in order. -/
def passedIds (es : List MaxEvent) : List Int :=
  es.filterMap fun
    | .call _ id => some id
    | .step _ => none

/-- The id of a call that has not returned. -/
def MaxPc.id : MaxPc → Option Int
  | .idle => none
  | .read id | .test id _ | .cmpxchg id _ => some id

/-! ## What a step can do -/

/-- **What a step does**: it moves a caller within its call, ends a call whose id is not above the
value, or ends one by raising the value to the id. -/
theorem MaxState.advance_cases {s s' : MaxState} {pid : Nat} (h : s.advance pid = some s')
    (hold : ∀ id old, s.pc pid = .test id old ∨ s.pc pid = .cmpxchg id old → old ≤ s.curr)
    (hlt : ∀ id old, s.pc pid = .cmpxchg id old → old < id) :
    ∃ id, (s.pc pid).id = some id ∧
      ((∃ old, old ≤ s.curr ∧ (s' = s.goto pid (.test id old) ∨
          old < id ∧ s' = s.goto pid (.cmpxchg id old))) ∨
        id ≤ s.curr ∧ s' = s.goto pid .idle ∨
        s.curr < id ∧ s' = { s.goto pid .idle with curr := id }) := by
  unfold advance at h
  cases hpc : s.pc pid with
  | idle => simp [hpc] at h
  | read id =>
      simp only [hpc, Option.some.injEq] at h
      exact ⟨id, rfl, .inl ⟨s.curr, le_rfl, .inl h.symm⟩⟩
  | test id old =>
      simp only [hpc, Option.some.injEq] at h
      have hle := hold id old (.inl hpc)
      by_cases hid : id ≤ old
      · rw [if_pos hid] at h
        exact ⟨id, rfl, .inr (.inl ⟨hid.trans hle, h.symm⟩)⟩
      · rw [if_neg hid] at h
        exact ⟨id, rfl, .inl ⟨old, hle, .inr ⟨not_le.mp hid, h.symm⟩⟩⟩
  | cmpxchg id old =>
      simp only [hpc] at h
      have hid := hlt id old hpc
      by_cases heq : s.curr = old
      · rw [if_pos heq, Option.some.injEq] at h
        exact ⟨id, rfl, .inr (.inr ⟨heq ▸ hid, h.symm⟩)⟩
      · rw [if_neg heq, Option.some.injEq] at h
        exact ⟨id, rfl, .inl ⟨s.curr, le_rfl, .inl h.symm⟩⟩

/-- **The invariant**, for the value at the start and the ids passed since. -/
structure MaxOk (init : Int) (ids : List Int) (s : MaxState) : Prop where
  attained : s.curr = init ∨ s.curr ∈ ids
  init_le : init ≤ s.curr
  /-- An id that was passed is covered, or its call has not returned. -/
  covered : ∀ id ∈ ids, id ≤ s.curr ∨ ∃ pid, (s.pc pid).id = some id
  passed : ∀ pid id, (s.pc pid).id = some id → id ∈ ids
  /-- The value a caller expects is one that was there. -/
  old_le : ∀ pid id old, s.pc pid = .test id old ∨ s.pc pid = .cmpxchg id old → old ≤ s.curr
  old_lt : ∀ pid id old, s.pc pid = .cmpxchg id old → old < id

namespace MaxOk

variable {init : Int} {ids : List Int} {s s' : MaxState} {pid : Nat} {pc : MaxPc}

theorem start (init : Int) : MaxOk init [] (.start init) where
  attained := .inl rfl
  init_le := le_rfl
  covered _ h := nomatch h
  passed _ _ h := nomatch h
  old_le _ _ _ h := by rcases h with h | h <;> cases h
  old_lt _ _ _ h := nomatch h

/-- A caller moves, at a call with a new id, and the value may grow to an id that was passed. -/
theorem move {ids' : List Int} (h : MaxOk init ids s) (hpc : s'.pc = Function.update s.pc pid pc)
    (hle : s.curr ≤ s'.curr) (hattained : s'.curr = init ∨ s'.curr ∈ ids')
    (hsub : ∀ id ∈ ids, id ∈ ids') (hnew : ∀ id ∈ ids', id ∈ ids ∨ pc.id = some id)
    (hid : ∀ id, (s.pc pid).id = some id → id ≤ s'.curr ∨ pc.id = some id)
    (hpassed : ∀ id, pc.id = some id → id ∈ ids')
    (hold : ∀ id old, pc = .test id old ∨ pc = .cmpxchg id old → old ≤ s'.curr)
    (hlt : ∀ id old, pc = .cmpxchg id old → old < id) : MaxOk init ids' s' where
  attained := hattained
  init_le := h.init_le.trans hle
  covered id hmem := by
    have hhere : pc.id = some id → ∃ p, (s'.pc p).id = some id := fun hp ↦
      ⟨pid, by rw [hpc, Function.update_self, hp]⟩
    rcases hnew id hmem with hmem | hp
    · rcases h.covered id hmem with hcov | ⟨p, hp⟩
      · exact .inl (hcov.trans hle)
      · by_cases heq : p = pid
        · exact (hid id (heq ▸ hp)).imp_right hhere
        · exact .inr ⟨p, by rw [hpc, Function.update_of_ne heq, hp]⟩
    · exact .inr (hhere hp)
  passed p id hp := by
    rw [hpc, Function.update_apply] at hp
    split at hp
    · exact hpassed id hp
    · exact hsub id (h.passed p id hp)
  old_le p id old hp := by
    rw [hpc, Function.update_apply] at hp
    split at hp
    · exact hold id old hp
    · exact (h.old_le p id old hp).trans hle
  old_lt p id old hp := by
    rw [hpc, Function.update_apply] at hp
    split at hp
    · exact hlt id old hp
    · exact h.old_lt p id old hp

/-- A call. -/
theorem call (h : MaxOk init ids s) {id : Int} (hidle : s.pc pid = .idle) :
    MaxOk init (ids ++ [id]) (s.goto pid (.read id)) := by
  refine h.move rfl le_rfl (h.attained.imp_right (List.mem_append_left _))
    (fun _ ↦ List.mem_append_left _) (fun i hi ↦ ?_) (fun i hi ↦ ?_) (fun i hi ↦ ?_)
    (fun _ _ hc ↦ by rcases hc with hc | hc <;> cases hc) (fun _ _ hc ↦ nomatch hc)
  · refine (List.mem_append.mp hi).imp_right fun hi ↦ ?_
    rw [List.mem_singleton.mp hi]
    rfl
  · rw [hidle] at hi
    cases hi
  · obtain rfl := Option.some.inj hi
    exact List.mem_append_right _ (List.mem_singleton.mpr rfl)

/-- A step within a call. -/
theorem stay (h : MaxOk init ids s) {id : Int} (hid : (s.pc pid).id = some id)
    (hpc : pc.id = some id)
    (hold : ∀ i old, pc = .test i old ∨ pc = .cmpxchg i old → old ≤ s.curr)
    (hlt : ∀ i old, pc = .cmpxchg i old → old < i) : MaxOk init ids (s.goto pid pc) := by
  refine h.move rfl le_rfl h.attained (fun _ hi ↦ hi) (fun _ hi ↦ .inl hi) (fun i hi ↦ .inr ?_)
    (fun i hi ↦ ?_) hold hlt
  · rw [hpc, ← hid, hi]
  · exact h.passed pid i (by rw [hid, ← hpc, hi])

/-- The end of a call. -/
theorem leave (h : MaxOk init ids s) {id : Int} (hid : (s.pc pid).id = some id)
    (hpc : s'.pc = Function.update s.pc pid .idle) (hle : s.curr ≤ s'.curr) (hid' : id ≤ s'.curr)
    (hattained : s'.curr = init ∨ s'.curr ∈ ids) : MaxOk init ids s' := by
  refine h.move hpc hle hattained (fun _ hi ↦ hi) (fun _ hi ↦ .inl hi) (fun i hi ↦ .inl ?_)
    (fun _ hc ↦ nomatch hc) (fun _ _ hc ↦ by rcases hc with hc | hc <;> cases hc)
    (fun _ _ hc ↦ nomatch hc)
  obtain rfl := Option.some.inj (hi.symm.trans hid)
  exact hid'

/-- A step of a call; the value does not drop. -/
theorem advance (h : MaxOk init ids s) (hs : s.advance pid = some s') :
    MaxOk init ids s' ∧ s.curr ≤ s'.curr := by
  obtain ⟨id, hid, hcases⟩ := MaxState.advance_cases hs (h.old_le pid) (h.old_lt pid)
  rcases hcases with ⟨old, hle, rfl | ⟨hlt, rfl⟩⟩ | ⟨hle, rfl⟩ | ⟨hlt, rfl⟩
  · refine ⟨h.stay hid rfl (fun i o hc ↦ ?_) (fun _ _ hc ↦ nomatch hc), le_rfl⟩
    rcases hc with hc | hc
    · obtain ⟨-, rfl⟩ := MaxPc.test.inj hc
      exact hle
    · cases hc
  · refine ⟨h.stay hid rfl (fun i o hc ↦ ?_) (fun i o hc ↦ ?_), le_rfl⟩
    · rcases hc with hc | hc
      · cases hc
      · obtain ⟨-, rfl⟩ := MaxPc.cmpxchg.inj hc
        exact hle
    · obtain ⟨rfl, rfl⟩ := MaxPc.cmpxchg.inj hc
      exact hlt
  · exact ⟨h.leave hid rfl le_rfl hle h.attained, le_rfl⟩
  · exact ⟨h.leave hid rfl hlt.le le_rfl (.inr (h.passed pid id hid)), hlt.le⟩

/-- **One transition.** -/
theorem next (h : MaxOk init ids s) {e : MaxEvent} (hs : MaxStep s e s') :
    MaxOk init (ids ++ passedIds [e]) s' ∧ s.curr ≤ s'.curr := by
  cases e with
  | call pid id =>
      have hs' : (if s.pc pid = .idle then some (s.goto pid (.read id)) else none) = some s' := hs
      rw [Option.ite_none_right_eq_some, Option.some.injEq] at hs'
      obtain ⟨hidle, rfl⟩ := hs'
      exact ⟨h.call hidle, le_rfl⟩
  | step pid =>
      obtain ⟨h', hle⟩ := h.advance hs
      exact ⟨by rwa [show passedIds [.step pid] = [] from rfl, List.append_nil], hle⟩

end MaxOk

/-- The invariant after a run. -/
theorem MaxOk.of_run {init : Int} {es : List MaxEvent} {s : MaxState}
    (h : Run MaxStep (.start init) es s) : MaxOk init (passedIds es) s := by
  induction h with
  | nil => exact MaxOk.start init
  | snoc _ hs ih =>
      rw [passedIds, List.filterMap_append]
      exact (ih.next hs).1

/-- With no call under way, the value is the maximum. -/
theorem MaxOk.max_eq {init : Int} {ids : List Int} {s : MaxState} (h : MaxOk init ids s)
    (hquiet : s.Quiet) : (init :: ids).max? = some s.curr := by
  rw [List.max?_eq_some_iff]
  refine ⟨?_, List.forall_mem_cons.mpr ⟨h.init_le, fun id hid ↦ ?_⟩⟩
  · rcases h.attained with heq | hmem
    · exact heq ▸ List.mem_cons_self
    · exact List.mem_cons_of_mem _ hmem
  · refine (h.covered id hid).resolve_right ?_
    rintro ⟨pid, hp⟩
    rw [hquiet pid] at hp
    cases hp

/-- A call that no other one interferes with returns, and leaves the larger of the two. -/
theorem atomic64Max_alone (curr id : Int) : ∃ es s, Run MaxStep (.start curr) es s ∧
    passedIds es = [id] ∧ s = .start (max curr id) := by
  have hcall : ((MaxState.start curr).next (.call 0 id)) = some ((MaxState.start curr).goto 0 (.read id)) :=
    rfl
  have hread : (((MaxState.start curr).goto 0 (.read id)).next (.step 0)) =
      some ((MaxState.start curr).goto 0 (.test id curr)) := by
    simp [MaxState.next, MaxState.advance, MaxState.goto, MaxState.start]
  have hrun := ((Run.single hcall : Run MaxStep _ _ _).snoc hread)
  rcases le_or_gt id curr with hle | hlt
  · have hreturn : (((MaxState.start curr).goto 0 (.test id curr)).next (.step 0)) =
        some (.start (max curr id)) := by
      simp [MaxState.next, MaxState.advance, MaxState.goto, MaxState.start, hle]
    exact ⟨_, _, hrun.snoc hreturn, rfl, rfl⟩
  · have htest : (((MaxState.start curr).goto 0 (.test id curr)).next (.step 0)) =
        some ((MaxState.start curr).goto 0 (.cmpxchg id curr)) := by
      simp [MaxState.next, MaxState.advance, MaxState.goto, MaxState.start, not_le.mpr hlt]
    have hreturn : (((MaxState.start curr).goto 0 (.cmpxchg id curr)).next (.step 0)) =
        some (.start (max curr id)) := by
      simp [MaxState.next, MaxState.advance, MaxState.goto, MaxState.start, hlt.le]
    exact ⟨_, _, (hrun.snoc htest).snoc hreturn, rfl, rfl⟩

/-! ## The bound -/

/-- `max_id` of every allocator bounds the ids that are in use. -/
def MaxIdBounds (s : State) : Prop :=
  ∀ a d, s.allocs a = some d → ∀ id, d.threads.slot id ≠ none → id ≤ d.maxId

namespace MaxIdBounds

variable {s s' : State} {a : AllocPtr} {d : AllocatorDesc}

theorem init (l5 : Bool) (mms : MmId → Mm) (data : Page → PageData) :
    MaxIdBounds (State.init l5 mms data) := by
  intro a d hd
  cases hd

theorem congr (h : MaxIdBounds s) (hallocs : s'.allocs = s.allocs) : MaxIdBounds s' := by
  intro a d hd
  exact h a d (hallocs ▸ hd)

/-- One allocator is replaced. -/
theorem update (h : MaxIdBounds s) {e : Option AllocatorDesc}
    (hallocs : s'.allocs = Function.update s.allocs a e)
    (he : ∀ d, e = some d → ∀ id, d.threads.slot id ≠ none → id ≤ d.maxId) : MaxIdBounds s' := by
  intro b d' hd'
  rw [hallocs, Function.update_apply] at hd'
  split at hd'
  · exact he d' hd'
  · exact h b d' hd'

theorem setAlloc (h : MaxIdBounds s) (hd : ∀ id, d.threads.slot id ≠ none → id ≤ d.maxId) :
    MaxIdBounds (s.setAlloc a d) :=
  h.update rfl fun _ he ↦ Option.some.inj he ▸ hd

/-- A descriptor is added. -/
theorem add (h : MaxIdBounds s) (hd : s.allocs a = some d) (id : Nat) (t : ThreadDesc) :
    MaxIdBounds (s.setAlloc a (d.add id t)) := by
  refine h.setAlloc fun i hi ↦ ?_
  by_cases heq : i = id
  · exact heq ▸ le_max_right d.maxId id
  · refine (h a d hd i ?_).trans (le_max_left d.maxId id)
    simpa [AllocatorDesc.add, heq] using hi

/-- An id is taken out. -/
theorem erase (h : MaxIdBounds s) (a : AllocPtr) (id : Nat) :
    MaxIdBounds (s.modThreads a fun x ↦ x.erase id) := by
  refine h.update rfl fun e he i hi ↦ ?_
  obtain ⟨d, hd, rfl⟩ := Option.map_eq_some_iff.mp he
  refine h a d hd i ?_
  by_cases heq : i = id
  · simp [heq] at hi
  · simpa [heq] using hi

theorem allocPut (h : MaxIdBounds s) (a : AllocPtr) (ans : Answers) :
    MaxIdBounds (s.allocPut a ans) := by
  unfold State.allocPut
  cases hd : s.allocs a with
  | none => exact h
  | some d =>
      dsimp only
      split
      · -- the allocator goes away
        have hnone : MaxIdBounds { s with
            callbacks := s.callbacks ++ [(a, d.threads)]
            allocs := Function.update s.allocs a none } := h.update rfl fun _ he ↦ nomatch he
        unfold State.allocDestroyCallback
        dsimp only
        cases d.mm with
        | none => exact hnone
        | some m => exact hnone.congr rfl
      · refine h.update rfl fun e he ↦ ?_
        obtain rfl : { d with kref := d.kref - 1 } = e := by
          rw [hd] at he
          exact Option.some.inj he
        exact h a d hd

theorem saAlloc (h : MaxIdBounds s) (cur : Task) (ans : Answers) :
    MaxIdBounds (saAlloc s cur ans).2 := by
  rcases saAlloc_cases s cur ans with
    ⟨-, heq⟩ | ⟨mm, a, d, pl, s₁, id, hm, -, ⟨-, -, heq⟩ | ⟨-, -, heq⟩⟩
  · rwa [heq]
  · rw [heq]
    refine h.congr ?_
    rw [State.glFree_allocs, State.mapArea_allocs, State.glAllocStack_allocs hm.stack]
  · rw [heq]
    have hallocs : (s₁.mapArea mm (idToAddr id) pl ans).1.allocs = s.allocs := by
      rw [State.mapArea_allocs, State.glAllocStack_allocs hm.stack]
    exact (h.congr hallocs).add (hallocs ▸ hm.alloc) id _

theorem saFork (h : MaxIdBounds s) (cur : Task) (ans : Answers) (pt pp : Nat) :
    MaxIdBounds (saFork s cur ans pt pp).2 := by
  rcases saFork_cases s cur ans pt pp with
    ⟨-, heq⟩ | ⟨mm, a, d, pl, s₁, parent, hm, -, ⟨-, heq⟩ | ⟨id, t, s₂, -, hs₂, hrest⟩⟩
  · rwa [heq]
  · rw [heq]
    exact h.congr (by rw [State.glFree_allocs, State.glAllocStack_allocs hm.stack])
  · have hallocs : s₂.allocs = s.allocs := by
      rw [hs₂, ← State.glAllocStack_allocs hm.stack]
      rfl
    rcases hrest with ⟨-, heq⟩ | ⟨-, ⟨-, -, heq⟩ | ⟨-, -, heq⟩⟩
    · rw [heq]
      exact h.congr (by rw [State.glFree_allocs, hallocs])
    · rw [heq]
      exact h.congr (by rw [State.glFree_allocs, State.mapArea_allocs, hallocs])
    · rw [heq]
      have hmapped : (s₂.mapArea mm (idToAddr id) pl ans).1.allocs = s.allocs := by
        rw [State.mapArea_allocs, hallocs]
      exact (h.congr hmapped).add (hmapped ▸ hm.alloc) id _

theorem saFree (h : MaxIdBounds s) (cur : Task) (ans : Answers) (addr : Nat) :
    MaxIdBounds (saFree s cur ans addr).2 := by
  rcases saFree_cases s cur ans addr with
    ⟨-, heq | ⟨a, -, -, heq⟩⟩ | ⟨mm, a, t, -, -, -, -, -, heq⟩
  · rwa [heq]
  · rw [heq]
    exact h.erase a _
  · rw [heq]
    exact ((h.erase a _).congr (State.glFree_allocs _)).allocPut a ans

theorem saPagelistFree_allocs (s : State) (pls : List PlPtr) :
    (pls.foldl State.saPagelistFree s).allocs = s.allocs := by
  induction pls generalizing s with
  | nil => rfl
  | cons pl pls ih => exact ih (s.saPagelistFree pl)

/-- **One call.** -/
theorem exec (h : MaxIdBounds s) (e : Event) : MaxIdBounds (exec s e).2 := by
  obtain ⟨cur, call, ans⟩ := e
  cases call with
  | allocCreate tgid mm =>
      show MaxIdBounds (s.allocCreate tgid mm ans).2
      unfold State.allocCreate
      split
      · refine h.update rfl fun d hd id hid ↦ absurd ?_ hid
        obtain rfl := Option.some.inj hd
        rfl
      · exact h
  | allocDestroy a =>
      show MaxIdBounds (s.allocDestroy a ans)
      unfold State.allocDestroy
      cases s.allocs a with
      | none => exact h
      | some d =>
          have herased : MaxIdBounds { s with
              saAllocators := s.saAllocators.erase d.tgid
              destroyed := insert a s.destroyed } := h.congr rfl
          exact herased.allocPut a ans
  | saAlloc => exact h.saAlloc cur ans
  | saFork pt pp => exact h.saFork cur ans pt pp
  | saFree addr => exact h.saFree cur ans addr
  | vmaFree => exact h.congr (saPagelistFree_allocs _ _)

end MaxIdBounds

/-- **`max_id` is a maximum without lost updates.**  Whatever the order of the steps of the calls, it
never drops, and with no call under way it is the largest of its value at the start and the ids passed.
After any run of complete calls of the module it bounds the ids in use. -/
theorem maxId_spec :
    (∀ init es s, Run MaxStep (.start init) es s →
      (∀ e s', MaxStep s e s' → s.curr ≤ s'.curr) ∧
      (s.Quiet → (init :: passedIds es).max? = some s.curr)) ∧
    ∀ l5 mms data es s, Run Step (State.init l5 mms data) es s → MaxIdBounds s := by
  refine ⟨fun init es s h ↦ ?_, fun l5 mms data es s h ↦ ?_⟩
  · have hok := MaxOk.of_run h
    exact ⟨fun e s' hs ↦ (hok.next hs).2, hok.max_eq⟩
  · refine h.invariant (.init l5 mms data) fun s e s' hs hstep ↦ ?_
    rw [hstep]
    exact hs.exec e

end ShadowStack.Lkm
