import ShadowStack.Lkm.Alike

/-!
# One call after another

The sequential model is the interleaving one with calls that do not overlap: a complete call of the former is a
run of the latter in which the call is alone.
-/

namespace ShadowStack.Lkm.Conc

open Lib

variable {s s' : State} {w w' w₀ w₁ : World} {c c' : Option (Nat × ThreadDesc)} {a : AllocPtr}
  {d : AllocatorDesc} {n id t : Nat} {f : Frame} {td : ThreadDesc} {pl : PlPtr} {x : Event}

/-! ## What the calls are granted -/

/-- The area that a reply of 0 brings with it. -/
def granted? (r : Reply) : Option Nat := if r.err = none then r.addr else none

/-- The areas granted to a list of calls, -/
def areas : State → List Lkm.Event → List Nat
  | _, [] => []
  | s, e :: es => (granted? (exec s e).1).toList ++ areas (exec s e).2 es

/-- and to the calls so far, in the order in which they came in. -/
def World.areas (w : World) : List Nat :=
  (List.range w.nextCall).filterMap fun n ↦ (w.grants n).map Grant.addr

theorem granted?_of_err {r : Reply} (h : r.err ≠ none) : granted? r = none := if_neg h

theorem areas_append (s : State) (es es' : List Lkm.Event) :
    areas s (es ++ es') = areas s es ++ areas (es.foldl (fun s e ↦ (exec s e).2) s) es' := by
  induction es generalizing s with
  | nil => rfl
  | cons e es ih => simp only [List.cons_append, areas, ih, List.foldl_cons, List.append_assoc]

theorem run_eq_foldl {cond : State → Lkm.Event → Prop} {es : List Lkm.Event}
    (h : Run (Guarded cond Step) s es s') : s' = es.foldl (fun s e ↦ (exec s e).2) s := by
  induction h with
  | nil => rfl
  | snoc _ hs ih =>
      obtain ⟨-, rfl⟩ := hs
      rw [List.foldl_append, ← ih]
      rfl

/-! ## Runs of a single call -/

/-- The conditions under which nothing is lost. -/
def Orderly (w : World) (e : Event) : Prop := Careful w e ∧ Spares w e

/-- Call `n` comes in with the event `x`, and does some steps. -/
def Reach (x : Event) (n : Nat) (w w' : World) : Prop :=
  ∃ ans : List Answer, Run (Guarded Orderly Next) w (x :: ans.map (.step n)) w'

theorem Reach.snoc {ans : Answer} (h : Reach x n w w₁) (hs : Guarded Orderly Next w₁ (.step n ans) w') :
    Reach x n w w' := by
  obtain ⟨before, hr⟩ := h
  refine ⟨before ++ [ans], ?_⟩
  rw [List.map_append]
  exact hr.snoc hs

/-- Call `n`, the one that came in last, with `x`, is alone and at `f`; `w₀` was there before it, and `s` is how
far the sequential call has come. -/
structure During (x : Event) (w₀ : World) (s : State) (w : World) (n : Nat) (f : Frame)
    (c : Option (Nat × ThreadDesc)) : Prop where
  reach : Reach x n w₀ w
  call : w.calls n = some f
  alone : ∀ m ≠ n, w.calls m = none
  sim : Sim s w c
  number : n = w₀.nextCall
  nextCall : w.nextCall = w₀.nextCall + 1
  grants : w.grants = w₀.grants

/-- The call is over, and has been granted the area at `grant` or none. -/
structure Over (x : Event) (w₀ : World) (s : State) (w : World) (grant : Option Nat) : Prop where
  reach : Reach x w₀.nextCall w₀ w
  quiet : w.Quiet
  sim : Sim s w none
  nextCall : w.nextCall = w₀.nextCall + 1
  denied : grant = none → w.grants = w₀.grants
  granted : ∀ addr, grant = some addr →
    ∃ g : Grant, g.addr = addr ∧ w.grants = Function.update w₀.grants w₀.nextCall (some g)

namespace During

/-- What a call does alone is orderly. -/
theorem orderly (h : During x w₀ s w n f c) (ans : Answer)
    (hspare : ∀ a id, f.pc = .freeErase a id → (w.threads a).slot id ≠ some .reserved) :
    Orderly w (.step n ans) := by
  have honly : ∀ {m g}, w.calls m = some g → g = f := by
    intro m g hg
    by_cases hm : m = n
    · subst hm
      exact Option.some.inj (hg.symm.trans h.call)
    · rw [h.alone m hm] at hg
      cases hg
  refine ⟨⟨?_, ?_⟩, ?_⟩
  · intro f' a id t hf hpc _ m g hg
    rw [honly hg, ← honly hf, hpc]
    exact fun hnone ↦ absurd hnone.symm (Option.some_ne_none t)
  · intro f' a hf hpc m g hg
    rw [honly hg, ← honly hf, hpc]
    exact fun hnone ↦ absurd hnone.symm (Option.some_ne_none a)
  · intro f' a id hf hpc
    rw [honly hf] at hpc
    exact hspare a id hpc

theorem reach_step (h : During x w₀ s w n f c) (ok : Bool)
    (hspare : ∀ a id, f.pc = .freeErase a id → (w.threads a).slot id ≠ some .reserved)
    (hstep : stepCall w n f ⟨ok, 0⟩ = w₁) : Reach x n w₀ w₁ := by
  refine h.reach.snoc ⟨h.orderly ⟨ok, 0⟩ hspare, ?_⟩
  rw [Next, next, h.call, ← hstep]
  rfl

/-- The call goes on. -/
theorem goto (h : During x w₀ s w n f c) (ok : Bool) {pc : Pc} (hsim : Sim s' w₁ c')
    (hspare : ∀ a id, f.pc = .freeErase a id → (w.threads a).slot id ≠ some .reserved)
    (hstep : stepCall w n f ⟨ok, 0⟩ = w₁.goto n f pc) (hcalls : w₁.calls = w.calls)
    (hnext : w₁.nextCall = w.nextCall) (hgrants : w₁.grants = w.grants) :
    During x w₀ s' (w₁.goto n f pc) n { f with pc := pc } c' where
  reach := h.reach_step ok hspare hstep
  call := Function.update_self _ _ _
  alone m hm := (Function.update_of_ne hm _ _).trans (hcalls ▸ h.alone m hm)
  sim := hsim.goto n f pc
  number := h.number
  nextCall := hnext.trans h.nextCall
  grants := hgrants.trans h.grants

theorem congr (h : During x w₀ s w n f c) (hsim : Sim s' w c') : During x w₀ s' w n f c' :=
  { h with sim := hsim }

theorem quiet (h : During x w₀ s w n f c) : (w.finish n).Quiet := by
  intro m
  by_cases hm : m = n
  · rw [hm]
    exact Function.update_self _ _ _
  · exact (Function.update_of_ne hm _ _).trans (h.alone m hm)

/-- The call returns. -/
theorem finish (h : During x w₀ s w n f c) (ok : Bool) (hsim : Sim s' w₁ none)
    (hspare : ∀ a id, f.pc = .freeErase a id → (w.threads a).slot id ≠ some .reserved)
    (hstep : stepCall w n f ⟨ok, 0⟩ = w₁.finish n) (hcalls : w₁.calls = w.calls)
    (hnext : w₁.nextCall = w.nextCall) (hgrants : w₁.grants = w.grants) : Over x w₀ s' (w₁.finish n) none where
  reach := h.number ▸ h.reach_step ok hspare hstep
  quiet m := by
    rw [World.finish, hcalls]
    exact h.quiet m
  sim := hsim.finish n
  nextCall := hnext.trans h.nextCall
  denied _ := hgrants.trans h.grants
  granted addr hsome := absurd hsome.symm (Option.some_ne_none addr)

/-- The call comes in. -/
theorem enter (h : Sim s w none) (hq : w.Quiet) (pid g : Nat) (entry : Entry) (hentry : entry.destroys = ∅) :
    ∃ w', During (.enter pid g entry) w s w' w.nextCall ⟨pid, g, entry.pc⟩ none := by
  refine ⟨_, ⟨[], Run.single ⟨⟨⟨trivial, ?_⟩, trivial⟩, rfl⟩⟩, ?_, ?_, ?_, rfl, rfl, rfl⟩
  · intro a ha
    rw [hentry] at ha
    exact absurd ha (Finset.notMem_empty a)
  · exact Function.update_self _ _ _
  · exact fun m hm ↦ (Function.update_of_ne hm _ _).trans (hq m)
  · refine { h with destroyed := ?_ }
    show w.destroyed ∪ entry.destroys = _
    rw [hentry, Finset.union_empty, h.destroyed]

/-- `alloc_destroy` comes in, and ends the registration. -/
theorem enterDestroy (h : Sim s w none) (hq : w.Quiet) (pid g : Nat) (hd : s.allocs a = some d)
    (hlt : a < s.nextAlloc) (hnd : a ∉ s.destroyed)
    (hs : s' = { s with saAllocators := s.saAllocators.erase d.tgid, destroyed := insert a s.destroyed }) :
    ∃ w', During (.enter pid g (.allocDestroy a)) w s' w' w.nextCall ⟨pid, g, .put a⟩ none := by
  obtain ⟨s₁, hs₁⟩ : ∃ s₁ : State, s₁ = { s with destroyed := insert a s.destroyed } := ⟨_, rfl⟩
  obtain ⟨w₁, h₁⟩ : ∃ w₁,
      During (.enter pid g (.allocDestroy a)) w s₁ w₁ w.nextCall ⟨pid, g, .destroyErase a⟩ none := by
    refine ⟨_, ⟨[], Run.single ⟨⟨⟨trivial, ?_⟩, trivial⟩, rfl⟩⟩, ?_, ?_, ?_, rfl,
      rfl, rfl⟩
    · intro b hb
      obtain rfl := Finset.mem_singleton.mp hb
      rw [h.nextAlloc, h.destroyed]
      exact ⟨hlt, hnd⟩
    · exact Function.update_self _ _ _
    · exact fun m hm ↦ (Function.update_of_ne hm _ _).trans (hq m)
    · rw [hs₁]
      refine { h with destroyed := ?_ }
      show w.destroyed ∪ {a} = insert a s.destroyed
      rw [h.destroyed, Finset.insert_eq, Finset.union_comm]
  have hd₁ : s₁.allocs a = some d := by rw [hs₁, hd]
  have hs' : s' = { s₁ with saAllocators := s₁.saAllocators.erase d.tgid } := by rw [hs, hs₁]
  exact ⟨_, h₁.goto true (h₁.sim.deregister hd₁ hs') (fun _ _ h ↦ Pc.noConfusion h) rfl rfl rfl rfl⟩

/-! ### `sa_alloc` -/

variable {pid g k : Nat} {ans : Answers}

theorem allocFind (h : During x w₀ s w n ⟨pid, g, .allocFind⟩ c) (hfind : s.allocFind g = some a) :
    ∃ w', During x w₀ s w' n ⟨pid, g, .allocGet a⟩ c := by
  have hreg : w.reg g = some a := (h.sim.find g).trans hfind
  refine ⟨_, h.goto true h.sim (fun _ _ h ↦ Pc.noConfusion h) ?_ rfl rfl rfl⟩
  simp only [stepCall, stepAlloc, hreg]

theorem allocGet (h : During x w₀ s w n ⟨pid, g, .allocGet a⟩ c) (hd : s.allocs a = some d) (hk : d.kref ≠ 0) :
    ∃ w', During x w₀ (s.setAlloc a { d with kref := d.kref + 1 }) w' n ⟨pid, g, .allocReserve a⟩ c := by
  have hkref : w.kref a = d.kref := h.sim.kref a d hd
  refine ⟨_, h.goto true (h.sim.setKref hd (d.kref + 1)) (fun _ _ h ↦ Pc.noConfusion h) ?_ rfl rfl rfl⟩
  simp only [stepCall, stepAlloc, hkref, if_neg hk]

theorem allocReserve_fail (h : During x w₀ s w n ⟨pid, g, .allocReserve a⟩ c) :
    ∃ w', During x w₀ s w' n ⟨pid, g, .put a⟩ c := by
  refine ⟨_, h.goto false h.sim (fun _ _ h ↦ Pc.noConfusion h) ?_ rfl rfl rfl⟩
  simp only [stepCall, stepAlloc]
  split <;> rfl

theorem allocReserve (h : During x w₀ s w n ⟨pid, g, .allocReserve a⟩ c) (hd : s.allocs a = some d)
    (hlow : d.threads.lowestFree 0 threadsLimit = some id) :
    ∃ w', During x w₀ (s.setAlloc a { d with threads := d.threads.set id .reserved }) w' n
      ⟨pid, g, .allocThread a id⟩ c := by
  have hlow' : (w.threads a).lowestFree 0 threadsLimit = some id := by
    obtain ⟨hlo, hhi, hfree, hbelow⟩ := Xarray.lowestFree_eq_some hlow
    have hsame := fun i ↦ (h.sim.slot a d i hd).isNone
    exact Xarray.lowestFree_eq_of hlo hhi ((hsame id).mpr hfree) fun j hj hji hnone ↦
      hbelow j hj hji ((hsame j).mp hnone)
  refine ⟨_, h.goto true (h.sim.reserve hd id) (fun _ _ h ↦ Pc.noConfusion h) ?_ rfl rfl rfl⟩
  simp only [stepCall, stepAlloc, hlow', if_true]

theorem allocThread (h : During x w₀ s w n ⟨pid, g, .allocThread a id⟩ none) :
    ∃ w' t td, During x w₀ s w' n ⟨pid, g, .allocStack a id t⟩ (some (t, td)) := by
  refine ⟨_, w.nextDesc, _, h.goto true h.sim.kmalloc (fun _ _ h ↦ Pc.noConfusion h) ?_ rfl rfl rfl⟩
  simp only [stepCall, stepAlloc, if_true]

theorem allocStack (h : During x w₀ s w n ⟨pid, g, .allocStack a id t⟩ (some (t, td)))
    (hs : s.glAllocStack ans = some (pl, s')) :
    ∃ w', During x w₀ s' w' n ⟨pid, g, .allocMap a id t⟩ (some (t, ⟨pid, idToAddr id, pl⟩)) := by
  obtain ⟨w₁, hw₁, hsim, hcalls, hnext, hgrants⟩ := h.sim.glAllocStack hs
  refine ⟨_, h.goto true (hsim.setDesc _) (fun _ _ h ↦ Pc.noConfusion h) ?_ hcalls hnext hgrants⟩
  simp only [stepCall, stepAlloc, hw₁]

/-- The mapping succeeds, -/
theorem allocMap (h : During x w₀ s w n ⟨pid, g, .allocMap a id t⟩ c) (hsim : Sim s' w c) :
    ∃ w', During x w₀ s' w' n ⟨pid, g, .allocMax a id t⟩ c := by
  refine ⟨_, h.goto true hsim (fun _ _ h ↦ Pc.noConfusion h) ?_ rfl rfl rfl⟩
  simp only [stepCall, stepAlloc, if_true]

/-- or fails. -/
theorem allocMap_fail (h : During x w₀ s w n ⟨pid, g, .allocMap a id t⟩ c) (hsim : Sim s' w c) :
    ∃ w', During x w₀ s' w' n ⟨pid, g, .allocGlFree a id t⟩ c := by
  refine ⟨_, h.goto false hsim (fun _ _ h ↦ Pc.noConfusion h) ?_ rfl rfl rfl⟩
  simp only [stepCall, stepAlloc, Bool.false_eq_true, if_false]

theorem allocMax (h : During x w₀ s w n ⟨pid, g, .allocMax a id t⟩ c) (hd : s.allocs a = some d) :
    ∃ w', During x w₀ (s.setAlloc a { d with maxId := max d.maxId id }) w' n ⟨pid, g, .allocStore a id t⟩ c :=
  ⟨_, h.goto true (h.sim.raiseMax hd id) (fun _ _ h ↦ Pc.noConfusion h) rfl rfl rfl rfl⟩

/-- The store, and the read of the address that is returned. -/
theorem allocStore (h : During x w₀ s w n ⟨pid, g, .allocStore a id t⟩ (some (t, td))) (hd : s.allocs a = some d) :
    ∃ w', Over x w₀ (s.setAlloc a { d with threads := d.threads.set id (.entry td) }) w' (some td.addr) := by
  have hdesc : w.descs t = some td := (h.sim.cargo (t, td) rfl).1
  have hstep : stepCall w n ⟨pid, g, .allocStore a id t⟩ ⟨true, 0⟩ =
      (w.setThreads a ((w.threads a).set id (.entry t))).goto n ⟨pid, g, .allocStore a id t⟩
        (.allocRead a id t) := by
    simp only [stepCall, stepAlloc, Bool.true_or, if_true]
  have hstore := h.goto true (h.sim.publish hd id) (fun _ _ h ↦ Pc.noConfusion h) hstep rfl rfl rfl
  have haddr : w.addr t 0 = td.addr := by rw [World.addr, hdesc]
  obtain rfl := h.number
  refine ⟨_, hstore.reach_step true (fun _ _ h ↦ Pc.noConfusion h) rfl, ?_, { hstore.sim with },
    h.nextCall, ?_, ?_⟩
  · exact hstore.quiet
  · exact fun hnone ↦ absurd hnone (Option.some_ne_none _)
  · intro addr haddr'
    refine ⟨⟨a, id, t, w.addr t 0⟩, haddr.trans (Option.some.inj haddr'), ?_⟩
    rw [← h.grants]
    rfl

theorem allocGlFree (h : During x w₀ s w n ⟨pid, g, .allocGlFree a id t⟩ (some (t, td))) :
    ∃ w', During x w₀ (s.glFree td.pagelist) w' n ⟨pid, g, .allocKfree a id t⟩ (some (t, td)) := by
  have hpl : w.pagelist t 0 = td.pagelist := by rw [World.pagelist, (h.sim.cargo (t, td) rfl).1]
  refine ⟨_, h.goto true (h.sim.glFree td.pagelist) (fun _ _ h ↦ Pc.noConfusion h) ?_ ?_ ?_ ?_⟩
  · simp only [stepCall, stepAlloc, hpl]
  all_goals
    rw [World.glFree]
    split <;> rfl

theorem allocKfree (h : During x w₀ s w n ⟨pid, g, .allocKfree a id t⟩ (some (t, td))) :
    ∃ w', During x w₀ s w' n ⟨pid, g, .allocErase a id⟩ none :=
  ⟨_, h.goto true h.sim.kfree (fun _ _ h ↦ Pc.noConfusion h) rfl rfl rfl rfl⟩

theorem allocErase (h : During x w₀ s w n ⟨pid, g, .allocErase a id⟩ c) (hd : s.allocs a = some d) :
    ∃ w', During x w₀ (s.setAlloc a { d with threads := d.threads.erase id }) w' n ⟨pid, g, .put a⟩ c :=
  ⟨_, h.goto true (h.sim.erase hd id) (fun _ _ h ↦ Pc.noConfusion h) rfl rfl rfl rfl⟩

/-! ### `sa_fork` -/

variable {pt pp : Nat} {parent : AllocPtr}

theorem forkFind (h : During x w₀ s w n ⟨pid, g, .forkFind pt pp⟩ c) (hfind : s.allocFind g = some a) :
    ∃ w', During x w₀ s w' n ⟨pid, g, .forkGet a pt pp⟩ c := by
  have hreg : w.reg g = some a := (h.sim.find g).trans hfind
  refine ⟨_, h.goto true h.sim (fun _ _ h ↦ Pc.noConfusion h) ?_ rfl rfl rfl⟩
  simp only [stepCall, stepFork, hreg]

theorem forkGet (h : During x w₀ s w n ⟨pid, g, .forkGet a pt pp⟩ c) (hd : s.allocs a = some d) (hk : d.kref ≠ 0) :
    ∃ w', During x w₀ (s.setAlloc a { d with kref := d.kref + 1 }) w' n ⟨pid, g, .forkParent a pt pp⟩ c := by
  have hkref : w.kref a = d.kref := h.sim.kref a d hd
  refine ⟨_, h.goto true (h.sim.setKref hd (d.kref + 1)) (fun _ _ h ↦ Pc.noConfusion h) ?_ rfl rfl rfl⟩
  simp only [stepCall, stepFork, hkref, if_neg hk]

theorem forkParent_none (h : During x w₀ s w n ⟨pid, g, .forkParent a pt pp⟩ c) (hfind : s.allocFind pt = none) :
    ∃ w', During x w₀ s w' n ⟨pid, g, .put a⟩ c := by
  have hreg : w.reg pt = none := (h.sim.find pt).trans hfind
  refine ⟨_, h.goto true h.sim (fun _ _ h ↦ Pc.noConfusion h) ?_ rfl rfl rfl⟩
  simp only [stepCall, stepFork, hreg]

theorem forkParent (h : During x w₀ s w n ⟨pid, g, .forkParent a pt pp⟩ c) (hfind : s.allocFind pt = some parent) :
    ∃ w', During x w₀ s w' n ⟨pid, g, .forkThread a parent pp⟩ c := by
  have hreg : w.reg pt = some parent := (h.sim.find pt).trans hfind
  refine ⟨_, h.goto true h.sim (fun _ _ h ↦ Pc.noConfusion h) ?_ rfl rfl rfl⟩
  simp only [stepCall, stepFork, hreg]

theorem forkThread_fail (h : During x w₀ s w n ⟨pid, g, .forkThread a parent pp⟩ c) :
    ∃ w', During x w₀ s w' n ⟨pid, g, .put a⟩ c := by
  refine ⟨_, h.goto false h.sim (fun _ _ h ↦ Pc.noConfusion h) ?_ rfl rfl rfl⟩
  simp only [stepCall, stepFork, Bool.false_eq_true, if_false]

theorem forkThread (h : During x w₀ s w n ⟨pid, g, .forkThread a parent pp⟩ none) :
    ∃ w' t td, During x w₀ s w' n ⟨pid, g, .forkStack a parent pp t⟩ (some (t, td)) := by
  refine ⟨_, w.nextDesc, _, h.goto true h.sim.kmalloc (fun _ _ h ↦ Pc.noConfusion h) ?_ rfl rfl rfl⟩
  simp only [stepCall, stepFork, if_true]

theorem forkStack (h : During x w₀ s w n ⟨pid, g, .forkStack a parent pp t⟩ c)
    (hs : s.glAllocStack ans = some (pl, s')) :
    ∃ w', During x w₀ s' w' n ⟨pid, g, .forkScan a parent pp t pl .lock⟩ c := by
  obtain ⟨w₁, hw₁, hsim, hcalls, hnext, hgrants⟩ := h.sim.glAllocStack hs
  refine ⟨_, h.goto true hsim (fun _ _ h ↦ Pc.noConfusion h) ?_ hcalls hnext hgrants⟩
  simp only [stepCall, stepFork, hw₁]

/-- A step of the scan. -/
theorem scans {y : Scan} {pc : Pc} (h : During x w₀ s w n ⟨pid, g, .forkScan a parent pp t pl y⟩ c)
    (hpc : w.scan a parent pp t pl 0 y = pc) :
    During x w₀ s (w.goto n ⟨pid, g, .forkScan a parent pp t pl y⟩ pc) n ⟨pid, g, pc⟩ c := by
  refine h.goto true h.sim (fun _ _ h ↦ Pc.noConfusion h) ?_ rfl rfl rfl
  simp only [stepCall, stepFork, hpc]

/-- The pages are copied, one after another. -/
theorem copies {i t' j m : Nat} (h : During x w₀ s w n ⟨pid, g, .forkScan a parent pp t pl (.copy i t' j)⟩ c)
    (hm : w.nrPages (w.pagelist t' 0) 0 ≤ j + m) :
    ∃ w', During x w₀ s w' n ⟨pid, g, .forkScan a parent pp t pl (.unlock (some i))⟩ c := by
  induction m generalizing w j with
  | zero => exact ⟨_, h.scans (if_neg (Nat.not_lt.mpr hm))⟩
  | succ m ih =>
      by_cases hj : j < w.nrPages (w.pagelist t' 0) 0
      · have hm₁ : w.nrPages (w.pagelist t' 0) 0 ≤ j + 1 + m := by omega
        exact ih (h.scans (if_pos hj)) hm₁
      · exact ⟨_, h.scans (if_neg hj)⟩

/-- The scan comes to an end, -/
theorem ends {i b : Nat} (h : During x w₀ s w n ⟨pid, g, .forkScan a parent pp t pl (.next i)⟩ c)
    (hb : ∀ j t', (w.threads parent).load j = some t' → j < b) :
    ∃ w' found, During x w₀ s w' n ⟨pid, g, .forkScan a parent pp t pl (.unlock found)⟩ c := by
  induction hm : b - i using Nat.strong_induction_on generalizing w i with
  | _ m ih =>
      cases hnext : (w.threads parent).next i with
      | none => exact ⟨_, none, h.scans (by simp only [World.scan, hnext])⟩
      | some r =>
          obtain ⟨j, t'⟩ := r
          obtain ⟨hij, hload, -⟩ := Xarray.next_eq_some hnext
          have hjb := hb j t' hload
          have h₁ : During x w₀ s _ n ⟨pid, g, .forkScan a parent pp t pl (.tid j t')⟩ c :=
            h.scans (by simp only [World.scan, hnext])
          by_cases htid : w.tid t' 0 = pp
          · obtain ⟨w', h₂⟩ := (h₁.scans (if_pos htid)).copies (Nat.le_add_left _ _)
            exact ⟨w', some j, h₂⟩
          · exact ih (b - (j + 1)) (by omega) (h₁.scans (if_neg htid)) hb rfl

/-- and at the first thread of the parent that is `pp`, if there is one. -/
theorem finds {i : Nat} (h : During x w₀ s w n ⟨pid, g, .forkScan a parent pp t pl (.next i)⟩ c)
    {dp : AllocatorDesc} (hdp : s.allocs parent = some dp) {tdp : ThreadDesc}
    (hfind : (dp.threads.find? fun t ↦ t.tid == pp) = some (id, tdp)) (hi : i ≤ id) :
    ∃ w', During x w₀ s w' n ⟨pid, g, .forkScan a parent pp t pl (.unlock (some id))⟩ c := by
  obtain ⟨hload, htid, hbelow⟩ := Xarray.find?_eq_some hfind
  induction hm : id - i using Nat.strong_induction_on generalizing w i with
  | _ m ih =>
      obtain ⟨j, t', td', hnext, hij, hjid, hj, hdesc⟩ := h.sim.next hdp hi hload
      have h₁ : During x w₀ s _ n ⟨pid, g, .forkScan a parent pp t pl (.tid j t')⟩ c :=
        h.scans (by simp only [World.scan, hnext])
      have htid' : w.tid t' 0 = td'.tid := by rw [World.tid, hdesc]
      by_cases heq : td'.tid = pp
      · obtain rfl : j = id := by
          by_contra hne
          exact hbelow j (by omega) td' hj (beq_iff_eq.mpr heq)
        exact (h₁.scans (if_pos (htid'.trans heq))).copies (Nat.le_add_left _ _)
      · have hne : j ≠ id := by
          rintro rfl
          obtain rfl : tdp = td' := Option.some.inj (hload.symm.trans hj)
          exact heq (beq_iff_eq.mp htid)
        have h₂ := h₁.scans (if_neg (htid' ▸ heq))
        exact ih (id - (j + 1)) (by omega) h₂ (by omega) rfl

/-- Whatever the scan finds, the call can fail after it. -/
theorem forkScan_fail (h : During x w₀ s w n ⟨pid, g, .forkScan a parent pp t pl .lock⟩ (some (t, td))) :
    ∃ w' td', During x w₀ s w' n ⟨pid, g, .forkGlFree a t pl⟩ (some (t, td')) := by
  obtain ⟨b, hbound⟩ := (w.threads parent).exists_bound
  obtain ⟨w₁, found, h₁⟩ := (h.scans rfl).ends hbound
  cases found with
  | none => exact ⟨_, td, h₁.scans rfl⟩
  | some i =>
      have hinsert : During x w₀ s _ n ⟨pid, g, .forkInsert a i t pl⟩ (some (t, td)) := h₁.scans rfl
      refine ⟨_, _, hinsert.goto false (hinsert.sim.setDesc ⟨pid, idToAddr i, pl⟩)
        (fun _ _ h ↦ Pc.noConfusion h) ?_ rfl rfl rfl⟩
      simp only [stepCall, stepFork, Bool.false_and, Bool.false_eq_true, if_false]

theorem forkScan (h : During x w₀ s w n ⟨pid, g, .forkScan a parent pp t pl .lock⟩ c) {dp : AllocatorDesc}
    (hdp : s.allocs parent = some dp) {tdp : ThreadDesc}
    (hfind : (dp.threads.find? fun t ↦ t.tid == pp) = some (id, tdp)) :
    ∃ w', During x w₀ s w' n ⟨pid, g, .forkInsert a id t pl⟩ c := by
  obtain ⟨w₁, h₁⟩ := (h.scans rfl).finds hdp hfind (Nat.zero_le _)
  exact ⟨_, h₁.scans rfl⟩

theorem forkInsert (h : During x w₀ s w n ⟨pid, g, .forkInsert a id t pl⟩ (some (t, td)))
    (hd : s.allocs a = some d) (hfree : d.threads.slot id = none) :
    ∃ w', During x w₀ (s.setAlloc a { d with threads := d.threads.set id (.entry ⟨pid, idToAddr id, pl⟩) }) w' n
      ⟨pid, g, .forkMap a id t pl⟩ none := by
  have hslot : (w.threads a).slot id = none := (h.sim.slot a d id hd).isNone.mpr hfree
  refine ⟨_, h.goto true ((h.sim.setDesc ⟨pid, idToAddr id, pl⟩).publish hd id)
    (fun _ _ h ↦ Pc.noConfusion h) ?_ rfl rfl rfl⟩
  have hfree' : ((w.setDesc t (some ⟨pid, idToAddr id, pl⟩)).threads a).slot id = none := hslot
  simp only [stepCall, stepFork, hfree', Option.isNone_none, Bool.and_self, if_true]

theorem forkMap (h : During x w₀ s w n ⟨pid, g, .forkMap a id t pl⟩ c) (hsim : Sim s' w c) :
    ∃ w', During x w₀ s' w' n ⟨pid, g, .forkMax a id t⟩ c := by
  refine ⟨_, h.goto true hsim (fun _ _ h ↦ Pc.noConfusion h) ?_ rfl rfl rfl⟩
  simp only [stepCall, stepFork, if_true]

theorem forkMax (h : During x w₀ s w n ⟨pid, g, .forkMax a id t⟩ none) (hd : s.allocs a = some d) :
    ∃ w', Over x w₀ (s.setAlloc a { d with maxId := max d.maxId id }) w' none :=
  ⟨_, h.finish true (h.sim.raiseMax hd id) (fun _ _ h ↦ Pc.noConfusion h) rfl rfl rfl rfl⟩

theorem forkGlFree (h : During x w₀ s w n ⟨pid, g, .forkGlFree a t pl⟩ c) :
    ∃ w', During x w₀ (s.glFree pl) w' n ⟨pid, g, .forkKfree a t⟩ c := by
  refine ⟨_, h.goto true (h.sim.glFree pl) (fun _ _ h ↦ Pc.noConfusion h) ?_ ?_ ?_ ?_⟩
  · simp only [stepCall, stepFork]
  all_goals
    rw [World.glFree]
    split <;> rfl

theorem forkKfree (h : During x w₀ s w n ⟨pid, g, .forkKfree a t⟩ (some (t, td))) :
    ∃ w', During x w₀ s w' n ⟨pid, g, .put a⟩ none :=
  ⟨_, h.goto true h.sim.kfree (fun _ _ h ↦ Pc.noConfusion h) rfl rfl rfl rfl⟩

/-! ### `sa_free` -/

variable {addr : Nat}

theorem freeFind (h : During x w₀ s w n ⟨pid, g, .freeFind addr⟩ c) (hv : ValidAddr addr)
    (hfind : s.allocFind g = some a) : ∃ w', During x w₀ s w' n ⟨pid, g, .freeErase a (addrToId addr)⟩ c := by
  have hreg : w.reg g = some a := (h.sim.find g).trans hfind
  have hv' : ¬ (addr < ssStart ∨ ssEnd ≤ addr ∨ (addr - ssStart) % ssSize ≠ 0) := by
    simp only [not_or, not_lt, not_le, ne_eq, not_not]
    exact hv
  refine ⟨_, h.goto true h.sim (fun _ _ h ↦ Pc.noConfusion h) ?_ rfl rfl rfl⟩
  simp only [stepCall, stepFree, if_neg hv', hreg]

/-- Nobody reads the table that `sa_free` locks. -/
theorem unlocked (h : During x w₀ s w n ⟨pid, g, .freeErase a id⟩ c) : w.readLocked a = false := by
  refine List.any_eq_false.mpr fun m _ ↦ ?_
  by_cases hm : m = n
  · rw [hm, h.call]
    exact Bool.false_ne_true
  · rw [h.alone m hm]
    exact Bool.false_ne_true

theorem freeErase_none (h : During x w₀ s w n ⟨pid, g, .freeErase a id⟩ none) (hd : s.allocs a = some d)
    (hslot : d.threads.slot id = none) :
    ∃ w', Over x w₀ (s.setAlloc a { d with threads := d.threads.erase id }) w' none := by
  have hslot' : (w.threads a).slot id = none := (h.sim.slot a d id hd).isNone.mpr hslot
  refine ⟨_, h.finish true (h.sim.erase hd id) ?_ ?_ rfl rfl rfl⟩
  · intro a' id' hpc
    obtain ⟨rfl, rfl⟩ := Pc.freeErase.inj hpc
    rw [hslot']
    exact fun hnone ↦ absurd hnone.symm (Option.some_ne_none _)
  · have hload : (w.threads a).load id = none := by rw [Xarray.load, hslot']
    simp only [stepCall, stepFree, h.unlocked, Bool.false_eq_true, if_false, hload]

/-- `sa_free` takes the descriptor.  It is in no other slot, or its pagelist would have two owners. -/
theorem freeErase {own : List PlPtr} (h : During x w₀ s w n ⟨pid, g, .freeErase a id⟩ none) (hown : OwnersOk s own)
    (hd : s.allocs a = some d) (hload : d.threads.load id = some td) :
    ∃ w' t, During x w₀ (s.setAlloc a { d with threads := d.threads.erase id }) w' n ⟨pid, g, .freeUnmap a t⟩
      (some (t, td)) := by
  have hsame := h.sim.slot a d id hd
  rw [Xarray.load_eq_some.mp hload] at hsame
  obtain ⟨t, hslot, hdesc⟩ := hsame.of_entry
  have honly : ∀ b d' i, s.allocs b = some d' → (w.threads b).slot i = some (.entry t) → b = a ∧ i = id := by
    intro b d' i hb hentry
    have hsame' := h.sim.slot b d' i hb
    rw [hentry] at hsame'
    obtain ⟨td', hslot', hdesc'⟩ := hsame'.entry_inv
    obtain rfl : td = td' := Option.some.inj (hdesc.symm.trans hdesc')
    have ho : s.Owns own (.desc a id) td.pagelist := ⟨td, by rwa [State.threads_eq hd], rfl⟩
    have ho' : s.Owns own (.desc b i) td.pagelist :=
      ⟨td, by rw [State.threads_eq hb, Xarray.load_eq_some.mpr hslot'], rfl⟩
    obtain ⟨rfl, rfl⟩ := Owner.desc.inj (hown.unique td.pagelist _ _ ho ho')
    exact ⟨rfl, rfl⟩
  have htake := h.sim.take hd hslot hdesc honly
  obtain ⟨w₁, hw₁⟩ : ∃ w₁, w₁ =
    { w.setThreads a ((w.threads a).erase id) with removed := insert t w.removed } := ⟨_, rfl⟩
  have hsim : Sim (s.setAlloc a { d with threads := d.threads.erase id }) w₁ (some (t, td)) := by
    rw [hw₁]
    exact { htake with }
  refine ⟨w₁.goto n ⟨pid, g, .freeErase a id⟩ (.freeUnmap a t), t, h.goto true hsim ?_ ?_ ?_ ?_ ?_⟩
  · intro a' id' hpc
    obtain ⟨rfl, rfl⟩ := Pc.freeErase.inj hpc
    rw [hslot]
    intro heq
    cases heq
  · simp only [stepCall, stepFree, h.unlocked, Bool.false_eq_true, if_false, Xarray.load_eq_some.mpr hslot,
      hw₁]
    rfl
  all_goals rw [hw₁]; rfl

theorem freeUnmap (h : During x w₀ s w n ⟨pid, g, .freeUnmap a t⟩ c) :
    ∃ w', During x w₀ s w' n ⟨pid, g, .freeGlFree a t⟩ c :=
  ⟨_, h.goto true h.sim (fun _ _ h ↦ Pc.noConfusion h) rfl rfl rfl rfl⟩

theorem freeGlFree (h : During x w₀ s w n ⟨pid, g, .freeGlFree a t⟩ (some (t, td))) :
    ∃ w', During x w₀ (s.glFree td.pagelist) w' n ⟨pid, g, .freeKfree a t⟩ (some (t, td)) := by
  have hpl : w.pagelist t 0 = td.pagelist := by rw [World.pagelist, (h.sim.cargo (t, td) rfl).1]
  refine ⟨_, h.goto true (h.sim.glFree td.pagelist) (fun _ _ h ↦ Pc.noConfusion h) ?_ ?_ ?_ ?_⟩
  · simp only [stepCall, stepFree, hpl]
  all_goals
    rw [World.glFree]
    split <;> rfl

theorem freeKfree (h : During x w₀ s w n ⟨pid, g, .freeKfree a t⟩ (some (t, td))) :
    ∃ w', During x w₀ s w' n ⟨pid, g, .put a⟩ none :=
  ⟨_, h.goto true h.sim.kfree (fun _ _ h ↦ Pc.noConfusion h) rfl rfl rfl rfl⟩

/-! ### `alloc_put` -/

theorem put (h : During x w₀ s w n ⟨pid, g, .put a⟩ none) (hd : s.allocs a = some { d with kref := k + 1 })
    (hk : k ≠ 0) : ∃ w', Over x w₀ (s.setAlloc a { d with kref := k }) w' none := by
  have hkref : w.kref a = k + 1 := h.sim.kref a _ hd
  refine ⟨_, h.finish true (h.sim.setKref hd k) (fun _ _ h ↦ Pc.noConfusion h) ?_ rfl rfl rfl⟩
  simp only [stepCall, stepFree, hkref, if_neg (show ¬k + 1 = 1 by omega), Nat.add_sub_cancel]

/-- The last reference. -/
theorem put_last (h : During x w₀ s w n ⟨pid, g, .put a⟩ none) (hd : s.allocs a = some d) (hk : d.kref = 1)
    (hlt : a < s.nextAlloc) (hs : s' = { s with allocs := Function.update s.allocs a none }) :
    ∃ w', Over x w₀ s' w' none := by
  have hkref : w.kref a = 1 := (h.sim.kref a d hd).trans hk
  have hstep : stepCall w n ⟨pid, g, .put a⟩ ⟨true, 0⟩ =
      (w.setKref a 0).goto n ⟨pid, g, .put a⟩ (.callback a) := by
    simp only [stepCall, stepFree, hkref, if_true]
  have hlast := h.goto true (h.sim.setKref hd 0) (fun _ _ h ↦ Pc.noConfusion h) hstep rfl rfl rfl
  have hs' : s' = { s.setAlloc a { d with kref := 0 } with
      allocs := Function.update (s.setAlloc a { d with kref := 0 }).allocs a none } := by
    rw [hs, State.setAlloc, Function.update_idem]
  exact ⟨_, hlast.finish true (hlast.sim.bury hlt hs') (fun _ _ h ↦ Pc.noConfusion h) rfl rfl rfl rfl⟩

end During

/-! ## The calls -/

section Calls

variable {cur : Task} {ans : Answers}

theorem Sim.mapArea (h : Sim s w c) (mm : MmId) (addr : Nat) (pl : PlPtr) (ans : Answers) :
    Sim (s.mapArea mm addr pl ans).1 w c := h.congr rfl rfl rfl rfl rfl rfl rfl

theorem stack_setAlloc {mm : MmId} {s₁ : State} (hm : Maps s cur ans mm a d pl s₁) (e : AllocatorDesc) :
    (s.setAlloc a e).glAllocStack ans = some (pl, s₁.setAlloc a e) := by
  rw [State.glAllocStack_setAlloc, hm.stack, Option.map_some]

/-- A call that takes a reference, and gives it back. -/
theorem solo_alloc_fail (h : Sim s w none) (hq : w.Quiet) (pid g : Nat)
    (hlive : ∀ a, s.allocFind g = some a → ∃ d, s.allocs a = some d ∧ d.kref ≠ 0) :
    ∃ w', Over (.enter pid g .saAlloc) w s w' none := by
  obtain ⟨w₁, h₁⟩ := During.enter h hq pid g .saAlloc rfl
  cases hfind : s.allocFind g with
  | none =>
      have hreg : w₁.reg g = none := (h₁.sim.find g).trans hfind
      refine ⟨_, h₁.finish true h₁.sim (fun _ _ h ↦ Pc.noConfusion h) ?_ rfl rfl rfl⟩
      simp only [Entry.pc, stepCall, stepAlloc, hreg]
  | some a =>
      obtain ⟨d, hd, hk⟩ := hlive a hfind
      obtain ⟨w₂, h₂⟩ := h₁.allocFind hfind
      obtain ⟨w₃, h₃⟩ := h₂.allocGet hd hk
      obtain ⟨w₄, h₄⟩ := h₃.allocReserve_fail
      obtain ⟨w₅, h₅⟩ := h₄.put State.setAlloc_allocs hk
      rw [State.setAlloc_setAlloc, State.setAlloc_self hd] at h₅
      exact ⟨w₅, h₅⟩

/-- `sa_alloc` up to `map_range`. -/
theorem solo_alloc_maps (h : Sim s w none) (hq : w.Quiet) {mm : MmId} {s₁ : State}
    (hm : Maps s cur ans mm a d pl s₁) (hlow : d.threads.lowestFree 0 threadsLimit = some id) :
    ∃ w' t, During (.enter cur.pid cur.tgid .saAlloc) w
      (s₁.setAlloc a { d with kref := d.kref + 1, threads := d.threads.set id .reserved }) w' w.nextCall
      ⟨cur.pid, cur.tgid, .allocMap a id t⟩ (some (t, ⟨cur.pid, idToAddr id, pl⟩)) := by
  obtain ⟨w₁, h₁⟩ := During.enter h hq cur.pid cur.tgid .saAlloc rfl
  obtain ⟨w₂, h₂⟩ := h₁.allocFind hm.find
  obtain ⟨w₃, h₃⟩ := h₂.allocGet hm.alloc hm.kref
  obtain ⟨w₄, h₄⟩ := h₃.allocReserve State.setAlloc_allocs hlow
  rw [State.setAlloc_setAlloc] at h₄
  obtain ⟨w₅, t, td, h₅⟩ := h₄.allocThread
  have hstack := stack_setAlloc hm { d with kref := d.kref + 1, threads := d.threads.set id .reserved }
  obtain ⟨w₆, h₆⟩ := h₅.allocStack hstack
  exact ⟨w₆, t, h₆⟩

/-- `sa_alloc` when the mapping succeeds, -/
theorem solo_alloc_map (h : Sim s w none) (hq : w.Quiet) {mm : MmId} {s₁ : State}
    (hm : Maps s cur ans mm a d pl s₁) (hlow : d.threads.lowestFree 0 threadsLimit = some id) :
    ∃ w', Over (.enter cur.pid cur.tgid .saAlloc) w
      ((s₁.mapArea mm (idToAddr id) pl ans).1.setAlloc a (d.add id ⟨cur.pid, idToAddr id, pl⟩)) w'
      (some (idToAddr id)) := by
  obtain ⟨w₁, t, h₁⟩ := solo_alloc_maps h hq hm hlow
  obtain ⟨d₁, hd₁⟩ : ∃ d₁ : AllocatorDesc,
    d₁ = { d with kref := d.kref + 1, threads := d.threads.set id .reserved } := ⟨_, rfl⟩
  rw [← hd₁] at h₁
  have hsim : Sim ((s₁.mapArea mm (idToAddr id) pl ans).1.setAlloc a d₁) w₁ _ :=
    h₁.sim.congr rfl rfl rfl rfl rfl rfl rfl
  obtain ⟨w₂, h₂⟩ := h₁.allocMap hsim
  obtain ⟨w₃, h₃⟩ := h₂.allocMax State.setAlloc_allocs
  rw [State.setAlloc_setAlloc] at h₃
  obtain ⟨w₄, h₄⟩ := h₃.allocStore State.setAlloc_allocs
  rw [State.setAlloc_setAlloc] at h₄
  simp only [hd₁, Xarray.set_set] at h₄
  exact ⟨w₄, h₄⟩

/-- and when it fails. -/
theorem solo_alloc_map_fail (h : Sim s w none) (hq : w.Quiet) {mm : MmId} {s₁ : State}
    (hm : Maps s cur ans mm a d pl s₁) (hlow : d.threads.lowestFree 0 threadsLimit = some id) :
    ∃ w', Over (.enter cur.pid cur.tgid .saAlloc) w ((s₁.mapArea mm (idToAddr id) pl ans).1.glFree pl) w'
      none := by
  obtain ⟨w₁, t, h₁⟩ := solo_alloc_maps h hq hm hlow
  obtain ⟨d₁, hd₁⟩ : ∃ d₁ : AllocatorDesc,
    d₁ = { d with kref := d.kref + 1, threads := d.threads.set id .reserved } := ⟨_, rfl⟩
  rw [← hd₁] at h₁
  have hsim : Sim ((s₁.mapArea mm (idToAddr id) pl ans).1.setAlloc a d₁) w₁ _ :=
    h₁.sim.congr rfl rfl rfl rfl rfl rfl rfl
  obtain ⟨w₂, h₂⟩ := h₁.allocMap_fail hsim
  obtain ⟨w₃, h₃⟩ := h₂.allocGlFree
  rw [State.glFree_setAlloc] at h₃
  obtain ⟨w₄, h₄⟩ := h₃.allocKfree
  obtain ⟨w₅, h₅⟩ := h₄.allocErase State.setAlloc_allocs
  have hfree := (Xarray.lowestFree_eq_some hlow).2.2.1
  simp only [State.setAlloc_setAlloc, hd₁, Xarray.erase_set hfree] at h₅
  obtain ⟨w₆, h₆⟩ := h₅.put State.setAlloc_allocs hm.kref
  have hd : ((s₁.mapArea mm (idToAddr id) pl ans).1.glFree pl).allocs a = some d := by
    rw [State.glFree_allocs, State.mapArea_allocs, State.glAllocStack_allocs hm.stack, hm.alloc]
  rw [State.setAlloc_setAlloc, State.setAlloc_self hd] at h₆
  exact ⟨w₆, h₆⟩

/-- An `sa_fork` that takes no pagelist. -/
theorem solo_fork_fail (h : Sim s w none) (hq : w.Quiet) (pid g pt pp : Nat)
    (hlive : ∀ a, s.allocFind g = some a → ∃ d, s.allocs a = some d ∧ d.kref ≠ 0) :
    ∃ w', Over (.enter pid g (.saFork pt pp)) w s w' none := by
  obtain ⟨w₁, h₁⟩ := During.enter h hq pid g (.saFork pt pp) rfl
  cases hfind : s.allocFind g with
  | none =>
      have hreg : w₁.reg g = none := (h₁.sim.find g).trans hfind
      refine ⟨_, h₁.finish true h₁.sim (fun _ _ h ↦ Pc.noConfusion h) ?_ rfl rfl rfl⟩
      simp only [Entry.pc, stepCall, stepFork, hreg]
  | some a =>
      obtain ⟨d, hd, hk⟩ := hlive a hfind
      obtain ⟨w₂, h₂⟩ := h₁.forkFind hfind
      obtain ⟨w₃, h₃⟩ := h₂.forkGet hd hk
      have hput : ∃ w',
          During (.enter pid g (.saFork pt pp)) w (s.setAlloc a { d with kref := d.kref + 1 }) w' w.nextCall
            ⟨pid, g, .put a⟩ none := by
        cases hparent : s.allocFind pt with
        | none => exact h₃.forkParent_none hparent
        | some parent =>
            obtain ⟨w₄, h₄⟩ := h₃.forkParent hparent
            exact h₄.forkThread_fail
      obtain ⟨w₄, h₄⟩ := hput
      obtain ⟨w₅, h₅⟩ := h₄.put State.setAlloc_allocs hk
      rw [State.setAlloc_setAlloc, State.setAlloc_self hd] at h₅
      exact ⟨w₅, h₅⟩

/-- `sa_fork` up to the search for the parent's thread. -/
theorem solo_fork_scans (h : Sim s w none) (hq : w.Quiet) {mm : MmId} {s₁ : State} {pt : Nat} (pp : Nat)
    {parent : AllocPtr} (hm : Maps s cur ans mm a d pl s₁) (hparent : s.allocFind pt = some parent) :
    ∃ w' t td, During (.enter cur.pid cur.tgid (.saFork pt pp)) w (s₁.setAlloc a { d with kref := d.kref + 1 })
      w' w.nextCall ⟨cur.pid, cur.tgid, .forkScan a parent pp t pl .lock⟩ (some (t, td)) := by
  obtain ⟨w₁, h₁⟩ := During.enter h hq cur.pid cur.tgid (.saFork pt pp) rfl
  obtain ⟨w₂, h₂⟩ := h₁.forkFind hm.find
  obtain ⟨w₃, h₃⟩ := h₂.forkGet hm.alloc hm.kref
  obtain ⟨w₄, h₄⟩ := h₃.forkParent hparent
  obtain ⟨w₅, t, td, h₅⟩ := h₄.forkThread
  obtain ⟨w₆, h₆⟩ := h₅.forkStack (stack_setAlloc hm { d with kref := d.kref + 1 })
  exact ⟨w₆, t, td, h₆⟩

/-- `sa_fork` that gives its pagelist back; the page tables and pages of `s₂` are not compared. -/
theorem solo_fork_back (h : Sim s w none) (hq : w.Quiet) {mm : MmId} {s₁ s₂ : State} {pt : Nat} (pp : Nat)
    {parent : AllocPtr} (hm : Maps s cur ans mm a d pl s₁) (hparent : s.allocFind pt = some parent)
    (hsame : ∀ {w c}, Sim (s₁.setAlloc a { d with kref := d.kref + 1 }) w c →
      Sim (s₂.setAlloc a { d with kref := d.kref + 1 }) w c)
    (hallocs : s₂.allocs = s₁.allocs) :
    ∃ w', Over (.enter cur.pid cur.tgid (.saFork pt pp)) w (s₂.glFree pl) w' none := by
  obtain ⟨w₁, t, td, h₁⟩ := solo_fork_scans h hq pp hm hparent
  obtain ⟨w₂, td', h₂⟩ := h₁.forkScan_fail
  have h₂' := h₂.congr (hsame h₂.sim)
  obtain ⟨w₃, h₃⟩ := h₂'.forkGlFree
  rw [State.glFree_setAlloc] at h₃
  obtain ⟨w₄, h₄⟩ := h₃.forkKfree
  obtain ⟨w₅, h₅⟩ := h₄.put State.setAlloc_allocs hm.kref
  have hd : (s₂.glFree pl).allocs a = some d := by
    rw [State.glFree_allocs, hallocs, State.glAllocStack_allocs hm.stack, hm.alloc]
  rw [State.setAlloc_setAlloc, State.setAlloc_self hd] at h₅
  exact ⟨w₅, h₅⟩

/-- `sa_fork` when all goes well. -/
theorem solo_fork_map (h : Sim s w none) (hq : w.Quiet) {mm : MmId} {s₁ s₂ : State} {pt pp : Nat}
    {parent : AllocPtr} {tdp : ThreadDesc} (hm : Maps s cur ans mm a d pl s₁)
    (hparent : s.allocFind pt = some parent)
    (hfind : ((s.threads parent).find? fun t ↦ t.tid == pp) = some (id, tdp)) (hfree : d.threads.slot id = none)
    (hsame : ∀ {w c e}, Sim (s₁.setAlloc a e) w c → Sim (s₂.setAlloc a e) w c) :
    ∃ w', Over (.enter cur.pid cur.tgid (.saFork pt pp)) w
      (s₂.setAlloc a (d.add id ⟨cur.pid, idToAddr id, pl⟩)) w' none := by
  obtain ⟨w₁, t, td, h₁⟩ := solo_fork_scans h hq pp hm hparent
  obtain ⟨dp, hdp, hthreads⟩ : ∃ dp, (s₁.setAlloc a { d with kref := d.kref + 1 }).allocs parent = some dp ∧
      dp.threads = s.threads parent := by
    by_cases hpa : parent = a
    · rw [hpa]
      exact ⟨_, State.setAlloc_allocs, (State.threads_eq hm.alloc).symm⟩
    · rw [State.setAlloc_allocs_of_ne hpa, State.glAllocStack_allocs hm.stack]
      cases hdp : s.allocs parent with
      | none =>
          have hload := (Xarray.find?_eq_some hfind).1
          simp [State.threads, hdp] at hload
      | some dp => exact ⟨dp, rfl, (State.threads_eq hdp).symm⟩
  rw [← hthreads] at hfind
  obtain ⟨w₂, h₂⟩ := h₁.forkScan hdp hfind
  obtain ⟨w₃, h₃⟩ := h₂.forkInsert State.setAlloc_allocs hfree
  rw [State.setAlloc_setAlloc] at h₃
  obtain ⟨w₄, h₄⟩ := h₃.forkMap (hsame h₃.sim)
  obtain ⟨w₅, h₅⟩ := h₄.forkMax State.setAlloc_allocs
  rw [State.setAlloc_setAlloc] at h₅
  exact ⟨w₅, h₅⟩

/-! ### `sa_free` -/

/-- An `sa_free` that finds nothing. -/
theorem solo_free_fail (h : Sim s w none) (hq : w.Quiet) (pid g addr : Nat)
    (hnone : ValidAddr addr → ∀ a, s.allocFind g = some a →
      ∃ d, s.allocs a = some d ∧ d.threads.slot (addrToId addr) = none) :
    ∃ w', Over (.enter pid g (.saFree addr)) w s w' none := by
  obtain ⟨w₁, h₁⟩ := During.enter h hq pid g (.saFree addr) rfl
  by_cases hv : addr < ssStart ∨ ssEnd ≤ addr ∨ (addr - ssStart) % ssSize ≠ 0
  · refine ⟨_, h₁.finish true h₁.sim (fun _ _ h ↦ Pc.noConfusion h) ?_ rfl rfl rfl⟩
    simp only [Entry.pc, stepCall, stepFree, if_pos hv]
  have hvalid : ValidAddr addr := by
    simp only [not_or, not_lt, not_le, ne_eq, not_not] at hv
    exact hv
  cases hfind : s.allocFind g with
  | none =>
      have hreg : w₁.reg g = none := (h₁.sim.find g).trans hfind
      refine ⟨_, h₁.finish true h₁.sim (fun _ _ h ↦ Pc.noConfusion h) ?_ rfl rfl rfl⟩
      simp only [Entry.pc, stepCall, stepFree, if_neg hv, hreg]
  | some a =>
      obtain ⟨d, hd, hslot⟩ := hnone hvalid a hfind
      obtain ⟨w₂, h₂⟩ := h₁.freeFind hvalid hfind
      obtain ⟨w₃, h₃⟩ := h₂.freeErase_none hd hslot
      have herase : d.threads.erase (addrToId addr) = d.threads := by
        apply Xarray.ext_slot
        intro i
        rw [Xarray.slot_erase]
        split
        · next hi => rw [hi, hslot]
        · rfl
      rw [herase, State.setAlloc_self hd] at h₃
      exact ⟨w₃, h₃⟩

/-- An `sa_free` that frees an area. -/
theorem solo_free {own : List PlPtr} (h : Sim s w none) (hq : w.Quiet) (hown : OwnersOk s own) (pid : Nat)
    {g addr k : Nat} (hv : ValidAddr addr) (hfind : s.allocFind g = some a) (hd : s.allocs a = some d)
    (hk : d.kref = k + 1) (hk' : k ≠ 0)
    (hload : d.threads.load (addrToId addr) = some td) :
    ∃ w', Over (.enter pid g (.saFree addr)) w ((s.setAlloc a (d.remove (addrToId addr))).glFree td.pagelist) w'
      none := by
  obtain ⟨w₁, h₁⟩ := During.enter h hq pid g (.saFree addr) rfl
  obtain ⟨w₂, h₂⟩ := h₁.freeFind hv hfind
  obtain ⟨w₃, t, h₃⟩ := h₂.freeErase hown hd hload
  obtain ⟨w₄, h₄⟩ := h₃.freeUnmap
  obtain ⟨w₅, h₅⟩ := h₄.freeGlFree
  rw [State.glFree_setAlloc] at h₅
  obtain ⟨w₆, h₆⟩ := h₅.freeKfree
  obtain ⟨e, he⟩ : ∃ e : AllocatorDesc, e = { d with threads := d.threads.erase (addrToId addr) } := ⟨_, rfl⟩
  have hek : e = { e with kref := k + 1 } := by rw [he, ← hk]
  rw [← he, hek] at h₆
  obtain ⟨w₇, h₇⟩ := h₆.put State.setAlloc_allocs hk'
  refine ⟨w₇, ?_⟩
  rw [State.setAlloc_setAlloc, ← State.glFree_setAlloc, he] at h₇
  rw [AllocatorDesc.remove, hk]
  exact h₇

/-! ### `alloc_destroy` -/

/-- `alloc_destroy`, for an allocator it was not called for yet. -/
theorem solo_destroy (h : Sim s w none) (hq : w.Quiet) (halloc : AllocOk s) (hnd : a ∉ s.destroyed)
    (hd : s.allocs a = some d) (cur : Task) (ans : Answers) :
    ∃ w', Over (.enter cur.pid cur.tgid (.allocDestroy a)) w (s.allocDestroy a ans) w' none := by
  have hlt := halloc.lt a d hd
  obtain ⟨s₁, hs₁⟩ : ∃ s₁ : State, s₁ = { s with
    saAllocators := s.saAllocators.erase d.tgid, destroyed := insert a s.destroyed } := ⟨_, rfl⟩
  have hd₁ : s₁.allocs a = some d := by rw [hs₁, hd]
  have heq : s.allocDestroy a ans = s₁.allocPut a ans := by simp only [State.allocDestroy, hd, hs₁]
  obtain ⟨w₁, h₁⟩ := During.enterDestroy h hq cur.pid cur.tgid hd hlt hnd hs₁
  have hpos := halloc.alive a d hd
  by_cases hk : d.kref = 1
  · -- the page tables that the callback walks are not compared
    have hput : s.allocDestroy a ans = (s₁.allocDestroyCallback a { d with kref := 0 } ans).1 := by
      simp only [heq, State.allocPut, hd₁, hk, ↓reduceIte]
    obtain ⟨w₂, h₂⟩ := h₁.put_last hd₁ hk (by rwa [hs₁]) rfl
    refine ⟨w₂, { h₂ with sim := ?_ }⟩
    rw [hput, State.allocDestroyCallback]
    split <;> exact h₂.sim.congr rfl rfl rfl rfl rfl rfl rfl
  · obtain ⟨k, hk'⟩ : ∃ k, d.kref = k + 1 := ⟨d.kref - 1, by omega⟩
    have hd₂ : s₁.allocs a = some { d with kref := k + 1 } := by rw [hd₁, ← hk']
    obtain ⟨w₂, h₂⟩ := h₁.put hd₂ (by omega)
    rw [heq, State.allocPut_eq hd₂ (by omega)]
    exact ⟨w₂, h₂⟩

/-! ### Any call -/

/-- The calls that have not come in have been granted nothing. -/
def World.Unused (w : World) : Prop := ∀ n, w.nextCall ≤ n → w.grants n = none

theorem Over.unused {grant : Option Nat} (h : Over x w s w' grant) (hu : w.Unused) : w'.Unused := by
  intro n hn
  rw [h.nextCall] at hn
  have hne : n ≠ w.nextCall := by omega
  cases grant with
  | none =>
      rw [h.denied rfl]
      exact hu n (Nat.le_of_succ_le hn)
  | some addr =>
      obtain ⟨g, -, hgrants⟩ := h.granted addr rfl
      rw [hgrants, Function.update_of_ne hne]
      exact hu n (Nat.le_of_succ_le hn)

theorem Over.areas {grant : Option Nat} (h : Over x w s w' grant) (hu : w.Unused) :
    w'.areas = w.areas ++ grant.toList := by
  rw [World.areas, h.nextCall, List.range_succ, List.filterMap_append]
  cases grant with
  | none =>
      rw [h.denied rfl]
      simp [hu w.nextCall le_rfl, World.areas]
  | some addr =>
      obtain ⟨g, rfl, hgrants⟩ := h.granted addr rfl
      have hbefore : ∀ n ∈ List.range w.nextCall, (w'.grants n).map Grant.addr = (w.grants n).map Grant.addr := by
        intro n hn
        rw [hgrants, Function.update_of_ne (List.mem_range.mp hn).ne]
      rw [List.filterMap_congr hbefore]
      simp [hgrants, World.areas]

theorem live_of_find (h : AllocOk s) {g : Nat} (a : AllocPtr) (hfind : s.allocFind g = some a) :
    ∃ d, s.allocs a = some d ∧ d.kref ≠ 0 := by
  obtain ⟨d, hd, -⟩ := h.find hfind
  exact ⟨d, hd, (h.alive a d hd).ne'⟩

theorem solo_saAlloc (h : Sim s w none) (hq : w.Quiet) (halloc : AllocOk s) (cur : Task) (ans : Answers) :
    ∃ w', Over (.enter cur.pid cur.tgid .saAlloc) w (saAlloc s cur ans).2 w'
      (granted? (saAlloc s cur ans).1) := by
  obtain ⟨herr, heq⟩ | ⟨mm, a, d, pl, s₁, id, hm, hlow, ⟨-, hr, heq⟩ | ⟨-, hr, heq⟩⟩ :=
    saAlloc_cases s cur ans
  · rw [heq, granted?_of_err herr]
    exact solo_alloc_fail h hq cur.pid cur.tgid (live_of_find halloc)
  · rw [heq, hr]
    exact solo_alloc_map_fail h hq hm hlow
  · rw [heq, hr]
    exact solo_alloc_map h hq hm hlow

theorem solo_saFork (h : Sim s w none) (hq : w.Quiet) (halloc : AllocOk s) (cur : Task) (ans : Answers)
    (pt pp : Nat) :
    ∃ w', Over (.enter cur.pid cur.tgid (.saFork pt pp)) w (saFork s cur ans pt pp).2 w'
      (granted? (saFork s cur ans pt pp).1) := by
  obtain ⟨herr, heq⟩ | ⟨mm, a, d, pl, s₁, parent, hm, hparent, ⟨herr, heq⟩ | ⟨id, t, s₂, hfind, hs₂, hrest⟩⟩ :=
    saFork_cases s cur ans pt pp
  · rw [heq, granted?_of_err herr]
    exact solo_fork_fail h hq cur.pid cur.tgid pt pp (live_of_find halloc)
  · rw [heq, granted?_of_err herr]
    exact solo_fork_back h hq pp hm hparent (fun hsim ↦ hsim) rfl
  · have hsame : ∀ {w c e}, Sim (s₁.setAlloc a e) w c → Sim (s₂.setAlloc a e) w c := by
      intro w c e hsim
      rw [hs₂]
      exact hsim.congr rfl rfl rfl rfl rfl rfl rfl
    have hsame' : ∀ {w c e}, Sim (s₁.setAlloc a e) w c →
        Sim ((s₂.mapArea mm (idToAddr id) pl ans).1.setAlloc a e) w c :=
      fun hsim ↦ (hsame hsim).congr rfl rfl rfl rfl rfl rfl rfl
    obtain ⟨herr, heq⟩ | ⟨hfree, ⟨-, herr, heq⟩ | ⟨-, hr, heq⟩⟩ := hrest
    · rw [heq, granted?_of_err herr]
      exact solo_fork_back h hq pp hm hparent hsame (by rw [hs₂]; rfl)
    · rw [heq, granted?_of_err herr]
      exact solo_fork_back h hq pp hm hparent hsame' (by rw [hs₂]; rfl)
    · rw [heq, hr]
      exact solo_fork_map h hq hm hparent hfind hfree hsame'

theorem solo_saFree {S : Set Page} (h : Sim s w none) (hq : w.Quiet) (hinv : Inv S s []) {cur : Task} {mm : MmId}
    (hmm : cur.mm = some mm) (ans : Answers) (addr : Nat) :
    ∃ w', Over (.enter cur.pid cur.tgid (.saFree addr)) w (saFree s cur ans addr).2 w'
      (granted? (saFree s cur ans addr).1) := by
  obtain ⟨herr, heq⟩ | ⟨-, a, d, t, -, hv, hfind, hd, hreg, hload, hr, heq⟩ :=
    hinv.alloc.saFree_cases cur ans addr
  · rw [heq, granted?_of_err herr]
    refine solo_free_fail h hq cur.pid cur.tgid addr fun hv a hfind ↦ ?_
    obtain ⟨d, hd, -⟩ := hinv.alloc.find hfind
    refine ⟨d, hd, ?_⟩
    cases hslot : d.threads.slot (addrToId addr) with
    | none => rfl
    | some x =>
        -- a descriptor would have been freed
        cases x with
        | reserved => exact absurd hslot (hinv.alloc.settled a d _ hd)
        | entry t =>
            have hload : (s.threads a).load (addrToId addr) = some t := by
              rw [State.threads_eq hd, Xarray.load_eq_some.mpr hslot]
            rw [saFree_eq hmm hv hfind hload] at herr
            exact absurd rfl herr
  · rw [heq, hr]
    have htwo := hinv.alloc.two_le hd hreg hload
    obtain ⟨k, hk⟩ : ∃ k, d.kref = k + 1 := ⟨d.kref - 1, by omega⟩
    exact solo_free h hq hinv.owners cur.pid hv hfind hd hk (by omega) hload

end Calls

/-! ## Runs -/

/-- A call of the sequential model as one that comes in. -/
def Entry.of : Call → Option Entry
  | .saAlloc => some .saAlloc
  | .saFork pt pp => some (.saFork pt pp)
  | .saFree addr => some (.saFree addr)
  | .allocDestroy a => some (.allocDestroy a)
  | _ => none

/-- What the complete call `e` is in single steps, with the number of the next call before and after it. -/
inductive Unfolds (s : State) (e : Lkm.Event) (n : Nat) : List Event → Nat → Prop
  /-- A call that is refused at once. -/
  | refused (hs : (exec s e).2 = s) (hr : granted? (exec s e).1 = none) : Unfolds s e n [] n
  | create (tgid : Nat) (mm : Option MmId) (he : e.call = .allocCreate tgid mm) :
      Unfolds s e n [.create tgid] n
  /-- A thread enters the module, and its call does its steps. -/
  | call (entry : Entry) (he : Entry.of e.call = some entry) (ans : List Answer) :
      Unfolds s e n (.enter e.cur.pid e.cur.tgid entry :: ans.map (.step n)) (n + 1)

/-- What the complete calls `es` are in single steps: one call after another. -/
inductive UnfoldsAll (s₀ : State) : List Lkm.Event → State → List Event → Nat → Prop
  | nil : UnfoldsAll s₀ [] s₀ [] 0
  | snoc {es : List Lkm.Event} {e : Lkm.Event} {s : State} {fs gs : List Event} {n m : Nat} :
      UnfoldsAll s₀ es s fs n → Unfolds s e n gs m → UnfoldsAll s₀ (es ++ [e]) (exec s e).2 (fs ++ gs) m

/-- Between calls both models have the same allocators, areas and free list, and the calls have been granted
`as`. -/
structure Matches (s : State) (w : World) (as : List Nat) : Prop where
  sim : Sim s w none
  quiet : w.Quiet
  unused : w.Unused
  areas : w.areas = as

/-- The call `e` in single steps, and what it leaves. -/
def Follows (s : State) (w : World) (as : List Nat) (e : Lkm.Event) : Prop :=
  ∃ fs w', Unfolds s e w.nextCall fs w'.nextCall ∧ Run (Guarded Orderly Next) w fs w' ∧
    Matches (exec s e).2 w' (as ++ (granted? (exec s e).1).toList)

theorem Matches.refused {as : List Nat} {e : Lkm.Event} (h : Matches s w as) (hs : (exec s e).2 = s)
    (hr : granted? (exec s e).1 = none) : Follows s w as e := by
  refine ⟨[], w, .refused hs hr, .nil, ?_⟩
  rw [hs, hr, Option.toList_none, List.append_nil]
  exact h

theorem Over.follows {as : List Nat} {e : Lkm.Event} {entry : Entry} {grant : Option Nat}
    (h : Over (.enter e.cur.pid e.cur.tgid entry) w (exec s e).2 w' grant) (hm : Matches s w as)
    (he : Entry.of e.call = some entry) (hgrant : grant = granted? (exec s e).1) : Follows s w as e := by
  obtain ⟨ans, hrun⟩ := h.reach
  refine ⟨_, w', h.nextCall ▸ .call entry he ans, hrun, h.sim, h.quiet, h.unused hm.unused, ?_⟩
  rw [h.areas hm.unused, hm.areas, hgrant]

theorem Matches.create {as : List Nat} {e : Lkm.Event} (h : Matches s w as) {tgid : Nat} {mm : Option MmId}
    (he : e.call = .allocCreate tgid mm) : Follows s w as e := by
  have hexec : exec s e = (⟨none, none⟩, (s.allocCreate tgid mm e.ans).2) := by simp only [exec, he]
  by_cases hcreate : (e.ans.allocDesc && e.ans.xaMem && (s.saAllocators.slot tgid).isNone) = true
  · have hnone : (w.reg tgid).isNone := by
      have hslot := h.sim.reg tgid
      simp only [Bool.and_eq_true] at hcreate
      rw [Option.isNone_iff_eq_none.mp hcreate.2] at hslot
      cases hw : w.reg tgid with
      | none => rfl
      | some a => rw [hw] at hslot; cases hslot
    have hrun : Run (Guarded Orderly Next) w [.create tgid] _ :=
      Run.single ⟨⟨⟨trivial, trivial⟩, trivial⟩, if_pos hnone⟩
    refine ⟨[.create tgid], _, ?_, hrun, ?_⟩
    · exact .create tgid mm he
    rw [hexec, State.allocCreate, if_pos hcreate]
    exact ⟨h.sim.create tgid mm rfl rfl, h.quiet, h.unused, h.areas.trans (List.append_nil _).symm⟩
  · refine h.refused ?_ ?_
    · rw [hexec, State.allocCreate, if_neg hcreate]
    · rw [hexec]
      rfl

/-- **One call.** -/
theorem Matches.exec {S : Set Page} {as : List Nat} (h : Matches s w as) (hinv : Inv S s []) {e : Lkm.Event}
    (he : Admissible s e) (hv : e.call ≠ .vmaFree) : Follows s w as e := by
  obtain ⟨cur, call, ans⟩ := e
  cases call with
  | allocCreate tgid mm => exact h.create rfl
  | allocDestroy a =>
      cases hd : s.allocs a with
      | none =>
          have hsame : s.allocDestroy a ans = s := by simp only [State.allocDestroy, hd]
          exact h.refused hsame rfl
      | some d =>
          obtain ⟨w', hw'⟩ := solo_destroy h.sim h.quiet hinv.alloc (he.once a rfl) hd cur ans
          exact hw'.follows h rfl rfl
  | saAlloc =>
      obtain ⟨w', hw'⟩ := solo_saAlloc h.sim h.quiet hinv.alloc cur ans
      exact hw'.follows h rfl rfl
  | saFork pt pp =>
      obtain ⟨w', hw'⟩ := solo_saFork h.sim h.quiet hinv.alloc cur ans pt pp
      exact hw'.follows h rfl rfl
  | saFree addr =>
      cases hmm : cur.mm with
      | none =>
          have hfail : saFree s cur ans addr = (.fail .EINVAL, s) := by simp only [saFree, hmm]
          exact h.refused (congrArg Prod.snd hfail) (congrArg (granted? ·.1) hfail)
      | some mm =>
          obtain ⟨w', hw'⟩ := solo_saFree h.sim h.quiet hinv hmm ans addr
          exact hw'.follows h rfl rfl
  | vmaFree => exact absurd rfl hv

theorem Matches.init (l5 : Bool) (mms : MmId → Mm) (data : Page → PageData) :
    Matches (State.init l5 mms data) .init [] where
  sim := by constructor <;> simp [State.init, World.init]
  quiet _ := rfl
  unused _ _ := rfl
  areas := rfl

/-- A complete call that is not made when the module is unloaded. -/
def Serial (s : State) (e : Lkm.Event) : Prop := Admissible s e ∧ e.call ≠ .vmaFree

/-- **The sequential model is the interleaving one with calls that do not overlap.**  Every run of complete
calls is a run of the single steps of these calls, one call after another, in which nothing is lost; it ends
with all calls over, with the same allocators, areas and free list, and has granted the same addresses in the
same order. -/
theorem run_solo {l5 : Bool} {mms : MmId → Mm} {data : Page → PageData} {es : List Lkm.Event}
    (h : Run (Guarded Serial Step) (State.init l5 mms data) es s) :
    ∃ fs w, UnfoldsAll (State.init l5 mms data) es s fs w.nextCall ∧ Run (Guarded Orderly Next) .init fs w ∧
      w.Quiet ∧ Sim s w none ∧ w.areas = areas (State.init l5 mms data) es := by
  have hall : ∃ fs w, UnfoldsAll (State.init l5 mms data) es s fs w.nextCall ∧
      Run (Guarded Orderly Next) .init fs w ∧ Inv Set.univ s [] ∧
      Matches s w (areas (State.init l5 mms data) es) := by
    induction h with
    | nil => exact ⟨[], .init, .nil, .nil, Inv.init l5 mms data, Matches.init l5 mms data⟩
    | @snoc es e t t' hr hs ih =>
        obtain ⟨fs, w, hfs, hrun, hinv, hm⟩ := ih
        obtain ⟨⟨hadm, hv⟩, rfl⟩ := hs
        obtain ⟨gs, w', hgs, hrun', hm'⟩ := hm.exec hinv hadm hv
        refine ⟨fs ++ gs, w', hfs.snoc hgs, hrun.trans hrun', hinv.exec hadm (.inr rfl), ?_⟩
        rw [areas_append, ← run_eq_foldl hr, areas, areas, List.append_nil]
        exact hm'
  obtain ⟨fs, w, hfs, hrun, -, hm⟩ := hall
  exact ⟨fs, w, hfs, hrun, hm.quiet, hm.sim, hm.areas⟩

/-- Two areas for a process. -/
def twoAllocs : List Lkm.Event := [createEvent, allocEvent 0, allocEvent 1]

theorem run_solo_twoAllocs : ∃ s fs w,
    UnfoldsAll (State.init false (fun _ ↦ textMm) fun _ _ ↦ 0) twoAllocs s fs w.nextCall ∧
      Run (Guarded Orderly Next) .init fs w ∧ w.areas = [idToAddr 0, idToAddr 1] := by
  obtain ⟨hfirst, hone⟩ := filled_created.saAlloc (Nat.zero_le _)
  obtain ⟨hsecond, -⟩ := hone.saAlloc (by decide)
  have hcreate : Serial (State.init false (fun _ ↦ textMm) fun _ _ ↦ 0) createEvent :=
    ⟨admissible_createEvent _, Call.noConfusion⟩
  have halloc : ∀ {s : State} {n : Nat}, Filled n s → Serial s (allocEvent n) :=
    fun h ↦ ⟨⟨h.fresh, fun _ h ↦ Call.noConfusion h⟩, Call.noConfusion⟩
  have hrun : Run (Guarded Serial Step) (State.init false (fun _ ↦ textMm) fun _ _ ↦ 0) twoAllocs _ :=
    ((Run.single ⟨hcreate, rfl⟩).snoc ⟨halloc filled_created, rfl⟩).snoc ⟨halloc hone, rfl⟩
  obtain ⟨fs, w, hfs, hsteps, -, -, hareas⟩ := run_solo hrun
  have hgrant : granted? (exec created (allocEvent 0)).1 = some (idToAddr 0) := congrArg granted? hfirst
  have hgrant' : granted? (exec (exec created (allocEvent 0)).2 (allocEvent 1)).1 = some (idToAddr 1) :=
    congrArg granted? hsecond
  refine ⟨_, fs, w, hfs, hsteps, hareas.trans ?_⟩
  show [] ++ ((granted? (exec created (allocEvent 0)).1).toList ++
    ((granted? (exec (exec created (allocEvent 0)).2 (allocEvent 1)).1).toList ++ [])) = _
  rw [hgrant, hgrant']
  rfl

end ShadowStack.Lkm.Conc
