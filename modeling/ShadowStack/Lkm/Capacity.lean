import ShadowStack.Lkm.GlobalList

/-!
# The capacity of the global free list

`gl_free` reads `gl_size` without the lock, clears the pages, and only then takes `gl_lock` to put the
pagelist on the list.  What it has read may be out of date by then.
-/

namespace ShadowStack.Lkm.Gl

open Lib

/-- A call of `gl_free` has found room on the list and has not put its pagelist there yet. -/
def Pc.Pending : Pc → Prop
  | .freeClear _ _ | .freePush _ => True
  | _ => False

def World.Pending (w : World) (n : Nat) : Prop := ∃ f, w.calls n = some f ∧ f.pc.Pending

/-- A test of `gl_size` that lets a call go on leaves room for the pending ones as well. -/
def Roomy (w : World) (e : Event) : Prop :=
  ∀ n ans f pl, e = .step n ans → w.calls n = some f → f.pc = .freeCheck pl → w.glSize < glSaCapacity →
    ∃ S : Finset Nat, (∀ m, w.Pending m → m ∈ S) ∧ w.glSize + S.card < glSaCapacity

/-- No pagelist is put on a full list. -/
def NotFull (w : World) (e : Event) : Prop :=
  ∀ n ans f pl, e = .step n ans → w.calls n = some f → f.pc = .freePush pl → w.glSize < glSaCapacity

/-- What a step of call `n` at `pc` does to the counter and to the pending calls. -/
inductive Effect (w : World) (n : Nat) (pc : Pc) (w' : World) : Prop
  /-- The counter does not grow, and the call is not pending if it was not before. -/
  | quiet (x : Option Frame) (calls : w'.calls = Function.update w.calls n x) (size : w'.glSize ≤ w.glSize)
      (pending : ∀ g, x = some g → g.pc.Pending → pc.Pending)
  /-- The call has found room. -/
  | test (x : Option Frame) (calls : w'.calls = Function.update w.calls n x) (size : w'.glSize = w.glSize)
      (room : w.glSize < glSaCapacity) (pl : PlPtr) (at_ : pc = .freeCheck pl)
  /-- A pending call puts its pagelist on the list. -/
  | insert (calls : w'.calls = Function.update w.calls n none) (size : w'.glSize = w.glSize + 1) (pl : PlPtr)
      (at_ : pc = .freePush pl)

section Steps

variable {w w' : World} {n : Nat} {f : Frame} {ans : Answer} {pc pc' : Pc} {e : Event}

theorem Effect.goto (hcalls : w'.calls = w.calls) (hsize : w'.glSize ≤ w.glSize) (hpc : pc'.Pending → pc.Pending) :
    Effect w n pc (w'.goto n f pc') := by
  refine .quiet (some { f with pc := pc' }) (by rw [← hcalls]; rfl) hsize fun g hg hp ↦ ?_
  obtain rfl := Option.some.inj hg
  exact hpc hp

theorem Effect.finish (hcalls : w'.calls = Function.update w.calls n none) (hsize : w'.glSize ≤ w.glSize) :
    Effect w n pc w' :=
  .quiet none hcalls hsize fun _ hg ↦ nomatch hg

theorem stepAlloc_effect : Effect w n pc (stepAlloc w n f ans pc) ∨ stepAlloc w n f ans pc = w := by
  cases pc with
  | allocLock =>
      left
      simp only [stepAlloc]
      cases hgl : w.glSa with
      | nil => exact .goto rfl le_rfl id
      | cons pl rest =>
          refine .quiet (some { f with pc := .allocRet pl }) rfl (Int.sub_le_self _ (by decide)) fun g hg hp ↦ ?_
          obtain rfl := Option.some.inj hg
          exact hp
  | allocObj =>
      left
      simp only [stepAlloc]
      split_ifs
      · exact .goto rfl le_rfl id
      · exact .finish rfl le_rfl
  | allocArray pl =>
      left
      simp only [stepAlloc]
      split_ifs
      · exact .goto rfl le_rfl id
      · exact .goto rfl le_rfl id
  | allocHigh pl order maxOrder =>
      left
      simp only [stepAlloc]
      split_ifs
      · exact .goto rfl le_rfl id
      · exact .goto rfl le_rfl id
      · exact .goto rfl le_rfl id
  | allocBulk pl =>
      left
      simp only [stepAlloc]
      split_ifs
      · exact .goto rfl le_rfl id
      · exact .goto rfl le_rfl id
      · exact .goto rfl le_rfl id
  | allocSingle pl =>
      left
      simp only [stepAlloc]
      split_ifs
      · cases ans.pages with
        | nil => exact .goto rfl le_rfl id
        | cons p ps => exact .goto rfl le_rfl id
      · exact .goto rfl le_rfl id
  | allocCheck pl =>
      left
      simp only [stepAlloc]
      split_ifs
      · exact .goto rfl le_rfl id
      · exact .goto rfl le_rfl id
  | allocRet pl => exact .inl (.finish rfl le_rfl)
  | freeCheck pl => exact .inr rfl
  | freeClear pl i => exact .inr rfl
  | freePush pl => exact .inr rfl
  | splice => exact .inr rfl
  | drop pls => exact .inr rfl

theorem stepFree_effect (hsize : 0 ≤ w.glSize) : Effect w n pc (stepFree w n f pc) ∨ stepFree w n f pc = w := by
  cases pc with
  | freeCheck pl =>
      left
      simp only [stepFree]
      split_ifs with hfull
      · exact .goto rfl le_rfl id
      · exact .test _ rfl rfl (not_le.mp hfull) pl rfl
  | freeClear pl i =>
      left
      simp only [stepFree]
      cases (w.pagesOf pl)[i]? with
      | none => exact .goto rfl le_rfl fun _ ↦ trivial
      | some p => exact .goto rfl le_rfl fun _ ↦ trivial
  | freePush pl => exact .inl (.insert rfl rfl pl rfl)
  | splice =>
      refine .inl (.quiet (some { f with pc := .drop w.glSa }) rfl hsize fun g hg hp ↦ ?_)
      obtain rfl := Option.some.inj hg
      exact hp
  | drop pls =>
      left
      cases pls with
      | nil => exact .finish rfl le_rfl
      | cons pl pls =>
          simp only [stepFree]
          split_ifs
          · exact .goto rfl le_rfl id
          · exact .goto rfl le_rfl id
  | allocLock => exact .inr rfl
  | allocObj => exact .inr rfl
  | allocArray pl => exact .inr rfl
  | allocHigh pl order maxOrder => exact .inr rfl
  | allocBulk pl => exact .inr rfl
  | allocSingle pl => exact .inr rfl
  | allocCheck pl => exact .inr rfl
  | allocRet pl => exact .inr rfl

/-- **Every step of a call has one of these effects.** -/
theorem stepCall_effect (hn : w.calls n = some f) (hsize : 0 ≤ w.glSize) : Effect w n f.pc (stepCall w n f ans) := by
  have hsame : Effect w n f.pc w :=
    .quiet (some f) (by rw [← hn, Function.update_eq_self]) le_rfl fun g hg hp ↦ Option.some.inj hg ▸ hp
  have halloc : Effect w n f.pc (stepAlloc w n f ans f.pc) := stepAlloc_effect.elim id fun h ↦ by rwa [h]
  have hfree : Effect w n f.pc (stepFree w n f f.pc) := (stepFree_effect hsize).elim id fun h ↦ by rwa [h]
  unfold stepCall
  split <;> assumption

/-- The pending calls after a step of call `n`. -/
theorem pending_update {x : Option Frame} (hcalls : w'.calls = Function.update w.calls n x) {m : Nat}
    (hp : w'.Pending m) : (m = n ∧ ∃ g, x = some g ∧ g.pc.Pending) ∨ (m ≠ n ∧ w.Pending m) := by
  obtain ⟨g, hg, hp⟩ := hp
  rw [hcalls] at hg
  exact (update_eq_some hg).imp (fun ⟨hm, hx⟩ ↦ ⟨hm, g, hx, hp⟩) fun ⟨hm, hg⟩ ↦ ⟨hm, g, hg, hp⟩

/-- The same for all events: only steps of calls matter. -/
theorem next_effect (hsize : 0 ≤ w.glSize) (hs : Next w e w') :
    (∃ n f ans, e = .step n ans ∧ w.calls n = some f ∧ Effect w n f.pc w') ∨
      (w'.glSize = w.glSize ∧ ∀ m, w'.Pending m → w.Pending m) := by
  -- a call that comes in is not pending
  have henter : ∀ {n : Nat} {g : Frame} {w'' : World}, ¬ g.pc.Pending →
      w''.calls = Function.update w.calls n (some g) → ∀ m, w''.Pending m → w.Pending m := by
    intro n g w'' hg hcalls m hm
    rcases pending_update hcalls hm with ⟨-, g', hg', hp⟩ | ⟨-, hp⟩
    · obtain rfl := Option.some.inj hg'
      exact absurd hp hg
    · exact hp
  cases e with
  | step n ans =>
      obtain ⟨f, hf, rfl⟩ := Option.map_eq_some_iff.mp hs
      exact .inl ⟨n, f, ans, rfl, hf, stepCall_effect hf hsize⟩
  | alloc n c =>
      obtain ⟨-, hw⟩ := Option.ite_none_right_eq_some.mp hs
      obtain rfl := Option.some.inj hw
      exact .inr ⟨rfl, henter (g := ⟨c, .allocLock⟩) id rfl⟩
  | vmaFree n c =>
      obtain ⟨-, hw⟩ := Option.ite_none_right_eq_some.mp hs
      obtain rfl := Option.some.inj hw
      exact .inr ⟨rfl, henter (g := ⟨c, .splice⟩) id rfl⟩
  | free n c pl =>
      obtain ⟨-, hw⟩ := Option.ite_none_right_eq_some.mp hs
      obtain rfl := Option.some.inj hw
      exact .inr ⟨rfl, henter (g := ⟨c, .freeCheck pl⟩) id rfl⟩
  | write c pl p data =>
      obtain ⟨-, hw⟩ := Option.ite_none_right_eq_some.mp hs
      obtain rfl := Option.some.inj hw
      exact .inr ⟨rfl, fun _ hp ↦ hp⟩
  | pass c c' pl =>
      obtain ⟨-, hw⟩ := Option.ite_none_right_eq_some.mp hs
      obtain rfl := Option.some.inj hw
      exact .inr ⟨rfl, fun _ hp ↦ hp⟩
  | foreign p data =>
      obtain rfl := Option.some.inj hs
      exact .inr ⟨rfl, fun _ hp ↦ hp⟩

/-- There is room on the list for the pagelists of all pending calls. -/
def Room (w : World) : Prop :=
  ∃ S : Finset Nat, (∀ m, w.Pending m → m ∈ S) ∧ w.glSize + S.card ≤ glSaCapacity

theorem Room.next (h : Room w) (hsize : 0 ≤ w.glSize) (he : Roomy w e) (hs : Next w e w') : Room w' := by
  obtain ⟨S, hS, hle⟩ := h
  rcases next_effect hsize hs with ⟨n, f, ans, rfl, hf, heff⟩ | ⟨heq, hp⟩
  · cases heff with
    | quiet x hcalls hsz hpend =>
        refine ⟨S, fun m hm ↦ hS m ?_, by omega⟩
        rcases pending_update hcalls hm with ⟨rfl, g, hg, hp⟩ | ⟨-, hp⟩
        · exact ⟨f, hf, hpend g hg hp⟩
        · exact hp
    | test x hcalls hsz hroom pl hat =>
        obtain ⟨T, hT, hlt⟩ := he n ans f pl rfl hf hat hroom
        have hcard := Finset.card_insert_le n T
        refine ⟨insert n T, fun m hm ↦ ?_, by omega⟩
        rcases pending_update hcalls hm with ⟨rfl, -⟩ | ⟨-, hp⟩
        · exact Finset.mem_insert_self _ _
        · exact Finset.mem_insert_of_mem (hT m hp)
    | insert hcalls hsz pl hat =>
        have hn : n ∈ S := hS n ⟨f, hf, by rw [hat]; trivial⟩
        have hcard := Finset.card_erase_add_one hn
        refine ⟨S.erase n, fun m hm ↦ ?_, by omega⟩
        rcases pending_update hcalls hm with ⟨-, g, hg, -⟩ | ⟨hne, hp⟩
        · cases hg
        · exact Finset.mem_erase.mpr ⟨hne, hS m hp⟩
  · exact ⟨S, fun m hm ↦ hS m (hp m hm), by omega⟩

/-- With room for all pending calls, no list is full when a pagelist is put on it. -/
theorem Room.notFull (h : Room w) : NotFull w e := by
  rintro n ans f pl - hf hpc
  obtain ⟨S, hS, hle⟩ := h
  have hcard : 0 < S.card := Finset.card_pos.mpr ⟨n, hS n ⟨f, hf, by rw [hpc]; trivial⟩⟩
  omega

/-- The counter stays within the capacity, as long as nothing is put on a full list. -/
theorem glSize_le_next_iff (hsize : 0 ≤ w.glSize) (hle : w.glSize ≤ glSaCapacity) (hs : Next w e w') :
    w'.glSize ≤ glSaCapacity ↔ NotFull w e := by
  rcases next_effect hsize hs with ⟨n, f, ans, rfl, hf, heff⟩ | ⟨heq, -⟩
  · have hpush : ∀ {pl : PlPtr}, f.pc = .freePush pl → w'.glSize = w.glSize + 1 := by
      intro pl hpc
      obtain ⟨f', hf', rfl⟩ := Option.map_eq_some_iff.mp hs
      obtain rfl := Option.some.inj (hf.symm.trans hf')
      simp only [stepCall, hpc, stepFree]
    constructor
    · rintro hle' n' ans' f' pl he hf' hpc
      obtain ⟨rfl, -⟩ := Event.step.inj he
      obtain rfl := Option.some.inj (hf.symm.trans hf')
      have := hpush hpc
      omega
    · intro hnot
      cases heff with
      | quiet x hcalls hsz hpend => omega
      | test x hcalls hsz hroom pl hat => omega
      | insert hcalls hsz pl hat =>
          have hlt := hnot n ans f pl rfl hf hat
          omega
  · refine ⟨fun _ n ans f pl he hf hpc ↦ ?_, fun _ ↦ by omega⟩
    subst he
    obtain ⟨f', hf', rfl⟩ := Option.map_eq_some_iff.mp hs
    obtain rfl := Option.some.inj (hf.symm.trans hf')
    simp only [stepCall, hpc, stepFree] at heq
    omega

end Steps

/-- A step after which the list is within its capacity. -/
def Bounded (w : World) (e : Event) (w' : World) : Prop :=
  Guarded Allowed Next w e w' ∧ w'.glSize ≤ glSaCapacity

theorem Inv.glSize_nonneg {w : World} (h : Inv w) : 0 ≤ w.glSize := by
  rw [h.size]
  exact Int.natCast_nonneg _

/-- **The list is within its capacity in every state of a run exactly if** nothing is put on a full list, and
that is so if every test of `gl_size` leaves room for the pending calls. -/
theorem run_glSize_le_iff (data : Page → PageData) (es : List Event) (w : World) :
    (Run Bounded (World.init data) es w ↔
      Run (Guarded (fun w e ↦ Allowed w e ∧ NotFull w e) Next) (World.init data) es w) ∧
    (Run (Guarded (fun w e ↦ Allowed w e ∧ Roomy w e) Next) (World.init data) es w →
      Run Bounded (World.init data) es w) := by
  have hzero : (World.init data).glSize ≤ glSaCapacity := show (0 : Int) ≤ 128 by decide
  refine ⟨⟨fun h ↦ ?_, fun h ↦ ?_⟩, fun h ↦ ?_⟩
  · refine h.mono_of_invariant (I := fun w ↦ Inv w ∧ w.glSize ≤ glSaCapacity) ⟨Inv.init data, hzero⟩ ?_ ?_
    · exact fun _ _ _ hw hs ↦ ⟨hw.1.next hs.1.1 hs.1.2, hs.2⟩
    · exact fun _ _ _ hw hs ↦
        ⟨⟨hs.1.1, (glSize_le_next_iff hw.1.glSize_nonneg hw.2 hs.1.2).mp hs.2⟩, hs.1.2⟩
  · refine h.mono_of_invariant (I := fun w ↦ Inv w ∧ w.glSize ≤ glSaCapacity) ⟨Inv.init data, hzero⟩ ?_ ?_
    · exact fun _ _ _ hw hs ↦
        ⟨hw.1.next hs.1.1 hs.2, (glSize_le_next_iff hw.1.glSize_nonneg hw.2 hs.2).mpr hs.1.2⟩
    · exact fun _ _ _ hw hs ↦
        ⟨⟨hs.1.1, hs.2⟩, (glSize_le_next_iff hw.1.glSize_nonneg hw.2 hs.2).mpr hs.1.2⟩
  · have hroom : Room (World.init data) := ⟨∅, fun m ⟨_, hf, _⟩ ↦ (nomatch hf), hzero⟩
    refine h.mono_of_invariant (I := fun w ↦ (Inv w ∧ w.glSize ≤ glSaCapacity) ∧ Room w)
      ⟨⟨Inv.init data, hzero⟩, hroom⟩ ?_ ?_
    · exact fun _ _ _ hw hs ↦ ⟨⟨hw.1.1.next hs.1.1 hs.2,
        (glSize_le_next_iff hw.1.1.glSize_nonneg hw.1.2 hs.2).mpr hw.2.notFull⟩,
        hw.2.next hw.1.1.glSize_nonneg hs.1.2 hs.2⟩
    · exact fun _ _ _ hw hs ↦
        ⟨⟨hs.1.1, hs.2⟩, (glSize_le_next_iff hw.1.1.glSize_nonneg hw.1.2 hs.2).mpr hw.2.notFull⟩

/-! ## Frees that overlap -/

/-- Caller 1 has `k` pagelists of an area each, and no call is under way. -/
theorem stocked_run (data : Page → PageData) (k : Nat) : ∃ es w, Run (Guarded Allowed Next) (World.init data) es w ∧
    Stocked k w ∧ w.calls 0 = none ∧ w.pagelists k = none := by
  induction k with
  | zero => exact ⟨[], _, .nil, stocked_init data, rfl, rfl⟩
  | succ k ih =>
      obtain ⟨es, w, hr, hst, hcall, hnone⟩ := ih
      obtain ⟨es', w₁, hr', h⟩ := hst.granted hcall hnone
      obtain ⟨w₂, hw₂⟩ : ∃ w₂, w₂ = stepCall w₁ 0 ⟨1, .allocRet k⟩ ⟨true, k + 1, []⟩ := ⟨_, rfl⟩
      have hs : Guarded Allowed Next w₁ (.step 0 ⟨true, k + 1, []⟩) w₂ := by
        refine ⟨h.allowed List.nodup_nil (by simp) (by simp), ?_⟩
        rw [Next, next, h.call, Option.map_some, hw₂]
      have hcalls : w₂.calls = Function.update w₁.calls 0 none := by rw [hw₂]; rfl
      have howned : w₂.owned = Function.update w₁.owned 1 (insert k (w₁.owned 1)) := by rw [hw₂]; rfl
      have hpl : w₂.pagelists = w₁.pagelists := by rw [hw₂]; rfl
      refine ⟨_, w₂, (hr.trans hr').snoc hs, ⟨fun pl hlt ↦ ?_, fun pl hlt ↦ ?_, fun pl hlt ↦ ?_, fun n hn ↦ ?_,
        ?_, ?_⟩, ?_, ?_⟩
      · rw [hpl]
        rcases Nat.lt_succ_iff_lt_or_eq.mp hlt with hlt | rfl
        · exact h.pages pl hlt
        · exact h.made
      · rw [hpl]
        exact h.absent pl (Nat.lt_of_succ_lt hlt)
      · rw [howned, Function.update_self]
        rcases Nat.lt_succ_iff_lt_or_eq.mp hlt with hlt | rfl
        · exact Finset.mem_insert_of_mem (h.owned pl hlt)
        · exact Finset.mem_insert_self _ _
      · rw [hcalls, Function.update_of_ne hn]
        exact h.calls n hn
      · rw [hw₂]
        exact h.glSa
      · rw [hw₂]
        exact h.glSize
      · rw [hcalls, Function.update_self]
      · rw [hpl]
        exact h.absent _ (Nat.lt_succ_self k)

/-- Of the pagelists below `k`, call `n` has found room for pagelist `n` if `a ≤ n < b`; those before are on
the list, and those after are with caller 1. -/
structure Freeing (k a b : Nat) (w : World) : Prop where
  pages : ∀ pl < k, (w.pagesOf pl).length = 2048
  absent : w.pagelists k = none
  owned : ∀ pl < k, b ≤ pl → pl ∈ w.owned 1
  pending : ∀ n, a ≤ n → n < b → w.calls n = some ⟨1, .freeClear n 0⟩
  calls : ∀ n, b ≤ n → w.calls n = none
  glSize : w.glSize = a

theorem allowed_nothing {k : Nat} {w : World} (h : w.pagelists k = none) (n : Nat) :
    Allowed w (.step n ⟨true, k, []⟩) :=
  ⟨h, List.nodup_nil, fun _ hp ↦ nomatch hp⟩

/-- One more call finds room. -/
theorem Freeing.test {k b : Nat} {w : World} (h : Freeing k 0 b w) (hb : b < k) :
    ∃ es w', Run (Guarded Allowed Next) w es w' ∧ Freeing k 0 (b + 1) w' := by
  obtain ⟨w₁, hw₁⟩ : ∃ w₁, w₁ = { w.goto b ⟨1, .freeCheck b⟩ (.freeCheck b) with
      owned := Function.update w.owned 1 ((w.owned 1).erase b) } := ⟨_, rfl⟩
  obtain ⟨w₂, hw₂⟩ : ∃ w₂, w₂ = w₁.goto b ⟨1, .freeCheck b⟩ (.freeClear b 0) := ⟨_, rfl⟩
  have hcalls₁ : w₁.calls = Function.update w.calls b (some ⟨1, .freeCheck b⟩) := by rw [hw₁]; rfl
  have hcalls₂ : w₂.calls = Function.update w.calls b (some ⟨1, .freeClear b 0⟩) := by
    have hgoto : w₂.calls = Function.update w₁.calls b (some ⟨1, .freeClear b 0⟩) := by rw [hw₂]; rfl
    rw [hgoto, hcalls₁, Function.update_idem]
  have howned : w₂.owned = Function.update w.owned 1 ((w.owned 1).erase b) := by rw [hw₂, hw₁]; rfl
  have hpl₁ : w₁.pagelists = w.pagelists := by rw [hw₁]; rfl
  have hpl₂ : w₂.pagelists = w.pagelists := by rw [hw₂]; exact hpl₁
  have hsize₁ : w₁.glSize = w.glSize := by rw [hw₁]; rfl
  have hs₁ : Guarded Allowed Next w (.free b 1 b) w₁ := by
    refine ⟨trivial, ?_⟩
    rw [Next, next, if_pos ⟨h.calls b le_rfl, h.owned b hb le_rfl⟩, hw₁]
  have hs₂ : Guarded Allowed Next w₁ (.step b ⟨true, k, []⟩) w₂ := by
    refine ⟨allowed_nothing (by rw [hpl₁]; exact h.absent) b, ?_⟩
    have hroom : ¬ glSaCapacity ≤ w₁.glSize := by
      rw [hsize₁, h.glSize]
      decide
    rw [Next, next, hcalls₁, Function.update_self, Option.map_some, hw₂]
    simp only [stepCall, stepFree]
    rw [if_neg hroom]
  refine ⟨_, w₂, (Run.single hs₁).snoc hs₂, fun pl hpl ↦ ?_, ?_, fun pl hpl hle ↦ ?_, fun n _ hn ↦ ?_,
    fun n hn ↦ ?_, ?_⟩
  · rw [World.pagesOf, hpl₂]
    exact h.pages pl hpl
  · rw [hpl₂]
    exact h.absent
  · rw [howned, Function.update_self]
    exact Finset.mem_erase.mpr ⟨Nat.ne_of_gt hle, h.owned pl hpl (Nat.le_of_succ_le hle)⟩
  · rw [hcalls₂]
    rcases Nat.lt_succ_iff_lt_or_eq.mp hn with hlt | rfl
    · rw [Function.update_of_ne hlt.ne]
      exact h.pending n (Nat.zero_le n) hlt
    · rw [Function.update_self]
  · rw [hcalls₂, Function.update_of_ne (Nat.ne_of_gt hn)]
    exact h.calls n (Nat.le_of_succ_le hn)
  · rw [hw₂]
    exact hsize₁.trans h.glSize

/-- A pending call clears the pages that are left, and nothing else happens. -/
theorem clear_run {k n pl d i : Nat} {w : World} (hn : w.calls n = some ⟨1, .freeClear pl i⟩)
    (hlen : (w.pagesOf pl).length = i + d) (hnone : w.pagelists k = none) :
    ∃ es w', Run (Guarded Allowed Next) w es w' ∧ w'.pagelists = w.pagelists ∧ w'.owned = w.owned ∧
      w'.glSize = w.glSize ∧ w'.calls = Function.update w.calls n (some ⟨1, .freePush pl⟩) := by
  induction d generalizing i w with
  | zero =>
      obtain ⟨w₁, hw₁⟩ : ∃ w₁, w₁ = w.goto n ⟨1, .freeClear pl i⟩ (.freePush pl) := ⟨_, rfl⟩
      refine ⟨_, w₁, Run.single (i := .step n ⟨true, k, []⟩) ⟨allowed_nothing hnone n, ?_⟩, ?_⟩
      · have hend : (w.pagesOf pl)[i]? = none := List.getElem?_eq_none (by omega)
        rw [Next, next, hn, Option.map_some, hw₁]
        simp only [stepCall, stepFree, hend]
      · rw [hw₁]
        exact ⟨rfl, rfl, rfl, rfl⟩
  | succ d ih =>
      obtain ⟨p, hp⟩ : ∃ p, (w.pagesOf pl)[i]? = some p :=
        ⟨_, List.getElem?_eq_getElem (show i < (w.pagesOf pl).length by omega)⟩
      obtain ⟨w₁, hw₁⟩ : ∃ w₁, w₁ = (w.zero [p]).goto n ⟨1, .freeClear pl i⟩ (.freeClear pl (i + 1)) := ⟨_, rfl⟩
      have hs : Guarded Allowed Next w (.step n ⟨true, k, []⟩) w₁ := by
        refine ⟨allowed_nothing hnone n, ?_⟩
        rw [Next, next, hn, Option.map_some, hw₁]
        simp only [stepCall, stepFree, hp]
      have hcalls : w₁.calls = Function.update w.calls n (some ⟨1, .freeClear pl (i + 1)⟩) := by rw [hw₁]; rfl
      have hpl : w₁.pagelists = w.pagelists := by rw [hw₁]; rfl
      have hpages : w₁.pagesOf pl = w.pagesOf pl := by rw [World.pagesOf, World.pagesOf, hpl]
      obtain ⟨es, w₂, hr, hpl₂, howned, hsize, hcalls₂⟩ := ih (by rw [hcalls, Function.update_self])
        (by rw [hpages]; omega) (by rw [hpl]; exact hnone)
      refine ⟨_, w₂, (Run.single hs).trans hr, hpl₂.trans hpl, ?_, ?_, ?_⟩
      · rw [howned, hw₁]
        rfl
      · rw [hsize, hw₁]
        rfl
      · rw [hcalls₂, hcalls, Function.update_idem]

/-- One more pagelist is put on the list. -/
theorem Freeing.push {k a b : Nat} {w : World} (h : Freeing k a b w) (ha : a < b) (hb : b ≤ k) :
    ∃ es w', Run (Guarded Allowed Next) w es w' ∧ Freeing k (a + 1) b w' := by
  obtain ⟨es, w₁, hr, hpl, howned, hsize, hcalls⟩ := clear_run (d := 2048) (h.pending a le_rfl ha)
    (by rw [Nat.zero_add]; exact h.pages a (lt_of_lt_of_le ha hb)) h.absent
  obtain ⟨w₂, hw₂⟩ : ∃ w₂, w₂ = stepCall w₁ a ⟨1, .freePush a⟩ ⟨true, k, []⟩ := ⟨_, rfl⟩
  have hs : Guarded Allowed Next w₁ (.step a ⟨true, k, []⟩) w₂ := by
    refine ⟨allowed_nothing (by rw [hpl]; exact h.absent) a, ?_⟩
    rw [Next, next, hcalls, Function.update_self, Option.map_some, hw₂]
  have hcalls₂ : w₂.calls = Function.update w.calls a none := by
    have hfin : w₂.calls = Function.update w₁.calls a none := by rw [hw₂]; rfl
    rw [hfin, hcalls, Function.update_idem]
  have hpl₂ : w₂.pagelists = w.pagelists := by rw [hw₂]; exact hpl
  refine ⟨_, w₂, hr.snoc hs, fun pl hlt ↦ ?_, ?_, fun pl hlt hle ↦ ?_, fun n han hnb ↦ ?_, fun n hn ↦ ?_, ?_⟩
  · rw [World.pagesOf, hpl₂]
    exact h.pages pl hlt
  · rw [hpl₂]
    exact h.absent
  · rw [hw₂]
    show pl ∈ w₁.owned 1
    rw [howned]
    exact h.owned pl hlt hle
  · rw [hcalls₂, Function.update_of_ne (Nat.ne_of_gt han)]
    exact h.pending n (Nat.le_of_succ_le han) hnb
  · rw [hcalls₂, Function.update_of_ne (Nat.ne_of_gt (lt_of_lt_of_le ha hn))]
    exact h.calls n hn
  · rw [hw₂]
    show w₁.glSize + 1 = _
    rw [hsize, h.glSize]
    exact (Nat.cast_succ a).symm

/-- `k` calls find room one after the other, -/
theorem test_run (data : Page → PageData) (k : Nat) {b : Nat} (hb : b ≤ k) :
    ∃ es w, Run (Guarded Allowed Next) (World.init data) es w ∧ Freeing k 0 b w := by
  induction b with
  | zero =>
      obtain ⟨es, w, hr, hst, hcall, hnone⟩ := stocked_run data k
      refine ⟨es, w, hr, fun pl hpl ↦ ?_, hnone, fun pl hpl _ ↦ hst.owned pl hpl,
        fun n _ hn ↦ absurd hn (Nat.not_lt_zero n), fun n _ ↦ ?_, hst.glSize⟩
      · rw [World.pagesOf, hst.pages pl hpl]
        exact List.length_range'
      · by_cases hn : n = 0
        · rw [hn, hcall]
        · exact hst.calls n hn
  | succ b ih =>
      obtain ⟨es, w, hr, h⟩ := ih (Nat.le_of_succ_le hb)
      obtain ⟨es', w', hr', h'⟩ := h.test hb
      exact ⟨_, w', hr.trans hr', h'⟩

/-- and then each puts its pagelist on the list. -/
theorem push_run (data : Page → PageData) (k : Nat) {a : Nat} (ha : a ≤ k) :
    ∃ es w, Run (Guarded Allowed Next) (World.init data) es w ∧ Freeing k a k w := by
  induction a with
  | zero => exact test_run data k le_rfl
  | succ a ih =>
      obtain ⟨es, w, hr, h⟩ := ih (Nat.le_of_succ_le ha)
      obtain ⟨es', w', hr', h'⟩ := h.push ha le_rfl
      exact ⟨_, w', hr.trans hr', h'⟩

/-- With 129 calls at once, the list gets longer than 128. -/
theorem not_run_glSize_le : ¬ ∀ (data : Page → PageData) (es : List Event) (w : World),
    Run (Guarded Allowed Next) (World.init data) es w → w.glSize ≤ glSaCapacity := by
  intro h
  obtain ⟨es, w, hr, hw⟩ := push_run (fun _ _ ↦ 0) 129 le_rfl
  have hle := h _ es w hr
  rw [hw.glSize] at hle
  revert hle
  decide

end ShadowStack.Lkm.Gl
