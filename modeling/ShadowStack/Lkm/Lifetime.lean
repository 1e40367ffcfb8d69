import Mathlib.Data.Finset.Card
import ShadowStack.Lkm.Descriptors

/-!
# The lifetime of an allocator

Every reference to an allocator that is counted in its `kref` has a token: the registration, a call
that went through `alloc_get` or took a descriptor, and a descriptor in the table that no call works
on.  There are never more tokens than the count says.  When the count reaches zero no token is left,
and an allocator that is not registered any more cannot be found any more; what remains are the calls
that found it before and did not count themselves.
-/

namespace ShadowStack.Lkm.Conc

open Lib

/-! ## Pointers to allocators -/

/-- The allocator a call has a counted reference to. -/
def Pc.counted : Pc → Option AllocPtr
  | .allocReserve a | .allocThread a _ | .allocStack a _ _ | .allocMap a _ _ | .allocMax a _ _
  | .allocStore a _ _ | .allocRead a _ _ | .allocGlFree a _ _ | .allocKfree a _ _
  | .allocErase a _ => some a
  | .forkParent a _ _ | .forkThread a _ _ | .forkStack a _ _ _ | .forkScan a _ _ _ _ _
  | .forkInsert a _ _ _ | .forkMap a _ _ _ | .forkMax a _ _ | .forkErase a _ _ _
  | .forkGlFree a _ _ | .forkKfree a _ => some a
  | .freeUnmap a _ | .freeGlFree a _ | .freeKfree a _ | .put a => some a
  | _ => none

/-- The allocator a call points to without being counted. -/
def Pc.uncounted : Pc → Option AllocPtr
  | .allocGet a | .forkGet a _ _ | .freeErase a _ => some a
  | .forkThread _ parent _ | .forkStack _ parent _ _ | .forkScan _ parent _ _ _ _ => some parent
  | _ => none

/-- The allocator whose lock, table, count or other field the next step uses. -/
def Pc.touches : Pc → Option AllocPtr
  | .allocGet a | .allocReserve a | .allocMax a _ _ | .allocStore a _ _ | .allocErase a _ => some a
  | .forkGet a _ _ | .forkInsert a _ _ _ | .forkMax a _ _ | .forkErase a _ _ _ => some a
  | .forkScan _ parent _ _ _ .lock | .forkScan _ parent _ _ _ (.next _)
  | .forkScan _ parent _ _ _ (.unlock _) => some parent
  | .freeErase a _ | .destroyErase a | .put a | .callback a => some a
  | _ => none

/-- The next step neither takes an allocator out of the tables nor frees it. -/
def Pc.Ordinary : Pc → Prop
  | .destroyErase _ | .callback _ => False
  | _ => True

theorem Pc.Ordinary.ne {pc : Pc} (h : pc.Ordinary) (a : AllocPtr) :
    pc ≠ .destroyErase a ∧ pc ≠ .callback a := by
  constructor
  all_goals
    rintro rfl
    exact h

/-- No call is about to use an allocator that is gone. -/
def Alive (w : World) : Prop :=
  ∀ n f a, w.calls n = some f → f.pc.touches = some a → a ∉ w.dead

/-- What the callers of `alloc_destroy` and the calls that are not counted have to observe: an
allocator is destroyed once, and nobody points to it uncounted when its callback runs; and `sa_free`
leaves alone what other calls work on. -/
def Careful (w : World) (e : Event) : Prop :=
  Undisturbed w e ∧
  match e with
  | .create _ => True
  | .enter _ _ entry => ∀ a ∈ entry.destroys, a < w.nextAlloc ∧ a ∉ w.destroyed
  | .step n _ => ∀ f a, w.calls n = some f → f.pc = .callback a →
      ∀ m g, w.calls m = some g → g.pc.uncounted ≠ some a

/-! ## Tokens -/

inductive Token where
  | reg
  | call (n : Nat)
  | slot (i : Nat)
deriving DecidableEq, Repr

/-- No call works on descriptor `t`. -/
def World.Settled (w : World) (t : Nat) : Prop :=
  ∀ m g, w.calls m = some g → g.pc.desc ≠ some t

structure LifeInv (w : World) (tokens : AllocPtr → Finset Token) : Prop where
  card : ∀ a, (tokens a).card ≤ w.kref a
  reg : ∀ g a, w.reg g = some a → .reg ∈ tokens a ∧ w.tgid a = g ∧ a < w.nextAlloc ∧ a ∉ w.dead
  counted : ∀ n f a, w.calls n = some f → f.pc.counted = some a →
    .call n ∈ tokens a ∧ a < w.nextAlloc ∧ a ∉ w.dead
  uncounted : ∀ n f a, w.calls n = some f → f.pc.uncounted = some a → a < w.nextAlloc ∧ a ∉ w.dead
  slot : ∀ a i t, (w.threads a).slot i = some (.entry t) → w.Settled t → .slot i ∈ tokens a
  callback : ∀ n f a, w.calls n = some f → f.pc = .callback a →
    w.kref a = 0 ∧ a < w.nextAlloc ∧ a ∉ w.dead
  once : ∀ n f m g a, w.calls n = some f → f.pc = .callback a → w.calls m = some g →
    g.pc = .callback a → m = n
  destroying : ∀ n f a, w.calls n = some f → f.pc = .destroyErase a →
    w.reg (w.tgid a) = some a ∧ a ∈ w.destroyed ∧
      ∀ m g, w.calls m = some g → g.pc = .destroyErase a → m = n
  kept : ∀ a < w.nextAlloc, a ∉ w.destroyed → w.reg (w.tgid a) = some a
  dead : ∀ a ∈ w.dead, a < w.nextAlloc
  destroyed : ∀ a ∈ w.destroyed, a < w.nextAlloc

theorem LifeInv.init : LifeInv .init fun _ ↦ ∅ := by
  constructor <;> simp [World.init]

/-- Allocators that are there may be used. -/
theorem LifeInv.alive {w : World} {tokens : AllocPtr → Finset Token} (h : LifeInv w tokens) :
    Alive w := by
  rintro n ⟨pid, tgid, pc⟩ a hf ht
  cases pc <;> try simp only [Pc.touches, Option.some.injEq, reduceCtorEq] at ht
  case destroyErase b =>
    obtain ⟨hreg, -, -⟩ := h.destroying n _ b hf rfl
    exact ht ▸ (h.reg _ b hreg).2.2.2
  case callback b => exact ht ▸ (h.callback n _ b hf rfl).2.2
  case allocGet | forkGet | freeErase =>
    exact ht ▸ (h.uncounted n _ _ hf rfl).2
  case forkScan b parent pp t pl s =>
    have hparent : parent = a := by cases s <;> first | exact Option.some.inj ht | cases ht
    exact hparent ▸ (h.uncounted n _ parent hf rfl).2
  all_goals exact ht ▸ (h.counted n _ _ hf rfl).2.2

variable {w w' : World} {tokens tokens' : AllocPtr → Finset Token} {owner : Nat → DescOwner}
  {carrier : PlPtr → Option Nat} {n : Nat} {f : Frame} {pc : Pc} {a : AllocPtr}

/-- The allocators are the same, apart from their registration. -/
structure SameAllocs (w w' : World) : Prop where
  tgid : w'.tgid = w.tgid
  nextAlloc : w'.nextAlloc = w.nextAlloc
  dead : w'.dead = w.dead
  destroyed : w'.destroyed = w.destroyed

namespace LifeInv

/-- **The step of one call**, from `f` to `frame`: what has to be shown is about that call and about
the tables. -/
theorem step (h : LifeInv w tokens) (hf : w.calls n = some f) {frame : Option Frame}
    (hcalls : w'.calls = Function.update w.calls n frame) (hsame : SameAllocs w w')
    (hreg : ∀ g b, w'.reg g = some b → w.reg g = some b ∧ .reg ∈ tokens' b)
    (hunreg : ∀ g b, w.reg g = some b → w'.reg g = some b ∨ f.pc = .destroyErase b)
    (hcard : ∀ a, (tokens' a).card ≤ w'.kref a)
    (hkeep : ∀ a m, m ≠ n → .call m ∈ tokens a → .call m ∈ tokens' a)
    (hzero : ∀ a, w.kref a = 0 → w'.kref a = 0)
    (hcounted : ∀ f' a, frame = some f' → f'.pc.counted = some a →
      .call n ∈ tokens' a ∧ a < w.nextAlloc ∧ a ∉ w.dead)
    (huncounted : ∀ f' a, frame = some f' → f'.pc.uncounted = some a → a < w.nextAlloc ∧ a ∉ w.dead)
    (hdestroy : ∀ f' a, frame = some f' → f'.pc ≠ .destroyErase a)
    (hcallback : ∀ f' a, frame = some f' → f'.pc = .callback a →
      (w'.kref a = 0 ∧ a < w.nextAlloc ∧ a ∉ w.dead) ∧
        ∀ m g, w.calls m = some g → g.pc ≠ .callback a)
    (hslot : ∀ a i t, (w'.threads a).slot i = some (.entry t) → w'.Settled t → .slot i ∈ tokens' a) :
    LifeInv w' tokens' := by
  have hothers : ∀ m g, w'.calls m = some g → (m = n ∧ frame = some g) ∨ (m ≠ n ∧ w.calls m = some g) := by
    intro m g hg
    rw [hcalls] at hg
    exact update_eq_some hg
  obtain ⟨htgid, hnext, hdead, hdes⟩ := hsame
  constructor
  · exact hcard
  · intro g a hg
    obtain ⟨hg, hmem⟩ := hreg g a hg
    rw [htgid, hnext, hdead]
    exact ⟨hmem, (h.reg g a hg).2⟩
  · intro m g a hg ha
    rw [hnext, hdead]
    rcases hothers m g hg with ⟨rfl, hframe⟩ | ⟨hm, hg⟩
    · exact hcounted g a hframe ha
    · obtain ⟨hmem, hrest⟩ := h.counted m g a hg ha
      exact ⟨hkeep a m hm hmem, hrest⟩
  · intro m g a hg ha
    rw [hnext, hdead]
    rcases hothers m g hg with ⟨rfl, hframe⟩ | ⟨hm, hg⟩
    · exact huncounted g a hframe ha
    · exact h.uncounted m g a hg ha
  · exact hslot
  · intro m g a hg ha
    rw [hnext, hdead]
    rcases hothers m g hg with ⟨rfl, hframe⟩ | ⟨hm, hg⟩
    · exact (hcallback g a hframe ha).1
    · obtain ⟨hk, hrest⟩ := h.callback m g a hg ha
      exact ⟨hzero a hk, hrest⟩
  · intro m g m' g' a hg ha hg' ha'
    rcases hothers m g hg with ⟨rfl, hframe⟩ | ⟨hm, hg⟩
    · rcases hothers m' g' hg' with ⟨rfl, -⟩ | ⟨-, hg'⟩
      · rfl
      · exact absurd ha' ((hcallback g a hframe ha).2 m' g' hg')
    · rcases hothers m' g' hg' with ⟨rfl, hframe⟩ | ⟨-, hg'⟩
      · exact absurd ha ((hcallback g' a hframe ha').2 m g hg)
      · exact h.once m g m' g' a hg ha hg' ha'
  · intro m g a hg ha
    rw [htgid, hdes]
    rcases hothers m g hg with ⟨rfl, hframe⟩ | ⟨hm, hg⟩
    · exact absurd ha (hdestroy g a hframe)
    · obtain ⟨hr, hd, hu⟩ := h.destroying m g a hg ha
      refine ⟨(hunreg _ a hr).resolve_right fun hc ↦ hm (hu n f hf hc).symm, hd,
        fun m' g' hg' ha' ↦ ?_⟩
      rcases hothers m' g' hg' with ⟨rfl, hframe⟩ | ⟨-, hg'⟩
      · exact absurd ha' (hdestroy g' a hframe)
      · exact hu m' g' hg' ha'
  · rw [hnext, htgid, hdes]
    intro a ha hdes
    exact (hunreg _ a (h.kept a ha hdes)).resolve_right fun hc ↦ hdes (h.destroying n f a hf hc).2.1
  · rw [hnext, hdead]
    exact h.dead
  · rw [hnext, hdes]
    exact h.destroyed

/-- The descriptors in the tables keep their tokens in a step that shows nothing new but the
descriptor of the call, and lets go only of one that is in no table. -/
theorem slots (h : LifeInv w tokens) (w' : World) (hf : w.calls n = some f)
    (hcalls : w'.calls = Function.update w.calls n (some { f with pc := pc }))
    (hthreads : ∀ a i t, (w'.threads a).slot i = some (.entry t) →
      (w.threads a).slot i = some (.entry t) ∨ pc.desc = some t)
    (hdesc : ∀ t, f.pc.desc = some t →
      pc.desc = some t ∨ ∀ a i, (w'.threads a).slot i ≠ some (.entry t))
    {a : AllocPtr} {i t : Nat} (he : (w'.threads a).slot i = some (.entry t)) (hset : w'.Settled t) :
    .slot i ∈ tokens a := by
  have hn : pc.desc ≠ some t := hset n { f with pc := pc } (by rw [hcalls, Function.update_self])
  refine h.slot a i t ((hthreads a i t he).resolve_right hn) fun m g hg ht ↦ ?_
  by_cases hm : m = n
  · obtain rfl : f = g := Option.some.inj (hf.symm.trans (hm ▸ hg))
    rcases hdesc t ht with hc | hc
    · exact hn hc
    · exact hc a i he
  · exact hset m g (by rw [hcalls, Function.update_of_ne hm, hg]) ht

/-- A call goes on with the reference it has. -/
theorem move (h : LifeInv w tokens) (hf : w.calls n = some f)
    (hcalls : w'.calls = Function.update w.calls n (some { f with pc := pc })) (hsame : SameAllocs w w')
    (hreg : w'.reg = w.reg) (hkref : w'.kref = w.kref) (hcounted : ∀ a, pc.counted = some a → f.pc.counted = some a)
    (huncounted : ∀ a, pc.uncounted = some a → f.pc.uncounted = some a ∨ ∃ g, w.reg g = some a)
    (hpc : pc.Ordinary)
    (hthreads : ∀ a i t, (w'.threads a).slot i = some (.entry t) →
      (w.threads a).slot i = some (.entry t) ∨ pc.desc = some t)
    (hdesc : ∀ t, f.pc.desc = some t →
      pc.desc = some t ∨ ∀ a i, (w'.threads a).slot i ≠ some (.entry t)) : LifeInv w' tokens := by
  refine h.step hf hcalls hsame (fun g b hg ↦ ?_) (fun g b hg ↦ .inl (by rw [hreg, hg]))
    (by rw [hkref]; exact h.card) (fun _ _ _ hx ↦ hx)
    (fun a ha ↦ by rw [hkref, ha]) (fun f' b hf' hb ↦ ?_) (fun f' b hf' hb ↦ ?_) (fun f' b hf' ↦ ?_)
    (fun f' b hf' hb ↦ ?_) fun b i t he hset ↦ h.slots w' hf hcalls hthreads hdesc he hset
  · rw [hreg] at hg
    exact ⟨hg, (h.reg g b hg).1⟩
  all_goals obtain rfl : { f with pc := pc } = f' := Option.some.inj hf'
  · exact h.counted n f b hf (hcounted b hb)
  · rcases huncounted b hb with hb | ⟨g, hg⟩
    · exact h.uncounted n f b hf hb
    · exact (h.reg g b hg).2.2
  · exact (hpc.ne b).1
  · exact absurd hb (hpc.ne b).2

/-- A call that has no descriptor returns. -/
theorem leave (h : LifeInv w tokens) (hf : w.calls n = some f) (hnone : f.pc.desc = none)
    (hcalls : w'.calls = Function.update w.calls n none) (hsame : SameAllocs w w')
    (hreg : w'.reg = w.reg) (hcard : ∀ a, (tokens' a).card ≤ w'.kref a)
    (hkeep : ∀ a x, x ∈ tokens a → x ≠ .call n → x ∈ tokens' a)
    (hzero : ∀ a, w.kref a = 0 → w'.kref a = 0)
    (hthreads : ∀ a i t, (w'.threads a).slot i = some (.entry t) →
      (w.threads a).slot i = some (.entry t)) : LifeInv w' tokens' := by
  refine h.step hf hcalls hsame (fun g b hg ↦ ?_) (fun g b hg ↦ .inl (by rw [hreg, hg])) hcard
    (fun b m hm hx ↦ hkeep b _ hx fun hc ↦ hm (Token.call.inj hc)) hzero (fun _ _ hc ↦ by cases hc)
    (fun _ _ hc ↦ by cases hc) (fun _ _ hc ↦ by cases hc) (fun _ _ hc ↦ by cases hc)
    fun b i t he hset ↦ hkeep b _ (h.slot b i t (hthreads b i t he) fun m g hg ht ↦ ?_) (by simp)
  · rw [hreg] at hg
    exact ⟨hg, hkeep b _ (h.reg g b hg).1 (by simp)⟩
  · have hm : m ≠ n := by
      rintro rfl
      obtain rfl : f = g := Option.some.inj (hf.symm.trans hg)
      rw [hnone] at ht
      cases ht
    exact hset m g (by rw [hcalls, Function.update_of_ne hm, hg]) ht

/-- Changing the tokens of one allocator along with its count. -/
theorem card_update (h : LifeInv w tokens) {x : Finset Token} {k : Nat} (hx : x.card ≤ k) (b : AllocPtr) :
    (Function.update tokens a x b).card ≤ Function.update w.kref a k b := by
  by_cases hb : b = a
  · rw [hb, Function.update_self, Function.update_self]
    exact hx
  · rw [Function.update_of_ne hb, Function.update_of_ne hb]
    exact h.card b

/-- `kref_get_unless_zero`: the call is counted from now on. -/
theorem get (h : LifeInv w tokens) (hf : w.calls n = some f) (ha : f.pc.uncounted = some a)
    (hk : w.kref a ≠ 0) (hnone : f.pc.desc = none) (hcounted : pc.counted = some a)
    (huncounted : pc.uncounted = none) (hpc : pc.Ordinary) :
    LifeInv ((w.setKref a (w.kref a + 1)).goto n f pc)
      (Function.update tokens a (insert (.call n) (tokens a))) := by
  have hsub : ∀ b, tokens b ⊆ Function.update tokens a (insert (.call n) (tokens a)) b := by
    intro b
    by_cases hb : b = a
    · rw [hb, Function.update_self]
      exact Finset.subset_insert _ _
    · rw [Function.update_of_ne hb]
  have hle : (insert (Token.call n) (tokens a)).card ≤ w.kref a + 1 :=
    (Finset.card_insert_le _ _).trans (Nat.add_le_add_right (h.card a) 1)
  refine h.step hf rfl ⟨rfl, rfl, rfl, rfl⟩ (fun g b hg ↦ ⟨hg, hsub b (h.reg g b hg).1⟩)
    (fun _ _ hg ↦ .inl hg) (h.card_update hle) (fun b _ _ hx ↦ hsub b hx)
    (fun b hb ↦ ?_) (fun f' b hf' hb ↦ ?_) (fun f' b hf' hb ↦ ?_) (fun f' b hf' ↦ ?_)
    (fun f' b hf' hb ↦ ?_) fun b i t he hset ↦ hsub b (h.slots
      ((w.setKref a (w.kref a + 1)).goto n f pc) hf rfl (fun _ _ _ he ↦ .inl he)
      (fun t ht ↦ by simp [hnone] at ht) he hset)
  · have hne : b ≠ a := by
      rintro rfl
      exact hk hb
    exact (Function.update_of_ne hne _ _).trans hb
  all_goals obtain rfl : { f with pc := pc } = f' := Option.some.inj hf'
  · obtain rfl : a = b := Option.some.inj (hcounted.symm.trans hb)
    rw [Function.update_self]
    exact ⟨Finset.mem_insert_self _ _, h.uncounted n f a hf ha⟩
  · have hb' : pc.uncounted = some b := hb
    rw [huncounted] at hb'
    cases hb'
  · exact (hpc.ne b).1
  · exact absurd hb (hpc.ne b).2

/-- `alloc_put` of a reference that is not the last. -/
theorem put (h : LifeInv w tokens) (hf : w.calls n = some f) (hpc : f.pc = .put a) :
    LifeInv ((w.setKref a (w.kref a - 1)).finish n)
      (Function.update tokens a ((tokens a).erase (.call n))) := by
  obtain ⟨hmem, -, -⟩ := h.counted n f a hf (by rw [hpc]; rfl)
  have hcard := h.card a
  have hle : ((tokens a).erase (.call n)).card ≤ w.kref a - 1 := by
    rw [Finset.card_erase_of_mem hmem]
    omega
  refine h.leave hf (by rw [hpc]; rfl) rfl ⟨rfl, rfl, rfl, rfl⟩ rfl (h.card_update hle)
    (fun b x hx hne ↦ ?_) (fun b hb ↦ ?_) fun _ _ _ he ↦ he
  · by_cases hb : b = a
    · subst hb
      rw [Function.update_self]
      exact Finset.mem_erase.mpr ⟨hne, hx⟩
    · rwa [Function.update_of_ne hb]
  · by_cases hb' : b = a
    · subst hb'
      exact (Function.update_self _ _ _).trans (by omega)
    · exact (Function.update_of_ne hb' _ _).trans hb

/-- `alloc_put` of the last reference: no token is left, in particular no registration. -/
theorem put_last (h : LifeInv w tokens) (hf : w.calls n = some f) (hpc : f.pc = .put a)
    (hk : w.kref a = 1) :
    LifeInv ((w.setKref a 0).goto n f (.callback a)) (Function.update tokens a ∅) := by
  obtain ⟨hmem, hlt, hdead⟩ := h.counted n f a hf (by rw [hpc]; rfl)
  have hone : tokens a = {.call n} := by
    refine (Finset.eq_of_subset_of_card_le (Finset.singleton_subset_iff.mpr hmem) ?_).symm
    rw [Finset.card_singleton, ← hk]
    exact h.card a
  have hnone : ∀ x, x ∈ tokens a → x = .call n := fun x hx ↦ by
    rwa [hone, Finset.mem_singleton] at hx
  refine h.step hf rfl ⟨rfl, rfl, rfl, rfl⟩ (fun g b hg ↦ ⟨hg, ?_⟩) (fun _ _ hg ↦ .inl hg)
    (h.card_update (le_of_eq Finset.card_empty)) (fun b m hm hx ↦ ?_) (fun b hb ↦ ?_) (fun f' b hf' hb ↦ ?_) (fun f' b hf' hb ↦ ?_)
    (fun f' b hf' hb ↦ ?_) (fun f' b hf' hb ↦ ?_) fun b i t he hset ↦ ?_
  · have hb : b ≠ a := by
      rintro rfl
      cases hnone _ (h.reg g b hg).1
    rw [Function.update_of_ne hb]
    exact (h.reg g b hg).1
  · have hb : b ≠ a := by
      rintro rfl
      exact hm (Token.call.inj (hnone _ hx))
    rwa [Function.update_of_ne hb]
  · by_cases hb' : b = a
    · subst hb'
      exact Function.update_self _ _ _
    · exact (Function.update_of_ne hb' _ _).trans hb
  · obtain rfl := Option.some.inj hf'
    cases hb
  · obtain rfl := Option.some.inj hf'
    cases hb
  · obtain rfl := Option.some.inj hf'
    cases hb
  · obtain rfl := Option.some.inj hf'
    obtain rfl : a = b := Pc.callback.inj hb
    refine ⟨⟨Function.update_self _ _ _, hlt, hdead⟩, fun m g hg hc ↦ ?_⟩
    have := (h.callback m g a hg hc).1
    omega
  · have hold : Token.slot i ∈ tokens b := h.slots ((w.setKref a 0).goto n f (.callback a)) hf rfl
      (fun _ _ _ he ↦ .inl he) (fun t ht ↦ by simp [hpc, Pc.desc] at ht) he hset
    have hb : b ≠ a := by
      rintro rfl
      cases hnone _ hold
    rwa [Function.update_of_ne hb]

/-- A call that shows its descriptor returns and leaves its reference to the descriptor. -/
theorem settle (h : LifeInv w tokens) (hd : DescInv False w owner carrier) (hf : w.calls n = some f)
    {id t : Nat} (hdesc : f.pc.desc = some t) (hshown : f.pc.shown = some (a, id))
    (hcounted : f.pc.counted = some a) (hcalls : w'.calls = Function.update w.calls n none)
    (hsame : SameAllocs w w') (hreg : w'.reg = w.reg) (hkref : w'.kref = w.kref)
    (hthreads : w'.threads = w.threads) :
    LifeInv w' (Function.update tokens a (insert (.slot id) ((tokens a).erase (.call n)))) := by
  obtain ⟨hmem, -, -⟩ := h.counted n f a hf hcounted
  have hle : (insert (Token.slot id) ((tokens a).erase (.call n))).card ≤ w.kref a := by
    refine (Finset.card_insert_le _ _).trans ?_
    rw [Finset.card_erase_add_one hmem]
    exact h.card a
  have hsub : ∀ b x, x ∈ tokens b → x ≠ .call n →
      x ∈ Function.update tokens a (insert (.slot id) ((tokens a).erase (.call n))) b := by
    intro b x hx hne
    by_cases hb : b = a
    · subst hb
      rw [Function.update_self]
      exact Finset.mem_insert_of_mem (Finset.mem_erase.mpr ⟨hne, hx⟩)
    · rwa [Function.update_of_ne hb]
  refine h.step hf hcalls hsame (fun g b hg ↦ ?_) (fun g b hg ↦ .inl (by rw [hreg, hg])) (fun b ↦ ?_)
    (fun b m hm hx ↦ hsub b _ hx fun hc ↦ hm (Token.call.inj hc))
    (fun b hb ↦ by rw [hkref, hb]) (fun _ _ hc ↦ by cases hc) (fun _ _ hc ↦ by cases hc)
    (fun _ _ hc ↦ by cases hc) (fun _ _ hc ↦ by cases hc) fun b i t' he hset ↦ ?_
  · rw [hreg] at hg
    exact ⟨hg, hsub b _ (h.reg g b hg).1 (by simp)⟩
  · rw [hkref]
    have := h.card_update (a := a) hle b
    rwa [Function.update_eq_self] at this
  · rw [hthreads] at he
    by_cases ht' : t' = t
    · -- the descriptor of the call is in its own slot
      subst ht'
      have := hd.shown_of_entry hf hdesc he
      rw [hshown] at this
      obtain ⟨rfl, rfl⟩ := Prod.mk.inj (Option.some.inj this)
      rw [Function.update_self]
      exact Finset.mem_insert_self _ _
    · refine hsub b _ (h.slot b i t' he fun m g hg ht ↦ ?_) (by simp)
      have hm : m ≠ n := by
        rintro rfl
        obtain rfl : f = g := Option.some.inj (hf.symm.trans hg)
        exact ht' (Option.some.inj (ht.symm.trans hdesc))
      exact hset m g (by rw [hcalls, Function.update_of_ne hm, hg]) ht

/-- `sa_free` takes a descriptor and its reference. -/
theorem take (h : LifeInv w tokens) (hf : w.calls n = some f) {i t : Nat} (hpc : f.pc = .freeErase a i)
    (he : (w.threads a).slot i = some (.entry t)) (hset : w.Settled t)
    (hcalls : w'.calls = Function.update w.calls n (some { f with pc := .freeUnmap a t }))
    (hsame : SameAllocs w w') (hreg : w'.reg = w.reg) (hkref : w'.kref = w.kref)
    (hthreads : w'.threads = Function.update w.threads a ((w.threads a).erase i)) :
    LifeInv w' (Function.update tokens a (insert (.call n) ((tokens a).erase (.slot i)))) := by
  have hmem := h.slot a i t he hset
  have hle : (insert (Token.call n) ((tokens a).erase (.slot i))).card ≤ w.kref a := by
    refine (Finset.card_insert_le _ _).trans ?_
    rw [Finset.card_erase_add_one hmem]
    exact h.card a
  have hsub : ∀ b x, x ∈ tokens b → (b = a → x ≠ .slot i) →
      x ∈ Function.update tokens a (insert (.call n) ((tokens a).erase (.slot i))) b := by
    intro b x hx hne
    by_cases hb : b = a
    · subst hb
      rw [Function.update_self]
      exact Finset.mem_insert_of_mem (Finset.mem_erase.mpr ⟨hne rfl, hx⟩)
    · rwa [Function.update_of_ne hb]
  have hslots : ∀ b j t', (w'.threads b).slot j = some (.entry t') →
      (w.threads b).slot j = some (.entry t') ∧ (b = a → j ≠ i) := by
    intro b j t' he'
    rw [hthreads] at he'
    by_cases hb : b = a
    · subst hb
      rw [Function.update_self, Xarray.slot_erase] at he'
      split at he'
      · cases he'
      · next hj => exact ⟨he', fun _ ↦ hj⟩
    · rw [Function.update_of_ne hb] at he'
      exact ⟨he', fun hc ↦ absurd hc hb⟩
  refine h.step hf hcalls hsame (fun g b hg ↦ ?_) (fun g b hg ↦ .inl (by rw [hreg, hg])) (fun b ↦ ?_)
    (fun b m _ hx ↦ hsub b _ hx (by simp)) (fun b hb ↦ by rw [hkref, hb]) (fun f' b hf' hb ↦ ?_) (fun f' b hf' hb ↦ ?_)
    (fun f' b hf' hb ↦ ?_) (fun f' b hf' hb ↦ ?_) fun b j t' he' hset' ↦ ?_
  · rw [hreg] at hg
    exact ⟨hg, hsub b _ (h.reg g b hg).1 (by simp)⟩
  · rw [hkref]
    have := h.card_update (a := a) hle b
    rwa [Function.update_eq_self] at this
  · obtain rfl := Option.some.inj hf'
    obtain rfl : a = b := Option.some.inj hb
    rw [Function.update_self]
    exact ⟨Finset.mem_insert_self _ _, h.uncounted n f a hf (by rw [hpc]; rfl)⟩
  · obtain rfl := Option.some.inj hf'
    cases hb
  · obtain rfl := Option.some.inj hf'
    cases hb
  · obtain rfl := Option.some.inj hf'
    cases hb
  · obtain ⟨hold, hne⟩ := hslots b j t' he'
    refine hsub b _ ?_ fun hb hc ↦ hne hb (Token.slot.inj hc)
    refine h.slots w' hf hcalls (fun b j t' he' ↦ .inl (hslots b j t' he').1) (fun t' ht' ↦ ?_) he' hset'
    rw [hpc] at ht'
    cases ht'

/-- `alloc_destroy` ends the registration and takes over its reference. -/
theorem deregister (h : LifeInv w tokens) (hf : w.calls n = some f) (hpc : f.pc = .destroyErase a) :
    LifeInv { w.goto n f (.put a) with reg := Function.update w.reg (w.tgid a) none }
      (Function.update tokens a (insert (.call n) ((tokens a).erase .reg))) := by
  obtain ⟨hreg, -, -⟩ := h.destroying n f a hf hpc
  obtain ⟨hmem, -, hlt, hdead⟩ := h.reg _ a hreg
  have hle : (insert (Token.call n) ((tokens a).erase .reg)).card ≤ w.kref a := by
    refine (Finset.card_insert_le _ _).trans ?_
    rw [Finset.card_erase_add_one hmem]
    exact h.card a
  have hsub : ∀ b x, x ∈ tokens b → (b = a → x ≠ .reg) →
      x ∈ Function.update tokens a (insert (.call n) ((tokens a).erase .reg)) b := by
    intro b x hx hne
    by_cases hb : b = a
    · subst hb
      rw [Function.update_self]
      exact Finset.mem_insert_of_mem (Finset.mem_erase.mpr ⟨hne rfl, hx⟩)
    · rwa [Function.update_of_ne hb]
  refine h.step hf rfl ⟨rfl, rfl, rfl, rfl⟩ (fun g b hg ↦ ?_) (fun g b hg ↦ ?_) (fun b ↦ ?_)
    (fun b m _ hx ↦ hsub b _ hx (by simp)) (fun _ hb ↦ hb) (fun f' b hf' hb ↦ ?_)
    (fun f' b hf' hb ↦ ?_) (fun f' b hf' hb ↦ ?_) (fun f' b hf' hb ↦ ?_) fun b i t he hset ↦ ?_
  · have hne : g ≠ w.tgid a := by
      rintro rfl
      have hg' : Function.update w.reg (w.tgid a) none (w.tgid a) = some b := hg
      rw [Function.update_self] at hg'
      cases hg'
    have hg' : w.reg g = some b := (Function.update_of_ne hne _ _).symm.trans hg
    refine ⟨hg', hsub b _ (h.reg g b hg').1 fun hb _ ↦ hne ?_⟩
    rw [← (h.reg g b hg').2.1, hb]
  · by_cases hg' : g = w.tgid a
    · subst hg'
      exact .inr (Option.some.inj (hreg.symm.trans hg) ▸ hpc)
    · exact .inl ((Function.update_of_ne hg' _ _).trans hg)
  · have := h.card_update (a := a) hle b
    rwa [Function.update_eq_self] at this
  · obtain rfl := Option.some.inj hf'
    obtain rfl : a = b := Option.some.inj hb
    rw [Function.update_self]
    exact ⟨Finset.mem_insert_self _ _, hlt, hdead⟩
  · obtain rfl := Option.some.inj hf'
    cases hb
  · obtain rfl := Option.some.inj hf'
    cases hb
  · obtain rfl := Option.some.inj hf'
    cases hb
  · refine hsub b _ (h.slots { w.goto n f (.put a) with reg := Function.update w.reg (w.tgid a) none }
      hf rfl (fun _ _ _ he ↦ .inl he) (fun t ht ↦ ?_) he hset) (by simp)
    rw [hpc] at ht
    cases ht

/-- `alloc_destroy_callback`, when nobody points to the allocator any more. -/
theorem bury (h : LifeInv w tokens) (hf : w.calls n = some f) (hpc : f.pc = .callback a)
    (hquiet : ∀ m g, w.calls m = some g → g.pc.uncounted ≠ some a) :
    LifeInv { w.finish n with dead := insert a w.dead } tokens := by
  obtain ⟨hk, hlt, -⟩ := h.callback n f a hf hpc
  have hempty : ∀ x, x ∉ tokens a := by
    intro x hx
    have := Finset.card_pos.mpr ⟨x, hx⟩
    have := h.card a
    omega
  have hleft : LifeInv (w.finish n) tokens :=
    h.leave hf (by rw [hpc]; rfl) rfl ⟨rfl, rfl, rfl, rfl⟩ rfl h.card (fun _ _ hx _ ↦ hx)
      (fun _ hb ↦ hb) fun _ _ _ he ↦ he
  have hold : ∀ m g, (w.finish n).calls m = some g → m ≠ n ∧ w.calls m = some g := by
    intro m g hg
    have hm : m ≠ n := by
      rintro rfl
      simp [World.finish] at hg
    exact ⟨hm, by simpa [World.finish, hm] using hg⟩
  have hmem : ∀ b, b ∉ w.dead → b ≠ a → b ∉ insert a w.dead := by
    intro b hb hne hc
    exact (Finset.mem_insert.mp hc).elim hne hb
  constructor
  · exact h.card
  · intro g b hg
    obtain ⟨hx, hrest, hb, hd⟩ := hleft.reg g b hg
    refine ⟨hx, hrest, hb, hmem b hd ?_⟩
    rintro rfl
    exact hempty _ hx
  · intro m g b hg hc
    obtain ⟨hx, hb, hd⟩ := hleft.counted m g b hg hc
    refine ⟨hx, hb, hmem b hd ?_⟩
    rintro rfl
    exact hempty _ hx
  · intro m g b hg hc
    obtain ⟨hb, hd⟩ := hleft.uncounted m g b hg hc
    refine ⟨hb, hmem b hd ?_⟩
    rintro rfl
    exact hquiet m g (hold m g hg).2 hc
  · exact hleft.slot
  · intro m g b hg hc
    obtain ⟨hz, hb, hd⟩ := hleft.callback m g b hg hc
    refine ⟨hz, hb, hmem b hd ?_⟩
    rintro rfl
    exact (hold m g hg).1 (h.once n f m g b hf hpc (hold m g hg).2 hc)
  · exact hleft.once
  · exact hleft.destroying
  · exact hleft.kept
  · intro b hb
    rcases Finset.mem_insert.mp hb with rfl | hb
    · exact hlt
    · exact h.dead b hb
  · exact h.destroyed

theorem create (h : LifeInv w tokens) {tgid : Nat} (hfree : w.reg tgid = none) :
    LifeInv { w with
      reg := Function.update w.reg tgid (some w.nextAlloc)
      tgid := Function.update w.tgid w.nextAlloc tgid
      threads := Function.update w.threads w.nextAlloc .empty
      maxId := Function.update w.maxId w.nextAlloc 0
      kref := Function.update w.kref w.nextAlloc 1
      nextAlloc := w.nextAlloc + 1 } (Function.update tokens w.nextAlloc {.reg}) := by
  have hne : ∀ b, b < w.nextAlloc → b ≠ w.nextAlloc := fun b hb ↦ ne_of_lt hb
  have htok : ∀ b x, b < w.nextAlloc → x ∈ tokens b →
      x ∈ Function.update tokens w.nextAlloc {.reg} b := by
    intro b x hb hx
    rwa [Function.update_of_ne (hne b hb)]
  have hkept : ∀ b, b < w.nextAlloc → w.reg (w.tgid b) = some b →
      Function.update w.reg tgid (some w.nextAlloc)
        (Function.update w.tgid w.nextAlloc tgid b) = some b := by
    intro b hb hr
    have hg : w.tgid b ≠ tgid := by
      intro hc
      rw [hc, hfree] at hr
      cases hr
    rw [Function.update_of_ne (hne b hb), Function.update_of_ne hg, hr]
  constructor
  · exact h.card_update (by simp)
  · intro g b hg
    have hg' : Function.update w.reg tgid (some w.nextAlloc) g = some b := hg
    by_cases hgt : g = tgid
    · rw [hgt, Function.update_self] at hg'
      obtain rfl := Option.some.inj hg'
      refine ⟨by rw [Function.update_self]; exact Finset.mem_singleton_self _, ?_, Nat.lt_succ_self _,
        fun hc ↦ lt_irrefl _ (h.dead _ hc)⟩
      exact (Function.update_self _ _ _).trans hgt.symm
    · rw [Function.update_of_ne hgt] at hg'
      obtain ⟨hx, ht, hb, hd⟩ := h.reg g b hg'
      exact ⟨htok b _ hb hx, (Function.update_of_ne (hne b hb) _ _).trans ht, Nat.lt_succ_of_lt hb, hd⟩
  · intro m g b hg hc
    obtain ⟨hx, hb, hd⟩ := h.counted m g b hg hc
    exact ⟨htok b _ hb hx, Nat.lt_succ_of_lt hb, hd⟩
  · intro m g b hg hc
    obtain ⟨hb, hd⟩ := h.uncounted m g b hg hc
    exact ⟨Nat.lt_succ_of_lt hb, hd⟩
  · intro b i t he hset
    by_cases hb : b = w.nextAlloc
    · simp [hb] at he
    · rw [Function.update_of_ne hb]
      exact h.slot b i t (by simpa [hb] using he) hset
  · intro m g b hg hc
    obtain ⟨hz, hb, hd⟩ := h.callback m g b hg hc
    exact ⟨(Function.update_of_ne (hne b hb) _ _).trans hz, Nat.lt_succ_of_lt hb, hd⟩
  · exact h.once
  · intro m g b hg hc
    obtain ⟨hr, hd, hu⟩ := h.destroying m g b hg hc
    exact ⟨hkept b (h.destroyed b hd) hr, hd, hu⟩
  · intro b hb hd
    rcases Nat.lt_succ_iff_lt_or_eq.mp hb with hb | rfl
    · exact hkept b hb (h.kept b hb hd)
    · change Function.update w.reg tgid (some w.nextAlloc)
        (Function.update w.tgid w.nextAlloc tgid w.nextAlloc) = some w.nextAlloc
      rw [Function.update_self, Function.update_self]
  · intro b hb
    exact Nat.lt_succ_of_lt (h.dead b hb)
  · intro b hb
    exact Nat.lt_succ_of_lt (h.destroyed b hb)

theorem enter (h : LifeInv w tokens) (hd : DescInv False w owner carrier) (pid tgid : Nat) {entry : Entry}
    (hentry : ∀ a ∈ entry.destroys, a < w.nextAlloc ∧ a ∉ w.destroyed) :
    LifeInv { w with
      calls := Function.update w.calls w.nextCall (some ⟨pid, tgid, entry.pc⟩)
      nextCall := w.nextCall + 1
      destroyed := w.destroyed ∪ entry.destroys } tokens := by
  have hother : ∀ m g, Function.update w.calls w.nextCall (some ⟨pid, tgid, entry.pc⟩) m = some g →
      (m = w.nextCall ∧ g.pc = entry.pc) ∨ (m ≠ w.nextCall ∧ w.calls m = some g) := by
    intro m g hg
    refine (update_eq_some hg).imp_left ?_
    rintro ⟨hm, hx⟩
    exact ⟨hm, by rw [← Option.some.inj hx]⟩
  have hcounted : entry.pc.counted = none := by cases entry <;> rfl
  have huncounted : entry.pc.uncounted = none := by cases entry <;> rfl
  have hcallback : ∀ a, entry.pc ≠ .callback a := by cases entry <;> simp [Entry.pc]
  have hdestroy : ∀ a, entry.pc = .destroyErase a → a ∈ entry.destroys := by
    intro a ha
    cases entry with
    | allocDestroy b =>
        obtain rfl : b = a := Pc.destroyErase.inj ha
        exact Finset.mem_singleton_self _
    | saAlloc => cases ha
    | saFork => cases ha
    | saFree => cases ha
  constructor
  · exact h.card
  · exact h.reg
  · intro m g b hg hc
    rcases hother m g hg with ⟨-, hpc⟩ | ⟨-, hg⟩
    · rw [hpc, hcounted] at hc
      cases hc
    · exact h.counted m g b hg hc
  · intro m g b hg hc
    rcases hother m g hg with ⟨-, hpc⟩ | ⟨-, hg⟩
    · rw [hpc, huncounted] at hc
      cases hc
    · exact h.uncounted m g b hg hc
  · intro b i t he hset
    refine h.slot b i t he fun m g hg ↦ hset m g ?_
    have hm : m ≠ w.nextCall := by
      rintro rfl
      rw [hd.calls _ le_rfl] at hg
      cases hg
    exact (Function.update_of_ne hm _ _).trans hg
  · intro m g b hg hc
    rcases hother m g hg with ⟨-, hpc⟩ | ⟨-, hg⟩
    · exact absurd (hpc ▸ hc) (hcallback b)
    · exact h.callback m g b hg hc
  · intro m g m' g' b hg hc hg' hc'
    rcases hother m g hg with ⟨-, hpc⟩ | ⟨-, hg⟩
    · exact absurd (hpc ▸ hc) (hcallback b)
    · rcases hother m' g' hg' with ⟨-, hpc⟩ | ⟨-, hg'⟩
      · exact absurd (hpc ▸ hc') (hcallback b)
      · exact h.once m g m' g' b hg hc hg' hc'
  · intro m g b hg hc
    rcases hother m g hg with ⟨rfl, hpc⟩ | ⟨-, hg⟩
    · have hb := hdestroy b (hpc ▸ hc)
      obtain ⟨hlt, hnot⟩ := hentry b hb
      refine ⟨h.kept b hlt hnot, Finset.mem_union_right _ hb, fun m' g' hg' hc' ↦ ?_⟩
      rcases hother m' g' hg' with ⟨rfl, -⟩ | ⟨-, hg'⟩
      · rfl
      · exact absurd (h.destroying m' g' b hg' hc').2.1 hnot
    · obtain ⟨hr, hdes, hu⟩ := h.destroying m g b hg hc
      refine ⟨hr, Finset.mem_union_left _ hdes, fun m' g' hg' hc' ↦ ?_⟩
      rcases hother m' g' hg' with ⟨rfl, hpc⟩ | ⟨-, hg'⟩
      · exact absurd hdes (hentry b (hdestroy b (hpc ▸ hc'))).2
      · exact hu m' g' hg' hc'
  · intro b hb hdes
    exact h.kept b hb fun hc ↦ hdes (Finset.mem_union_left _ hc)
  · exact h.dead
  · intro b hb
    rcases Finset.mem_union.mp hb with hb | hb
    · exact h.destroyed b hb
    · exact (hentry b hb).1

/-! ## One step of a call -/

/-- Nothing that concerns allocators has changed. -/
theorem congr (h : LifeInv w tokens) (hsame : SameAllocs w w') (hcalls : w'.calls = w.calls)
    (hreg : w'.reg = w.reg) (hkref : w'.kref = w.kref) (hthreads : w'.threads = w.threads) :
    LifeInv w' tokens := by
  obtain ⟨card, reg, counted, uncounted, slot, callback, once, destroying, kept, dead, destroyed⟩ := h
  obtain ⟨htgid, hnext, hdead, hdes⟩ := hsame
  constructor <;>
    simpa only [World.Settled, hcalls, hreg, hkref, hthreads, htgid, hnext, hdead, hdes]

/-- A call goes on with the reference it has. -/
theorem goto (h : LifeInv w tokens) (hf : w.calls n = some f) (pc : Pc)
    (hcounted : ∀ a, pc.counted = some a → f.pc.counted = some a)
    (huncounted : ∀ a, pc.uncounted = some a → f.pc.uncounted = some a ∨ ∃ g, w.reg g = some a)
    (hpc : pc.Ordinary) (hdesc : ∀ t, f.pc.desc = some t → pc.desc = some t) :
    LifeInv (w.goto n f pc) tokens :=
  h.move hf rfl ⟨rfl, rfl, rfl, rfl⟩ rfl rfl hcounted huncounted hpc (fun _ _ _ he ↦ .inl he)
    fun t ht ↦ .inl (hdesc t ht)

/-- A counted call goes on, with no other pointer. -/
theorem goto_counted (h : LifeInv w tokens) (hf : w.calls n = some f) (pc : Pc)
    (hcounted : pc.counted = f.pc.counted) (huncounted : pc.uncounted = none)
    (hpc : pc.Ordinary) (hdesc : ∀ t, f.pc.desc = some t → pc.desc = some t) :
    LifeInv (w.goto n f pc) tokens :=
  h.goto hf pc (fun a ha ↦ hcounted ▸ ha) (fun a ha ↦ by simp [huncounted] at ha) hpc hdesc

theorem finish (h : LifeInv w tokens) (hf : w.calls n = some f) (hnone : f.pc.desc = none) :
    LifeInv (w.finish n) tokens :=
  h.leave hf hnone rfl ⟨rfl, rfl, rfl, rfl⟩ rfl h.card (fun _ _ hx _ ↦ hx) (fun _ hb ↦ hb)
    fun _ _ _ he ↦ he

theorem glFree (h : LifeInv w tokens) (pl : PlPtr) :
    LifeInv (w.glFree pl) tokens ∧ (w.glFree pl).calls = w.calls := by
  unfold World.glFree
  split
  · exact ⟨h.congr ⟨rfl, rfl, rfl, rfl⟩ rfl rfl rfl rfl, rfl⟩
  · exact ⟨h.congr ⟨rfl, rfl, rfl, rfl⟩ rfl rfl rfl rfl, rfl⟩

theorem glAllocStack (h : LifeInv w tokens) {ok : Bool} {pl : PlPtr}
    (hs : w.glAllocStack ok = some (pl, w')) : LifeInv w' tokens ∧ w'.calls = w.calls := by
  unfold World.glAllocStack at hs
  split at hs
  · obtain ⟨rfl, rfl⟩ := Prod.mk.inj (Option.some.inj hs)
    exact ⟨h.congr ⟨rfl, rfl, rfl, rfl⟩ rfl rfl rfl rfl, rfl⟩
  · split_ifs at hs
    obtain ⟨rfl, rfl⟩ := Prod.mk.inj (Option.some.inj hs)
    exact ⟨h.congr ⟨rfl, rfl, rfl, rfl⟩ rfl rfl rfl rfl, rfl⟩

theorem setDesc (h : LifeInv w tokens) (t : Nat) (d : Option ThreadDesc) :
    LifeInv (w.setDesc t d) tokens :=
  h.congr ⟨rfl, rfl, rfl, rfl⟩ rfl rfl rfl rfl

theorem raiseMax (h : LifeInv w tokens) (a : AllocPtr) (id : Nat) : LifeInv (w.raiseMax a id) tokens :=
  h.congr ⟨rfl, rfl, rfl, rfl⟩ rfl rfl rfl rfl

theorem kmalloc (h : LifeInv w tokens) : LifeInv w.kmalloc tokens :=
  h.congr ⟨rfl, rfl, rfl, rfl⟩ rfl rfl rfl rfl

/-- One slot of a table changes, and shows no other descriptor than that of the call. -/
theorem setThreads (h : LifeInv w tokens) (hf : w.calls n = some f) {x : Xarray Nat}
    (hx : ∀ i t, x.slot i = some (.entry t) →
      (w.threads a).slot i = some (.entry t) ∨ pc.desc = some t)
    (hcounted : ∀ a, pc.counted = some a → f.pc.counted = some a)
    (huncounted : ∀ a, pc.uncounted = some a → f.pc.uncounted = some a)
    (hpc : pc.Ordinary) (hdesc : ∀ t, f.pc.desc = some t → pc.desc = some t) :
    LifeInv ((w.setThreads a x).goto n f pc) tokens := by
  refine h.move hf rfl ⟨rfl, rfl, rfl, rfl⟩ rfl rfl hcounted (fun b hb ↦ .inl (huncounted b hb)) hpc
    (fun b i t he ↦ ?_) fun t ht ↦ .inl (hdesc t ht)
  by_cases hb : b = a
  · subst hb
    exact hx i t (by simpa [World.setThreads, World.goto] using he)
  · exact .inl (by simpa [World.setThreads, World.goto, hb] using he)

/-- `kfree` of a descriptor that is in no table. -/
theorem kfree (h : LifeInv w tokens) (hd : DescInv False w owner carrier) (hf : w.calls n = some f) {t : Nat}
    (ht : f.pc.desc = some t) (hshown : f.pc.shown = none)
    (hcounted : ∀ a, pc.counted = some a → f.pc.counted = some a) (huncounted : pc.uncounted = none)
    (hpc : pc.Ordinary) :
    LifeInv ((w.setDesc t none).goto n f pc) tokens := by
  refine h.move hf rfl ⟨rfl, rfl, rfl, rfl⟩ rfl rfl hcounted (fun b hb ↦ ?_) hpc
    (fun _ _ _ he ↦ .inl he) fun t' ht' ↦ .inr fun b i ↦ ?_
  · rw [huncounted] at hb
    cases hb
  · obtain rfl : t = t' := Option.some.inj (ht.symm.trans ht')
    exact hd.notMem hf ht hshown b i

theorem slot_erase {x : Xarray Nat} {id i t : Nat} (he : (x.erase id).slot i = some (.entry t)) :
    x.slot i = some (.entry t) := by
  rw [Xarray.slot_erase] at he
  split at he
  · cases he
  · exact he

theorem slot_set {x : Xarray Nat} {id i t t' : Nat}
    (he : (x.set id (.entry t')).slot i = some (.entry t)) :
    x.slot i = some (.entry t) ∨ some t' = some t := by
  rw [Xarray.slot_set] at he
  split at he
  · exact .inr (congrArg some (Slot.entry.inj (Option.some.inj he)))
  · exact .inl he

theorem stepAlloc (h : LifeInv w tokens) (hd : DescInv False w owner carrier) {ans : Answer}
    (hf : w.calls n = some f) : ∃ tokens', LifeInv (Conc.stepAlloc w n f ans f.pc) tokens' := by
  obtain ⟨pid, tgid, pc⟩ := f
  cases pc with
  | allocFind =>
      refine ⟨tokens, ?_⟩
      simp only [Conc.stepAlloc]
      split
      · exact h.finish hf rfl
      · next a ha =>
          refine h.goto hf _ (fun _ hc ↦ by cases hc) (fun b hb ↦ .inr ⟨tgid, ?_⟩)
            trivial fun _ ht ↦ by cases ht
          rw [ha, ← Option.some.inj hb]
  | allocGet a =>
      simp only [Conc.stepAlloc]
      split
      · exact ⟨tokens, h.finish hf rfl⟩
      · next hk => exact ⟨_, h.get hf rfl hk rfl rfl rfl trivial⟩
  | allocReserve a =>
      refine ⟨tokens, ?_⟩
      have hput : LifeInv (w.goto n ⟨pid, tgid, .allocReserve a⟩ (.put a)) tokens :=
        h.goto_counted hf _ rfl rfl trivial fun _ ht ↦ by cases ht
      simp only [Conc.stepAlloc]
      split
      · exact hput
      · split
        · refine h.setThreads hf (fun i t he ↦ .inl ?_) (fun _ hc ↦ hc) (fun _ hc ↦ by cases hc)
            trivial fun _ ht ↦ by cases ht
          rw [Xarray.slot_set] at he
          split at he
          · cases he
          · exact he
        · exact hput
  | allocThread a id =>
      refine ⟨tokens, ?_⟩
      simp only [Conc.stepAlloc]
      split
      · exact h.kmalloc.goto_counted hf _ rfl rfl trivial fun _ ht ↦ by cases ht
      · exact h.goto_counted hf _ rfl rfl trivial fun _ ht ↦ by cases ht
  | allocStack a id t =>
      refine ⟨tokens, ?_⟩
      simp only [Conc.stepAlloc]
      split
      · exact h.goto_counted hf _ rfl rfl trivial fun _ ht ↦ ht
      · next pl w' hs =>
          obtain ⟨h', hcalls⟩ := h.glAllocStack hs
          rw [← hcalls] at hf
          exact (h'.setDesc t _).goto_counted hf _ rfl rfl trivial fun _ ht ↦ ht
  | allocMap a id t =>
      refine ⟨tokens, ?_⟩
      simp only [Conc.stepAlloc]
      split
      · exact h.goto_counted hf _ rfl rfl trivial fun _ ht ↦ ht
      · exact h.goto_counted hf _ rfl rfl trivial fun _ ht ↦ ht
  | allocMax a id t =>
      exact ⟨tokens, (h.raiseMax a id).goto_counted hf _ rfl rfl trivial
        fun _ ht ↦ ht⟩
  | allocStore a id t =>
      refine ⟨tokens, ?_⟩
      simp only [Conc.stepAlloc]
      split
      · exact h.setThreads hf (fun i t' he ↦ slot_set he) (fun _ hc ↦ hc) (fun _ hc ↦ by cases hc)
          trivial fun _ ht ↦ ht
      · exact h.goto_counted hf _ rfl rfl trivial fun _ ht ↦ ht
  | allocRead a id t =>
      exact ⟨_, h.settle hd hf rfl rfl rfl rfl ⟨rfl, rfl, rfl, rfl⟩ rfl rfl rfl⟩
  | allocGlFree a id t =>
      obtain ⟨h', hcalls⟩ := h.glFree (w.pagelist t ans.stale)
      rw [← hcalls] at hf
      exact ⟨tokens, h'.goto_counted hf _ rfl rfl trivial fun _ ht ↦ ht⟩
  | allocKfree a id t =>
      exact ⟨tokens, h.kfree hd hf rfl rfl (fun _ hc ↦ hc) rfl trivial⟩
  | allocErase a id =>
      exact ⟨tokens, h.setThreads hf (fun i t he ↦ .inl (slot_erase he)) (fun _ hc ↦ hc)
        (fun _ hc ↦ by cases hc) trivial fun _ ht ↦ by cases ht⟩
  | _ => exact ⟨tokens, h⟩

theorem scan (h : LifeInv w tokens) {pid tgid pp t stale : Nat} {parent : AllocPtr} {pl : PlPtr} {s : Scan}
    (hf : w.calls n = some ⟨pid, tgid, .forkScan a parent pp t pl s⟩) :
    LifeInv (w.goto n ⟨pid, tgid, .forkScan a parent pp t pl s⟩ (w.scan a parent pp t pl stale s)) tokens := by
  obtain ⟨s', heq⟩ | heq | ⟨id, heq⟩ := w.scan_cases a parent pp t pl stale s
  all_goals rw [heq]
  · exact h.goto hf _ (fun _ hc ↦ hc) (fun _ hc ↦ .inl hc) trivial fun _ ht ↦ ht
  · exact h.goto_counted hf _ rfl rfl trivial fun _ ht ↦ ht
  · exact h.goto_counted hf _ rfl rfl trivial fun _ ht ↦ ht

theorem stepFork (h : LifeInv w tokens) (hd : DescInv False w owner carrier) {ans : Answer}
    (hf : w.calls n = some f) : ∃ tokens', LifeInv (Conc.stepFork w n f ans f.pc) tokens' := by
  obtain ⟨pid, tgid, pc⟩ := f
  cases pc with
  | forkFind pt pp =>
      refine ⟨tokens, ?_⟩
      simp only [Conc.stepFork]
      split
      · exact h.finish hf rfl
      · next a ha =>
          refine h.goto hf _ (fun _ hc ↦ by cases hc) (fun b hb ↦ .inr ⟨tgid, ?_⟩)
            trivial fun _ ht ↦ by cases ht
          rw [ha, ← Option.some.inj hb]
  | forkGet a pt pp =>
      simp only [Conc.stepFork]
      split
      · exact ⟨tokens, h.finish hf rfl⟩
      · next hk => exact ⟨_, h.get hf rfl hk rfl rfl rfl trivial⟩
  | forkParent a pt pp =>
      refine ⟨tokens, ?_⟩
      simp only [Conc.stepFork]
      split
      · exact h.goto_counted hf _ rfl rfl trivial fun _ ht ↦ by cases ht
      · next parent hp =>
          refine h.goto hf _ (fun _ hc ↦ hc) (fun b hb ↦ .inr ⟨pt, ?_⟩) trivial
            fun _ ht ↦ by cases ht
          rw [hp, ← Option.some.inj hb]
  | forkThread a parent pp =>
      refine ⟨tokens, ?_⟩
      simp only [Conc.stepFork]
      split
      · exact h.kmalloc.goto hf _ (fun _ hc ↦ hc) (fun _ hc ↦ .inl hc) trivial
          fun _ ht ↦ by cases ht
      · exact h.goto_counted hf _ rfl rfl trivial fun _ ht ↦ by cases ht
  | forkStack a parent pp t =>
      refine ⟨tokens, ?_⟩
      simp only [Conc.stepFork]
      split
      · exact h.goto_counted hf _ rfl rfl trivial fun _ ht ↦ ht
      · next pl w' hs =>
          obtain ⟨h', hcalls⟩ := h.glAllocStack hs
          rw [← hcalls] at hf
          exact h'.goto hf _ (fun _ hc ↦ hc) (fun _ hc ↦ .inl hc) trivial fun _ ht ↦ ht
  | forkScan a parent pp t pl s => exact ⟨tokens, h.scan hf⟩
  | forkInsert a id t pl =>
      refine ⟨tokens, ?_⟩
      have hset := h.setDesc t (some ⟨pid, idToAddr id, pl⟩)
      simp only [Conc.stepFork]
      split
      · exact hset.setThreads hf (fun i t' he ↦ slot_set he) (fun _ hc ↦ hc)
          (fun _ hc ↦ by cases hc) trivial fun _ ht ↦ ht
      · exact hset.goto_counted hf _ rfl rfl trivial fun _ ht ↦ ht
  | forkMap a id t pl =>
      refine ⟨tokens, ?_⟩
      simp only [Conc.stepFork]
      split
      · exact h.goto_counted hf _ rfl rfl trivial fun _ ht ↦ ht
      · exact h.goto_counted hf _ rfl rfl trivial fun _ ht ↦ ht
  | forkMax a id t =>
      exact ⟨_, h.settle hd hf rfl rfl rfl rfl ⟨rfl, rfl, rfl, rfl⟩ rfl rfl rfl⟩
  | forkErase a id t pl =>
      exact ⟨tokens, h.setThreads hf (fun i t' he ↦ .inl (slot_erase he)) (fun _ hc ↦ hc)
        (fun _ hc ↦ by cases hc) trivial fun _ ht ↦ ht⟩
  | forkGlFree a t pl =>
      obtain ⟨h', hcalls⟩ := h.glFree pl
      rw [← hcalls] at hf
      exact ⟨tokens, h'.goto_counted hf _ rfl rfl trivial fun _ ht ↦ ht⟩
  | forkKfree a t =>
      exact ⟨tokens, h.kfree hd hf rfl rfl (fun _ hc ↦ hc) rfl trivial⟩
  | _ => exact ⟨tokens, h⟩

theorem stepFree (h : LifeInv w tokens) (hd : DescInv False w owner carrier) {ans : Answer}
    (hf : w.calls n = some f) (hcareful : Careful w (.step n ans)) :
    ∃ tokens', LifeInv (Conc.stepFree w n f ans f.pc) tokens' := by
  obtain ⟨pid, tgid, pc⟩ := f
  cases pc with
  | freeFind addr =>
      refine ⟨tokens, ?_⟩
      simp only [Conc.stepFree]
      split
      · exact h.finish hf rfl
      · split
        · exact h.finish hf rfl
        · next a ha =>
            refine h.goto hf _ (fun _ hc ↦ by cases hc) (fun b hb ↦ .inr ⟨tgid, ?_⟩)
              trivial fun _ ht ↦ by cases ht
            rw [ha, ← Option.some.inj hb]
  | freeErase a id =>
      simp only [Conc.stepFree]
      split_ifs
      · exact ⟨tokens, h.goto hf _ (fun _ hc ↦ hc) (fun _ hc ↦ .inl hc) trivial fun _ ht ↦ ht⟩
      · split
        · refine ⟨tokens, h.leave hf rfl rfl ⟨rfl, rfl, rfl, rfl⟩ rfl h.card (fun _ _ hx _ ↦ hx)
            (fun _ hb ↦ hb) fun b i t he ↦ ?_⟩
          by_cases hb : b = a
          · subst hb
            have he' : ((w.threads b).erase id).slot i = some (.entry t) := by
              simpa [World.setThreads, World.finish] using he
            exact slot_erase he'
          · simpa [World.setThreads, World.finish, hb] using he
        · next t hload =>
            exact ⟨_, h.take hf rfl (Xarray.load_eq_some.mp hload)
              (hcareful.1 _ a id t hf rfl hload) rfl ⟨rfl, rfl, rfl, rfl⟩ rfl rfl rfl⟩
  | freeUnmap a t =>
      exact ⟨tokens, h.goto_counted hf _ rfl rfl trivial fun _ ht ↦ ht⟩
  | freeGlFree a t =>
      obtain ⟨h', hcalls⟩ := h.glFree (w.pagelist t ans.stale)
      rw [← hcalls] at hf
      exact ⟨tokens, h'.goto_counted hf _ rfl rfl trivial fun _ ht ↦ ht⟩
  | freeKfree a t =>
      exact ⟨tokens, h.kfree hd hf rfl rfl (fun _ hc ↦ hc) rfl trivial⟩
  | destroyErase a => exact ⟨_, h.deregister hf rfl⟩
  | put a =>
      simp only [Conc.stepFree]
      split
      · next hk => exact ⟨_, h.put_last hf rfl hk⟩
      · exact ⟨_, h.put hf rfl⟩
  | callback a => exact ⟨tokens, h.bury hf rfl (hcareful.2 _ a hf rfl)⟩
  | _ => exact ⟨tokens, h⟩

/-- **One step keeps the count above the tokens.** -/
theorem next (h : LifeInv w tokens) (hd : DescInv False w owner carrier) {e : Event} (hcareful : Careful w e)
    (hs : Next w e w') : ∃ tokens', LifeInv w' tokens' := by
  unfold Next at hs
  cases e with
  | create tgid =>
      simp only [Conc.next] at hs
      split_ifs at hs with hfree
      obtain rfl := Option.some.inj hs
      exact ⟨_, h.create (Option.isNone_iff_eq_none.mp hfree)⟩
  | enter pid tgid entry =>
      obtain rfl := Option.some.inj hs
      exact ⟨tokens, h.enter hd pid tgid hcareful.2⟩
  | step n ans =>
      obtain ⟨f, hf, rfl⟩ := Option.map_eq_some_iff.mp hs
      unfold stepCall
      split
      all_goals first
        | exact h.stepAlloc hd hf
        | exact h.stepFork hd hf
        | exact h.stepFree hd hf hcareful

end LifeInv

/-- **No allocator is used after its end.**  In every run in which `alloc_destroy` is called once for
an allocator, its callback finds no call that points to the allocator uncounted, and `sa_free` leaves
alone the descriptors that other calls work on. -/
theorem run_alive {es : List Event} (h : Run (Guarded Careful Next) .init es w) : Alive w := by
  have hinv := h.invariant
    (I := fun w ↦ ∃ owner carrier tokens, DescInv False w owner carrier ∧ LifeInv w tokens)
    ⟨_, _, _, .init, .init⟩ fun _ _ _ ⟨_, _, _, hd, hl⟩ hs ↦ by
      obtain ⟨owner, carrier, hd'⟩ := hd.next hs.1.1 False.elim hs.2
      obtain ⟨tokens, hl'⟩ := hl.next hd hs.1 hs.2
      exact ⟨owner, carrier, tokens, hd', hl'⟩
  obtain ⟨-, -, tokens, -, hl⟩ := hinv
  exact hl.alive

/-- The event neither empties a slot nor ends an allocator, and destroys none twice. -/
def Event.plain (w : World) : Event → Bool
  | .create _ => true
  | .enter _ _ entry => decide (∀ a ∈ entry.destroys, a < w.nextAlloc ∧ a ∉ w.destroyed)
  | .step n _ =>
      match w.calls n with
      | some ⟨_, _, .freeErase _ _⟩ => false
      | some ⟨_, _, .callback _⟩ => false
      | _ => true

theorem careful_of_plain {e : Event} (h : e.plain w) : Careful w e := by
  cases e with
  | create => exact ⟨trivial, trivial⟩
  | enter pid tgid entry => exact ⟨trivial, of_decide_eq_true h⟩
  | step n ans =>
      constructor
      · rintro ⟨pid, tgid, pc⟩ a id t hf hpc
        obtain rfl : pc = .freeErase a id := hpc
        simp [Event.plain, hf] at h
      · rintro ⟨pid, tgid, pc⟩ a hf hpc
        obtain rfl : pc = .callback a := hpc
        simp [Event.plain, hf] at h

/-- `alloc_destroy` of an allocator with one area. -/
theorem run_alive_destroy : ∃ w, Run (Guarded Careful Next) .init
    (firstAlloc ++ [.enter 10 1 (.allocDestroy 0)] ++ steps 1 2) w ∧ w.kref 0 = 1 ∧ Alive w := by
  have hstep : ∀ w e w', (if e.plain w then next w e else none) = some w' →
      Guarded Careful Next w e w' := by
    intro w e w' h
    split_ifs at h with he
    exact ⟨careful_of_plain he, h⟩
  have hrun : Run (Guarded Careful Next) .init
      (firstAlloc ++ [.enter 10 1 (.allocDestroy 0)] ++ steps 1 2) _ := Run.of_foldlM hstep rfl
  exact ⟨_, hrun, rfl, run_alive hrun⟩

/-- `sa_free` finds the allocator, and `alloc_destroy` frees it. -/
def freeThenDestroy : List Event :=
  [.create 1, .enter 10 1 (.saFree (idToAddr 0))] ++ steps 0 1 ++
    [.enter 11 1 (.allocDestroy 0)] ++ steps 1 3

/-- The next step of `sa_free` takes the lock of an allocator that has been freed. -/
theorem not_run_alive : ¬ ∀ es w, Run Next .init es w → Alive w := by
  intro h
  have hrun : Run Next .init freeThenDestroy _ := Run.of_foldlM (fun _ _ _ h ↦ h) rfl
  exact h _ _ hrun 0 ⟨10, 1, .freeErase 0 0⟩ 0 rfl rfl (by decide)

end ShadowStack.Lkm.Conc
