import Mathlib.Data.Finset.Card
import ShadowStack.Runtime.Pool

/-!
# How much of the pool is used

Calls one after the other.  `MemPoolAlloc` returns `NULL` only when every piece that was cut off the
pool is live, but `alloc_chunk` refuses a piece that ends where the pool ends: of a pool that is a
multiple of the chunk size, the last chunk is never handed out.
-/

namespace ShadowStack.Runtime

open Lib

/-- A call begins when no other one is under way, and the fetch-add does not wrap. -/
def Sequential (s : PoolState) (e : PoolEvent) : Prop :=
  NoWrap s e ∧ ((∃ t, e = .alloc t) ∨ (∃ t c, e = .release t c) → ∀ u, s.pc u = .idle)

/-- The sequential runs of the pool. -/
abbrev SeqRun : PoolState → List PoolEvent → PoolState → Prop := Run (Guarded Sequential PoolStep)

/-- As many chunks as fit the pool can be live at once, and no more; `NULL` is returned only then. -/
structure UsesAll (ch pl : Nat) (s₀ : PoolState) : Prop where
  null : ∀ es s t, SeqRun s₀ es s → s.pc t = .ret 0 → s.live.card = pl / ch
  most : ∀ es s, SeqRun s₀ es s → s.live.card ≤ pl / ch
  reached : ∃ es s, SeqRun s₀ es s ∧ s.live.card = pl / ch

/-! ## One call at a time -/

/-- What is known of the call that is under way. -/
structure OneCall (base ch pl : Nat) (s : PoolState) : Prop where
  one : ∀ t u, s.pc t ≠ .idle → s.pc u ≠ .idle → t = u
  bump : ∀ t, s.pc t = .bump → s.freelist = 0
  init : ∀ t lo, s.pc t = .init lo → s.freelist = 0 ∧ s.freeareaStart = lo + ch
  /-- `NULL` is returned with nothing on the free list and nothing left of the free area. -/
  null : ∀ t, s.pc t = .ret 0 → s.freelist = 0 ∧ base + pl ≤ s.freeareaStart

namespace OneCall

variable {base ch pl : Nat} {s s' : PoolState} {t : Tid} {pc : Pc}

/-- One thread moves, and the others are idle. -/
theorem move (hidle : ∀ u, u ≠ t → s.pc u = .idle) (hpc : s'.pc = Function.update s.pc t pc)
    (hbump : pc = .bump → s'.freelist = 0)
    (hinit : ∀ lo, pc = .init lo → s'.freelist = 0 ∧ s'.freeareaStart = lo + ch)
    (hnull : pc = .ret 0 → s'.freelist = 0 ∧ base + pl ≤ s'.freeareaStart) :
    OneCall base ch pl s' := by
  have hat : ∀ u, s'.pc u ≠ .idle → u = t ∧ s'.pc u = pc := by
    intro u hu
    by_cases heq : u = t
    · rw [heq, hpc, Function.update_self]
      exact ⟨rfl, rfl⟩
    · rw [hpc, Function.update_of_ne heq, hidle u heq] at hu
      exact absurd rfl hu
  refine ⟨fun u v hu hv ↦ (hat u hu).1.trans (hat v hv).1.symm, fun u hu ↦ ?_, fun u lo hu ↦ ?_,
    fun u hu ↦ ?_⟩
  · obtain ⟨-, hp⟩ := hat u (by rw [hu]; exact Pc.noConfusion)
    exact hbump (hp.symm.trans hu)
  · obtain ⟨-, hp⟩ := hat u (by rw [hu]; exact Pc.noConfusion)
    exact hinit lo (hp.symm.trans hu)
  · obtain ⟨-, hp⟩ := hat u (by rw [hu]; exact Pc.noConfusion)
    exact hnull (hp.symm.trans hu)

/-- The atomic steps. -/
theorem advance {cs : List Nat} (h : OneCall base ch pl s) (hok : PoolOk base ch pl s cs)
    (hpos : 0 < base) (hwrap : s.pc t = .bump → s.freeareaStart + s.chunkSize < 2 ^ 64)
    (hs : s.advance t = some s') : OneCall base ch pl s' := by
  unfold PoolState.advance at hs
  by_cases hne : s.pc t = .idle
  · rw [hne] at hs
    cases hs
  have hidle : ∀ u, u ≠ t → s.pc u = .idle := fun u hu ↦ by
    by_contra hc
    exact hu (h.one u t hc hne)
  have hch := hok.shape.chunkSize
  cases hpc : s.pc t with
  | idle => exact absurd hpc hne
  | test =>
      simp only [hpc, Option.some.injEq] at hs
      subst hs
      by_cases hfree : s.freelist = 0
      · rw [if_pos hfree]
        exact move hidle rfl (fun _ ↦ hfree) (fun _ hc ↦ (by cases hc)) (fun hc ↦ (by cases hc))
      · rw [if_neg hfree]
        exact move hidle rfl (fun hc ↦ (by cases hc)) (fun _ hc ↦ (by cases hc)) (fun hc ↦ (by cases hc))
  | pop =>
      simp only [hpc] at hs
      by_cases hfree : s.freelist = 0
      · rw [if_pos hfree, Option.some.injEq] at hs
        subst hs
        exact move hidle rfl (fun _ ↦ hfree) (fun _ hc ↦ (by cases hc)) (fun hc ↦ (by cases hc))
      · rw [if_neg hfree, Option.some.injEq] at hs
        subst hs
        exact move hidle rfl (fun hc ↦ (by cases hc)) (fun _ hc ↦ (by cases hc))
          fun hc ↦ absurd (Pc.ret.inj hc) hfree
  | bump =>
      simp only [hpc, Option.some.injEq] at hs
      subst hs
      refine move hidle rfl (fun hc ↦ (by cases hc)) (fun lo hlo ↦ ⟨h.bump t hpc, ?_⟩)
        (fun hc ↦ (by cases hc))
      obtain rfl := Pc.init.inj hlo
      show wrapAdd s.freeareaStart s.chunkSize = s.freeareaStart + ch
      rw [wrapAdd_eq, wrap_of_lt (hwrap hpc), hch]
  | init lo =>
      obtain ⟨hfree, hstart⟩ := h.init t lo hpc
      have hlo : wrapAdd lo s.chunkSize = lo + ch := by
        rw [wrapAdd_eq, hch, wrap_of_lt (hok.piece t lo hpc)]
      simp only [hpc, hlo, hok.shape.freeareaEnd] at hs
      by_cases hfull : base + pl ≤ lo + ch
      · rw [if_pos hfull, Option.some.injEq] at hs
        subst hs
        exact move hidle rfl (fun hc ↦ (by cases hc)) (fun _ hc ↦ (by cases hc))
          fun _ ↦ ⟨hfree, hfull.trans_eq hstart.symm⟩
      · rw [if_neg hfull, Option.some.injEq] at hs
        subst hs
        refine move hidle rfl (fun hc ↦ (by cases hc)) (fun _ hc ↦ (by cases hc)) fun hc ↦ absurd ?_ hpos.ne'
        -- the piece is one of the pool
        have hat : s.At cs (.call t) lo := by
          rw [PoolState.At, hpc, Pc.held, hch, hok.shape.freeareaEnd, if_pos (Nat.lt_of_not_le hfull)]
        obtain ⟨k, hk, -⟩ := hok.placed.carved _ _ hat
        have hzero := Pc.ret.inj hc
        omega
  | ret p =>
      simp only [hpc, Option.some.injEq] at hs
      subst hs
      exact move hidle rfl (fun hc ↦ (by cases hc)) (fun _ hc ↦ (by cases hc)) (fun hc ↦ (by cases hc))
  | push c =>
      simp only [hpc, Option.some.injEq] at hs
      subst hs
      exact move hidle rfl (fun hc ↦ (by cases hc)) (fun _ hc ↦ (by cases hc)) (fun hc ↦ (by cases hc))

/-- **One transition.** -/
theorem next {cs : List Nat} {e : PoolEvent} (h : OneCall base ch pl s) (hok : PoolOk base ch pl s cs)
    (hpos : 0 < base) (hseq : Sequential s e) (hs : s.next e = some s') : OneCall base ch pl s' := by
  obtain ⟨hwrap, halone⟩ := hseq
  cases e with
  | alloc t =>
      simp only [PoolState.next, Option.ite_none_right_eq_some, Option.some.injEq] at hs
      obtain ⟨-, rfl⟩ := hs
      exact move (fun u _ ↦ halone (.inl ⟨t, rfl⟩) u) rfl (fun hc ↦ (by cases hc))
        (fun _ hc ↦ (by cases hc)) (fun hc ↦ (by cases hc))
  | release t c =>
      simp only [PoolState.next, Option.ite_none_right_eq_some, Option.some.injEq] at hs
      obtain ⟨-, rfl⟩ := hs
      exact move (fun u _ ↦ halone (.inr ⟨t, c, rfl⟩) u) rfl (fun hc ↦ (by cases hc))
        (fun _ hc ↦ (by cases hc)) (fun hc ↦ (by cases hc))
  | step t => exact h.advance hok hpos (hwrap t rfl) hs
  | write c i v =>
      simp only [PoolState.next, Option.ite_none_right_eq_some, Option.some.injEq] at hs
      obtain ⟨-, rfl⟩ := hs
      exact ⟨h.one, h.bump, h.init, h.null⟩

theorem start {m : Memory} (hs : memPoolInit m (some base) ch pl = some s) : OneCall base ch pl s := by
  obtain rfl := Option.some.inj hs
  exact ⟨fun t _ hc ↦ absurd rfl hc, fun _ hc ↦ (by cases hc), fun _ _ hc ↦ (by cases hc),
    fun _ hc ↦ (by cases hc)⟩

end OneCall

/-! ## Counting -/

/-- The addresses of the first `n` chunks. -/
def firstChunks (base ch n : Nat) : Finset Nat := (Finset.range n).image fun k ↦ base + k * ch

theorem mem_firstChunks {base ch n c : Nat} : c ∈ firstChunks base ch n ↔ ∃ k < n, base + k * ch = c := by
  simp [firstChunks]

theorem card_firstChunks {base ch n : Nat} (hch : 0 < ch) : (firstChunks base ch n).card = n := by
  have hinj : Function.Injective fun k ↦ base + k * ch := fun k k' h ↦
    Nat.eq_of_mul_eq_mul_right hch (Nat.add_left_cancel h)
  rw [firstChunks, Finset.card_image_of_injective _ hinj, Finset.card_range]

/-- The chunks that `alloc_chunk` does not refuse. -/
theorem fits_iff {ch pl : Nat} (hch : 0 < ch) (k : Nat) : k * ch + ch < pl ↔ k < (pl - 1) / ch := by
  have hle : k + 1 ≤ (pl - 1) / ch ↔ k * ch + ch ≤ pl - 1 := by
    rw [Nat.le_div_iff_mul_le hch, Nat.succ_mul]
  rw [← Nat.succ_le_iff (m := k), Nat.succ_eq_add_one, hle]
  omega

/-- They are all that fit, unless the pool is a multiple of the chunk size. -/
theorem pred_div_eq {ch pl : Nat} (h : ch ∣ pl → pl = 0) : (pl - 1) / ch = pl / ch := by
  cases pl with
  | zero => rfl
  | succ n =>
      have hnot : ¬ ch ∣ n + 1 := fun hc ↦ nomatch h hc
      rw [Nat.succ_div, if_neg hnot, Nat.add_sub_cancel, Nat.add_zero]

section Live

variable {base ch pl : Nat} {s : PoolState} {cs : List Nat}

theorem PoolOk.live_subset (h : PoolOk base ch pl s cs) (hch : 0 < ch) :
    s.live ⊆ firstChunks base ch ((pl - 1) / ch) := by
  intro c hc
  obtain ⟨k, rfl, -⟩ := h.placed.carved .live c hc
  have hin := h.placed.inside .live _ hc
  exact mem_firstChunks.mpr ⟨k, (fits_iff hch k).mp (by omega), rfl⟩

/-- **When `NULL` is returned**, all pieces of the pool are live. -/
theorem PoolOk.live_eq (h : PoolOk base ch pl s cs) (hone : OneCall base ch pl s) (hch : 0 < ch)
    {t : Tid} (hnull : s.pc t = .ret 0) : s.live = firstChunks base ch ((pl - 1) / ch) := by
  refine (h.live_subset hch).antisymm fun c hc ↦ ?_
  obtain ⟨k, hk, rfl⟩ := mem_firstChunks.mp hc
  have hfits := (fits_iff hch k).mpr hk
  obtain ⟨hfree, hstart⟩ := hone.null t hnull
  obtain ⟨o, ho⟩ := h.placed.total k (by omega) (by omega)
  cases o with
  | live => exact ho
  | free =>
      -- the free list is empty
      have hchain := h.chain
      rw [hfree] at hchain
      cases cs with
      | nil => cases ho
      | cons c cs => exact absurd hchain.1.symm hchain.2.1
  | call u =>
      -- and the one call that is under way has nothing in hand
      have hu : u = t := hone.one u t (fun hc ↦ by
        rw [PoolState.At, hc] at ho
        cases ho) (by rw [hnull]; exact Pc.noConfusion)
      rw [PoolState.At, hu, hnull] at ho
      cases ho

end Live

/-! ## Allocating as long as there is something -/

/-- The first `k` chunks are live, and no call is under way. -/
structure Filled (base ch pl k : Nat) (s : PoolState) : Prop where
  freelist : s.freelist = 0
  chunkSize : s.chunkSize = ch
  freeareaStart : s.freeareaStart = base + k * ch
  freeareaEnd : s.freeareaEnd = base + pl
  pc : s.pc = fun _ ↦ .idle
  live : s.live = firstChunks base ch k

section Fill

variable {base ch pl k : Nat} {s : PoolState}

/-- A call of `MemPoolAlloc` on an empty free list, up to its `return`. -/
theorem Filled.alloc (h : Filled base ch pl k s) (hend : base + pl < 2 ^ 64)
    (hfit : k * ch + ch ≤ pl) : ∃ es s' p, SeqRun s es s' ∧ s'.pc = Function.update s.pc 0 (.ret p) ∧
      p = (if k * ch + ch < pl then base + k * ch else 0) ∧ s'.freelist = 0 ∧ s'.chunkSize = ch ∧
      s'.freeareaStart = base + (k + 1) * ch ∧ s'.freeareaEnd = base + pl ∧ s'.live = s.live := by
  obtain ⟨hfree, hch, hstart, hlast, hpc, -⟩ := h
  have hidle : ∀ u, s.pc u = .idle := fun u ↦ by rw [hpc]
  have hnext : (k + 1) * ch = k * ch + ch := Nat.succ_mul k ch
  have hbump : wrapAdd (base + k * ch) ch = base + (k + 1) * ch := by
    rw [wrapAdd_eq, wrap_of_lt (by omega)]
    omega
  have hquiet : ∀ {s : PoolState}, s.pc 0 ≠ .bump → Sequential s (.step 0) := fun hne ↦
    ⟨fun _ ht hc ↦ absurd (PoolEvent.step.inj ht ▸ hc) hne, fun hc ↦ by
      rcases hc with ⟨_, hc⟩ | ⟨_, _, hc⟩ <;> cases hc⟩
  -- the states of the call
  have h₁ : s.next (.alloc 0) = some (s.goto 0 .test) := if_pos (hidle 0)
  have h₂ : (s.goto 0 .test).next (.step 0) = some (s.goto 0 .bump) := by
    simp [PoolState.next, PoolState.advance, PoolState.goto, hfree]
  have h₃ : (s.goto 0 .bump).next (.step 0) = some { s.goto 0 (.init (base + k * ch)) with
      freeareaStart := base + (k + 1) * ch } := by
    simp [PoolState.next, PoolState.advance, PoolState.goto, hstart, hch, hbump]
  have hrun : SeqRun s [.alloc 0, .step 0, .step 0] { s.goto 0 (.init (base + k * ch)) with
      freeareaStart := base + (k + 1) * ch } := by
    refine ((Run.single ⟨⟨fun _ hc ↦ (by cases hc), fun _ ↦ hidle⟩, h₁⟩).snoc
      ⟨hquiet (by simp [PoolState.goto]), h₂⟩).snoc ⟨⟨fun _ _ _ ↦ ?_, ?_⟩, h₃⟩
    · show s.freeareaStart + s.chunkSize < 2 ^ 64
      omega
    · rintro (⟨_, hc⟩ | ⟨_, _, hc⟩) <;> cases hc
  by_cases hlt : k * ch + ch < pl
  · refine ⟨_, { s.goto 0 (.ret (base + k * ch)) with
      freeareaStart := base + (k + 1) * ch
      mem := initChunk s.mem (base + k * ch) }, base + k * ch, hrun.snoc (i := .step 0)
        ⟨hquiet ?_, ?_⟩, rfl, (if_pos hlt).symm, hfree, hch, rfl, hlast, rfl⟩
    · simp [PoolState.goto]
    · show PoolState.next _ _ = _
      simp only [PoolState.next, PoolState.advance, PoolState.goto, Function.update_self, hch, hlast,
        hbump, Function.update_idem]
      rw [if_neg (by omega)]
  · refine ⟨_, { s.goto 0 (.ret 0) with freeareaStart := base + (k + 1) * ch }, 0,
      hrun.snoc (i := .step 0) ⟨hquiet ?_, ?_⟩, rfl, (if_neg hlt).symm, hfree, hch, rfl, hlast, rfl⟩
    · simp [PoolState.goto]
    · show PoolState.next _ _ = _
      simp only [PoolState.next, PoolState.advance, PoolState.goto, Function.update_self, hch, hlast,
        hbump, Function.update_idem]
      rw [if_pos (by omega)]

/-- The next chunk. -/
theorem Filled.succ (h : Filled base ch pl k s) (hbase : 0 < base) (hend : base + pl < 2 ^ 64)
    (hfit : k * ch + ch < pl) : ∃ es s', SeqRun s es s' ∧ Filled base ch pl (k + 1) s' := by
  obtain ⟨es, s', p, hrun, hpc, hp, hfree, hch, hstart, hlast, hlive⟩ := h.alloc hend hfit.le
  rw [if_pos hfit] at hp
  have hp₀ : p ≠ 0 := by omega
  have hret : s'.next (.step 0) = some { s'.goto 0 .idle with live := insert p s'.live } := by
    simp [PoolState.next, PoolState.advance, hpc, hp₀]
  have hseq : Sequential s' (.step 0) := by
    refine ⟨fun _ ht hc ↦ ?_, fun hc ↦ by rcases hc with ⟨_, hc⟩ | ⟨_, _, hc⟩ <;> cases hc⟩
    obtain rfl := PoolEvent.step.inj ht
    rw [hpc, Function.update_self] at hc
    cases hc
  refine ⟨_, _, hrun.snoc ⟨hseq, hret⟩, hfree, hch, hstart, hlast, ?_, ?_⟩
  · show Function.update s'.pc 0 .idle = _
    rw [hpc, Function.update_idem, h.pc, Function.update_eq_self_iff]
  · show insert p s'.live = _
    rw [hlive, h.live, hp, firstChunks, firstChunks, Finset.range_add_one, Finset.image_insert]

/-- As many allocations as are not refused. -/
theorem Filled.run (h : Filled base ch pl 0 s) (hbase : 0 < base) (hend : base + pl < 2 ^ 64)
    (hch : 0 < ch) : ∀ k ≤ (pl - 1) / ch, ∃ es s', SeqRun s es s' ∧ Filled base ch pl k s' := by
  intro k
  induction k with
  | zero => exact fun _ ↦ ⟨_, _, .nil, h⟩
  | succ k ih =>
      intro hk
      obtain ⟨es, s₁, hrun, h₁⟩ := ih (Nat.le_of_succ_le hk)
      obtain ⟨es', s₂, hrun', h₂⟩ := h₁.succ hbase hend ((fits_iff hch k).mpr hk)
      exact ⟨_, _, hrun.trans hrun', h₂⟩

theorem Filled.start {m : Memory} (hend : base + pl < 2 ^ 64)
    (hs : memPoolInit m (some base) ch pl = some s) : Filled base ch pl 0 s := by
  obtain rfl := Option.some.inj hs
  refine ⟨rfl, rfl, by rw [Nat.zero_mul]; rfl, ?_, rfl, rfl⟩
  show wrapAdd base pl = base + pl
  rw [wrapAdd_eq, wrap_of_lt hend]

end Fill

/-! ## The pool is used up, or not -/

section Use

variable {m : Memory} {base ch pl : Nat} {s₀ : PoolState}

/-- If the pool is no multiple of the chunk size, it is used up. -/
theorem usesAll_of_not_dvd (hbase : 0 < base) (hmap : base + pl < 2 ^ 64) (hch : headerSize ≤ ch)
    (hinit : memPoolInit m (some base) ch pl = some s₀) (hdvd : ch ∣ pl → pl = 0) :
    UsesAll ch pl s₀ := by
  have hpos : 0 < ch := lt_of_lt_of_le (by decide) hch
  have hok : ∀ es s, SeqRun s₀ es s → ∃ cs, PoolOk base ch pl s cs ∧ OneCall base ch pl s := by
    intro es s hrun
    refine hrun.invariant (I := fun s ↦ ∃ cs, PoolOk base ch pl s cs ∧ OneCall base ch pl s)
      ⟨[], PoolOk.init hch hmap hinit, .start hinit⟩ ?_
    rintro s e s' ⟨cs, h, hone⟩ ⟨hseq, hs⟩
    obtain ⟨cs', h'⟩ := h.next hch hbase hseq.1 hs
    exact ⟨cs', h', hone.next h hbase hseq hs⟩
  refine ⟨fun es s t hrun hnull ↦ ?_, fun es s hrun ↦ ?_, ?_⟩
  · obtain ⟨cs, h, hone⟩ := hok es s hrun
    rw [h.live_eq hone hpos hnull, card_firstChunks hpos, pred_div_eq hdvd]
  · obtain ⟨cs, h, -⟩ := hok es s hrun
    have hcard := Finset.card_le_card (h.live_subset hpos)
    rwa [card_firstChunks hpos, pred_div_eq hdvd] at hcard
  · obtain ⟨es, s, hrun, h⟩ := (Filled.start hmap hinit).run hbase hmap hpos _ le_rfl
    exact ⟨es, s, hrun, by rw [h.live, card_firstChunks hpos, pred_div_eq hdvd]⟩

/-- If it is one, the last chunk is refused. -/
theorem not_usesAll_of_dvd (hbase : 0 < base) (hmap : base + pl < 2 ^ 64) (hch : 0 < ch)
    (hinit : memPoolInit m (some base) ch pl = some s₀) (hdvd : ch ∣ pl) (hpl : pl ≠ 0) :
    ¬ UsesAll ch pl s₀ := by
  intro huses
  obtain ⟨q, hq⟩ := hdvd
  obtain ⟨n, rfl⟩ : ∃ n, q = n + 1 := Nat.exists_eq_succ_of_ne_zero fun hc ↦ hpl (by rw [hq, hc]; rfl)
  have hlast : n * ch + ch = pl := by rw [hq, Nat.mul_succ, mul_comm]
  have hn : n ≤ (pl - 1) / ch := (Nat.le_div_iff_mul_le hch).mpr (by omega)
  obtain ⟨es, s, hrun, h⟩ := (Filled.start hmap hinit).run hbase hmap hch n hn
  obtain ⟨es', s', p, hrun', hpc, hp, -, -, -, -, hlive⟩ := h.alloc hmap hlast.le
  rw [if_neg (by omega)] at hp
  have hcard := huses.null _ s' 0 (hrun.trans hrun') (by rw [hpc, Function.update_self, hp])
  rw [hlive, h.live, card_firstChunks hch, ← hlast, ← Nat.succ_mul, Nat.mul_div_cancel _ hch] at hcard
  omega

/-- **The pool is used up exactly if** it is no multiple of the chunk size; chunks have to hold their
header. -/
theorem usesAll_iff (hbase : 0 < base) (hmap : base + pl < 2 ^ 64) (hch : 0 < ch)
    (hinit : memPoolInit m (some base) ch pl = some s₀) :
    (headerSize ≤ ch → (ch ∣ pl → pl = 0) → UsesAll ch pl s₀) ∧
      (UsesAll ch pl s₀ → ch ∣ pl → pl = 0) := by
  refine ⟨fun hheader hdvd ↦ usesAll_of_not_dvd hbase hmap hheader hinit hdvd, fun huses hdvd ↦ ?_⟩
  by_contra hpl
  exact not_usesAll_of_dvd hbase hmap hch hinit hdvd hpl huses

end Use

/-- Three chunks of 64 bytes in a pool of 200 bytes. -/
theorem usesAll_three : ∃ s₀, memPoolInit (fun _ ↦ 0) (some 0x1000) 64 200 = some s₀ ∧ UsesAll 64 200 s₀ :=
  ⟨_, rfl, (usesAll_iff (m := fun _ ↦ 0) (by decide) (by decide) (by decide) rfl).1 (by decide)
    fun hc ↦ absurd hc (by decide)⟩

/-- Of a pool of two chunks, the second one is never handed out. -/
theorem not_usesAll : ¬ ∀ (m : Memory) (base ch pl : Nat) (s₀ : PoolState), 0 < base →
    base + pl < 2 ^ 64 → headerSize ≤ ch → memPoolInit m (some base) ch pl = some s₀ →
    UsesAll ch pl s₀ := by
  intro hall
  obtain ⟨s₀, hinit⟩ : ∃ s₀, memPoolInit (fun _ ↦ 0) (some 0x1000) 64 128 = some s₀ := ⟨_, rfl⟩
  exact not_usesAll_of_dvd (by decide) (by decide) (by decide) hinit (by decide) (by decide)
    (hall _ _ _ _ _ (by decide) (by decide) (by decide) hinit)

end ShadowStack.Runtime
