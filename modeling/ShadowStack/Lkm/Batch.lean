import Mathlib.Data.List.Induction
import Mathlib.Data.List.TakeWhile
import ShadowStack.Lkm.FreeRange

/-!
# The release batch

Whole sequences of `sa_tlb_add` on one `sa_tlb`.  The count of the batch is not reset when the batch is
flushed: the 512th page that goes to a batch is written behind its end.
-/

namespace ShadowStack.Lkm

open Lib

namespace Walk

/-- The index of `tables[]` that `sa_tlb_add` writes to, if it writes to one. -/
def writes (w : Walk) : Option Nat :=
  match w.tlb.batch with
  | some b => some b.nr
  | none =>
      match w.nowait with
      | some _ :: _ => some 0
      | _ => none

/-- `sa_tlb_add` flushes the batch. -/
def Flushes (w : Walk) : Prop := ∃ i, w.writes = some i ∧ i + 1 = maxBatchSize

/-- A new `sa_tlb`, before any page is freed. -/
structure Fresh (w : Walk) : Prop where
  batch : w.tlb.batch = none
  freed : w.freed = []

/-- What is asked of a call of `sa_tlb_add` with `page`, once the pages `added` were added: the write is
inside `tables[]`, no page has been freed twice, and if the batch is flushed all pages have been freed. -/
structure AddsSafely (added : List PtPage) (page : PtPage) (w : Walk) : Prop where
  inside : ∀ i, w.writes = some i → i < maxBatchSize
  once : (w.saTlbAdd page).freed.Nodup
  flushed : w.Flushes → (w.saTlbAdd page).freed.Perm (added ++ [page])

/-- All calls of a sequence are safe. -/
def BatchSafe (w : Walk) (pages : List PtPage) : Prop :=
  ∀ added page later, pages = added ++ page :: later →
    AddsSafely added page (added.foldl saTlbAdd w)

end Walk

/-- The requests for a batch page that fail before the first one that succeeds. -/
def refused (nowait : List (Option Page)) : Nat := (nowait.takeWhile Option.isNone).length

/-- At most as many pages as the batch has room for go to the batch. -/
def FitsBatch (nowait : List (Option Page)) (pages : List PtPage) : Prop :=
  (∃ p, some p ∈ nowait) → pages.length ≤ refused nowait + maxBatchSize

theorem refused_eq {nowait rest : List (Option Page)} {k : Nat} {p : Page}
    (hnone : ∀ x ∈ nowait.take k, x = none) (hdrop : nowait.drop k = some p :: rest) :
    refused nowait = k := by
  have hk : k ≤ nowait.length := by
    by_contra hlt
    rw [List.drop_eq_nil_of_le (by omega)] at hdrop
    cases hdrop
  have hall : ∀ x ∈ nowait.take k, x.isNone = true := fun x hx ↦ by rw [hnone x hx]; rfl
  have hsplit : nowait = nowait.take k ++ some p :: rest := by rw [← hdrop, List.take_append_drop]
  rw [refused, hsplit, List.takeWhile_append_of_pos hall, List.takeWhile_cons]
  simp [List.length_take, hk]

/-- Where the pages are that were added to a new `sa_tlb`: `direct` were freed at once, because no page
for a batch could be had, and `stored` went to the batch after them. -/
structure BatchOk (nowait : List (Option Page)) (direct stored : List PtPage) (w : Walk) : Prop where
  freed : w.freed = direct ++ if stored.length < maxBatchSize then [] else stored.take maxBatchSize
  unbatched : w.tlb.batch = none → stored = [] ∧ w.nowait = nowait.drop direct.length ∧
    ∀ x ∈ nowait.take direct.length, x = none
  batched : ∀ b, w.tlb.batch = some b → b.nr = stored.length ∧
    (List.range b.nr).map b.tables = stored ∧ (∃ p, some p ∈ nowait) ∧ refused nowait = direct.length

namespace BatchOk

variable {nowait : List (Option Page)} {direct stored : List PtPage} {w : Walk} {page : PtPage}

theorem start (h : w.Fresh) : BatchOk w.nowait [] [] w where
  freed := by rw [h.freed, if_pos (by decide)]; rfl
  unbatched _ := ⟨rfl, rfl, fun _ hx ↦ nomatch hx⟩
  batched b hb := by
    rw [h.batch] at hb
    cases hb

/-- A page is stored, in a batch that is there or a new one. -/
theorem put (hfreed : w.freed =
      direct ++ if stored.length < maxBatchSize then [] else stored.take maxBatchSize)
    {b : SaBatch} (hnr : b.nr = stored.length) (htables : (List.range b.nr).map b.tables = stored)
    (hsome : ∃ p, some p ∈ nowait) (hrefused : refused nowait = direct.length) (page : PtPage) :
    BatchOk nowait direct (stored ++ [page]) (w.putTable b page) := by
  have hmap : (List.range (b.nr + 1)).map (Function.update b.tables b.nr page) = stored ++ [page] := by
    rw [List.range_succ, List.map_append, List.map_singleton, Function.update_self, ← htables]
    congr 1
    refine List.map_congr_left fun i hi ↦ Function.update_of_ne (List.mem_range.mp hi).ne _ _
  have hlen : (stored ++ [page]).length = stored.length + 1 := by
    rw [List.length_append, List.length_singleton]
  refine ⟨?_, fun hc ↦ (nomatch hc), fun b' hb' ↦ ?_⟩
  · unfold Walk.putTable
    dsimp only
    rw [hnr, hlen, hfreed]
    rcases Nat.lt_trichotomy (stored.length + 1) maxBatchSize with hlt | heq | hgt
    · rw [if_neg hlt.ne, if_pos (by omega), if_pos hlt]
    · -- the batch is full: its pages are freed
      rw [if_pos heq, if_pos (by omega), if_neg (by omega), List.append_nil, ← hnr, hmap,
        List.take_of_length_le (by omega)]
    · -- the count has passed the limit: nothing is freed any more
      rw [if_neg hgt.ne', if_neg (by omega), if_neg (by omega),
        List.take_append_of_le_length (by omega)]
  · obtain rfl := Option.some.inj hb'
    exact ⟨by dsimp only; rw [hnr, hlen], hmap, hsome, hrefused⟩

/-- A page is freed at once. -/
theorem refuse (h : BatchOk nowait direct [] w) {rest : List (Option Page)} (page : PtPage)
    (hbatch : w.tlb.batch = none) (hrest : rest = nowait.drop (direct.length + 1))
    (hnone : ∀ x ∈ nowait.take (direct.length + 1), x = none) :
    BatchOk nowait (direct ++ [page]) [] { w with nowait := rest, freed := w.freed ++ [page] } where
  freed := by
    dsimp only
    rw [h.freed, if_pos (by decide), List.append_nil, List.append_nil]
  unbatched _ := by
    rw [List.length_append, List.length_singleton]
    exact ⟨rfl, hrest, hnone⟩
  batched b hb := by
    rw [hbatch] at hb
    cases hb

/-- **One call of `sa_tlb_add`.** -/
theorem add (h : BatchOk nowait direct stored w) (page : PtPage) :
    ∃ direct' stored', direct' ++ stored' = direct ++ stored ++ [page] ∧
      BatchOk nowait direct' stored' (w.saTlbAdd page) := by
  unfold Walk.saTlbAdd
  cases hb : w.tlb.batch with
  | some b =>
      obtain ⟨hnr, htables, hsome, hrefused⟩ := h.batched b hb
      exact ⟨direct, stored ++ [page], (List.append_assoc _ _ _).symm,
        put h.freed hnr htables hsome hrefused page⟩
  | none =>
      obtain ⟨rfl, hnowait, hnone⟩ := h.unbatched hb
      have hsucc : nowait.take (direct.length + 1) =
          nowait.take direct.length ++ (nowait[direct.length]?).toList := List.take_add_one
      have hget : nowait[direct.length]? = w.nowait.head? := by
        rw [hnowait, List.head?_drop]
      have htail : nowait.drop (direct.length + 1) = w.nowait.tail := by
        rw [hnowait, List.tail_drop]
      rw [hget] at hsucc
      dsimp only
      match hw : w.nowait with
      | some p :: rest =>
          have hdrop : nowait.drop direct.length = some p :: rest := by rw [← hnowait, hw]
          have hmem : some p ∈ nowait := List.mem_of_mem_drop (hdrop ▸ List.mem_cons_self)
          refine ⟨direct, [page], by rw [List.append_nil], ?_⟩
          have hfreed : ({ w with nowait := rest, taken := w.taken ++ [p] } : Walk).freed =
              direct ++ if ([] : List PtPage).length < maxBatchSize then [] else [].take maxBatchSize :=
            h.freed
          exact put hfreed (b := ⟨p, 0, fun _ ↦ 0⟩) rfl rfl ⟨p, hmem⟩ (refused_eq hnone hdrop) page
      | none :: rest =>
          rw [hw] at hsucc htail
          refine ⟨direct ++ [page], [], by rw [List.append_nil, List.append_nil],
            h.refuse page hb htail.symm fun x hx ↦ ?_⟩
          rw [hsucc] at hx
          rcases List.mem_append.mp hx with hx | hx
          · exact hnone x hx
          · exact List.mem_singleton.mp hx
      | [] =>
          rw [hw] at hsucc htail
          refine ⟨direct ++ [page], [], by rw [List.append_nil, List.append_nil], ?_⟩
          exact h.refuse page hb htail.symm fun x hx ↦ hnone x (by simpa [hsucc] using hx)

/-- **After any sequence of calls** on a new `sa_tlb`. -/
theorem run (h : w.Fresh) (pages : List PtPage) : ∃ direct stored, direct ++ stored = pages ∧
    BatchOk w.nowait direct stored (pages.foldl Walk.saTlbAdd w) := by
  induction pages using List.reverseRecOn with
  | nil => exact ⟨[], [], rfl, start h⟩
  | append_singleton pages page ih =>
      obtain ⟨direct, stored, rfl, hok⟩ := ih
      rw [List.foldl_append]
      exact hok.add page

end BatchOk

/-! ## When all calls are safe -/

/-- The request after those that are refused succeeds. -/
theorem refused_spec {nowait : List (Option Page)} (h : ∃ p, some p ∈ nowait) :
    ∃ p, nowait[refused nowait]? = some (some p) := by
  induction nowait with
  | nil =>
      obtain ⟨p, hp⟩ := h
      cases hp
  | cons x nowait ih =>
      cases x with
      | some p => exact ⟨p, rfl⟩
      | none =>
          obtain ⟨p, hp⟩ := h
          obtain ⟨q, hq⟩ := ih ⟨p, (List.mem_cons.mp hp).resolve_left (fun hc ↦ nomatch hc)⟩
          refine ⟨q, ?_⟩
          have hsucc : refused (none :: nowait) = refused nowait + 1 := rfl
          rw [hsucc, List.getElem?_cons_succ, hq]

/-- A call that writes to `tables[]` counts what it writes. -/
theorem Walk.writes_spec {w : Walk} {i : Nat} (h : w.writes = some i) (page : PtPage) :
    ∃ b, (w.saTlbAdd page).tlb.batch = some b ∧ b.nr = i + 1 := by
  unfold Walk.writes at h
  unfold Walk.saTlbAdd
  cases hb : w.tlb.batch with
  | some b =>
      rw [hb] at h
      obtain rfl := Option.some.inj h
      exact ⟨_, rfl, rfl⟩
  | none =>
      rw [hb] at h
      dsimp only at h ⊢
      match hw : w.nowait with
      | some p :: rest =>
          rw [hw] at h
          obtain rfl := Option.some.inj h
          exact ⟨_, rfl, rfl⟩
      | none :: rest =>
          rw [hw] at h
          cases h
      | [] =>
          rw [hw] at h
          cases h

section Safe

variable {w : Walk} {pages : List PtPage}

/-- One page too many is written behind the end of the batch. -/
theorem fitsBatch_of_safe (h : w.Fresh) (hsafe : w.BatchSafe pages) : FitsBatch w.nowait pages := by
  intro hsome
  by_contra hlen
  have hlt : refused w.nowait + maxBatchSize < pages.length := Nat.lt_of_not_le hlen
  have hsplit : pages = pages.take (refused w.nowait + maxBatchSize) ++
      pages[refused w.nowait + maxBatchSize] ::
        pages.drop (refused w.nowait + maxBatchSize + 1) := by
    rw [← List.drop_eq_getElem_cons hlt, List.take_append_drop]
  have hcall := hsafe _ _ _ hsplit
  obtain ⟨direct, stored, hadded, hok⟩ :=
    BatchOk.run h (pages.take (refused w.nowait + maxBatchSize))
  have hcount : direct.length + stored.length = refused w.nowait + maxBatchSize := by
    rw [← List.length_append, hadded, List.length_take, min_eq_left hlt.le]
  have hpos : 0 < maxBatchSize := by decide
  cases hb : ((pages.take (refused w.nowait + maxBatchSize)).foldl Walk.saTlbAdd w).tlb.batch with
  | none =>
      -- a request has succeeded by now
      obtain ⟨rfl, -, hnone⟩ := hok.unbatched hb
      obtain ⟨p, hp⟩ := refused_spec hsome
      rw [List.length_nil] at hcount
      have hmem : some p ∈ w.nowait.take direct.length :=
        List.mem_of_getElem? ((List.getElem?_take_of_lt (by omega)).trans hp)
      cases hnone _ hmem
  | some b =>
      obtain ⟨hnr, -, -, hrefused⟩ := hok.batched b hb
      have hin := hcall.inside b.nr (by rw [Walk.writes, hb])
      omega

theorem safe_of_fitsBatch (h : w.Fresh) (hnodup : pages.Nodup) (hfits : FitsBatch w.nowait pages) :
    w.BatchSafe pages := by
  rintro added page later rfl
  obtain ⟨direct, stored, rfl, hok⟩ := BatchOk.run h added
  obtain ⟨direct', stored', hadded, hok'⟩ := hok.add page
  refine ⟨fun i hi ↦ ?_, ?_, ?_⟩
  · unfold Walk.writes at hi
    split at hi
    · next b hb =>
        obtain rfl := Option.some.inj hi
        obtain ⟨hnr, -, hsome, hrefused⟩ := hok.batched b hb
        have hle := hfits hsome
        rw [List.length_append, List.length_append, List.length_cons] at hle
        omega
    · split at hi
      · obtain rfl := Option.some.inj hi
        decide
      · cases hi
  · -- what was freed is part of what was added
    have hsub : (((direct ++ stored).foldl Walk.saTlbAdd w).saTlbAdd page).freed.Sublist
        (direct' ++ stored') := by
      rw [hok'.freed]
      refine List.Sublist.append_left ?_ direct'
      split
      · exact List.nil_sublist _
      · exact List.take_sublist _ _
    rw [List.append_cons] at hnodup
    refine List.Nodup.sublist hsub ?_
    rw [hadded]
    exact (List.nodup_append.mp hnodup).1
  · rintro ⟨i, hi, hfull⟩
    obtain ⟨b, hb, hnr⟩ := Walk.writes_spec hi page
    have hlen : stored'.length = maxBatchSize := by
      rw [← (hok'.batched b hb).1, hnr, hfull]
    rw [hok'.freed, if_neg (by omega), List.take_of_length_le hlen.le, hadded]

/-- **The batch is safe exactly if** no more pages go to it than it has room for. -/
theorem batchSafe_iff (h : w.Fresh) (hnodup : pages.Nodup) :
    w.BatchSafe pages ↔ FitsBatch w.nowait pages :=
  ⟨fitsBatch_of_safe h, safe_of_fitsBatch h hnodup⟩

end Safe

theorem freshWalk_fresh (nowait : List (Option Page)) : (freshWalk nowait).Fresh := ⟨rfl, rfl⟩

/-- The first request is refused, the second one succeeds. -/
theorem batchSafe_three : (freshWalk [none, some 7]).BatchSafe [1, 2, 3] :=
  (batchSafe_iff (freshWalk_fresh _) (by decide)).mpr fun _ ↦ by decide

/-- 512 pages, and a batch page at once. -/
theorem not_batchSafe : ¬ ∀ (w : Walk) (pages : List PtPage), w.Fresh → pages.Nodup →
    w.BatchSafe pages := by
  intro hall
  have hsafe := hall (freshWalk [some 0]) (List.range' 1 512) (freshWalk_fresh _)
    (List.nodup_range' 1)
  have hle := fitsBatch_of_safe (freshWalk_fresh _) hsafe ⟨0, List.mem_singleton.mpr rfl⟩
  rw [List.length_range'] at hle
  exact absurd hle (by decide)

end ShadowStack.Lkm
