import ShadowStack.Lib.Walk

/-!
# The rounds of a slot loop

`eachSlot_prefix` says what a loop does to the addresses it reads.  Here the loop is taken round by
round: an invariant that names the address reached, the table so far and the extra state, with all a
round may use about the piece it works on.  This is the rule for walks that never fail and whose
effect on a slot depends on what the slot held.
-/

universe u v

namespace ShadowStack.Lib

/-- A piece `[a, n)` that a walk over `[lo, e)` cuts off, for slots of `S` bytes. -/
structure Piece (S lo e a n : Nat) : Prop where
  le : lo ≤ a
  start : a = lo ∨ S ∣ a
  lt : a < n
  le_end : n ≤ e
  cut : n = min ((a / S + 1) * S) e

namespace Piece

variable {S lo e a n : Nat}

theorem same (h : Piece S lo e a n) (hS : 0 < S) : a / S = (n - 1) / S :=
  (cut_spec hS (h.lt.trans_le h.le_end) h.cut).2.2

theorem first (hS : 0 < S) (hlt : lo < e) : Piece S lo e lo (min ((lo / S + 1) * S) e) := by
  obtain ⟨hgt, hne, -⟩ := cut_spec hS hlt rfl
  exact ⟨le_rfl, .inl rfl, hgt, hne, rfl⟩

/-- A piece that ends before the range ends at a slot boundary. -/
theorem boundary (h : Piece S lo e a n) (hlt : n < e) : n = (a / S + 1) * S := by
  rcases min_choice ((a / S + 1) * S) e with hm | hm
  · exact h.cut.trans hm
  · exact absurd (h.cut.trans hm) hlt.ne

theorem succ (h : Piece S lo e a n) (hS : 0 < S) (hlt : n < e) :
    Piece S lo e n (min ((n / S + 1) * S) e) := by
  obtain ⟨hgt, hne, -⟩ := cut_spec hS hlt rfl
  exact ⟨h.le.trans h.lt.le, .inr ⟨a / S + 1, (h.boundary hlt).trans (mul_comm _ _)⟩, hgt, hne, rfl⟩

/-- The addresses of the piece are those of the range in its slot. -/
theorem mem_iff (h : Piece S lo e a n) (hS : 0 < S) {b : Nat} :
    a ≤ b ∧ b < n ↔ (lo ≤ b ∧ b < e) ∧ b / S = a / S := by
  constructor
  · rintro ⟨hab, hbn⟩
    refine ⟨⟨h.le.trans hab, hbn.trans_le h.le_end⟩, le_antisymm ?_ (Nat.div_le_div_right hab)⟩
    rw [h.same hS]
    exact Nat.div_le_div_right (by omega)
  · rintro ⟨⟨hlo, hhi⟩, hsame⟩
    constructor
    · rcases h.start with rfl | hdvd
      · exact hlo
      · rw [← Nat.div_mul_cancel hdvd, ← hsame]
        exact Nat.div_mul_le_self b S
    · rw [h.cut]
      refine lt_min ?_ hhi
      rw [← hsame, mul_comm]
      exact Nat.lt_mul_div_succ b hS

/-- Both ends of a piece have the alignment that the slots and the range have. -/
theorem dvd {d : Nat} (h : Piece S lo e a n) (hS : d ∣ S) (hlo : d ∣ lo) (he : d ∣ e) :
    d ∣ a ∧ d ∣ n := by
  constructor
  · rcases h.start with rfl | hdvd
    · exact hlo
    · exact hS.trans hdvd
  · rw [h.cut]
    rcases min_choice ((a / S + 1) * S) e with hm | hm
    · rw [hm]
      exact hS.mul_left _
    · rwa [hm]

/-- A piece of a piece, for smaller slots, is a piece of the whole range. -/
theorem nest {T b m : Nat} (h : Piece S lo e a n) (hT : T ∣ S) (hb : Piece T a n b m) :
    Piece T lo e b m where
  le := h.le.trans hb.le
  start := by
    rcases hb.start with rfl | hdvd
    · exact h.start.imp_right hT.trans
    · exact .inr hdvd
  lt := hb.lt
  le_end := hb.le_end.trans h.le_end
  cut := by
    rw [hb.cut]
    rcases h.le_end.lt_or_eq with hlt | rfl
    · -- the piece ends at a slot boundary, so a smaller slot of it ends there at the latest
      have hbn : b < n := hb.lt.trans_le hb.le_end
      have hdvd : T ∣ n := by
        rw [h.boundary hlt]
        exact hT.mul_left _
      have hle : (b / T + 1) * T ≤ n := by
        obtain ⟨q, hq⟩ := hdvd
        rw [hq] at hbn ⊢
        rw [mul_comm]
        exact Nat.mul_le_mul_left _ (Nat.div_lt_of_lt_mul hbn)
      rw [min_eq_left hle, min_eq_left (hle.trans h.le_end)]
    · rfl

end Piece

section Loop

variable {ε : Type u} {τ : Type v} {next : Nat → Nat} {again : Nat → Bool}
  {f : Nat → Nat → Nat → ε → τ → ε × τ × Bool}

/-- **The rule of the slot loop.**  If every round moves `I` on by its piece, the loop ends with
`I` at the end of the range.  A round meets its slot as the loop found it. -/
theorem eachSlot_rule {I : Nat → (Nat → ε) → τ → Prop} {S M lo e fuel : Nat} (hS : 0 < S)
    (hnext : ∀ a, a < e → next a = min ((a / S + 1) * S) e) (hagain : ∀ a, again a = true ↔ a ≠ e)
    (hok : ∀ i a n s x, (f i a n s x).2.2 = false) (hlt : lo < e)
    (hblock : lo / (M * S) = (e - 1) / (M * S)) (hfuel : (e - 1) / S - lo / S < fuel)
    {t : Nat → ε} {x : τ}
    (hround : ∀ a n u x, Piece S lo e a n → (∀ k, a / S % M ≤ k → u k = t k) → I a u x →
      I n (Function.update u (a / S % M) (f (a / S % M) a n (t (a / S % M)) x).1)
        (f (a / S % M) a n (t (a / S % M)) x).2.1)
    (h : I lo t x) :
    I e (eachSlot next again f fuel (lo / S % M) lo t x).1
      (eachSlot next again f fuel (lo / S % M) lo t x).2.1 := by
  suffices hgen : ∀ fuel a n u x, Piece S lo e a n → (e - 1) / S - a / S < fuel →
      (∀ k, a / S % M ≤ k → u k = t k) → I a u x →
      I e (eachSlot next again f fuel (a / S % M) a u x).1
        (eachSlot next again f fuel (a / S % M) a u x).2.1 from
    hgen fuel lo _ t x (.first hS hlt) hfuel (fun _ _ ↦ rfl) h
  intro fuel
  induction fuel with
  | zero => exact fun _ _ _ _ _ hfuel ↦ absurd hfuel (Nat.not_lt_zero _)
  | succ fuel ih =>
      intro a n u x hp hfuel hu hI
      have hn : next a = n := (hnext a (hp.lt.trans_le hp.le_end)).trans hp.cut.symm
      have hI' := hround a n u x hp hu hI
      rw [← hu _ le_rfl] at hI'
      rcases hp.le_end.lt_or_eq with hmore | hlast
      · rw [eachSlot_more (hok _ _ _ _ _) ((hagain _).mpr (by rw [hn]; exact hmore.ne)), hn]
        have hab : a / (M * S) = (e - 1) / (M * S) :=
          le_antisymm (Nat.div_le_div_right (by have := hp.lt; have := hp.le_end; omega))
            (by rw [← hblock]; exact Nat.div_le_div_right hp.le)
        obtain ⟨hi, -, hdiv⟩ := cut_more (M := M) hS hab hp.cut hmore
        have hle : n / S ≤ (e - 1) / S := Nat.div_le_div_right (by omega)
        rw [← hi]
        refine ih n _ _ _ (hp.succ hS hmore) (by omega) (fun k hk ↦ ?_) hI'
        rw [Function.update_of_ne (by omega)]
        exact hu k (by omega)
      · rw [eachSlot_last (hok _ _ _ _ _) (by
          rw [← Bool.not_eq_true, hagain, not_not, hn]
          exact hlast), hn]
        exact hlast ▸ hI'

/-- A loop that never goes round again rewrites its first slot. -/
theorem eachSlot_one {fuel i addr : Nat} {t : Nat → ε} {x : τ} (hfuel : 0 < fuel)
    (hok : ∀ i a n s x, (f i a n s x).2.2 = false) :
    eachSlot next (fun _ ↦ false) f fuel i addr t x =
      (Function.update t i (f i addr (next addr) (t i) x).1, (f i addr (next addr) (t i) x).2.1,
        false) := by
  obtain ⟨fuel, rfl⟩ := Nat.exists_eq_succ_of_ne_zero hfuel.ne'
  exact eachSlot_last (hok _ _ _ _ _) rfl

end Loop

end ShadowStack.Lib
