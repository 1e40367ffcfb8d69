import ShadowStack.Lib.Walk

/-!
# `for` loops over the pieces of a range

The other form a range walk takes: `for (; addr < end; addr = next) …`, whose body cuts off the
piece `[addr, next)` and works on it.  `forRange` is that loop over any state; running out of rounds
is told apart from the end of the loop, so that a result is a statement of termination.

`Cursor.round` is the body of a walk that moves a slot pointer along a table.  For such a walk
`forRange_sweep` lifts what the body does to one slot to what the loop does to the table, and
`forRange_rel` lifts a relation between slots.
-/

universe u v

namespace ShadowStack.Lib

/-! ## The loop -/

section Loop

variable {σ : Type u}

/-- The loop; the first number is the rounds it may take, and `none` that they were too few. -/
def forRange (next : Nat → Nat) (body : Nat → Nat → σ → Option σ) (end_ : Nat) :
    Nat → Nat → σ → Option σ
  | 0, addr, s => if addr < end_ then none else some s
  | fuel + 1, addr, s =>
      if addr < end_ then (body addr (next addr) s).bind (forRange next body end_ fuel (next addr))
      else some s

variable {next : Nat → Nat} {body : Nat → Nat → σ → Option σ} {end_ : Nat}

/-- An empty range needs no round. -/
theorem forRange_of_le {fuel addr : Nat} (h : end_ ≤ addr) (s : σ) :
    forRange next body end_ fuel addr s = some s := by
  cases fuel with
  | zero => rw [forRange, if_neg h.not_gt]
  | succ fuel => rw [forRange, if_neg h.not_gt]

/-- **The rule of the loop.**  If the body always gets through and moves `I` on to the next piece,
the loop ends with `I` at the end of the range. -/
theorem forRange_rule {I : Nat → σ → Prop} {S : Nat} (hS : 0 < S)
    (hnext : ∀ a, a < end_ → next a = min ((a / S + 1) * S) end_)
    (hbody : ∀ a s, a < end_ → I a s → ∃ s', body a (next a) s = some s' ∧ I (next a) s')
    {fuel addr : Nat} {s : σ} (hle : addr ≤ end_)
    (hfuel : addr < end_ → (end_ - 1) / S - addr / S < fuel) (hs : I addr s) :
    ∃ s', forRange next body end_ fuel addr s = some s' ∧ I end_ s' := by
  induction fuel generalizing addr s with
  | zero =>
      obtain rfl : addr = end_ :=
        le_antisymm hle (Nat.not_lt.mp fun hlt ↦ Nat.not_lt_zero _ (hfuel hlt))
      exact ⟨s, forRange_of_le le_rfl s, hs⟩
  | succ fuel ih =>
      rcases hle.lt_or_eq with hlt | rfl
      · obtain ⟨s₁, hs₁, hI⟩ := hbody addr s hlt hs
        obtain ⟨hgt, hne, -⟩ := cut_spec hS hlt (hnext addr hlt)
        have hfuel' : next addr < end_ → (end_ - 1) / S - next addr / S < fuel := by
          intro hmore
          have hbd : next addr = (addr / S + 1) * S := by
            rw [hnext addr hlt] at hmore ⊢
            exact min_eq_left (Nat.le_of_not_lt fun h ↦ by rw [min_eq_right h.le] at hmore; omega)
          have hdiv : next addr / S = addr / S + 1 := by rw [hbd, Nat.mul_div_cancel _ hS]
          have hrest : next addr / S ≤ (end_ - 1) / S := Nat.div_le_div_right (by omega)
          have := hfuel hlt
          omega
        obtain ⟨s', hs', hI'⟩ := ih hne hfuel' hI
        refine ⟨s', ?_, hI'⟩
        rw [forRange, if_pos hlt, hs₁]
        exact hs'
      · exact ⟨s, forRange_of_le le_rfl s, hs⟩

end Loop

/-! ## Walks along a table -/

/-- A table with a pointer to one of its slots. -/
structure Cursor (ε : Type u) where
  pos : Nat
  table : Nat → ε

/-- The body of a walk: rewrite the slot of the piece `[addr, next)`, then move on. -/
def Cursor.round {ε : Type u} (f : Nat → Nat → ε → Option ε) (addr next : Nat) (c : Cursor ε) :
    Option (Cursor ε) :=
  (f addr next (c.table c.pos)).map fun s ↦ ⟨c.pos + 1, Function.update c.table c.pos s⟩

section Walk

variable {ε : Type u} {V : Type v} {S M : Nat} {look : ε → Nat → V} {g : V → V}

/-- The addresses of `[lo, a)` read as `g` of what they read before, all others of the block as
before. -/
def SweptUpTo (S M : Nat) (look : ε → Nat → V) (g : V → V) (old new : Nat → ε) (lo a : Nat) : Prop :=
  ∀ b, b / (M * S) = lo / (M * S) → look (new (b / S % M)) b =
    if lo ≤ b ∧ b < a then g (look (old (b / S % M)) b) else look (old (b / S % M)) b

theorem SweptUpTo.refl (t : Nat → ε) (lo : Nat) : SweptUpTo S M look g t t lo lo :=
  fun _ _ ↦ (if_neg fun h ↦ Nat.lt_irrefl _ (h.1.trans_lt h.2)).symm

/-- One slot more. -/
theorem SweptUpTo.round {old new : Nat → ε} {lo a n e : Nat} {s : ε} (hS : 0 < S)
    (h : SweptUpTo S M look g old new lo a) (hlo : lo ≤ a) (hblock : a / (M * S) = lo / (M * S))
    (hstart : a = lo ∨ S ∣ a) (hlt : a < e) (hn : n = min ((a / S + 1) * S) e)
    (hs : ∀ b, b / S = a / S → look s b =
      if a ≤ b ∧ b < n then g (look (new (a / S % M)) b) else look (new (a / S % M)) b) :
    SweptUpTo S M look g old (Function.update new (a / S % M) s) lo n := by
  obtain ⟨hgt, hne, hsame⟩ := cut_spec hS hlt hn
  intro b hb
  have hold := h b hb
  by_cases hslot : b / S = a / S
  · have hab : lo ≤ b → a ≤ b := by
      intro hlb
      rcases hstart with rfl | hdvd
      · exact hlb
      · rw [← Nat.div_mul_cancel hdvd, ← hslot]
        exact Nat.div_mul_le_self b S
    rw [if_neg fun hc ↦ Nat.lt_irrefl _ (hc.2.trans_le (hab hc.1))] at hold
    rw [hslot, Function.update_self, hs b hslot]
    rw [hslot] at hold
    rw [hold]
    by_cases hc : lo ≤ b ∧ b < n
    · rw [if_pos hc, if_pos ⟨hab hc.1, hc.2⟩]
    · rw [if_neg hc, if_neg fun hc' ↦ hc ⟨hlo.trans hc'.1, hc'.2⟩]
  · have hi : b / S % M ≠ a / S % M := fun hc ↦ hslot ((slot_eq_iff (hb.trans hblock.symm)).mp hc)
    rw [Function.update_of_ne hi, hold]
    -- between `a` and `n` there is only the slot of `a`
    have hiff : (lo ≤ b ∧ b < a) ↔ lo ≤ b ∧ b < n := by
      refine and_congr_right fun _ ↦ ⟨fun hba ↦ hba.trans hgt, fun hbn ↦ ?_⟩
      by_contra hab
      refine hslot (le_antisymm ?_ (Nat.div_le_div_right (Nat.not_lt.mp hab)))
      rw [hsame]
      exact Nat.div_le_div_right (by omega)
    simp only [hiff]

variable {next : Nat → Nat} {f : Nat → Nat → ε → Option ε} {lo e fuel : Nat}

/-- **What a walk does to a table.**  If the body applies `g` to the addresses of its own piece, the
walk applies it to those of the range.  `d` is an alignment that slots and ends of the range have. -/
theorem forRange_sweep {d : Nat} (hS : 0 < S) (hd : d ∣ S) (hde : d ∣ e) (hdlo : d ∣ lo)
    (hnext : ∀ a, a < e → next a = min ((a / S + 1) * S) e)
    (hf : ∀ a n s, d ∣ a → d ∣ n → a < n → n ≤ e → a / S = (n - 1) / S → ∃ s', f a n s = some s' ∧
      ∀ b, b / S = a / S → look s' b = if a ≤ b ∧ b < n then g (look s b) else look s b)
    (hlt : lo < e) (hblock : lo / (M * S) = (e - 1) / (M * S))
    (hfuel : (e - 1) / S - lo / S < fuel) (t : Nat → ε) :
    ∃ c, forRange next (Cursor.round f) e fuel lo ⟨lo / S % M, t⟩ = some c ∧
      SweptUpTo S M look g t c.table lo e := by
  have hround : ∀ a (c : Cursor ε), a < e →
      (lo ≤ a ∧ d ∣ a ∧ (a < e → c.pos = a / S % M ∧ (a = lo ∨ S ∣ a)) ∧
        SweptUpTo S M look g t c.table lo a) →
      ∃ c', Cursor.round f a (next a) c = some c' ∧ lo ≤ next a ∧ d ∣ next a ∧
        (next a < e → c'.pos = next a / S % M ∧ (next a = lo ∨ S ∣ next a)) ∧
        SweptUpTo S M look g t c'.table lo (next a) := by
    rintro a c hae ⟨hloa, hda, hpos, hswept⟩
    obtain ⟨hpos, hstart⟩ := hpos hae
    have hn := hnext a hae
    obtain ⟨hgt, hne, hsame⟩ := cut_spec hS hae hn
    have hdn : d ∣ next a := by
      rcases min_choice ((a / S + 1) * S) e with hmin | hmin
      · rw [hn, hmin]
        exact hd.mul_left _
      · rw [hn, hmin]
        exact hde
    have hab : a / (M * S) = lo / (M * S) :=
      le_antisymm (by rw [hblock]; exact Nat.div_le_div_right (by omega)) (Nat.div_le_div_right hloa)
    obtain ⟨s', hs', hlook⟩ := hf a (next a) (c.table c.pos) hda hdn hgt hne hsame
    refine ⟨⟨c.pos + 1, Function.update c.table c.pos s'⟩, ?_, hloa.trans hgt.le, hdn, ?_, ?_⟩
    · rw [Cursor.round, hs']
      rfl
    · intro hmore
      obtain ⟨hi, -, hdiv⟩ := cut_more (M := M) hS (hab.trans hblock) hn hmore
      refine ⟨by rw [hpos, hi], .inr ?_⟩
      rw [hn, min_eq_left (Nat.le_of_not_lt fun hc ↦ by rw [min_eq_right hc.le] at hn; omega)]
      exact dvd_mul_left S _
    · rw [hpos] at hlook ⊢
      exact hswept.round hS hloa hab hstart hae hn hlook
  obtain ⟨c, hc, -, -, -, hswept⟩ := forRange_rule hS hnext hround hlt.le (fun _ ↦ hfuel)
    (s := ⟨lo / S % M, t⟩) ⟨le_rfl, hdlo, fun _ ↦ ⟨rfl, .inl rfl⟩, SweptUpTo.refl t lo⟩
  exact ⟨c, hc, hswept⟩

/-- A preorder on slots that the body respects is respected by the walk. -/
theorem forRange_rel {R : ε → ε → Prop} (hrefl : ∀ s, R s s)
    (htrans : ∀ s₁ s₂ s₃, R s₁ s₂ → R s₂ s₃ → R s₁ s₃) (hS : 0 < S)
    (hnext : ∀ a, a < e → next a = min ((a / S + 1) * S) e)
    (hf : ∀ a n s, a < n → n ≤ e → ∃ s', f a n s = some s' ∧ R s s') (hle : lo ≤ e)
    (hfuel : lo < e → (e - 1) / S - lo / S < fuel) (i : Nat) (t : Nat → ε) :
    ∃ c, forRange next (Cursor.round f) e fuel lo ⟨i, t⟩ = some c ∧ ∀ j, R (t j) (c.table j) := by
  refine forRange_rule (I := fun _ (c : Cursor ε) ↦ ∀ j, R (t j) (c.table j)) hS hnext (fun a c hae hc ↦ ?_) hle
    hfuel (fun j ↦ hrefl _)
  obtain ⟨hgt, hne, -⟩ := cut_spec hS hae (hnext a hae)
  obtain ⟨s', hs', hrel⟩ := hf a (next a) (c.table c.pos) hgt hne
  refine ⟨⟨c.pos + 1, Function.update c.table c.pos s'⟩, ?_, fun j ↦ ?_⟩
  · rw [Cursor.round, hs']
    rfl
  · show R (t j) (Function.update c.table c.pos s' j)
    by_cases hj : j = c.pos
    · rw [hj, Function.update_self]
      exact htrans _ _ _ (hc c.pos) hrel
    · rw [Function.update_of_ne hj]
      exact hc j

end Walk

end ShadowStack.Lib
