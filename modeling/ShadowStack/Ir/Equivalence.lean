import Mathlib.Data.Nat.Bitwise
import ShadowStack.Ir.Simulation
import ShadowStack.Lkm.PageTable

/-!
# The masking pass is right

Whatever optimisations are compiled in, the instrumented function does what the function does when each of its
stores goes to the masked address of its pointer.
-/

namespace ShadowStack.Ir

open Lib

/-- Calls and what others do to memory are seen from outside. -/
def Event.external : Event → Bool
  | .run => false
  | .call .. => true
  | .env .. => true

/-! ## Soundness of the analyses -/

/-- What is assumed of the analyses, for the runs from a start: a pointer has none of the bits that are known to
be zero, it is in its range, and what is found to dominate a store does. -/
structure Analyses.Sound (an : Analyses) (F : Func Nat) (s₀ : State Nat) : Prop where
  knownZero : ∀ es s, Run (Step F id) s₀ es s → ∀ n kind bytes val p rest, s.todo = storeOf n kind bytes val p :: rest →
    s.ptr p &&& an.knownZero (p.map .own) = 0
  unsignedMax : ∀ es s, Run (Step F id) s₀ es s → ∀ n kind bytes val p rest,
    s.todo = storeOf n kind bytes val p :: rest → s.ptr p ≤ an.unsignedMax (p.map .own)
  dominates : an.DomSound F

/-- `MASK` and the bits to clear have no bit in common. -/
theorem testBit_bitsToClear {i : Nat} (hlo : 47 ≤ i) (hhi : i < 64) : bitsToClear.testBit i = true := by
  have hsub : bitsToClear = 2 ^ 64 - (mask + 1) := rfl
  have hmask : mask = 2 ^ 47 - 1 := rfl
  rw [hsub, Nat.testBit_two_pow_sub_succ (by decide), hmask, Nat.testBit_two_pow_sub_one, decide_eq_true hhi,
    decide_eq_false (Nat.not_lt.mpr hlo)]
  rfl

/-- Without a bit to clear an address is below `2 ^ 47`. -/
theorem lt_of_and_bitsToClear {a : Nat} (ha : a < 2 ^ 64) (h : a &&& bitsToClear = 0) : a < 2 ^ 47 := by
  refine Nat.lt_pow_two_of_testBit a fun i hi ↦ ?_
  by_cases hlt : i < 64
  · have hbit := congrArg (·.testBit i) h
    simpa [Nat.testBit_and, testBit_bitsToClear hi hlt] using hbit
  · exact Nat.testBit_lt_two_pow (ha.trans_le (Nat.pow_le_pow_right (by decide) (Nat.not_lt.mp hlt)))

/-- What the first two optimisations skip needs no mask. -/
theorem Skipped.lt {opts : Opts} {an : Analyses} {p : Value Name} (h : Skipped opts an p) {a : Nat}
    (ha : a < 2 ^ 64) (hknown : a &&& an.knownZero p = 0) (hmax : a ≤ an.unsignedMax p) : a < 2 ^ 47 := by
  rcases h with ⟨-, hknownBits⟩ | ⟨-, hscev⟩
  · have hbits : an.knownZero p &&& bitsToClear = bitsToClear := of_decide_eq_true hknownBits
    refine lt_of_and_bitsToClear ha ?_
    rw [← hbits, ← Nat.and_assoc, hknown, Nat.zero_and]
  · exact hmax.trans_lt (lt_of_and_bitsToClear (an.unsignedMax_lt p) (of_decide_eq_true hscev))

section Masked

variable {F : Func Nat} {s s₀ : State Nat} {an : Analyses} {opts : Opts} {es : List Event}

/-- Where stores go makes a difference to memory only, which others may change as well. -/
theorem masked_of_id (h : Run (Step F maskAddr) s₀ es s) :
    ∃ es' s', Run (Step F id) s₀ es' s' ∧ s' = { s with writes := s'.writes } := by
  have hsim : Simulated (fun _ ↦ false) (Step F maskAddr) (Step F id) (fun s s' ↦ s' = { s with writes := s'.writes })
      s₀ s₀ := by
    refine .of_step rfl fun s e s' t ht hs ↦ ?_
    obtain ⟨ws, rfl⟩ : ∃ ws, t = { s with writes := ws } := ⟨_, ht⟩
    by_cases hs' : s.todo = []
    · rcases step_nil hs' hs with ⟨m, rfl, rfl⟩ | ⟨rfl, hj⟩
      · exact ⟨[.env m], _, .single (step_env m), rfl, rfl⟩
      · obtain ⟨B, b, B', hB, hb, hB', rfl⟩ := jump_eq_some.mp hj
        exact ⟨[.run], _, .single (step_jump hs' (jump_eq_some.mpr ⟨B, b, B', hB, hb, hB', rfl⟩)), rfl, rfl⟩
    · obtain ⟨i, rest, hs'⟩ := List.exists_cons_of_ne_nil hs'
      rcases step_cons hs' hs with ⟨m, rfl, rfl⟩ | ⟨v, m, hfires, rfl⟩
      · exact ⟨[.env m], _, .single (step_env m), rfl, rfl⟩
      · have hexec : Step F id { s with writes := ws } e (State.exec id { s with writes := ws } i rest v m) :=
          step_exec hs' hfires
        exact ⟨[e, .env (s.exec maskAddr i rest v m).mem], _, (Run.single hexec).snoc (step_env _), rfl, rfl⟩
  obtain ⟨es', s', hr, -, hs'⟩ := hsim es s h
  exact ⟨es', s', hr, hs'⟩

/-- A skipped store goes to an address below `2 ^ 47`. -/
theorem Analyses.Sound.skipped (han : an.Sound F s₀) (h : Run (Step F maskAddr) s₀ es s) {n : Nat} {kind : StoreKind}
    {bytes : Nat} {val p : Value Nat} {rest : List (Inst Nat)} (hs : s.todo = storeOf n kind bytes val p :: rest)
    (hskip : Skipped opts an (p.map .own)) : s.ptr p < 2 ^ 47 := by
  obtain ⟨es', s', hr, hs'⟩ := masked_of_id h
  have htodo : s'.todo = storeOf n kind bytes val p :: rest := by
    rw [hs']
    exact hs
  have hptr : s'.ptr p = s.ptr p := by
    rw [hs']
    cases p <;> rfl
  have hknown := han.knownZero es' s' hr n kind bytes val p rest htodo
  have hmax := han.unsignedMax es' s' hr n kind bytes val p rest htodo
  rw [hptr] at hknown hmax
  exact hskip.lt (wrap_lt _) hknown hmax

end Masked

/-! ## Steps side by side -/

/-- A state that the function with masked stores reaches, and one of the rewritten function. -/
structure Beside (F : Func Nat) (plan : Plan) (s₀ s : State Nat) (t : State Name) : Prop where
  reach : ∃ es, Run (Step F maskAddr) s₀ es s
  sim : ∃ h, Sim F plan h s t
  phase : Phase plan s t

section Steps

variable {F : Func Nat} {plan : Plan} {opts : Opts} {an : Analyses} {s s' s₀ : State Nat} {t t' : State Name}
  {e : Event} {es : List Event}

theorem Beside.after (hb : Beside F plan s₀ s t) (hr : Run (Step F maskAddr) s es s') {h : List (Node Nat)}
    (hsim : Sim F plan h s' t') (hph : Phase plan s' t') : Beside F plan s₀ s' t' := by
  obtain ⟨es₀, hreach⟩ := hb.reach
  exact ⟨⟨es₀ ++ es, hreach.trans hr⟩, ⟨h, hsim⟩, hph⟩

theorem Beside.env (hb : Beside F plan s₀ s t) (m : Memory) :
    Beside F plan s₀ { s with mem := m } { t with mem := m } := by
  obtain ⟨h, hsim⟩ := hb.sim
  exact hb.after (.single (step_env m)) (hsim.env m) (hb.phase.env m)

/-- What the next instructions are, from the start of one. -/
theorem Beside.next (hF : F.Ssa) (hplan : PlanOk opts an plan F.stores) (han : an.Sound F s₀)
    (hb : Beside F plan s₀ s t) (hstart : t.todo = s.todo.flatMap (expand plan)) {i : Inst Nat}
    {rest : List (Inst Nat)} (hs : s.todo = i :: rest) :
    (∃ i', Single plan s t i i' rest) ∨ ∃ n p, Inserting plan s t 0 n p := by
  obtain ⟨es₀, hreach⟩ := hb.reach
  obtain ⟨h, hsim⟩ := hb.sim
  refine hsim.next hF hplan han.dominates hstart hs ?_
  rintro n kind bytes val p rfl hskip
  exact han.skipped hreach hs hskip

/-- The step that one instruction makes of the rewritten function is one of the function. -/
theorem Beside.single_right (hF : F.Ssa) (hb : Beside F plan s₀ s t) {i : Inst Nat} {i' : Inst Name}
    {rest : List (Inst Nat)} (hi : Single plan s t i i' rest) (hstep : Step (F.rewrite plan) id t e t') :
    ∃ s', Step F maskAddr s e s' ∧ Beside F plan s₀ s' t' := by
  obtain ⟨h, hsim⟩ := hb.sim
  rcases step_cons hi.dst hstep with ⟨m, rfl, rfl⟩ | ⟨v, m, hfires, rfl⟩
  · exact ⟨_, step_env m, hb.env m⟩
  · have hs : Step F maskAddr s e (s.exec maskAddr i rest v m) :=
      step_exec hi.src ((hi.fires_iff hsim.agree).mp hfires)
    exact ⟨_, hs, hb.after (.single hs) (hsim.single hF hi v m) (.start rfl)⟩

/-- **A step of the rewritten function** is one of the function, or an instruction in front of a store. -/
theorem Beside.right (hF : F.Ssa) (hplan : PlanOk opts an plan F.stores) (han : an.Sound F s₀)
    (hb : Beside F plan s₀ s t) (hstep : Step (F.rewrite plan) id t e t') :
    (e = .run ∧ Beside F plan s₀ s t') ∨ ∃ s', Step F maskAddr s e s' ∧ Beside F plan s₀ s' t' := by
  have hinserting : ∀ k n p, Inserting plan s t k n p →
      (e = .run ∧ Beside F plan s₀ s t') ∨ ∃ s', Step F maskAddr s e s' ∧ Beside F plan s₀ s' t' := by
    intro k n p hk
    by_cases hlt : k < 3
    · obtain ⟨h, hsim⟩ := hb.sim
      obtain ⟨j, todo, ht, hcall, hsim', hk'⟩ := hsim.inserting hF hk hlt
      rcases step_cons ht hstep with ⟨m, rfl, rfl⟩ | ⟨v, m, ⟨-, rfl, rfl, rfl⟩ | ⟨hcall', -⟩, rfl⟩
      · exact .inr ⟨_, step_env m, hb.env m⟩
      · exact .inl ⟨rfl, hb.after .nil hsim' (.inserting hk')⟩
      · rw [hcall] at hcall'
        cases hcall'
    · obtain rfl : k = 3 := Nat.le_antisymm hk.le (Nat.not_lt.mp hlt)
      obtain ⟨i, i', rest, hi⟩ := hk.single
      exact .inr (hb.single_right hF hi hstep)
  cases hb.phase with
  | inserting hk => exact hinserting _ _ _ hk
  | start hstart =>
      by_cases hs : s.todo = []
      · rw [hs] at hstart
        rcases step_nil hstart hstep with ⟨m, rfl, rfl⟩ | ⟨rfl, hj⟩
        · exact .inr ⟨_, step_env m, hb.env m⟩
        · obtain ⟨h, hsim⟩ := hb.sim
          obtain ⟨s', h', hj', hsim', hstart'⟩ := hsim.jump_right hs hj
          exact .inr ⟨s', step_jump hs hj', hb.after (.single (step_jump hs hj')) hsim' (.start hstart')⟩
      · obtain ⟨i, rest, hs⟩ := List.exists_cons_of_ne_nil hs
        rcases hb.next hF hplan han hstart hs with ⟨i', hi⟩ | ⟨n, p, hk⟩
        · exact .inr (hb.single_right hF hi hstep)
        · exact hinserting 0 n p hk

/-- The instructions in front of a store are executed without anything seen from outside. -/
theorem Beside.insert (hF : F.Ssa) (hb : Beside F plan s₀ s t) {k n d : Nat} {p : Value Nat}
    (hk : Inserting plan s t k n p) (hd : k + d = 3) : ∃ es t', Run (Step (F.rewrite plan) id) t es t' ∧
      es.filter Event.external = [] ∧ Beside F plan s₀ s t' ∧ Inserting plan s t' 3 n p := by
  induction d generalizing k t with
  | zero =>
      obtain rfl : k = 3 := hd
      exact ⟨[], t, .nil, rfl, hb, hk⟩
  | succ d ih =>
      obtain ⟨h, hsim⟩ := hb.sim
      obtain ⟨j, todo, ht, hcall, hsim', hk'⟩ := hsim.inserting hF hk (by omega)
      obtain ⟨es, t', hr, hes, hb', hk₃⟩ := ih (hb.after .nil hsim' (.inserting hk')) hk' (by omega)
      have hstep : Step (F.rewrite plan) id t .run (t.exec id j todo 0 t.mem) :=
        step_exec ht (.inl ⟨hcall, rfl, rfl, rfl⟩)
      exact ⟨[.run] ++ es, t', (Run.single hstep).trans hr, by rw [List.filter_append, hes]; rfl, hb', hk₃⟩

/-- **A step of the function** is some of the rewritten function, with the same to be seen from outside. -/
theorem Beside.left (hF : F.Ssa) (hplan : PlanOk opts an plan F.stores) (han : an.Sound F s₀)
    (hb : Beside F plan s₀ s t) (hstart : t.todo = s.todo.flatMap (expand plan)) (hstep : Step F maskAddr s e s') :
    ∃ es' t', Run (Step (F.rewrite plan) id) t es' t' ∧ es'.filter Event.external = [e].filter Event.external ∧
      Beside F plan s₀ s' t' ∧ t'.todo = s'.todo.flatMap (expand plan) := by
  have henv : ∀ m, e = .env m → s' = { s with mem := m } → ∃ es' t', Run (Step (F.rewrite plan) id) t es' t' ∧
      es'.filter Event.external = [e].filter Event.external ∧ Beside F plan s₀ s' t' ∧
        t'.todo = s'.todo.flatMap (expand plan) := by
    rintro m rfl rfl
    exact ⟨[.env m], _, .single (step_env m), rfl, hb.env m, hstart⟩
  by_cases hs : s.todo = []
  · rcases step_nil hs hstep with ⟨m, he, hs'⟩ | ⟨rfl, hj⟩
    · exact henv m he hs'
    · obtain ⟨h, hsim⟩ := hb.sim
      obtain ⟨t', h', hj', hsim', hstart'⟩ := hsim.jump_left hs hj
      have ht : t.todo = [] := by rw [hstart, hs, List.flatMap_nil]
      exact ⟨[.run], t', .single (step_jump ht hj'), rfl, hb.after (.single hstep) hsim' (.start hstart'), hstart'⟩
  · obtain ⟨i, rest, hs⟩ := List.exists_cons_of_ne_nil hs
    rcases step_cons hs hstep with ⟨m, he, hs'⟩ | ⟨v, m, hfires, rfl⟩
    · exact henv m he hs'
    have hsingle : ∀ t i' (_ : Beside F plan s₀ s t), Single plan s t i i' rest →
        ∃ t', Step (F.rewrite plan) id t e t' ∧ Beside F plan s₀ (s.exec maskAddr i rest v m) t' ∧
          t'.todo = rest.flatMap (expand plan) := by
      intro t i' hb hi
      obtain ⟨h, hsim⟩ := hb.sim
      exact ⟨_, step_exec hi.dst ((hi.fires_iff hsim.agree).mpr hfires),
        hb.after (.single hstep) (hsim.single hF hi v m) (.start rfl), rfl⟩
    rcases hb.next hF hplan han hstart hs with ⟨i', hi⟩ | ⟨n, p, hk⟩
    · obtain ⟨t', ht', hb', hstart'⟩ := hsingle t i' hb hi
      exact ⟨[e], t', .single ht', rfl, hb', hstart'⟩
    · obtain ⟨es, t₁, hr, hes, hb₁, hk₁⟩ := hb.insert hF (d := 3) hk rfl
      obtain ⟨i₁, i', rest₁, hi⟩ := hk₁.single
      obtain ⟨rfl, rfl⟩ := List.cons.inj (hs.symm.trans hi.src)
      obtain ⟨t', ht', hb', hstart'⟩ := hsingle t₁ i' hb₁ hi
      exact ⟨es ++ [e], t', hr.snoc ht', by rw [List.filter_append, hes]; rfl, hb', hstart'⟩

end Steps

/-! ## Runs -/

/-- Both have the same values, memory and writes, as far as they are of the function itself. -/
structure Same (t t' : State Name) : Prop where
  regs : ∀ n, t.regs (.own n) = t'.regs (.own n)
  args : t.args = t'.args
  mem : t.mem = t'.mem
  writes : t.writes = t'.writes

theorem Agree.same {s : State Nat} {t t' : State Name} (h : Agree s t) (h' : Agree s t') : Same t t' :=
  ⟨fun n ↦ (h.regs n).trans (h'.regs n).symm, h.args.trans h'.args.symm, h.mem.trans h'.mem.symm,
    h.writes.trans h'.writes.symm⟩

section Runs

variable {F : Func Nat} {plan : Plan} {opts : Opts} {an : Analyses} {s s' s₀ : State Nat} {t t' : State Name}
  {e : Event} {es : List Event} (regs : Name → Nat) (args : Nat → Nat) (mem : Memory)

/-- The start of the function itself. -/
abbrev ownStart (F : Func Nat) (regs : Name → Nat) (args : Nat → Nat) (mem : Memory) : State Nat :=
  .start F (fun n ↦ regs (.own n)) args mem

theorem beside_start (hF : F.Ssa) : Beside F plan (ownStart F regs args mem) (ownStart F regs args mem)
    (.start (F.rewrite plan) regs args mem) := by
  obtain ⟨B, hB⟩ := hF.entry
  have htodo : (ownStart F regs args mem).todo = B.body := by
    show ((F.block 0).map Block.body).getD [] = B.body
    rw [hB]
    rfl
  have hstart : (State.start (F.rewrite plan) regs args mem).todo = B.body.flatMap (expand plan) := by
    show (((F.rewrite plan).block 0).map Block.body).getD [] = B.body.flatMap (expand plan)
    rw [block_rewrite, hB]
    rfl
  refine ⟨⟨[], .nil⟩, ⟨[.head 0], ⟨⟨rfl, fun _ ↦ rfl, rfl, rfl, rfl⟩, ?_, ⟨B, [], hB, htodo.symm⟩, ?_⟩⟩,
    .start (by rw [htodo, hstart])⟩
  · rw [htodo]
    exact .snoc .nil (edge_head hB)
  · rintro n p - - ⟨-, heq | hnil⟩
    · cases heq
    · exact hnil.elim

theorem runPass_rewrite (opts : Opts) (an : Analyses) (hF : F.Ssa) :
    ∃ plan, runPass opts an true F = F.rewrite plan ∧ PlanOk opts an plan F.stores := by
  have hne : F.blocks.isEmpty = false := by
    obtain ⟨B, hB⟩ := hF.entry
    rw [List.isEmpty_eq_false_iff]
    intro hc
    rw [Func.block, hc] at hB
    cases hB
  unfold runPass
  rw [hne]
  exact instrumentStores_rewrite opts an hF

/-- **Runs of the instrumented function** are runs of the function with its stores masked. -/
theorem simulated_right (hF : F.Ssa) (hplan : PlanOk opts an plan F.stores)
    (han : an.Sound F (ownStart F regs args mem)) :
    Simulated Event.external (Step (F.rewrite plan) id) (Step F maskAddr)
      (fun t s ↦ Beside F plan (ownStart F regs args mem) s t) (.start (F.rewrite plan) regs args mem)
      (ownStart F regs args mem) := by
  refine .of_step (beside_start regs args mem hF) fun t e t' s hb hstep ↦ ?_
  rcases hb.right hF hplan han hstep with ⟨rfl, hb'⟩ | ⟨s', hs', hb'⟩
  · exact ⟨[], s, .nil, rfl, hb'⟩
  · exact ⟨[e], s', .single hs', rfl, hb'⟩

/-- **And the other way round.** -/
theorem simulated_left (hF : F.Ssa) (hplan : PlanOk opts an plan F.stores)
    (han : an.Sound F (ownStart F regs args mem)) :
    Simulated Event.external (Step F maskAddr) (Step (F.rewrite plan) id)
      (fun s t ↦ Beside F plan (ownStart F regs args mem) s t ∧ t.todo = s.todo.flatMap (expand plan))
      (ownStart F regs args mem) (.start (F.rewrite plan) regs args mem) := by
  refine .of_step ⟨beside_start regs args mem hF, ?_⟩ fun s e s' t hb hstep ↦ hb.1.left hF hplan han hb.2 hstep
  obtain ⟨B, hB⟩ := hF.entry
  show (((F.rewrite plan).block 0).map Block.body).getD [] = (((F.block 0).map Block.body).getD []).flatMap (expand plan)
  rw [block_rewrite, hB]
  rfl

variable {regs args mem}

theorem Beside.agree (hb : Beside F plan s₀ s t) : Agree s t := by
  obtain ⟨h, hsim⟩ := hb.sim
  exact hsim.agree

/-- When an instruction of the function itself is next, it is next on both sides. -/
theorem Beside.head (hF : F.Ssa) (hplan : PlanOk opts an plan F.stores) (han : an.Sound F s₀)
    (hb : Beside F plan s₀ s t) {i' : Inst Name} {rest' : List (Inst Name)} (ht : t.todo = i' :: rest') {n : Nat}
    (hn : i'.name = .own n) : ∃ i rest, Single plan s t i i' rest := by
  have hsingle : ∀ i j rest, Single plan s t i j rest → ∃ i rest, Single plan s t i i' rest := by
    intro i j rest hi
    obtain ⟨rfl, -⟩ := List.cons.inj (hi.dst.symm.trans ht)
    exact ⟨i, rest, hi⟩
  have hinserting : ∀ k m p, Inserting plan s t k m p → ∃ i rest, Single plan s t i i' rest := by
    intro k m p hk
    by_cases hlt : k < 3
    · obtain ⟨kind, bytes, val, rest, -, htodo⟩ := hk.todo
      rw [maskPointer_var m hk.var, ht] at htodo
      obtain rfl | rfl | rfl : k = 0 ∨ k = 1 ∨ k = 2 := by omega
      all_goals
        rw [(List.cons.inj htodo).1] at hn
        cases hn
    · obtain rfl : k = 3 := Nat.le_antisymm hk.le (Nat.not_lt.mp hlt)
      obtain ⟨i, j, rest, hi⟩ := hk.single
      exact hsingle i j rest hi
  cases hb.phase with
  | inserting hk => exact hinserting _ _ _ hk
  | start hstart =>
      by_cases hs : s.todo = []
      · rw [hs, ht] at hstart
        cases hstart
      · obtain ⟨i, rest, hs⟩ := List.exists_cons_of_ne_nil hs
        rcases hb.next hF hplan han hstart hs with ⟨j, hi⟩ | ⟨m, p, hk⟩
        · exact hsingle i j rest hi
        · exact hinserting 0 m p hk

/-- **What a store writes**, and where. -/
theorem Beside.write_store (hF : F.Ssa) (hplan : PlanOk opts an plan F.stores) (han : an.Sound F s₀)
    (hb : Beside F plan s₀ s t) {i' : Inst Name} {rest' : List (Inst Name)} (ht : t.todo = i' :: rest')
    {n : Nat} (hn : i'.name = .own n) {kind : StoreKind} {bytes : Nat} {val p : Value Nat}
    (hi : storeOf n kind bytes val p ∈ F.insts) : i'.write id t =
      some ⟨.own n, true, false, maskAddr (t.ptr (p.map .own)), bytes, bytesOf (t.value (val.map .own))⟩ := by
  obtain ⟨i, rest, hsingle⟩ := hb.head hF hplan han ht hn
  obtain ⟨h, hsim⟩ := hb.sim
  have hname : i.name = n := Name.own.inj (hsingle.name_eq.symm.trans hn)
  obtain rfl : i = storeOf n kind bytes val p :=
    inst_unique hF (hsim.mem_insts (by rw [hsingle.src]; exact List.mem_cons_self)) hi hname
  rw [hsingle.write_eq hsim.agree, hsim.agree.ptr, hsim.agree.value]
  rfl

end Runs

end ShadowStack.Ir
