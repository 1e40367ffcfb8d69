import ShadowStack.Ir.Equivalence

/-!
# Where instrumented functions write

Stores of an instrumented function stay out of the region of the shadow stacks.  Other instructions that write
memory are not looked at by the pass.
-/

namespace ShadowStack.Ir

open Lib Lkm

section Writes

variable {ν : Type} {w : Write ν}

/-- The write is done by a store without `m-ignore` metadata. -/
def Write.ByStore (w : Write ν) : Prop := w.isStore = true ∧ w.ignore = false

/-- No address of the region is written. -/
def Write.Outside (w : Write ν) : Prop := ∀ k < w.len, ¬ (ssStart ≤ wrap (w.addr + k) ∧ wrap (w.addr + k) < ssEnd)

theorem Write.outside_of_lt (haddr : w.addr < 2 ^ 47) (hlen : w.len < 2 ^ 40) : w.Outside := by
  rintro k hk ⟨hlo, -⟩
  rw [wrap_of_lt (by omega), ssStart] at hlo
  omega

/-- Masked stores go below `2 ^ 47`. -/
theorem write_masked_lt (i : Inst ν) (s : State ν) (hw : i.write maskAddr s = some w) (hstore : w.ByStore) :
    w.addr < 2 ^ 47 := by
  obtain ⟨name, ignore, op⟩ := i
  obtain ⟨his, hig⟩ := hstore
  cases op with
  | store kind bytes val p =>
      obtain rfl := Option.some.inj hw
      obtain rfl : ignore = false := hig
      exact maskAddr_lt _
  | cmpxchg bytes p cmp new =>
      simp only [Inst.write, Option.ite_none_right_eq_some] at hw
      obtain rfl := Option.some.inj hw.2
      cases his
  | atomicrmw bytes f p val =>
      obtain rfl := Option.some.inj hw
      cases his
  | memset dst byte len =>
      obtain rfl := Option.some.inj hw
      cases his
  | memmove dst src len =>
      obtain rfl := Option.some.inj hw
      cases his
  | _ => cases hw

/-- To mask a pointer below `2 ^ 47` makes no difference. -/
theorem write_id (i : Inst ν) (s : State ν) (h : ∀ w, i.write id s = some w → w.ByStore → w.addr < 2 ^ 47) :
    i.write maskAddr s = i.write id s := by
  obtain ⟨name, ignore, op⟩ := i
  cases op with
  | store kind bytes val p =>
      cases ignore with
      | true => rfl
      | false =>
          have hlt : s.ptr p < 2 ^ 47 := h _ rfl ⟨rfl, rfl⟩
          simp only [Inst.write, Bool.false_eq_true, if_false, maskAddr_of_lt hlt, id_eq]
  | _ => rfl

variable [DecidableEq ν] {F : Func ν} {at_ : Nat → Nat} {s s' s₀ : State ν} {e : Event} {es : List Event}

/-- A step adds at most the write of the next instruction. -/
theorem step_writes (h : Step F at_ s e s') :
    s'.writes = s.writes ∨ ∃ i rest, s.todo = i :: rest ∧ s'.writes = s.writes ++ (i.write at_ s).toList := by
  by_cases hs : s.todo = []
  · rcases step_nil hs h with ⟨m, -, rfl⟩ | ⟨-, hj⟩
    · exact .inl rfl
    · obtain ⟨B, b, B', hB, hb, hB', rfl⟩ := jump_eq_some.mp hj
      exact .inl rfl
  · obtain ⟨i, rest, hs⟩ := List.exists_cons_of_ne_nil hs
    rcases step_cons hs h with ⟨m, -, rfl⟩ | ⟨v, m, -, rfl⟩
    · exact .inl rfl
    · exact .inr ⟨i, rest, hs, rfl⟩

theorem mem_writes_of_step (h : Step F at_ s e s') (hw : w ∈ s.writes) : w ∈ s'.writes := by
  rcases step_writes h with heq | ⟨i, rest, -, heq⟩
  · rwa [heq]
  · rw [heq]
    exact List.mem_append_left _ hw

/-- What every write of an instruction meets is met by all writes of a run. -/
theorem writes_of_run {P : Write ν → Prop} (hinit : ∀ w ∈ s₀.writes, P w)
    (hP : ∀ i s w, Inst.write at_ i s = some w → P w) (h : Run (Step F at_) s₀ es s) : ∀ w ∈ s.writes, P w := by
  refine h.invariant (I := fun s ↦ ∀ w ∈ s.writes, P w) hinit fun s e s' hs hstep w hw ↦ ?_
  rcases step_writes hstep with heq | ⟨i, rest, -, heq⟩
  · exact hs w (heq ▸ hw)
  · rw [heq, List.mem_append, Option.mem_toList] at hw
    exact hw.elim (hs w) (hP i s w)

/-- **A run whose stores go below `2 ^ 47`** is a run with masked stores. -/
theorem masked_of_lt (h : Run (Step F id) s₀ es s) (hlt : ∀ w ∈ s.writes, w.ByStore → w.addr < 2 ^ 47) :
    Run (Step F maskAddr) s₀ es s := by
  induction h with
  | nil => exact .nil
  | @snoc es e s s' hr hstep ih =>
      refine (ih fun w hw ↦ hlt w (mem_writes_of_step hstep hw)).snoc ?_
      by_cases hs : s.todo = []
      · rcases step_nil hs hstep with ⟨m, rfl, rfl⟩ | ⟨rfl, hj⟩
        · exact step_env m
        · exact step_jump hs hj
      · obtain ⟨i, rest, hs⟩ := List.exists_cons_of_ne_nil hs
        rcases step_cons hs hstep with ⟨m, rfl, rfl⟩ | ⟨v, m, hfires, rfl⟩
        · exact step_env m
        · have hsame : i.write maskAddr s = i.write id s := by
            refine write_id i s fun w hw ↦ hlt w ?_
            simp only [State.exec, hw]
            exact List.mem_append_right _ (List.mem_singleton_self w)
          have hexec : s.exec id i rest v m = s.exec maskAddr i rest v m := by
            simp only [State.exec, hsame]
          rw [hexec]
          exact step_exec hs hfires

end Writes

/-! ## Stores -/

/-- **What masking is for**: the instrumented function does what the function does with its stores masked. -/
structure StoresMasked (opts : Opts) (an : Analyses) (F : Func Nat) (regs : Name → Nat) (args : Nat → Nat)
    (mem : Memory) : Prop where
  /-- Whatever the instrumented function does, the function with masked stores does. -/
  right : Simulated Event.external (Step (runPass opts an true F) id) (Step F maskAddr) (fun t s ↦ Agree s t)
    (.start (runPass opts an true F) regs args mem) (ownStart F regs args mem)
  left : Simulated Event.external (Step F maskAddr) (Step (runPass opts an true F) id) Agree (ownStart F regs args mem)
    (.start (runPass opts an true F) regs args mem)
  /-- It does the same as after the pass without optimisations. -/
  toPlain : Simulated Event.external (Step (runPass opts an true F) id) (Step (runPass .plain an true F) id) Same
    (.start (runPass opts an true F) regs args mem) (.start (runPass .plain an true F) regs args mem)
  ofPlain : Simulated Event.external (Step (runPass .plain an true F) id) (Step (runPass opts an true F) id) Same
    (.start (runPass .plain an true F) regs args mem) (.start (runPass opts an true F) regs args mem)
  /-- Every store writes its value to the masked address of what its own pointer is then. -/
  store : ∀ es t, Run (Step (runPass opts an true F) id) (.start (runPass opts an true F) regs args mem) es t →
    ∀ n kind bytes val p, storeOf n kind bytes val p ∈ F.insts → ∀ i rest, t.todo = i :: rest → i.name = .own n →
      i.write id t =
        some ⟨.own n, true, false, maskAddr (t.ptr (p.map .own)), bytes, bytesOf (t.value (val.map .own))⟩
  outside : ∀ es t, Run (Step (runPass opts an true F) id) (.start (runPass opts an true F) regs args mem) es t →
    ∀ w ∈ t.writes, w.ByStore → w.len < 2 ^ 40 → w.Outside
  /-- A run of the function is not changed if all its stores go below `2 ^ 47`. -/
  unchanged : ∀ es s, Run (Step F id) (ownStart F regs args mem) es s → (∀ w ∈ s.writes, w.ByStore → w.addr < 2 ^ 47) →
    ∃ es' t, Run (Step (runPass opts an true F) id) (.start (runPass opts an true F) regs args mem) es' t ∧
      es'.filter Event.external = es.filter Event.external ∧ Agree s t

section Stores

variable {opts : Opts} {an : Analyses} {F : Func Nat} {regs : Name → Nat} {args : Nat → Nat} {mem : Memory}

/-- The instrumented function, and the function with masked stores. -/
theorem runPass_simulated (opts : Opts) (hF : F.Ssa) (han : an.Sound F (ownStart F regs args mem)) :
    Simulated Event.external (Step (runPass opts an true F) id) (Step F maskAddr) (fun t s ↦ Agree s t)
      (.start (runPass opts an true F) regs args mem) (ownStart F regs args mem) ∧
    Simulated Event.external (Step F maskAddr) (Step (runPass opts an true F) id) Agree (ownStart F regs args mem)
      (.start (runPass opts an true F) regs args mem) := by
  obtain ⟨plan, heq, hplan⟩ := runPass_rewrite opts an hF
  rw [heq]
  exact ⟨(simulated_right regs args mem hF hplan han).mono fun _ _ hb ↦ hb.agree,
    (simulated_left regs args mem hF hplan han).mono fun _ _ hb ↦ hb.1.agree⟩

/-- With any two sets of optimisations the pass gives functions that do the same. -/
theorem runPass_same (opts opts' : Opts) (hF : F.Ssa) (han : an.Sound F (ownStart F regs args mem)) :
    Simulated Event.external (Step (runPass opts an true F) id) (Step (runPass opts' an true F) id) Same
      (.start (runPass opts an true F) regs args mem) (.start (runPass opts' an true F) regs args mem) := by
  refine ((runPass_simulated opts hF han).1.trans (runPass_simulated opts' hF han).2).mono ?_
  rintro t t' ⟨s, h, h'⟩
  exact h.same h'

/-- The stores of the instrumented function go below `2 ^ 47`. -/
theorem runPass_writes_lt (opts : Opts) (hF : F.Ssa) (han : an.Sound F (ownStart F regs args mem)) {es : List Event}
    {t : State Name} (hr : Run (Step (runPass opts an true F) id) (.start (runPass opts an true F) regs args mem) es t) :
    ∀ w ∈ t.writes, w.ByStore → w.addr < 2 ^ 47 := by
  obtain ⟨es', s, hs, -, hag⟩ := (runPass_simulated opts hF han).1 es t hr
  have hlt : ∀ w ∈ s.writes, w.ByStore → w.addr < 2 ^ 47 :=
    writes_of_run (fun w hw ↦ absurd hw List.not_mem_nil) (fun i s w ↦ write_masked_lt i s) hs
  intro w hw hstore
  rw [hag.writes] at hw
  obtain ⟨w', hw', rfl⟩ := List.mem_map.mp hw
  exact hlt w' hw' hstore

/-- **Masking with any optimisations is right.** -/
theorem runPass_storesMasked (hF : F.Ssa) (han : an.Sound F (ownStart F regs args mem)) :
    StoresMasked opts an F regs args mem where
  right := (runPass_simulated opts hF han).1
  left := (runPass_simulated opts hF han).2
  toPlain := runPass_same opts .plain hF han
  ofPlain := runPass_same .plain opts hF han
  store := by
    intro es t hr n kind bytes val p hi i rest ht hn
    obtain ⟨plan, heq, hplan⟩ := runPass_rewrite opts an hF
    rw [heq] at hr
    obtain ⟨-, s, -, -, hb⟩ := simulated_right regs args mem hF hplan han es t hr
    exact hb.write_store hF hplan han ht hn hi
  outside es t hr w hw hstore hlen := Write.outside_of_lt (runPass_writes_lt opts hF han hr w hw hstore) hlen
  unchanged es s hr hlt := (runPass_simulated opts hF han).2 es s (masked_of_lt hr hlt)

/-- Two stores through the same argument, one after the other. -/
def twoStores : Func Nat :=
  ⟨[⟨[], [storeOf 0 .plain 8 (.const 1) (.arg 0), storeOf 1 .volatile 8 (.const 2) (.arg 0)], ⟨.const 0, [], id⟩⟩]⟩

/-- Nothing is known of an argument, and the first store comes before the second. -/
def twoStoresAnalyses : Analyses where
  knownZero := fun _ ↦ 0
  unsignedMax := fun _ ↦ 2 ^ 64 - 1
  unsignedMax_lt := fun _ ↦ by decide
  dominates := fun d i ↦ d = .masked 0 && i = .own 1

theorem twoStores_ssa : twoStores.Ssa where
  entry := ⟨_, rfl⟩
  unique := by decide
  dominated := by
    intro i hi kind bytes val n hop
    simp only [twoStores, Func.insts, storeOf, List.flatMap_cons, List.flatMap_nil, List.append_nil, List.mem_cons,
      List.not_mem_nil, or_false] at hi
    rcases hi with rfl | rfl <;> cases hop

theorem twoStores_dominates : twoStores.Dominates (.inst 0) (.inst 1) := by
  intro h hp
  cases hp with
  | @snoc h i _ hp he =>
      cases he with
      | @next b B _ _ l l' hB hnodes =>
          cases b with
          | succ b => cases hB
          | zero =>
              obtain rfl := Option.some.inj hB
              have hlist : [.head 0, .inst 0, .inst 1, .term 0] = l ++ i :: .inst 1 :: l' := hnodes
              rcases l with _ | ⟨x, _ | ⟨y, _ | ⟨z, l⟩⟩⟩
              · cases hlist
              · cases hlist
                exact List.mem_cons_self
              · cases hlist
              · have hlen := congrArg List.length hlist
                simp only [List.length_append, List.length_cons, List.length_nil] at hlen
                omega

theorem twoStoresAnalyses_sound (s₀ : State Nat) : twoStoresAnalyses.Sound twoStores s₀ where
  knownZero _ _ _ _ _ _ _ _ _ _ := Nat.and_zero _
  unsignedMax _ _ _ _ _ _ _ _ _ _ := Nat.le_pred_of_lt (wrap_lt _)
  dominates prev n h := by
    simp only [twoStoresAnalyses, Bool.and_eq_true, decide_eq_true_eq] at h
    obtain ⟨hprev, hn⟩ := h
    cases hprev
    cases hn
    exact twoStores_dominates

/-- The second store uses the masked pointer of the first. -/
theorem runPass_storesMasked_twoStores : StoresMasked ⟨true, true, true⟩ twoStoresAnalyses twoStores (fun _ ↦ 0)
    (fun _ ↦ ssStart) (fun _ ↦ 0) :=
  runPass_storesMasked twoStores_ssa (twoStoresAnalyses_sound _)

/-! ## Other instructions -/

/-- No instruction without `m-ignore` metadata writes to the region, with writes of less than `2 ^ 40` bytes. -/
def MasksAllWrites (opts : Opts) (an : Analyses) (F : Func Nat) (regs : Name → Nat) (args : Nat → Nat)
    (mem : Memory) : Prop :=
  ∀ es t, Run (Step (runPass opts an true F) id) (.start (runPass opts an true F) regs args mem) es t →
    ∀ w ∈ t.writes, w.ignore = false → w.len < 2 ^ 40 → w.Outside

/-- An instruction that is no masked store is left as it is. -/
theorem Beside.other {plan : Plan} {s₀ s : State Nat} {t : State Name} (hF : F.Ssa)
    (hplan : PlanOk opts an plan F.stores) (han : an.Sound F s₀) (hb : Beside F plan s₀ s t) {i : Inst Nat}
    (hi : i ∈ F.insts) (hother : i.Other) {i' : Inst Name} {rest : List (Inst Name)} (ht : t.todo = i' :: rest)
    (hn : i'.name = .own i.name) : i' = i.map .own := by
  obtain ⟨j, rest', hsingle⟩ := hb.head hF hplan han ht hn
  obtain ⟨h, hsim⟩ := hb.sim
  obtain rfl : j = i := inst_unique hF (hsim.mem_insts (by rw [hsingle.src]; exact List.mem_cons_self)) hi
    (Name.own.inj (hsingle.name_eq.symm.trans hn))
  rcases hsingle.kind with ⟨-, rfl⟩ | ⟨n, kind, bytes, val, p, v, rfl, -⟩
  · rfl
  · exact absurd rfl (hother n kind bytes val p)

/-- **Stores of every kind stay out of the region; other instructions are left as they are**, so that all writes
stay out of it if those of atomic updates and of the memory intrinsics do. -/
theorem runPass_writes (hF : F.Ssa) (han : an.Sound F (ownStart F regs args mem)) (es : List Event) (t : State Name)
    (hr : Run (Step (runPass opts an true F) id) (.start (runPass opts an true F) regs args mem) es t) :
    (∀ w ∈ t.writes, w.ByStore → w.len < 2 ^ 40 → w.Outside) ∧
    (∀ i ∈ F.insts, i.Other → ∀ i' rest, t.todo = i' :: rest → i'.name = .own i.name → i' = i.map .own) ∧
    ((∀ w ∈ t.writes, w.ignore = false → w.len < 2 ^ 40 → w.Outside) ↔
      ∀ w ∈ t.writes, w.isStore = false → w.ignore = false → w.len < 2 ^ 40 → w.Outside) := by
  have hstores : ∀ w ∈ t.writes, w.ByStore → w.len < 2 ^ 40 → w.Outside := fun w hw hstore hlen ↦
    Write.outside_of_lt (runPass_writes_lt opts hF han hr w hw hstore) hlen
  refine ⟨hstores, fun i hi hother i' rest ht hn ↦ ?_, fun h w hw _ ↦ h w hw, fun h w hw hig hlen ↦ ?_⟩
  · obtain ⟨plan, heq, hplan⟩ := runPass_rewrite opts an hF
    rw [heq] at hr
    obtain ⟨-, s, -, -, hb⟩ := simulated_right regs args mem hF hplan han es t hr
    exact hb.other hF hplan han hi hother ht hn
  · cases hst : w.isStore with
    | true => exact hstores w hw ⟨hst, hig⟩ hlen
    | false => exact h w hw hst hig hlen

theorem runPass_writes_twoStores : ∃ es t, Run (Step (runPass .plain twoStoresAnalyses true twoStores) id)
    (.start (runPass .plain twoStoresAnalyses true twoStores) (fun _ ↦ 0) (fun _ ↦ ssStart) (fun _ ↦ 0)) es t ∧
      t.writes.length = 1 ∧ ∀ w ∈ t.writes, w.ByStore → w.len < 2 ^ 40 → w.Outside := by
  have hrun : Run (Step (runPass .plain twoStoresAnalyses true twoStores) id)
      (.start (runPass .plain twoStoresAnalyses true twoStores) (fun _ ↦ 0) (fun _ ↦ ssStart) (fun _ ↦ 0))
      [.run, .run, .run, .run] _ :=
    Run.of_foldlM (fun s e s' h ↦ h) rfl
  exact ⟨_, _, hrun, rfl, (runPass_writes twoStores_ssa (twoStoresAnalyses_sound _) _ _ hrun).1⟩

/-- A function with one instruction. -/
def oneInst (op : Op Nat) : Func Nat := ⟨[⟨[], [⟨0, false, op⟩], ⟨.const 0, [], id⟩⟩]⟩

/-- An instruction that writes to its own pointer is not stopped. -/
theorem escapes {op : Op Nat} {w : Write Name}
    (hpass : runPass .plain twoStoresAnalyses true (oneInst op) = (oneInst op).map Name.own)
    (hcall : (⟨.own 0, false, op.map Name.own⟩ : Inst Name).isCall = false)
    (hwrite : (⟨.own 0, false, op.map Name.own⟩ : Inst Name).write id
      (.start ((oneInst op).map Name.own) (fun _ ↦ 0) (fun _ ↦ ssStart) (fun _ ↦ 0)) = some w)
    (hw : w.ignore = false ∧ w.addr = ssStart ∧ w.len = 8) :
    ¬ MasksAllWrites .plain twoStoresAnalyses (oneInst op) (fun _ ↦ 0) (fun _ ↦ ssStart) (fun _ ↦ 0) := by
  intro h
  obtain ⟨hig, haddr, hlen⟩ := hw
  rw [MasksAllWrites, hpass] at h
  have hstep : Step ((oneInst op).map Name.own) id
      (.start ((oneInst op).map Name.own) (fun _ ↦ 0) (fun _ ↦ ssStart) (fun _ ↦ 0)) .run _ :=
    step_exec rfl (.inl ⟨hcall, rfl, rfl, rfl⟩)
  refine h _ _ (.single hstep) w ?_ hig (by rw [hlen]; decide) 0 (by rw [hlen]; decide) ?_
  · exact List.mem_append_right _ (Option.mem_toList.mpr hwrite)
  · rw [haddr]
    decide

/-- An atomic update through a pointer into the region writes there, and so do the memory intrinsics. -/
theorem not_masksAllWrites :
    ¬ MasksAllWrites .plain twoStoresAnalyses (oneInst (.atomicrmw 8 (· + ·) (.arg 0) (.const 1))) (fun _ ↦ 0)
      (fun _ ↦ ssStart) (fun _ ↦ 0) ∧
    ¬ MasksAllWrites .plain twoStoresAnalyses (oneInst (.cmpxchg 8 (.arg 0) (.const 0) (.const 1))) (fun _ ↦ 0)
      (fun _ ↦ ssStart) (fun _ ↦ 0) ∧
    ¬ MasksAllWrites .plain twoStoresAnalyses (oneInst (.memset (.arg 0) (.const 1) (.const 8))) (fun _ ↦ 0)
      (fun _ ↦ ssStart) (fun _ ↦ 0) ∧
    ¬ MasksAllWrites .plain twoStoresAnalyses (oneInst (.memmove (.arg 0) (.const 0) (.const 8))) (fun _ ↦ 0)
      (fun _ ↦ ssStart) (fun _ ↦ 0) :=
  ⟨escapes rfl rfl rfl ⟨rfl, rfl, rfl⟩, escapes rfl rfl rfl ⟨rfl, rfl, rfl⟩, escapes rfl rfl rfl ⟨rfl, rfl, rfl⟩,
    escapes rfl rfl rfl ⟨rfl, rfl, rfl⟩⟩

end Stores

end ShadowStack.Ir
