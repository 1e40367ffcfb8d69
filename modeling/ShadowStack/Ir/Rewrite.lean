import Mathlib.Data.List.Nodup
import ShadowStack.Ir.Pass

/-!
# What the masking pass does to each store

The pass edits the function store by store.  All edits together give each store its instructions and its
pointer at once: a `Plan`.
-/

namespace ShadowStack.Ir

open Lib

/-- For each store the instructions in front of it and its pointer; `none` if it stays as it is. -/
abbrev Plan := Nat → Option (List (Inst Name) × Value Name)

/-- What an instruction becomes. -/
def expand (plan : Plan) (i : Inst Nat) : List (Inst Name) :=
  match plan i.name with
  | none => [i.map .own]
  | some (new, v) => new ++ [(i.map .own).setPointer v]

def Block.rewrite (plan : Plan) (B : Block Nat) : Block Name :=
  ⟨B.phis.map (Phi.map .own), B.body.flatMap (expand plan), B.term.map .own⟩

def Func.rewrite (plan : Plan) (F : Func Nat) : Func Name := ⟨F.blocks.map (Block.rewrite plan)⟩

/-- Instructions that the pass has put in. -/
def Inserted (l : List (Inst Name)) : Prop := ∀ i ∈ l, ∀ n, i.name ≠ .own n

theorem inserted_maskPointer (n : Nat) (p : Value Name) : Inserted (maskPointer n p).1 := by
  intro i hi k
  unfold maskPointer at hi
  split at hi
  · cases hi
  · simp only [List.mem_cons, List.not_mem_nil, or_false] at hi
    rcases hi with rfl | rfl | rfl <;> exact fun hc ↦ (nomatch hc)

theorem Value.map_own_injective : Function.Injective (Value.map Name.own) := by
  intro v w h
  cases v <;> cases w <;> simp_all [Value.map]

section Edit

variable {plan : Plan} {F : Func Nat} {n : Nat} {new : List (Inst Name)} {v : Value Name}

theorem rewrite_none (F : Func Nat) : F.rewrite (fun _ ↦ none) = F.map .own := by
  unfold Func.rewrite Func.map
  congr 1
  refine List.map_congr_left fun B _ ↦ ?_
  unfold Block.rewrite Block.map
  congr 1
  have hexpand : expand (fun _ ↦ none) = fun i ↦ [Inst.map .own i] := rfl
  rw [hexpand]
  exact List.map_eq_flatMap.symm

/-- An edit of a rewritten function, instruction by instruction. -/
theorem mapInsts_rewrite (e : Inst Name → List (Inst Name)) (plan' : Plan)
    (h : ∀ i : Inst Nat, (expand plan i).flatMap e = expand plan' i) :
    (F.rewrite plan).mapInsts e = F.rewrite plan' := by
  unfold Func.mapInsts Func.rewrite
  rw [List.map_map]
  congr 1
  refine List.map_congr_left fun B _ ↦ ?_
  unfold Block.rewrite
  simp only [Function.comp_apply, List.flatMap_assoc, h]

@[simp] theorem setPointer_name {ν : Type} (i : Inst ν) (v : Value ν) : (i.setPointer v).name = i.name := by
  unfold Inst.setPointer
  split <;> rfl

/-- An edit at a store of the function passes over what was put in. -/
theorem flatMap_inserted {l : List (Inst Name)} (hl : Inserted l) (n : Nat) (g : Inst Name → List (Inst Name)) :
    (l.flatMap fun i ↦ if i.name = .own n then g i else [i]) = l := by
  induction l with
  | nil => rfl
  | cons i l ih =>
      rw [List.flatMap_cons, if_neg (hl i List.mem_cons_self n), ih fun j hj ↦ hl j (List.mem_cons_of_mem _ hj)]
      rfl

/-- **An edit is one more entry of the plan.** -/
theorem edit_rewrite (hplan : plan n = none) (hnew : Inserted new)
    (hold : ∀ k new' v', plan k = some (new', v') → Inserted new') :
    ((F.rewrite plan).insertBefore (.own n) new).setPointer (.own n) v =
      F.rewrite (Function.update plan n (some (new, v))) := by
  have hboth : ((F.rewrite plan).insertBefore (.own n) new).setPointer (.own n) v =
      (F.rewrite plan).mapInsts fun i ↦ if i.name = .own n then new ++ [i.setPointer v] else [i] := by
    unfold Func.insertBefore Func.setPointer Func.mapInsts
    rw [List.map_map]
    congr 1
    refine List.map_congr_left fun B _ ↦ ?_
    simp only [Function.comp_apply, List.flatMap_assoc]
    congr 2
    funext i
    by_cases hi : i.name = .own n
    · rw [if_pos hi, if_pos hi, List.flatMap_append, flatMap_inserted hnew, List.flatMap_singleton, if_pos hi]
    · rw [if_neg hi, if_neg hi, List.flatMap_singleton, if_neg hi]
  rw [hboth]
  refine mapInsts_rewrite _ _ fun i ↦ ?_
  by_cases hi : i.name = n
  · have hname : (i.map Name.own).name = .own n := congrArg Name.own hi
    rw [expand, expand, hi, hplan, Function.update_self, List.flatMap_singleton, if_pos hname]
  · have hname : (i.map Name.own).name ≠ .own n := fun hc ↦ hi (Name.own.inj hc)
    rw [expand, expand, Function.update_of_ne hi]
    cases hk : plan i.name with
    | none => rw [List.flatMap_singleton, if_neg hname]
    | some a =>
        obtain ⟨new', v'⟩ := a
        simp only
        rw [List.flatMap_append, flatMap_inserted (hold _ _ _ hk), List.flatMap_singleton, setPointer_name,
          if_neg hname]

/-- A new pointer alone. -/
theorem setPointer_rewrite (hplan : plan n = none)
    (hold : ∀ k new' v', plan k = some (new', v') → Inserted new') :
    (F.rewrite plan).setPointer (.own n) v = F.rewrite (Function.update plan n (some ([], v))) := by
  have hsame : (F.rewrite plan).insertBefore (.own n) [] = F.rewrite plan := by
    refine mapInsts_rewrite _ _ fun i ↦ ?_
    have hid : (fun j : Inst Name ↦ if j.name = .own n then [] ++ [j] else [j]) = fun j ↦ [j] := by
      funext j
      exact ite_self _
    rw [hid, List.flatMap_singleton']
  rw [← edit_rewrite hplan (fun i hi ↦ absurd hi List.not_mem_nil) hold, hsame]

end Edit

/-! ## The decisions -/

section Plan

variable (opts : Opts) (an : Analyses) (plan : Plan)

/-- One of the first two optimisations finds that the pointer has no bits to clear. -/
def Skipped (p : Value Name) : Prop :=
  opts.knownBits = true ∧ knownBitsOpt an p = true ∨ opts.scev = true ∧ scalarEvolutionOpt an p = true

/-- The store `n` uses the masked pointer of an earlier store that dominates it. -/
def Reuses (n : Nat) (p v : Value Name) : Prop :=
  opts.domTree = true ∧ ∃ prev, plan prev = some (maskPointer prev p) ∧ v = (maskPointer prev p).2 ∧
    ∀ m, v = .inst m → an.dominates m (.own n) = true

/-- What becomes of the store `n` through `p`. -/
def Decided (n : Nat) (p : Value Name) : Prop :=
  match plan n with
  | none => Skipped opts an p
  | some (new, v) => (new, v) = maskPointer n p ∨ new = [] ∧ Reuses opts an plan n p v

/-- A plan for the stores `done`. -/
structure PlanOk (done : List (Nat × Value Nat)) : Prop where
  fresh : ∀ n, plan n ≠ none → ∃ p, (n, p) ∈ done
  inserted : ∀ n new v, plan n = some (new, v) → Inserted new
  decided : ∀ n p, (n, p) ∈ done → Decided opts an plan n (p.map .own)

/-- Where the pass stands after the stores `done`. -/
structure PassOk (F : Func Nat) (done : List (Nat × Value Nat)) (st : PassState) : Prop where
  func : st.func = F.rewrite plan
  ok : PlanOk opts an plan done
  ptrs : ∀ p v, st.maskedPtrs p = some v → ∃ prev, plan prev = some (maskPointer prev p) ∧ v = (maskPointer prev p).2

end Plan

section Run

variable {opts : Opts} {an : Analyses} {plan plan' : Plan} {F : Func Nat} {done : List (Nat × Value Nat)}
  {st : PassState} {n : Nat} {p : Value Nat} {new : List (Inst Name)} {v : Value Name}

/-- A further entry leaves the others as they are. -/
theorem Decided.update {k : Nat} {q : Value Name} (h : Decided opts an plan k q) (hn : plan n = none) (hk : k ≠ n)
    (a : List (Inst Name) × Value Name) : Decided opts an (Function.update plan n (some a)) k q := by
  have hkeep : ∀ m b, plan m = some b → Function.update plan n (some a) m = some b := by
    intro m b hm
    rw [Function.update_of_ne, hm]
    rintro rfl
    rw [hn] at hm
    cases hm
  unfold Decided at h ⊢
  rw [Function.update_of_ne hk]
  cases hp : plan k with
  | none => simpa only [hp] using h
  | some b =>
      simp only [hp] at h ⊢
      refine h.imp_right fun ⟨hnil, hdom, prev, hprev, hrest⟩ ↦ ⟨hnil, hdom, prev, hkeep _ _ hprev, hrest⟩

/-- The next store gets its entry. -/
theorem PlanOk.add (h : PlanOk opts an plan done) (hn : ∀ q, (n, q) ∉ done) (hnew : Inserted new)
    (hdec : (new, v) = maskPointer n (p.map .own) ∨
      new = [] ∧ Reuses opts an (Function.update plan n (some (new, v))) n (p.map .own) v) :
    PlanOk opts an (Function.update plan n (some (new, v))) (done ++ [(n, p)]) := by
  have hplan : plan n = none := by
    by_contra hc
    obtain ⟨q, hq⟩ := h.fresh n hc
    exact hn q hq
  refine ⟨fun k hk ↦ ?_, fun k new' v' hk ↦ ?_, fun k q hq ↦ ?_⟩
  · by_cases hkn : k = n
    · exact ⟨p, by rw [hkn]; simp⟩
    · rw [Function.update_of_ne hkn] at hk
      obtain ⟨q, hq⟩ := h.fresh k hk
      exact ⟨q, List.mem_append_left _ hq⟩
  · by_cases hkn : k = n
    · rw [hkn, Function.update_self] at hk
      obtain ⟨rfl, rfl⟩ := Prod.mk.inj (Option.some.inj hk)
      exact hnew
    · rw [Function.update_of_ne hkn] at hk
      exact h.inserted k new' v' hk
  · rcases List.mem_append.mp hq with hmem | hlast
    · refine (h.decided k q hmem).update hplan ?_ _
      rintro rfl
      exact hn q hmem
    · obtain ⟨rfl, rfl⟩ := Prod.mk.inj (List.mem_singleton.mp hlast)
      unfold Decided
      rw [Function.update_self]
      exact hdec

/-- A store that is skipped. -/
theorem PlanOk.skip (h : PlanOk opts an plan done) (hn : ∀ q, (n, q) ∉ done) (hskip : Skipped opts an (p.map .own)) :
    PlanOk opts an plan (done ++ [(n, p)]) := by
  have hplan : plan n = none := by
    by_contra hc
    obtain ⟨q, hq⟩ := h.fresh n hc
    exact hn q hq
  refine ⟨fun k hk ↦ ?_, h.inserted, fun k q hq ↦ ?_⟩
  · obtain ⟨q, hq⟩ := h.fresh k hk
    exact ⟨q, List.mem_append_left _ hq⟩
  · rcases List.mem_append.mp hq with hmem | hlast
    · exact h.decided k q hmem
    · obtain ⟨rfl, rfl⟩ := Prod.mk.inj (List.mem_singleton.mp hlast)
      unfold Decided
      rw [hplan]
      exact hskip

/-- A masked pointer of `MaskedPtrs` is that of an earlier store. -/
theorem reuses_of_domTreeOpt (h : PassOk opts an plan F done st) (hplan : plan n = none) {q : Value Name}
    (hdom : (if opts.domTree then domTreeOpt an st n q else none) = some v) :
    Reuses opts an (Function.update plan n (some ([], v))) n q v := by
  rw [Option.ite_none_right_eq_some] at hdom
  obtain ⟨hopt, hdom⟩ := hdom
  unfold domTreeOpt at hdom
  have hreuse : ∀ v', st.maskedPtrs q = some v' → (∀ m, v' = .inst m → an.dominates m (.own n) = true) →
      Reuses opts an (Function.update plan n (some ([], v))) n q v' := by
    intro v' hv' hall
    obtain ⟨prev, hprev, rfl⟩ := h.ptrs q v' hv'
    refine ⟨hopt, prev, ?_, rfl, hall⟩
    rw [Function.update_of_ne, hprev]
    rintro rfl
    rw [hplan] at hprev
    cases hprev
  cases hq : st.maskedPtrs q with
  | none => simp [hq] at hdom
  | some v' =>
      cases v' with
      | inst m =>
          simp only [hq, Option.ite_none_right_eq_some] at hdom
          obtain ⟨hm, heq⟩ := hdom
          obtain rfl := Option.some.inj heq
          refine hreuse _ hq fun m' hm' ↦ ?_
          obtain rfl := Value.inst.inj hm'
          exact hm
      | const c =>
          simp only [hq] at hdom
          obtain rfl := Option.some.inj hdom
          exact hreuse _ hq fun m hm ↦ (nomatch hm)
      | arg i =>
          simp only [hq] at hdom
          obtain rfl := Option.some.inj hdom
          exact hreuse _ hq fun m hm ↦ (nomatch hm)

/-- **One store.** -/
theorem PassOk.step (h : PassOk opts an plan F done st) (hn : ∀ q, (n, q) ∉ done) :
    ∃ plan', PassOk opts an plan' F (done ++ [(n, p)]) (instrumentStore opts an st n (p.map .own)) := by
  have hplan : plan n = none := by
    by_contra hc
    obtain ⟨q, hq⟩ := h.ok.fresh n hc
    exact hn q hq
  have hkeep : ∀ a m b, plan m = some b → Function.update plan n (some a) m = some b := by
    intro a m b hm
    rw [Function.update_of_ne, hm]
    rintro rfl
    rw [hplan] at hm
    cases hm
  unfold instrumentStore
  by_cases hknown : (opts.knownBits && knownBitsOpt an (p.map .own)) = true
  · rw [if_pos hknown]
    exact ⟨plan, h.func, h.ok.skip hn (.inl (Bool.and_eq_true_iff.mp hknown)), h.ptrs⟩
  rw [if_neg hknown]
  by_cases hscev : (opts.scev && scalarEvolutionOpt an (p.map .own)) = true
  · rw [if_pos hscev]
    exact ⟨plan, h.func, h.ok.skip hn (.inr (Bool.and_eq_true_iff.mp hscev)), h.ptrs⟩
  rw [if_neg hscev]
  cases hdom : if opts.domTree then domTreeOpt an st n (p.map .own) else none with
  | some v =>
      refine ⟨_, ?_, h.ok.add hn (fun i hi ↦ absurd hi List.not_mem_nil)
        (.inr ⟨rfl, reuses_of_domTreeOpt h hplan hdom⟩), fun q w hq ↦ ?_⟩
      · simp only [h.func]
        exact setPointer_rewrite hplan h.ok.inserted
      · obtain ⟨prev, hprev, hw⟩ := h.ptrs q w hq
        exact ⟨prev, hkeep _ _ _ hprev, hw⟩
  | none =>
      refine ⟨_, ?_, h.ok.add (v := (maskPointer n (p.map .own)).2) hn (inserted_maskPointer n (p.map .own))
        (.inl rfl), fun q w hq ↦ ?_⟩
      · simp only [PassState.edit, h.func]
        exact edit_rewrite hplan (inserted_maskPointer n _) h.ok.inserted
      · simp only [Function.update_apply] at hq
        by_cases hqp : q = p.map .own
        · rw [if_pos hqp] at hq
          obtain rfl := Option.some.inj hq
          exact ⟨n, by rw [Function.update_self, hqp], by rw [hqp]⟩
        · rw [if_neg hqp] at hq
          obtain ⟨prev, hprev, hw⟩ := h.ptrs q w hq
          exact ⟨prev, hkeep _ _ _ hprev, hw⟩

/-- All stores. -/
theorem PassOk.foldl {l : List (Nat × Value Nat)} (h : PassOk opts an plan F done st)
    (hnodup : ((done ++ l).map Prod.fst).Nodup) : ∃ plan', PassOk opts an plan' F (done ++ l)
      (l.foldl (fun st x ↦ instrumentStore opts an st x.1 (x.2.map .own)) st) := by
  induction l generalizing done plan st with
  | nil => exact ⟨plan, by rwa [List.append_nil]⟩
  | cons x l ih =>
      obtain ⟨n, p⟩ := x
      have hn : ∀ q, (n, q) ∉ done := by
        intro q hq
        rw [List.map_append, List.map_cons] at hnodup
        exact (List.nodup_append.mp hnodup).2.2 n (List.mem_map.mpr ⟨_, hq, rfl⟩) n List.mem_cons_self rfl
      obtain ⟨plan', h'⟩ := h.step (p := p) hn
      have hassoc : done ++ (n, p) :: l = (done ++ [(n, p)]) ++ l := by simp
      rw [hassoc] at hnodup ⊢
      exact ih h' hnodup

end Run

/-- A store of the function. -/
def Func.HasStore {ν : Type} (F : Func ν) (n : ν) (p : Value ν) : Prop :=
  ∃ kind bytes val, (⟨n, false, .store kind bytes val p⟩ : Inst ν) ∈ F.insts

theorem mem_stores {F : Func Nat} {n : Nat} {p : Value Nat} : (n, p) ∈ F.stores ↔ F.HasStore n p := by
  unfold Func.stores Func.HasStore
  rw [List.mem_filterMap]
  constructor
  · rintro ⟨⟨name, ignore, op⟩, hi, h⟩
    cases op with
    | store kind bytes val q =>
        cases ignore with
        | true => simp at h
        | false =>
            simp only [Bool.false_eq_true, if_false, Option.some.injEq, Prod.mk.injEq] at h
            obtain ⟨rfl, rfl⟩ := h
            exact ⟨kind, bytes, val, hi⟩
    | _ => cases h
  · rintro ⟨kind, bytes, val, hi⟩
    exact ⟨_, hi, rfl⟩

/-- **The pass is a rewriting**, with a decision for each store. -/
theorem instrumentStores_rewrite (opts : Opts) (an : Analyses) {F : Func Nat} (hF : F.Ssa) :
    ∃ plan, instrumentStores opts an F = F.rewrite plan ∧ PlanOk opts an plan F.stores := by
  have hstart : PassOk opts an (fun _ ↦ none) F [] ⟨F.map .own, fun _ ↦ none⟩ :=
    ⟨(rewrite_none F).symm, ⟨fun _ h ↦ absurd rfl h, fun _ _ _ h ↦ (nomatch h), fun _ _ h ↦ (nomatch h)⟩,
      fun _ _ h ↦ (nomatch h)⟩
  have hnodup : (F.stores.map Prod.fst).Nodup := by
    refine List.Nodup.sublist ?_ hF.unique
    unfold Func.stores
    induction F.insts with
    | nil => exact List.Sublist.refl _
    | cons i l ih =>
        rw [List.filterMap_cons, List.map_cons]
        split
        · exact ih.cons _
        · next x hx =>
            have hfst : x.1 = i.name := by
              split at hx
              · split_ifs at hx
                obtain rfl := Option.some.inj hx
                rfl
              · cases hx
            rw [List.map_cons, hfst]
            exact ih.cons_cons _
  obtain ⟨plan, h⟩ := hstart.foldl (l := F.stores) (by simpa using hnodup)
  exact ⟨plan, h.func, by simpa using h.ok⟩

end ShadowStack.Ir
