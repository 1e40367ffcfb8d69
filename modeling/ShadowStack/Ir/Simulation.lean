import ShadowStack.Ir.Rewrite

/-!
# The rewritten function in step with the function

Both are executed side by side.  The stores of the function go to the masked address of their pointer; those
of the rewritten one go where their new pointer says.  A masked pointer that is used again still holds the mask
of its pointer, since what computes the pointer comes before the mask on every path.
-/

namespace ShadowStack.Ir

open Lib

def Write.map {ν μ : Type} (f : ν → μ) (w : Write ν) : Write μ :=
  ⟨f w.inst, w.isStore, w.ignore, w.addr, w.len, w.data⟩

/-- A store that the pass masks. -/
def storeOf (n : Nat) (kind : StoreKind) (bytes : Nat) (val p : Value Nat) : Inst Nat :=
  ⟨n, false, .store kind bytes val p⟩

/-- The instruction is no store that the pass masks. -/
def Inst.Other (i : Inst Nat) : Prop := ∀ n kind bytes val p, i ≠ storeOf n kind bytes val p

/-! ## Agreement -/

/-- The states of the function and of a rewritten one agree, but for what is still to be done. -/
structure Agree (s : State Nat) (t : State Name) : Prop where
  blk : t.blk = s.blk
  regs : ∀ n, t.regs (.own n) = s.regs n
  args : t.args = s.args
  mem : t.mem = s.mem
  writes : t.writes = s.writes.map (Write.map .own)

section Agree

variable {s : State Nat} {t : State Name}

theorem Agree.value (h : Agree s t) (v : Value Nat) : t.value (v.map .own) = s.value v := by
  cases v with
  | const c => rfl
  | arg i => exact congrFun h.args i
  | inst n => exact h.regs n

theorem Agree.ptr (h : Agree s t) (v : Value Nat) : t.ptr (v.map .own) = s.ptr v :=
  congrArg wrap (h.value v)

theorem Agree.result (h : Agree s t) (i : Inst Nat) (v : Nat) : (i.map .own).result v t = i.result v s := by
  obtain ⟨name, ignore, op⟩ := i
  have hargs : ∀ args : List (Value Nat), (args.map (Value.map .own)).map t.value = args.map s.value := by
    intro args
    rw [List.map_map]
    exact List.map_congr_left fun x _ ↦ h.value x
  cases op <;> simp only [Inst.map, Op.map, Inst.result, h.value, h.ptr, h.mem, hargs]

theorem isCall_map (i : Inst Nat) : (i.map Name.own).isCall = i.isCall := by
  obtain ⟨name, ignore, op⟩ := i
  cases op <;> rfl

/-- What is no masked store writes the same. -/
theorem Agree.write_other (h : Agree s t) {i : Inst Nat} (hi : i.Other) :
    (i.map .own).write id t = (i.write maskAddr s).map (Write.map .own) := by
  obtain ⟨name, ignore, op⟩ := i
  cases op with
  | store kind bytes val p =>
      cases ignore with
      | false => exact absurd rfl (hi name kind bytes val p)
      | true =>
          simp only [Inst.map, Op.map, Inst.write, h.value, h.ptr, if_true, Option.map_some]
          rfl
  | cmpxchg bytes p cmp new =>
      simp only [Inst.map, Op.map, Inst.write, h.value, h.ptr, h.mem]
      split_ifs <;> rfl
  | atomicrmw bytes f p val =>
      simp only [Inst.map, Op.map, Inst.write, h.value, h.ptr, h.mem]
      rfl
  | memset dst byte len =>
      simp only [Inst.map, Op.map, Inst.write, h.value, h.ptr]
      rfl
  | memmove dst src len =>
      simp only [Inst.map, Op.map, Inst.write, h.value, h.ptr, h.mem]
      rfl
  | _ => rfl

/-- A masked store writes the same if its new pointer is the mask of the old one. -/
theorem Agree.write_store (h : Agree s t) {n : Nat} {kind : StoreKind} {bytes : Nat} {val p : Value Nat}
    {v : Value Name} (hv : t.ptr v = maskAddr (s.ptr p)) :
    (((storeOf n kind bytes val p).map .own).setPointer v).write id t =
      ((storeOf n kind bytes val p).write maskAddr s).map (Write.map .own) := by
  simp only [storeOf, Inst.map, Op.map, Inst.setPointer, Inst.write, h.value, Bool.false_eq_true, if_false, id_eq,
    hv, Option.map_some]
  rfl

/-- Instructions with the same name, value and write keep the agreement. -/
theorem Agree.exec (h : Agree s t) {i : Inst Nat} {i' : Inst Name} (hname : i'.name = .own i.name) {v : Nat}
    (hresult : i'.result v t = i.result v s)
    (hwrite : i'.write id t = (i.write maskAddr s).map (Write.map .own)) (rest : List (Inst Nat))
    (rest' : List (Inst Name)) (m : Memory) :
    Agree (s.exec maskAddr i rest v m) (t.exec id i' rest' v m) where
  blk := h.blk
  regs n := by
    simp only [State.exec, hname, hresult]
    cases i.result v s with
    | none => exact h.regs n
    | some x =>
        simp only [State.set, Function.update_apply, Name.own.injEq]
        split_ifs
        · rfl
        · exact h.regs n
  args := h.args
  mem := by
    simp only [State.exec, hwrite]
    cases i.write maskAddr s <;> rfl
  writes := by
    simp only [State.exec, hwrite, h.writes, List.map_append]
    cases i.write maskAddr s <;> rfl

/-- The phi nodes of a block. -/
theorem Agree.phis (h : Agree s t) (plan : Plan) (B : Block Nat) (n : Nat) :
    t.phis (B.rewrite plan) (.own n) = s.phis B n := by
  unfold State.phis Block.rewrite
  simp only [List.find?_map]
  have hpred : ((fun φ : Phi Name ↦ decide (φ.name = .own n)) ∘ Phi.map .own) = fun φ : Phi Nat ↦ decide (φ.name = n) := by
    funext φ
    simp [Phi.map]
  rw [hpred]
  cases B.phis.find? fun φ ↦ decide (φ.name = n) with
  | none => exact h.regs n
  | some φ =>
      simp only [Option.map_some, Phi.map, h.blk]
      exact h.value _

theorem phis_inserted (plan : Plan) (B : Block Nat) {m : Name} (hm : ∀ n, m ≠ .own n) :
    t.phis (B.rewrite plan) m = t.regs m := by
  unfold State.phis Block.rewrite
  simp only [List.find?_map]
  have hnone : (B.phis.find? ((fun φ : Phi Name ↦ decide (φ.name = m)) ∘ Phi.map .own)) = none := by
    refine List.find?_eq_none.mpr fun φ _ hc ↦ ?_
    exact hm φ.name (of_decide_eq_true hc).symm
  rw [hnone]
  rfl

end Agree

/-! ## Where the function is -/

/-- The node at which a block is left to do. -/
def nodeOf (b : Nat) : List (Inst Nat) → Node Nat
  | [] => .term b
  | i :: _ => .inst i.name

section Nodes

variable {F : Func Nat} {b : Nat} {B : Block Nat} {i : Inst Nat} {done rest : List (Inst Nat)}

theorem nodes_rest (b : Nat) (l : List (Inst Nat)) :
    ∃ l', (l.map fun i ↦ Node.inst i.name) ++ [.term b] = nodeOf b l :: l' := by
  cases l with
  | nil => exact ⟨[], rfl⟩
  | cons i l => exact ⟨(l.map fun i ↦ Node.inst i.name) ++ [.term b], rfl⟩

theorem edge_inst (hB : F.block b = some B) (hbody : B.body = done ++ i :: rest) :
    F.Edge (.inst i.name) (nodeOf b rest) := by
  obtain ⟨l', hl'⟩ := nodes_rest b rest
  refine .next hB (l := .head b :: done.map fun i ↦ Node.inst i.name) (r := l') ?_
  rw [Block.nodes, hbody, List.map_append, List.map_cons, ← hl']
  simp

theorem edge_head (hB : F.block b = some B) : F.Edge (.head b) (nodeOf b B.body) := by
  obtain ⟨l', hl'⟩ := nodes_rest b B.body
  refine .next hB (l := []) (r := l') ?_
  rw [Block.nodes, List.cons_append, hl']
  rfl

end Nodes

/-- The node computes the value. -/
def Func.Defines (F : Func Nat) (p : Value Nat) (d : Node Nat) : Prop := ∃ m, p = .inst m ∧ F.DefinedAt m d

/-- The value of `p` has been the same since the node was passed that computes it. -/
def Kept (F : Func Nat) (plan : Plan) (h : List (Node Nat)) (s : State Nat) (t : State Name) : Prop :=
  ∀ n p, F.HasStore n p → plan n = some (maskPointer n (p.map .own)) → Since (F.Defines p) (.inst n) h →
    t.ptr (maskPointer n (p.map .own)).2 = maskAddr (s.ptr p)

/-- Both functions at the same place, with what the function has passed before. -/
structure Sim (F : Func Nat) (plan : Plan) (h : List (Node Nat)) (s : State Nat) (t : State Name) : Prop where
  agree : Agree s t
  path : Path F.Edge (.head 0) h (nodeOf s.blk s.todo)
  here : ∃ B done, F.block s.blk = some B ∧ B.body = done ++ s.todo
  kept : Kept F plan h s t

/-- The next instruction of both: no masked store, or one with a pointer that is the mask of its own. -/
structure Single (plan : Plan) (s : State Nat) (t : State Name) (i : Inst Nat) (i' : Inst Name)
    (rest : List (Inst Nat)) : Prop where
  src : s.todo = i :: rest
  dst : t.todo = i' :: rest.flatMap (expand plan)
  kind : i.Other ∧ i' = i.map .own ∨ ∃ n kind bytes val p v, i = storeOf n kind bytes val p ∧
    i' = (i.map .own).setPointer v ∧ t.ptr v = maskAddr (s.ptr p) ∧ ∀ new w, plan n = some (new, w) → w = v

/-- Of the three instructions in front of the store `n` through `p`, `k` have been executed. -/
structure Inserting (plan : Plan) (s : State Nat) (t : State Name) (k n : Nat) (p : Value Nat) : Prop where
  le : k ≤ 3
  var : ∀ c, p ≠ .const c
  plan_eq : plan n = some (maskPointer n (p.map .own))
  todo : ∃ kind bytes val rest, s.todo = storeOf n kind bytes val p :: rest ∧
    t.todo = ((maskPointer n (p.map Name.own)).1 ++
      [((storeOf n kind bytes val p).map Name.own).setPointer (.inst (Name.masked n))]).drop k ++
        rest.flatMap (expand plan)
  toInt : 1 ≤ k → t.regs (.toInt n) = s.ptr p
  maskedAdr : 2 ≤ k → t.regs (.maskedAdr n) = maskAddr (s.ptr p)
  masked : 3 ≤ k → t.regs (.masked n) = maskAddr (s.ptr p)

/-- What is still to be done: the rewritten rest, or part of what is in front of a store and then the rest. -/
inductive Phase (plan : Plan) (s : State Nat) (t : State Name) : Prop
  | start : t.todo = s.todo.flatMap (expand plan) → Phase plan s t
  | inserting {k n : Nat} {p : Value Nat} : Inserting plan s t k n p → Phase plan s t

/-! ## One step -/

section Steps

variable {F : Func Nat} {plan : Plan} {h : List (Node Nat)} {s : State Nat} {t : State Name} {opts : Opts}
  {an : Analyses}

theorem maskAddr_wrap (a : Nat) : wrap (maskAddr a) = maskAddr a :=
  wrap_of_lt ((maskAddr_lt a).trans (by decide))

theorem maskAddr_of_wrap (a : Nat) : maskAddr (wrap a) = maskAddr a := by
  rw [maskAddr_eq_mod, maskAddr_eq_mod, wrap]
  omega

/-- A constant is masked when the function is compiled. -/
theorem ptr_maskPointer_const (c n : Nat) :
    t.ptr (maskPointer n ((Value.const c : Value Nat).map .own)).2 = maskAddr (s.ptr (.const c)) := by
  show wrap (maskAddr c) = maskAddr (wrap c)
  rw [maskAddr_wrap, maskAddr_of_wrap]

theorem maskPointer_var (n : Nat) {p : Value Nat} (hp : ∀ c, p ≠ .const c) :
    maskPointer n (p.map .own) = ([⟨.toInt n, false, .ptrtoint (p.map .own)⟩,
      ⟨.maskedAdr n, false, .and (.inst (.toInt n)) (.const mask)⟩,
      ⟨.masked n, false, .inttoptr (.inst (.maskedAdr n))⟩], .inst (.masked n)) := by
  cases p with
  | const c => exact absurd rfl (hp c)
  | arg i => rfl
  | inst m => rfl

/-- Only the instruction that computes a pointer changes it. -/
theorem ptr_exec {i : Inst Nat} (hi : i ∈ F.insts) {p : Value Nat} (hp : ¬ F.Defines p (.inst i.name))
    (rest : List (Inst Nat)) (v : Nat) (m : Memory) : (s.exec maskAddr i rest v m).ptr p = s.ptr p := by
  cases p with
  | const c => rfl
  | arg k => rfl
  | inst k =>
      have hk : k ≠ i.name := by
        rintro rfl
        exact hp ⟨_, rfl, .inst hi rfl⟩
      show wrap (s.set i.name (i.result v s) k) = wrap (s.regs k)
      cases i.result v s with
      | none => rfl
      | some x => rw [State.set, Function.update_of_ne hk]

/-- Only its phi nodes change a pointer when a block is entered. -/
theorem ptr_phis {b : Nat} {B : Block Nat} (hB : F.block b = some B) {p : Value Nat}
    (hp : ¬ F.Defines p (.head b)) :
    ({ s with blk := b, todo := B.body, regs := s.phis B } : State Nat).ptr p = s.ptr p := by
  cases p with
  | const c => rfl
  | arg k => rfl
  | inst k =>
      show wrap (s.phis B k) = wrap (s.regs k)
      unfold State.phis
      cases hφ : B.phis.find? fun φ ↦ decide (φ.name = k) with
      | none => rfl
      | some φ =>
          have hmem := List.mem_of_find?_eq_some hφ
          have hname : φ.name = k := by simpa using List.find?_some hφ
          exact absurd ⟨k, rfl, .phi hB hmem hname⟩ hp

/-- The masked pointer of a store is changed by what is put in front of the store only. -/
theorem ptr_maskPointer_congr {t' : State Name} {n : Nat} {p : Value Nat}
    (ht : t'.regs (.masked n) = t.regs (.masked n)) :
    t'.ptr (maskPointer n (p.map .own)).2 = t.ptr (maskPointer n (p.map .own)).2 := by
  cases p with
  | const c => rfl
  | arg k => exact congrArg wrap ht
  | inst k => exact congrArg wrap ht

theorem inst_unique (hF : F.Ssa) {i j : Inst Nat} (hi : i ∈ F.insts) (hj : j ∈ F.insts) (hij : i.name = j.name) :
    i = j :=
  List.inj_on_of_nodup_map hF.unique hi hj hij

theorem hasStore_unique (hF : F.Ssa) {n : Nat} {p q : Value Nat} (hp : F.HasStore n p) (hq : F.HasStore n q) :
    p = q := by
  obtain ⟨kind, bytes, val, hi⟩ := hp
  obtain ⟨kind', bytes', val', hj⟩ := hq
  have hij := inst_unique hF hi hj rfl
  simp only [Inst.mk.injEq, Op.store.injEq, true_and] at hij
  exact hij.2.2.2

theorem Sim.mem_insts (hsim : Sim F plan h s t) {i : Inst Nat} (hi : i ∈ s.todo) : i ∈ F.insts := by
  obtain ⟨B, done, hB, hbody⟩ := hsim.here
  exact Func.mem_insts hB (hbody ▸ List.mem_append_right _ hi)

/-- Others change the memory of both. -/
theorem Sim.env (hsim : Sim F plan h s t) (m : Memory) :
    Sim F plan h { s with mem := m } { t with mem := m } where
  agree := { hsim.agree with mem := rfl }
  path := hsim.path
  here := hsim.here
  kept := hsim.kept

theorem Inserting.env {k n : Nat} {p : Value Nat} (hk : Inserting plan s t k n p) (m : Memory) :
    Inserting plan { s with mem := m } { t with mem := m } k n p where
  le := hk.le
  var := hk.var
  plan_eq := hk.plan_eq
  todo := hk.todo
  toInt := hk.toInt
  maskedAdr := hk.maskedAdr
  masked := hk.masked

theorem Phase.env (hph : Phase plan s t) (m : Memory) : Phase plan { s with mem := m } { t with mem := m } := by
  cases hph with
  | start hstart => exact .start hstart
  | inserting hk => exact .inserting (hk.env m)

namespace Single

variable {i : Inst Nat} {i' : Inst Name} {rest : List (Inst Nat)}

theorem name_eq (hi : Single plan s t i i' rest) : i'.name = .own i.name := by
  rcases hi.kind with ⟨-, rfl⟩ | ⟨n, kind, bytes, val, p, v, rfl, rfl, -⟩
  · rfl
  · exact setPointer_name _ _

theorem isCall_eq (hi : Single plan s t i i' rest) : i'.isCall = i.isCall := by
  rcases hi.kind with ⟨-, rfl⟩ | ⟨n, kind, bytes, val, p, v, rfl, rfl, -⟩
  · exact isCall_map i
  · rfl

theorem result_eq (hi : Single plan s t i i' rest) (hag : Agree s t) (v : Nat) : i'.result v t = i.result v s := by
  rcases hi.kind with ⟨-, rfl⟩ | ⟨n, kind, bytes, val, p, w, rfl, rfl, -⟩
  · exact hag.result i v
  · rfl

theorem write_eq (hi : Single plan s t i i' rest) (hag : Agree s t) :
    i'.write id t = (i.write maskAddr s).map (Write.map .own) := by
  rcases hi.kind with ⟨hother, rfl⟩ | ⟨n, kind, bytes, val, p, w, rfl, rfl, hw, -⟩
  · exact hag.write_other hother
  · exact hag.write_store hw

theorem fires_iff (hi : Single plan s t i i' rest) (hag : Agree s t) {e : Event} {v : Nat} {m : Memory} :
    i'.Fires t.mem e v m ↔ i.Fires s.mem e v m := by
  unfold Inst.Fires
  rw [hi.isCall_eq, hag.mem]

end Single

/-- **Both execute one instruction.** -/
theorem Sim.single (hF : F.Ssa) (hsim : Sim F plan h s t) {i : Inst Nat} {i' : Inst Name} {rest : List (Inst Nat)}
    (hi : Single plan s t i i' rest) (v : Nat) (m : Memory) :
    Sim F plan (.inst i.name :: h) (s.exec maskAddr i rest v m) (t.exec id i' (rest.flatMap (expand plan)) v m) := by
  have hmem : i ∈ F.insts := hsim.mem_insts (by rw [hi.src]; exact List.mem_cons_self)
  obtain ⟨B, done, hB, hbody⟩ := hsim.here
  rw [hi.src] at hbody
  refine ⟨hsim.agree.exec hi.name_eq (hi.result_eq hsim.agree v) (hi.write_eq hsim.agree) _ _ _, ?_,
    ⟨B, done ++ [i], hB, by rw [hbody]; simp [State.exec]⟩, fun n p hstore hplan hsince ↦ ?_⟩
  · have hpath := hsim.path
    rw [hi.src] at hpath
    exact hpath.snoc (edge_inst hB hbody)
  · obtain ⟨hnot, hsince⟩ := hsince
    have hptr : (s.exec maskAddr i rest v m).ptr p = s.ptr p := ptr_exec hmem hnot rest v m
    have hreg : (t.exec id i' (rest.flatMap (expand plan)) v m).regs (.masked n) = t.regs (.masked n) := by
      show t.set i'.name (i'.result v t) (.masked n) = t.regs (.masked n)
      rw [hi.name_eq]
      cases i'.result v t with
      | none => rfl
      | some x =>
          have hne : Name.masked n ≠ Name.own i.name := fun hc ↦ (by cases hc)
          rw [State.set, Function.update_of_ne hne]
    rw [hptr, ptr_maskPointer_congr hreg]
    rcases hsince with heq | hsince
    · -- the store `n` itself has the masked pointer now
      obtain ⟨kind, bytes, val, hst⟩ := hstore
      obtain rfl : i = storeOf n kind bytes val p := inst_unique hF hmem hst (Node.inst.inj heq)
      rcases hi.kind with ⟨hother, -⟩ | ⟨n', kind', bytes', val', p', w, hi', -, hw, hlast⟩
      · exact absurd rfl (hother n kind bytes val p)
      · simp only [storeOf, Inst.mk.injEq, Op.store.injEq, true_and] at hi'
        obtain ⟨rfl, -, -, -, rfl⟩ := hi'
        have hlast' : (maskPointer n (p.map .own)).2 = w := hlast _ _ hplan
        rwa [hlast']
    · exact hsim.kept n p hstore hplan hsince

/-- An instruction in front of a store computes its value and does nothing else. -/
theorem Sim.insert (hsim : Sim F plan h s t) {j : Inst Name} (hj : ∀ n, j.name ≠ .own n) {x : Nat}
    (hresult : j.result 0 t = some x) (hwrite : j.write id t = none) (todo : List (Inst Name))
    (hmasked : ∀ n p, j.name = .masked n → F.HasStore n p → wrap x = maskAddr (s.ptr p)) :
    Sim F plan h s (t.exec id j todo 0 t.mem) where
  agree := by
    refine ⟨hsim.agree.blk, fun n ↦ ?_, hsim.agree.args, ?_, ?_⟩
    · show t.set j.name (j.result 0 t) (.own n) = s.regs n
      rw [hresult, State.set, Function.update_of_ne (hj n).symm, hsim.agree.regs]
    · simp only [State.exec, hwrite, hsim.agree.mem]
    · simp only [State.exec, hwrite, Option.toList_none, List.append_nil, hsim.agree.writes]
  path := hsim.path
  here := hsim.here
  kept n p hstore hplan hsince := by
    have hold := hsim.kept n p hstore hplan hsince
    by_cases hn : j.name = .masked n
    · have hreg : (t.exec id j todo 0 t.mem).regs (.masked n) = x := by
        show t.set j.name (j.result 0 t) (.masked n) = x
        rw [hresult, State.set, hn, Function.update_self]
      cases p with
      | const c => exact hold
      | arg a => exact (congrArg wrap hreg).trans (hmasked n _ hn hstore)
      | inst a => exact (congrArg wrap hreg).trans (hmasked n _ hn hstore)
    · rw [ptr_maskPointer_congr, hold]
      show t.set j.name (j.result 0 t) (.masked n) = t.regs (.masked n)
      rw [hresult, State.set, Function.update_of_ne (Ne.symm hn)]

/-- **One more instruction in front of the store.** -/
theorem Sim.inserting (hF : F.Ssa) (hsim : Sim F plan h s t) {k n : Nat} {p : Value Nat}
    (hk : Inserting plan s t k n p) (hlt : k < 3) : ∃ j todo, t.todo = j :: todo ∧ j.isCall = false ∧
      Sim F plan h s (t.exec id j todo 0 t.mem) ∧ Inserting plan s (t.exec id j todo 0 t.mem) (k + 1) n p := by
  obtain ⟨kind, bytes, val, rest, hs, ht⟩ := hk.todo
  rw [maskPointer_var n hk.var] at ht
  have hstore : F.HasStore n p := ⟨kind, bytes, val, hsim.mem_insts (by rw [hs]; exact List.mem_cons_self)⟩
  have htodo : ∀ l, l = (([⟨.toInt n, false, .ptrtoint (p.map .own)⟩,
      ⟨.maskedAdr n, false, .and (.inst (.toInt n)) (.const mask)⟩,
      ⟨.masked n, false, .inttoptr (.inst (.maskedAdr n))⟩] : List (Inst Name)) ++
        [((storeOf n kind bytes val p).map Name.own).setPointer (.inst (Name.masked n))]).drop (k + 1) ++
          rest.flatMap (expand plan) → ∃ kind bytes val rest, s.todo = storeOf n kind bytes val p :: rest ∧
      l = ((maskPointer n (p.map Name.own)).1 ++
        [((storeOf n kind bytes val p).map Name.own).setPointer (.inst (Name.masked n))]).drop (k + 1) ++
          rest.flatMap (expand plan) := by
    rintro l rfl
    exact ⟨kind, bytes, val, rest, hs, by rw [maskPointer_var n hk.var]⟩
  obtain rfl | rfl | rfl : k = 0 ∨ k = 1 ∨ k = 2 := by omega
  · refine ⟨_, _, ht, rfl, hsim.insert (by rintro m ⟨⟩) rfl rfl _ (by rintro m q ⟨⟩), ?_⟩
    refine ⟨by omega, hk.var, hk.plan_eq, htodo _ rfl, fun _ ↦ ?_, fun hc ↦ by omega, fun hc ↦ by omega⟩
    show t.set (.toInt n) (some (t.ptr (p.map .own))) (.toInt n) = s.ptr p
    rw [State.set, Function.update_self, hsim.agree.ptr]
  · refine ⟨_, _, ht, rfl, hsim.insert (by rintro m ⟨⟩) rfl rfl _ (by rintro m q ⟨⟩), ?_⟩
    refine ⟨by omega, hk.var, hk.plan_eq, htodo _ rfl, fun hc ↦ ?_, fun _ ↦ ?_, fun hc ↦ by omega⟩
    · show t.set (.maskedAdr n) (some (t.regs (.toInt n) &&& mask)) (.toInt n) = s.ptr p
      have hne : Name.toInt n ≠ Name.maskedAdr n := fun hc ↦ (by cases hc)
      rw [State.set, Function.update_of_ne hne, hk.toInt (by omega)]
    · show t.set (.maskedAdr n) (some (t.regs (.toInt n) &&& mask)) (.maskedAdr n) = maskAddr (s.ptr p)
      rw [State.set, Function.update_self, hk.toInt (by omega), maskAddr]
  · have hx : wrap (t.regs (.maskedAdr n)) = maskAddr (s.ptr p) := by
      rw [hk.maskedAdr (by omega), maskAddr_wrap]
    refine ⟨_, _, ht, rfl, hsim.insert (by rintro m ⟨⟩) rfl rfl _ (fun m q hc hq ↦ ?_), ?_⟩
    · obtain rfl := Name.masked.inj hc
      rw [hasStore_unique hF hq hstore, State.ptr, State.value, hx, maskAddr_wrap]
    · refine ⟨by omega, hk.var, hk.plan_eq, htodo _ rfl, fun hc ↦ ?_, fun _ ↦ ?_, fun hc ↦ ?_⟩
      · show t.set (.masked n) (some (wrap (t.regs (.maskedAdr n)))) (.toInt n) = s.ptr p
        have hne : Name.toInt n ≠ Name.masked n := fun hc ↦ (by cases hc)
        rw [State.set, Function.update_of_ne hne, hk.toInt (by omega)]
      · show t.set (.masked n) (some (wrap (t.regs (.maskedAdr n)))) (.maskedAdr n) = maskAddr (s.ptr p)
        have hne : Name.maskedAdr n ≠ Name.masked n := fun hc ↦ (by cases hc)
        rw [State.set, Function.update_of_ne hne, hk.maskedAdr (by omega)]
      · show t.set (.masked n) (some (wrap (t.regs (.maskedAdr n)))) (.masked n) = maskAddr (s.ptr p)
        rw [State.set, Function.update_self, hx]

/-- Behind the three instructions stands the store with the masked pointer. -/
theorem Inserting.single {n : Nat} {p : Value Nat} (hk : Inserting plan s t 3 n p) :
    ∃ i i' rest, Single plan s t i i' rest := by
  obtain ⟨kind, bytes, val, rest, hs, ht⟩ := hk.todo
  rw [maskPointer_var n hk.var] at ht
  refine ⟨_, _, rest, hs, ht, .inr ⟨n, kind, bytes, val, p, .inst (.masked n), rfl, rfl, ?_, fun new w hw ↦ ?_⟩⟩
  · show wrap (t.regs (.masked n)) = maskAddr (s.ptr p)
    rw [hk.masked (Nat.le_refl 3), maskAddr_wrap]
  · rw [hk.plan_eq, maskPointer_var n hk.var] at hw
    exact (Prod.mk.inj (Option.some.inj hw)).2.symm

/-- Only masked stores have an entry in the plan. -/
theorem PlanOk.none_of_other (hF : F.Ssa) (hplan : PlanOk opts an plan F.stores) {i : Inst Nat} (hi : i ∈ F.insts)
    (hother : i.Other) : plan i.name = none := by
  by_contra hc
  obtain ⟨p, hp⟩ := hplan.fresh i.name hc
  obtain ⟨kind, bytes, val, hst⟩ := mem_stores.mp hp
  exact hother i.name kind bytes val p (inst_unique hF hi hst rfl)

/-- A masked pointer that is used again was made for a store through the same pointer. -/
theorem PlanOk.hasStore (hplan : PlanOk opts an plan F.stores) {n : Nat} {p : Value Nat} (hp : ∀ c, p ≠ .const c)
    (h : plan n = some (maskPointer n (p.map .own))) : F.HasStore n p := by
  obtain ⟨q, hq⟩ := hplan.fresh n (by rw [h]; exact Option.some_ne_none _)
  have hdec := hplan.decided n q hq
  unfold Decided at hdec
  simp only [h] at hdec
  rw [maskPointer_var n hp] at hdec
  rcases hdec with heq | ⟨hnil, -⟩
  · have hqvar : ∀ c, q ≠ .const c := by
      rintro c rfl
      cases congrArg Prod.fst heq
    rw [maskPointer_var n hqvar] at heq
    have hop := congrArg Inst.op (List.cons.inj (congrArg Prod.fst heq)).1
    rw [Value.map_own_injective (Op.ptrtoint.inj hop)]
    exact mem_stores.mp hq
  · cases hnil

/-- The analysis finds dominance only where there is. -/
def Analyses.DomSound (an : Analyses) (F : Func Nat) : Prop :=
  ∀ prev n, an.dominates (.masked prev) (.own n) = true → F.Dominates (.inst prev) (.inst n)

/-- **A masked pointer that is used again** is the mask of what the pointer is now. -/
theorem Sim.reuse (hF : F.Ssa) (hplan : PlanOk opts an plan F.stores) (han : an.DomSound F) (hsim : Sim F plan h s t)
    {n : Nat} {kind : StoreKind} {bytes : Nat} {val p : Value Nat} {rest : List (Inst Nat)}
    (hs : s.todo = storeOf n kind bytes val p :: rest) (hp : ∀ c, p ≠ .const c) {v : Value Name}
    (hv : Reuses opts an plan n (p.map .own) v) : t.ptr v = maskAddr (s.ptr p) := by
  obtain ⟨-, prev, hprev, rfl, hdom⟩ := hv
  have hstore := hplan.hasStore hp hprev
  refine hsim.kept prev p hstore hprev ?_
  have hpath := hsim.path
  rw [hs] at hpath
  refine StrictDom.since ?_ (han prev n (hdom _ (by rw [maskPointer_var prev hp]))) hpath
  -- what computes the pointer comes before the earlier store, too
  rintro d ⟨m, rfl, hd⟩
  obtain ⟨kind', bytes', val', hi⟩ := hstore
  exact hF.dominated _ hi kind' bytes' val' m rfl d hd

/-- A store that needs nothing in front of it has the right pointer. -/
theorem Sim.next_store (hF : F.Ssa) (hplan : PlanOk opts an plan F.stores) (han : an.DomSound F)
    (hsim : Sim F plan h s t) (hstart : t.todo = s.todo.flatMap (expand plan)) {n : Nat} {kind : StoreKind}
    {bytes : Nat} {val p : Value Nat} {rest : List (Inst Nat)} (hs : s.todo = storeOf n kind bytes val p :: rest)
    (hsafe : Skipped opts an (p.map .own) → s.ptr p < 2 ^ 47) :
    (∃ i', Single plan s t (storeOf n kind bytes val p) i' rest) ∨ Inserting plan s t 0 n p := by
  have hmem : storeOf n kind bytes val p ∈ F.insts := hsim.mem_insts (by rw [hs]; exact List.mem_cons_self)
  have hsingle : ∀ v, expand plan (storeOf n kind bytes val p) = [((storeOf n kind bytes val p).map .own).setPointer v] →
      t.ptr v = maskAddr (s.ptr p) → (∀ new w, plan n = some (new, w) → w = v) →
        ∃ i', Single plan s t (storeOf n kind bytes val p) i' rest := by
    intro v hexp hv hlast
    rw [hs, List.flatMap_cons, hexp] at hstart
    exact ⟨_, hs, hstart, .inr ⟨n, kind, bytes, val, p, v, rfl, rfl, hv, hlast⟩⟩
  have hdec := hplan.decided n p (mem_stores.mpr ⟨kind, bytes, val, hmem⟩)
  unfold Decided at hdec
  cases hn : plan n with
  | none =>
      simp only [hn] at hdec
      refine .inl (hsingle (p.map .own) (by simp only [expand, storeOf, hn]; rfl) ?_ fun new w hw ↦ ?_)
      · rw [hsim.agree.ptr, maskAddr_of_lt (hsafe hdec)]
      · rw [hn] at hw
        cases hw
  | some a =>
      obtain ⟨new, v⟩ := a
      simp only [hn] at hdec
      have hexp : expand plan (storeOf n kind bytes val p) =
          new ++ [((storeOf n kind bytes val p).map .own).setPointer v] := by
        simp only [expand, storeOf, hn]
      have hlast : ∀ new' w, plan n = some (new', w) → w = v := by
        intro new' w hw
        rw [hn] at hw
        exact (Prod.mk.inj (Option.some.inj hw)).2.symm
      by_cases hp : ∀ c, p ≠ .const c
      · rcases hdec with heq | ⟨rfl, hreuse⟩
        · refine .inr ⟨Nat.zero_le 3, hp, by rw [hn, heq], ⟨kind, bytes, val, rest, hs, ?_⟩, fun hc ↦ by omega,
            fun hc ↦ by omega, fun hc ↦ by omega⟩
          rw [hs, List.flatMap_cons, hexp] at hstart
          rw [maskPointer_var n hp] at heq ⊢
          obtain ⟨rfl, rfl⟩ := Prod.mk.inj heq
          exact hstart
        · exact .inl (hsingle v hexp (hsim.reuse hF hplan han hs hp hreuse) hlast)
      · -- a constant is masked when the function is compiled, also when it is used again
        push Not at hp
        obtain ⟨c, rfl⟩ := hp
        have hnew : new = [] ∧ ∃ m, v = (maskPointer m ((Value.const c).map .own)).2 := by
          rcases hdec with heq | ⟨hnil, -, prev, -, hv, -⟩
          · exact ⟨congrArg Prod.fst heq, n, congrArg Prod.snd heq⟩
          · exact ⟨hnil, prev, hv⟩
        obtain ⟨rfl, m, rfl⟩ := hnew
        exact .inl (hsingle _ hexp (ptr_maskPointer_const c m) hlast)

/-- **What comes next**: one instruction on both sides, or the three in front of a store first. -/
theorem Sim.next (hF : F.Ssa) (hplan : PlanOk opts an plan F.stores) (han : an.DomSound F) (hsim : Sim F plan h s t)
    (hstart : t.todo = s.todo.flatMap (expand plan)) {i : Inst Nat} {rest : List (Inst Nat)} (hs : s.todo = i :: rest)
    (hsafe : ∀ n kind bytes val p, i = storeOf n kind bytes val p → Skipped opts an (p.map .own) → s.ptr p < 2 ^ 47) :
    (∃ i', Single plan s t i i' rest) ∨ ∃ n p, Inserting plan s t 0 n p := by
  by_cases hother : i.Other
  · have hexp : expand plan i = [i.map .own] := by
      unfold expand
      rw [hplan.none_of_other hF (hsim.mem_insts (by rw [hs]; exact List.mem_cons_self)) hother]
    rw [hs, List.flatMap_cons, hexp] at hstart
    exact .inl ⟨_, hs, hstart, .inl ⟨hother, rfl⟩⟩
  · obtain ⟨n, kind, bytes, val, p, rfl⟩ : ∃ n kind bytes val p, i = storeOf n kind bytes val p := by
      unfold Inst.Other at hother
      push Not at hother
      exact hother
    exact (hsim.next_store hF hplan han hstart hs (hsafe n kind bytes val p rfl)).imp_right fun hk ↦ ⟨n, p, hk⟩

theorem block_rewrite (b : Nat) : (F.rewrite plan).block b = (F.block b).map (Block.rewrite plan) :=
  List.getElem?_map

/-- **Both enter the same block.** -/
theorem Sim.jump (hsim : Sim F plan h s t) (hs : s.todo = []) {B B' : Block Nat} {b : Nat}
    (hB : F.block s.blk = some B) (hb : B.term.targets[B.term.select (s.value B.term.cond)]? = some b)
    (hB' : F.block b = some B') :
    Sim F plan (.head b :: .term s.blk :: h) { s with blk := b, todo := B'.body, regs := s.phis B' }
      { t with blk := b, todo := B'.body.flatMap (expand plan), regs := t.phis (B'.rewrite plan) } where
  agree :=
    { blk := rfl
      regs := hsim.agree.phis plan B'
      args := hsim.agree.args
      mem := hsim.agree.mem
      writes := hsim.agree.writes }
  path := by
    have hpath := hsim.path
    rw [hs] at hpath
    exact (hpath.snoc (.jump hB (List.mem_of_getElem? hb))).snoc (edge_head hB')
  here := ⟨B', [], hB', rfl⟩
  kept n p hstore hplan hsince := by
    obtain ⟨hhead, heq | hsince⟩ := hsince
    · cases heq
    obtain ⟨-, heq | hsince⟩ := hsince
    · cases heq
    have hmasked : t.phis (B'.rewrite plan) (.masked n) = t.regs (.masked n) :=
      phis_inserted plan B' fun k hc ↦ (by cases hc)
    rw [ptr_phis hB' hhead, ptr_maskPointer_congr (t := t) hmasked]
    exact hsim.kept n p hstore hplan hsince

theorem Sim.jump_left (hsim : Sim F plan h s t) (hs : s.todo = []) {s' : State Nat} (hj : s.jump F = some s') :
    ∃ t' h', t.jump (F.rewrite plan) = some t' ∧ Sim F plan h' s' t' ∧ t'.todo = s'.todo.flatMap (expand plan) := by
  obtain ⟨B, b, B', hB, hb, hB', rfl⟩ := jump_eq_some.mp hj
  refine ⟨_, _, jump_eq_some.mpr ⟨B.rewrite plan, b, B'.rewrite plan, ?_, ?_, ?_, rfl⟩, hsim.jump hs hB hb hB', rfl⟩
  · rw [block_rewrite, hsim.agree.blk, hB, Option.map_some]
  · show B.term.targets[B.term.select (t.value (B.term.cond.map .own))]? = some b
    rw [hsim.agree.value, hb]
  · rw [block_rewrite, hB', Option.map_some]

theorem Sim.jump_right (hsim : Sim F plan h s t) (hs : s.todo = []) {t' : State Name}
    (hj : t.jump (F.rewrite plan) = some t') :
    ∃ s' h', s.jump F = some s' ∧ Sim F plan h' s' t' ∧ t'.todo = s'.todo.flatMap (expand plan) := by
  obtain ⟨C, b, C', hC, hb, hC', rfl⟩ := jump_eq_some.mp hj
  rw [block_rewrite, Option.map_eq_some_iff] at hC hC'
  obtain ⟨B, hB, rfl⟩ := hC
  obtain ⟨B', hB', rfl⟩ := hC'
  rw [hsim.agree.blk] at hB
  have hb' : B.term.targets[B.term.select (s.value B.term.cond)]? = some b := by
    rw [← hsim.agree.value]
    exact hb
  exact ⟨_, _, jump_eq_some.mpr ⟨B, b, B', hB, hb', hB', rfl⟩, hsim.jump hs hB hb' hB', rfl⟩

end Steps

end ShadowStack.Ir
