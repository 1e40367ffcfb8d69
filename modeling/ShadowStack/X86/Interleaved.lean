import ShadowStack.X86.Process

/-!
# Threads do not disturb each other

Every instruction of a thread keeps the shadow stacks of all threads right.  So whatever ordinary stores do to
return slots, in whatever order the threads run, no thread returns to another place than where it was called.
-/

namespace ShadowStack.X86

open Lib

/-! ## What an instruction changes -/

/-- The memory and the calls after an instruction. -/
inductive Effect (s s' : State) : Prop
  | inserted {x : Inst} {rest : List Inst} : s.pos.rest = x :: rest → x.isOrig = false → s'.frames = s.frames →
      s'.m.mem = (x.exec s.m).mem → Effect s s'
  | op {o : Op} {rest : List Inst} : s.pos.rest = .orig (.op o) :: rest → s'.frames = s.frames →
      s'.m.mem = (o.exec s.m).mem → Effect s s'
  | call {callee : Callee} {ra : Nat} {rest : List Inst} {fr : Frame} :
      s.pos.rest = .orig (.call callee ra) :: rest → s'.frames = fr :: s.frames →
      fr.sp = wrapSub (s.m.regs .rsp) 8 → s'.m.mem = store64 s.m.mem (wrapSub (s.m.regs .rsp) 8) ra → Effect s s'
  | quiet : (∀ fr ∈ s'.frames, fr ∈ s.frames) → s'.m.mem = s.m.mem → Effect s s'

variable {code : Code} {s s' : State} {m : Machine} {frames : List Frame}

theorem goto_frames {f blk : Nat} (h : code.goto frames m f blk = .next s') : s'.frames = frames ∧ s'.m = m := by
  obtain ⟨b, -, rfl⟩ := goto_eq_next h
  exact ⟨rfl, rfl⟩

theorem enter_frames {o : Option Nat} (h : code.enter frames m o = .next s') : s'.frames = frames ∧ s'.m = m := by
  cases o with
  | none => cases h
  | some f => exact goto_frames h

theorem returnTo_frames {w : Nat} (h : Code.returnTo w m frames = .next s') :
    ∃ fr, frames = fr :: s'.frames ∧ s'.m.mem = m.mem := by
  cases frames with
  | nil => cases h
  | cons fr frames =>
      rw [Code.returnTo] at h
      by_cases hw : w = fr.ra
      · rw [if_pos hw] at h
        cases hcont : fr.cont with
        | none =>
            rw [hcont] at h
            cases h
        | some pos =>
            rw [hcont] at h
            obtain rfl := Outcome.next.inj h
            exact ⟨fr, rfl, rfl⟩
      · rw [if_neg hw] at h
        cases h

theorem goto_quiet {f blk : Nat} (h : code.goto s.frames s.m f blk = .next s') : Effect s s' := by
  obtain ⟨hframes, hm⟩ := goto_frames h
  refine .quiet (fun fr hfr ↦ ?_) (by rw [hm])
  rwa [hframes] at hfr

/-- An instruction of the function. -/
theorem stepOrig_effect {i : Orig} {rest : List Inst} (hrest : s.pos.rest = .orig i :: rest)
    (h : code.stepOrig s.pos s.frames s.m rest i = .next s') : Effect s s' := by
  cases i with
  | metaInstr =>
      obtain rfl := Outcome.next.inj h
      exact .quiet (fun _ hfr ↦ hfr) rfl
  | op o =>
      obtain rfl := Outcome.next.inj h
      exact .op hrest rfl rfl
  | jmp target => exact goto_quiet h
  | jcc target cc =>
      rw [Code.stepOrig] at h
      split at h
      · exact goto_quiet h
      · obtain rfl := Outcome.next.inj h
        exact .quiet (fun _ hfr ↦ hfr) rfl
  | call callee ra =>
      obtain ⟨hframes, hm⟩ := enter_frames h
      exact .call hrest hframes rfl (by rw [hm]; rfl)
  | ret imm =>
      obtain ⟨fr, hframes, hm⟩ := returnTo_frames h
      refine .quiet (fun fr' hfr ↦ ?_) hm
      rw [hframes]
      exact List.mem_cons_of_mem fr hfr
  | tailJmp callee =>
      obtain ⟨hframes, hm⟩ := enter_frames h
      refine .quiet (fun fr hfr ↦ ?_) (by rw [hm])
      rwa [hframes] at hfr
  | tailJmpCC f cc =>
      rw [Code.stepOrig] at h
      split at h
      · exact goto_quiet h
      · obtain rfl := Outcome.next.inj h
        exact .quiet (fun _ hfr ↦ hfr) rfl

theorem Code.tick_effect (h : code.tick s = .next s') : Effect s s' := by
  cases hrest : s.pos.rest with
  | nil =>
      rw [Code.tick, hrest] at h
      exact goto_quiet h
  | cons x rest =>
      rw [Code.tick, hrest] at h
      cases x with
      | orig i => exact stepOrig_effect hrest h
      | trap => cases h
      | jcc1 target cc =>
          dsimp only at h
          split at h
          · exact goto_quiet h
          · obtain rfl := Outcome.next.inj h
            exact .quiet (fun _ hfr ↦ hfr) rfl
      | _ =>
          obtain rfl := Outcome.next.inj h
          exact .inserted hrest rfl rfl rfl

/-- A thread that ends leaves the memory as it is. -/
theorem Code.tick_exited {m₁ : Machine} (h : code.tick s = .exited m₁) : m₁.mem = s.m.mem := by
  have hgoto : ∀ f blk, code.goto s.frames s.m f blk ≠ .exited m₁ := by
    intro f blk hc
    unfold Code.goto at hc
    split at hc <;> cases hc
  cases hrest : s.pos.rest with
  | nil =>
      rw [Code.tick, hrest] at h
      exact absurd h (hgoto _ _)
  | cons x rest =>
      rw [Code.tick, hrest] at h
      cases x with
      | orig i =>
          obtain ⟨imm, -, rfl, -⟩ := exited_inv h
          rfl
      | jcc1 target cc =>
          dsimp only at h
          split at h
          · exact absurd h (hgoto _ _)
          · cases h
      | _ => cases h

/-! ## What a thread guarantees -/

variable {p : Program} {strategy : ViolationStrategy} {scavenger : Nat → Scavenger} {ι : Type} {C : ι → Chunk}
  {n : ι} {top₀ : Nat}

/-- Inserted instructions access the chunk of the thread, and the stack around its return slot. -/
theorem ThreadOk.slot_own {x : Inst} {rest : List Inst} (h : ThreadOk p strategy scavenger (C n) top₀ s)
    (ho : Obeys p strategy scavenger C s) (hlo : (C n).base + 16 ≤ top₀)
    (hfits : top₀ + 8 * p.depth s ≤ (C n).base + (C n).size) (hrest : s.pos.rest = x :: rest)
    (hx : x.isOrig = false) {a : Nat} (ha : x.slot s.m = some a) :
    ∃ fr frames, s.frames = fr :: frames ∧ ∀ k < 8, Own (C n) fr.sp (wrap (a + k)) := by
  cases h with
  | trapped htrap =>
      obtain ⟨rfl, -⟩ := List.cons.inj (htrap.symm.trans hrest)
      cases ha
  | @inside fr frames hfr htop hin hlevel =>
      refine ⟨fr, frames, hfr, ?_⟩
      cases hin.upcoming with
      | done hnil => cases hnil.symm.trans hrest
      | plain _ hplain =>
          obtain ⟨rfl, -⟩ := List.cons.inj (hplain.symm.trans hrest)
          cases hx
      | @ret i l hf hi hcode hret =>
          obtain ⟨y, seq, -, hret', hstart⟩ :=
            htop.exists_start hin hlevel ho hlo hfr hfits hf hi hcode hret
          obtain ⟨rfl, -⟩ := List.cons.inj (hret'.symm.trans hrest)
          exact hstart.within.1 a ha
  | @entering f b pre post m fr frames he hs =>
      subst hs
      refine ⟨fr, frames, rfl, ?_⟩
      obtain ⟨-, hhi⟩ := he.toOnTop.bounds hlo rfl hfits
      have hf := he.calls
      rw [hf, Bool.toNat_true] at hhi
      cases post with
      | nil => exact absurd rfl he.more
      | cons y post =>
          obtain ⟨rfl, -⟩ := List.cons.inj hrest
          exact (within_append.mp (he.within_lead hlo hhi)).2.1 a ha
  | @returning f blk i l pre post m fr frames hr hs =>
      subst hs
      refine ⟨fr, frames, rfl, ?_⟩
      cases post with
      | nil =>
          obtain ⟨rfl, -⟩ := List.cons.inj hrest
          cases hx
      | cons y post =>
          obtain ⟨rfl, -⟩ := List.cons.inj hrest
          exact (within_append.mp hr.within).2.1 a ha

theorem not_own {k : ι} {sp b : Nat} (hapart : Apart C) (hk : k ≠ n) (hclear : (C k).Clear sp) (hb : (C k).Mem b) :
    ¬ Own (C n) sp b := by
  intro h
  obtain ⟨-, -, hclear⟩ := hclear
  rcases h with h | ⟨hlo, hhi⟩
  · exact hk (hapart k n b hb h)
  · unfold Chunk.Mem at hb
    omega

/-- **What an instruction does not change**: the chunks of the other threads. -/
theorem ThreadOk.keeps_chunks {k : ι} {b : Nat} (h : ThreadOk p strategy scavenger (C n) top₀ s)
    (ho : Obeys p strategy scavenger C s) (hapart : Apart C) (hclear : ∀ fr ∈ s.frames, ∀ k, (C k).Clear fr.sp)
    (hlo : (C n).base + 16 ≤ top₀) (hfits : top₀ + 8 * p.depth s ≤ (C n).base + (C n).size)
    (hs : (p.instrumented strategy scavenger).tick s = .next s') (hk : k ≠ n) (hb : (C k).Mem (wrap b)) :
    s'.m.mem b = s.m.mem b := by
  cases Code.tick_effect hs with
  | @inserted x rest hrest hx _ hmem =>
      rw [hmem]
      refine Inst.exec_mem_of_notMem (S := fun b ↦ ∃ fr frames, s.frames = fr :: frames ∧ Own (C n) fr.sp b) ?_ ?_
      · intro a ha j hj
        obtain ⟨fr, frames, hfr, hown⟩ := h.slot_own ho hlo hfits hrest hx ha
        exact ⟨fr, frames, hfr, hown j hj⟩
      · rintro ⟨fr, frames, hfr, hown⟩
        have hmem : fr ∈ s.frames := hfr ▸ List.mem_cons_self ..
        exact not_own hapart hk (hclear fr hmem k) hb hown
  | @op o rest hrest _ hmem =>
      rw [hmem]
      refine o.exec_mem_of_notMem s.m fun hw ↦ ?_
      obtain ⟨q, -, rfl⟩ := List.mem_map.mp hw
      refine ho.stores o rest hrest _ hw k ?_
      rwa [wrap_of_lt (wrap_lt _)] at hb
  | @call callee ra rest fr hrest _ _ hmem =>
      obtain ⟨hsp, hclear⟩ := ho.calls callee ra rest hrest
      rw [hmem, wrapSub_of_le hsp (s.m.regs_lt .rsp)]
      refine store64_of_notMem' (S := Own (C n) (s.m.regs .rsp - 8)) ?_ (not_own hapart hk (hclear k) hb)
      exact own_stack (Nat.sub_le ..) le_rfl (hclear k).2.1
  | quiet _ hmem => rw [hmem]

/-- The return slots stay away from the chunks. -/
theorem Obeys.clear (ho : Obeys p strategy scavenger C s) (hclear : ∀ fr ∈ s.frames, ∀ k, (C k).Clear fr.sp)
    (hs : code.tick s = .next s') : ∀ fr ∈ s'.frames, ∀ k, (C k).Clear fr.sp := by
  cases Code.tick_effect hs with
  | inserted _ _ hframes | op _ hframes =>
      rw [hframes]
      exact hclear
  | @call callee ra rest fr' hrest hframes hsp =>
      obtain ⟨hle, hclear'⟩ := ho.calls callee ra rest hrest
      rw [hframes]
      intro fr hfr
      rcases List.mem_cons.mp hfr with rfl | hfr
      · rw [hsp, wrapSub_of_le hle (s.m.regs_lt .rsp)]
        exact hclear'
      · exact hclear fr hfr
  | quiet hframes => exact fun fr hfr ↦ hclear fr (hframes fr hfr)

/-- A thread that is at a `RET` returns. -/
theorem ThreadOk.returned {fr : Frame} {frames : List Frame} {imm : Nat} {rest : List Inst}
    (h : ThreadOk p strategy scavenger (C n) top₀ s) (ho : Obeys p strategy scavenger C s)
    (hlo : (C n).base + 16 ≤ top₀) (hfits : top₀ + 8 * p.depth s ≤ (C n).base + (C n).size)
    (hfr : s.frames = fr :: frames) (hrest : s.pos.rest = .orig (.ret imm) :: rest) :
    Returned fr frames ((p.instrumented strategy scavenger).tick s) := by
  have hbare : Bare s.pos.rest := .inr ⟨.ret imm, rest, hrest, rfl⟩
  have hst : straight s.pos.rest s.m = .stop s.m (.orig (.ret imm) :: rest) := by rw [hrest]; rfl
  have hnext : nextOrig s.pos.rest = some (.ret imm) := by rw [hrest]; rfl
  rw [hbare.tick, step_of_stop _ hst, hfr]
  cases h with
  | trapped htrap => cases htrap.symm.trans hrest
  | @inside fr' frames' hfr' htop hin hlevel =>
      obtain ⟨rfl, rfl⟩ := List.cons.inj (hfr.symm.trans hfr')
      -- only a function without inserted code has its return in front here
      have hf : p.hasCalls s.pos.fn = false := by
        cases hin.upcoming with
        | done hnil => cases hnil.symm.trans hrest
        | @ret i l hf _ _ hret =>
            obtain ⟨y, seq, hseq, hy⟩ := instrumentRet_cons strategy (p.funcs s.pos.fn).blocks.length
              ((scavenger s.pos.fn).find s.pos.blk (i :: l))
            rw [hseq] at hret
            obtain ⟨rfl, -⟩ := List.cons.inj (hret.symm.trans hrest)
            cases hy s.m
        | plain hor hplain =>
            obtain ⟨hi, -⟩ := List.cons.inj (hplain.symm.trans hrest)
            obtain rfl := Inst.orig.inj hi
            exact hor.resolve_right Bool.noConfusion
      have hinv := htop.inv hfr (.inside hin hlevel)
      exact (hinv.leaf_atReturn (ho.behaves hin hbare hfits) hfr hf hlevel hnext rfl).returned ..
  | @entering f b pre post m fr' frames' he hs =>
      subst hs
      cases post with
      | nil => exact absurd rfl he.more
      | cons y post =>
          obtain ⟨rfl, -⟩ := List.cons.inj hrest
          have hmem : Inst.orig (.ret imm) ∈ lead b := he.front ▸ List.mem_append_right _ (List.mem_cons_self ..)
          cases falls_of_mem_lead (m := m) hmem
  | @returning f blk i l pre post m fr' frames' hr hs =>
      subst hs
      obtain ⟨rfl, rfl⟩ := List.cons.inj hfr
      cases post with
      | nil => exact (hr.atReturn hlo).returned ..
      | cons y post =>
          obtain ⟨rfl, -⟩ := List.cons.inj hrest
          have hmem := hr.code ▸ List.mem_append_right pre (List.mem_cons_self (a := Inst.orig (.ret imm)) (l := post))
          obtain ⟨-, horig, -⟩ := mem_instrumentRet _ _ hmem
          cases horig

/-! ## All threads -/

/-- A thread of a process. -/
structure Steady (p : Program) (strategy : ViolationStrategy) (scavenger : Nat → Scavenger) (C : ι → Chunk)
    (top₀ : ι → Nat) (mem : Memory) (n : ι) (s : State) : Prop where
  ok : ThreadOk p strategy scavenger (C n) (top₀ n) (s.inMem mem)
  clear : ∀ fr ∈ s.frames, ∀ k, (C k).Clear fr.sp
  data : (C n).base + 16 ≤ top₀ n

variable [DecidableEq ι] {top : ι → Nat} {P P' : Process ι} {e : Event ι}

/-- **One event keeps all shadow stacks right.** -/
theorem Process.Step.steady (h : ∀ n s, P.threads n = some s → Steady p strategy scavenger C top P.mem n s)
    (hapart : Apart C) (hallowed : Allowed p strategy scavenger C top P e)
    (hs : Process.Step (p.instrumented strategy scavenger) P e P') :
    ∀ n s, P'.threads n = some s → Steady p strategy scavenger C top P'.mem n s := by
  cases hs with
  | spawn n u =>
      obtain ⟨-, hstarts, hclear⟩ := hallowed.spawns n u rfl
      intro k s hk
      rcases update_eq_some hk with ⟨rfl, hs⟩ | ⟨-, hs⟩
      · obtain rfl := Option.some.inj hs
        refine ⟨.of_safe hstarts.safe, fun fr hfr ↦ ?_, hstarts.data.1⟩
        obtain ⟨ra, hframes, -⟩ := hstarts.frames
        obtain rfl := List.mem_singleton.mp (hframes ▸ hfr)
        exact hclear
      · exact h k s hs
  | @next n u u' hu hu' =>
      have hsteady := h n u hu
      have ho := hallowed.obeys n u rfl hu
      have hfits := hallowed.fits n u hu
      intro k s hk
      rcases update_eq_some hk with ⟨rfl, hs⟩ | ⟨hne, hs⟩
      · obtain rfl := Option.some.inj hs
        exact ⟨hsteady.ok.next ho hsteady.data hfits hu', ho.clear hsteady.clear hu', hsteady.data⟩
      · have hsteady' := h k s hs
        have hspares : Spares p strategy scavenger (C k) (s.inMem P.mem) u'.m.mem := by
          constructor
          · intro b hb
            exact hsteady.ok.keeps_chunks ho hapart hsteady.clear hsteady.data hfits hu' hne hb
          · intro hin fr frames hfr b hlo hhi
            exact hallowed.spares n u u' rfl hu hu' k hne b ⟨s, fr, frames, hs, hin, hfr, hlo, hhi⟩
        exact ⟨hsteady'.ok.inMem hsteady'.data (hallowed.fits k s hs) hspares, hsteady'.clear, hsteady'.data⟩
  | @exited n u m hu hu' =>
      have hmem : m.mem = P.mem := Code.tick_exited hu'
      intro k s hk
      rcases update_eq_some hk with ⟨-, hs⟩ | ⟨-, hs⟩
      · cases hs
      · rw [hmem]
        exact h k s hs
  | poke mem =>
      have hpokes := hallowed.pokes mem rfl
      intro k s hk
      have hsteady := h k s hk
      have hspares : Spares p strategy scavenger (C k) (s.inMem P.mem) mem := by
        constructor
        · exact fun b hb ↦ hpokes k s hk b (.inl hb)
        · intro hin fr frames hfr b hlo hhi
          exact hpokes k s hk b (.inr ⟨s, fr, frames, hk, hin, hfr, hlo, hhi⟩)
      exact ⟨hsteady.ok.inMem hsteady.data (hallowed.fits k s hk) hspares, hsteady.clear, hsteady.data⟩

/-- All threads are steady in every run. -/
theorem run_steady {mem : Memory} {es : List (Event ι)} (hapart : Apart C)
    (hrun : Run (Guarded (Allowed p strategy scavenger C top) (Process.Step (p.instrumented strategy scavenger)))
      ⟨mem, fun _ ↦ none⟩ es P) (hn : P.threads n = some s) : Steady p strategy scavenger C top P.mem n s := by
  have hinit : ∀ n s, (none : Option State) = some s → Steady p strategy scavenger C top mem n s := by
    intro n s hs
    cases hs
  have hsteady := hrun.invariant (I := fun P ↦ ∀ n s, P.threads n = some s →
    Steady p strategy scavenger C top P.mem n s) hinit fun P e P' h hs ↦ hs.2.steady h hapart hs.1
  exact hsteady n s hn

/-- **Threads do not disturb each other.**  In every run of the threads of a process, one instruction at a time
and in any order, a function that is at its `RET` returns to the call that started it, or that started the chain
of tail jumps it is at the end of, with `gs:[8]` as before that call, whatever other threads have written to its
return slot. -/
theorem run_threads {mem : Memory} {es : List (Event ι)} {fr : Frame} {frames : List Frame} {imm : Nat}
    {rest : List Inst} (hapart : Apart C)
    (hrun : Run (Guarded (Allowed p strategy scavenger C top) (Process.Step (p.instrumented strategy scavenger)))
      ⟨mem, fun _ ↦ none⟩ es P)
    (hallowed : Allowed p strategy scavenger C top P (.tick n)) (hn : P.threads n = some s)
    (hfr : s.frames = fr :: frames) (hrest : s.pos.rest = .orig (.ret imm) :: rest) :
    Returned fr frames ((p.instrumented strategy scavenger).tick (s.inMem P.mem)) := by
  obtain ⟨hok, -, hdata⟩ := run_steady hapart hrun hn
  exact hok.returned (hallowed.obeys n s rfl hn) hdata (hallowed.fits n s hn) hfr hrest

/-! ## A run -/

/-- The bytes that the next instruction may write. -/
def State.touched (s : State) : List Nat :=
  match s.pos.rest with
  | .orig (.op o) :: _ => o.writes s.m
  | .orig (.call _ _) :: _ => (List.range 8).map fun k ↦ wrap (wrapSub (s.m.regs .rsp) 8 + k)
  | .orig _ :: _ => []
  | x :: _ => ((x.slot s.m).map fun a ↦ (List.range 8).map fun k ↦ wrap (a + k)).getD []
  | [] => []

theorem mem_bytes {a k : Nat} (hk : k < 8) : wrap (a + k) ∈ (List.range 8).map fun k ↦ wrap (a + k) :=
  List.mem_map.mpr ⟨k, List.mem_range.mpr hk, rfl⟩

theorem tick_mem_of_notMem {b : Nat} (h : code.tick s = .next s') (hb : wrap b ∉ s.touched) :
    s'.m.mem b = s.m.mem b := by
  cases Code.tick_effect h with
  | @inserted x rest hrest hx _ hmem =>
      rw [hmem]
      refine Inst.exec_mem_of_notMem (S := (· ∈ s.touched)) (fun a ha k hk ↦ ?_) hb
      rw [State.touched, hrest]
      cases x with
      | orig => cases hx
      | _ => first | exact Option.some.inj ha ▸ mem_bytes hk | cases ha
  | @op o rest hrest _ hmem =>
      rw [hmem]
      refine o.exec_mem_of_notMem s.m fun hw ↦ hb ?_
      obtain ⟨q, -, rfl⟩ := List.mem_map.mp hw
      rw [State.touched, hrest, wrap_of_lt (wrap_lt _)]
      exact hw
  | @call callee ra rest fr hrest _ _ hmem =>
      rw [hmem]
      refine store64_of_notMem' (S := (· ∈ s.touched)) (fun k hk ↦ ?_) hb
      rw [State.touched, hrest]
      exact mem_bytes hk
  | quiet _ hmem => rw [hmem]

/-- `Obeys`, computed. -/
def obeys (p : Program) (strategy : ViolationStrategy) (scavenger : Nat → Scavenger) (C : Bool → Chunk) (s : State) :
    Bool :=
  (match s.pos.rest with
    | .orig (.op o) :: _ =>
        (o.writes s.m).all fun b ↦ [false, true].all fun k ↦ !((C k).base ≤ b && b < (C k).base + (C k).size)
    | .orig (.call _ _) :: _ =>
        let sp := s.m.regs .rsp
        24 ≤ sp && sp ≤ 2 ^ 64 &&
          [false, true].all fun k ↦ sp ≤ (C k).base || (C k).base + (C k).size ≤ sp - 24
    | .orig i :: _ => !i.isReturn || p.hasCalls s.pos.fn ||
        s.frames.head?.all fun fr ↦ load64 s.m.mem fr.sp == fr.ra
    | _ => true) &&
  (match nextOrig s.pos.rest, s.frames with
    | some i, fr :: _ => !i.isReturn || s.m.regs .rsp == fr.sp ||
        s.pos.rest.length != (p.compile strategy scavenger s.pos.fn s.pos.blk (origs s.pos.rest)).length
    | _, _ => true) &&
  !p.reenters s &&
  match nextOrig s.pos.rest with
    | some (.tailJmpCC _ _) => false
    | _ => true

theorem obeys_sound {C : Bool → Chunk} (h : obeys p strategy scavenger C s) : Obeys p strategy scavenger C s := by
  simp only [obeys, Bool.and_eq_true] at h
  obtain ⟨⟨⟨hhead, hret⟩, hforward⟩, hcc⟩ := h
  constructor
  · intro o rest hrest b hb k hmem
    rw [hrest] at hhead
    have := List.all_eq_true.mp (List.all_eq_true.mp hhead b hb) k (by cases k <;> simp)
    unfold Chunk.Mem at hmem
    simp at this
    omega
  · intro callee ra rest hrest
    rw [hrest] at hhead
    simp only [Bool.and_eq_true, decide_eq_true_eq] at hhead
    obtain ⟨⟨hlo, hhi⟩, hhead⟩ := hhead
    refine ⟨by omega, fun k ↦ ?_⟩
    have := List.all_eq_true.mp hhead k (by cases k <;> simp)
    unfold Chunk.Clear
    simp at this
    omega
  · intro i fr frames hin hi hr hfr
    rw [hi, hfr] at hret
    have hlen := congrArg List.length hin.eq_compile
    simp only [hr, Bool.not_true, Bool.false_or, Bool.or_eq_true, beq_iff_eq, bne_iff_ne] at hret
    exact hret.resolve_right fun hne ↦ hne hlen
  · intro i rest fr frames hf hrest hr hfr
    rw [hrest, hfr, hf] at hhead
    cases i with
    | ret | tailJmp | tailJmpCC => simpa [Orig.isReturn] using hhead
    | _ => cases hr
  · exact (Bool.not_eq_true' _).mp hforward
  · intro f cc hc
    rw [hc] at hcc
    cases hcc

/-- `Allowed`, computed, for an instruction of one of two threads. -/
def tickAllowed (p : Program) (strategy : ViolationStrategy) (scavenger : Nat → Scavenger) (C : Bool → Chunk)
    (top : Bool → Nat) (P : Process Bool) (n : Bool) (s : State) : Bool :=
  ([false, true].all fun k ↦ (P.threads k).all fun u ↦ top k + 8 * p.depth u ≤ (C k).base + (C k).size) &&
  obeys p strategy scavenger C (s.inMem P.mem) &&
  (P.threads !n).all fun u ↦ u.frames.head?.all fun fr ↦
    (s.inMem P.mem).touched.all fun b ↦ b < fr.sp - 16 || fr.sp + 8 ≤ b

theorem tickAllowed_sound {C : Bool → Chunk} {top : Bool → Nat} {P : Process Bool} {n : Bool}
    (hn : P.threads n = some s) (h : tickAllowed p strategy scavenger C top P n s) :
    Allowed p strategy scavenger C top P (.tick n) := by
  simp only [tickAllowed, Bool.and_eq_true] at h
  obtain ⟨⟨hfits, hobeys⟩, hspares⟩ := h
  constructor
  · intro k u hu
    have := List.all_eq_true.mp hfits k (by cases k <;> simp)
    rw [hu] at this
    exact of_decide_eq_true this
  · intro k u he hu
    cases he
    obtain rfl := Option.some.inj (hn.symm.trans hu)
    exact obeys_sound hobeys
  · rintro k u u' he hu hu' j hj b ⟨v, fr, frames, hv, -, hfr, hlo, hhi⟩
    cases he
    obtain rfl := Option.some.inj (hn.symm.trans hu)
    obtain rfl : j = !n := Bool.eq_not.mpr hj
    rw [hv, Option.all_some, hfr, List.head?_cons, Option.all_some] at hspares
    refine tick_mem_of_notMem hu' fun hmem ↦ ?_
    have := List.all_eq_true.mp hspares _ hmem
    simp only [Bool.or_eq_true, decide_eq_true_eq] at this
    omega
  · intro k u he
    cases he
  · intro mem he
    cases he

section

variable (code : Code) (guard : Process Bool → Bool → State → Bool) (base : Bool → Nat)

/-- The instructions of a run of two threads, computed. -/
def tickStep (P : Process Bool) : Event Bool → Option (Process Bool)
  | .tick n =>
      match P.threads n with
      | some s =>
          if guard P n s then
            match code.tick (s.inMem P.mem) with
            | .next s' => some ⟨s'.m.mem, Function.update P.threads n (some s')⟩
            | _ => none
          else none
      | none => none
  | _ => none

/-- Where the stack of a thread begins. -/
def stackOf (n : Bool) : Nat := if n then 0x710000000000 else 0x700000000000

/-- The memory of two threads with empty shadow stacks at `base`, and their return addresses on their stacks. -/
def twoStacks : Memory :=
  [false, true].foldl (fun mem n ↦ store64 (store64 mem (base n + 8) (base n + 16)) (stackOf n) 0x400000) fun _ ↦ 0

/-- A thread that starts in the function that overwrites its return address. -/
def startOf (n : Bool) : State :=
  ⟨smashedStart.pos, [⟨none, 0x400000, stackOf n, base n + 16⟩],
    { (someMachine.set .rsp (stackOf n)) with gs := base n }⟩

/-- The two threads run in turns. -/
def turns : Nat → List (Event Bool)
  | 0 => []
  | k + 1 => .tick false :: .tick true :: turns k

/-- The only call that has not returned, if the next instruction is a `RET`. -/
def State.atRet (s : State) : Option Frame :=
  match s.pos.rest, s.frames with
  | .orig (.ret _) :: _, [fr] => some fr
  | _, _ => none

/-- Both threads overwrite their return slots, and the first one gets to its `RET`. -/
def smashes : Bool :=
  ((turns 12).foldlM (tickStep code guard) ⟨twoStacks base, fun n ↦ some (startOf base n)⟩).any fun P ↦
    load64 P.mem (stackOf false) == 0x4141414141414141 &&
      ((turns 7).foldlM (tickStep code guard) P).any fun P' ↦
        (P'.threads false).any fun s ↦ guard P' false s && s.atRet.any (·.ra == 0x400000)

end

section

variable {guard : Process Bool → Bool → State → Bool} {cond : Process Bool → Event Bool → Prop} {base : Bool → Nat}

theorem tickStep_sound {P P' : Process Bool} {e : Event Bool}
    (hguard : ∀ P n s, P.threads n = some s → guard P n s → cond P (.tick n))
    (h : tickStep code guard P e = some P') : Guarded cond (Process.Step code) P e P' := by
  unfold tickStep at h
  split at h
  · split at h
    · next hn =>
        split at h
        · next hallowed =>
            split at h
            · next hs =>
                obtain rfl := Option.some.inj h
                exact ⟨hguard _ _ _ hn hallowed, .next hn hs⟩
            · cases h
        · cases h
    · cases h
  · cases h

theorem atRet_eq_some {fr : Frame} (h : s.atRet = some fr) :
    s.frames = [fr] ∧ ∃ imm rest, s.pos.rest = .orig (.ret imm) :: rest := by
  unfold State.atRet at h
  split at h
  · next imm rest fr' hrest hfr =>
      obtain rfl := Option.some.inj h
      exact ⟨hfr, imm, rest, hrest⟩
  · cases h

variable (cond) in
theorem smashes_spec (hguard : ∀ P n s, P.threads n = some s → guard P n s → cond P (.tick n))
    (h : smashes code guard base) : ∃ P P' s fr,
      Run (Guarded cond (Process.Step code)) ⟨twoStacks base, fun n ↦ some (startOf base n)⟩ (turns 12) P ∧
      load64 P.mem (stackOf false) = 0x4141414141414141 ∧
      Run (Guarded cond (Process.Step code)) P (turns 7) P' ∧ cond P' (.tick false) ∧
      P'.threads false = some s ∧ s.frames = [fr] ∧ fr.ra = 0x400000 ∧
      ∃ imm rest, s.pos.rest = .orig (.ret imm) :: rest := by
  obtain ⟨P, hP, h⟩ := (Option.any_eq_true _ _).mp h
  obtain ⟨hslot, h⟩ := (Bool.and_eq_true _ _).mp h
  obtain ⟨P', hP', h⟩ := (Option.any_eq_true _ _).mp h
  obtain ⟨s, hs, h⟩ := (Option.any_eq_true _ _).mp h
  obtain ⟨hallowed, h⟩ := (Bool.and_eq_true _ _).mp h
  obtain ⟨fr, hfr, hra⟩ := (Option.any_eq_true _ _).mp h
  obtain ⟨hframes, hrest⟩ := atRet_eq_some hfr
  have hrun := Run.of_foldlM (fun _ _ _ ↦ tickStep_sound hguard) hP
  have hrun' := Run.of_foldlM (fun _ _ _ ↦ tickStep_sound hguard) hP'
  exact ⟨P, P', s, fr, hrun, eq_of_beq hslot, hrun', hguard _ _ _ hs hallowed, hs, hframes, eq_of_beq hra, hrest⟩

/-- The threads start one after another. -/
theorem spawn_both (hspawn : ∀ P n, P.mem = twoStacks base → P.threads n = none →
      (∀ k s, P.threads k = some s → s = startOf base k) → cond P (.spawn n (startOf base n))) :
    Run (Guarded cond (Process.Step code)) ⟨twoStacks base, fun _ ↦ none⟩
      [.spawn false (startOf base false), .spawn true (startOf base true)]
      ⟨twoStacks base, fun n ↦ some (startOf base n)⟩ := by
  have hfirst := hspawn ⟨twoStacks base, fun _ ↦ none⟩ false rfl rfl fun k s hk ↦ by cases hk
  have hsecond := hspawn ⟨twoStacks base, Function.update (fun _ ↦ none) false (some (startOf base false))⟩
    true rfl rfl fun k s hk ↦ by cases k <;> cases hk; rfl
  have hboth : Function.update (Function.update (fun _ ↦ none) false (some (startOf base false))) true
      (some (startOf base true)) = fun n ↦ some (startOf base n) := by
    funext n
    cases n <;> rfl
  rw [← hboth]
  exact (Run.single ⟨hfirst, .spawn false (startOf base false)⟩).snoc
    ⟨hsecond, .spawn true (startOf base true)⟩

end

/-- Two chunks, one above the other. -/
def chunkOf (n : Bool) : Chunk :=
  ⟨if n then 0x610000000000 else 0x600000000000, 0x100000, by cases n <;> decide⟩

def baseOf (n : Bool) : Nat := (chunkOf n).base

theorem startOf_starts (n : Bool) : Starts smashed .blindWrite noScratch (chunkOf n) (baseOf n + 16)
    ((startOf baseOf n).inMem (twoStacks baseOf)) where
  entry := ⟨0, _, rfl, rfl⟩
  frames := by
    cases n <;> exact ⟨0x400000, rfl, by decide +kernel⟩
  gs := rfl
  top := by
    cases n <;> decide +kernel
  data := by
    cases n <;> decide
  clear := by
    unfold Chunk.Clear
    cases n <;> decide

theorem chunkOf_apart : Apart chunkOf := by
  intro k l b hk hl
  cases k <;> cases l <;> first | rfl | (simp [Chunk.Mem, chunkOf] at hk hl; omega)

theorem startOf_allowed (P : Process Bool) (n : Bool) (hmem : P.mem = twoStacks baseOf) (hn : P.threads n = none)
    (hothers : ∀ k s, P.threads k = some s → s = startOf baseOf k) :
    Allowed smashed .blindWrite noScratch chunkOf (baseOf · + 16) P (.spawn n (startOf baseOf n)) := by
  constructor
  · intro k s hk
    obtain rfl := hothers k s hk
    cases k <;> decide
  · intro k s he
    cases he
  · intro k s s' he
    cases he
  · intro k s he
    cases he
    refine ⟨hn, hmem ▸ startOf_starts n, fun k ↦ ?_⟩
    unfold Chunk.Clear
    cases n <;> cases k <;> decide
  · intro mem he
    cases he

/-- Both threads overwrite their return slots, and the first one returns. -/
theorem run_threads_smashed : ∃ P P' s fr,
    Run (Guarded (Allowed smashed .blindWrite noScratch chunkOf (baseOf · + 16))
        (Process.Step (smashed.instrumented .blindWrite noScratch))) ⟨twoStacks baseOf, fun _ ↦ none⟩
      ([.spawn false (startOf baseOf false), .spawn true (startOf baseOf true)] ++ turns 12) P ∧
    load64 P.mem (stackOf false) = 0x4141414141414141 ∧
    Run (Guarded (Allowed smashed .blindWrite noScratch chunkOf (baseOf · + 16))
        (Process.Step (smashed.instrumented .blindWrite noScratch))) P (turns 7) P' ∧
    P'.threads false = some s ∧ s.frames = [fr] ∧ fr.ra = 0x400000 ∧
    Returned fr [] ((smashed.instrumented .blindWrite noScratch).tick (s.inMem P'.mem)) := by
  have hcheck : smashes (smashed.instrumented .blindWrite noScratch)
      (tickAllowed smashed .blindWrite noScratch chunkOf (baseOf · + 16)) baseOf = true := by
    decide +kernel
  obtain ⟨P, P', s, fr, hrun, hslot, hrun', hallowed, hs, hframes, hra, imm, rest, hrest⟩ :=
    smashes_spec (Allowed smashed .blindWrite noScratch chunkOf (baseOf · + 16))
      (fun P n s ↦ tickAllowed_sound) hcheck
  have hstart := (spawn_both startOf_allowed).trans hrun
  refine ⟨P, P', s, fr, hstart, hslot, hrun', hs, hframes, hra, ?_⟩
  exact run_threads chunkOf_apart (hstart.trans hrun') hallowed hs hframes hrest

end ShadowStack.X86
