import ShadowStack.Lkm.Interleaving

/-!
# Descriptors and pagelists under concurrency

Which call, or which slot of a table, is responsible for each descriptor and its pagelist.  The
answer is carried along as two functions, so that two calls responsible for the same object are ruled
out by the statement itself.  It breaks down in one situation only: `sa_free` takes a descriptor out
of a table while the call that put it there is still working on it.

The scan of `sa_fork` reads descriptors that are not its own.  The lock keeps `sa_free` away from them,
but not another `sa_fork` that fails.
-/

namespace ShadowStack.Lkm.Conc

open Lib

/-! ## What a call works on -/

/-- The descriptor a call has made, or has taken out of a table, and not let go of. -/
def Pc.desc : Pc → Option Nat
  | .allocStack _ _ t | .allocMap _ _ t | .allocMax _ _ t | .allocStore _ _ t | .allocRead _ _ t
  | .allocGlFree _ _ t | .allocKfree _ _ t => some t
  | .forkStack _ _ _ t | .forkScan _ _ _ t _ _ | .forkInsert _ _ t _ | .forkMap _ _ t _
  | .forkMax _ _ t | .forkErase _ _ t _ | .forkGlFree _ t _ | .forkKfree _ t => some t
  | .freeUnmap _ t | .freeGlFree _ t | .freeKfree _ t => some t
  | _ => none

/-- The slot in which others can see that descriptor. -/
def Pc.shown : Pc → Option (AllocPtr × Nat)
  | .allocRead a id _ | .forkMap a id _ _ | .forkMax a id _ | .forkErase a id _ _ => some (a, id)
  | _ => none

/-- The pagelist that comes with the descriptor `d`: one that is still to be given up. -/
def Pc.cargo (d : ThreadDesc) : Pc → Option PlPtr
  | .allocMap _ _ _ | .allocMax _ _ _ | .allocStore _ _ _ | .allocRead _ _ _
  | .allocGlFree _ _ _ | .forkMax _ _ _ | .freeUnmap _ _ | .freeGlFree _ _ => some d.pagelist
  | .forkScan _ _ _ _ pl _ | .forkInsert _ _ _ pl | .forkMap _ _ _ pl | .forkErase _ _ _ pl
  | .forkGlFree _ _ pl => some pl
  | _ => none

/-- The pagelist that `sa_fork` has in a local variable and in its descriptor. -/
def Pc.stack : Pc → Option PlPtr
  | .forkMap _ _ _ pl | .forkErase _ _ _ pl => some pl
  | _ => none

/-- The slot that the scan of `sa_fork` is at, and the descriptor it has found there. -/
def Pc.visits : Pc → Option (AllocPtr × Nat × Nat)
  | .forkScan _ parent _ _ _ (.tid i t) | .forkScan _ parent _ _ _ (.copy i t _) => some (parent, i, t)
  | _ => none

theorem Pc.visits_of_desc {pc : Pc} (h : pc.desc = none) : pc.visits = none := by
  cases pc <;> first | rfl | cases h

theorem Pc.visits_of_cargo {pc : Pc} {d : ThreadDesc} (h : pc.cargo d = none) : pc.visits = none := by
  cases pc <;> first | rfl | cases h

theorem Pc.visits_of_shown {pc : Pc} {x : AllocPtr × Nat} (h : pc.shown = some x) : pc.visits = none := by
  cases pc <;> first | rfl | cases h

theorem Pc.reading_of_visits {pc : Pc} {a : AllocPtr} {i t : Nat} (h : pc.visits = some (a, i, t)) :
    pc.reading = some a := by
  unfold Pc.visits at h
  split at h
  · next b _ _ _ _ => exact congrArg some (Prod.mk.inj (Option.some.inj h)).1
  · next b _ _ _ _ => exact congrArg some (Prod.mk.inj (Option.some.inj h)).1
  · cases h

/-! ## What goes wrong -/

/-- The next step reads the fields of descriptor `t`. -/
def Reads (t : Nat) : Pc → Prop
  | .allocMap _ _ t' | .allocRead _ _ t' | .allocGlFree _ _ t' | .freeGlFree _ t'
  | .forkMap _ _ t' _ | .forkScan _ _ _ _ _ (.tid _ t') | .forkScan _ _ _ _ _ (.copy _ t' _) => t = t'
  | _ => False

/-- The next step passes descriptor `t` to `kfree`. -/
def Kfrees (t : Nat) : Pc → Prop
  | .allocKfree _ _ t' | .forkKfree _ t' | .freeKfree _ t' => t = t'
  | _ => False

/-- The next step maps pagelist `pl`. -/
def World.Maps (w : World) (pl : PlPtr) : Pc → Prop
  | .allocMap _ _ t | .forkMap _ _ t _ => ∃ d, w.descs t = some d ∧ d.pagelist = pl
  | _ => False

/-- The next step copies a page of pagelist `pl`, or a page to it. -/
def World.Copies (w : World) (pl : PlPtr) : Pc → Prop
  | .forkScan _ _ _ _ pl' (.copy _ t _) => pl = pl' ∨ ∃ d, w.descs t = some d ∧ d.pagelist = pl
  | _ => False

/-- The next step passes pagelist `pl` to `gl_free`. -/
def World.GlFrees (w : World) (pl : PlPtr) : Pc → Prop
  | .allocGlFree _ _ t | .freeGlFree _ t => ∃ d, w.descs t = some d ∧ d.pagelist = pl
  | .forkGlFree _ _ pl' => pl = pl'
  | _ => False

/-- No call is about to use what has been given up, or to give it up again. -/
structure Sound (w : World) : Prop where
  reads : ∀ n f t, w.calls n = some f → Reads t f.pc → (w.descs t).isSome
  kfrees : ∀ n f t, w.calls n = some f → Kfrees t f.pc → (w.descs t).isSome
  maps : ∀ n f pl, w.calls n = some f → w.Maps pl f.pc → pl ∈ w.held
  copies : ∀ n f pl, w.calls n = some f → w.Copies pl f.pc → pl ∈ w.held
  glFrees : ∀ n f pl, w.calls n = some f → w.GlFrees pl f.pc → pl ∈ w.held

/-- `sa_free` does not take a descriptor out of its table while a call is working on it. -/
def Undisturbed (w : World) : Event → Prop
  | .step n _ => ∀ f a id t, w.calls n = some f → f.pc = .freeErase a id →
      (w.threads a).load id = some t → ∀ m g, w.calls m = some g → g.pc.desc ≠ some t
  | _ => True

/-- An `sa_fork` that fails does not take its descriptor out of its table while the scan of another call
is at it. -/
def Unvisited (w : World) : Event → Prop
  | .step n _ => ∀ f a id t pl, w.calls n = some f → f.pc = .forkErase a id t pl →
      ∀ m g b i, w.calls m = some g → g.pc.visits ≠ some (b, i, t)
  | _ => True

/-- Nobody takes a descriptor from those who work on it or read it. -/
def Considerate (w : World) (e : Event) : Prop := Undisturbed w e ∧ Unvisited w e

/-! ## Who is responsible -/

inductive DescOwner where
  | nobody
  | call (n : Nat)
  | slot (a : AllocPtr) (i : Nat)
deriving DecidableEq, Repr

/-- Descriptor `t` is in slot `i` of a table, or it has been found there by a scan that is still at it,
where `scans` are followed. -/
def World.Seen (w : World) (scans : Prop) (a : AllocPtr) (i t : Nat) : Prop :=
  (w.threads a).slot i = some (.entry t) ∨
    scans ∧ ∃ n f, w.calls n = some f ∧ f.pc.visits = some (a, i, t)

/-- Descriptors with their owners and pagelists with their descriptors. -/
structure DescInv (scans : Prop) (w : World) (owner : Nat → DescOwner) (carrier : PlPtr → Option Nat) :
    Prop where
  /-- The descriptor a call works on is its own. -/
  frame : ∀ n f t, w.calls n = some f → f.pc.desc = some t → owner t = .call n ∧
    ∃ d, w.descs t = some d ∧ (∀ pl, f.pc.cargo d = some pl → carrier pl = some t) ∧
      ∀ pl, f.pc.stack = some pl → d.pagelist = pl
  /-- A descriptor that can be seen belongs to its slot, or to a call that shows it there. -/
  entry : ∀ a i t, w.Seen scans a i t →
    (owner t = .slot a i ∨
      ∃ n f, w.calls n = some f ∧ f.pc.desc = some t ∧ f.pc.shown = some (a, i)) ∧
    ∃ d, w.descs t = some d ∧ carrier d.pagelist = some t
  held : ∀ pl t, carrier pl = some t → pl ∈ w.held
  held_lt : ∀ pl ∈ w.held, pl < w.nextPl
  glSa_nodup : w.glSa.Nodup
  glSa : ∀ pl ∈ w.glSa, pl ∉ w.held ∧ pl < w.nextPl
  fresh : ∀ t, w.nextDesc ≤ t → owner t = .nobody
  calls : ∀ n, w.nextCall ≤ n → w.calls n = none

variable {scans : Prop} {w w' : World} {owner : Nat → DescOwner} {carrier : PlPtr → Option Nat} {n : Nat}
  {f : Frame} {t : Nat} {pc : Pc}

theorem DescInv.init : DescInv scans .init (fun _ ↦ .nobody) fun _ ↦ none := by
  constructor <;> simp [World.init, World.Seen]

/-- What can be seen after the step of one call could be seen before, if its table shows no more and its scan
has not moved on to something else. -/
theorem World.Seen.of_update {a : AllocPtr} {i : Nat} {frame : Option Frame} (h : w'.Seen scans a i t)
    (hcalls : w'.calls = Function.update w.calls n frame)
    (hslot : (w'.threads a).slot i = some (.entry t) → (w.threads a).slot i = some (.entry t))
    (hvisits : scans → ∀ g, frame = some g → g.pc.visits = some (a, i, t) → w.Seen scans a i t) :
    w.Seen scans a i t := by
  rcases h with h | ⟨hs, m, g, hg, hv⟩
  · exact .inl (hslot h)
  · rw [hcalls] at hg
    rcases update_eq_some hg with ⟨-, hg⟩ | ⟨-, hg⟩
    · exact hvisits hs g hg hv
    · exact .inr ⟨hs, m, g, hg, hv⟩

/-- The same for the step to `pc` of a call that visits nothing there. -/
theorem World.Seen.of_goto {a : AllocPtr} {i : Nat} (h : w'.Seen scans a i t)
    (hcalls : w'.calls = Function.update w.calls n (some { f with pc := pc })) (hpc : pc.visits = none)
    (hslot : (w'.threads a).slot i = some (.entry t) → (w.threads a).slot i = some (.entry t)) :
    w.Seen scans a i t := by
  refine h.of_update hcalls hslot fun _ g hg hv ↦ ?_
  obtain rfl := Option.some.inj hg
  rw [hpc] at hv
  cases hv

namespace DescInv

/-- Tables that show fewer descriptors are as good, whatever else changes. -/
theorem shrink (h : DescInv scans w owner carrier) (hcalls : w'.calls = w.calls) (hdescs : w'.descs = w.descs)
    (hthreads : ∀ a i t, (w'.threads a).slot i = some (.entry t) → (w.threads a).slot i = some (.entry t))
    (hheld : w'.held = w.held) (hgl : w'.glSa = w.glSa) (hpl : w'.nextPl = w.nextPl)
    (hnext : w'.nextDesc = w.nextDesc) (hcall : w'.nextCall = w.nextCall) :
    DescInv scans w' owner carrier where
  frame := by rw [hcalls, hdescs]; exact h.frame
  entry a i t ht := by
    rw [hcalls, hdescs]
    refine h.entry a i t (ht.imp (hthreads a i t) fun hv ↦ ?_)
    rwa [hcalls] at hv
  held := by rw [hheld]; exact h.held
  held_lt := by rw [hheld, hpl]; exact h.held_lt
  glSa_nodup := by rw [hgl]; exact h.glSa_nodup
  glSa := by rw [hgl, hheld, hpl]; exact h.glSa
  fresh := by rw [hnext]; exact h.fresh
  calls := by rw [hcalls, hcall]; exact h.calls

/-- Only one call works on a descriptor. -/
theorem call_unique (h : DescInv scans w owner carrier) {m : Nat} {g : Frame} (hf : w.calls n = some f)
    (ht : f.pc.desc = some t) (hg : w.calls m = some g) (ht' : g.pc.desc = some t) : m = n := by
  have hm := (h.frame m g t hg ht').1
  rw [(h.frame n f t hf ht).1] at hm
  exact (DescOwner.call.inj hm).symm

/-- Where the descriptor of a call can be seen, the call knows about it. -/
theorem shown_of_seen (h : DescInv scans w owner carrier) (hf : w.calls n = some f) (ht : f.pc.desc = some t)
    {a : AllocPtr} {i : Nat} (he : w.Seen scans a i t) : f.pc.shown = some (a, i) := by
  rcases (h.entry a i t he).1 with hslot | ⟨m, g, hg, ht', hshown⟩
  · rw [(h.frame n f t hf ht).1] at hslot
    cases hslot
  · obtain rfl := h.call_unique hf ht hg ht'
    obtain rfl : f = g := Option.some.inj (hf.symm.trans hg)
    exact hshown

theorem shown_of_entry (h : DescInv scans w owner carrier) (hf : w.calls n = some f) (ht : f.pc.desc = some t)
    {a : AllocPtr} {i : Nat} (he : (w.threads a).slot i = some (.entry t)) : f.pc.shown = some (a, i) :=
  h.shown_of_seen hf ht (.inl he)

theorem unseen (h : DescInv scans w owner carrier) (hf : w.calls n = some f) (ht : f.pc.desc = some t)
    (hshown : f.pc.shown = none) (a : AllocPtr) (i : Nat) : ¬ w.Seen scans a i t := by
  intro he
  rw [h.shown_of_seen hf ht he] at hshown
  cases hshown

theorem notMem (h : DescInv scans w owner carrier) (hf : w.calls n = some f) (ht : f.pc.desc = some t)
    (hshown : f.pc.shown = none) (a : AllocPtr) (i : Nat) : (w.threads a).slot i ≠ some (.entry t) :=
  fun he ↦ h.unseen hf ht hshown a i (.inl he)

/-- A descriptor that no call works on belongs to the one slot it can be seen in. -/
theorem slot_of_settled (h : DescInv scans w owner carrier)
    (hset : ∀ m g, w.calls m = some g → g.pc.desc ≠ some t) {a : AllocPtr} {i : Nat}
    (he : w.Seen scans a i t) : owner t = .slot a i := by
  rcases (h.entry a i t he).1 with hslot | ⟨m, g, hg, ht', -⟩
  · exact hslot
  · exact absurd ht' (hset m g hg)

/-! ## The steps -/

/-- A call without a descriptor returns. -/
theorem finish (h : DescInv scans w owner carrier) (hf : w.calls n = some f) (hnone : f.pc.desc = none) :
    DescInv scans (w.finish n) owner carrier where
  frame m g t hg ht := by
    rcases update_eq_some hg with ⟨-, hg⟩ | ⟨-, hg⟩
    · cases hg
    · exact h.frame m g t hg ht
  entry a i t ht := by
    have ht : w.Seen scans a i t := ht.of_update rfl id fun _ g hg ↦ by cases hg
    refine ⟨(h.entry a i t ht).1.imp_right ?_, (h.entry a i t ht).2⟩
    rintro ⟨m, g, hg, hd, hs⟩
    have hm : m ≠ n := by
      rintro rfl
      obtain rfl : f = g := Option.some.inj (hf.symm.trans hg)
      rw [hnone] at hd
      cases hd
    exact ⟨m, g, by simpa [World.finish, hm] using hg, hd, hs⟩
  held := h.held
  held_lt := h.held_lt
  glSa_nodup := h.glSa_nodup
  glSa := h.glSa
  fresh := h.fresh
  calls m hm := by
    by_cases hmn : m = n
    · simp [World.finish, hmn]
    · simpa [World.finish, hmn] using h.calls m hm

/-- A call goes on with the descriptor it has, or still without one. -/
theorem goto (h : DescInv scans w owner carrier) (hf : w.calls n = some f) (hdesc : pc.desc = f.pc.desc)
    (hvisits : scans → ∀ a i t, pc.visits = some (a, i, t) → w.Seen scans a i t)
    (hshown : ∀ a i t, f.pc.desc = some t → w.Seen scans a i t → pc.shown = some (a, i))
    (hcargo : ∀ t d, f.pc.desc = some t → w.descs t = some d →
      (∀ pl, pc.cargo d = some pl → carrier pl = some t) ∧ ∀ pl, pc.stack = some pl → d.pagelist = pl) :
    DescInv scans (w.goto n f pc) owner carrier where
  frame m g t hg ht := by
    rcases update_eq_some hg with ⟨hm, hg⟩ | ⟨-, hg⟩
    · obtain rfl : { f with pc := pc } = g := Option.some.inj hg
      have htf : f.pc.desc = some t := hdesc ▸ ht
      obtain ⟨ho, d, hd, -⟩ := h.frame n f t hf htf
      exact ⟨hm ▸ ho, d, hd, hcargo t d htf hd⟩
    · exact h.frame m g t hg ht
  entry a i t ht := by
    have ht : w.Seen scans a i t := by
      refine ht.of_update rfl id fun hs g hg hv ↦ hvisits hs a i t ?_
      rwa [← Option.some.inj hg] at hv
    refine ⟨(h.entry a i t ht).1.imp_right ?_, (h.entry a i t ht).2⟩
    rintro ⟨m, g, hg, hd, hs⟩
    by_cases hm : m = n
    · obtain rfl : f = g := Option.some.inj (hf.symm.trans (hm ▸ hg))
      exact ⟨n, { f with pc := pc }, by simp [World.goto], hdesc.trans hd, hshown a i t hd ht⟩
    · exact ⟨m, g, by simpa [World.goto, hm] using hg, hd, hs⟩
  held := h.held
  held_lt := h.held_lt
  glSa_nodup := h.glSa_nodup
  glSa := h.glSa
  fresh := h.fresh
  calls m hm := by
    have hmn : m ≠ n := by
      rintro rfl
      rw [h.calls m hm] at hf
      cases hf
    simpa [World.goto, hmn] using h.calls m hm

/-- A call without a descriptor goes on without one. -/
theorem goto_none (h : DescInv scans w owner carrier) (hf : w.calls n = some f) (hnone : f.pc.desc = none)
    (hpc : pc.desc = none) : DescInv scans (w.goto n f pc) owner carrier :=
  h.goto hf (hpc.trans hnone.symm) (fun _ _ _ _ hv ↦ by simp [Pc.visits_of_desc hpc] at hv)
    (fun _ _ t ht ↦ by simp [hnone] at ht) fun t _ ht ↦ by simp [hnone] at ht

/-- A call goes on with what it has. -/
theorem goto_same (h : DescInv scans w owner carrier) (hf : w.calls n = some f) (hdesc : pc.desc = f.pc.desc)
    (hvisits : pc.visits = none) (hshown : pc.shown = f.pc.shown)
    (hcargo : ∀ d pl, pc.cargo d = some pl →
      f.pc.cargo d = some pl ∨ ∃ t, f.pc.desc = some t ∧ carrier pl = some t)
    (hstack : ∀ pl, pc.stack = some pl → f.pc.stack = some pl) :
    DescInv scans (w.goto n f pc) owner carrier := by
  refine h.goto hf hdesc (fun _ _ _ _ hv ↦ by simp [hvisits] at hv) (fun a i t ht he ↦ ?_) fun t d ht hd ↦ ?_
  · rw [hshown, h.shown_of_seen hf ht he]
  · obtain ⟨-, d', hd', hc, hs⟩ := h.frame n f t hf ht
    obtain rfl : d = d' := Option.some.inj (hd.symm.trans hd')
    refine ⟨fun pl hpl ↦ ?_, fun pl hpl ↦ hs pl (hstack pl hpl)⟩
    rcases hcargo d pl hpl with hpl | ⟨t', ht', hpl⟩
    · exact hc pl hpl
    · obtain rfl : t = t' := Option.some.inj (ht.symm.trans ht')
      exact hpl

/-- A call that shows its descriptor returns and leaves it to the table. -/
theorem settle (h : DescInv scans w owner carrier) (hf : w.calls n = some f) (ht : f.pc.desc = some t)
    {a : AllocPtr} {i : Nat} (hshown : f.pc.shown = some (a, i)) :
    DescInv scans (w.finish n) (Function.update owner t (.slot a i)) carrier where
  frame m g t' hg ht' := by
    have hm : m ≠ n := by
      rintro rfl
      simp [World.finish] at hg
    have hg' : w.calls m = some g := by simpa [World.finish, hm] using hg
    have hne : t' ≠ t := by
      rintro rfl
      exact hm (h.call_unique hf ht hg' ht')
    rw [Function.update_of_ne hne]
    exact h.frame m g t' hg' ht'
  entry b j t' he := by
    have he : w.Seen scans b j t' := he.of_update rfl id fun _ g hg ↦ by cases hg
    refine ⟨?_, (h.entry b j t' he).2⟩
    by_cases hne : t' = t
    · subst hne
      rw [Function.update_self]
      have := h.shown_of_seen hf ht he
      rw [hshown] at this
      obtain ⟨rfl, rfl⟩ := Prod.mk.inj (Option.some.inj this)
      exact .inl rfl
    · rw [Function.update_of_ne hne]
      refine (h.entry b j t' he).1.imp_right ?_
      rintro ⟨m, g, hg, hd, hs⟩
      have hm : m ≠ n := by
        rintro rfl
        obtain rfl : f = g := Option.some.inj (hf.symm.trans hg)
        exact hne (Option.some.inj (hd.symm.trans ht))
      exact ⟨m, g, by simpa [World.finish, hm] using hg, hd, hs⟩
  held := h.held
  held_lt := h.held_lt
  glSa_nodup := h.glSa_nodup
  glSa := h.glSa
  fresh t' ht' := by
    have hne : t' ≠ t := by
      rintro rfl
      have := (h.frame n f t' hf ht).1
      rw [h.fresh t' ht'] at this
      cases this
    rw [Function.update_of_ne hne]
    exact h.fresh t' ht'
  calls m hm := by
    by_cases hmn : m = n
    · simp [World.finish, hmn]
    · simpa [World.finish, hmn] using h.calls m hm

/-- **A call takes over a descriptor** that no other call works on and that cannot be seen any
more. -/
theorem acquire (h : DescInv scans w owner carrier) (hf : w.calls n = some f) (hnone : f.pc.desc = none)
    (hdesc : pc.desc = some t) (hset : ∀ m g, w.calls m = some g → g.pc.desc ≠ some t)
    (hcalls : w'.calls = Function.update w.calls n (some { f with pc := pc }))
    (hdescs : ∀ t', t' ≠ t → w'.descs t' = w.descs t')
    (hnew : ∃ d, w'.descs t = some d ∧ (∀ pl, pc.cargo d = some pl → carrier pl = some t) ∧
      ∀ pl, pc.stack = some pl → d.pagelist = pl)
    (hseen : ∀ a i t', w'.Seen scans a i t' → t' ≠ t ∧ w.Seen scans a i t')
    (hheld : w'.held = w.held) (hgl : w'.glSa = w.glSa) (hpl : w'.nextPl = w.nextPl)
    (hnext : t < w'.nextDesc ∧ w.nextDesc ≤ w'.nextDesc) (hcall : w'.nextCall = w.nextCall) :
    DescInv scans w' (Function.update owner t (.call n)) carrier where
  frame m g t' hg ht' := by
    rw [hcalls] at hg
    rcases update_eq_some hg with ⟨rfl, hg'⟩ | ⟨-, hg⟩
    · obtain rfl : { f with pc := pc } = g := Option.some.inj hg'
      obtain rfl : t = t' := Option.some.inj (hdesc.symm.trans ht')
      rw [Function.update_self]
      exact ⟨rfl, hnew⟩
    · have hne : t' ≠ t := by
        rintro rfl
        exact hset m g hg ht'
      rw [Function.update_of_ne hne, hdescs t' hne]
      exact h.frame m g t' hg ht'
  entry a i t' he := by
    obtain ⟨hne, he⟩ := hseen a i t' he
    rw [Function.update_of_ne hne, hdescs t' hne]
    refine ⟨(h.entry a i t' he).1.imp_right ?_, (h.entry a i t' he).2⟩
    rintro ⟨m, g, hg, hd, hs⟩
    have hm : m ≠ n := by
      rintro rfl
      obtain rfl : f = g := Option.some.inj (hf.symm.trans hg)
      rw [hnone] at hd
      cases hd
    exact ⟨m, g, by rw [hcalls, Function.update_of_ne hm, hg], hd, hs⟩
  held := by rw [hheld]; exact h.held
  held_lt := by rw [hheld, hpl]; exact h.held_lt
  glSa_nodup := by rw [hgl]; exact h.glSa_nodup
  glSa := by rw [hgl, hheld, hpl]; exact h.glSa
  fresh t' ht' := by
    rw [Function.update_of_ne (by omega)]
    exact h.fresh t' (by omega)
  calls m hm := by
    rw [hcall] at hm
    have hmn : m ≠ n := by
      rintro rfl
      rw [h.calls m hm] at hf
      cases hf
    rw [hcalls, Function.update_of_ne hmn, h.calls m hm]

/-- A new descriptor is nobody's yet. -/
theorem fresh_ne (h : DescInv scans w owner carrier) {m : Nat} {g : Frame} (hg : w.calls m = some g) :
    g.pc.desc ≠ some w.nextDesc := by
  intro ht
  have := (h.frame m g _ hg ht).1
  rw [h.fresh _ le_rfl] at this
  cases this

theorem kmalloc (h : DescInv scans w owner carrier) (hf : w.calls n = some f) (hnone : f.pc.desc = none)
    (hdesc : pc.desc = some w.nextDesc) (hcargo : ∀ d, pc.cargo d = none) (hstack : pc.stack = none) :
    DescInv scans (w.kmalloc.goto n f pc) (Function.update owner w.nextDesc (.call n)) carrier := by
  refine h.acquire hf hnone hdesc (fun m g hg ↦ h.fresh_ne hg) rfl (fun t' ht' ↦ ?_)
    ⟨⟨0, 0, 0⟩, ?_, fun pl hpl ↦ ?_, fun pl hpl ↦ ?_⟩ (fun a i t' he ↦ ?_) rfl rfl rfl
    ⟨Nat.lt_succ_self _, Nat.le_succ _⟩ rfl
  · exact Function.update_of_ne ht' _ _
  · exact Function.update_self ..
  · rw [hcargo] at hpl
    cases hpl
  · rw [hstack] at hpl
    cases hpl
  · have he : w.Seen scans a i t' := he.of_goto rfl (Pc.visits_of_cargo (hcargo ⟨0, 0, 0⟩)) id
    refine ⟨?_, he⟩
    rintro rfl
    rcases (h.entry a i _ he).1 with hslot | ⟨m, g, hg, ht', -⟩
    · rw [h.fresh _ le_rfl] at hslot
      cases hslot
    · exact h.fresh_ne hg ht'

/-- A table that is not locked is not being scanned. -/
theorem visits_ne (h : DescInv scans w owner carrier) {a : AllocPtr} (hlock : ¬ w.readLocked a)
    {m i : Nat} {g : Frame} (hg : w.calls m = some g) : g.pc.visits ≠ some (a, i, t) := by
  intro hv
  refine hlock (List.any_eq_true.mpr ⟨m, List.mem_range.mpr ?_, ?_⟩)
  · by_contra hm
    rw [h.calls m (not_lt.mp hm)] at hg
    cases hg
  · rw [hg, Option.any_some, Pc.reading_of_visits hv, beq_self_eq_true]

/-- `sa_free` takes a settled descriptor out of its table, which is not being scanned. -/
theorem take (h : DescInv scans w owner carrier) (hf : w.calls n = some f) (hnone : f.pc.desc = none)
    {a : AllocPtr} {i : Nat} (he : (w.threads a).slot i = some (.entry t))
    (hset : ∀ m g, w.calls m = some g → g.pc.desc ≠ some t) (hlock : ¬ w.readLocked a) :
    DescInv scans ((w.setThreads a ((w.threads a).erase i)).goto n f (.freeUnmap a t))
      (Function.update owner t (.call n)) carrier := by
  obtain ⟨d, hd, hcarrier⟩ := (h.entry a i t (.inl he)).2
  have howner := h.slot_of_settled hset (.inl he)
  refine h.acquire hf hnone rfl hset rfl (fun _ _ ↦ rfl) ⟨d, hd, fun pl hpl ↦ ?_, fun pl hpl ↦ ?_⟩
    (fun b j t' he' ↦ ?_) rfl rfl rfl ⟨?_, le_rfl⟩ rfl
  · rw [← Option.some.inj hpl, hcarrier]
  · cases hpl
  · have hslot : (((w.setThreads a ((w.threads a).erase i)).goto n f (.freeUnmap a t)).threads b).slot j =
        some (.entry t') → (w.threads b).slot j = some (.entry t') ∧ (b = a → j ≠ i) := by
      intro hs
      by_cases hb : b = a
      · subst hb
        have hs : ((w.threads b).erase i).slot j = some (.entry t') := by
          simpa [World.setThreads, World.goto] using hs
        rw [Xarray.slot_erase] at hs
        split at hs
        · cases hs
        · next hj => exact ⟨hs, fun _ ↦ hj⟩
      · exact ⟨by simpa [World.setThreads, World.goto, hb] using hs, fun hc ↦ absurd hc hb⟩
    have hseen : w.Seen scans b j t' := he'.of_goto rfl rfl fun hs ↦ (hslot hs).1
    refine ⟨?_, hseen⟩
    rintro rfl
    -- it can only be seen in the slot that is emptied, and no scan is there
    have := h.slot_of_settled hset hseen
    rw [howner] at this
    obtain ⟨rfl, rfl⟩ := DescOwner.slot.inj this
    rcases he' with hs | ⟨-, m, g, hg, hv⟩
    · exact (hslot hs).2 rfl rfl
    · rcases update_eq_some hg with ⟨-, hg⟩ | ⟨-, hg⟩
      · obtain rfl := Option.some.inj hg
        cases hv
      · exact h.visits_ne hlock hg hv
  · by_contra hc
    have : owner t = .nobody := h.fresh t (not_lt.mp hc)
    rw [howner] at this
    cases this

/-- The call that works on a descriptor writes its fields, before anyone else sees it. -/
theorem setDesc (h : DescInv scans w owner carrier) (hf : w.calls n = some f) (ht : f.pc.desc = some t)
    (hshown : f.pc.shown = none) {d : ThreadDesc}
    (hcargo : ∀ pl, f.pc.cargo d = some pl → carrier pl = some t) :
    DescInv scans (w.setDesc t (some d)) owner carrier where
  frame m g t' hg ht' := by
    by_cases hne : t' = t
    · subst hne
      obtain rfl := h.call_unique hf ht hg ht'
      obtain rfl : f = g := Option.some.inj (hf.symm.trans hg)
      refine ⟨(h.frame m f t' hf ht).1, d, Function.update_self .., hcargo, fun pl hpl ↦ ?_⟩
      cases hpc : f.pc <;> simp [hpc, Pc.stack, Pc.shown] at hpl hshown
    · obtain ⟨ho, d', hd', hrest⟩ := h.frame m g t' hg ht'
      exact ⟨ho, d', by simpa [World.setDesc, hne] using hd', hrest⟩
  entry a i t' he := by
    obtain ⟨ho, d', hd', hc⟩ := h.entry a i t' he
    have hne : t' ≠ t := by
      rintro rfl
      exact h.unseen hf ht hshown a i he
    exact ⟨ho, d', by simpa [World.setDesc, hne] using hd', hc⟩
  held := h.held
  held_lt := h.held_lt
  glSa_nodup := h.glSa_nodup
  glSa := h.glSa
  fresh := h.fresh
  calls := h.calls

/-- `kfree` of a descriptor that is in no table. -/
theorem kfree (h : DescInv scans w owner carrier) (hf : w.calls n = some f) (ht : f.pc.desc = some t)
    (hshown : f.pc.shown = none) (hpc : pc.desc = none) :
    DescInv scans ((w.setDesc t none).goto n f pc) owner carrier where
  frame m g t' hg ht' := by
    have hm : m ≠ n := by
      rintro rfl
      obtain rfl : { f with pc := pc } = g := by simpa [World.goto] using hg
      rw [hpc] at ht'
      cases ht'
    have hg' : w.calls m = some g := by simpa [World.goto, World.setDesc, hm] using hg
    have hne : t' ≠ t := by
      rintro rfl
      exact hm (h.call_unique hf ht hg' ht')
    obtain ⟨ho, d', hd', hrest⟩ := h.frame m g t' hg' ht'
    exact ⟨ho, d', by simpa [World.setDesc, World.goto, hne] using hd', hrest⟩
  entry a i t' he := by
    have hseen : w.Seen scans a i t' := he.of_goto rfl (Pc.visits_of_desc hpc) id
    obtain ⟨ho, d', hd', hc⟩ := h.entry a i t' hseen
    have hne : t' ≠ t := by
      rintro rfl
      exact h.unseen hf ht hshown a i hseen
    refine ⟨ho.imp_right ?_, d', by simpa [World.setDesc, World.goto, hne] using hd', hc⟩
    rintro ⟨m, g, hg, hd, hs⟩
    have hm : m ≠ n := by
      rintro rfl
      obtain rfl : f = g := Option.some.inj (hf.symm.trans hg)
      exact hne (Option.some.inj (hd.symm.trans ht))
    exact ⟨m, g, by simpa [World.goto, World.setDesc, hm] using hg, hd, hs⟩
  held := h.held
  held_lt := h.held_lt
  glSa_nodup := h.glSa_nodup
  glSa := h.glSa
  fresh := h.fresh
  calls m hm := by
    have hmn : m ≠ n := by
      rintro rfl
      rw [h.calls m hm] at hf
      cases hf
    simpa [World.goto, World.setDesc, hmn] using h.calls m hm

/-- A call shows its descriptor in a table. -/
theorem publish (h : DescInv scans w owner carrier) (hf : w.calls n = some f) (ht : f.pc.desc = some t)
    (hshown : f.pc.shown = none) {a : AllocPtr} {id : Nat} (hdesc : pc.desc = some t)
    (hpc : pc.shown = some (a, id)) {d : ThreadDesc} (hd : w.descs t = some d)
    (hcarrier : carrier d.pagelist = some t) (hcargo : ∀ pl, pc.cargo d = some pl → d.pagelist = pl)
    (hstack : ∀ pl, pc.stack = some pl → d.pagelist = pl) :
    DescInv scans ((w.setThreads a ((w.threads a).set id (.entry t))).goto n f pc) owner carrier where
  frame m g t' hg ht' := by
    rcases update_eq_some hg with ⟨rfl, hg'⟩ | ⟨-, hg⟩
    · obtain rfl : { f with pc := pc } = g := Option.some.inj hg'
      obtain rfl : t = t' := Option.some.inj (hdesc.symm.trans ht')
      exact ⟨(h.frame m f t hf ht).1, d, hd, fun pl hpl ↦ hcargo pl hpl ▸ hcarrier, hstack⟩
    · exact h.frame m g t' hg ht'
  entry b j t' he := by
    by_cases hslot : b = a ∧ j = id ∧ t' = t
    · obtain ⟨rfl, rfl, rfl⟩ := hslot
      exact ⟨.inr ⟨n, { f with pc := pc }, by simp [World.goto], hdesc, hpc⟩, d, hd, hcarrier⟩
    · have he' : w.Seen scans b j t' := by
        refine he.of_goto rfl (Pc.visits_of_shown hpc) fun hs ↦ ?_
        by_cases hb : b = a
        · subst hb
          have hs : ((w.threads b).set id (.entry t)).slot j = some (.entry t') := by
            simpa [World.goto, World.setThreads] using hs
          rw [Xarray.slot_set] at hs
          split at hs
          · next hj => exact absurd ⟨rfl, hj, (Slot.entry.inj (Option.some.inj hs)).symm⟩ hslot
          · exact hs
        · simpa [World.goto, World.setThreads, hb] using hs
      refine ⟨(h.entry b j t' he').1.imp_right ?_, (h.entry b j t' he').2⟩
      rintro ⟨m, g, hg, hd', hs⟩
      have hm : m ≠ n := by
        rintro rfl
        obtain rfl : f = g := Option.some.inj (hf.symm.trans hg)
        rw [hshown] at hs
        cases hs
      exact ⟨m, g, by simpa [World.goto, World.setThreads, hm] using hg, hd', hs⟩
  held := h.held
  held_lt := h.held_lt
  glSa_nodup := h.glSa_nodup
  glSa := h.glSa
  fresh := h.fresh
  calls m hm := by
    have hmn : m ≠ n := by
      rintro rfl
      rw [h.calls m hm] at hf
      cases hf
    simpa [World.goto, World.setThreads, hmn] using h.calls m hm

/-- `gl_alloc_stack` hands out a pagelist that nobody has. -/
theorem glAllocStack (h : DescInv scans w owner carrier) {ok : Bool} {pl : PlPtr} (t : Nat)
    (hs : w.glAllocStack ok = some (pl, w')) :
    DescInv scans w' owner (Function.update carrier pl (some t)) ∧ w'.calls = w.calls ∧
      w'.descs = w.descs ∧ w'.threads = w.threads := by
  have hfresh : pl ∉ w.held ∧ w'.calls = w.calls ∧ w'.descs = w.descs ∧ w'.threads = w.threads ∧
      w'.held = insert pl w.held ∧ pl < w'.nextPl ∧ w.nextPl ≤ w'.nextPl ∧ w'.glSa.Nodup ∧
      (∀ q ∈ w'.glSa, q ∈ w.glSa ∧ q ≠ pl) ∧ w'.nextDesc = w.nextDesc ∧ w'.nextCall = w.nextCall := by
    unfold World.glAllocStack at hs
    split at hs
    · next q rest hgl =>
        obtain ⟨rfl, rfl⟩ := Prod.mk.inj (Option.some.inj hs)
        have hnd := h.glSa_nodup
        rw [hgl, List.nodup_cons] at hnd
        have hmem : q ∈ w.glSa := by rw [hgl]; exact List.mem_cons_self
        refine ⟨(h.glSa q hmem).1, rfl, rfl, rfl, rfl, (h.glSa q hmem).2, le_rfl, hnd.2, ?_, rfl, rfl⟩
        intro r hr
        refine ⟨by rw [hgl]; exact List.mem_cons_of_mem _ hr, ?_⟩
        rintro rfl
        exact hnd.1 hr
    · next hgl =>
        split_ifs at hs
        obtain ⟨rfl, rfl⟩ := Prod.mk.inj (Option.some.inj hs)
        refine ⟨fun hc ↦ lt_irrefl _ (h.held_lt _ hc), rfl, rfl, rfl, rfl, Nat.lt_succ_self _,
          Nat.le_succ _, h.glSa_nodup, ?_, rfl, rfl⟩
        intro r hr
        have hr' : r ∈ w.glSa := hr
        rw [hgl] at hr'
        cases hr'
  obtain ⟨hnew, hcalls, hdescs, hthreads, hheld, hlt, hle, hnd, hsub, hnext, hcall⟩ := hfresh
  have hkeep : ∀ q t', carrier q = some t' → Function.update carrier pl (some t) q = some t' := by
    intro q t' hq
    have hne : q ≠ pl := by
      rintro rfl
      exact hnew (h.held q t' hq)
    rw [Function.update_of_ne hne, hq]
  refine ⟨?_, hcalls, hdescs, hthreads⟩
  constructor
  · intro n f t' hf ht'
    rw [hcalls] at hf
    rw [hdescs]
    obtain ⟨ho, d, hd, hc, hst⟩ := h.frame n f t' hf ht'
    exact ⟨ho, d, hd, fun q hq ↦ hkeep q t' (hc q hq), hst⟩
  · intro a i t' he
    rw [World.Seen, hthreads, hcalls] at he
    rw [hcalls, hdescs]
    obtain ⟨ho, d, hd, hc⟩ := h.entry a i t' he
    exact ⟨ho, d, hd, hkeep _ _ hc⟩
  · intro q t' hq
    rw [hheld, Finset.mem_insert]
    by_cases hne : q = pl
    · exact .inl hne
    · rw [Function.update_of_ne hne] at hq
      exact .inr (h.held q t' hq)
  · intro q hq
    rw [hheld, Finset.mem_insert] at hq
    rcases hq with rfl | hq
    · exact hlt
    · exact lt_of_lt_of_le (h.held_lt q hq) hle
  · exact hnd
  · intro q hq
    obtain ⟨hmem, hne⟩ := hsub q hq
    rw [hheld, Finset.mem_insert, not_or]
    exact ⟨⟨hne, (h.glSa q hmem).1⟩, lt_of_lt_of_le (h.glSa q hmem).2 hle⟩
  · rw [hnext]
    exact h.fresh
  · rw [hcalls, hcall]
    exact h.calls

/-- `gl_free` of the pagelist of a descriptor that is in no table. -/
theorem glFree (h : DescInv scans w owner carrier) (hf : w.calls n = some f) (ht : f.pc.desc = some t)
    (hshown : f.pc.shown = none) {pl : PlPtr} (hpl : carrier pl = some t) (hdesc : pc.desc = some t)
    (hcargo : ∀ d, pc.cargo d = none) (hstack : pc.stack = none) :
    DescInv scans ((w.glFree pl).goto n f pc) owner (Function.update carrier pl none) := by
  have hstate : (w.glFree pl).calls = w.calls ∧ (w.glFree pl).descs = w.descs ∧
      (w.glFree pl).threads = w.threads ∧ (w.glFree pl).held = w.held.erase pl ∧
      (w.glFree pl).nextPl = w.nextPl ∧ (w.glFree pl).nextDesc = w.nextDesc ∧
      (w.glFree pl).nextCall = w.nextCall ∧
      ((w.glFree pl).glSa = w.glSa ∨ (w.glFree pl).glSa = pl :: w.glSa) := by
    unfold World.glFree
    split
    · exact ⟨rfl, rfl, rfl, rfl, rfl, rfl, rfl, .inl rfl⟩
    · exact ⟨rfl, rfl, rfl, rfl, rfl, rfl, rfl, .inr rfl⟩
  obtain ⟨v, hv⟩ : ∃ v, w.glFree pl = v := ⟨_, rfl⟩
  rw [hv] at hstate ⊢
  obtain ⟨hcalls, hdescs, hthreads, hheld, hnextPl, hnext, hcall, hgl⟩ := hstate
  have hmem := h.held pl t hpl
  have hkeep : ∀ q t', t' ≠ t → carrier q = some t' → Function.update carrier pl none q = some t' := by
    intro q t' hne hq
    have : q ≠ pl := by
      rintro rfl
      exact hne (Option.some.inj (hq.symm.trans hpl))
    rw [Function.update_of_ne this, hq]
  constructor
  · intro m g t' hg ht'
    rcases update_eq_some hg with ⟨rfl, hg'⟩ | ⟨hm, hg⟩
    · obtain rfl : { f with pc := pc } = g := Option.some.inj hg'
      obtain rfl : t = t' := Option.some.inj (hdesc.symm.trans ht')
      obtain ⟨ho, d, hd, -⟩ := h.frame m f t hf ht
      refine ⟨ho, d, by rw [← hd, ← hdescs]; rfl, fun q hq ↦ ?_, fun q hq ↦ ?_⟩
      · rw [hcargo] at hq
        cases hq
      · rw [hstack] at hq
        cases hq
    · have hg' : w.calls m = some g := by
        rw [← hcalls]
        exact hg
      have hne : t' ≠ t := by
        rintro rfl
        exact hm (h.call_unique hf ht hg' ht')
      obtain ⟨ho, d, hd, hc, hst⟩ := h.frame m g t' hg' ht'
      exact ⟨ho, d, by rw [← hd, ← hdescs]; rfl, fun q hq ↦ hkeep q t' hne (hc q hq), hst⟩
  · intro a i t' he
    have he' : w.Seen scans a i t' := by
      refine he.of_goto (congrArg (Function.update · n _) hcalls) (Pc.visits_of_cargo (hcargo ⟨0, 0, 0⟩))
        fun hs ↦ ?_
      rw [← hthreads]
      exact hs
    have hne : t' ≠ t := by
      rintro rfl
      exact h.unseen hf ht hshown a i he'
    obtain ⟨ho, d, hd, hc⟩ := h.entry a i t' he'
    refine ⟨ho.imp_right ?_, d, by rw [← hd, ← hdescs]; rfl, hkeep _ _ hne hc⟩
    rintro ⟨m, g, hg, hd', hs⟩
    have hm : m ≠ n := by
      rintro rfl
      obtain rfl : f = g := Option.some.inj (hf.symm.trans hg)
      exact hne (Option.some.inj (hd'.symm.trans ht))
    exact ⟨m, g, by simpa [World.goto, hcalls, hm] using hg, hd', hs⟩
  · intro q t' hq
    change q ∈ v.held
    have hne : q ≠ pl := by
      rintro rfl
      rw [Function.update_self] at hq
      cases hq
    rw [Function.update_of_ne hne] at hq
    rw [hheld]
    exact Finset.mem_erase.mpr ⟨hne, h.held q t' hq⟩
  · intro q hq
    have hq' : q ∈ w.held.erase pl := by
      rw [← hheld]
      exact hq
    change q < v.nextPl
    rw [hnextPl]
    exact h.held_lt q (Finset.mem_of_mem_erase hq')
  · change v.glSa.Nodup
    rcases hgl with hgl | hgl
    · rw [hgl]
      exact h.glSa_nodup
    · rw [hgl]
      exact List.nodup_cons.mpr ⟨fun hc ↦ (h.glSa pl hc).1 hmem, h.glSa_nodup⟩
  · intro q hq
    change q ∉ v.held ∧ q < v.nextPl
    rw [hheld, hnextPl]
    have hq' : q ∈ v.glSa := hq
    rcases hgl with hgl | hgl
    · rw [hgl] at hq'
      exact ⟨fun hc ↦ (h.glSa q hq').1 (Finset.mem_of_mem_erase hc), (h.glSa q hq').2⟩
    · rw [hgl] at hq'
      rcases List.mem_cons.mp hq' with rfl | hq'
      · exact ⟨Finset.notMem_erase _ _, h.held_lt _ hmem⟩
      · exact ⟨fun hc ↦ (h.glSa q hq').1 (Finset.mem_of_mem_erase hc), (h.glSa q hq').2⟩
  · intro t' ht'
    exact h.fresh t' (hnext ▸ ht')
  · intro m hm
    have hm' : w.nextCall ≤ m := hcall ▸ hm
    have hmn : m ≠ n := by
      rintro rfl
      rw [h.calls m hm'] at hf
      cases hf
    simpa [World.goto, hcalls, hmn] using h.calls m hm'

theorem setKref (h : DescInv scans w owner carrier) (a : AllocPtr) (k : Nat) :
    DescInv scans (w.setKref a k) owner carrier :=
  h.shrink rfl rfl (fun _ _ _ he ↦ he) rfl rfl rfl rfl rfl

theorem raiseMax (h : DescInv scans w owner carrier) (a : AllocPtr) (id : Nat) :
    DescInv scans (w.raiseMax a id) owner carrier :=
  h.shrink rfl rfl (fun _ _ _ he ↦ he) rfl rfl rfl rfl rfl

/-- A table in which a slot has been emptied or reserved. -/
theorem setThreads (h : DescInv scans w owner carrier) {a : AllocPtr} {x : Xarray Nat}
    (hx : ∀ i t, x.slot i = some (.entry t) → (w.threads a).slot i = some (.entry t)) :
    DescInv scans (w.setThreads a x) owner carrier := by
  refine h.shrink rfl rfl (fun b i t he ↦ ?_) rfl rfl rfl rfl rfl
  by_cases hb : b = a
  · subst hb
    exact hx i t (by simpa [World.setThreads] using he)
  · simpa [World.setThreads, hb] using he

theorem erase (h : DescInv scans w owner carrier) (a : AllocPtr) (id : Nat) :
    DescInv scans (w.setThreads a ((w.threads a).erase id)) owner carrier := by
  refine h.setThreads fun i t he ↦ ?_
  rw [Xarray.slot_erase] at he
  split at he
  · cases he
  · exact he

theorem enter (h : DescInv scans w owner carrier) (pid tgid : Nat) (entry : Entry) :
    DescInv scans { w with
      calls := Function.update w.calls w.nextCall (some ⟨pid, tgid, entry.pc⟩)
      nextCall := w.nextCall + 1
      destroyed := w.destroyed ∪ entry.destroys } owner carrier := by
  have hold : ∀ m g, w.calls m = some g → m ≠ w.nextCall := by
    rintro m g hg rfl
    rw [h.calls _ le_rfl] at hg
    cases hg
  constructor
  · intro m g t hg ht
    rcases update_eq_some hg with ⟨-, hg⟩ | ⟨-, hg⟩
    · obtain rfl : (⟨pid, tgid, entry.pc⟩ : Frame) = g := Option.some.inj hg
      cases entry <;> simp [Entry.pc, Pc.desc] at ht
    · exact h.frame m g t hg ht
  · intro a i t he
    have he : w.Seen scans a i t := by
      refine he.of_update rfl id fun _ g hg hv ↦ ?_
      obtain rfl := Option.some.inj hg
      cases entry <;> cases hv
    refine ⟨(h.entry a i t he).1.imp_right ?_, (h.entry a i t he).2⟩
    rintro ⟨m, g, hg, hrest⟩
    exact ⟨m, g, by simpa [hold m g hg] using hg, hrest⟩
  · exact h.held
  · exact h.held_lt
  · exact h.glSa_nodup
  · exact h.glSa
  · exact h.fresh
  · intro m hm
    have hm' : w.nextCall + 1 ≤ m := hm
    have hne : m ≠ w.nextCall := by omega
    simpa [hne] using h.calls m (by omega)

/-! ## One step of a call -/

theorem stepAlloc (h : DescInv scans w owner carrier) {ans : Answer} (hf : w.calls n = some f) :
    ∃ owner' carrier', DescInv scans (Conc.stepAlloc w n f ans f.pc) owner' carrier' := by
  obtain ⟨pid, tgid, pc⟩ := f
  cases pc with
  | allocFind =>
      refine ⟨owner, carrier, ?_⟩
      simp only [Conc.stepAlloc]
      split
      · exact h.finish hf rfl
      · exact h.goto_none hf rfl rfl
  | allocGet a =>
      refine ⟨owner, carrier, ?_⟩
      simp only [Conc.stepAlloc]
      split
      · exact h.finish hf rfl
      · exact (h.setKref a _).goto_none hf rfl rfl
  | allocReserve a =>
      refine ⟨owner, carrier, ?_⟩
      simp only [Conc.stepAlloc]
      split
      · exact h.goto_none hf rfl rfl
      · next id hid =>
          split
          · refine (h.setThreads fun i t he ↦ ?_).goto_none hf rfl rfl
            rw [Xarray.slot_set] at he
            split at he
            · cases he
            · exact he
          · exact h.goto_none hf rfl rfl
  | allocThread a id =>
      simp only [Conc.stepAlloc]
      split
      · exact ⟨_, carrier, h.kmalloc hf rfl rfl (fun _ ↦ rfl) rfl⟩
      · exact ⟨owner, carrier, h.goto_none hf rfl rfl⟩
  | allocStack a id t =>
      simp only [Conc.stepAlloc]
      split
      · exact ⟨owner, carrier, h.goto_same hf rfl rfl rfl (fun d pl hpl ↦ by cases hpl)
          fun pl hpl ↦ by cases hpl⟩
      · next pl w' hs =>
          obtain ⟨h', hcalls, hdescs, hthreads⟩ := h.glAllocStack t hs
          have hf' : w'.calls n = some ⟨pid, tgid, .allocStack a id t⟩ := by rw [hcalls, hf]
          have hset := h'.setDesc hf' rfl rfl (d := ⟨pid, idToAddr id, pl⟩) fun q hq ↦ by cases hq
          refine ⟨owner, Function.update carrier pl (some t), ?_⟩
          refine hset.goto hf' rfl (fun _ _ _ _ hv ↦ by cases hv) (fun b i t' ht' he ↦ ?_) fun t' d ht' hd ↦ ?_
          · exact absurd he (h'.unseen hf' ht' rfl b i)
          · obtain rfl : t = t' := Option.some.inj ht'
            obtain rfl : (⟨pid, idToAddr id, pl⟩ : ThreadDesc) = d := by
              simpa [World.setDesc] using hd
            refine ⟨fun q hq ↦ ?_, fun q hq ↦ by cases hq⟩
            rw [← Option.some.inj hq, Function.update_self]
  | allocMap a id t =>
      refine ⟨owner, carrier, ?_⟩
      simp only [Conc.stepAlloc]
      split
      · exact h.goto_same hf rfl rfl rfl (fun d pl hpl ↦ .inl hpl) fun pl hpl ↦ by cases hpl
      · exact h.goto_same hf rfl rfl rfl (fun d pl hpl ↦ .inl hpl) fun pl hpl ↦ by cases hpl
  | allocMax a id t =>
      refine ⟨owner, carrier, ?_⟩
      exact (h.raiseMax a id).goto_same hf rfl rfl rfl (fun d pl hpl ↦ .inl hpl) fun pl hpl ↦ by cases hpl
  | allocStore a id t =>
      refine ⟨owner, carrier, ?_⟩
      obtain ⟨-, d, hd, hc, -⟩ := h.frame n _ t hf rfl
      simp only [Conc.stepAlloc]
      split
      · exact h.publish hf rfl rfl rfl rfl hd (hc _ rfl) (fun pl hpl ↦ Option.some.inj hpl)
          fun pl hpl ↦ by cases hpl
      · refine h.goto hf rfl (fun _ _ _ _ hv ↦ by cases hv) (fun b i t' ht' he ↦ ?_) fun t' d' ht' hd' ↦ ?_
        · exact absurd he (h.unseen hf ht' rfl b i)
        · obtain rfl : t = t' := Option.some.inj ht'
          obtain rfl : d = d' := Option.some.inj (hd.symm.trans hd')
          exact ⟨hc, fun pl hpl ↦ by cases hpl⟩
  | allocRead a id t =>
      refine ⟨Function.update owner t (.slot a id), carrier, ?_⟩
      exact (h.settle hf rfl rfl).shrink rfl rfl (fun _ _ _ he ↦ he) rfl rfl rfl rfl rfl
  | allocGlFree a id t =>
      obtain ⟨-, d, hd, hc, -⟩ := h.frame n _ t hf rfl
      have hpl : w.pagelist t ans.stale = d.pagelist := by rw [World.pagelist, hd]
      refine ⟨owner, Function.update carrier d.pagelist none, ?_⟩
      simp only [Conc.stepAlloc, hpl]
      exact h.glFree hf rfl rfl (hc _ rfl) rfl (fun _ ↦ rfl) rfl
  | allocKfree a id t => exact ⟨owner, carrier, h.kfree hf rfl rfl rfl⟩
  | allocErase a id => exact ⟨owner, carrier, (h.erase a id).goto_none hf rfl rfl⟩
  | _ => exact ⟨owner, carrier, h⟩

/-- A step of the scan: what it comes to is in the table, and what it stays at it has seen before. -/
theorem scan (h : DescInv scans w owner carrier) {pid tgid : Nat} {a parent : AllocPtr} {pp stale : Nat}
    {pl : PlPtr} {s : Scan} (hf : w.calls n = some ⟨pid, tgid, .forkScan a parent pp t pl s⟩) :
    DescInv scans (w.goto n ⟨pid, tgid, .forkScan a parent pp t pl s⟩ (w.scan a parent pp t pl stale s))
      owner carrier := by
  have hvisits : scans → ∀ b i t', (w.scan a parent pp t pl stale s).visits = some (b, i, t') →
      w.Seen scans b i t' := by
    intro hs b i t' hv
    cases s with
    | lock => cases hv
    | next i₀ =>
        simp only [World.scan] at hv
        split at hv
        · cases hv
        · next j t₀ hnext =>
            obtain ⟨rfl, hit⟩ := Prod.mk.inj (Option.some.inj hv)
            obtain ⟨rfl, rfl⟩ := Prod.mk.inj hit
            exact .inl (Xarray.load_eq_some.mp (Xarray.next_eq_some hnext).2.1)
    | tid i₀ t₀ =>
        simp only [World.scan] at hv
        split_ifs at hv
        · exact .inr ⟨hs, n, _, hf, hv⟩
        · cases hv
    | copy i₀ t₀ k =>
        simp only [World.scan] at hv
        split_ifs at hv
        · exact .inr ⟨hs, n, _, hf, hv⟩
        · cases hv
    | unlock found => cases found <;> cases hv
  obtain ⟨hdesc, hshown, hcargo, hstack⟩ : (w.scan a parent pp t pl stale s).desc = some t ∧
      (w.scan a parent pp t pl stale s).shown = none ∧
      (∀ d, (w.scan a parent pp t pl stale s).cargo d = some pl) ∧
      (w.scan a parent pp t pl stale s).stack = none := by
    obtain ⟨s', heq⟩ | heq | ⟨id, heq⟩ := w.scan_cases a parent pp t pl stale s
    all_goals
      rw [heq]
      exact ⟨rfl, rfl, fun _ ↦ rfl, rfl⟩
  refine h.goto hf hdesc hvisits (fun b i t' ht' he ↦ absurd he (h.unseen hf ht' rfl b i)) fun t' d ht' hd ↦ ?_
  obtain ⟨-, d', -, hc, -⟩ := h.frame n _ t' hf ht'
  refine ⟨fun q hq ↦ hc q ?_, fun q hq ↦ ?_⟩
  · rw [hcargo] at hq
    exact hq
  · rw [hstack] at hq
    cases hq

theorem stepFork (h : DescInv scans w owner carrier) {ans : Answer} (hf : w.calls n = some f)
    (hunvisited : scans → Unvisited w (.step n ans)) :
    ∃ owner' carrier', DescInv scans (Conc.stepFork w n f ans f.pc) owner' carrier' := by
  obtain ⟨pid, tgid, pc⟩ := f
  cases pc with
  | forkFind pt pp =>
      refine ⟨owner, carrier, ?_⟩
      simp only [Conc.stepFork]
      split
      · exact h.finish hf rfl
      · exact h.goto_none hf rfl rfl
  | forkGet a pt pp =>
      refine ⟨owner, carrier, ?_⟩
      simp only [Conc.stepFork]
      split
      · exact h.finish hf rfl
      · exact (h.setKref a _).goto_none hf rfl rfl
  | forkParent a pt pp =>
      refine ⟨owner, carrier, ?_⟩
      simp only [Conc.stepFork]
      split
      · exact h.goto_none hf rfl rfl
      · exact h.goto_none hf rfl rfl
  | forkThread a parent pp =>
      simp only [Conc.stepFork]
      split
      · exact ⟨_, carrier, h.kmalloc hf rfl rfl (fun _ ↦ rfl) rfl⟩
      · exact ⟨owner, carrier, h.goto_none hf rfl rfl⟩
  | forkStack a parent pp t =>
      simp only [Conc.stepFork]
      split
      · exact ⟨owner, carrier, h.goto_same hf rfl rfl rfl (fun d pl hpl ↦ by cases hpl)
          fun pl hpl ↦ by cases hpl⟩
      · next pl w' hs =>
          obtain ⟨h', hcalls, -, -⟩ := h.glAllocStack t hs
          have hf' : w'.calls n = some ⟨pid, tgid, .forkStack a parent pp t⟩ := by rw [hcalls, hf]
          refine ⟨owner, Function.update carrier pl (some t), ?_⟩
          refine h'.goto_same hf' rfl rfl rfl (fun d q hq ↦ .inr ⟨t, rfl, ?_⟩) fun q hq ↦ by cases hq
          rw [← Option.some.inj hq, Function.update_self]
  | forkScan a parent pp t pl s => exact ⟨owner, carrier, h.scan hf⟩
  | forkInsert a id t pl =>
      refine ⟨owner, carrier, ?_⟩
      obtain ⟨-, d, -, hc, -⟩ := h.frame n _ t hf rfl
      have hcarrier : carrier pl = some t := hc pl rfl
      have hset := h.setDesc hf rfl rfl (d := ⟨pid, idToAddr id, pl⟩) fun q hq ↦ by
        rw [← Option.some.inj hq, hcarrier]
      simp only [Conc.stepFork]
      split
      · exact hset.publish hf rfl rfl rfl rfl (Function.update_self ..) hcarrier
          (fun q hq ↦ Option.some.inj hq) fun q hq ↦ Option.some.inj hq
      · exact hset.goto_same hf rfl rfl rfl (fun d q hq ↦ .inl hq) fun q hq ↦ by cases hq
  | forkMap a id t pl =>
      refine ⟨owner, carrier, ?_⟩
      simp only [Conc.stepFork]
      split
      · refine h.goto hf rfl (fun _ _ _ _ hv ↦ by cases hv) (fun b i t' ht' he ↦ h.shown_of_seen hf ht' he)
          fun t' d ht' hd ↦ ?_
        obtain ⟨-, d', hd', hc, hst⟩ := h.frame n _ t' hf ht'
        obtain rfl : d = d' := Option.some.inj (hd.symm.trans hd')
        refine ⟨fun q hq ↦ hc q ?_, fun q hq ↦ by cases hq⟩
        rw [← Option.some.inj hq, hst pl rfl]
        rfl
      · exact h.goto_same hf rfl rfl rfl (fun d q hq ↦ .inl hq) fun q hq ↦ hq
  | forkMax a id t =>
      exact ⟨Function.update owner t (.slot a id), carrier, (h.raiseMax a id).settle hf rfl rfl⟩
  | forkErase a id t pl =>
      refine ⟨owner, carrier, (h.erase a id).goto hf rfl (fun _ _ _ _ hv ↦ by cases hv)
        (fun b i t' ht' he ↦ ?_) fun t' d ht' hd ↦ ?_⟩
      · obtain rfl : t = t' := Option.some.inj ht'
        have hshown := (h.erase a id).shown_of_seen hf rfl he
        obtain ⟨rfl, rfl⟩ := Prod.mk.inj (Option.some.inj hshown)
        rcases he with hs | ⟨hs, m, g, hg, hv⟩
        · -- the slot the descriptor was shown in is empty now
          simp [World.setThreads] at hs
        · exact absurd hv (hunvisited hs _ a id t pl hf rfl m g a id hg)
      · obtain ⟨-, d', hd', hc, -⟩ := h.frame n _ t' hf ht'
        exact ⟨fun q hq ↦ hc q hq, fun q hq ↦ by cases hq⟩
  | forkGlFree a t pl =>
      obtain ⟨-, d, -, hc, -⟩ := h.frame n _ t hf rfl
      exact ⟨owner, Function.update carrier pl none,
        h.glFree hf rfl rfl (hc pl rfl) rfl (fun _ ↦ rfl) rfl⟩
  | forkKfree a t => exact ⟨owner, carrier, h.kfree hf rfl rfl rfl⟩
  | _ => exact ⟨owner, carrier, h⟩

theorem stepFree (h : DescInv scans w owner carrier) {ans : Answer} (hf : w.calls n = some f)
    (hundisturbed : Undisturbed w (.step n ans)) :
    ∃ owner' carrier', DescInv scans (Conc.stepFree w n f ans f.pc) owner' carrier' := by
  obtain ⟨pid, tgid, pc⟩ := f
  cases pc with
  | freeFind addr =>
      refine ⟨owner, carrier, ?_⟩
      simp only [Conc.stepFree]
      split
      · exact h.finish hf rfl
      · split
        · exact h.finish hf rfl
        · exact h.goto_none hf rfl rfl
  | freeErase a id =>
      simp only [Conc.stepFree]
      split_ifs with hlock
      · exact ⟨owner, carrier, h.goto_none hf rfl rfl⟩
      · split
        · exact ⟨owner, carrier, (h.erase a id).finish hf rfl⟩
        · next t hload =>
            have he := Xarray.load_eq_some.mp hload
            refine ⟨Function.update owner t (.call n), carrier, ?_⟩
            exact (h.take hf rfl he (hundisturbed _ a id t hf rfl hload) hlock).shrink rfl rfl
              (fun _ _ _ he ↦ he) rfl rfl rfl rfl rfl
  | freeUnmap a t =>
      exact ⟨owner, carrier, h.goto_same hf rfl rfl rfl (fun d pl hpl ↦ .inl hpl) fun pl hpl ↦ by cases hpl⟩
  | freeGlFree a t =>
      obtain ⟨-, d, hd, hc, -⟩ := h.frame n _ t hf rfl
      have hpl : w.pagelist t ans.stale = d.pagelist := by rw [World.pagelist, hd]
      refine ⟨owner, Function.update carrier d.pagelist none, ?_⟩
      simp only [Conc.stepFree, hpl]
      exact h.glFree hf rfl rfl (hc _ rfl) rfl (fun _ ↦ rfl) rfl
  | freeKfree a t => exact ⟨owner, carrier, h.kfree hf rfl rfl rfl⟩
  | destroyErase a =>
      exact ⟨owner, carrier, (h.goto_none hf rfl rfl).shrink rfl rfl (fun _ _ _ he ↦ he) rfl rfl rfl rfl rfl⟩
  | put a =>
      refine ⟨owner, carrier, ?_⟩
      simp only [Conc.stepFree]
      split
      · exact (h.setKref a 0).goto_none hf rfl rfl
      · exact (h.setKref a _).finish hf rfl
  | callback a =>
      exact ⟨owner, carrier, (h.finish hf rfl).shrink rfl rfl (fun _ _ _ he ↦ he) rfl rfl rfl rfl rfl⟩
  | _ => exact ⟨owner, carrier, h⟩

/-- **One step keeps everyone responsible for what is theirs.** -/
theorem next (h : DescInv scans w owner carrier) {e : Event} (hundisturbed : Undisturbed w e)
    (hunvisited : scans → Unvisited w e) (hs : Next w e w') :
    ∃ owner' carrier', DescInv scans w' owner' carrier' := by
  unfold Next at hs
  cases e with
  | create tgid =>
      simp only [Conc.next] at hs
      split_ifs at hs
      obtain rfl := Option.some.inj hs
      refine ⟨owner, carrier, h.shrink rfl rfl (fun a i t he ↦ ?_) rfl rfl rfl rfl rfl⟩
      by_cases ha : a = w.nextAlloc
      · simp [ha] at he
      · simpa [ha] using he
  | enter pid tgid entry =>
      obtain rfl := Option.some.inj hs
      exact ⟨owner, carrier, h.enter pid tgid entry⟩
  | step n ans =>
      obtain ⟨f, hf, rfl⟩ := Option.map_eq_some_iff.mp hs
      unfold stepCall
      split
      all_goals first
        | exact h.stepAlloc hf
        | exact h.stepFork hf hunvisited
        | exact h.stepFree hf hundisturbed

theorem sound (h : DescInv True w owner carrier) : Sound w := by
  have hown : ∀ n f t, w.calls n = some f → f.pc.desc = some t → (w.descs t).isSome := by
    intro n f t hf ht
    obtain ⟨-, d, hd, -⟩ := h.frame n f t hf ht
    rw [hd]
    rfl
  have hcargo : ∀ n f t d pl, w.calls n = some f → f.pc.desc = some t → w.descs t = some d →
      f.pc.cargo d = some pl → pl ∈ w.held := by
    intro n f t d pl hf ht hd hpl
    obtain ⟨-, d', hd', hc, -⟩ := h.frame n f t hf ht
    obtain rfl : d = d' := Option.some.inj (hd.symm.trans hd')
    exact h.held pl t (hc pl hpl)
  have hvisit : ∀ n f a i t, w.calls n = some f → f.pc.visits = some (a, i, t) →
      ∃ d, w.descs t = some d ∧ d.pagelist ∈ w.held := by
    intro n f a i t hf hv
    obtain ⟨-, d, hd, hc⟩ := h.entry a i t (.inr ⟨trivial, n, f, hf, hv⟩)
    exact ⟨d, hd, h.held _ t hc⟩
  constructor
  · rintro n ⟨pid, tgid, pc⟩ t hf hr
    cases pc <;> try exact hr.elim
    case forkScan a parent pp t₀ pl s =>
      cases s <;> try exact hr.elim
      all_goals
        obtain rfl := hr
        obtain ⟨d, hd, -⟩ := hvisit n _ parent _ t hf rfl
        rw [hd]
        rfl
    all_goals exact hown n _ t hf (congrArg some hr.symm)
  · rintro n ⟨pid, tgid, pc⟩ t hf hk
    cases pc <;> try exact hk.elim
    all_goals exact hown n _ t hf (congrArg some hk.symm)
  · rintro n ⟨pid, tgid, pc⟩ pl hf hm
    cases pc <;> try exact hm.elim
    case allocMap a id t =>
      obtain ⟨d, hd, rfl⟩ := hm
      exact hcargo n _ t d _ hf rfl hd rfl
    case forkMap a id t pl' =>
      obtain ⟨d, hd, rfl⟩ := hm
      obtain ⟨-, d', hd', -, hst⟩ := h.frame n _ t hf rfl
      obtain rfl : d = d' := Option.some.inj (hd.symm.trans hd')
      exact hcargo n _ t d _ hf rfl hd (congrArg some (hst pl' rfl).symm)
  · rintro n ⟨pid, tgid, pc⟩ pl hf hp
    cases pc <;> try exact hp.elim
    case forkScan a parent pp t₀ pl' s =>
      cases s <;> try exact hp.elim
      case copy i t k =>
        rcases hp with rfl | ⟨d, hd, rfl⟩
        · obtain ⟨-, d, hd, -⟩ := h.frame n _ t₀ hf rfl
          exact hcargo n _ t₀ d _ hf rfl hd rfl
        · obtain ⟨d', hd', hheld⟩ := hvisit n _ parent i t hf rfl
          obtain rfl : d = d' := Option.some.inj (hd.symm.trans hd')
          exact hheld
  · rintro n ⟨pid, tgid, pc⟩ pl hf hg
    cases pc <;> try exact hg.elim
    case forkGlFree a t pl' =>
      obtain ⟨-, d, hd, -⟩ := h.frame n _ t hf rfl
      exact hcargo n _ t d _ hf rfl hd (congrArg some hg.symm)
    all_goals
      obtain ⟨d, hd, rfl⟩ := hg
      exact hcargo n _ _ d _ hf rfl hd rfl

end DescInv

/-- **No call uses what another has given up.**  In every run in which `sa_free` leaves alone the
descriptors that other calls are working on, and an `sa_fork` that fails those that a scan is at, nothing is
mapped, read, copied or given up after it has been given up. -/
theorem run_sound {es : List Event} (h : Run (Guarded Considerate Next) .init es w) : Sound w := by
  have hinv := h.invariant (I := fun w ↦ ∃ owner carrier, DescInv True w owner carrier)
    ⟨_, _, .init⟩ fun _ _ _ ⟨_, _, hd⟩ hs ↦ hd.next hs.1.1 (fun _ ↦ hs.1.2) hs.2
  obtain ⟨owner, carrier, hd⟩ := hinv
  exact hd.sound

/-! ## Some runs -/

/-- A request that is granted. -/
def granted : Answer := ⟨true, 0⟩

/-- A call does `k` steps, with all its requests granted. -/
def steps (n k : Nat) : List Event := List.replicate k (.step n granted)

/-- `sa_alloc` by thread 10 of process 1, up to its return. -/
def firstAlloc : List Event := [.create 1, .enter 10 1 .saAlloc] ++ steps 0 9

/-- The event is the step in which `sa_free` empties a slot, -/
def Event.frees (w : World) : Event → Bool
  | .step n _ =>
      match w.calls n with
      | some ⟨_, _, .freeErase _ _⟩ => true
      | _ => false
  | _ => false

/-- or that in which an `sa_fork` that fails does so. -/
def Event.fails (w : World) : Event → Bool
  | .step n _ =>
      match w.calls n with
      | some ⟨_, _, .forkErase _ _ _ _⟩ => true
      | _ => false
  | _ => false

theorem undisturbed_of_frees {e : Event} (h : e.frees w = false) : Undisturbed w e := by
  cases e with
  | create => trivial
  | enter => trivial
  | step n ans =>
      rintro ⟨pid, tgid, pc⟩ a id t hf hpc
      obtain rfl : pc = .freeErase a id := hpc
      simp [Event.frees, hf] at h

theorem unvisited_of_fails {e : Event} (h : e.fails w = false) : Unvisited w e := by
  cases e with
  | create => trivial
  | enter => trivial
  | step n ans =>
      rintro ⟨pid, tgid, pc⟩ a id t pl hf hpc
      obtain rfl : pc = .forkErase a id t pl := hpc
      simp [Event.fails, hf] at h

/-- The run of one `sa_alloc`. -/
theorem run_sound_alloc : ∃ w, Run (Guarded Considerate Next) .init firstAlloc w ∧
    w.grants 0 = some ⟨0, 0, 0, idToAddr 0⟩ ∧ Sound w := by
  have hstep : ∀ w e w', (if e.frees w || e.fails w then none else next w e) = some w' →
      Guarded Considerate Next w e w' := by
    intro w e w' h
    split_ifs at h with he
    obtain ⟨hfrees, hfails⟩ := Bool.or_eq_false_iff.mp (Bool.not_eq_true _ ▸ he)
    exact ⟨⟨undisturbed_of_frees hfrees, unvisited_of_fails hfails⟩, h⟩
  have hrun : Run (Guarded Considerate Next) .init firstAlloc _ := Run.of_foldlM hstep rfl
  exact ⟨_, hrun, rfl, run_sound hrun⟩

/-- `sa_alloc` up to its last step, and `sa_free` of the same address by another thread of the process. -/
def allocThenFree : List Event :=
  [.create 1, .enter 10 1 .saAlloc] ++ steps 0 8 ++ [.enter 11 1 (.saFree (idToAddr 0))] ++ steps 1 5

/-- `sa_free` has passed the descriptor to `kfree` that `sa_alloc` is about to read. -/
theorem not_run_sound : ¬ ∀ es w, Run Next .init es w → Sound w := by
  intro h
  have hrun : Run Next .init allocThenFree _ := Run.of_foldlM (fun _ _ _ h ↦ h) rfl
  exact absurd ((h _ _ hrun).reads 0 ⟨10, 1, .allocRead 0 0 0⟩ 0 rfl rfl) (by decide)

/-- The steps in which `sa_fork` copies `m` pages. -/
theorem run_copies {a parent : AllocPtr} {pp i t' k m : Nat} {pl : PlPtr} (hf : w.calls n = some f)
    (hpc : f.pc = .forkScan a parent pp t pl (.copy i t' k)) (hm : k + m ≤ w.nrPages (w.pagelist t' 0) 0) :
    Run (Guarded Undisturbed Next) w (steps n m)
      (w.goto n f (.forkScan a parent pp t pl (.copy i t' (k + m)))) := by
  induction m with
  | zero =>
      have hstay : w.goto n f (.forkScan a parent pp t pl (.copy i t' k)) = w := by
        rw [World.goto, ← hpc, Function.update_eq_self_iff.mpr hf.symm]
      rw [Nat.add_zero, hstay]
      exact .nil
  | succ m ih =>
      have hlt : k + m < w.nrPages (w.pagelist t' 0) 0 := by omega
      obtain ⟨pc, heq⟩ : ∃ pc, pc = Pc.forkScan a parent pp t pl (.copy i t' (k + m)) := ⟨_, rfl⟩
      have hcall : (w.goto n f pc).calls n = some { f with pc := pc } := Function.update_self _ _ _
      rw [steps, List.replicate_succ']
      refine (heq ▸ ih (Nat.le_of_lt hlt)).snoc ⟨fun f' b id t₀ hf' hfree ↦ ?_, ?_⟩
      · obtain rfl := Option.some.inj (hcall.symm.trans hf')
        rw [heq] at hfree
        cases hfree
      · have hscan : (w.goto n f pc).scan a parent pp t pl 0 (.copy i t' (k + m)) =
            .forkScan a parent pp t pl (.copy i t' (k + m + 1)) := if_pos hlt
        have hgo : stepCall (w.goto n f pc) n { f with pc := pc } granted =
            (w.goto n f pc).goto n { f with pc := pc }
              ((w.goto n f pc).scan a parent pp t pl 0 (.copy i t' (k + m))) := by
          rw [heq]
          rfl
        rw [Next, next, hcall, Option.map_some, hgo, hscan]
        simp only [World.goto, Function.update_idem, Nat.add_assoc]

/-- `sa_fork` by a thread of process 2, up to the copy of the pages, -/
def firstFork : List Event := firstAlloc ++ [.create 2, .enter 20 2 (.saFork 1 10)] ++ steps 1 8

/-- and the rest of it, while another thread of process 2 forks from thread 20: the descriptor that its scan
finds is the one that the first `sa_fork` gives up when its mapping fails. -/
def secondFork : List Event :=
  steps 1 3 ++ [.enter 21 2 (.saFork 2 20)] ++ steps 2 7 ++ [.step 1 ⟨false, 0⟩] ++ steps 1 3

/-- It is not enough that `sa_free` leaves alone what other calls work on. -/
theorem not_sound_of_undisturbed : ¬ ∀ es w, Run (Guarded Undisturbed Next) .init es w → Sound w := by
  intro h
  have hstep : ∀ w e w', (if e.frees w then none else next w e) = some w' →
      Guarded Undisturbed Next w e w' := by
    intro w e w' h
    split_ifs at h with he
    exact ⟨undisturbed_of_frees (by simpa using he), h⟩
  have hfirst : Run (Guarded Undisturbed Next) .init firstFork _ := Run.of_foldlM hstep rfl
  have hcopy := hfirst.trans
    (run_copies (n := 1) (f := ⟨20, 2, .forkScan 1 0 10 1 1 (.copy 0 0 0)⟩) (m := ssPages) rfl rfl (by decide))
  have hsound := h _ _ (hcopy.trans
    (show Run (Guarded Undisturbed Next) _ secondFork _ from Run.of_foldlM hstep rfl))
  exact absurd (hsound.reads 2 ⟨21, 2, .forkScan 1 1 20 2 2 (.tid 0 1)⟩ 1 rfl rfl) (by decide)

end ShadowStack.Lkm.Conc
