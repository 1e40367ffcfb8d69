import Mathlib.Data.List.Basic

/-!
# Paths and dominance

Paths from an entry node through a graph, with arbitrary cycles.  A node strictly dominates another if
every path to the other passes it before.

When `d` strictly dominates `j` and `j` strictly dominates `i`, every path to `i` passes `j` again after
it has passed `d` for the last time.
-/

universe u

namespace ShadowStack.Lib

variable {α : Type u}

/-- `Path edge entry h i`: a path from the entry to `i` passes the nodes `h` before, latest first. -/
inductive Path (edge : α → α → Prop) (entry : α) : List α → α → Prop
  | nil : Path edge entry [] entry
  | snoc {h : List α} {i j : α} : Path edge entry h i → edge i j → Path edge entry (i :: h) j

/-- `j` strictly dominates `i`. -/
def StrictDom (edge : α → α → Prop) (entry j i : α) : Prop := ∀ h, Path edge entry h i → j ∈ h

/-- `j` is among the nodes passed, and none of the nodes passed since is in `stop`. -/
def Since (stop : α → Prop) (j : α) : List α → Prop
  | [] => False
  | i :: h => ¬ stop i ∧ (i = j ∨ Since stop j h)

variable {edge : α → α → Prop} {entry i j d : α} {h h₁ h₂ h₃ : List α} {stop : α → Prop}

namespace Path

/-- The part of a path up to a node on it. -/
theorem upTo (hp : Path edge entry (h₁ ++ j :: h₂) i) : Path edge entry h₂ j := by
  induction h₁ generalizing i with
  | nil =>
      cases hp with
      | snoc hp _ => exact hp
  | cons k h₁ ih =>
      cases hp with
      | snoc hp _ => exact ih hp

/-- The part up to a node may be replaced. -/
theorem splice (hp : Path edge entry (h₁ ++ d :: h₂) i) (hd : Path edge entry h₃ d) :
    Path edge entry (h₁ ++ d :: h₃) i := by
  induction h₁ generalizing i with
  | nil =>
      cases hp with
      | snoc _ he => exact hd.snoc he
  | cons k h₁ ih =>
      cases hp with
      | snoc hp he => exact (ih hp).snoc he

/-- A node can be reached without passing one that it strictly dominates. -/
theorem avoid (hdj : StrictDom edge entry d j) (hp : Path edge entry h d) :
    ∃ h', Path edge entry h' d ∧ j ∉ h' := by
  induction hlen : h.length using Nat.strongRecOn generalizing h with
  | ind n ih =>
  by_cases hj : j ∈ h
  · obtain ⟨h₁, h₂, rfl⟩ := List.append_of_mem hj
    obtain ⟨h₃, h₄, rfl⟩ := List.append_of_mem (hdj h₂ hp.upTo)
    refine ih h₄.length ?_ hp.upTo.upTo rfl
    rw [← hlen]
    simp only [List.length_append, List.length_cons]
    omega
  · exact ⟨h, hp, hj⟩

end Path

/-- A node passed either since the last stop or not since then. -/
theorem since_or (hj : j ∈ h) :
    Since stop j h ∨ ∃ h₁ d h₂, h = h₁ ++ d :: h₂ ∧ stop d ∧ j ∉ h₁ := by
  induction h with
  | nil => cases hj
  | cons i h ih =>
      by_cases hs : stop i
      · exact .inr ⟨[], i, h, rfl, hs, List.not_mem_nil⟩
      by_cases hij : i = j
      · exact .inl ⟨hs, .inl hij⟩
      rcases ih ((List.mem_cons.mp hj).resolve_left fun hc ↦ hij hc.symm) with h' | ⟨h₁, d, h₂, rfl, hd, hnot⟩
      · exact .inl ⟨hs, .inr h'⟩
      · refine .inr ⟨i :: h₁, d, h₂, rfl, hd, fun hc ↦ ?_⟩
        exact (List.mem_cons.mp hc).elim (fun hc ↦ hij hc.symm) hnot

/-- **The last stop comes before the last pass**: if all stops strictly dominate `j` and `j` strictly
dominates `i`, then a path to `i` has passed `j` since the last stop. -/
theorem StrictDom.since (hstop : ∀ d, stop d → StrictDom edge entry d j) (hji : StrictDom edge entry j i)
    (hp : Path edge entry h i) : Since stop j h := by
  have hor : Since stop j h ∨ ∃ h₁ d h₂, h = h₁ ++ d :: h₂ ∧ stop d ∧ j ∉ h₁ := since_or (hji h hp)
  rcases hor with hs | ⟨h₁, d, h₂, rfl, hd, hnot⟩
  · exact hs
  · -- otherwise a path to `i` would go through the stop without passing `j` at all
    obtain ⟨h₃, hd₃, hj₃⟩ := hp.upTo.avoid (hstop d hd)
    have hmem : j ∈ h₁ ++ d :: h₃ := hji _ (hp.splice hd₃)
    rcases List.mem_append.mp hmem with hc | hc
    · exact absurd hc hnot
    · rcases List.mem_cons.mp hc with rfl | hc
      · exact absurd (hstop j hd h₃ hd₃) hj₃
      · exact absurd hc hj₃

end ShadowStack.Lib
