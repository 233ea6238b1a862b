import Mathlib.Order.Lattice
import Mathlib.Data.List.Basic

/-!
# Tilings

Ranges of an order that lie one behind the other, without a gap or an overlap.
-/
namespace NyanyaAgent.Relational

variable {α : Type} [LinearOrder α] {a b c i : α} {ranges before after : List (α × α)}

/-- Half-open ranges that begin at one point and end at another. -/
inductive Tiles : α → List (α × α) → α → Prop
  | nil (a : α) : Tiles a [] a
  | cons {a b c : α} {ranges : List (α × α)} (h : a ≤ b) (rest : Tiles b ranges c) :
      Tiles a ((a, b) :: ranges) c

theorem Tiles.le (h : Tiles a ranges b) : a ≤ b := by
  induction h with
  | nil a => exact le_refl a
  | cons hle _ ih => exact le_trans hle ih

theorem Tiles.single (h : a ≤ b) : Tiles a [(a, b)] b := .cons h (.nil b)

theorem Tiles.append (h : Tiles a before b) (rest : Tiles b after c) :
    Tiles a (before ++ after) c := by
  induction h with
  | nil a => exact rest
  | cons hle _ ih => exact .cons hle (ih rest)

/-- Every point is in one of the ranges. -/
theorem Tiles.covers (h : Tiles a ranges b) (ha : a ≤ i) (hb : i < b) :
    ∃ r ∈ ranges, r.1 ≤ i ∧ i < r.2 := by
  induction h with
  | nil a => exact absurd (lt_of_lt_of_le hb ha) (lt_irrefl i)
  | @cons a b c ranges hle rest ih =>
    by_cases hi : i < b
    · exact ⟨(a, b), List.mem_cons_self, ha, hi⟩
    · obtain ⟨r, hr, hin⟩ := ih (not_lt.mp hi) hb
      exact ⟨r, List.mem_cons_of_mem _ hr, hin⟩

theorem Tiles.bounds (h : Tiles a ranges b) : ∀ r ∈ ranges, a ≤ r.1 ∧ r.1 ≤ r.2 ∧ r.2 ≤ b := by
  induction h with
  | nil a => exact fun r hr => by cases hr
  | @cons a b c ranges hle rest ih =>
    refine List.forall_mem_cons.mpr ⟨⟨le_refl a, hle, rest.le⟩, fun r hr => ?_⟩
    obtain ⟨hfirst, hinner, hlast⟩ := ih r hr
    exact ⟨le_trans hle hfirst, hinner, hlast⟩

/-- No point is in two of the ranges. -/
theorem Tiles.disjoint (h : Tiles a ranges b) :
    ranges.Pairwise fun r r' => ¬ ((r.1 ≤ i ∧ i < r.2) ∧ r'.1 ≤ i ∧ i < r'.2) := by
  induction h with
  | nil a => exact .nil
  | @cons a b c ranges hle rest ih =>
    refine .cons (fun r hr hboth => ?_) ih
    exact absurd (lt_of_lt_of_le hboth.1.2 (rest.bounds r hr).1) (not_lt.mpr hboth.2.1)

end NyanyaAgent.Relational
