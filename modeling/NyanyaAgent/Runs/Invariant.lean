import Mathlib.Logic.Relation

/-!
# Runs of a labelled system

Finite runs of a total step function whose steps satisfy a legality condition,
with the rules that lift a fact about one step to a whole run.
-/
namespace NyanyaAgent.Runs

variable {σ α : Type*}

/-- The runs whose every step is legal where it is taken. -/
inductive Run (step : σ → α → σ) (legal : σ → α → Prop) : σ → List α → σ → Prop
  | nil (s : σ) : Run step legal s [] s
  | cons {s s' : σ} {a : α} {as : List α} :
      legal s a → Run step legal (step s a) as s' → Run step legal s (a :: as) s'

namespace Run
variable {step : σ → α → σ} {legal : σ → α → Prop} {s s' s'' : σ} {as bs : List α}

theorem append (h₁ : Run step legal s as s') (h₂ : Run step legal s' bs s'') :
    Run step legal s (as ++ bs) s'' := by
  induction h₁ with
  | nil => exact h₂
  | cons ha _ ih => exact .cons ha (ih h₂)

theorem snoc {a : α} (h : Run step legal s as s') (ha : legal s' a) :
    Run step legal s (as ++ [a]) (step s' a) :=
  h.append (.cons ha (.nil _))

/-- Where every step is legal, every sequence of labels is a run. -/
theorem of_total (hl : ∀ s a, legal s a) (as : List α) :
    ∀ s, Run step legal s as (as.foldl step s) := by
  induction as with
  | nil => exact .nil
  | cons a as ih => exact fun s => .cons (hl s a) (ih (step s a))

/-- A run ends where folding its labels ends. -/
theorem eq_foldl (h : Run step legal s as s') : s' = as.foldl step s := by
  induction h with
  | nil => rfl
  | cons _ _ ih => exact ih

/-- The first part of a run is a run, and the step after it is legal. -/
theorem split {a : α} (h : Run step legal s (as ++ a :: bs) s') :
    Run step legal s as (as.foldl step s) ∧ legal (as.foldl step s) a := by
  induction as generalizing s with
  | nil =>
    cases h with
    | cons ha _ => exact ⟨.nil _, ha⟩
  | cons b as ih =>
    cases h with
    | cons hb hrest => exact ⟨.cons hb (ih hrest).1, (ih hrest).2⟩

theorem mono {legal' : σ → α → Prop} (hl : ∀ s a, legal s a → legal' s a)
    (h : Run step legal s as s') : Run step legal' s as s' := by
  induction h with
  | nil => exact .nil _
  | cons ha _ ih => exact .cons (hl _ _ ha) ih

/-- A fact that every legal step keeps is kept by every run. -/
theorem invariant {I : σ → Prop} (hI : ∀ s a, I s → legal s a → I (step s a))
    (h : Run step legal s as s') (hs : I s) : I s' := by
  induction h with
  | nil => exact hs
  | cons ha _ ih => exact ih (hI _ _ hs ha)

/-- A reflexive and transitive relation that holds across every legal step from a state
with the invariant `I` holds across every run. -/
theorem relation {I : σ → Prop} {R : σ → σ → Prop} (hrefl : ∀ s, R s s)
    (htrans : ∀ s₁ s₂ s₃, R s₁ s₂ → R s₂ s₃ → R s₁ s₃)
    (hI : ∀ s a, I s → legal s a → I (step s a))
    (hR : ∀ s a, I s → legal s a → R s (step s a))
    (h : Run step legal s as s') (hs : I s) : R s s' := by
  induction h with
  | nil => exact hrefl _
  | cons ha _ ih => exact htrans _ _ _ (hR _ _ hs ha) (ih (hI _ _ hs ha))

end Run

/-- The states some run reaches from an initial one. -/
def Reachable (step : σ → α → σ) (legal : σ → α → Prop) (init : σ → Prop) (s : σ) : Prop :=
  ∃ s₀ as, init s₀ ∧ Run step legal s₀ as s

namespace Reachable
variable {step : σ → α → σ} {legal : σ → α → Prop} {init : σ → Prop} {s : σ}

theorem of_init (h : init s) : Reachable step legal init s := ⟨s, [], h, .nil s⟩

theorem step_of {a : α} (h : Reachable step legal init s) (ha : legal s a) :
    Reachable step legal init (step s a) := by
  obtain ⟨s₀, as, h₀, hrun⟩ := h
  exact ⟨s₀, as ++ [a], h₀, hrun.snoc ha⟩

theorem run {s' : σ} {as : List α} (h : Reachable step legal init s)
    (hrun : Run step legal s as s') : Reachable step legal init s' := by
  obtain ⟨s₀, as₀, h₀, hrun₀⟩ := h
  exact ⟨s₀, as₀ ++ as, h₀, hrun₀.append hrun⟩

theorem invariant {I : σ → Prop} (h₀ : ∀ s, init s → I s)
    (hI : ∀ s a, I s → legal s a → I (step s a)) (h : Reachable step legal init s) : I s := by
  obtain ⟨s₀, as, hi, hrun⟩ := h
  exact hrun.invariant hI (h₀ s₀ hi)

theorem mono {legal' : σ → α → Prop} (hl : ∀ s a, legal s a → legal' s a)
    (h : Reachable step legal init s) : Reachable step legal' init s := by
  obtain ⟨s₀, as, hi, hrun⟩ := h
  exact ⟨s₀, as, hi, hrun.mono hl⟩

end Reachable
end NyanyaAgent.Runs
