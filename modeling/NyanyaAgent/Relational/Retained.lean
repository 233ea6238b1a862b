import NyanyaAgent.Relational.Table

/-!
# Rows that stay

Two states of a table between which no row vanished, and every row changed at most
along a relation.
-/
namespace NyanyaAgent.Relational

variable {α κ : Type*} [DecidableEq κ] {key : α → κ}

/-- Every row of the first table is in the second one, changed along `R`. -/
def Retained (R : α → α → Prop) (t t' : Table key) : Prop :=
  ∀ k r, t.get? k = some r → ∃ r', t'.get? k = some r' ∧ R r r'

namespace Retained
variable {R S : α → α → Prop} {t t₁ t' : Table key}

theorem refl (hR : ∀ r, R r r) (t : Table key) : Retained R t t := fun _ r hr => ⟨r, hr, hR r⟩

theorem trans (hR : ∀ r₁ r₂ r₃, R r₁ r₂ → R r₂ r₃ → R r₁ r₃) (h₁ : Retained R t t₁)
    (h₂ : Retained R t₁ t') : Retained R t t' := by
  intro k r hr
  obtain ⟨r₁, hr₁, hm₁⟩ := h₁ k r hr
  obtain ⟨r', hr', hm₂⟩ := h₂ k r₁ hr₁
  exact ⟨r', hr', hR _ _ _ hm₁ hm₂⟩

theorem mono (hRS : ∀ r r', R r r' → S r r') (h : Retained R t t') : Retained S t t' := by
  intro k r hr
  obtain ⟨r', hr', hm⟩ := h k r hr
  exact ⟨r', hr', hRS _ _ hm⟩

theorem of_eq (hR : ∀ r, R r r) (h : t' = t) : Retained R t t' := by
  rw [h]
  exact refl hR t

/-- An update keeps the rows when its assignment is along `R`. -/
theorem update {p : α → Prop} [DecidablePred p] {f : α → α} (hf : ∀ r, key (f r) = key r)
    (hR : ∀ r, R r r) (h : ∀ k r, t.get? k = some r → p r → R r (f r)) :
    Retained R t (t.update p f hf) := by
  intro k r hr
  rw [Table.get?_update, hr]
  refine ⟨_, rfl, ?_⟩
  dsimp only
  split_ifs with hp
  · exact h k r hr hp
  · exact hR r

theorem insert {s : α} (hR : ∀ r, R r r) (h : t.insert s = some t') : Retained R t t' :=
  fun _ r hr => ⟨r, Table.get?_insert_of_some h hr, hR r⟩

end Retained
end NyanyaAgent.Relational
