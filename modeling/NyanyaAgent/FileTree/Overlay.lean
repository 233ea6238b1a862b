import Mathlib.Logic.Function.Basic

/-!
# Overlays

Pending assignments over a map: the map they stand for, what one more assignment does
to it, and when nothing is pending.
-/
namespace NyanyaAgent.FileTree

variable {κ β : Type*} [DecidableEq κ]

/-- A map with pending assignments; a pending `none` removes a key. -/
def overlay (base : κ → Option β) (pending : κ → Option (Option β)) : κ → Option β :=
  fun k => (pending k).getD (base k)

theorem overlay_assign (base : κ → Option β) (pending : κ → Option (Option β)) (k : κ)
    (v : Option β) :
    overlay base (Function.update pending k (some v)) =
      Function.update (overlay base pending) k v := by
  funext j
  by_cases h : j = k
  · subst h
    simp [overlay]
  · simp [overlay, Function.update_of_ne h]

/-- Taking an assignment back restores the value below it. -/
theorem overlay_retract (base : κ → Option β) (pending : κ → Option (Option β)) (k : κ) :
    overlay base (Function.update pending k none) =
      Function.update (overlay base pending) k (base k) := by
  funext j
  by_cases h : j = k
  · subst h
    simp [overlay]
  · simp [overlay, Function.update_of_ne h]

/-- No pending assignment repeats the value below it. -/
def Effective (base : κ → Option β) (pending : κ → Option (Option β)) : Prop :=
  ∀ k v, pending k = some v → v ≠ base k

section Effective
variable {base : κ → Option β} {pending : κ → Option (Option β)} {k : κ} {v : Option β}

theorem Effective.assign (h : Effective base pending) (hv : v ≠ base k) :
    Effective base (Function.update pending k (some v)) := by
  intro j w hw
  by_cases hj : j = k
  · subst hj
    rw [Function.update_self, Option.some_inj] at hw
    exact hw ▸ hv
  · rw [Function.update_of_ne hj] at hw
    exact h j w hw

theorem Effective.retract (h : Effective base pending) :
    Effective base (Function.update pending k none) := by
  intro j w hw
  by_cases hj : j = k
  · subst hj
    simp at hw
  · rw [Function.update_of_ne hj] at hw
    exact h j w hw

omit [DecidableEq κ] in
/-- A key with the value below it has nothing pending. -/
theorem Effective.pending_none (h : Effective base pending)
    (hk : overlay base pending k = base k) : pending k = none := by
  cases hp : pending k with
  | none => rfl
  | some v =>
    rw [overlay, hp, Option.getD_some] at hk
    exact absurd hk (h k v hp)

omit [DecidableEq κ] in
theorem Effective.overlay_eq_base (h : Effective base pending) :
    overlay base pending = base ↔ ∀ k, pending k = none := by
  constructor
  · exact fun he k => h.pending_none (congrFun he k)
  · intro hn
    funext k
    rw [overlay, hn k, Option.getD_none]

end Effective
end NyanyaAgent.FileTree
