import Mathlib.Data.List.Basic

/-!
# Bounded passes

A pass looks at the first items of a list that are due; those of them that are ready
leave. Repeated passes reach an item that is ready unless as many items that are not
stand before it as one pass looks at.
-/
namespace NyanyaAgent.Runs

variable {α τ : Type*} [DecidableEq α]

/-- The first due items of a list. -/
def window (n : ℕ) (due : α → Prop) [DecidablePred due] (xs : List α) : List α :=
  (xs.filter due).take n

/-- The items a pass leaves. -/
def pass (n : ℕ) (due ready : α → Prop) [DecidablePred due] [DecidablePred ready] (xs : List α) :
    List α :=
  xs.filter fun x => ¬ (x ∈ window n due xs ∧ ready x)

section Pass
variable {n : ℕ} {due ready ready' : α → Prop} [DecidablePred due] [DecidablePred ready]
  [DecidablePred ready'] {x : α} {xs as bs : List α}

omit [DecidableEq α] in
theorem mem_window_of_lt (hx : due x) (h : (as.filter due).length < n) :
    x ∈ window n due (as ++ x :: bs) := by
  obtain ⟨m, rfl⟩ := Nat.exists_eq_add_of_lt h
  unfold window
  rw [List.filter_append, List.filter_cons_of_pos (by simpa using hx), List.take_append]
  apply List.mem_append_right
  rw [show (as.filter due).length + m + 1 - (as.filter due).length = m + 1 by omega,
    List.take_succ_cons]
  exact List.mem_cons_self

omit [DecidableEq α] in
/-- A window that ends before an item does not depend on it. -/
theorem window_of_le (h : n ≤ (as.filter due).length) :
    window n due (as ++ bs) = (as.filter due).take n := by
  unfold window
  rw [List.filter_append, List.take_append_of_le_length h]

theorem mem_pass : x ∈ pass n due ready xs ↔ x ∈ xs ∧ ¬ (x ∈ window n due xs ∧ ready x) := by
  rw [pass, List.mem_filter, decide_eq_true_eq]

theorem pass_congr (h : ∀ x ∈ xs, ready x ↔ ready' x) :
    pass n due ready xs = pass n due ready' xs := by
  apply List.filter_congr
  intro x hx
  simp only [h x hx]

variable (ready) in
/-- What stands before an item that stays: at most the items that stood there, and all of
them that are not ready. -/
theorem pass_split (hx : ¬ (x ∈ window n due (as ++ x :: bs) ∧ ready x)) :
    ∃ as' bs', pass n due ready (as ++ x :: bs) = as' ++ x :: bs' ∧
      as' = as.filter (fun y => ¬ (y ∈ window n due (as ++ x :: bs) ∧ ready y)) ∧
      as'.filter (fun y => ¬ ready y) = as.filter fun y => ¬ ready y := by
  refine ⟨_, bs.filter fun y => ¬ (y ∈ window n due (as ++ x :: bs) ∧ ready y), ?_, rfl, ?_⟩
  · unfold pass
    rw [List.filter_append, List.filter_cons_of_pos (by rw [decide_eq_true_eq]; exact hx)]
  · rw [List.filter_filter]
    apply List.filter_congr
    intro y _
    by_cases hy : ready y <;> simp [hy]

/-- An item that is due, ready and not blocked leaves, or fewer items stand before it. -/
theorem pass_progress (bs : List α) (hdue : due x) (hready : ready x)
    (h : (as.filter fun y => ¬ ready y).length < n) :
    x ∉ pass n due ready (as ++ x :: bs) ∨
      ∃ as' bs', pass n due ready (as ++ x :: bs) = as' ++ x :: bs' ∧ as'.length < as.length ∧
        as'.filter (fun y => ¬ ready y) = as.filter fun y => ¬ ready y := by
  by_cases hx : x ∈ window n due (as ++ x :: bs)
  · exact .inl fun hp => (mem_pass.mp hp).2 ⟨hx, hready⟩
  · obtain ⟨as', bs', heq, has, hheld⟩ := pass_split ready fun hw => hx hw.1
    refine .inr ⟨as', bs', heq, ?_, hheld⟩
    -- The window is full before the item, so one of its items is ready and leaves.
    have hfull : n ≤ (as.filter due).length :=
      Nat.le_of_not_lt fun hlt => hx (mem_window_of_lt hdue hlt)
    have hwindow : window n due (as ++ x :: bs) = (as.filter due).take n := window_of_le hfull
    rw [hwindow] at has
    by_contra hle
    have hall : as' = as := by
      rw [has]
      apply List.filter_sublist.eq_of_length_le
      rw [← has]
      exact Nat.le_of_not_lt hle
    have hnone : ∀ y ∈ (as.filter due).take n, ¬ ready y := by
      intro y hy hry
      have hya : y ∈ as := (List.mem_filter.mp (List.mem_of_mem_take hy)).1
      rw [← hall, has, List.mem_filter, decide_eq_true_eq] at hya
      exact hya.2 ⟨hy, hry⟩
    have hsub : ((as.filter due).take n).Sublist (as.filter fun y => ¬ ready y) := by
      have hself : ((as.filter due).take n).filter (fun y => ¬ ready y) = (as.filter due).take n :=
        List.filter_eq_self.mpr fun y hy => by simpa using hnone y hy
      rw [← hself]
      exact ((List.take_sublist _ _).trans List.filter_sublist).filter _
    have hlen := hsub.length_le
    rw [List.length_take, Nat.min_eq_left hfull] at hlen
    omega

/-- An item behind enough due items that are not ready stays. -/
theorem pass_blocked (bs : List α) (hx : x ∉ as) (hdue : ∀ y ∈ as, due y)
    (h : n ≤ (as.filter fun y => ¬ ready y).length) :
    ∃ as' bs', pass n due ready (as ++ x :: bs) = as' ++ x :: bs' ∧ as' ⊆ as ∧
      as'.filter (fun y => ¬ ready y) = as.filter fun y => ¬ ready y := by
  have hall : as.filter due = as := List.filter_eq_self.mpr fun y hy => by simpa using hdue y hy
  have hlong : n ≤ (as.filter due).length := by
    rw [hall]
    exact Nat.le_trans h List.filter_sublist.length_le
  have hstay : x ∉ window n due (as ++ x :: bs) := by
    rw [window_of_le hlong, hall]
    exact fun hmem => hx (List.mem_of_mem_take hmem)
  obtain ⟨as', bs', heq, has, hheld⟩ := pass_split ready fun hw => hstay hw.1
  refine ⟨as', bs', heq, ?_, hheld⟩
  rw [has]
  exact List.filter_sublist.subset

end Pass

section Passes
variable {n : ℕ} {due : τ → α → Prop} {ready : α → Prop} [∀ t, DecidablePred (due t)]
  [DecidablePred ready] {x : α} {xs as bs : List α} {ts : List τ}

/-- One pass after another, each at its time. -/
def passes (n : ℕ) (due : τ → α → Prop) (ready : α → Prop) [∀ t, DecidablePred (due t)]
    [DecidablePred ready] (ts : List τ) (xs : List α) : List α :=
  ts.foldl (fun xs t => pass n (due t) ready xs) xs

theorem not_mem_passes (hx : x ∉ xs) : x ∉ passes n due ready ts xs := by
  induction ts generalizing xs with
  | nil => exact hx
  | cons t ts ih => exact ih fun hp => hx (mem_pass.mp hp).1

theorem mem_passes_of_not_ready (hready : ¬ ready x) (hx : x ∈ xs) :
    x ∈ passes n due ready ts xs := by
  induction ts generalizing xs with
  | nil => exact hx
  | cons t ts ih => exact ih (mem_pass.mpr ⟨hx, fun h => hready h.2⟩)

/-- An item that is due, ready and not blocked leaves within as many passes as there are
items up to it. -/
theorem not_mem_passes_of_ready (hready : ready x) (hdue : ∀ t ∈ ts, due t x)
    (h : (as.filter fun y => ¬ ready y).length < n) (hts : as.length < ts.length) :
    x ∉ passes n due ready ts (as ++ x :: bs) := by
  induction ts generalizing as bs with
  | nil => simp at hts
  | cons t ts ih =>
    have hlater : ∀ s ∈ ts, due s x := fun s hs => hdue s (List.mem_cons_of_mem _ hs)
    rcases pass_progress bs (hdue t List.mem_cons_self) hready h with
      hgone | ⟨as', bs', heq, hlt, hheld⟩
    · exact (not_mem_passes hgone : x ∉ passes n due ready ts _)
    · have hts' : as'.length < ts.length := by
        rw [List.length_cons] at hts
        omega
      have hstep : x ∉ passes n due ready ts (as' ++ x :: bs') := ih hlater (hheld ▸ h) hts'
      rw [← heq] at hstep
      exact hstep

/-- An item behind enough items that are never ready stays. -/
theorem mem_passes_of_blocked (hx : x ∉ as) (hdue : ∀ t ∈ ts, ∀ y ∈ as, due t y)
    (h : n ≤ (as.filter fun y => ¬ ready y).length) :
    x ∈ passes n due ready ts (as ++ x :: bs) := by
  induction ts generalizing as bs with
  | nil => simp [passes]
  | cons t ts ih =>
    obtain ⟨as', bs', heq, hsub, hheld⟩ := pass_blocked bs hx (hdue t List.mem_cons_self) h
    have hstep : x ∈ passes n due ready ts (as' ++ x :: bs') := ih (fun hmem => hx (hsub hmem))
      (fun s hs y hy => hdue s (List.mem_cons_of_mem _ hs) y (hsub hy)) (hheld ▸ h)
    rw [← heq] at hstep
    exact hstep

end Passes
end NyanyaAgent.Runs
