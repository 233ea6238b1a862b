import NyanyaAgent.Relational.Table

/-!
# Loops of updates

A loop that runs one statement for each selected row, read at one key: what every pass does
to the row there, and what the whole loop does.
-/
namespace NyanyaAgent.Relational

section Update
variable {κ α : Type*} [DecidableEq κ] {key : α → κ}

/-- Every row after the update of one key. -/
theorem Table.get?_update_ite (t : Table key) (j k : κ) (f : α → α)
    (hf : ∀ r, key (f r) = key r) :
    (t.update (fun r => key r = j) f hf).get? k =
      if j = k then (t.get? k).map f else t.get? k := by
  by_cases h : j = k
  · subst h
    rw [if_pos rfl, Table.get?_update_key]
  · rw [if_neg h, Table.get?_update_ne t f hf fun e => h e.symm]

end Update

section Loop
variable {σ ρ α : Type*}

/-- Passes that assign one value to the rows they select assign it once. -/
theorem foldl_get? (read : σ → Option α) (pass : σ → ρ → σ) (inv : σ → Prop)
    (hinv : ∀ s r, inv s → inv (pass s r)) (selects : ρ → α → Prop)
    [∀ r, DecidablePred (selects r)] (assign : α → α)
    (again : ∀ r a, selects r (assign a) → assign (assign a) = assign a) (rows : List ρ)
    (hpass : ∀ s, inv s → ∀ r ∈ rows, read (pass s r) =
      (read s).map fun a => if selects r a then assign a else a) (s : σ) (hs : inv s) :
    read (rows.foldl pass s) =
      (read s).map fun a => if ∃ r ∈ rows, selects r a then assign a else a := by
  induction rows generalizing s with
  | nil => simp
  | cons r rows ih =>
    rw [List.foldl_cons,
      ih (fun s hs r hr => hpass s hs r (List.mem_cons_of_mem _ hr)) _ (hinv s r hs),
      hpass s hs r List.mem_cons_self, Option.map_map]
    congr 1
    funext a
    by_cases hr : selects r a
    · have hsome : ∃ q ∈ r :: rows, selects q a := ⟨r, List.mem_cons_self, hr⟩
      rw [Function.comp_apply, if_pos hr, if_pos hsome]
      split_ifs with hrest
      · obtain ⟨q, _, hq⟩ := hrest
        exact again q a hq
      · rfl
    · have hiff : (∃ q ∈ r :: rows, selects q a) ↔ ∃ q ∈ rows, selects q a := by simp [hr]
      rw [Function.comp_apply, if_neg hr]
      simp only [hiff]

theorem foldl_eq {β : Type*} (read : σ → β) (pass : σ → ρ → σ)
    (hpass : ∀ s r, read (pass s r) = read s) (rows : List ρ) (s : σ) :
    read (rows.foldl pass s) = read s := by
  induction rows generalizing s with
  | nil => rfl
  | cons r rows ih => rw [List.foldl_cons, ih, hpass]

end Loop
end NyanyaAgent.Relational
