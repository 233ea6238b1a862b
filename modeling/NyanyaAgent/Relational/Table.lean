import Mathlib.Data.List.Nodup
import Mathlib.Data.List.Lookmap
import Mathlib.Logic.Function.Basic

/-!
# Keyed tables

A table is the list of its rows in insertion order together with the proof that
no two rows share their key. Updates keep keys, an insertion of a present key is
refused, and every query is a search through the rows.
-/
namespace NyanyaAgent.Relational

variable {κ α β : Type*} [DecidableEq κ]

/-- Rows in insertion order, with the primary key enforced by the type. -/
structure Table (key : α → κ) where
  rows : List α
  nodup : (rows.map key).Nodup

namespace Table
variable {key : α → κ}

def empty : Table key := ⟨[], by simp⟩

instance : Inhabited (Table key) := ⟨empty⟩

/-- The row under a key. -/
def get? (t : Table key) (k : κ) : Option α := t.rows.find? (fun r => key r = k)

/-- `UPDATE … SET f WHERE p`, for an assignment that leaves the key alone. -/
def update (t : Table key) (p : α → Prop) [DecidablePred p] (f : α → α)
    (hf : ∀ r, key (f r) = key r := by intro r; rfl) : Table key where
  rows := t.rows.map (fun r => if p r then f r else r)
  nodup := by
    have h : t.rows.map (key ∘ fun r => if p r then f r else r) = t.rows.map key := by
      apply List.map_congr_left
      intro r _
      by_cases hp : p r <;> simp [hp, hf]
    simpa only [List.map_map, h] using t.nodup

/-- `INSERT`, refused when the key is taken. -/
def insert (t : Table key) (r : α) : Option (Table key) :=
  if h : key r ∈ t.rows.map key then none else
    some ⟨t.rows ++ [r], by
      rw [List.map_append, List.nodup_append]
      refine ⟨t.nodup, by simp, ?_⟩
      intro a ha b hb
      simp only [List.map_cons, List.map_nil, List.mem_singleton] at hb
      exact fun e => h (hb ▸ e ▸ ha)⟩

/-- `DELETE … WHERE p`. -/
def delete (t : Table key) (p : α → Prop) [DecidablePred p] : Table key where
  rows := t.rows.filter (fun r => ¬ p r)
  nodup := t.nodup.sublist ((List.filter_sublist).map key)

theorem get?_eq_some {t : Table key} {k : κ} {r : α} :
    t.get? k = some r ↔ r ∈ t.rows ∧ key r = k := by
  constructor
  · intro h
    exact ⟨List.mem_of_find?_eq_some h, by simpa using List.find?_some h⟩
  · rintro ⟨hr, rfl⟩
    unfold get?
    obtain ⟨l, hl⟩ := t
    dsimp only at hr ⊢
    induction l with
    | nil => cases hr
    | cons x xs ih =>
      rw [List.map_cons, List.nodup_cons] at hl
      rcases List.mem_cons.mp hr with rfl | hr
      · simp
      · have hne : key x ≠ key r := fun e => hl.1 (e ▸ List.mem_map_of_mem hr)
        simpa [List.find?_cons, hne] using ih hl.2 hr

theorem key_of_get? {t : Table key} {k : κ} {r : α} (h : t.get? k = some r) : key r = k :=
  (get?_eq_some.mp h).2

theorem mem_rows_iff {t : Table key} {r : α} : r ∈ t.rows ↔ t.get? (key r) = some r := by
  simp [get?_eq_some]

/-- Searching the rows is searching the keys. -/
theorem exists_mem_rows {t : Table key} {p : α → Prop} :
    (∃ r ∈ t.rows, p r) ↔ ∃ k r, t.get? k = some r ∧ p r := by
  constructor
  · rintro ⟨r, hr, hp⟩
    exact ⟨key r, r, mem_rows_iff.mp hr, hp⟩
  · rintro ⟨k, r, hr, hp⟩
    exact ⟨r, (get?_eq_some.mp hr).1, hp⟩

@[simp] theorem get?_empty (k : κ) : (empty : Table key).get? k = none := rfl

@[simp] theorem get?_update (t : Table key) (p : α → Prop) [DecidablePred p] (f : α → α)
    (hf : ∀ r, key (f r) = key r) (k : κ) :
    (t.update p f hf).get? k = (t.get? k).map (fun r => if p r then f r else r) := by
  obtain ⟨rows, hn⟩ := t
  unfold get? update
  dsimp only
  clear hn
  induction rows with
  | nil => rfl
  | cons x xs ih =>
    have hk : key (if p x then f x else x) = key x := by by_cases hp : p x <;> simp [hp, hf]
    by_cases hx : key x = k
    · simp [hk, hx]
    · simpa [hk, hx] using ih

omit [DecidableEq κ] in
theorem update_eq_self {t : Table key} {p : α → Prop} [DecidablePred p] {f : α → α}
    {hf : ∀ r, key (f r) = key r} (h : ∀ r ∈ t.rows, ¬ p r) : t.update p f hf = t := by
  have hrows : t.rows.map (fun r => if p r then f r else r) = t.rows := by
    refine (List.map_congr_left fun r hr => ?_).trans (List.map_id _)
    rw [if_neg (h r hr), id]
  unfold update
  congr

omit [DecidableEq κ] in
/-- The rows of a kind after an update that takes its rows out of that kind. -/
theorem filter_update {t : Table key} {p q : α → Prop} [DecidablePred p] [DecidablePred q]
    {f : α → α} (hf : ∀ r, key (f r) = key r) (h : ∀ r ∈ t.rows, p r → ¬ q (f r)) :
    (t.update p f hf).rows.filter q = (t.rows.filter q).filter fun r => ¬ p r := by
  obtain ⟨rows, hn⟩ := t
  unfold update
  dsimp only at h ⊢
  clear hn
  induction rows with
  | nil => rfl
  | cons x rows ih =>
    have hrest := ih fun r hr => h r (List.mem_cons_of_mem _ hr)
    by_cases hp : p x
    · have hx : ¬ q (f x) := h x List.mem_cons_self hp
      by_cases hq : q x <;> simpa [hp, hx, hq] using hrest
    · by_cases hq : q x <;> simpa [hp, hq] using hrest

omit [DecidableEq κ] in
/-- An update that brings no row into a kind does not make it larger. -/
theorem length_filter_update_le {t : Table key} {p q : α → Prop} [DecidablePred p]
    [DecidablePred q] {f : α → α} {hf : ∀ r, key (f r) = key r}
    (h : ∀ r ∈ t.rows, p r → q (f r) → q r) :
    ((t.update p f hf).rows.filter q).length ≤ (t.rows.filter q).length := by
  unfold update
  rw [← List.countP_eq_length_filter, ← List.countP_eq_length_filter, List.countP_map]
  apply List.countP_mono_left
  intro r hr hq
  rw [Function.comp_apply, decide_eq_true_eq] at hq
  rw [decide_eq_true_eq]
  by_cases hp : p r
  · rw [if_pos hp] at hq
    exact h r hr hp hq
  · rwa [if_neg hp] at hq

/-- The row an update names by its key. -/
theorem get?_update_key (t : Table key) (k : κ) (f : α → α) (hf : ∀ r, key (f r) = key r) :
    (t.update (fun r => key r = k) f hf).get? k = (t.get? k).map f := by
  rw [get?_update]
  cases h : t.get? k with
  | none => rfl
  | some r => simp [key_of_get? h]

theorem get?_update_ne (t : Table key) {j k : κ} (f : α → α) (hf : ∀ r, key (f r) = key r)
    (h : j ≠ k) : (t.update (fun r => key r = k) f hf).get? j = t.get? j := by
  rw [get?_update]
  cases hj : t.get? j with
  | none => rfl
  | some r => simp [key_of_get? hj, h]

/-- A row is kept by the update of one key, or is the row it assigns. -/
theorem exists_update_key {t : Table key} {j k : κ} {r : α} (f : α → α)
    (hf : ∀ r, key (f r) = key r) (h : t.get? j = some r) :
    ∃ r', (t.update (fun r => key r = k) f hf).get? j = some r' ∧ (r' = r ∨ j = k ∧ r' = f r) := by
  by_cases hj : j = k
  · subst hj
    exact ⟨f r, by rw [get?_update_key, h, Option.map_some], .inr ⟨rfl, rfl⟩⟩
  · exact ⟨r, by rw [get?_update_ne t f hf hj, h], .inl rfl⟩

/-- A view that an assignment does not touch is the same after an update. -/
theorem map_get?_update {γ : Type*} (t : Table key) (p : α → Prop) [DecidablePred p] (f : α → α)
    (hf : ∀ r, key (f r) = key r) (k : κ) (v : α → γ) (hv : ∀ r, v (f r) = v r) :
    ((t.update p f hf).get? k).map v = (t.get? k).map v := by
  rw [get?_update, Option.map_map]
  congr 1
  ext1 r
  by_cases hp : p r <;> simp [hp, hv]

theorem get?_insert {t t' : Table key} {r : α} (h : t.insert r = some t') (k : κ) :
    t'.get? k = if k = key r then some r else t.get? k := by
  unfold insert at h
  split at h
  · cases h
  · rename_i hn
    cases h
    by_cases hk : k = key r
    · rw [if_pos hk, get?_eq_some]
      exact ⟨by simp, hk.symm⟩
    · rw [if_neg hk]
      have hr : ¬ key r = k := fun e => hk e.symm
      simp [get?, List.find?_append, hr]

theorem get?_of_insert {t t' : Table key} {r : α} (h : t.insert r = some t') :
    t.get? (key r) = none := by
  unfold insert at h
  split at h
  · cases h
  · rename_i hn
    rw [get?, List.find?_eq_none]
    intro x hx
    simpa using fun e => hn (List.mem_map.mpr ⟨x, hx, e⟩)

theorem get?_insert_of_some {t t' : Table key} {r : α} (h : t.insert r = some t') {k : κ} {x : α}
    (hk : t.get? k = some x) : t'.get? k = some x := by
  rw [get?_insert h]
  by_cases hkey : k = key r
  · subst hkey
    rw [get?_of_insert h] at hk
    cases hk
  · rw [if_neg hkey, hk]

theorem rows_insert {t t' : Table key} {r : α} (h : t.insert r = some t') :
    t'.rows = t.rows ++ [r] := by
  unfold insert at h
  split at h
  · cases h
  · cases h
    rfl

/-- A view of the rows by key, after an update of one row. -/
theorem map_update {γ : Type*} (t : Table key) {k : κ} {r : α} (f : α → α)
    (hf : ∀ r, key (f r) = key r) (v : α → γ) (h : t.get? k = some r) :
    (fun j => ((t.update (fun r => key r = k) f hf).get? j).map v) =
      Function.update (fun j => (t.get? j).map v) k (some (v (f r))) := by
  funext j
  by_cases hj : j = k
  · subst hj
    rw [get?_update_key, h, Function.update_self]
    rfl
  · rw [get?_update_ne t f hf hj, Function.update_of_ne hj]

/-- A view of the rows by key, after an insertion. -/
theorem map_insert {γ : Type*} {t t' : Table key} {r : α} (h : t.insert r = some t') (v : α → γ) :
    (fun j => (t'.get? j).map v) = Function.update (fun j => (t.get? j).map v) (key r) (some (v r)) := by
  funext j
  rw [get?_insert h]
  by_cases hj : j = key r
  · rw [if_pos hj, hj, Function.update_self]
    rfl
  · rw [if_neg hj, Function.update_of_ne hj]

/-- A row with a new key is accepted. -/
theorem exists_insert {t : Table key} {r : α} (h : t.get? (key r) = none) :
    ∃ t', t.insert r = some t' := by
  have hn : key r ∉ t.rows.map key := by
    intro hmem
    obtain ⟨r', hr', hk⟩ := List.mem_map.mp hmem
    have hfound : t.get? (key r) = some r' := get?_eq_some.mpr ⟨hr', hk⟩
    rw [h] at hfound
    cases hfound
  exact ⟨_, dif_neg hn⟩

theorem get?_delete (t : Table key) (p : α → Prop) [DecidablePred p] (k : κ) :
    (t.delete p).get? k = (t.get? k).filter (fun r => ¬ p r) := by
  cases h : t.get? k with
  | none =>
    rw [Option.filter_none, get?, List.find?_eq_none]
    rw [get?, List.find?_eq_none] at h
    exact fun x hx => h x (List.mem_filter.mp hx).1
  | some r =>
    obtain ⟨hr, hk⟩ := get?_eq_some.mp h
    by_cases hp : p r
    · simp only [Option.filter_some, hp, not_true_eq_false, decide_false, Bool.false_eq_true,
        if_false]
      rw [get?, List.find?_eq_none]
      intro x hx
      obtain ⟨hx, hnp⟩ := List.mem_filter.mp hx
      simp only [decide_eq_true_eq] at hnp ⊢
      intro e
      have hxr : t.get? k = some x := get?_eq_some.mpr ⟨hx, e⟩
      rw [h] at hxr
      exact hnp (Option.some.inj hxr ▸ hp)
    · simp only [Option.filter_some, hp, not_false_eq_true, decide_true, if_true]
      exact get?_eq_some.mpr ⟨List.mem_filter.mpr ⟨hr, by simpa using hp⟩, hk⟩

end Table
end NyanyaAgent.Relational
