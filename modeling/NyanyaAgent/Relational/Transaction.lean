import NyanyaAgent.Relational.Table

/-!
# Transactions

A transaction works on the connection's copy of the database. A statement that
raises leaves the copy as the earlier statements wrote it; only `commit` decides
whether the copy or the old database survives.
-/
namespace NyanyaAgent.Relational

section Results
variable {ε α β : Type}

theorem bind_eq_ok {x : Except ε α} {f : α → Except ε β} {b : β} :
    x.bind f = .ok b ↔ ∃ a, x = .ok a ∧ f a = .ok b := by
  cases x with
  | error e => simp [Except.bind]
  | ok a => simp [Except.bind]

theorem map_eq_ok {x : Except ε α} {f : α → β} {b : β} :
    x.map f = .ok b ↔ ∃ a, x = .ok a ∧ f a = b := by
  cases x with
  | error e => simp [Except.map]
  | ok a => simp [Except.map]

theorem check_bind {a : Except ε Unit} {f : Unit → Except ε β} {b : β} :
    (a >>= f) = .ok b ↔ a = .ok () ∧ f () = .ok b := by
  refine bind_eq_ok.trans ⟨?_, fun h => ⟨(), h⟩⟩
  rintro ⟨_, ha, hf⟩
  exact ⟨ha, hf⟩

end Results

/-- A statement sequence: its answer or exception, with the working copy it leaves. -/
def Tx (ε σ α : Type) : Type := σ → Except ε α × σ

namespace Tx
variable {ε σ α β : Type}

instance : Monad (Tx ε σ) where
  pure a := fun s => (.ok a, s)
  bind m f := fun s =>
    match m s with
    | (.ok a, s₁) => f a s₁
    | (.error e, s₁) => (.error e, s₁)

def raise (e : ε) : Tx ε σ α := fun s => (.error e, s)

/-- Continue only under a condition. -/
def require (p : Prop) [Decidable p] (e : ε) : Tx ε σ Unit :=
  if p then pure () else raise e

/-- A query whose missing row raises. -/
def demand (o : Option α) (e : ε) : Tx ε σ α :=
  match o with
  | some a => pure a
  | none => raise e

def select (f : σ → α) : Tx ε σ α := fun s => (.ok (f s), s)

def write (f : σ → σ) : Tx ε σ Unit := fun s => (.ok (), f s)

/-- A write that a constraint may refuse. -/
def attempt (f : σ → Option σ) (e : ε) : Tx ε σ Unit := fun s =>
  match f s with
  | some s₁ => (.ok (), s₁)
  | none => (.error e, s)

/-- A computation that may raise without touching the database. -/
def lift (r : Except ε α) : Tx ε σ α := fun s => (r, s)

/-- `with connect(path) as conn`: commit on a normal exit, roll back on an exception. -/
def commit (m : Tx ε σ α) (s : σ) : Except ε α × σ :=
  match m s with
  | (.ok a, s₁) => (.ok a, s₁)
  | (.error e, _) => (.error e, s)

/-- The transaction answers `a` and leaves `s'`. -/
def Ran (m : Tx ε σ α) (s : σ) (a : α) (s' : σ) : Prop := m s = (.ok a, s')

@[simp] theorem ran_pure {a b : α} {s s' : σ} :
    Ran (pure a : Tx ε σ α) s b s' ↔ b = a ∧ s' = s := by
  simp [Ran, pure, eq_comm]

theorem ran_bind {m : Tx ε σ α} {f : α → Tx ε σ β} {s s' : σ} {b : β} :
    Ran (m >>= f) s b s' ↔ ∃ a s₁, Ran m s a s₁ ∧ Ran (f a) s₁ b s' := by
  unfold Ran
  constructor
  · intro h
    simp only [bind] at h
    split at h
    · next a s₁ hm => exact ⟨a, s₁, hm, h⟩
    · cases h
  · rintro ⟨a, s₁, hm, hf⟩
    simp only [bind, hm, hf]

@[simp] theorem ran_raise {e : ε} {s s' : σ} {a : α} :
    ¬ Ran (raise e : Tx ε σ α) s a s' := by simp [Ran, raise]

@[simp] theorem ran_require {p : Prop} [Decidable p] {e : ε} {s s' : σ} {u : Unit} :
    Ran (require p e : Tx ε σ Unit) s u s' ↔ p ∧ s' = s := by
  unfold require
  by_cases h : p <;> simp [h]

@[simp] theorem ran_demand {o : Option α} {e : ε} {s s' : σ} {a : α} :
    Ran (demand o e : Tx ε σ α) s a s' ↔ o = some a ∧ s' = s := by
  cases o <;> simp [demand, eq_comm]

@[simp] theorem ran_select {f : σ → α} {s s' : σ} {a : α} :
    Ran (select f : Tx ε σ α) s a s' ↔ a = f s ∧ s' = s := by
  simp [Ran, select, eq_comm]

@[simp] theorem ran_write {f : σ → σ} {s s' : σ} {u : Unit} :
    Ran (write f : Tx ε σ Unit) s u s' ↔ s' = f s := by
  simp [Ran, write, eq_comm]

@[simp] theorem ran_attempt {f : σ → Option σ} {e : ε} {s s' : σ} {u : Unit} :
    Ran (attempt f e : Tx ε σ Unit) s u s' ↔ f s = some s' := by
  unfold Ran attempt
  split <;> simp_all

@[simp] theorem ran_lift {r : Except ε α} {s s' : σ} {a : α} :
    Ran (lift r : Tx ε σ α) s a s' ↔ r = .ok a ∧ s' = s := by
  simp [Ran, lift, eq_comm]

@[simp] theorem ran_ite {p : Prop} [Decidable p] {m n : Tx ε σ α} {s s' : σ} {a : α} :
    Ran (if p then m else n) s a s' ↔ (p ∧ Ran m s a s') ∨ (¬ p ∧ Ran n s a s') := by
  by_cases h : p <;> simp [h]

variable {s s' : σ} {b : β} {e : ε}

@[simp] theorem ran_pure_bind {a : α} {k : α → Tx ε σ β} :
    Ran (pure a >>= k) s b s' ↔ Ran (k a) s b s' := by
  simp [ran_bind]

@[simp] theorem ran_raise_bind {k : α → Tx ε σ β} : ¬ Ran (raise e >>= k) s b s' := by
  simp [ran_bind]

@[simp] theorem ran_require_bind {p : Prop} [Decidable p] {k : Unit → Tx ε σ β} :
    Ran (require p e >>= k) s b s' ↔ p ∧ Ran (k ()) s b s' := by
  simp [ran_bind, and_assoc, Unique.exists_iff]

@[simp] theorem ran_demand_bind {o : Option α} {k : α → Tx ε σ β} :
    Ran (demand o e >>= k) s b s' ↔ ∃ a, o = some a ∧ Ran (k a) s b s' := by
  simp [ran_bind, and_assoc]

@[simp] theorem ran_select_bind {f : σ → α} {k : α → Tx ε σ β} :
    Ran (select f >>= k) s b s' ↔ Ran (k (f s)) s b s' := by
  simp [ran_bind, and_assoc]

@[simp] theorem ran_write_bind {f : σ → σ} {k : Unit → Tx ε σ β} :
    Ran (write f >>= k) s b s' ↔ Ran (k ()) (f s) b s' := by
  simp [ran_bind, Unique.exists_iff]

@[simp] theorem ran_attempt_bind {f : σ → Option σ} {k : Unit → Tx ε σ β} :
    Ran (attempt f e >>= k) s b s' ↔ ∃ s₁, f s = some s₁ ∧ Ran (k ()) s₁ b s' := by
  simp [ran_bind, Unique.exists_iff]

@[simp] theorem ran_lift_bind {r : Except ε α} {k : α → Tx ε σ β} :
    Ran (lift r >>= k) s b s' ↔ ∃ a, r = .ok a ∧ Ran (k a) s b s' := by
  simp [ran_bind, and_assoc]

/-- A commit either ran the whole transaction or kept the database. -/
theorem commit_cases (m : Tx ε σ α) (s : σ) :
    (∃ a s', Ran m s a s' ∧ commit m s = (.ok a, s')) ∨
      ∃ e, (∀ a s', ¬ Ran m s a s') ∧ commit m s = (.error e, s) := by
  unfold commit Ran
  rcases m s with ⟨_ | a, s₁⟩
  · right
    exact ⟨_, by simp, rfl⟩
  · left
    exact ⟨a, s₁, rfl, rfl⟩

theorem commit_ok {m : Tx ε σ α} {s s' : σ} {a : α} :
    commit m s = (.ok a, s') ↔ Ran m s a s' := by
  unfold commit Ran
  rcases m s with ⟨_ | a, s₁⟩ <;> simp

/-- A raised exception rolls every write back. -/
theorem commit_error {m : Tx ε σ α} {s s' : σ} {e : ε} (h : commit m s = (.error e, s')) :
    s' = s := by
  rcases commit_cases m s with ⟨a, s₁, _, hc⟩ | ⟨e', _, hc⟩
  · simp [hc] at h
  · rw [hc] at h
    exact (Prod.mk.inj h).2.symm

end Tx
end NyanyaAgent.Relational
