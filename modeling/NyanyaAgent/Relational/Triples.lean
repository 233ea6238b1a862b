import NyanyaAgent.Relational.Transaction

/-!
# Triples

What a statement sequence leaves when it answers and when it raises: the rules for its parts.
-/
namespace NyanyaAgent.Relational.Tx

variable {ε σ α β : Type} {m : Tx ε σ α} {P P' : σ → Prop} {E E' : ε → σ → Prop} {Q Q' : α → σ → Prop}

/-- From a state with `P`, an answer leaves `Q` and an exception leaves `E`. -/
def Triple (P : σ → Prop) (m : Tx ε σ α) (Q : α → σ → Prop) (E : ε → σ → Prop) : Prop :=
  ∀ s, P s → match m s with
    | (.ok a, s') => Q a s'
    | (.error e, s') => E e s'

theorem Triple.ok (h : Triple P m Q E) {s s' : σ} {a : α} (hs : P s) (hm : m s = (.ok a, s')) :
    Q a s' := by
  have hout := h s hs
  rwa [hm] at hout

theorem Triple.error (h : Triple P m Q E) {s s' : σ} {e : ε} (hs : P s)
    (hm : m s = (.error e, s')) : E e s' := by
  have hout := h s hs
  rwa [hm] at hout

theorem Triple.mono (h : Triple P m Q E) (hP : ∀ s, P' s → P s)
    (hQ : ∀ a s, Q a s → Q' a s) (hE : ∀ e s, E e s → E' e s) : Triple P' m Q' E' := by
  intro s hs
  have hout := h s (hP s hs)
  split at hout
  · exact hQ _ _ hout
  · exact hE _ _ hout

theorem Triple.pre (h : Triple P m Q E) (hP : ∀ s, P' s → P s) :
    Triple P' m Q E :=
  h.mono hP (fun _ _ hq => hq) fun _ _ he => he

theorem Triple.post (h : Triple P m Q E) (hQ : ∀ a s, Q a s → Q' a s) :
    Triple P m Q' E :=
  h.mono (fun _ hp => hp) hQ fun _ _ he => he

theorem Triple.and (h : Triple P m Q E) (h' : Triple P' m Q' E') :
    Triple (fun s => P s ∧ P' s) m (fun a s => Q a s ∧ Q' a s) fun e s => E e s ∧ E' e s := by
  intro s hs
  have hout := h s hs.1
  have hout' := h' s hs.2
  rcases hrun : m s with ⟨e | a, s'⟩
  · rw [hrun] at hout hout'
    exact ⟨hout, hout'⟩
  · rw [hrun] at hout hout'
    exact ⟨hout, hout'⟩

/-- Without an exception, the answer and what it leaves. -/
theorem Triple.answers (h : Triple P m Q fun _ _ => False) {s : σ} (hs : P s) :
    ∃ a, (m s).1 = .ok a ∧ Q a (m s).2 := by
  have hout := h s hs
  rcases hrun : m s with ⟨e | a, s'⟩
  · rw [hrun] at hout
    exact hout.elim
  · rw [hrun] at hout
    exact ⟨a, rfl, hout⟩

/-- A fact about the state that the precondition gives may be used before the statement runs. -/
theorem Triple.given {p : Prop} (hp : ∀ s, P s → p) (h : p → Triple P m Q E) :
    Triple P m Q E :=
  fun s hs => h (hp s hs) s hs

theorem Triple.pure {a : α} (h : ∀ s, P s → Q a s) : Triple P (pure a : Tx ε σ α) Q E :=
  fun s hs => h s hs

theorem Triple.raise {e : ε} (h : ∀ s, P s → E e s) : Triple P (raise e : Tx ε σ α) Q E :=
  fun s hs => h s hs

theorem Triple.bind {f : α → Tx ε σ β} {R : α → σ → Prop} {Q : β → σ → Prop}
    (hm : Triple P m R E) (hf : ∀ a, Triple (R a) (f a) Q E) : Triple P (m >>= f) Q E := by
  intro s hs
  have hout := hm s hs
  change match (match m s with
    | (.ok a, s₁) => f a s₁
    | (.error e, s₁) => (.error e, s₁)) with
    | (.ok a, s') => Q a s'
    | (.error e, s') => E e s'
  rcases hrun : m s with ⟨_ | a, s₁⟩
  · rw [hrun] at hout
    exact hout
  · rw [hrun] at hout
    exact hf a s₁ hout

theorem Triple.select {f : σ → α} (h : ∀ s, P s → Q (f s) s) : Triple P (select f : Tx ε σ α) Q E :=
  fun s hs => h s hs

theorem Triple.write {f : σ → σ} {Q : Unit → σ → Prop} (h : ∀ s, P s → Q () (f s)) :
    Triple P (write f : Tx ε σ Unit) Q E :=
  fun s hs => h s hs

theorem Triple.require {p : Prop} [Decidable p] {e : ε} {Q : Unit → σ → Prop}
    (hyes : ∀ s, P s → p → Q () s) (hno : ∀ s, P s → ¬ p → E e s) :
    Triple P (require p e : Tx ε σ Unit) Q E := by
  unfold Tx.require
  split_ifs with hp
  · exact .pure fun s hs => hyes s hs hp
  · exact .raise fun s hs => hno s hs hp

theorem Triple.demand {o : Option α} {e : ε} (hsome : ∀ s a, P s → o = some a → Q a s)
    (hnone : ∀ s, P s → o = none → E e s) : Triple P (demand o e : Tx ε σ α) Q E := by
  cases o with
  | none => exact .raise fun s hs => hnone s hs rfl
  | some a => exact .pure fun s hs => hsome s a hs rfl

theorem Triple.attempt {f : σ → Option σ} {e : ε} {Q : Unit → σ → Prop}
    (hsome : ∀ s s', P s → f s = some s' → Q () s') (hnone : ∀ s, P s → f s = none → E e s) :
    Triple P (attempt f e : Tx ε σ Unit) Q E := by
  intro s hs
  unfold Tx.attempt
  cases hf : f s with
  | none => exact hnone s hs hf
  | some s' => exact hsome s s' hs hf

theorem Triple.ite {p : Prop} [Decidable p] {m n : Tx ε σ α} (hm : p → Triple P m Q E)
    (hn : ¬ p → Triple P n Q E) : Triple P (if p then m else n) Q E := by
  split_ifs with hp
  · exact hm hp
  · exact hn hp

end NyanyaAgent.Relational.Tx
