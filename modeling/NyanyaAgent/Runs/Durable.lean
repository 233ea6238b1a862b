import Mathlib.Data.List.Basic

/-!
# Durable programs

A program over a durable state as the changes it makes, in order, with its answer or
exception. A crash leaves the state between two changes.
-/
namespace NyanyaAgent.Runs

/-- The changes a program makes from a state, its answer or exception, and the last state. -/
def Durable (ε σ α : Type) : Type := σ → List (σ × σ) × Except ε α × σ

namespace Durable
variable {ε σ α β : Type}

instance : Monad (Durable ε σ) where
  pure a := fun s => ([], .ok a, s)
  bind m f := fun s =>
    match m s with
    | (cs, .ok a, s₁) => (cs ++ (f a s₁).1, (f a s₁).2)
    | (cs, .error e, s₁) => (cs, .error e, s₁)

def raise (e : ε) : Durable ε σ α := fun s => ([], .error e, s)

def select (f : σ → α) : Durable ε σ α := fun s => ([], .ok (f s), s)

def lift (r : Except ε α) : Durable ε σ α := fun s => ([], r, s)

/-- One change of the state. -/
def change (f : σ → σ) : Durable ε σ Unit := fun s => ([(s, f s)], .ok (), f s)

def require (p : Prop) [Decidable p] (e : ε) : Durable ε σ Unit :=
  if p then pure () else raise e

/-- An exception becomes an answer. -/
def attempt (m : Durable ε σ α) : Durable ε σ (Except ε α) := fun s =>
  ((m s).1, .ok (m s).2.1, (m s).2.2)

end Durable

/-- Changes in `R`, each from where the one before it led. -/
inductive Follows {σ : Type} (R : σ → σ → Prop) : σ → List (σ × σ) → σ → Prop
  | nil (s : σ) : Follows R s [] s
  | cons {s s' s'' : σ} {cs : List (σ × σ)} :
      R s s' → Follows R s' cs s'' → Follows R s ((s, s') :: cs) s''

namespace Follows
variable {σ : Type} {R : σ → σ → Prop} {s s' s'' : σ} {cs cs' : List (σ × σ)}

theorem append (h : Follows R s cs s') (h' : Follows R s' cs' s'') : Follows R s (cs ++ cs') s'' := by
  induction h with
  | nil => exact h'
  | cons hr _ ih => exact .cons hr (ih h')

theorem mem (h : Follows R s cs s') : ∀ c ∈ cs, R c.1 c.2 := by
  induction h with
  | nil => exact fun c hc => by cases hc
  | cons hr _ ih =>
    intro c hc
    rcases List.mem_cons.mp hc with rfl | hc
    · exact hr
    · exact ih c hc

/-- What every change keeps holds wherever a crash stops them. -/
theorem stopped {I : σ → Prop} (h : Follows R s cs s') (hI : ∀ a b, R a b → I a → I b) (hs : I s)
    (n : ℕ) : I ((cs.take n).foldl (fun _ c => c.2) s) := by
  induction h generalizing n with
  | nil =>
    rw [List.take_nil]
    exact hs
  | cons hr _ ih =>
    cases n with
    | zero => exact hs
    | succ n => exact ih (hI _ _ hr hs) n

end Follows

namespace Durable
variable {ε σ α β : Type}

/-- From a state with `P` the changes are in `R`, an answer ends in `Q` and an exception in `X`. -/
structure Ensures (R : σ → σ → Prop) (P : σ → Prop) (m : Durable ε σ α) (Q : α → σ → Prop)
    (X : ε → σ → Prop) : Prop where
  changes : ∀ s, P s → Follows R s (m s).1 (m s).2.2
  answer : ∀ s, P s → ∀ a, (m s).2.1 = .ok a → Q a (m s).2.2
  raised : ∀ s, P s → ∀ e, (m s).2.1 = .error e → X e (m s).2.2

variable {R : σ → σ → Prop} {P P' : σ → Prop} {m : Durable ε σ α} {Q Q' : α → σ → Prop}
  {X X' : ε → σ → Prop} {p : Prop} [Decidable p] {e : ε}

theorem Ensures.of_pure {a : α} (h : ∀ s, P s → Q a s) : Ensures R P (pure a : Durable ε σ α) Q X where
  changes := fun s _ => .nil s
  answer := fun s hs a' ha => by
    obtain rfl := Except.ok.inj ha
    exact h s hs
  raised := fun s _ e he => by cases he

theorem Ensures.of_raise (h : ∀ s, P s → X e s) : Ensures R P (raise e : Durable ε σ α) Q X where
  changes := fun s _ => .nil s
  answer := fun s _ a ha => by cases ha
  raised := fun s hs e' he => by
    obtain rfl := Except.error.inj he
    exact h s hs

theorem Ensures.of_select {f : σ → α} (h : ∀ s, P s → Q (f s) s) :
    Ensures R P (select f : Durable ε σ α) Q X where
  changes := fun s _ => .nil s
  answer := fun s hs a ha => by
    obtain rfl := Except.ok.inj ha
    exact h s hs
  raised := fun s _ e he => by cases he

theorem Ensures.of_lift {r : Except ε α} (hok : ∀ a, r = .ok a → ∀ s, P s → Q a s)
    (herror : ∀ e, r = .error e → ∀ s, P s → X e s) : Ensures R P (lift r : Durable ε σ α) Q X where
  changes := fun s _ => .nil s
  answer := fun s hs a ha => hok a ha s hs
  raised := fun s hs e he => herror e he s hs

theorem Ensures.of_change {f : σ → σ} {Q : Unit → σ → Prop}
    (h : ∀ s, P s → R s (f s) ∧ Q () (f s)) : Ensures R P (change f : Durable ε σ Unit) Q X where
  changes := fun s hs => .cons (h s hs).1 (.nil _)
  answer := fun s hs _ _ => (h s hs).2
  raised := fun s _ e he => by cases he

theorem Ensures.bind {f : α → Durable ε σ β} {M : α → σ → Prop} {Q : β → σ → Prop}
    (hm : Ensures R P m M X) (hf : ∀ a, Ensures R (M a) (f a) Q X) : Ensures R P (m >>= f) Q X := by
  have hcases : ∀ s, (∃ a, (m s).2.1 = .ok a ∧
      (m >>= f) s = ((m s).1 ++ (f a (m s).2.2).1, (f a (m s).2.2).2)) ∨
      ∃ e, (m s).2.1 = .error e ∧ (m >>= f) s = ((m s).1, .error e, (m s).2.2) := by
    intro s
    simp only [Bind.bind]
    rcases hms : m s with ⟨cs, r, s₁⟩
    cases r with
    | ok a => exact .inl ⟨a, rfl, rfl⟩
    | error e => exact .inr ⟨e, rfl, rfl⟩
  refine ⟨fun s hs => ?_, fun s hs b hb => ?_, fun s hs e he => ?_⟩
  · rcases hcases s with ⟨a, ha, heq⟩ | ⟨e, _, heq⟩
    · rw [heq]
      exact (hm.changes s hs).append ((hf a).changes _ (hm.answer s hs a ha))
    · rw [heq]
      exact hm.changes s hs
  · rcases hcases s with ⟨a, ha, heq⟩ | ⟨e, _, heq⟩
    · rw [heq] at hb ⊢
      exact (hf a).answer _ (hm.answer s hs a ha) b hb
    · rw [heq] at hb
      cases hb
  · rcases hcases s with ⟨a, ha, heq⟩ | ⟨e', he', heq⟩
    · rw [heq] at he ⊢
      exact (hf a).raised _ (hm.answer s hs a ha) e he
    · rw [heq] at he ⊢
      obtain rfl := Except.error.inj he
      exact hm.raised s hs _ he'

theorem Ensures.of_require {Q : Unit → σ → Prop} (hok : ∀ s, P s → p → Q () s)
    (herror : ∀ s, P s → ¬ p → X e s) : Ensures R P (require p e) Q X := by
  unfold require
  split_ifs with hp
  · exact .of_pure fun s hs => hok s hs hp
  · exact .of_raise fun s hs => herror s hs hp

theorem Ensures.of_ite {n : Durable ε σ α} (hpos : p → Ensures R P m Q X)
    (hneg : ¬ p → Ensures R P n Q X) : Ensures R P (if p then m else n) Q X := by
  split_ifs with hp
  · exact hpos hp
  · exact hneg hp

theorem Ensures.of_attempt {Q' : Except ε α → σ → Prop} (h : Ensures R P m Q X)
    (hok : ∀ a s, Q a s → Q' (.ok a) s) (herror : ∀ e s, X e s → Q' (.error e) s) :
    Ensures R P (attempt m) Q' X' where
  changes := h.changes
  answer := fun s hs r hr => by
    obtain rfl := Except.ok.inj hr
    show Q' (m s).2.1 (m s).2.2
    cases hend : (m s).2.1 with
    | ok a => exact hok a _ (h.answer s hs a hend)
    | error e => exact herror e _ (h.raised s hs e hend)
  raised := fun s _ e he => by cases he

omit [Decidable p] in
/-- A fact that holds wherever the program starts. -/
theorem Ensures.of_fact (hp : ∀ s, P s → p) (h : p → Ensures R P m Q X) : Ensures R P m Q X where
  changes := fun s hs => (h (hp s hs)).changes s hs
  answer := fun s hs => (h (hp s hs)).answer s hs
  raised := fun s hs => (h (hp s hs)).raised s hs

theorem Ensures.mono (h : Ensures R P m Q X) (hP : ∀ s, P' s → P s) (hQ : ∀ a s, Q a s → Q' a s)
    (hX : ∀ e s, X e s → X' e s) : Ensures R P' m Q' X' where
  changes := fun s hs => h.changes s (hP s hs)
  answer := fun s hs a ha => hQ a _ (h.answer s (hP s hs) a ha)
  raised := fun s hs e he => hX e _ (h.raised s (hP s hs) e he)

end Durable
end NyanyaAgent.Runs
