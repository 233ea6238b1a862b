import NyanyaAgent.Runs.Invariant
import Mathlib.Data.List.Chain
import Mathlib.Data.List.Basic

/-!
# Notices with receipts

Senders look at a state that changes under them, tell what they find to whom it concerns, and
write a receipt after they have sent it. A notice that the last receipt of its recipient already
covers is dropped. Looking, checking, sending and writing the receipt are steps of their own, so
that senders may overtake each other, and stop, between any two of them.
-/
namespace NyanyaAgent.Feeds
open NyanyaAgent.Runs

variable {σ ξ ν ε κ ρ : Type*}

/-- How the senders work: the notice that a look at a state gives, its receipt, and whom and what
a receipt names. -/
structure Desk (σ ξ ν ε κ ρ : Type*) where
  look : σ → ξ → Option ν
  receipt : ν → ε
  key : ε → κ
  mark : ε → ρ

/-- A notice that was checked, with the number of receipts there were. -/
structure Outgoing (ν : Type*) where
  notice : ν
  seen : ℕ
  deriving DecidableEq

structure Board (σ ν ε : Type*) where
  state : σ
  past : List σ := []
  drafts : List ν := []
  checked : List (Outgoing ν) := []
  told : List (Outgoing ν) := []
  receipts : List ε := []

inductive Turn (σ ξ : Type*)
  | change (s : σ)
  | look (x : ξ)
  | check (i : ℕ)
  | send (i : ℕ)
  | record (i : ℕ)

namespace Desk
variable {D : Desk σ ξ ν ε κ ρ} {b b' : Board σ ν ε} {receipts more : List ε} {c : Outgoing ν} {n : ν}

/-- The notice is what a look gave at some moment. -/
def Found (D : Desk σ ξ ν ε κ ρ) (b : Board σ ν ε) (n : ν) : Prop :=
  ∃ s ∈ b.state :: b.past, ∃ x, D.look s x = some n

theorem Found.of_states (h : D.Found b n) (hs : ∀ s ∈ b.state :: b.past, s ∈ b'.state :: b'.past) :
    D.Found b' n := by
  obtain ⟨s, hmem, hx⟩ := h
  exact ⟨s, hs s hmem, hx⟩

section Latest
variable [DecidableEq κ]

/-- What the last receipt of a recipient names. -/
def latest (D : Desk σ ξ ν ε κ ρ) (receipts : List ε) (k : κ) : Option ρ :=
  ((receipts.filter fun e => D.key e = k).getLast?).map D.mark

/-- The notice repeats the last receipt of its recipient. -/
def Repeats (D : Desk σ ξ ν ε κ ρ) (receipts : List ε) (n : ν) : Prop :=
  D.latest receipts (D.key (D.receipt n)) = some (D.mark (D.receipt n))

/-- The receipts there were when the notice was checked did not name it last. -/
def Fresh (D : Desk σ ξ ν ε κ ρ) (receipts : List ε) (c : Outgoing ν) : Prop :=
  c.seen ≤ receipts.length ∧ ¬ D.Repeats (receipts.take c.seen) c.notice

/-- No two receipts of a recipient in a row name the same. -/
def Apart (D : Desk σ ξ ν ε κ ρ) (receipts : List ε) : Prop :=
  ∀ k, (receipts.filter fun e => D.key e = k).IsChain fun e e' => D.mark e ≠ D.mark e'

theorem latest_append (receipts more : List ε) (k : κ) :
    D.latest (receipts ++ more) k = (D.latest more k).or (D.latest receipts k) := by
  rw [latest, latest, latest, List.filter_append, List.getLast?_append, Option.map_or]

theorem latest_mem {k : κ} {r : ρ} (h : D.latest receipts k = some r) :
    ∃ e ∈ receipts, D.key e = k ∧ D.mark e = r := by
  rw [latest, Option.map_eq_some_iff] at h
  obtain ⟨e, he, hr⟩ := h
  have hmem := List.mem_of_getLast? he
  rw [List.mem_filter, decide_eq_true_eq] at hmem
  exact ⟨e, hmem.1, hmem.2, hr⟩

theorem Fresh.append (h : D.Fresh receipts c) : D.Fresh (receipts ++ more) c := by
  refine ⟨?_, ?_⟩
  · rw [List.length_append]
    exact h.1.trans (Nat.le_add_right _ _)
  · rw [List.take_append_of_le_length h.1]
    exact h.2

/-- A notice is told again only after the recipient was told something else. -/
theorem Fresh.between {before after : List ε} {e : ε} (h : D.Fresh receipts c)
    (hsplit : receipts.take c.seen = before ++ e :: after) (hkey : D.key e = D.key (D.receipt c.notice))
    (hmark : D.mark e = D.mark (D.receipt c.notice)) :
    ∃ e' ∈ after, D.key e' = D.key e ∧ D.mark e' ≠ D.mark e := by
  have hfresh := h.2
  rw [Repeats, hsplit, ← hkey, ← hmark, ← List.singleton_append, latest_append,
    latest_append] at hfresh
  have hself : D.latest [e] (D.key e) = some (D.mark e) := by simp [latest]
  cases hafter : D.latest after (D.key e) with
  | none =>
    rw [hafter, hself] at hfresh
    exact absurd rfl hfresh
  | some r =>
    rw [hafter] at hfresh
    obtain ⟨e', hmem, hkey', rfl⟩ := latest_mem hafter
    refine ⟨e', hmem, hkey', fun hsame => hfresh ?_⟩
    rw [Option.some_or, Option.some_or, hsame]

/-- A receipt that the last one of its recipient differs from. -/
theorem Apart.append (h : D.Apart receipts) (hnew : ¬ D.Repeats receipts n) :
    D.Apart (receipts ++ [D.receipt n]) := by
  intro k
  rw [List.filter_append]
  by_cases hk : D.key (D.receipt n) = k
  · rw [List.filter_cons_of_pos (by simpa using hk), List.filter_nil, List.isChain_append]
    refine ⟨h k, .singleton _, ?_⟩
    intro e he e' he' hsame
    obtain rfl : D.receipt n = e' := by simpa using he'
    apply hnew
    rw [Repeats, latest, hk, Option.mem_def.mp he, Option.map_some, hsame]
  · rw [List.filter_cons_of_neg (by simpa using hk), List.filter_nil, List.append_nil]
    exact h k

/-- What holds of a board at every moment. -/
structure Honest (D : Desk σ ξ ν ε κ ρ) (b : Board σ ν ε) : Prop where
  drafts : ∀ n ∈ b.drafts, D.Found b n
  checked : ∀ c ∈ b.checked, D.Found b c.notice ∧ D.Fresh b.receipts c
  told : ∀ c ∈ b.told, D.Found b c.notice ∧ D.Fresh b.receipts c
  recorded : ∀ e ∈ b.receipts, ∃ c ∈ b.told, D.receipt c.notice = e
  apart : D.Apart b.receipts

theorem Honest.init (s : σ) : D.Honest { state := s } where
  drafts := by simp
  checked := by simp
  told := by simp
  recorded := by simp
  apart := fun _ => .nil

/-- What the last receipt of a recipient names was told it. -/
theorem Honest.repeats_told (h : D.Honest b) (hn : D.Repeats b.receipts n) :
    ∃ c ∈ b.told, D.key (D.receipt c.notice) = D.key (D.receipt n) ∧
      D.mark (D.receipt c.notice) = D.mark (D.receipt n) := by
  obtain ⟨e, he, hkey, hmark⟩ := latest_mem hn
  obtain ⟨c, hc, rfl⟩ := h.recorded e he
  exact ⟨c, hc, hkey, hmark⟩

end Latest

section Steps
variable [DecidableEq κ] [DecidableEq ρ]

instance (D : Desk σ ξ ν ε κ ρ) (receipts : List ε) (n : ν) : Decidable (D.Repeats receipts n) := by
  unfold Repeats; infer_instance

/-- A receipt is written unless the last one says the same. -/
def record (D : Desk σ ξ ν ε κ ρ) (receipts : List ε) (n : ν) : List ε :=
  if D.Repeats receipts n then receipts else receipts ++ [D.receipt n]

def step (D : Desk σ ξ ν ε κ ρ) (b : Board σ ν ε) : Turn σ ξ → Board σ ν ε
  | .change s => { b with state := s, past := b.state :: b.past }
  | .look x => { b with drafts := b.drafts ++ (D.look b.state x).toList }
  | .check i =>
    match b.drafts[i]? with
    | none => b
    | some n => { b with
        drafts := b.drafts.eraseIdx i
        checked := if D.Repeats b.receipts n then b.checked
          else b.checked ++ [⟨n, b.receipts.length⟩] }
  | .send i =>
    match b.checked[i]? with
    | none => b
    | some c => { b with checked := b.checked.eraseIdx i, told := b.told ++ [c] }
  | .record i =>
    match b.told[i]? with
    | none => b
    | some c => { b with receipts := D.record b.receipts c.notice }

theorem record_cases (receipts : List ε) (n : ν) :
    D.Repeats receipts n ∧ D.record receipts n = receipts ∨
      ¬ D.Repeats receipts n ∧ D.record receipts n = receipts ++ [D.receipt n] := by
  by_cases h : D.Repeats receipts n
  · exact .inl ⟨h, if_pos h⟩
  · exact .inr ⟨h, if_neg h⟩

namespace Honest

theorem step (h : D.Honest b) (m : Turn σ ξ) : D.Honest (D.step b m) := by
  cases m with
  | change s =>
    have hstates : ∀ s' ∈ b.state :: b.past, s' ∈ s :: b.state :: b.past := fun _ =>
      List.mem_cons_of_mem _
    exact {
      drafts := fun n hn => (h.drafts n hn).of_states hstates
      checked := fun c hc => ⟨(h.checked c hc).1.of_states hstates, (h.checked c hc).2⟩
      told := fun c hc => ⟨(h.told c hc).1.of_states hstates, (h.told c hc).2⟩
      recorded := h.recorded
      apart := h.apart }
  | look x =>
    refine ⟨?_, h.checked, h.told, h.recorded, h.apart⟩
    intro n hn
    rcases List.mem_append.mp hn with hn | hn
    · exact h.drafts n hn
    · exact ⟨b.state, List.mem_cons_self, x, Option.mem_toList.mp hn⟩
  | check i =>
    simp only [Desk.step]
    split
    · exact h
    · next n hn =>
      have hfound := h.drafts n (List.mem_of_getElem? hn)
      refine ⟨fun d hd => h.drafts d (List.mem_of_mem_eraseIdx hd), ?_, h.told, h.recorded, h.apart⟩
      intro c hc
      dsimp only at hc
      split at hc
      · exact h.checked c hc
      · next hnew =>
        rcases List.mem_append.mp hc with hc | hc
        · exact h.checked c hc
        · obtain rfl := List.mem_singleton.mp hc
          refine ⟨hfound, le_rfl, ?_⟩
          rw [List.take_length]
          exact hnew
  | send i =>
    simp only [Desk.step]
    split
    · exact h
    · next c hc =>
      have hchecked := h.checked c (List.mem_of_getElem? hc)
      refine ⟨h.drafts, fun d hd => h.checked d (List.mem_of_mem_eraseIdx hd), ?_, ?_, h.apart⟩
      · intro d hd
        rcases List.mem_append.mp hd with hd | hd
        · exact h.told d hd
        · obtain rfl := List.mem_singleton.mp hd
          exact hchecked
      · intro e he
        obtain ⟨d, hd, hreceipt⟩ := h.recorded e he
        exact ⟨d, List.mem_append_left _ hd, hreceipt⟩
  | record i =>
    simp only [Desk.step]
    split
    · exact h
    · next c hc =>
      have hmem := List.mem_of_getElem? hc
      rcases D.record_cases b.receipts c.notice with ⟨_, heq⟩ | ⟨hnew, heq⟩
      · rw [heq]
        exact h
      · rw [heq]
        refine ⟨h.drafts, fun d hd => ⟨(h.checked d hd).1, (h.checked d hd).2.append⟩,
          fun d hd => ⟨(h.told d hd).1, (h.told d hd).2.append⟩, ?_, h.apart.append hnew⟩
        intro e he
        rcases List.mem_append.mp he with he | he
        · exact h.recorded e he
        · obtain rfl := List.mem_singleton.mp he
          exact ⟨c, hmem, rfl⟩

theorem run {ms : List (Turn σ ξ)} (h : D.Honest b) (hrun : Run D.step (fun _ _ => True) b ms b') :
    D.Honest b' :=
  hrun.invariant (fun _ m h _ => h.step m) h

end Honest

end Steps
end Desk
end NyanyaAgent.Feeds
