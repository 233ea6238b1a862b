import NyanyaAgent.Operations.StoredTimes
import NyanyaAgent.Safety.WriterFence

/-!
# Stored times are ordered as times

Texts of instants, whole or cut to the second, are ordered as the instants they show, by
characters and by bytes; so an expiry test on texts is the test on times.
-/
namespace NyanyaAgent.Safety
open NyanyaAgent.Schema NyanyaAgent.Relational NyanyaAgent.Operations NyanyaAgent.Calendar
open NyanyaAgent.Plans NyanyaAgent.Leases

variable {l : Ledger} {s t cutoff now : Time}

theorem storedTime_lt_iff (hs : Storable s) (ht : Storable t) :
    storedTime s < storedTime t ↔ s < t := by
  rw [storedTime, storedTime, StampFormat.text_lt_iff _ _ hs.2 ht.2, StampFormat.shown,
    StampFormat.shown, Int.lt_toNat, Int.toNat_of_nonneg hs.1]

theorem not_storedTime_lt (hs : Storable s) (ht : Storable t) :
    ¬ storedTime t < storedTime s ↔ s ≤ t := by
  rw [storedTime_lt_iff ht hs, Int.not_lt]

section Tests

variable {record : ClaimRecord} {owner : String} {generation : WorkerId}

theorem ownedOnTexts_eq (hl : StorableTimes l) (hnow : Storable now)
    (hcutoff : Storable (now - seconds 30)) :
    ownedOnTexts l record owner (storedTime now) (storedTime (now - seconds 30)) =
      ownedOperation l record owner now := by
  unfold ownedOnTexts ownedOperation
  cases l.operations.get? record.taskId with
  | none => rfl
  | some o =>
    cases l.tasks.get? record.taskId with
    | none => rfl
    | some t =>
      cases hc : l.claims.get? record.taskId with
      | none => rfl
      | some c =>
        cases l.executions.get? record.executionId with
        | none => rfl
        | some e =>
          cases hw : l.workers.get? record.workerId with
          | none => rfl
          | some w =>
            have hclaim := hl.claims c (Table.get?_eq_some.mp hc).1
            have hworker := hl.workers w (Table.get?_eq_some.mp hw).1
            refine if_congr ?_ rfl rfl
            rw [storedTime_lt_iff hnow hclaim, storedTime_lt_iff hcutoff hworker]

theorem interruptedOnTexts_iff (hl : StorableTimes l) (o : TaskOperation) (hcutoff : Storable cutoff)
    (hnow : Storable now) :
    InterruptedOnTexts l o (storedTime cutoff) (storedTime now) ↔ Interrupted l o cutoff now := by
  unfold InterruptedOnTexts Interrupted
  refine exists_congr fun w => and_congr_right fun hw => and_congr_right fun _ => ?_
  rw [storedTime_lt_iff (hl.workers w hw) hcutoff]
  refine or_congr Iff.rfl (or_congr Iff.rfl (exists_congr fun c => and_congr_right fun hc => ?_))
  rw [not_storedTime_lt (hl.claims c hc) hnow]

theorem workerReadyOnTexts_iff (hl : StorableTimes l) (hcutoff : Storable (now - seconds 30)) :
    WorkerReadyOnTexts l generation (storedTime (now - seconds 30)) ↔
      WorkerReady l generation now := by
  unfold WorkerReadyOnTexts WorkerReady
  refine exists_congr fun w => and_congr_right fun hw => and_congr_right fun _ =>
    and_congr_right fun _ => ?_
  rw [storedTime_lt_iff (hl.workers w hw) hcutoff, Int.not_lt]

theorem renewableOnTexts_iff (hl : StorableTimes l) (hnow : Storable now) {c : TaskClaim}
    (hc : c ∈ l.claims.rows) :
    RenewableOnTexts record (storedTime now) c ↔ Operations.Renewable record now c := by
  unfold RenewableOnTexts Operations.Renewable
  rw [storedTime_lt_iff hnow (hl.claims c hc)]

theorem expiredPlansOnTexts_eq (hl : StorableTimes l) (hnow : Storable now) :
    expiredPlansOnTexts l (storedTime now) = expiredPlans l now := by
  refine List.filter_congr fun p hp => ?_
  simp only [not_storedTime_lt (hl.plans p hp) hnow]

theorem expiredDraftsOnTexts_eq (hl : StorableTimes l) (hnow : Storable now) :
    expiredDraftsOnTexts l (storedTime now) =
      l.drafts.rows.filter fun d => d.status = .pending ∧ d.expiresAt < now := by
  refine List.filter_congr fun d hd => ?_
  simp only [storedTime_lt_iff (hl.drafts d hd) hnow]

end Tests

/-- Texts of instants of the years up to 9999 are ordered as the instants they show, and the
expiry tests on texts are the tests on times. -/
theorem stored_times_ordered :
    (∀ (f g : StampFormat) (s t : ℕ), yearOf s < 10000 → yearOf t < 10000 →
      (f.text s < g.text t ↔ f.shown s < g.shown t) ∧
        (f.text s = g.text t ↔ f.shown s = g.shown t) ∧
        (utf8Bytes (f.text s) < utf8Bytes (g.text t) ↔ f.shown s < g.shown t)) ∧
    (∀ (l : Ledger) (entry now : Time), StorableTimes l → Storable entry → Storable now →
      Storable (entry - seconds 30) →
      (∀ record owner, ownedOnTexts l record owner (storedTime entry)
        (storedTime (entry - seconds 30)) = ownedOperation l record owner entry) ∧
      (∀ o, InterruptedOnTexts l o (storedTime (entry - seconds 30)) (storedTime now) ↔
        Interrupted l o (entry - seconds 30) now) ∧
      (∀ generation, WorkerReadyOnTexts l generation (storedTime (entry - seconds 30)) ↔
        WorkerReady l generation entry) ∧
      (∀ record, ∀ c ∈ l.claims.rows, RenewableOnTexts record (storedTime now) c ↔
        Operations.Renewable record now c) ∧
      expiredPlansOnTexts l (storedTime now) = expiredPlans l now ∧
      expiredDraftsOnTexts l (storedTime now) =
        l.drafts.rows.filter fun d => d.status = .pending ∧ d.expiresAt < now) ∧
    ∀ (r : ResourceKey) (o : OwnerId) (k : ℕ) (c : WriterLease) (e now : ℕ), ExpiresAt c e →
      (DateTime.ofSecond now).date.year < 10000 →
      (Leases.Renewable r o k (DateTime.ofSecond now).iso c ↔
        c.resourceKey = r ∧ c.ownerId = o ∧ c.fenceToken = k ∧ now < e) := by
  refine ⟨fun f g s t hs ht => ⟨f.text_lt_iff g hs ht, f.text_eq_iff g hs ht, ?_⟩,
    fun l entry now hl hentry hnow hcutoff => ⟨fun _ _ => ownedOnTexts_eq hl hentry hcutoff,
      fun o => interruptedOnTexts_iff hl o hcutoff hnow,
      fun _ => workerReadyOnTexts_iff hl hcutoff,
      fun _ c hc => renewableOnTexts_iff hl hnow hc, expiredPlansOnTexts_eq hl hnow,
      expiredDraftsOnTexts_eq hl hnow⟩, fun r o k c e now he hnow => ?_⟩
  · rw [StampFormat.text, StampFormat.text, utf8Bytes_lt_iff (stampText_ascii _) (stampText_ascii _)]
    exact f.text_lt_iff g hs ht
  · unfold Leases.Renewable
    rw [he.1, iso_lt_iff_lt hnow he.2]

/-- Cut to the second, an instant shows an earlier one. -/
theorem stored_times_ordered_plain :
    StampFormat.second.text 1500000 < StampFormat.whole.text 1500000 :=
  (stored_times_ordered.1 .second .whole 1500000 1500000 (by decide) (by decide)).1.mpr (by decide)

end NyanyaAgent.Safety
