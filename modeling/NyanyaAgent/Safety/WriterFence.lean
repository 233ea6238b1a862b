import NyanyaAgent.Leases.Writer
import NyanyaAgent.Runs.Invariant

/-!
# Fencing of writer leases

Tokens of a resource only grow, an owner gives way only after its expiry or its own
release, and a lapsed lease is never renewed.
-/
namespace NyanyaAgent.Safety
open NyanyaAgent.Relational NyanyaAgent.Runs NyanyaAgent.Calendar NyanyaAgent.Leases

variable {s s' : LeaseState} {l l' : LeaseTable} {a : TimedCall} {as : List TimedCall}
  {r : ResourceKey} {o : OwnerId} {k now : ℕ} {ttl : ℤ} {metadata : String} {c c' : WriterLease}

/-- The expiry is the text of this instant. -/
structure ExpiresAt (c : WriterLease) (e : ℕ) : Prop where
  text : c.expiresAt = (DateTime.ofSecond e).iso
  year : (DateTime.ofSecond e).date.year < 10000

/-- The lease is over. -/
def Lapsed (c : WriterLease) (now : ℕ) : Prop := ∃ e ≤ now, c.expiresAt = (DateTime.ofSecond e).iso

theorem isoformat_ok {t : ℕ} {cs : List Char} (h : isoformat t = .ok cs) :
    (DateTime.ofSecond t).date.year < 10000 ∧ cs = (DateTime.ofSecond t).iso := by
  unfold isoformat at h
  split_ifs at h with hyear
  exact ⟨hyear, (Except.ok.inj h).symm⟩

theorem iso_lt_iff_lt {s t : ℕ} (hs : (DateTime.ofSecond s).date.year < 10000)
    (ht : (DateTime.ofSecond t).date.year < 10000) :
    (DateTime.ofSecond s).iso < (DateTime.ofSecond t).iso ↔ s < t := by
  rw [DateTime.iso_lt_iff (DateTime.ofSecond_valid s) (DateTime.ofSecond_valid t) hs ht,
    DateTime.ofSecond_before_iff]

theorem iso_injective {s t : ℕ} (hs : (DateTime.ofSecond s).date.year < 10000)
    (ht : (DateTime.ofSecond t).date.year < 10000)
    (h : (DateTime.ofSecond s).iso = (DateTime.ofSecond t).iso) : s = t := by
  have hlt := iso_lt_iff_lt hs ht
  have hgt := iso_lt_iff_lt ht hs
  rw [h] at hlt hgt
  have hirrefl := List.lt_irrefl (DateTime.ofSecond t).iso
  simp only [hirrefl, false_iff] at hlt hgt
  omega

theorem ExpiresAt.lapsed_iff {e : ℕ} (h : ExpiresAt c e)
    (hnow : (DateTime.ofSecond now).date.year < 10000) : Lapsed c now ↔ e ≤ now := by
  constructor
  · rintro ⟨e', he', htext⟩
    have hyear := (DateTime.year_mono he').trans_lt hnow
    rw [iso_injective h.year hyear (h.text.symm.trans htext)]
    exact he'
  · exact fun he => ⟨e, he, h.text⟩

theorem ExpiresAt.heldByOther_iff {e : ℕ} (h : ExpiresAt c e) :
    HeldByOther c o now ↔ c.ownerId ≠ o ∧ now < e := by
  unfold HeldByOther
  rw [h.text, DateTime.parse_iso (DateTime.ofSecond_valid e) h.year, Option.any_some,
    decide_eq_true_eq, DateTime.ofSecond_before_iff]

theorem releasedAt_eq : releasedAt = (DateTime.ofSecond 0).iso := by decide +kernel

theorem get?_upsert (row : WriterLease) (r : ResourceKey) :
    (upsert row l).get? r = if r = row.resourceKey then some row else l.get? r := by
  unfold upsert
  split
  · rename_i l' hl'
    exact Table.get?_insert hl' r
  · rename_i hnone
    by_cases hr : r = row.resourceKey
    · subst hr
      rw [if_pos rfl, Table.get?_update_key]
      cases hget : l.get? row.resourceKey with
      | none =>
        obtain ⟨l', hl'⟩ := Table.exists_insert hget
        rw [hl'] at hnone
        cases hnone
      | some c =>
        have hkey : c.resourceKey = row.resourceKey := Table.key_of_get? hget
        rw [Option.map_some, hkey]
    · rw [if_neg hr, Table.get?_update_ne _ _ _ hr]

theorem acquire_cases {answer : Option WriterLease}
    (h : Tx.Ran (acquireWriterLease r o ttl metadata now) l answer l') :
    (DateTime.ofSecond now).date.year < 10000 ∧
      (DateTime.ofSecond (expiry now ttl)).date.year < 10000 ∧
      ((∃ c, l.get? r = some c ∧ HeldByOther c o now) ∧ answer = none ∧ l' = l ∨
        (∀ c, l.get? r = some c → ¬ HeldByOther c o now) ∧
          answer = some (acquired (l.get? r) r o metadata (DateTime.ofSecond now).iso
            (DateTime.ofSecond (expiry now ttl)).iso) ∧
          l' = upsert (acquired (l.get? r) r o metadata (DateTime.ofSecond now).iso
            (DateTime.ofSecond (expiry now ttl)).iso) l) := by
  unfold acquireWriterLease at h
  simp only [Tx.ran_lift_bind, Tx.ran_select_bind, Tx.ran_ite, Tx.ran_pure, Tx.ran_write_bind,
    Tx.ran_select, Option.mem_def] at h
  obtain ⟨started, hstarted, expires, hexpires, hcases⟩ := h
  obtain ⟨hyear, rfl⟩ := isoformat_ok hstarted
  obtain ⟨hyear', rfl⟩ := isoformat_ok hexpires
  refine ⟨hyear, hyear', ?_⟩
  rcases hcases with ⟨hheld, hanswer, hl⟩ | ⟨hfree, hanswer, hl⟩
  · exact .inl ⟨hheld, hanswer, hl⟩
  · refine .inr ⟨fun c hc hheld => hfree ⟨c, hc, hheld⟩, ?_, hl⟩
    rw [hanswer, get?_upsert]
    exact if_pos rfl

theorem any_rows_iff {p : WriterLease → Prop} [DecidablePred p] :
    (l.rows.any fun c => p c) = true ↔ ∃ r c, l.get? r = some c ∧ p c := by
  rw [List.any_eq_true]
  constructor
  · rintro ⟨c, hc, hp⟩
    exact ⟨_, c, Table.mem_rows_iff.mp hc, of_decide_eq_true hp⟩
  · rintro ⟨r, c, hc, hp⟩
    exact ⟨c, (Table.get?_eq_some.mp hc).1, decide_eq_true hp⟩

theorem renew_cases {answer : Option WriterLease}
    (h : Tx.Ran (renewWriterLease r o k ttl now) l answer l') :
    (DateTime.ofSecond now).date.year < 10000 ∧
      (DateTime.ofSecond (expiry now ttl)).date.year < 10000 ∧
      l' = l.update (Renewable r o k (DateTime.ofSecond now).iso)
        (fun c => { c with
          heartbeatAt := (DateTime.ofSecond now).iso
          expiresAt := (DateTime.ofSecond (expiry now ttl)).iso }) ∧
      (answer.isSome = true → ∃ c, l.get? r = some c ∧
        Renewable r o k (DateTime.ofSecond now).iso c) := by
  unfold renewWriterLease at h
  simp only [Tx.ran_lift_bind, Tx.ran_select_bind, Tx.ran_write_bind, Tx.ran_ite, Tx.ran_pure,
    Tx.ran_select, any_rows_iff] at h
  obtain ⟨heartbeat, hheartbeat, expires, hexpires, hcases⟩ := h
  obtain ⟨hyear, rfl⟩ := isoformat_ok hheartbeat
  obtain ⟨hyear', rfl⟩ := isoformat_ok hexpires
  refine ⟨hyear, hyear', ?_⟩
  rcases hcases with ⟨⟨r', c, hc, hrenewable⟩, hanswer, hl⟩ | ⟨_, rfl, hl⟩
  · refine ⟨hl, fun _ => ⟨c, ?_, hrenewable⟩⟩
    have hkey : c.resourceKey = r' := Table.key_of_get? hc
    rw [← hrenewable.1, hkey]
    exact hc
  · exact ⟨hl, fun hsome => by cases hsome⟩

theorem release_cases {answer : Bool} (h : Tx.Ran (releaseWriterLease r o k) l answer l') :
    l' = l.update (Releasable r o k) (fun c => { c with expiresAt := releasedAt }) := by
  unfold releaseWriterLease at h
  simp only [Tx.ran_select_bind, Tx.ran_write_bind, Tx.ran_pure] at h
  exact h.2

/-- What a call does to the lease of a resource. -/
inductive Moved (a : TimedCall) (r : ResourceKey) (b : Option WriterLease) :
    Option WriterLease → Prop
  | kept : Moved a r b b
  | acquired {o : OwnerId} {ttl : ℤ} {metadata : String}
      (hcall : a.call = .acquire r o ttl metadata)
      (hyear : (DateTime.ofSecond a.now).date.year < 10000)
      (hyear' : (DateTime.ofSecond (expiry a.now ttl)).date.year < 10000)
      (hfree : ∀ c, b = some c → ¬ HeldByOther c o a.now) :
      Moved a r b (some (Leases.acquired b r o metadata (DateTime.ofSecond a.now).iso
        (DateTime.ofSecond (expiry a.now ttl)).iso))
  | renewed {c : WriterLease} {ttl : ℤ} (hrow : b = some c)
      (hcall : a.call = .renew r c.ownerId c.fenceToken ttl)
      (hyear : (DateTime.ofSecond a.now).date.year < 10000)
      (hyear' : (DateTime.ofSecond (expiry a.now ttl)).date.year < 10000)
      (hlive : (DateTime.ofSecond a.now).iso < c.expiresAt) :
      Moved a r b (some { c with
        heartbeatAt := (DateTime.ofSecond a.now).iso
        expiresAt := (DateTime.ofSecond (expiry a.now ttl)).iso })
  | released {c : WriterLease} (hrow : b = some c)
      (hcall : a.call = .release r c.ownerId c.fenceToken) :
      Moved a r b (some { c with expiresAt := releasedAt })

theorem step_moved (s : LeaseState) (a : TimedCall) (r : ResourceKey) :
    Moved a r (s.leases.get? r) ((stepLease s a).leases.get? r) := by
  obtain ⟨now, call⟩ := a
  cases call with
  | acquire r' o ttl metadata =>
    simp only [stepLease, LeaseCall.run]
    rcases Tx.commit_cases (acquireWriterLease r' o ttl metadata now) s.leases with
      ⟨answer, l', hran, hcommit⟩ | ⟨e, _, hcommit⟩
    · rw [hcommit]
      obtain ⟨hyear, hyear', ⟨_, _, rfl⟩ | ⟨hfree, _, rfl⟩⟩ := acquire_cases hran
      · exact .kept
      · rw [get?_upsert]
        split_ifs with hr
        · have hkey : r = r' := hr
          subst hkey
          exact .acquired rfl hyear hyear' hfree
        · exact .kept
    · rw [hcommit]
      exact .kept
  | renew r' o k ttl =>
    simp only [stepLease, LeaseCall.run]
    rcases Tx.commit_cases (renewWriterLease r' o k ttl now) s.leases with
      ⟨answer, l', hran, hcommit⟩ | ⟨e, _, hcommit⟩
    · rw [hcommit]
      obtain ⟨hyear, hyear', rfl, _⟩ := renew_cases hran
      dsimp only
      rw [Table.get?_update]
      cases hc : s.leases.get? r with
      | none => exact .kept
      | some c =>
        rw [Option.map_some]
        split_ifs with hrenewable
        · obtain ⟨hkey, howner, htoken, hlive⟩ := hrenewable
          have hkey' : c.resourceKey = r := Table.key_of_get? hc
          have hcall : TimedCall.call ⟨now, .renew r' o k ttl⟩ =
              .renew r c.ownerId c.fenceToken ttl := by
            rw [← hkey, hkey', howner, htoken]
          exact .renewed rfl hcall hyear hyear' hlive
        · exact .kept
    · rw [hcommit]
      exact .kept
  | release r' o k =>
    simp only [stepLease, LeaseCall.run]
    rcases Tx.commit_cases (releaseWriterLease r' o k) s.leases with
      ⟨answer, l', hran, hcommit⟩ | ⟨e, _, hcommit⟩
    · rw [hcommit]
      have hl := release_cases hran
      dsimp only
      rw [hl, Table.get?_update]
      cases hc : s.leases.get? r with
      | none => exact .kept
      | some c =>
        rw [Option.map_some]
        split_ifs with hreleasable
        · obtain ⟨hkey, howner, htoken⟩ := hreleasable
          have hkey' : c.resourceKey = r := Table.key_of_get? hc
          have hcall : TimedCall.call ⟨now, .release r' o k⟩ =
              .release r c.ownerId c.fenceToken := by
            rw [← hkey, hkey', howner, htoken]
          exact .released rfl hcall
        · exact .kept
    · rw [hcommit]
      exact .kept

/-- The token of a resource, zero before its first lease. -/
def fenceToken (b : Option WriterLease) : ℕ := b.elim 0 (·.fenceToken)

theorem fenceToken_acquired {b : Option WriterLease} {started expires : List Char} :
    (acquired b r o metadata started expires).fenceToken = fenceToken b + 1 := by
  cases b <;> rfl

theorem Moved.fenceToken_le {b b' : Option WriterLease} (h : Moved a r b b') :
    fenceToken b ≤ fenceToken b' := by
  cases h with
  | kept => exact Nat.le_refl _
  | acquired =>
    show _ ≤ (Leases.acquired b r _ _ _ _).fenceToken
    rw [fenceToken_acquired]
    exact Nat.le_succ _
  | renewed hrow => rw [hrow]; exact Nat.le_refl _
  | released hrow => rw [hrow]; exact Nat.le_refl _

theorem expiry_gt (now : ℕ) (ttl : ℤ) : now < expiry now ttl := by
  unfold expiry minTtl
  omega

theorem Moved.expiresAt {b : Option WriterLease} (h : Moved a r b (some c'))
    (hb : ∀ c, b = some c → ∃ e, ExpiresAt c e) : ∃ e, ExpiresAt c' e := by
  generalize hb' : some c' = b' at h
  cases h with
  | kept => exact hb c' hb'.symm
  | acquired _ _ hyear' =>
    cases hb'
    exact ⟨_, rfl, hyear'⟩
  | renewed _ _ _ hyear' =>
    cases hb'
    exact ⟨_, rfl, hyear'⟩
  | released =>
    cases hb'
    exact ⟨0, releasedAt_eq, by decide⟩

/-- Every expiry was written by one of the calls. -/
def Written (s : LeaseState) : Prop := ∀ r c, s.leases.get? r = some c → ∃ e, ExpiresAt c e

theorem Written.step (h : Written s) (a : TimedCall) : Written (stepLease s a) := by
  intro r c' hc'
  have hmoved := step_moved s a r
  rw [hc'] at hmoved
  exact hmoved.expiresAt fun c hc => h r c hc

theorem written_empty (h : s.leases = .empty) : Written s := by
  intro r c hc
  rw [h] at hc
  cases hc

theorem acquireAnswer_ok (h : acquireAnswer now l r o ttl metadata = .ok (some c)) :
    ∃ l', Tx.commit (acquireWriterLease r o ttl metadata now) l = (.ok (some c), l') ∧
      Tx.Ran (acquireWriterLease r o ttl metadata now) l (some c) l' := by
  unfold acquireAnswer at h
  rcases Tx.commit_cases (acquireWriterLease r o ttl metadata now) l with
    ⟨answer, l', hran, hcommit⟩ | ⟨e, _, hcommit⟩
  · rw [hcommit] at h
    obtain rfl := Except.ok.inj h
    exact ⟨l', hcommit, hran⟩
  · rw [hcommit] at h
    cases h

/-- A successful acquisition finds no live lease of another owner and takes a new token. -/
theorem acquireAnswer_spec (h : acquireAnswer now s.leases r o ttl metadata = .ok (some c)) :
    (DateTime.ofSecond now).date.year < 10000 ∧
      (∀ b, s.leases.get? r = some b → ¬ HeldByOther b o now) ∧
      c.fenceToken = fenceToken (s.leases.get? r) + 1 ∧
      (stepLease s ⟨now, .acquire r o ttl metadata⟩).leases.get? r = some c := by
  obtain ⟨l', hcommit, hran⟩ := acquireAnswer_ok h
  obtain ⟨hyear, _, ⟨_, hnone, _⟩ | ⟨hfree, hsome, hl⟩⟩ := acquire_cases hran
  · cases hnone
  · refine ⟨hyear, hfree, ?_, ?_⟩
    · rw [Option.some.inj hsome, fenceToken_acquired]
    · simp only [stepLease, LeaseCall.run]
      rw [hcommit, hl]
      dsimp only
      rw [get?_upsert, hsome]
      exact if_pos rfl

/-- The token a call takes for a resource. -/
def issued (r : ResourceKey) (s : LeaseState) (a : TimedCall) : List ℕ :=
  match a.call with
  | .acquire r' o ttl metadata =>
    if r' = r then
      match acquireAnswer a.now s.leases r o ttl metadata with
      | .ok (some c) => [c.fenceToken]
      | _ => []
    else []
  | _ => []

/-- The tokens the acquisitions of a run take for a resource, in their order. -/
def tokens (r : ResourceKey) : LeaseState → List TimedCall → List ℕ
  | _, [] => []
  | s, a :: as => issued r s a ++ tokens r (stepLease s a) as

theorem mem_issued (h : k ∈ issued r s a) :
    fenceToken (s.leases.get? r) < k ∧ k ≤ fenceToken ((stepLease s a).leases.get? r) := by
  obtain ⟨now, call⟩ := a
  unfold issued at h
  cases call with
  | acquire r' o ttl metadata =>
    dsimp only at h
    split_ifs at h with hr
    · subst hr
      split at h
      · rename_i c hanswer
        obtain ⟨_, _, htoken, hget⟩ := acquireAnswer_spec hanswer
        rw [List.mem_singleton] at h
        rw [hget, h]
        exact ⟨by omega, Nat.le_refl _⟩
      · cases h
    · cases h
  | renew r' o k ttl => cases h
  | release r' o k => cases h

theorem pairwise_issued (r : ResourceKey) (s : LeaseState) (a : TimedCall) :
    (issued r s a).Pairwise (· < ·) := by
  unfold issued
  split
  · split_ifs
    · split
      · exact List.pairwise_singleton _ _
      · exact .nil
    · exact .nil
  · exact .nil

theorem fenceToken_step (s : LeaseState) (a : TimedCall) (r : ResourceKey) :
    fenceToken (s.leases.get? r) ≤ fenceToken ((stepLease s a).leases.get? r) :=
  (step_moved s a r).fenceToken_le

/-- The tokens of a run lie above the first and not above the last token of the resource. -/
theorem mem_tokens (as : List TimedCall) : ∀ s, k ∈ tokens r s as →
    fenceToken (s.leases.get? r) < k ∧
      k ≤ fenceToken ((as.foldl stepLease s).leases.get? r) := by
  induction as with
  | nil => exact fun s h => by cases h
  | cons a as ih =>
    intro s h
    have hmono : ∀ (as : List TimedCall) s, fenceToken (s.leases.get? r) ≤
        fenceToken ((as.foldl stepLease s).leases.get? r) := by
      intro as
      induction as with
      | nil => exact fun s => Nat.le_refl _
      | cons a as ih => exact fun s => (fenceToken_step s a r).trans (ih _)
    rcases List.mem_append.mp h with hnow | hlater
    · obtain ⟨hlt, hle⟩ := mem_issued hnow
      exact ⟨hlt, hle.trans (hmono as _)⟩
    · obtain ⟨hlt, hle⟩ := ih _ hlater
      exact ⟨(fenceToken_step s a r).trans_lt hlt, hle⟩

theorem pairwise_tokens (r : ResourceKey) (as : List TimedCall) :
    ∀ s, (tokens r s as).Pairwise (· < ·) := by
  induction as with
  | nil => exact fun s => .nil
  | cons a as ih =>
    intro s
    rw [tokens, List.pairwise_append]
    refine ⟨pairwise_issued r s a, ih _, ?_⟩
    intro j hj k hk
    exact (mem_issued hj).2.trans_lt (mem_tokens as _ hk).1

theorem Lapsed.mono {now' : ℕ} (h : Lapsed c now) (hle : now ≤ now') : Lapsed c now' := by
  obtain ⟨e, he, htext⟩ := h
  exact ⟨e, he.trans hle, htext⟩

theorem lapsed_released (now : ℕ) : Lapsed { c with expiresAt := releasedAt } now :=
  ⟨0, Nat.zero_le _, releasedAt_eq⟩

theorem not_lapsed_of_lt {e : ℕ} (h : ExpiresAt c e)
    (hyear : (DateTime.ofSecond now).date.year < 10000)
    (hlive : (DateTime.ofSecond now).iso < c.expiresAt) : ¬ Lapsed c now := by
  rw [h.text, iso_lt_iff_lt hyear h.year] at hlive
  rw [h.lapsed_iff hyear]
  omega

/-- The pair can not renew the lease from this time on. -/
structure RetiredLease (r : ResourceKey) (o : OwnerId) (k : ℕ) (s : LeaseState) : Prop where
  written : Written s
  token : k ≤ fenceToken (s.leases.get? r)
  lapsed : ∀ c, s.leases.get? r = some c → c.ownerId = o → c.fenceToken = k → Lapsed c s.clock

theorem RetiredLease.step (h : RetiredLease r o k s) (ha : InOrder s a) : RetiredLease r o k (stepLease s a) where
  written := h.written.step a
  token := h.token.trans (fenceToken_step s a r)
  lapsed := by
    intro c' hc' howner htoken
    have hmoved := step_moved s a r
    rw [hc'] at hmoved
    generalize hb : s.leases.get? r = b at hmoved
    generalize hb' : some c' = b' at hmoved
    cases hmoved with
    | kept => exact (h.lapsed c' (hb.trans hb'.symm) howner htoken).mono ha
    | acquired =>
      obtain rfl := Option.some.inj hb'
      rw [fenceToken_acquired] at htoken
      have hle := h.token
      rw [hb] at hle
      omega
    | @renewed c ttl hrow _ hyear _ hlive =>
      obtain rfl := Option.some.inj hb'
      obtain ⟨e, he⟩ := h.written r c (hb.trans hrow)
      exact absurd ((h.lapsed c (hb.trans hrow) howner htoken).mono ha)
        (not_lapsed_of_lt he hyear hlive)
    | released =>
      obtain rfl := Option.some.inj hb'
      exact lapsed_released _

theorem renewAnswer_spec (h : renewAnswer now s.leases r o k ttl = .ok (some c)) :
    (DateTime.ofSecond now).date.year < 10000 ∧ ∃ b, s.leases.get? r = some b ∧ b.ownerId = o ∧
      b.fenceToken = k ∧ (DateTime.ofSecond now).iso < b.expiresAt := by
  unfold renewAnswer at h
  rcases Tx.commit_cases (renewWriterLease r o k ttl now) s.leases with
    ⟨answer, l', hran, hcommit⟩ | ⟨e, _, hcommit⟩
  · rw [hcommit] at h
    obtain rfl := Except.ok.inj h
    obtain ⟨hyear, _, _, hrow⟩ := renew_cases hran
    obtain ⟨b, hb, _, howner, htoken, hlive⟩ := hrow rfl
    exact ⟨hyear, b, hb, howner, htoken, hlive⟩
  · rw [hcommit] at h
    cases h

theorem Written.renew_live (hw : Written s) (h : renewAnswer now s.leases r o k ttl = .ok (some c)) :
    ∃ b, s.leases.get? r = some b ∧ b.ownerId = o ∧ b.fenceToken = k ∧ ¬ Lapsed b now := by
  obtain ⟨hyear, b, hb, howner, htoken, hlive⟩ := renewAnswer_spec h
  obtain ⟨e, he⟩ := hw r b hb
  exact ⟨b, hb, howner, htoken, not_lapsed_of_lt he hyear hlive⟩

/-- A call naming another owner or token leaves the table alone. -/
theorem foreign_unchanged
    (h : ∀ b, s.leases.get? r = some b → ¬ (b.ownerId = o ∧ b.fenceToken = k)) :
    (∀ ttl, (stepLease s ⟨now, .renew r o k ttl⟩).leases = s.leases) ∧
      (stepLease s ⟨now, .release r o k⟩).leases = s.leases := by
  have hforeign : ∀ c ∈ s.leases.rows, c.resourceKey = r → c.ownerId = o → c.fenceToken ≠ k := by
    intro c hc hkey howner htoken
    have hget := Table.mem_rows_iff.mp hc
    rw [hkey] at hget
    exact h c hget ⟨howner, htoken⟩
  constructor
  · intro ttl
    simp only [stepLease, LeaseCall.run]
    rcases Tx.commit_cases (renewWriterLease r o k ttl now) s.leases with
      ⟨answer, l', hran, hcommit⟩ | ⟨e, _, hcommit⟩
    · rw [hcommit]
      obtain ⟨_, _, hl, _⟩ := renew_cases hran
      have hnone : ∀ c ∈ s.leases.rows, ¬ Renewable r o k (DateTime.ofSecond now).iso c := by
        rintro c hc ⟨hkey, howner, htoken, _⟩
        exact hforeign c hc hkey howner htoken
      rw [hl]
      apply Table.update_eq_self
      · exact fun _ => rfl
      · exact hnone
    · rw [hcommit]
  · simp only [stepLease, LeaseCall.run]
    rcases Tx.commit_cases (releaseWriterLease r o k) s.leases with
      ⟨answer, l', hran, hcommit⟩ | ⟨e, _, hcommit⟩
    · rw [hcommit]
      have hl := release_cases hran
      have hnone : ∀ c ∈ s.leases.rows, ¬ Releasable r o k c := by
        rintro c hc ⟨hkey, howner, htoken⟩
        exact hforeign c hc hkey howner htoken
      rw [hl]
      apply Table.update_eq_self
      · exact fun _ => rfl
      · exact hnone
    · rw [hcommit]

/-- A lease that is live before a call and over after it was released by its own pair. -/
theorem ended_by_release (ha : a.now = now)
    (hb : s.leases.get? r = some c) (hb' : (stepLease s a).leases.get? r = some c')
    (hlive : ¬ Lapsed c now) (hover : Lapsed c' now) :
    a.call = .release r c.ownerId c.fenceToken := by
  have hmoved := step_moved s a r
  rw [hb, hb'] at hmoved
  subst ha
  generalize hbefore : some c = b at hmoved
  generalize hafter : some c' = b' at hmoved
  cases hmoved with
  | kept =>
    rw [← hbefore] at hafter
    obtain rfl := Option.some.inj hafter
    exact absurd hover hlive
  | @acquired o ttl metadata _ hyear hyear' =>
    obtain rfl := Option.some.inj hafter
    have hexpires : ExpiresAt (Leases.acquired b r o metadata (DateTime.ofSecond a.now).iso
        (DateTime.ofSecond (expiry a.now ttl)).iso) (expiry a.now ttl) := ⟨rfl, hyear'⟩
    rw [hexpires.lapsed_iff hyear] at hover
    have hgt := expiry_gt a.now ttl
    omega
  | @renewed c₀ ttl _ _ hyear hyear' =>
    obtain rfl := Option.some.inj hafter
    have hexpires : ExpiresAt { c₀ with
        heartbeatAt := (DateTime.ofSecond a.now).iso
        expiresAt := (DateTime.ofSecond (expiry a.now ttl)).iso } (expiry a.now ttl) := ⟨rfl, hyear'⟩
    rw [hexpires.lapsed_iff hyear] at hover
    have hgt := expiry_gt a.now ttl
    omega
  | released hrow hcall =>
    rw [← hbefore] at hrow
    rw [Option.some.inj hrow]
    exact hcall

/-- After any calls at times that do not decrease: the tokens a resource gave out grow, an
acquisition takes a larger one and finds the lease its own owner's or over, only the exact pair
renews or releases, a lease is over by time or by its own release, and is not renewed then. -/
theorem writer_fenced {s₀ s : LeaseState} {as : List TimedCall} (h₀ : s₀.leases = .empty)
    (h : Run stepLease InOrder s₀ as s) (r : ResourceKey) :
    (tokens r s₀ as).Pairwise (· < ·) ∧ ∀ now, s.clock ≤ now →
      (∀ o ttl metadata c, acquireAnswer now s.leases r o ttl metadata = .ok (some c) →
        (∀ k ∈ tokens r s₀ as, k < c.fenceToken) ∧
          ∀ b, s.leases.get? r = some b → b.ownerId = o ∨ Lapsed b now) ∧
      (∀ o k, (∀ b, s.leases.get? r = some b → ¬ (b.ownerId = o ∧ b.fenceToken = k)) →
        (∀ ttl, (stepLease s ⟨now, .renew r o k ttl⟩).leases = s.leases) ∧
          (stepLease s ⟨now, .release r o k⟩).leases = s.leases) ∧
      (∀ call c c', s.leases.get? r = some c → (stepLease s ⟨now, call⟩).leases.get? r = some c' →
        ¬ Lapsed c now → Lapsed c' now → call = .release r c.ownerId c.fenceToken) ∧
      (∀ c, s.leases.get? r = some c → Lapsed c now → ∀ as' s',
        Run stepLease InOrder { s with clock := now } as' s' → ∀ now', s'.clock ≤ now' →
          ∀ ttl c', renewAnswer now' s'.leases r c.ownerId c.fenceToken ttl ≠ .ok (some c')) ∧
      ∀ o o' k k' ttl ttl' c c', renewAnswer now s.leases r o k ttl = .ok (some c) →
        renewAnswer now s.leases r o' k' ttl' = .ok (some c') → o = o' ∧ k = k' := by
  have hw : Written s := h.invariant (fun s a hs _ => hs.step a) (written_empty h₀)
  refine ⟨pairwise_tokens r as s₀, fun now hnow => ⟨?_, ?_, ?_, ?_, ?_⟩⟩
  · intro o ttl metadata c hanswer
    obtain ⟨_, hfree, htoken, _⟩ := acquireAnswer_spec hanswer
    constructor
    · intro k hk
      have hle := (mem_tokens as s₀ hk).2
      rw [← h.eq_foldl] at hle
      omega
    · intro b hb
      obtain ⟨e, he⟩ := hw r b hb
      have hb' := hfree b hb
      rw [he.heldByOther_iff] at hb'
      by_cases howner : b.ownerId = o
      · exact .inl howner
      · have hpast : ¬ now < e := fun hlt => hb' ⟨howner, hlt⟩
        exact .inr ⟨e, Nat.le_of_not_lt hpast, he.text⟩
  · exact fun o k hforeign => foreign_unchanged hforeign
  · exact fun call c c' hc hc' hlive hover => ended_by_release rfl hc hc' hlive hover
  · intro c hc hlapsed as' s' hrun now' hnow' ttl c' hanswer
    have hretired : RetiredLease r c.ownerId c.fenceToken { s with clock := now } := by
      refine ⟨hw, ?_, ?_⟩
      · rw [hc]
        exact Nat.le_refl _
      · intro b hb _ _
        rw [hc] at hb
        rw [← Option.some.inj hb]
        exact hlapsed
    have hretired' := hrun.invariant (fun s a hs ha => hs.step ha) hretired
    obtain ⟨b, hb, howner, htoken, hlive⟩ := hretired'.written.renew_live hanswer
    exact hlive ((hretired'.lapsed b hb howner htoken).mono hnow')
  · intro o o' k k' ttl ttl' c c' hanswer hanswer'
    obtain ⟨b, hb, rfl, rfl, _⟩ := hw.renew_live hanswer
    obtain ⟨b', hb', rfl, rfl, _⟩ := hw.renew_live hanswer'
    rw [hb] at hb'
    rw [Option.some.inj hb']
    exact ⟨rfl, rfl⟩

/-- One owner leases a resource and a second one takes it over after the expiry. -/
def plainLeases : List TimedCall :=
  [⟨0, .acquire "r" 1 5 ""⟩, ⟨9, .acquire "r" 2 5 ""⟩, ⟨12, .acquire "r" 2 5 ""⟩]

theorem writer_fenced_plain : tokens "r" {} plainLeases = [1, 2] ∧ [1, 2].Pairwise (· < ·) ∧
    (∀ c, acquireAnswer 30 (plainLeases.foldl stepLease {}).leases "r" 1 5 "" = .ok (some c) →
      2 < c.fenceToken) := by
  have htokens : tokens "r" {} plainLeases = [1, 2] := by decide +kernel
  have hrun : Run stepLease InOrder {} plainLeases (plainLeases.foldl stepLease {}) :=
    .cons (by decide) (.cons (by decide) (.cons (by decide) (.nil _)))
  obtain ⟨hpairwise, hlater⟩ := writer_fenced rfl hrun "r"
  obtain ⟨hacquire, _⟩ := hlater 30 (by decide +kernel)
  rw [htokens] at hpairwise hacquire
  exact ⟨htokens, hpairwise, fun c hc => (hacquire 1 5 "" c hc).1 2 (by decide)⟩

end NyanyaAgent.Safety
