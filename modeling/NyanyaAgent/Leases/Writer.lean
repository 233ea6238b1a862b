import NyanyaAgent.Calendar.Iso
import NyanyaAgent.Relational.Transaction
import Mathlib.Algebra.Order.Group.Int

/-!
# Writer leases

`acquire_writer_lease`, `renew_writer_lease` and `release_writer_lease` over the table
of leases, with their instants as the texts the table holds.
-/
namespace NyanyaAgent.Leases
open NyanyaAgent.Relational NyanyaAgent.Calendar

abbrev ResourceKey := String
abbrev OwnerId := ℕ

structure WriterLease where
  resourceKey : ResourceKey
  ownerId : OwnerId
  fenceToken : ℕ
  metadata : String
  acquiredAt : List Char
  heartbeatAt : List Char
  expiresAt : List Char
  deriving DecidableEq

abbrev LeaseTable := Table WriterLease.resourceKey

inductive LeaseError
  /-- A date after the year 9999. -/
  | overflow
  deriving DecidableEq

/-- The text of an instant. -/
def isoformat (t : ℕ) : Except LeaseError (List Char) :=
  if (DateTime.ofSecond t).date.year < 10000 then .ok (DateTime.ofSecond t).iso else .error .overflow

/-- The seconds a lease lasts at least. -/
def minTtl : ℤ := 10

def expiry (now : ℕ) (ttlSeconds : ℤ) : ℕ := now + (max minTtl ttlSeconds).toNat

/-- The expiry a release writes. -/
def releasedAt : List Char := "1970-01-01T00:00:00+00:00".toList

/-- The lease is another owner's and its expiry, read as a datetime, lies ahead. -/
def HeldByOther (current : WriterLease) (ownerId : OwnerId) (now : ℕ) : Prop :=
  current.ownerId ≠ ownerId ∧
    (DateTime.parse current.expiresAt).any (fun e => (DateTime.ofSecond now).Before e) = true

instance (current : WriterLease) (ownerId : OwnerId) (now : ℕ) :
    Decidable (HeldByOther current ownerId now) := by unfold HeldByOther; infer_instance

/-- The row an acquisition writes over the present one. -/
def acquired (current : Option WriterLease) (resourceKey : ResourceKey) (ownerId : OwnerId)
    (metadata : String) (now expires : List Char) : WriterLease where
  resourceKey := resourceKey
  ownerId := ownerId
  fenceToken := match current with
    | some c => c.fenceToken + 1
    | none => 1
  metadata := metadata
  acquiredAt := match current with
    | some c => if c.ownerId = ownerId then c.acquiredAt else now
    | none => now
  heartbeatAt := now
  expiresAt := expires

/-- `INSERT … ON CONFLICT(resource_key) DO UPDATE`. -/
def upsert (row : WriterLease) (leases : LeaseTable) : LeaseTable :=
  match leases.insert row with
  | some leases' => leases'
  | none => leases.update (fun c => c.resourceKey = row.resourceKey)
      (fun c => { row with resourceKey := c.resourceKey })

def acquireWriterLease (resourceKey : ResourceKey) (ownerId : OwnerId) (ttlSeconds : ℤ)
    (metadata : String) (now : ℕ) : Tx LeaseError LeaseTable (Option WriterLease) := do
  let started ← Tx.lift (isoformat now)
  let expires ← Tx.lift (isoformat (expiry now ttlSeconds))
  let current ← Tx.select fun l : LeaseTable => l.get? resourceKey
  if ∃ c ∈ current, HeldByOther c ownerId now then
    pure none
  else do
    Tx.write (upsert (acquired current resourceKey ownerId metadata started expires))
    Tx.select fun l => l.get? resourceKey

/-- The condition of the `UPDATE` that renews; the expiry is compared as text. -/
def Renewable (resourceKey : ResourceKey) (ownerId : OwnerId) (fenceToken : ℕ) (now : List Char)
    (c : WriterLease) : Prop :=
  c.resourceKey = resourceKey ∧ c.ownerId = ownerId ∧ c.fenceToken = fenceToken ∧ now < c.expiresAt

instance (resourceKey : ResourceKey) (ownerId : OwnerId) (fenceToken : ℕ) (now : List Char) :
    DecidablePred (Renewable resourceKey ownerId fenceToken now) := fun c => by
  unfold Renewable; infer_instance

def renewWriterLease (resourceKey : ResourceKey) (ownerId : OwnerId) (fenceToken : ℕ)
    (ttlSeconds : ℤ) (now : ℕ) : Tx LeaseError LeaseTable (Option WriterLease) := do
  let heartbeat ← Tx.lift (isoformat now)
  let expires ← Tx.lift (isoformat (expiry now ttlSeconds))
  let changed ← Tx.select fun l : LeaseTable =>
    l.rows.any fun c => Renewable resourceKey ownerId fenceToken heartbeat c
  Tx.write fun l => l.update (Renewable resourceKey ownerId fenceToken heartbeat)
    (fun c => { c with heartbeatAt := heartbeat, expiresAt := expires })
  if changed = true then Tx.select fun l => l.get? resourceKey else pure none

/-- The row is the one the release names. -/
def Releasable (resourceKey : ResourceKey) (ownerId : OwnerId) (fenceToken : ℕ) (c : WriterLease) :
    Prop :=
  c.resourceKey = resourceKey ∧ c.ownerId = ownerId ∧ c.fenceToken = fenceToken

instance (resourceKey : ResourceKey) (ownerId : OwnerId) (fenceToken : ℕ) :
    DecidablePred (Releasable resourceKey ownerId fenceToken) := fun c => by
  unfold Releasable; infer_instance

def releaseWriterLease (resourceKey : ResourceKey) (ownerId : OwnerId) (fenceToken : ℕ) :
    Tx LeaseError LeaseTable Bool := do
  let changed ← Tx.select fun l : LeaseTable =>
    l.rows.any fun c => Releasable resourceKey ownerId fenceToken c
  Tx.write fun l => l.update (Releasable resourceKey ownerId fenceToken)
    (fun c => { c with expiresAt := releasedAt })
  pure changed

inductive LeaseCall
  | acquire (resourceKey : ResourceKey) (ownerId : OwnerId) (ttlSeconds : ℤ) (metadata : String)
  | renew (resourceKey : ResourceKey) (ownerId : OwnerId) (fenceToken : ℕ) (ttlSeconds : ℤ)
  | release (resourceKey : ResourceKey) (ownerId : OwnerId) (fenceToken : ℕ)
  deriving DecidableEq

/-- The table and the time of the last call. -/
structure LeaseState where
  leases : LeaseTable := .empty
  clock : ℕ := 0

/-- A call and its time. -/
structure TimedCall where
  now : ℕ
  call : LeaseCall
  deriving DecidableEq

def LeaseCall.run (now : ℕ) (l : LeaseTable) : LeaseCall → LeaseTable
  | .acquire r o ttl metadata => (Tx.commit (acquireWriterLease r o ttl metadata now) l).2
  | .renew r o k ttl => (Tx.commit (renewWriterLease r o k ttl now) l).2
  | .release r o k => (Tx.commit (releaseWriterLease r o k) l).2

def stepLease (s : LeaseState) (a : TimedCall) : LeaseState where
  leases := a.call.run a.now s.leases
  clock := a.now

/-- Times do not decrease. -/
def InOrder (s : LeaseState) (a : TimedCall) : Prop := s.clock ≤ a.now

instance (s : LeaseState) (a : TimedCall) : Decidable (InOrder s a) := by
  unfold InOrder; infer_instance

/-- What an acquisition answers. -/
def acquireAnswer (now : ℕ) (l : LeaseTable) (r : ResourceKey) (o : OwnerId) (ttl : ℤ)
    (metadata : String) : Except LeaseError (Option WriterLease) :=
  (Tx.commit (acquireWriterLease r o ttl metadata now) l).1

def renewAnswer (now : ℕ) (l : LeaseTable) (r : ResourceKey) (o : OwnerId) (k : ℕ) (ttl : ℤ) :
    Except LeaseError (Option WriterLease) :=
  (Tx.commit (renewWriterLease r o k ttl now) l).1

end NyanyaAgent.Leases
