import Fugue.ChainedVersions
import Mathlib.Order.Lattice

/-! The timestamps that a store keeps for its versions and transactions, and the system of any
number of transactions with such a store. -/

namespace Fugue

open TransactionExecution

variable {ι K V S : Type}

namespace TxnEntry

/-- `NewTxn` records an entry without a commit timestamp. -/
def opened (t : TxnEntry) : TxnEntry := { t with status := .ongoing, commitTs := kDefaultCommitTs }

/-- `SetCommitTimestamp` fixes the timestamp, not below the lower bound. -/
def fixed (t : TxnEntry) (commitTs : ℤ) : TxnEntry :=
  { t with commitTs := max commitTs t.commitLowerBound }

/-- `UpdateCommitLowerBound` has an effect while the timestamp is not fixed. -/
def raised (t : TxnEntry) (lowerBound : ℤ) : TxnEntry :=
  if t.commitTs = kDefaultCommitTs then
    t.resetLowerBound (max t.commitLowerBound lowerBound)
  else t

end TxnEntry

/-- The owner of the version after `version` if that one is not committed. -/
def VersionStore.owner (l : List VersionEntry) (version : ℤ) : ℤ :=
  ((l.find? fun d => ¬ d.Committed ∧ d.version = version + 1).map VersionEntry.txId).getD
    VersionEntry.kEmptyTxId

def Reply.latestReader {op : Op} (r : Reply V op) : Option ℤ :=
  match op, r with
  | .uploadVersionEntry _, r => some r.result
  | _, _ => none

def Reply.version {op : Op} (r : Reply V op) : Option VersionEntry :=
  match op, r with
  | .updateReadEntryMaxCommitTs _, r => some r.result
  | _, _ => none

def Reply.txnEntry {op : Op} (r : Reply V op) : Option TxnEntry :=
  match op, r with
  | .pushConflictTxnCommitTsLowerBound _, r => some r.result
  | _, _ => none

/-- `max_commit_ts_` of the versions, and the entries of the transactions, which are kept for
ever. -/
structure Timestamps (K : Type) where
  maxCommitTs : SetKey K → ℤ → ℤ
  entry : ℤ → Option TxnEntry

namespace Timestamps

def empty : Timestamps K := ⟨fun _ _ => 0, fun _ => none⟩

def Answers (t : Timestamps K) (store : VersionStore K) {op : Op} (c : HandlerCall K)
    (r : Reply V op) : Prop :=
  match c with
  | .newTxn entry _ _ => t.entry entry.txId = none
  | .uploadVersion key v => ∀ ts ∈ r.latestReader, ts = t.maxCommitTs key (v.version - 1)
  | .setCommitTimestamp id commitTs => ∃ entry ∈ t.entry id, ∀ ts ∈ r.timestamp,
    ts = max commitTs entry.commitLowerBound
  | .updateMaxCommitTsAndReread key version commitTs => ∀ v ∈ r.version,
    (∃ u ∈ store key, u.version = version ∧ v.version = version ∧ v.endTs = u.endTs) ∧
      v.txId = VersionStore.owner (store key) version ∧
      v.maxCommitTs = max (t.maxCommitTs key version) commitTs
  | .updateCommitLowerBound id lowerBound => ∃ entry ∈ t.entry id, ∀ e ∈ r.txnEntry,
    e = entry.raised lowerBound
  | .updateTxnStatus id _ => t.entry id ≠ none
  | _ => True

instance [DecidableEq K] (t : Timestamps K) (store : VersionStore K) {op : Op}
    (c : HandlerCall K) (r : Reply V op) : Decidable (t.Answers store c r) :=
  match c with
  | .newTxn entry _ _ => decEq (t.entry entry.txId) none
  | .uploadVersion key v =>
    show Decidable (∀ ts ∈ r.latestReader, ts = t.maxCommitTs key (v.version - 1)) from inferInstance
  | .setCommitTimestamp id commitTs =>
    show Decidable (∃ entry ∈ t.entry id, ∀ ts ∈ r.timestamp,
      ts = max commitTs entry.commitLowerBound) from inferInstance
  | .updateMaxCommitTsAndReread key version commitTs =>
    show Decidable (∀ v ∈ r.version,
      (∃ u ∈ store key, u.version = version ∧ v.version = version ∧ v.endTs = u.endTs) ∧
        v.txId = VersionStore.owner (store key) version ∧
        v.maxCommitTs = max (t.maxCommitTs key version) commitTs) from inferInstance
  | .updateCommitLowerBound id lowerBound =>
    show Decidable (∃ entry ∈ t.entry id, ∀ e ∈ r.txnEntry, e = entry.raised lowerBound)
      from inferInstance
  | .updateTxnStatus id _ => show Decidable (t.entry id ≠ none) from inferInstance
  | .getVersionList .. | .commitVersion .. | .deleteVersion .. | .releaseReadCounter ..
  | .readRecord .. | .asyncAppend .. => .isTrue trivial

variable [DecidableEq K]

def setMax (t : Timestamps K) (key : SetKey K) (version ts : ℤ) : Timestamps K :=
  { t with
    maxCommitTs := Function.update t.maxCommitTs key
      (Function.update (t.maxCommitTs key) version ts) }

def setEntry (t : Timestamps K) (id : ℤ) (entry : Option TxnEntry) : Timestamps K :=
  { t with entry := Function.update t.entry id entry }

@[simp] theorem maxCommitTs_setMax (t : Timestamps K) (key : SetKey K) (version ts : ℤ) :
    (t.setMax key version ts).maxCommitTs key version = ts := by
  simp only [setMax, Function.update_self]

theorem maxCommitTs_setMax_of_ne (t : Timestamps K) {key k : SetKey K} {version n ts : ℤ}
    (h : key = k → version ≠ n) :
    (t.setMax k n ts).maxCommitTs key version = t.maxCommitTs key version := by
  rw [setMax]
  by_cases hk : key = k
  · subst hk
    simp only [Function.update_self, Function.update_of_ne (h rfl)]
  · simp only [Function.update_of_ne hk]

def after (t : Timestamps K) : HandlerCall K → Timestamps K
  | .newTxn entry _ _ => t.setEntry entry.txId (some entry.opened)
  | .uploadVersion key v => t.setMax key v.version v.maxCommitTs
  | .setCommitTimestamp id commitTs => t.setEntry id ((t.entry id).map (·.fixed commitTs))
  | .updateMaxCommitTsAndReread key version commitTs =>
    t.setMax key version (max (t.maxCommitTs key version) commitTs)
  | .updateCommitLowerBound id lowerBound => t.setEntry id ((t.entry id).map (·.raised lowerBound))
  | .updateTxnStatus id status =>
    t.setEntry id ((t.entry id).map fun entry => { entry with status := status })
  | _ => t

def perform (t : Timestamps K) (isError : Bool) (c : HandlerCall K) : Timestamps K :=
  if isError then t else t.after c

end Timestamps

structure TimestampStore (ι K V S : Type) where
  shared : SharedStore ι K V S
  timestamps : Timestamps K

namespace TimestampStore

variable [DecidableEq ι] [DecidableEq K] [Services S]

/-- The store takes part when it performs a call, which is then answered by its timestamps, too. -/
def step (s : TimestampStore ι K V S) (a : SharedAction ι K V S) :
    Option (TimestampStore ι K V S) :=
  match a with
  | .perform j op reply =>
    ((s.shared.client j).execution.pending.find? fun p => p.1 = op).bind fun p =>
      if reply.isError = true ∨ s.timestamps.Answers s.shared.store p.2 reply then
        (s.shared.step (.perform j op reply)).map fun t =>
          ⟨t, s.timestamps.perform reply.isError p.2⟩
      else none
  | a => (s.shared.step a).map fun t => ⟨t, s.timestamps⟩

variable {s s' : TimestampStore ι K V S}

theorem step_shared {a : SharedAction ι K V S} (hs : s.step a = some s') :
    s.shared.step a = some s'.shared := by
  cases a with
  | perform j op reply =>
    simp only [step] at hs
    obtain ⟨p, -, hs⟩ := Option.bind_eq_some_iff.mp hs
    split at hs
    · obtain ⟨t, ht, rfl⟩ := Option.map_eq_some_iff.mp hs
      exact ht
    · cases hs
  | _ =>
    simp only [step] at hs
    obtain ⟨t, ht, rfl⟩ := Option.map_eq_some_iff.mp hs
    exact ht

theorem run_shared {as : List (SharedAction ι K V S)} (hr : run step s as = some s') :
    run SharedStore.step s.shared as = some s'.shared := by
  obtain ⟨t, ht, rfl⟩ := run_simulation (R := fun s t => s.shared = t)
    (fun s t a s' hR hs => ⟨s'.shared, hR ▸ step_shared hs, rfl⟩) rfl hr
  exact ht

theorem step_cases (h : ∀ j, (s.shared.client j).Sound) {a : SharedAction ι K V S}
    (hs : s.step a = some s') :
    SharedStore.Quiet s.shared s'.shared ∧ s'.timestamps = s.timestamps ∨
      ∃ j op c r, (op, c) ∈ (s.shared.client j).execution.pending ∧
        (∀ ev ∈ (s.shared.client j).performed, ev.op ≠ op) ∧
        VersionStore.Permits s.shared.store c r ∧
        (r.isError = true ∨ s.timestamps.Answers s.shared.store c r) ∧
        s'.shared = s.shared.answer j (.answered op c r) (s.shared.store.perform r.isError c) ∧
        s'.timestamps = s.timestamps.perform r.isError c := by
  obtain ⟨-, ⟨hne, hq⟩ | ⟨j, op, c, r, rfl, hp, hnew, hpermits, hs'⟩⟩ :=
    SharedStore.step_cases h (step_shared hs)
  · refine Or.inl ⟨hq, ?_⟩
    cases a with
    | perform j op r => exact absurd rfl (hne j op r)
    | _ =>
      simp only [step] at hs
      obtain ⟨t, -, rfl⟩ := Option.map_eq_some_iff.mp hs
      rfl
  · simp only [step, hp] at hs
    obtain ⟨p, hp', hs⟩ := Option.bind_eq_some_iff.mp hs
    obtain rfl := Option.some.inj hp'
    split at hs
    · next htimes =>
      obtain ⟨t, -, rfl⟩ := Option.map_eq_some_iff.mp hs
      exact Or.inr ⟨j, op, c, r, List.mem_of_find?_eq_some hp, hnew, hpermits, htimes, hs', rfl⟩
    · cases hs

def start (e : ι → TransactionExecution K V S) : TimestampStore ι K V S :=
  ⟨SharedStore.start e, .empty⟩

end TimestampStore

end Fugue
