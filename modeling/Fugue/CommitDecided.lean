import Fugue.ResolvedVersions

namespace Fugue

open ExecutionState

variable {K V S : Type}

namespace CallOk

variable {x : ExecutionState K V S} {log : List (Event K V)} {gaveUp : Prop} {op : Op} {id : ℤ}

theorem setCommitTimestamp {ts : ℤ} (h : CallOk x log gaveUp op (.setCommitTimestamp id ts)) :
    op = .setCommitTs ∧ id = x.txnId ∧ AllUploaded x log ∧ Proposed x log ts := by
  cases op with
  | setCommitTs =>
    obtain ⟨hup, ts', hts, heq⟩ := h
    obtain ⟨rfl, rfl⟩ := HandlerCall.setCommitTimestamp.inj heq
    exact ⟨rfl, rfl, hup, hts⟩
  | _ => simp [CallOk, uploadCall, commitCall, deleteCall] at h

theorem updateTxnStatus {status : TxnStatus} (h : CallOk x log gaveUp op (.updateTxnStatus id status)) :
    id = x.txnId ∧ (op = .updateTxnStatusToCommit ∧ status = .committed ∨
      op = .updateTxnStatusToAbort ∧ status = .aborted) := by
  cases op with
  | updateTxnStatusToCommit =>
    obtain ⟨rfl, rfl⟩ := HandlerCall.updateTxnStatus.inj h.2.2
    exact ⟨rfl, Or.inl ⟨rfl, rfl⟩⟩
  | updateTxnStatusToAbort =>
    obtain ⟨rfl, rfl⟩ := HandlerCall.updateTxnStatus.inj h.2
    exact ⟨rfl, Or.inr ⟨rfl, rfl⟩⟩
  | _ => simp [CallOk, uploadCall, commitCall, deleteCall] at h

theorem rank_of_updateTxnStatus {status : TxnStatus}
    (h : CallOk x log gaveUp op (.updateTxnStatus id status)) : 0 < op.rank := by
  obtain ⟨-, ⟨rfl, -⟩ | ⟨rfl, -⟩⟩ := h.updateTxnStatus <;> decide

theorem updateMaxCommitTsAndReread {key : SetKey K} {version ts : ℤ}
    (h : CallOk x log gaveUp op (.updateMaxCommitTsAndReread key version ts)) :
    0 < op.rank ∧ ∃ i < x.keyReadSet.popIndex, x.keyReadSet.key i = some key ∧
      (x.keyReadSet.entry i).version = version := by
  cases op with
  | updateReadEntryMaxCommitTs j =>
    obtain ⟨-, ts', i, k, -, hi, hk, heq⟩ := h
    obtain ⟨rfl, rfl, rfl⟩ := HandlerCall.updateMaxCommitTsAndReread.inj heq
    have hrange := (List.mem_filter.mp (List.mem_of_getElem? hi)).1
    exact ⟨Nat.succ_pos 2, i, List.mem_range.mp hrange, hk, rfl⟩
  | _ => simp [CallOk, uploadCall, commitCall, deleteCall] at h

theorem updateCommitLowerBound {lowerBound : ℤ}
    (h : CallOk x log gaveUp op (.updateCommitLowerBound id lowerBound)) :
    ∃ i, op = .pushConflictTxnCommitTsLowerBound i := by
  cases op with
  | pushConflictTxnCommitTsLowerBound i => exact ⟨i, rfl⟩
  | _ => simp [CallOk, uploadCall, commitCall, deleteCall] at h

end CallOk

def HandlerCall.isAbortive : HandlerCall K → Bool
  | .updateTxnStatus _ .aborted => true
  | .deleteVersion .. => true
  | _ => false

namespace TransactionExecution

variable [DecidableEq K] [Services S] {e : TransactionExecution K V S}

structure Decided (x : ExecutionState K V S) (gaveUp : Prop) (s : Stage) (ts : ℤ)
    (e : TransactionExecution K V S) : Prop where
  entries : Entries e.log x.keyReadSet.popIndex x
  pipe : Pipe x gaveUp s e
  issued : Event.issued .updateTxnStatusToCommit (.updateTxnStatus e.txnId .committed) ∈ e.log
  timestamped : Timestamped e.log ts
  accepted : AllAccepted x e.log ts

theorem Alive.updateTxnStatus (h : Alive e) {op : Op} {id : ℤ} {status : TxnStatus}
    (hc : Event.issued op (.updateTxnStatus id status) ∈ e.log) :
    op = .updateTxnStatusToCommit ∧ status = .committed ∨
      op = .updateTxnStatusToAbort ∧ status = .aborted := by
  obtain ⟨x, gaveUp, s, entries, hpipe⟩ :=
    h.ending_of_callOk hc fun x log gaveUp hok => hok.rank_of_updateTxnStatus
  obtain ⟨pre, -, hok⟩ := hpipe.core.callOk hc
  exact hok.updateTxnStatus.2

theorem Alive.decided (h : Alive e) {op : Op} {id : ℤ}
    (hc : Event.issued op (.updateTxnStatus id .committed) ∈ e.log) :
    ∃ x gaveUp s ts, Decided x gaveUp s ts e := by
  obtain rfl := ((h.updateTxnStatus hc).resolve_right (by simp)).1
  obtain ⟨x, gaveUp, s, entries, hpipe⟩ := h.ending_of_issued hc (by decide)
  obtain ⟨pre, hpre, -, ⟨ts, hts, hall⟩, heq⟩ := hpipe.core.callOk hc
  rw [heq, ← hpipe.core.sets.txnId] at hc
  exact ⟨x, gaveUp, s, ts, entries, hpipe, hc, hts.mono hpre, hall.mono hpre⟩

theorem Alive.read_of_rereads (h : Alive e) {op : Op} {key : SetKey K} {version ts : ℤ}
    (hc : Event.issued op (.updateMaxCommitTsAndReread key version ts) ∈ e.log) :
    ∃ t r, Event.answered .readOutside (.getVersionList key t) r ∈ e.log ∧ r.isError = false ∧
      ∃ entry, Seen r.result entry ∧ entry.version = version := by
  obtain ⟨x, gaveUp, s, entries, hpipe⟩ :=
    h.ending_of_callOk hc fun x log gaveUp hok => hok.updateMaxCommitTsAndReread.1
  obtain ⟨pre, -, hok⟩ := hpipe.core.callOk hc
  obtain ⟨-, i, hi, hkey, hversion⟩ := hok.updateMaxCommitTsAndReread
  obtain ⟨k, t, r, hk, hr, herror, hseen⟩ := entries.read i hi
  obtain rfl : key = k := Option.some.inj (hkey.symm.trans hk)
  exact ⟨t, r, hr, herror, _, hseen, hversion⟩

theorem Alive.op_eq (h : Alive e) {op : Op} {c : HandlerCall K} (hc : Event.issued op c ∈ e.log) :
    (∀ id ts, c = .setCommitTimestamp id ts → op = .setCommitTs) ∧
    ∀ id ts, c = .updateCommitLowerBound id ts → ∃ i, op = .pushConflictTxnCommitTsLowerBound i := by
  constructor
  · rintro id ts rfl
    obtain ⟨x, gaveUp, s, entries, hpipe⟩ := h.ending_of_callOk hc fun x log gaveUp hok => by
      rw [hok.setCommitTimestamp.1]
      exact Nat.succ_pos 1
    obtain ⟨pre, -, hok⟩ := hpipe.core.callOk hc
    exact hok.setCommitTimestamp.1
  · rintro id ts rfl
    obtain ⟨x, gaveUp, s, entries, hpipe⟩ := h.ending_of_callOk hc fun x log gaveUp hok => by
      obtain ⟨i, rfl⟩ := hok.updateCommitLowerBound
      exact Nat.succ_pos 2
    obtain ⟨pre, -, hok⟩ := hpipe.core.callOk hc
    exact hok.updateCommitLowerBound

theorem Alive.txnId_eq (h : Alive e) {op : Op} {c : HandlerCall K} {id : ℤ}
    (hc : Event.issued op c ∈ e.log)
    (hid : (∃ ts, c = .setCommitTimestamp id ts) ∨ ∃ status, c = .updateTxnStatus id status) :
    id = e.txnId := by
  have hok : ∀ (x : ExecutionState K V S) log gaveUp, CallOk x log gaveUp op c →
      0 < op.rank ∧ id = x.txnId := by
    intro x log gaveUp hok
    rcases hid with ⟨ts, rfl⟩ | ⟨status, rfl⟩
    · obtain ⟨rfl, hid, -⟩ := hok.setCommitTimestamp
      exact ⟨by decide, hid⟩
    · exact ⟨hok.rank_of_updateTxnStatus, hok.updateTxnStatus.1⟩
  obtain ⟨x, gaveUp, s, -, hpipe⟩ :=
    h.ending_of_callOk hc fun x log gaveUp hx => (hok x log gaveUp hx).1
  obtain ⟨pre, -, hx⟩ := hpipe.core.callOk hc
  exact (hok x pre gaveUp hx).2.trans hpipe.core.sets.txnId.symm

theorem not_abortive_of_committed {s : Stage} {id : ℤ} {c : HandlerCall K}
    (hcommit : .updateTxnStatus id .committed ∈ e.outcome s) (hc : c ∈ e.outcome s) :
    c.isAbortive = false := by
  have hcommits : ∀ c ∈ e.postProcessIndex.filterMap (commitFamily.request e.toExecutionState),
      c.isAbortive = false := by
    intro c hc
    obtain ⟨i, -, hi⟩ := List.mem_filterMap.mp hc
    obtain ⟨k, -, rfl⟩ := Option.map_eq_some_iff.mp hi
    rfl
  have hdeletes : HandlerCall.updateTxnStatus id .committed ∉
      .updateTxnStatus e.txnId .aborted ::
        e.postProcessIndex.filterMap (deleteFamily.request e.toExecutionState) := by
    intro hmem
    rcases List.mem_cons.mp hmem with heq | hmem
    · cases heq
    · obtain ⟨i, -, hi⟩ := List.mem_filterMap.mp hmem
      obtain ⟨k, -, heq⟩ := Option.map_eq_some_iff.mp hi
      cases heq
  cases s with
  | status =>
    obtain rfl := List.mem_singleton.mp hc
    rfl
  | commit | committed =>
    rcases List.mem_cons.mp hc with rfl | hc
    · rfl
    · exact hcommits c hc
  | abort => cases List.mem_singleton.mp hcommit
  | delete | release | aborted => exact absurd hcommit hdeletes
  | _ => cases hcommit

namespace Decided

variable {x : ExecutionState K V S} {gaveUp : Prop} {s : Stage} {ts : ℤ}

theorem timestamp_eq (h : Decided x gaveUp s ts e) {ts' : ℤ} (h' : Timestamped e.log ts') :
    ts' = ts := by
  obtain ⟨c, r, hr, -, rfl, -⟩ := h.timestamped
  obtain ⟨c', r', hr', -, rfl, -⟩ := h'
  exact (h.pipe.core.reply_unique (by decide) hr' hr).1

theorem uploaded (h : Decided x gaveUp s ts e) : AllUploaded x e.log := by
  obtain ⟨pre, hpre, hall, -⟩ := h.pipe.core.callOk h.issued
  exact hall.mono hpre

theorem fixed (h : Decided x gaveUp s ts e) :
    ∃ commitTs r, Event.answered .setCommitTs (.setCommitTimestamp e.txnId commitTs) r ∈ e.log ∧
      r.isError = false ∧ r.result = ts ∧ 0 ≤ ts := by
  obtain ⟨c, r, hr, herror, hresult, hpos⟩ := h.timestamped
  obtain ⟨pre, -, -, commitTs, -, rfl⟩ :=
    h.pipe.core.callOk (h.pipe.core.issued_of_answered hr)
  rw [← h.pipe.core.sets.txnId] at hr
  exact ⟨commitTs, r, hr, herror, hresult, hpos⟩

theorem max_lt (h : Decided x gaveUp s ts e) (hst : ∀ id ts r, Event.answered .setCommitTs
      (.setCommitTimestamp id ts) r ∈ e.log → r.isError = false → ts ≤ r.result) {i : ℕ}
    {c : HandlerCall K} {r : Reply V (.uploadVersionEntry i)}
    (hr : Event.answered (.uploadVersionEntry i) c r ∈ e.log) : (r.result : ℤ) < ts := by
  obtain ⟨c', r', hr', herror, rfl, -⟩ := h.timestamped
  obtain ⟨pre, hpre, hall, proposed, ⟨hmax, -⟩, rfl⟩ :=
    h.pipe.core.callOk (h.pipe.core.issued_of_answered hr')
  obtain ⟨pre', -, hi, -⟩ := h.pipe.core.callOk (h.pipe.core.issued_of_answered hr)
  -- The upload was answered before the timestamp was proposed.
  obtain ⟨c'', r'', hr'', herror''⟩ := hall i hi
  have hle := hmax i c'' r'' hr'' herror''
  have hst := hst _ _ _ hr' herror
  have heq := (h.pipe.core.reply_unique (by exact Nat.one_pos) hr (hpre hr'')).1
  rw [heq]
  exact Int.lt_of_lt_of_le (Int.lt_of_add_one_le hle) hst

theorem reread_or_written (h : Decided x gaveUp s ts e) {i : ℕ} {key : SetKey K}
    (hi : i < e.keyReadSet.popIndex) (hkey : e.keyReadSet.key i = some key) :
    (∃ j r, Event.answered (.updateReadEntryMaxCommitTs j) (.updateMaxCommitTsAndReread key
        (e.keyReadSet.entry i).version ts) r ∈ e.log ∧ Reread ts r.isError r.result ∧
      (r.result.txId = VersionEntry.kEmptyTxId ∨ ∃ r',
        Event.answered (.pushConflictTxnCommitTsLowerBound j)
          (.updateCommitLowerBound r.result.txId (ts + 1)) r' ∈ e.log ∧
        r'.isError = false ∧ ¬ TxnEntry.Conflicts ts r'.result)) ∨
    ∃ l, e.keyWriteSet.Writes l key ((e.keyReadSet.entry i).version + 1) := by
  have sets := h.pipe.core.sets
  rw [sets.readSize] at hi
  rw [sets.readKey] at hkey
  rw [sets.readVersion]
  cases hupdated : (x.keyReadSet.entry i).isUpdated with
  | true =>
    right
    obtain ⟨l, hl, hread⟩ := h.entries.updated i hi hupdated
    obtain ⟨k, i', hk, hread', -, hk', hnext, -⟩ := h.entries.write l hl
    obtain rfl : i = i' := Option.some.inj (hread.symm.trans hread')
    obtain rfl : key = k := Option.some.inj (hkey.symm.trans hk')
    exact ⟨l, sets.writes.mpr ⟨hl, hk, hnext⟩⟩
  | false =>
    left
    have hmem : i ∈ x.unupdated :=
      List.mem_filter.mpr ⟨List.mem_range.mpr hi, by simp [hupdated]⟩
    obtain ⟨j, hj⟩ := List.mem_iff_getElem?.mp hmem
    obtain ⟨c, r, hr, hreread, hpush⟩ := h.accepted j (List.getElem?_eq_some_iff.mp hj).1
    obtain ⟨pre, hpre, -, ts', i', k, hts, hj', hk, rfl⟩ :=
      h.pipe.core.callOk (h.pipe.core.issued_of_answered hr)
    obtain rfl : i = i' := Option.some.inj (hj.symm.trans hj')
    obtain rfl : key = k := Option.some.inj (hkey.symm.trans hk)
    obtain rfl := h.timestamp_eq (hts.mono hpre)
    refine ⟨j, r, hr, hreread, hpush.imp_right ?_⟩
    rintro ⟨c', r', hr', herror, hno⟩
    obtain ⟨pre', hpre', ts', c'', r'', hts', hr'', -, -, rfl⟩ :=
      h.pipe.core.callOk (h.pipe.core.issued_of_answered hr')
    obtain rfl := h.timestamp_eq (hts'.mono hpre')
    rw [(h.pipe.core.reply_unique (by exact Nat.succ_pos 2) hr (hpre' hr'')).1]
    exact ⟨r', hr', herror, hno⟩

theorem validated (h : Decided x gaveUp s ts e) {i : ℕ} {key : SetKey K}
    (hi : i < e.keyReadSet.popIndex) (hkey : e.keyReadSet.key i = some key)
    (hw : ∀ l < e.keyWriteSet.popIndex, e.keyWriteSet.key l ≠ some key) :
    ∃ j r, Event.answered (.updateReadEntryMaxCommitTs j) (.updateMaxCommitTsAndReread key
        (e.keyReadSet.entry i).version ts) r ∈ e.log ∧ Reread ts r.isError r.result ∧
      (r.result.txId = VersionEntry.kEmptyTxId ∨ ∃ r',
        Event.answered (.pushConflictTxnCommitTsLowerBound j)
          (.updateCommitLowerBound r.result.txId (ts + 1)) r' ∈ e.log ∧
        r'.isError = false ∧ ¬ TxnEntry.Conflicts ts r'.result) := by
  apply (h.reread_or_written hi hkey).resolve_right
  rintro ⟨l, hl, hlk, -⟩
  exact hw l hl hlk

theorem not_abortive (h : Decided x gaveUp s ts e) {op : Op} {c : HandlerCall K}
    (hc : Event.issued op c ∈ e.log) : c.isAbortive = false := by
  have hmem : ∀ {op c}, Event.issued op c ∈ e.log → c.isOutcome = true → c ∈ e.outcome s := by
    intro op c hc hout
    rw [← h.pipe.outcome]
    exact List.mem_filter.mpr ⟨List.mem_map.mpr ⟨_, mem_issuedCalls.mpr hc, rfl⟩, hout⟩
  by_contra hab
  have hout : c.isOutcome = true := by
    cases c <;> simp [HandlerCall.isAbortive, HandlerCall.isOutcome] at hab ⊢
  exact hab (not_abortive_of_committed (hmem h.issued rfl) (hmem hc hout))

theorem begin_eq (h : Decided x gaveUp s ts e) {op : Op} {key : SetKey K}
    {version expect beginTs endTs txId : ℤ} {record : Option Addr}
    (hc : Event.issued op (.commitVersion key version expect beginTs endTs txId record) ∈ e.log) :
    beginTs = ts := by
  obtain ⟨pre, hpre, hok⟩ := h.pipe.core.callOk hc
  obtain ⟨-, hts, -⟩ := hok.commits
  exact h.timestamp_eq (hts.mono hpre)

end Decided

end TransactionExecution

end Fugue
