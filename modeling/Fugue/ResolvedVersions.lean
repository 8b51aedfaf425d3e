import Fugue.OwnConflict
import Fugue.VersionStore

namespace Fugue

open ExecutionState

variable {K V S : Type}

def KeyWriteSetEntryPool.Writes (p : KeyWriteSetEntryPool K) (i : ℕ) (key : SetKey K)
    (version : ℤ) : Prop :=
  i < p.popIndex ∧ p.key i = some key ∧ (p.entry i).version = version

theorem Seen.congr {res : VersionEntry × VersionEntry} {r r' : ReadSetEntry}
    (h : r'.plain = r.plain) : Seen res r' ↔ Seen res r := by
  have hversion : r'.version = r.version := (congrArg ReadSetEntry.version h :)
  have hbegin : r'.beginTs = r.beginTs := (congrArg ReadSetEntry.beginTs h :)
  have hend : r'.endTs = r.endTs := (congrArg ReadSetEntry.endTs h :)
  have hdeleted : r'.isDeleted = r.isDeleted := (congrArg ReadSetEntry.isDeleted h :)
  unfold Seen
  rw [hversion, hbegin, hend, hdeleted]

theorem ExecutionState.SameSets.writes {x y : ExecutionState K V S} (h : SameSets x y) {i : ℕ}
    {key : SetKey K} {version : ℤ} :
    y.keyWriteSet.Writes i key version ↔ x.keyWriteSet.Writes i key version := by
  unfold KeyWriteSetEntryPool.Writes
  rw [h.writeSize, h.writeKey, h.version]

theorem eq_of_filterMap_nodup {α β : Type} {f : α → Option β} {l : List α}
    (h : (l.filterMap f).Nodup) {a b : α} (ha : a ∈ l) (hb : b ∈ l) {y : β} (hfa : f a = some y)
    (hfb : f b = some y) : a = b := by
  rw [List.Nodup, List.pairwise_filterMap, List.pairwise_iff_getElem] at h
  obtain ⟨i, hi, rfl⟩ := List.getElem_of_mem ha
  obtain ⟨j, hj, rfl⟩ := List.getElem_of_mem hb
  rcases lt_trichotomy i j with hij | rfl | hij
  · exact absurd rfl (h i j hi hj hij y hfa y hfb)
  · rfl
  · exact absurd rfl (h j i hj hi hij y hfb y hfa)

namespace CallOk

variable {x : ExecutionState K V S} {log : List (Event K V)} {gaveUp : Prop} {op : Op}
  {c : HandlerCall K} {key : SetKey K} {version : ℤ}

theorem uploads {v : VersionEntry} (h : CallOk x log gaveUp op (.uploadVersion key v)) :
    (∃ i, op = .uploadVersionEntry i ∧ x.keyWriteSet.Writes i key v.version) ∧
      v.txId = x.txnId ∧ ¬ v.Committed := by
  cases op with
  | uploadVersionEntry i =>
    obtain ⟨hi, k, hk, hc⟩ := h
    obtain ⟨rfl, rfl⟩ := HandlerCall.uploadVersion.inj hc
    exact ⟨⟨i, rfl, hi, hk, rfl⟩, rfl, not_not.mpr rfl⟩
  | _ => simp [CallOk, commitCall, deleteCall] at h

theorem rank_of_resolved (h : CallOk x log gaveUp op c) {y : SetKey K × ℤ}
    (hc : c.resolved = some y) : 5 < op.rank := by
  cases op with
  | postProcessingCommitEntryAfterCommit p => exact Nat.le_refl 6
  | postProcessingDeleteEntryAfterAbort p => exact Nat.le_add_right 6 2
  | _ => cases c <;> simp [CallOk, uploadCall, HandlerCall.resolved] at h hc

theorem resolves (h : CallOk x log gaveUp op c) (hc : c.resolved = some (key, version))
    {log' : List (Event K V)} (hl : log ⊆ log')
    (hposted : ∀ i < x.keyWriteSet.popIndex, (x.keyWriteSet.entry i).needPostProcessing = false)
    (hall : ToldCommitted log' → AllUploaded x log') :
    ∃ i, x.keyWriteSet.Writes i key version ∧ Uploaded log' i := by
  cases op with
  | postProcessingCommitEntryAfterCommit p =>
    obtain ⟨htold, ts, -, i, hi, k, hk, rfl⟩ := h
    obtain ⟨rfl, rfl⟩ := Prod.mk.inj (Option.some.inj hc)
    exact ⟨i, ⟨hi, hk, rfl⟩, hall (htold.mono hl) i hi⟩
  | postProcessingDeleteEntryAfterAbort p =>
    obtain ⟨-, i, hi, hup, k, hk, rfl⟩ := h
    obtain ⟨rfl, rfl⟩ := Prod.mk.inj (Option.some.inj hc)
    refine ⟨i, ⟨hi, hk, rfl⟩, (hup.resolve_left fun hpost => ?_).mono hl⟩
    rw [hposted i hi] at hpost
    cases hpost
  | _ => cases c <;> simp [CallOk, uploadCall, HandlerCall.resolved] at h hc

theorem commits {expect ts endTs txId : ℤ} {record : Option Addr}
    (h : CallOk x log gaveUp op (.commitVersion key version expect ts endTs txId record)) :
    endTs = VersionEntry.kMaxTimeStamp ∧ Timestamped log ts ∧
      ∃ i, x.keyWriteSet.Writes i key version := by
  cases op with
  | postProcessingCommitEntryAfterCommit p =>
    obtain ⟨-, ts', hts, i, hi, k, hk, heq⟩ := h
    obtain ⟨rfl, rfl, -, rfl, rfl, -⟩ := HandlerCall.commitVersion.inj heq
    exact ⟨rfl, hts, i, hi, hk, rfl⟩
  | _ => simp [CallOk, uploadCall, deleteCall] at h

end CallOk

namespace TransactionExecution

variable [DecidableEq K] [Services S] {e e' : TransactionExecution K V S}

def UploadedAs (e : TransactionExecution K V S) (i : ℕ) (key : SetKey K) (version : ℤ) : Prop :=
  e.keyWriteSet.Writes i key version ∧ Uploaded e.log i

theorem Pipe.resolved_calls {x : ExecutionState K V S} {gaveUp : Prop} {s : Stage}
    (h : Pipe x gaveUp s e) :
    (s ≠ .committed ∧ s ≠ .aborted) ∧
        (issuedCalls e.log).filterMap (fun p => p.2.resolved) = [] ∨ s ≠ .upload ∧
      (issuedCalls e.log).filterMap (fun p => p.2.resolved) = e.postProcessIndex.filterMap
        fun i => (e.keyWriteSet.key i).map fun k => (k, (e.keyWriteSet.entry i).version) := by
  have hout : (issuedCalls e.log).filterMap (fun p => p.2.resolved) =
      (e.outcome s).filterMap HandlerCall.resolved := by
    rw [← h.outcome, outcomeCalls, List.filterMap_filter, List.filterMap_map]
    apply List.filterMap_congr
    intro p _
    cases hc : p.2 <;> simp [hc, HandlerCall.resolved, HandlerCall.isOutcome]
  have hpost : ∀ (request : ℕ → Option (HandlerCall K)) (status : HandlerCall K),
      status.resolved = none → (∀ i, (request i).bind HandlerCall.resolved =
        (e.keyWriteSet.key i).map fun k => (k, (e.keyWriteSet.entry i).version)) →
      (status :: e.postProcessIndex.filterMap request).filterMap HandlerCall.resolved =
        e.postProcessIndex.filterMap fun i =>
          (e.keyWriteSet.key i).map fun k => (k, (e.keyWriteSet.entry i).version) := by
    intro request status hstatus hrequest
    rw [List.filterMap_cons_none hstatus, List.filterMap_filterMap]
    exact List.filterMap_congr fun i _ => hrequest i
  rw [hout]
  cases s with
  | commit | committed =>
    refine Or.inr ⟨by decide, hpost _ _ rfl fun i => ?_⟩
    simp only [commitFamily]
    cases e.keyWriteSet.key i <;> rfl
  | delete | release | aborted =>
    refine Or.inr ⟨by decide, hpost _ _ rfl fun i => ?_⟩
    simp only [deleteFamily]
    cases e.keyWriteSet.key i <;> rfl
  | _ => exact Or.inl ⟨by decide, rfl⟩

theorem Pipe.uploaded {x : ExecutionState K V S} {gaveUp : Prop} {s : Stage}
    (h : Pipe x gaveUp s e) (entries : Entries e.log x.keyReadSet.popIndex x) (hs : s ≠ .upload)
    {i : ℕ} (hi : i ∈ e.postProcessIndex) : Uploaded e.log i := by
  obtain ⟨hlt, hpost⟩ := mem_postProcessIndex.mp hi
  rw [h.core.sets.writeSize] at hlt
  refine ((h.posted hs i hlt).mp hpost).resolve_left fun hold => ?_
  rw [entries.unposted i hlt] at hold
  cases hold

namespace Alive

theorem ending_of_callOk (h : Alive e) {op : Op} {c : HandlerCall K}
    (hc : Event.issued op c ∈ e.log)
    (hop : ∀ (x : ExecutionState K V S) log gaveUp, CallOk x log gaveUp op c → 0 < op.rank) :
    ∃ x gaveUp s, Entries e.log x.keyReadSet.popIndex x ∧ Pipe x gaveUp s e := by
  cases h with
  | serving h =>
    obtain ⟨n, ho⟩ := h.opened
    obtain ⟨pre, post, hl⟩ := List.append_of_mem hc
    have hpos := hop _ _ _ (ho.obeys e.toExecutionState True pre op c post hl)
    exact absurd hpos (by rw [show op.rank = 0 from ho.ranked _ hc]; decide)
  | ending x gaveUp s entries h => exact ⟨x, gaveUp, s, entries, h⟩

theorem ending_of_issued (h : Alive e) {op : Op} {c : HandlerCall K}
    (hc : Event.issued op c ∈ e.log) (hop : 0 < op.rank) :
    ∃ x gaveUp s, Entries e.log x.keyReadSet.popIndex x ∧ Pipe x gaveUp s e :=
  h.ending_of_callOk hc fun _ _ _ _ => hop

theorem issued_of_answered (h : Alive e) {op : Op} {c : HandlerCall K} {r : Reply V op}
    (hr : Event.answered op c r ∈ e.log) : Event.issued op c ∈ e.log := by
  refine mem_issuedCalls.mp (h.handled.mem_iff.mpr (List.mem_append_left _ ?_))
  exact mem_answeredCalls.mpr ⟨r, hr⟩

theorem issued_of_pending (h : Alive e) {op : Op} {c : HandlerCall K}
    (hp : (op, c) ∈ e.pending) : Event.issued op c ∈ e.log :=
  mem_issuedCalls.mp (h.handled.mem_iff.mpr (List.mem_append_right _ hp))

theorem pending_subset (h : Alive e) {a : Action K V} (hs : TransactionExecution.step e a = some e')
    (ha : Contended.isComplete a = false) : e.pending ⊆ e'.pending := by
  obtain ⟨new, hlog, hnew⟩ := step_log hs
  have hanswered : answeredCalls new = [] := by
    apply List.eq_nil_iff_forall_not_mem.mpr
    rintro ⟨op, c⟩ hp
    obtain ⟨r, hr⟩ := mem_answeredCalls.mp hp
    rw [hnew _ _ _ hr] at ha
    cases ha
  have hperm := (h.step hs).handled
  rw [hlog, issuedCalls_append, answeredCalls_append, hanswered, List.append_nil] at hperm
  have hperm' : (answeredCalls e.log ++ (e.pending ++ issuedCalls new)).Perm
      (answeredCalls e.log ++ e'.pending) := by
    rw [← List.append_assoc]
    exact (h.handled.symm.append_right _).trans hperm
  have hpending := (List.perm_append_left_iff _).mp hperm'
  exact fun p hp => hpending.mem_iff.mp (List.mem_append_left _ hp)

theorem not_answered_of_pending (h : Alive e) {op : Op} {c c' : HandlerCall K}
    (hop : 0 < op.rank) (hp : (op, c) ∈ e.pending) (r : Reply V op) :
    Event.answered op c' r ∉ e.log := by
  intro hr
  obtain ⟨x, gaveUp, s, -, h⟩ := h.ending_of_issued (h.issued_of_pending hp) hop
  have hfin := h.core.leafIsFinished_of_answered hr hop
  rw [(h.stacked.pending_member _ hp).2] at hfin
  cases hfin

theorem txnId_step (h : Alive e) {op : Op} {c : HandlerCall K} (hc : Event.issued op c ∈ e.log)
    (hop : 0 < op.rank) {a : Action K V} (hs : TransactionExecution.step e a = some e') :
    e'.txnId = e.txnId := by
  obtain ⟨x, gaveUp, s, -, h⟩ := h.ending_of_issued hc hop
  obtain ⟨s', h'⟩ := h.step hs
  exact h'.core.sets.txnId.trans h.core.sets.txnId.symm

theorem uploads (h : Alive e) {op : Op} {key : SetKey K} {v : VersionEntry}
    (hc : Event.issued op (.uploadVersion key v) ∈ e.log) :
    (∃ i, op = .uploadVersionEntry i ∧ e.keyWriteSet.Writes i key v.version) ∧
      v.txId = e.txnId ∧ ¬ v.Committed := by
  obtain ⟨x, gaveUp, s, entries, h⟩ := h.ending_of_callOk hc fun x log gaveUp hok => by
    obtain ⟨⟨i, rfl, -⟩, -⟩ := hok.uploads
    exact Nat.one_pos
  obtain ⟨pre, -, hok⟩ := h.core.callOk hc
  obtain ⟨⟨i, hi, hw⟩, hid, hdirty⟩ := hok.uploads
  exact ⟨⟨i, hi, h.core.sets.writes.mpr hw⟩, hid.trans h.core.sets.txnId.symm, hdirty⟩

theorem upload_call (h : Alive e) {i : ℕ} {c : HandlerCall K}
    (hc : Event.issued (.uploadVersionEntry i) c ∈ e.log) {key : SetKey K} {version : ℤ}
    (hw : e.keyWriteSet.Writes i key version) :
    ∃ v, c = .uploadVersion key v ∧ v.version = version := by
  obtain ⟨x, gaveUp, s, entries, h⟩ := h.ending_of_issued hc Nat.one_pos
  obtain ⟨pre, -, -, k, hk, rfl⟩ := h.core.callOk hc
  obtain ⟨-, hkey, hversion⟩ := h.core.sets.writes.mp hw
  obtain rfl := Option.some.inj (hkey.symm.trans hk)
  exact ⟨_, rfl, hversion⟩

theorem read_of_writes (h : Alive e) {op : Op} {c : HandlerCall K}
    (hc : Event.issued op c ∈ e.log) (hop : 0 < op.rank) {i : ℕ} {key : SetKey K} {version : ℤ}
    (hw : e.keyWriteSet.Writes i key version) :
    ∃ j < e.keyReadSet.popIndex, e.keyReadSet.key j = some key ∧
      (e.keyReadSet.entry j).version + 1 = version ∧
      ∃ t r, Event.answered .readOutside (.getVersionList key t) r ∈ e.log ∧ r.isError = false ∧
        Seen r.result (e.keyReadSet.entry j) := by
  obtain ⟨x, gaveUp, s, entries, h⟩ := h.ending_of_issued hc hop
  obtain ⟨hi, hkey, hversion⟩ := h.core.sets.writes.mp hw
  obtain ⟨k, j, hk, -, hj, hjk, hnext, -⟩ := entries.write i hi
  obtain rfl := Option.some.inj (hkey.symm.trans hk)
  obtain ⟨k', t, r, hk', hr, herror, hseen⟩ := entries.read j hj
  obtain rfl := Option.some.inj (hjk.symm.trans hk')
  refine ⟨j, h.core.sets.readSize ▸ hj, (h.core.sets.readKey j).trans hjk, ?_, t, r, hr, herror, ?_⟩
  · rw [h.core.sets.readVersion, ← hnext, hversion]
  · exact (Seen.congr (h.core.sets.read j)).mpr hseen

theorem resolves (h : Alive e) {op : Op} {c : HandlerCall K} (hc : Event.issued op c ∈ e.log)
    {key : SetKey K} {version : ℤ} (hk : c.resolved = some (key, version)) :
    5 < op.rank ∧ ∃ i, UploadedAs e i key version := by
  obtain ⟨x, gaveUp, s, entries, h⟩ :=
    h.ending_of_callOk hc fun x log gaveUp hok => Nat.zero_lt_of_lt (hok.rank_of_resolved hk)
  obtain ⟨pre, hpre, hok⟩ := h.core.callOk hc
  refine ⟨hok.rank_of_resolved hk, ?_⟩
  have htold : ToldCommitted e.log → AllUploaded x e.log := by
    rintro ⟨c', r, hr, -⟩
    obtain ⟨pre', hpre', hall, -⟩ := h.core.callOk (h.core.issued_of_answered hr)
    exact hall.mono hpre'
  obtain ⟨i, hw, hu⟩ := hok.resolves hk hpre entries.unposted htold
  exact ⟨i, h.core.sets.writes.mpr hw, hu⟩

theorem resolves_once (h : Alive e) (hinj : ∀ i i' key version, UploadedAs e i key version →
      UploadedAs e i' key version → i = i') {op op' : Op} {c c' : HandlerCall K}
    (hc : Event.issued op c ∈ e.log) (hc' : Event.issued op' c' ∈ e.log) {y : SetKey K × ℤ}
    (hy : c.resolved = some y) (hy' : c'.resolved = some y) : op = op' := by
  obtain ⟨x, gaveUp, s, entries, h⟩ :=
    h.ending_of_callOk hc fun x log gaveUp hok => Nat.zero_lt_of_lt (hok.rank_of_resolved hy)
  have hnodup : ((issuedCalls e.log).filterMap fun p => p.2.resolved).Nodup := by
    rcases h.resolved_calls with ⟨-, hnil⟩ | ⟨hs, hcalls⟩
    · rw [hnil]
      exact List.nodup_nil
    · rw [hcalls, List.Nodup, List.pairwise_filterMap]
      refine List.Pairwise.imp_of_mem ?_ (List.nodup_range.filter _ : e.postProcessIndex.Nodup)
      intro i j hi hj hne z hz w hw hzw
      subst hzw
      obtain ⟨k, hk, rfl⟩ := Option.map_eq_some_iff.mp hz
      obtain ⟨k', hk', heq⟩ := Option.map_eq_some_iff.mp hw
      obtain ⟨rfl, hversion⟩ := Prod.mk.inj heq
      exact hne (hinj i j _ _ ⟨⟨(mem_postProcessIndex.mp hi).1, hk, rfl⟩, h.uploaded entries hs hi⟩
        ⟨⟨(mem_postProcessIndex.mp hj).1, hk', hversion⟩, h.uploaded entries hs hj⟩)
  have heq := eq_of_filterMap_nodup hnodup (mem_issuedCalls.mpr hc) (mem_issuedCalls.mpr hc') hy hy'
  exact congrArg Prod.fst heq

theorem not_resolved_of_pending (h : Alive e) {i : ℕ} {c : HandlerCall K}
    (hp : (.uploadVersionEntry i, c) ∈ e.pending) {op : Op} {c' : HandlerCall K}
    (hc' : Event.issued op c' ∈ e.log) : c'.resolved = none := by
  obtain ⟨x, gaveUp, s, entries, h⟩ := h.ending_of_issued (h.issued_of_pending hp) Nat.one_pos
  have hs : 1 = s.rank := Stage.rank_of_member (h.stacked.pending_member _ hp).1
  have hle : op.rank ≤ s.rank := h.core.ranked _ hc'
  obtain ⟨pre, -, hok⟩ := h.core.callOk hc'
  cases hk : c'.resolved with
  | none => rfl
  | some y =>
    have := hok.rank_of_resolved hk
    omega

theorem not_pending_of_finished (h : Alive e) (hfin : e.isTransactionFinished = true)
    (p : Op × HandlerCall K) : p ∉ e.pending := by
  obtain ⟨x, gaveUp, s, -, h⟩ := h.finished hfin
  intro hp
  have hm := (h.stacked.pending_member p hp).1
  rcases h.finished.mp hfin with rfl | rfl <;> exact hm

theorem resolved_of_finished (h : Alive e) (hfin : e.isTransactionFinished = true) {i : ℕ}
    {key : SetKey K} {version : ℤ} (hu : UploadedAs e i key version) :
    ∃ op c r, Event.answered op c r ∈ e.log ∧ c.resolved = some (key, version) := by
  have hpending := h.not_pending_of_finished hfin
  obtain ⟨x, gaveUp, s, entries, h⟩ := h.finished hfin
  have hend := h.finished.mp hfin
  rcases h.resolved_calls with ⟨⟨h1, h2⟩, -⟩ | ⟨hs, hcalls⟩
  · exact absurd hend (not_or.mpr ⟨h1, h2⟩)
  obtain ⟨⟨hi, hkey, hversion⟩, hup⟩ := hu
  have hmem : (key, version) ∈ (issuedCalls e.log).filterMap fun p => p.2.resolved := by
    rw [hcalls]
    refine List.mem_filterMap.mpr ⟨i, mem_postProcessIndex.mpr ⟨hi, ?_⟩, ?_⟩
    · exact (h.posted hs i (h.core.sets.writeSize ▸ hi)).mpr (Or.inr hup)
    · rw [hkey, ← hversion]
      rfl
  obtain ⟨⟨op, c⟩, hc, hk⟩ := List.mem_filterMap.mp hmem
  rcases h.core.answered_or_pending (mem_issuedCalls.mp hc) with ⟨r, hr⟩ | hp
  · exact ⟨op, c, r, hr, hk⟩
  · exact absurd hp (hpending _)

theorem begin_lt (h : Alive e) (hst : ∀ id ts r, Event.answered .setCommitTs
      (.setCommitTimestamp id ts) r ∈ e.log → r.isError = false → ts ≤ r.result)
    {op : Op} {key : SetKey K} {version expect ts endTs txId : ℤ} {record : Option Addr}
    (hc : Event.issued op (.commitVersion key version expect ts endTs txId record) ∈ e.log) :
    endTs = VersionEntry.kMaxTimeStamp ∧ ∃ j t r,
      Event.answered .readOutside (.getVersionList key t) r ∈ e.log ∧ r.isError = false ∧
      Seen r.result (e.keyReadSet.entry j) ∧ (e.keyReadSet.entry j).version + 1 = version ∧
      (e.keyReadSet.entry j).beginTs < ts := by
  have hop := (h.resolves hc rfl).1
  obtain ⟨x, gaveUp, s, entries, hpipe⟩ := h.ending_of_issued hc (Nat.zero_lt_of_lt hop)
  obtain ⟨pre, hpre, hok⟩ := hpipe.core.callOk hc
  obtain ⟨hend, ⟨c', r', hr', herror, hresult, -⟩, i, hw⟩ := hok.commits
  obtain ⟨j, hj, hjk, hnext, t, r, hr, hrerror, hseen⟩ :=
    h.read_of_writes hc (Nat.zero_lt_of_lt hop) (hpipe.core.sets.writes.mpr hw)
  refine ⟨hend, j, t, r, hr, hrerror, hseen, hnext, ?_⟩
  obtain ⟨pre', -, -, ts', ⟨-, hreads⟩, rfl⟩ :=
    hpipe.core.callOk (hpipe.core.issued_of_answered (hpre hr'))
  have hle : ts' ≤ r'.result := hst _ _ _ (hpre hr') herror
  have hlt := (hreads j (hpipe.core.sets.readSize ▸ hj)).2 key
    ((hpipe.core.sets.readKey j).symm.trans hjk) i hw.1 hw.2.1
  rw [hpipe.core.sets.beginTs, ← hresult]
  exact Int.lt_of_lt_of_le (Int.lt_of_add_one_le hlt) hle

end Alive

end TransactionExecution

end Fugue
