import Fugue.ReaderProtection

namespace Fugue

open TransactionExecution VersionStore

variable {ι K V S : Type}

namespace CallOk

variable {x : ExecutionState K V S} {log : List (Event K V)} {gaveUp : Prop} {op : Op}

theorem getVersionList {key : SetKey K} {time : ℤ}
    (h : CallOk x log gaveUp op (.getVersionList key time)) : op = .readOutside := by
  cases op with
  | readOutside => rfl
  | _ => simp [CallOk, uploadCall, commitCall, deleteCall] at h

theorem told_of_commitVersion {key : SetKey K} {version expect ts endTs txId : ℤ}
    {record : Option Addr}
    (h : CallOk x log gaveUp op (.commitVersion key version expect ts endTs txId record)) :
    ToldCommitted log := by
  cases op with
  | postProcessingCommitEntryAfterCommit p => exact h.1
  | _ => simp [CallOk, uploadCall, deleteCall] at h

end CallOk

namespace TransactionExecution

variable [DecidableEq K] [Services S] {e : TransactionExecution K V S}

theorem Alive.not_reading (h : Alive e) {op op' : Op} {c : HandlerCall K}
    (hc : Event.issued op c ∈ e.log) (hop : 0 < op.rank) {key : SetKey K} {time : ℤ} :
    (op', .getVersionList key time) ∉ e.pending := by
  intro hp
  obtain ⟨x, gaveUp, s, -, hpipe⟩ := h.ending_of_issued hc hop
  obtain ⟨pre, -, hok⟩ := hpipe.core.callOk (hpipe.core.issued_of_pending hp)
  obtain rfl := hok.getVersionList
  have hrank : 0 = s.rank := Stage.rank_of_member (hpipe.stacked.pending_member _ hp).1
  cases s <;> cases hrank

theorem Alive.told_of_commits (h : Alive e) {op : Op} {key : SetKey K}
    {version expect ts endTs txId : ℤ} {record : Option Addr}
    (hc : Event.issued op (.commitVersion key version expect ts endTs txId record) ∈ e.log) :
    (∃ r, Event.answered .updateTxnStatusToCommit (.updateTxnStatus e.txnId .committed) r ∈ e.log ∧
      r.isError = false) ∧
    ∃ commitTs r, Event.answered .setCommitTs (.setCommitTimestamp e.txnId commitTs) r ∈ e.log ∧
      r.isError = false ∧ r.result = ts := by
  obtain ⟨x, gaveUp, s, -, hpipe⟩ :=
    h.ending_of_issued hc (Nat.zero_lt_of_lt (h.resolves hc rfl).1)
  obtain ⟨pre, hpre, hok⟩ := hpipe.core.callOk hc
  obtain ⟨c, r, hr, herror⟩ := hok.told_of_commitVersion.mono hpre
  obtain ⟨-, -, -, -, rfl⟩ := hpipe.core.callOk (hpipe.core.issued_of_answered hr)
  obtain ⟨c', r', hr', herror', hresult, -⟩ := hok.commits.2.1.mono hpre
  obtain ⟨-, -, -, commitTs, -, rfl⟩ := hpipe.core.callOk (hpipe.core.issued_of_answered hr')
  rw [← hpipe.core.sets.txnId] at hr hr'
  exact ⟨⟨r, hr, herror⟩, commitTs, r', hr', herror', hresult⟩

namespace Decided

variable {x : ExecutionState K V S} {gaveUp : Prop} {s : Stage} {ts : ℤ} {key : SetKey K}

theorem read (h : Decided x gaveUp s ts e) {i : ℕ} (hi : i < e.keyReadSet.popIndex)
    (hkey : e.keyReadSet.key i = some key) :
    ∃ t r, Event.answered .readOutside (.getVersionList key t) r ∈ e.log ∧ r.isError = false ∧
      Seen r.result (e.keyReadSet.entry i) := by
  have sets := h.pipe.core.sets
  rw [sets.readSize] at hi
  rw [sets.readKey] at hkey
  obtain ⟨k, t, r, hk, hr, herror, hseen⟩ := h.entries.read i hi
  obtain rfl : key = k := Option.some.inj (hkey.symm.trans hk)
  exact ⟨t, r, hr, herror, (Seen.congr (sets.read i)).mpr hseen⟩

theorem begin_le (h : Decided x gaveUp s ts e) (hst : ∀ id ts r, Event.answered .setCommitTs
      (.setCommitTimestamp id ts) r ∈ e.log → r.isError = false → ts ≤ r.result) {i : ℕ}
    (hi : i < e.keyReadSet.popIndex) : (e.keyReadSet.entry i).beginTs ≤ ts := by
  have sets := h.pipe.core.sets
  obtain ⟨c, r, hr, herror, rfl, -⟩ := h.timestamped
  obtain ⟨pre, hpre, -, proposed, ⟨-, hreads⟩, rfl⟩ :=
    h.pipe.core.callOk (h.pipe.core.issued_of_answered hr)
  rw [sets.beginTs]
  exact (hreads i (sets.readSize ▸ hi)).1.trans (hst _ _ _ hr herror)

theorem uploaded_as (h : Decided x gaveUp s ts e) {l : ℕ} {version : ℤ}
    (hw : e.keyWriteSet.Writes l key version) : UploadedAs e l key version :=
  ⟨hw, h.uploaded l (h.pipe.core.sets.writeSize ▸ hw.1)⟩

end Decided

end TransactionExecution

namespace Client

def Reads (c : Client K V S) (key : SetKey K) (version : ℤ) : Prop :=
  ∃ i < c.execution.keyReadSet.popIndex, c.execution.keyReadSet.key i = some key ∧
    (c.execution.keyReadSet.entry i).version = version

def Writes (c : Client K V S) (key : SetKey K) (version : ℤ) : Prop :=
  ∃ i, c.execution.keyWriteSet.Writes i key version

def Saw (c : Client K V S) (key : SetKey K) (version : ℤ) : Prop :=
  ∃ op t r, Event.answered op (.getVersionList key t) r ∈ c.history ∧ r.isError = false ∧
    ∃ res ∈ r.versions, ∃ entry, Seen res entry ∧ entry.version = version

def ToldCommitted (c : Client K V S) : Prop := ∃ id, c.Told Event.settles (id, .committed)

variable [DecidableEq K] [Services S] {c : Client K V S} {key : SetKey K} {version ts : ℤ}

omit [DecidableEq K] [Services S] in
theorem CommittedAt.told (h : c.CommittedAt ts) : c.ToldCommitted := by
  obtain ⟨id, hid, -⟩ := h
  exact ⟨id, hid⟩

theorem Sound.committed_of_commits (h : c.Sound) (hc : c.Commits key version ts) :
    c.CommittedAt ts := by
  obtain ⟨ev, hev, hc⟩ := hc
  obtain ⟨op, expect, endTs, txId, record, r, rfl⟩ := Event.of_commits hc
  obtain ⟨⟨r₁, hr₁, herror₁⟩, commitTs, r₂, hr₂, herror₂, hresult⟩ :=
    h.alive.told_of_commits (h.issued hev)
  refine ⟨c.execution.txnId, ⟨_, List.mem_append_left _ hr₁, ?_⟩, _, List.mem_append_left _ hr₂, ?_⟩
  · simp only [Event.settles, herror₁, Bool.false_eq_true, if_false]
  · simp only [Event.fixes, herror₂, Bool.false_eq_true, if_false, Reply.timestamp,
      Option.map_some, hresult]

theorem ToldCommitted.issued (h : c.Sound) (hc : c.ToldCommitted) :
    ∃ op id, 0 < op.rank ∧ Event.issued op (.updateTxnStatus id .committed) ∈ c.execution.log := by
  obtain ⟨id, ev, hev, hy⟩ := hc
  obtain ⟨op, r, rfl⟩ := Event.of_settles hy
  have hissued := h.issued hev
  obtain ⟨rfl, -⟩ := (h.alive.updateTxnStatus hissued).resolve_right (by simp)
  exact ⟨_, id, by decide, hissued⟩

theorem ToldCommitted.committedAt (h : c.Sound) (hc : c.ToldCommitted) :
    ∃ ts, c.CommittedAt ts := by
  obtain ⟨id, ev, hev, hy⟩ := hc
  obtain ⟨op, r, rfl⟩ := Event.of_settles hy
  have hid := h.alive.txnId_eq (h.issued hev) (Or.inr ⟨_, rfl⟩)
  obtain ⟨x, gaveUp, s, ts, hd⟩ := h.alive.decided (h.issued hev)
  obtain ⟨commitTs, r', hr', herror, hresult, -⟩ := hd.fixed
  refine ⟨ts, id, ⟨_, hev, hy⟩, _, List.mem_append_left _ hr', ?_⟩
  simp only [Event.fixes, herror, Bool.false_eq_true, if_false, Reply.timestamp, Option.map_some,
    hresult, hid]

theorem Sound.committedAt_unique (h : c.Sound) {ts' : ℤ} (hc : c.CommittedAt ts)
    (hc' : c.CommittedAt ts') : ts = ts' := by
  obtain ⟨x, gaveUp, s, hd⟩ := h.decided hc
  obtain ⟨x', gaveUp', s', hd'⟩ := h.decided hc'
  exact hd'.timestamp_eq hd.timestamped

theorem Sound.saw_of_reads (h : c.Sound) (hc : c.CommittedAt ts) (hr : c.Reads key version) :
    c.Saw key version := by
  obtain ⟨x, gaveUp, s, hd⟩ := h.decided hc
  obtain ⟨i, hi, hkey, rfl⟩ := hr
  obtain ⟨t, r, hr, herror, hseen⟩ := hd.read hi hkey
  exact ⟨_, t, r, List.mem_append_left _ hr, herror, r.result, rfl, _, hseen, rfl⟩

theorem Sound.reads_of_writes (h : c.Sound) (hc : c.CommittedAt ts) (hw : c.Writes key version) :
    c.Reads key (version - 1) := by
  obtain ⟨x, gaveUp, s, hd⟩ := h.decided hc
  obtain ⟨l, hw⟩ := hw
  obtain ⟨i, hi, hkey, hnext, -⟩ := h.alive.read_of_writes hd.issued (by decide) hw
  exact ⟨i, hi, hkey, by omega⟩

end Client

namespace SharedStore

variable {s : SharedStore ι K V S} [DecidableEq K] [Services S] {j j' : ι} {key : SetKey K}
  {version ts : ℤ}

namespace Coherent

theorem timestamp_le (h : Coherent s) (j : ι) (id ts : ℤ) (r : Reply V .setCommitTs)
    (hr : Event.answered .setCommitTs (.setCommitTimestamp id ts) r ∈ (s.client j).execution.log)
    (herror : r.isError = false) : ts ≤ r.result :=
  h.fits j _ (List.mem_append_left _ hr) r.result rfl herror

theorem committed_of_saw (h : Coherent s) (hj : (s.client j).Saw key version) :
    ∃ v ∈ s.store key, v.Committed ∧ v.version = version := by
  obtain ⟨op, t, r, hr, herror, res, hres, entry, hseen, rfl⟩ := hj
  obtain ⟨v, hv, hc, hversion, -⟩ := h.fits j _ hr res hres herror entry hseen
  exact ⟨v, hv, hc, hversion⟩

theorem nonneg_of_saw (h : Coherent s) (hj : (s.client j).Saw key version) : 0 ≤ version := by
  obtain ⟨v, hv, hc, rfl⟩ := h.committed_of_saw hj
  obtain ⟨dirty, committed, hstore, hshape⟩ := h.shaped_of_mem hv
  rw [hstore] at hv
  exact hshape.lineage.number_nonneg (hshape.mem_of_committed hv hc)

theorem not_saw_of_owes (h : Coherent s) (hj : (s.client j).Owes key version) :
    ¬ (s.client j').Saw key version := by
  intro hsaw
  obtain ⟨v, hv, hc, hversion⟩ := h.committed_of_saw hsaw
  obtain ⟨d, hd, hdirty, hdversion⟩ := h.dues.held j key version hj
  obtain ⟨dirty, committed, hstore, hshape⟩ := h.shaped_of_mem hd
  rw [hstore] at hd hv
  obtain rfl := hshape.eq_of_version hd hv (hdversion.trans hversion.symm)
  exact hdirty hc

theorem not_commits_of_owes (h : Coherent s) (hj : (s.client j).Owes key version) :
    ¬ (s.client j').Commits key version ts := by
  intro hcom
  obtain ⟨v, hv, hc, hversion, -⟩ := h.authors.kept j' key version ts hcom
  obtain ⟨d, hd, hdirty, hdversion⟩ := h.dues.held j key version hj
  obtain ⟨dirty, committed, hstore, hshape⟩ := h.shaped_of_mem hd
  rw [hstore] at hd hv
  obtain rfl := hshape.eq_of_version hd hv (hdversion.trans hversion.symm)
  exact hdirty hc

omit [DecidableEq K] [Services S] in
theorem owes_or_resolved {op : Op} (hup : (s.client j).Uploads op key version) :
    (s.client j).Owes key version ∨ (∃ ts, (s.client j).Commits key version ts) ∨
      (s.client j).Told Event.deletes (key, version) := by
  by_cases hres : (s.client j).Resolves key version
  · obtain ⟨ev, hev, hres⟩ := hres
    rcases Event.commits_or_deletes hres with ⟨ts, hcom⟩ | hdel
    · exact Or.inr (Or.inl ⟨ts, ev, hev, hcom⟩)
    · exact Or.inr (Or.inr ⟨ev, hev, hdel⟩)
  · exact Or.inl ⟨⟨op, hup⟩, hres⟩

theorem uploader_unique (h : Coherent s) {op op' : Op}
    (hup : (s.client j).Uploads op key version) (hup' : (s.client j').Uploads op' key version)
    (hdel : ¬ (s.client j).Told Event.deletes (key, version))
    (hdel' : ¬ (s.client j').Told Event.deletes (key, version)) : j = j' := by
  rcases owes_or_resolved hup with ho | ⟨ts, hcom⟩ | hd
  · rcases owes_or_resolved hup' with ho' | ⟨ts', hcom'⟩ | hd'
    · exact h.dues.sole j j' key version ho ho'
    · exact absurd hcom' (h.not_commits_of_owes ho)
    · exact absurd hd' hdel'
  · rcases owes_or_resolved hup' with ho' | ⟨ts', hcom'⟩ | hd'
    · exact absurd hcom (h.not_commits_of_owes ho')
    · exact h.authors.single j j' key version ts ts' hcom hcom'
    · exact absurd hd' hdel'
  · exact absurd hd hdel

theorem author_of_saw (h : Coherent s) (hj : (s.client j).Saw key version) (hpos : 0 < version) :
    ∃ w begin, (s.client w).Commits key version begin ∧ (s.client w).CommittedAt begin ∧
      ∀ v ∈ s.store key, v.version = version → v.beginTs = begin := by
  obtain ⟨v, hv, hc, rfl⟩ := h.committed_of_saw hj
  obtain ⟨w, hw⟩ := h.authors.written key v hv hc hpos
  refine ⟨w, _, hw, (h.sound w).committed_of_commits hw, fun v' hv' hn => ?_⟩
  obtain ⟨dirty, committed, hstore, hshape⟩ := h.shaped_of_mem hv
  rw [hstore] at hv hv'
  rw [hshape.eq_of_version hv' hv hn]

theorem writes_of_commits (h : Coherent s) (hw : (s.client j).Commits key version ts) :
    (s.client j).Writes key version := by
  obtain ⟨ev, hev, hcom⟩ := hw
  obtain ⟨op, expect, endTs, txId, record, r, rfl⟩ := Event.of_commits hcom
  obtain ⟨-, i, hu⟩ := (h.sound j).alive.resolves ((h.sound j).issued hev) rfl
  exact ⟨i, hu.1⟩

theorem uploads_of_writes (h : Coherent s) (hj : (s.client j).CommittedAt ts)
    (hw : (s.client j).Writes key version) : ∃ op, (s.client j).Uploads op key version := by
  obtain ⟨x, gaveUp, stage, hd⟩ := (h.sound j).decided hj
  obtain ⟨l, hw⟩ := hw
  exact ⟨_, h.uploads_of_uploadedAs (hd.uploaded_as hw)⟩

theorem not_deletes (h : Coherent s) (hj : (s.client j).CommittedAt ts) :
    ¬ (s.client j).Told Event.deletes (key, version) := by
  rintro ⟨ev, hev, hdel⟩
  obtain ⟨op, r, rfl⟩ := Event.of_deletes hdel
  obtain ⟨x, gaveUp, stage, hd⟩ := (h.sound j).decided hj
  have := hd.not_abortive ((h.sound j).issued hev)
  cases this

theorem writer_unique (h : Coherent s) {ts' : ℤ} (hj : (s.client j).CommittedAt ts)
    (hj' : (s.client j').CommittedAt ts') (hw : (s.client j).Writes key version)
    (hw' : (s.client j').Writes key version) : j = j' := by
  obtain ⟨op, hup⟩ := h.uploads_of_writes hj hw
  obtain ⟨op', hup'⟩ := h.uploads_of_writes hj' hw'
  exact h.uploader_unique hup hup' (h.not_deletes hj) (h.not_deletes hj')

theorem begin_le_of_reads (h : Coherent s) (hj : (s.client j).CommittedAt ts)
    (hr : (s.client j).Reads key version) :
    ∃ v ∈ s.store key, v.Committed ∧ v.version = version ∧ v.beginTs ≤ ts := by
  obtain ⟨x, gaveUp, stage, hd⟩ := (h.sound j).decided hj
  obtain ⟨i, hi, hkey, rfl⟩ := hr
  obtain ⟨t, r, hr, herror, hseen⟩ := hd.read hi hkey
  obtain ⟨v, hv, hc, hversion, hbegin⟩ :=
    h.fits j _ (List.mem_append_left _ hr) r.result rfl herror _ hseen
  exact ⟨v, hv, hc, hversion, hbegin ▸ hd.begin_le (h.timestamp_le j) hi⟩

end Coherent

end SharedStore

namespace TimestampStore

variable {s : TimestampStore ι K V S} [DecidableEq K] [Services S] {j j' : ι} {key : SetKey K}
  {version ts ts' : ℤ}

theorem Guarded.le_of_reads (h : Guarded s)
    (hid : ∀ j j', (s.shared.client j).execution.txnId = (s.shared.client j').execution.txnId →
      j = j') (hne : (s.shared.client j').execution.txnId ≠ VersionEntry.kEmptyTxId)
    (hj : (s.shared.client j).CommittedAt ts) (hj' : (s.shared.client j').CommittedAt ts')
    (hr : (s.shared.client j).Reads key version)
    (hw : (s.shared.client j').Writes key (version + 1)) (hjj : j ≠ j') : ts ≤ ts' := by
  obtain ⟨x, gaveUp, stage, hd⟩ := (h.coherent.sound j).decided hj
  obtain ⟨i, hi, hkey, rfl⟩ := hr
  rcases hd.reread_or_written hi hkey with ⟨l, r, hr, hreread, hpush⟩ | ⟨l, hl⟩
  · obtain ⟨op, hup⟩ := h.coherent.uploads_of_writes hj' hw
    exact (h.le_of_reread hid hne hj hj' hr hreread hpush hup).1
  · exact absurd (h.coherent.writer_unique hj hj' ⟨l, hl⟩ hw) hjj

end TimestampStore

end Fugue
