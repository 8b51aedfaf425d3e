import Fugue.SerialOrder

namespace Fugue

open TransactionExecution VersionStore

variable {ι K V S : Type}

/-- `l'` is `l` with versions added or taken away that are not committed, and with the end of a
committed version set, perhaps. -/
def VersionStore.Extends (l l' : List VersionEntry) : Prop :=
  ∀ v ∈ l, v.Committed → ∃ t, { v with endTs := t } ∈ l' ∧ t ≠ VersionEntry.kDefaultEndTs ∧
    (t = v.endTs ∨ v.endTs = VersionEntry.kMaxTimeStamp ∧ v.beginTs < t)

namespace VersionStore.Extends

variable {l l' l'' : List VersionEntry}

theorem of_subset (h : ∀ v ∈ l, v.Committed → v ∈ l') : Extends l l' :=
  fun v hv hc => ⟨v.endTs, h v hv hc, hc, Or.inl rfl⟩

theorem trans (h : Extends l l') (h' : Extends l' l'') : Extends l l'' := by
  intro v hv hc
  obtain ⟨t, ht, htc, hend⟩ := h v hv hc
  obtain ⟨t', ht', htc', hend'⟩ := h' _ ht htc
  refine ⟨t', ht', htc', ?_⟩
  rcases hend with rfl | ⟨hmax, hlt⟩
  · exact hend'
  · rcases hend' with rfl | ⟨-, hlt'⟩
    · exact Or.inr ⟨hmax, hlt⟩
    · exact Or.inr ⟨hmax, hlt'⟩

theorem commit {d v : VersionEntry} (h : Shaped (some d) (v :: l)) {ts txId : ℤ}
    {record : Option Addr} (hlt : v.beginTs < ts) : Extends (d :: v :: l)
      ((d :: v :: l).map (commitAt d.version ts VersionEntry.kMaxTimeStamp txId record)) := by
  intro w hw hc
  have hcommits := (h.commit hlt txId record).shaped
  have hmem : commitAt d.version ts VersionEntry.kMaxTimeStamp txId record w ∈
      (d :: v :: l).map (commitAt d.version ts VersionEntry.kMaxTimeStamp txId record) :=
    List.mem_map_of_mem hw
  have hkept := hcommits.committed_of_mem hmem
  have hw' := h.mem_of_committed hw hc
  have hne : w.version ≠ d.version := by
    intro heq
    obtain rfl := h.eq_of_version hw List.mem_cons_self heq
    exact (h.dirty w rfl).1 hc
  rw [commitAt, if_neg hne] at hmem hkept
  split at hmem
  · next hnext =>
    rw [if_pos hnext] at hkept
    have hd := (h.dirty d rfl).2
    have hv := h.lineage.number_eq
    rw [List.length_cons] at hd
    obtain rfl : w = v := h.lineage.eq_of_number hw' List.mem_cons_self (by omega)
    exact ⟨ts, hmem, hkept, Or.inr ⟨h.lineage.stop_eq, hlt⟩⟩
  · exact ⟨w.endTs, hmem, hc, Or.inl rfl⟩

end VersionStore.Extends

theorem Client.toldCommitted_of_log [DecidableEq K] [Services S] {c : Client K V S}
    {x : ExecutionState K V S} {gaveUp : Prop} {stage : Stage}
    (h : Pipe x gaveUp stage c.execution) (htold : Fugue.ToldCommitted c.execution.log) :
    c.ToldCommitted := by
  obtain ⟨call, r, hr, herror⟩ := htold
  obtain ⟨-, -, -, -, rfl⟩ := h.core.callOk (h.core.issued_of_answered hr)
  refine ⟨x.txnId, _, List.mem_append_left _ hr, ?_⟩
  simp only [Event.settles, herror, Bool.false_eq_true, if_false]

namespace SharedStore

variable {s s' : SharedStore ι K V S}

theorem Coherent.begin_lt_of_version [DecidableEq K] [Services S] (h : Coherent s)
    {key : SetKey K} {u v : VersionEntry} (hu : u ∈ s.store key) (huc : u.Committed)
    (hv : v ∈ s.store key) (hc : v.Committed) (hlt : v.version < u.version) :
    v.beginTs < u.beginTs := by
  obtain ⟨dirty, committed, hstore, hshape⟩ := h.shaped_of_mem hv
  rw [hstore] at hu hv
  exact hshape.lineage.start_lt_of_number (hshape.mem_of_committed hv hc)
    (hshape.mem_of_committed hu huc) hlt

variable [DecidableEq ι] [DecidableEq K] [Services S]

omit [DecidableEq ι] in
theorem Coherent.extends_perform (h : Coherent s) {j : ι} {op : Op} {c : HandlerCall K}
    {r : Reply V op} (hp : (op, c) ∈ (s.client j).execution.pending)
    (hnew : ∀ ev ∈ (s.client j).performed, ev.op ≠ op) (key : SetKey K) :
    Extends (s.store key) (s.store.perform r.isError c key) := by
  have hsame : Extends (s.store key) (s.store key) := .of_subset fun v hv _ => hv
  have hupdate : ∀ k l, Extends (s.store k) l →
      Extends (s.store key) (Function.update s.store k l key) := by
    intro k l hl
    by_cases hk : key = k
    · subst hk
      rwa [Function.update_self]
    · rwa [Function.update_of_ne hk]
  unfold VersionStore.perform
  split
  · exact hsame
  · cases c with
    | getVersionList k time =>
      apply hupdate
      apply Extends.of_subset
      intro v hv _
      rw [opened, if_neg (List.ne_nil_of_mem hv)]
      exact hv
    | uploadVersion k v =>
      apply hupdate
      exact .of_subset fun w hw _ => List.mem_cons_of_mem _ hw
    | commitVersion k version expect ts endTs txId record =>
      apply hupdate
      obtain ⟨-, d, committed, hstore, hshape, rfl⟩ := h.resolving hp hnew rfl
      obtain ⟨rfl, v, l, rfl, hlt⟩ := h.committing hp hstore hshape
      rw [hstore]
      exact .commit hshape hlt
    | deleteVersion k version =>
      apply hupdate
      apply Extends.of_subset
      intro v hv hc
      exact List.mem_filter.mpr ⟨hv, decide_eq_true (Or.inr hc)⟩
    | _ => exact hsame

theorem Coherent.extends_step (h : Coherent s) {a : SharedAction ι K V S}
    (hs : s.step a = some s') (key : SetKey K) : Extends (s.store key) (s'.store key) := by
  obtain ⟨-, ⟨-, hq⟩ | ⟨j, op, c, r, -, hp, hnew, -, rfl⟩⟩ := step_cases h.sound hs
  · rw [hq.store]
    exact .of_subset fun v hv _ => hv
  · exact h.extends_perform (List.mem_of_find?_eq_some hp) hnew key

theorem Coherent.extends_run {as : List (SharedAction ι K V S)} (h : Coherent s)
    (hr : run SharedStore.step s as = some s') (key : SetKey K) :
    Coherent s' ∧ Extends (s.store key) (s'.store key) := by
  have hstep : ∀ (t : SharedStore ι K V S) a t',
      (Coherent t ∧ Extends (s.store key) (t.store key)) → t.step a = some t' →
      Coherent t' ∧ Extends (s.store key) (t'.store key) := by
    rintro t a t' ⟨hco, hext⟩ ht
    exact ⟨hco.step ht, hext.trans (hco.extends_step ht key)⟩
  exact run_invariant hstep ⟨h, .of_subset fun v hv _ => hv⟩ hr

/-- What is committed in a state of a run is there in all later states, with the same number, data
and beginning. Only the end of the newest version can be set, and what is committed later comes
after it. -/
theorem committed_versions_kept {e : ι → TransactionExecution K V S}
    (hv : ∀ j, (e j).operationVector = []) (hp : ∀ j, (e j).pending = [])
    {as bs : List (SharedAction ι K V S)} (hr : run step (start e) as = some s)
    (hr' : run step s bs = some s') (key : SetKey K) :
    Extends (s.store key) (s'.store key) ∧
    ∀ u ∈ s'.store key, u.Committed →
      (∃ v ∈ s.store key, v.Committed ∧ v.version = u.version ∧ v.beginTs = u.beginTs) ∨
      ∀ v ∈ s.store key, v.Committed → v.version < u.version ∧ v.beginTs < u.beginTs := by
  have h : Coherent s := run_invariant (fun _ _ _ hi hs => hi.step hs) (.start hv hp) hr
  obtain ⟨h', hext⟩ := h.extends_run hr' key
  refine ⟨hext, fun u hu hc => ?_⟩
  by_cases hold : ∃ v ∈ s.store key, v.Committed ∧ v.version = u.version
  · obtain ⟨v, hv, hvc, hversion⟩ := hold
    obtain ⟨t, ht, -, -⟩ := hext v hv hvc
    obtain ⟨dirty, committed, hstore, hshape⟩ := h'.shaped_of_mem hu
    rw [hstore] at hu ht
    have heq := hshape.eq_of_version ht hu hversion
    have hbegin := congrArg VersionEntry.beginTs heq
    exact Or.inl ⟨v, hv, hvc, hversion, hbegin⟩
  · right
    intro v hv hvc
    obtain ⟨t, ht, htc, -⟩ := hext v hv hvc
    have hlt : v.version < u.version := by
      by_contra hle
      obtain ⟨dirty, committed, hstore, hshape⟩ := h.shaped_of_mem hv
      obtain ⟨dirty', committed', hstore', hshape'⟩ := h'.shaped_of_mem hu
      have hu0 := hshape'.lineage.number_nonneg (hshape'.mem_of_committed (hstore' ▸ hu) hc)
      rw [hstore] at hv
      have hvl := hshape.lineage.number_lt (hshape.mem_of_committed hv hvc)
      obtain ⟨w, hw, hwn⟩ := hshape.lineage.exists_number hu0 (by omega)
      exact hold ⟨w, hstore ▸ List.mem_append_right _ hw, hshape.committed_of_mem hw, hwn⟩
    have hbegin := h'.begin_lt_of_version hu hc ht htc hlt
    exact ⟨hlt, hbegin⟩

theorem committed_versions_kept_sample :
    ∃ s s', run step (start sampleExecutions)
        (sampleUpsert 0 (.pseudo, .blank none) ++ sampleCommit 0 6) = some s ∧
      run step s (sampleUpsert 1 ({ VersionEntry.pseudo with
        version := 1, beginTs := 6, isDeleted := false },
        { VersionEntry.pseudo with endTs := 6 }) ++ sampleCommit 1 9) = some s' ∧
      (s'.store ⟨"t", 1⟩).map VersionEntry.beginTs = [9, 6, 0] ∧
      Extends (s.store ⟨"t", 1⟩) (s'.store ⟨"t", 1⟩) ∧
      ∀ u ∈ s'.store ⟨"t", 1⟩, u.Committed →
        (∃ v ∈ s.store ⟨"t", 1⟩, v.Committed ∧ v.version = u.version ∧ v.beginTs = u.beginTs) ∨
        ∀ v ∈ s.store ⟨"t", 1⟩, v.Committed → v.version < u.version ∧ v.beginTs < u.beginTs := by
  have hrun : ∃ s ∈ run step (start sampleExecutions)
        (sampleUpsert 0 (.pseudo, .blank none) ++ sampleCommit 0 6),
      ∃ s' ∈ run step s (sampleUpsert 1 ({ VersionEntry.pseudo with
        version := 1, beginTs := 6, isDeleted := false },
        { VersionEntry.pseudo with endTs := 6 }) ++ sampleCommit 1 9),
      (s'.store ⟨"t", 1⟩).map VersionEntry.beginTs = [9, 6, 0] := by decide +kernel
  obtain ⟨s, hs, s', hs', hbegin⟩ := hrun
  exact ⟨s, s', hs, hs', hbegin,
    committed_versions_kept (fun _ => rfl) (fun _ => rfl) hs hs' ⟨"t", 1⟩⟩

/-- A finished transaction has committed all that it wrote, at one timestamp, or it was aborted, and
each version in the store is of another one. -/
def AllOrNothing (s : SharedStore ι K V S) (j : ι) : Prop :=
  (s.client j).execution.status = .committed ∧ (∃ ts, (s.client j).CommittedAt ts ∧
    ∀ key version, (s.client j).Writes key version →
      ∃ v ∈ s.store key, v.Committed ∧ v.version = version ∧ v.beginTs = ts) ∨
  (s.client j).execution.status = .aborted ∧
    ∀ key, ∀ v ∈ s.store key, 0 < v.version → ∃ w, w ≠ j ∧
      ((s.client w).Commits key v.version v.beginTs ∨ (s.client w).Owes key v.version)

theorem commit_atomic {e : ι → TransactionExecution K V S}
    (hv : ∀ j, (e j).operationVector = []) (hp : ∀ j, (e j).pending = [])
    {as : List (SharedAction ι K V S)} (hr : run step (start e) as = some s) {j : ι}
    (hfin : (s.client j).execution.isTransactionFinished = true) : AllOrNothing s j := by
  have h : Coherent s := run_invariant (fun _ _ _ hi hs => hi.step hs) (.start hv hp) hr
  have hsound := h.sound j
  have hpaid : ∀ key version, ¬ (s.client j).Owes key version := by
    intro key version ho
    rw [h.unfinished ho] at hfin
    cases hfin
  obtain ⟨x, gaveUp, stage, entries, hpipe⟩ := hsound.alive.finished hfin
  rcases hpipe.calls_finished hfin with ⟨rfl, hst, hstatus, -⟩ | ⟨rfl, hst, -, hcommits, -⟩
  · left
    obtain ⟨ts, hts⟩ := (Client.toldCommitted_of_log hpipe hpipe.facts.2.2).committedAt hsound
    refine ⟨hst, ts, hts, fun key version hw => ?_⟩
    obtain ⟨op, hup⟩ := h.uploads_of_writes hts hw
    rcases Coherent.owes_or_resolved hup with ho | ⟨begin, hcom⟩ | hdel
    · exact absurd ho (hpaid key version)
    · obtain ⟨v, hv, hc, hversion, hbegin⟩ := h.authors.kept j key version begin hcom
      have heq := hsound.committedAt_unique (hsound.committed_of_commits hcom) hts
      exact ⟨v, hv, hc, hversion, hbegin.trans heq⟩
    · exact absurd hdel (h.not_deletes hts)
  · right
    refine ⟨hst, fun key v hv hpos => ?_⟩
    by_cases hc : v.Committed
    · obtain ⟨w, hw⟩ := h.authors.written key v hv hc hpos
      refine ⟨w, ?_, Or.inl hw⟩
      rintro rfl
      obtain ⟨ev, hev, hcom⟩ := hw
      obtain ⟨op, expect, endTs, txId, record, r, rfl⟩ := Event.of_commits hcom
      have hissued := mem_issuedCalls.mpr (hsound.issued hev)
      have hmem : HandlerCall.commitVersion key v.version expect v.beginTs endTs txId record ∈
          callsOf HandlerCall.isCommitVersion (s.client w).execution.log :=
        List.mem_filter.mpr ⟨List.mem_map.mpr ⟨_, hissued, rfl⟩, rfl⟩
      rw [hcommits] at hmem
      cases hmem
    · obtain ⟨w, ho, -⟩ := h.dues.owed key v hv hc
      refine ⟨w, ?_, Or.inr ho⟩
      rintro rfl
      exact hpaid key _ ho

theorem commit_atomic_sample :
    ∃ s, run step (start sampleExecutions)
        (sampleUpsert 0 (.pseudo, .blank none) ++ sampleCommit 0 6) = some s ∧
      (s.client 0).execution.keyWriteSet.popIndex = 1 ∧ AllOrNothing s 0 := by
  have hrun : ∃ s ∈ run step (start sampleExecutions)
        (sampleUpsert 0 (.pseudo, .blank none) ++ sampleCommit 0 6),
      (s.client 0).execution.keyWriteSet.popIndex = 1 ∧
        (s.client 0).execution.isTransactionFinished = true := by decide +kernel
  obtain ⟨s, hs, hsize, hfin⟩ := hrun
  exact ⟨s, hs, hsize, commit_atomic (fun _ => rfl) (fun _ => rfl) hs hfin⟩

def sampleLookup : List (SharedAction ℕ ℕ ℕ LocalServices) :=
  sampleActs 1 [.dispatch .begin] ++ sampleAnswer 1 .initTxn ⟨false, (), []⟩ ++
    sampleActs 1 [.visit 0, .tidy, .dispatch (.read ⟨"t", 1⟩ none)] ++
    sampleAnswer 1 .readOutside ⟨false, ({ VersionEntry.pseudo with
      version := 1, beginTs := 6, isDeleted := false }, { VersionEntry.pseudo with endTs := 6 }),
      []⟩ ++
    sampleActs 1 [.visit 0, .tidy]

/-- Between its requests a transaction, whatever becomes of it, has read pseudo versions, which
begin at 0, and versions of other transactions that were committed by then, at the timestamps at
which the versions begin. -/
theorem no_dirty_read {e : ι → TransactionExecution K V S}
    (hv : ∀ j, (e j).operationVector = []) (hp : ∀ j, (e j).pending = [])
    {as : List (SharedAction ι K V S)} (hr : run step (start e) as = some s) {j : ι}
    (hidle : (s.client j).execution.operationVector = []) {i : ℕ}
    (hi : i < (s.client j).execution.keyReadSet.popIndex) :
    (((s.client j).execution.keyReadSet.entry i).version = 0 ∧
      ((s.client j).execution.keyReadSet.entry i).beginTs = 0) ∨
    ∃ key w, (s.client j).execution.keyReadSet.key i = some key ∧ w ≠ j ∧
      (s.client w).CommittedAt ((s.client j).execution.keyReadSet.entry i).beginTs ∧
      (s.client w).Commits key ((s.client j).execution.keyReadSet.entry i).version
        ((s.client j).execution.keyReadSet.entry i).beginTs := by
  obtain ⟨h, order, hd⟩ := exists_decisions hv hp hr
  obtain ⟨key, t, r, hkey, hr, herror, hseen⟩ := ((h.sound j).alive.linked hidle).read i hi
  obtain ⟨v, hv, hc, hversion, hbegin⟩ :=
    h.fits j _ (List.mem_append_left _ hr) r.result rfl herror _ hseen
  rw [← hversion, ← hbegin]
  by_cases hpos : 0 < v.version
  · right
    obtain ⟨w, hw⟩ := h.authors.written key v hv hc hpos
    refine ⟨key, w, hkey, ?_, (h.sound w).committed_of_commits hw, hw⟩
    rintro rfl
    have hsaw : (s.client w).Saw key v.version :=
      ⟨_, t, r, List.mem_append_left _ hr, herror, r.result, rfl, _, hseen, hversion.symm⟩
    exact hd.other w ⟨key, _, _, hsaw, hw⟩
  · left
    obtain ⟨dirty, committed, hstore, hshape⟩ := h.shaped_of_mem hv
    rw [hstore] at hv
    have hmem := hshape.mem_of_committed hv hc
    have hnonneg := hshape.lineage.number_nonneg hmem
    have hzero : v.version = 0 := by omega
    exact ⟨hzero, hshape.lineage.start_first hmem hzero⟩

theorem no_dirty_read_sample :
    ∃ s, run step (start sampleExecutions)
        (sampleUpsert 0 (.pseudo, .blank none) ++ sampleCommit 0 6 ++ sampleLookup) = some s ∧
      ((s.client 1).execution.keyReadSet.entry 0).version = 1 ∧
      ∃ key w, (s.client 1).execution.keyReadSet.key 0 = some key ∧ w ≠ 1 ∧
        (s.client w).CommittedAt ((s.client 1).execution.keyReadSet.entry 0).beginTs ∧
        (s.client w).Commits key ((s.client 1).execution.keyReadSet.entry 0).version
          ((s.client 1).execution.keyReadSet.entry 0).beginTs := by
  have hrun : ∃ s ∈ run step (start sampleExecutions)
        (sampleUpsert 0 (.pseudo, .blank none) ++ sampleCommit 0 6 ++ sampleLookup),
      (s.client 1).execution.operationVector = [] ∧
        0 < (s.client 1).execution.keyReadSet.popIndex ∧
        ((s.client 1).execution.keyReadSet.entry 0).version = 1 := by decide +kernel
  obtain ⟨s, hs, hidle, hi, hversion⟩ := hrun
  refine ⟨s, hs, hversion, ?_⟩
  apply (no_dirty_read (fun _ => rfl) (fun _ => rfl) hs hidle hi).resolve_left
  rintro ⟨hzero, -⟩
  rw [hversion] at hzero
  cases hzero

end SharedStore

end Fugue
