import Fugue.CommitSteps

namespace Fugue

variable {K V S : Type}

/-- What a read-set entry keeps of the two versions that its read returned. -/
def Seen (res : VersionEntry × VersionEntry) (entry : ReadSetEntry) : Prop :=
  match pickVisibleVersion res with
  | .ok (some v) => entry.version = v.version ∧ entry.beginTs = v.beginTs ∧
      entry.endTs = v.endTs ∧ entry.isDeleted = v.isDeleted
  | .ok none => entry.version = 0 ∧ entry.beginTs = 0 ∧
      entry.endTs = VersionEntry.kMaxTimeStamp ∧ entry.isDeleted = true
  | .error _ => False

/-- The first `n` read-set entries come from answered reads, and every write-set entry replaces
the version that one of them read. -/
structure Entries (log : List (Event K V)) (n : ℕ) (z : ExecutionState K V S) : Prop where
  read : ∀ i < n, ∃ k t r, z.keyReadSet.key i = some k ∧
    Event.answered .readOutside (.getVersionList k t) r ∈ log ∧ r.isError = false ∧
    Seen r.result (z.keyReadSet.entry i)
  write : ∀ i < z.keyWriteSet.popIndex, ∃ k j, z.keyWriteSet.key i = some k ∧
    (z.keyWriteSet.entry i).readEntry = some j ∧ j < n ∧ z.keyReadSet.key j = some k ∧
    (z.keyWriteSet.entry i).version = (z.keyReadSet.entry j).version + 1 ∧
    (z.keyReadSet.entry j).isUpdated = true
  unposted : ∀ i < z.keyWriteSet.popIndex, (z.keyWriteSet.entry i).needPostProcessing = false
  updated : ∀ j < n, (z.keyReadSet.entry j).isUpdated = true →
    ∃ i < z.keyWriteSet.popIndex, (z.keyWriteSet.entry i).readEntry = some j
  owed : ∀ j < n, (z.keyReadSet.entry j).needRelease = true ∧
    (z.keyReadSet.entry j).needPostProcessing = false

namespace Entries

variable {log log' : List (Event K V)} {n : ℕ} {z z' : ExecutionState K V S}

theorem mono (h : Entries log n z) (hl : log ⊆ log') : Entries log' n z where
  read i hi := by
    obtain ⟨k, t, r, hk, hr, hs⟩ := h.read i hi
    exact ⟨k, t, r, hk, hl hr, hs⟩
  write := h.write
  unposted := h.unposted
  updated := h.updated
  owed := h.owed

theorem congr (h : Entries log n z) (hk : ∀ i, z'.keyReadSet.get i = z.keyReadSet.get i)
    (hw : z'.keyWriteSet = z.keyWriteSet) : Entries log n z' := by
  have hkey : ∀ i, z'.keyReadSet.key i = z.keyReadSet.key i := fun i => by
    simp only [KeyReadSetEntryPool.key, hk]
  have hentry : ∀ i, z'.keyReadSet.entry i = z.keyReadSet.entry i := fun i => by
    simp only [KeyReadSetEntryPool.entry, hk]
  refine ⟨fun i hi => ?_, fun i hi => ?_, fun i hi => ?_, fun j hj hu => ?_, fun j hj => ?_⟩
  · simpa only [hkey, hentry] using h.read i hi
  · rw [hw] at hi ⊢
    simpa only [hkey, hentry] using h.write i hi
  · rw [hw] at hi ⊢
    exact h.unposted i hi
  · rw [hentry] at hu
    rw [hw]
    exact h.updated j hj hu
  · rw [hentry]
    exact h.owed j hj

theorem fill (h : Entries log n z) {k : SetKey K} {entry : ReadSetEntry} {t : ℤ}
    {r : Reply V .readOutside} (hn : n < z.keyReadSet.popIndex)
    (hr : Event.answered .readOutside (.getVersionList k t) r ∈ log) (he : r.isError = false)
    (hs : Seen r.result entry) (hu : entry.isUpdated = false)
    (ho : entry.needRelease = true ∧ entry.needPostProcessing = false)
    (hk : z'.keyReadSet = z.keyReadSet.fill n k entry)
    (hw : z'.keyWriteSet = z.keyWriteSet) : Entries log (n + 1) z' := by
  have hself : z'.keyReadSet.get n = ⟨some k, entry⟩ := by
    rw [hk]
    exact Pool.get_modify_self _ _ hn
  have hother : ∀ i, i ≠ n → z'.keyReadSet.get i = z.keyReadSet.get i := fun i hi => by
    rw [hk]
    exact Pool.get_modify_ne _ _ hi
  refine ⟨fun i hi => ?_, fun i hi => ?_, fun i hi => ?_, fun j hj huj => ?_, fun j hj => ?_⟩
  · rcases Nat.lt_succ_iff_lt_or_eq.mp hi with hi | rfl
    · simpa only [KeyReadSetEntryPool.key, KeyReadSetEntryPool.entry,
        hother i (Nat.ne_of_lt hi)] using h.read i hi
    · simp only [KeyReadSetEntryPool.key, KeyReadSetEntryPool.entry, hself]
      exact ⟨k, t, r, rfl, hr, he, hs⟩
  · rw [hw] at hi ⊢
    obtain ⟨k', j, hk', hj, hjn, hrest⟩ := h.write i hi
    refine ⟨k', j, hk', hj, Nat.lt_succ_of_lt hjn, ?_⟩
    simpa only [KeyReadSetEntryPool.key, KeyReadSetEntryPool.entry,
      hother j (Nat.ne_of_lt hjn)] using hrest
  · rw [hw] at hi ⊢
    exact h.unposted i hi
  · rw [hw]
    rcases Nat.lt_succ_iff_lt_or_eq.mp hj with hj | rfl
    · refine h.updated j hj ?_
      rwa [KeyReadSetEntryPool.entry, hother j (Nat.ne_of_lt hj)] at huj
    · rw [KeyReadSetEntryPool.entry, hself, hu] at huj
      cases huj
  · rcases Nat.lt_succ_iff_lt_or_eq.mp hj with hj | rfl
    · rw [KeyReadSetEntryPool.entry, hother j (Nat.ne_of_lt hj)]
      exact h.owed j hj
    · rw [KeyReadSetEntryPool.entry, hself]
      exact ho

theorem setDeleted (h : Entries log n z) (i : ℕ) (hk : z'.keyReadSet = z.keyReadSet)
    (hw : z'.keyWriteSet = z.keyWriteSet.setDeleted i) : Entries log n z' := by
  have hkey : ∀ l, z'.keyWriteSet.key l = z.keyWriteSet.key l := fun l => by
    rw [hw]
    exact Pool.get_modify_field KeyWriteSetEntry.key _ _ _ _ fun _ => rfl
  have hver : ∀ l, (z'.keyWriteSet.entry l).version = (z.keyWriteSet.entry l).version := fun l => by
    rw [hw]
    exact Pool.get_modify_field (fun o : KeyWriteSetEntry K => o.entry.version) _ _ _ _ fun _ => rfl
  have hread : ∀ l, (z'.keyWriteSet.entry l).readEntry = (z.keyWriteSet.entry l).readEntry :=
    fun l => by
      rw [hw]
      exact Pool.get_modify_field (fun o : KeyWriteSetEntry K => o.entry.readEntry) _ _ _ _
        fun _ => rfl
  have hneed : ∀ l, (z'.keyWriteSet.entry l).needPostProcessing =
      (z.keyWriteSet.entry l).needPostProcessing := fun l => by
    rw [hw]
    exact Pool.get_modify_field (fun o : KeyWriteSetEntry K => o.entry.needPostProcessing) _ _ _ _
      fun _ => rfl
  have hsize : z'.keyWriteSet.popIndex = z.keyWriteSet.popIndex := by rw [hw]; rfl
  refine ⟨fun l hl => ?_, fun l hl => ?_, fun l hl => ?_, fun j hj hu => ?_, fun j hj => ?_⟩
  · rw [hk]
    exact h.read l hl
  · rw [hk, hkey, hver, hread]
    exact h.write l (hsize ▸ hl)
  · rw [hneed]
    exact h.unposted l (hsize ▸ hl)
  · rw [hk] at hu
    simpa only [hsize, hread] using h.updated j hj hu
  · rw [hk]
    exact h.owed j hj

theorem write_entry (h : Entries log n z) {k : SetKey K} {j : ℕ} (hj : j < n)
    (hn : n ≤ z.keyReadSet.popIndex) (hkj : z.keyReadSet.key j = some k) {isDeleted : Bool}
    {record : Option Addr} (hk : z'.keyReadSet = z.keyReadSet.setUpdated j)
    (hw : z'.keyWriteSet = z.keyWriteSet.newWriteSetEntry k ((z.keyReadSet.entry j).version + 1)
      isDeleted record (some j) false) : Entries log n z' := by
  have hkey : ∀ l, z'.keyReadSet.key l = z.keyReadSet.key l := fun l => by
    rw [hk]
    exact Pool.get_modify_field KeyReadSetEntry.key _ _ _ _ fun _ => rfl
  have hver : ∀ l, (z'.keyReadSet.entry l).version = (z.keyReadSet.entry l).version := fun l => by
    rw [hk]
    exact Pool.get_modify_field (fun o : KeyReadSetEntry K => o.entry.version) _ _ _ _ fun _ => rfl
  have hself : z'.keyReadSet.entry j = { z.keyReadSet.entry j with isUpdated := true } := by
    rw [hk]
    exact congrArg KeyReadSetEntry.entry
      (Pool.get_modify_self z.keyReadSet _ (Nat.lt_of_lt_of_le hj hn))
  have hother : ∀ l, l ≠ j → z'.keyReadSet.entry l = z.keyReadSet.entry l := fun l hl => by
    rw [hk]
    exact congrArg KeyReadSetEntry.entry (Pool.get_modify_ne z.keyReadSet _ hl)
  have hsize : z'.keyWriteSet.popIndex = z.keyWriteSet.popIndex + 1 := by
    rw [hw]
    exact Pool.popIndex_new _
  have hold : ∀ l < z.keyWriteSet.popIndex, z'.keyWriteSet.get l = z.keyWriteSet.get l := by
    intro l hl
    rw [hw]
    exact (Pool.get_modify_ne _ _ (Nat.ne_of_lt hl)).trans (Pool.get_new _ _)
  have hnew : z'.keyWriteSet.get z.keyWriteSet.popIndex = ⟨some k,
      ⟨(z.keyReadSet.entry j).version + 1, isDeleted, record, some j, false⟩⟩ := by
    rw [hw]
    exact Pool.get_modify_self _ _ (by rw [Pool.popIndex_new]; exact Nat.lt_succ_self _)
  refine ⟨fun l hl => ?_, fun l hl => ?_, fun l hl => ?_, fun l hl hu => ?_, fun l hl => ?_⟩
  · rw [hkey]
    by_cases hlj : l = j
    · subst hlj
      rw [hself]
      exact h.read l hl
    · rw [hother l hlj]
      exact h.read l hl
  · rw [hsize] at hl
    rcases Nat.lt_succ_iff_lt_or_eq.mp hl with hl | rfl
    · obtain ⟨k', j', h1, h2, h3, h4, h5, h6⟩ := h.write l hl
      simp only [KeyWriteSetEntryPool.key, KeyWriteSetEntryPool.entry, hold l hl, hkey, hver]
      refine ⟨k', j', h1, h2, h3, h4, h5, ?_⟩
      by_cases hjj : j' = j
      · rw [hjj, hself]
      · rw [hother j' hjj]
        exact h6
    · simp only [KeyWriteSetEntryPool.key, KeyWriteSetEntryPool.entry, hnew, hkey, hver]
      exact ⟨k, j, rfl, rfl, hj, hkj, rfl, by rw [hself]⟩
  · rw [hsize] at hl
    rcases Nat.lt_succ_iff_lt_or_eq.mp hl with hl | rfl
    · simp only [KeyWriteSetEntryPool.entry, hold l hl]
      exact h.unposted l hl
    · simp only [KeyWriteSetEntryPool.entry, hnew]
  · by_cases hlj : l = j
    · subst hlj
      refine ⟨z.keyWriteSet.popIndex, by omega, ?_⟩
      simp only [KeyWriteSetEntryPool.entry, hnew]
    · rw [hother l hlj] at hu
      obtain ⟨i, hi, hr⟩ := h.updated l hl hu
      refine ⟨i, by omega, ?_⟩
      simpa only [KeyWriteSetEntryPool.entry, hold i hi] using hr
  · by_cases hlj : l = j
    · rw [hlj, hself]
      exact h.owed j hj
    · rw [hother l hlj]
      exact h.owed l hl

end Entries

namespace TransactionExecution

structure Open (n : ℕ) (e : TransactionExecution K V S) : Prop where
  status : e.status = .ongoing
  unfinished : e.isTransactionFinished = false
  ranked : ∀ ev ∈ e.log, ev.op.rank = 0
  obeys : ∀ (x : ExecutionState K V S) gaveUp, Obeys x e.log gaveUp
  handled : (issuedCalls e.log).Perm (answeredCalls e.log ++ e.pending)
  outcome : outcomeCalls e.log = []
  entries : Entries e.log n e.toExecutionState

structure Reading (n : ℕ) (e : TransactionExecution K V S) : Prop where
  size : e.keyReadSet.popIndex = n + 1
  entry : e.args.readOutsideEntry = n
  moved : (e.flags .readOutside).moveToNext = false
  pending : ∀ c, (.readOutside, c) ∈ e.pending → ∃ t, c = .getVersionList e.args.readOutsideKey t
  answered : e.leafIsFinished .readOutside = true → ∃ t r,
    Event.answered .readOutside (.getVersionList e.args.readOutsideKey t) r ∈ e.log ∧
      e.handlerResult .readOutside = ⟨r.result, true, r.isError, 0⟩

/-- The states of a transaction between its requests and inside each kind of them. -/
inductive Serving (e : TransactionExecution K V S) : Prop
  | idle (n : ℕ) (h : Open n e) (size : e.keyReadSet.popIndex = n)
      (stacked : Stacked none (fun _ => False) e)
  | single (n : ℕ) (h : Open n e) (size : e.keyReadSet.popIndex = n) (op : Op)
      (hop : op = .initTxn ∨ op = .readDataStore) (stacked : Stacked none (· = op) e)
      (moved : (e.flags op).moveToNext = false)
  | reading (n : ℕ) (h : Open n e) (parent : Option Op)
      (hp : parent = none ∨ parent = some .insert ∨ parent = some .upsert)
      (stacked : Stacked parent (· = .readOutside) e) (read : Reading n e)
  | returned (n : ℕ) (h : Open n e) (size : e.keyReadSet.popIndex = n) (op : Op)
      (hop : op = .insert ∨ op = .upsert) (stacked : Stacked (some op) (· = .readOutside) e)
      (moved : (e.flags .readOutside).moveToNext = true)
  | instant (n : ℕ) (h : Open n e) (size : e.keyReadSet.popIndex = n) (op : Op)
      (hop : op = .update ∨ op = .delete) (stacked : Stacked (some op) (fun _ => False) e)

namespace Open

variable {n : ℕ} {e e' : TransactionExecution K V S}

theorem advance {m : ℕ} (h : Open n e) (hl : e'.log = e.log) (hp : e'.pending = e.pending)
    (hs : e'.status = e.status) (hf : e'.isTransactionFinished = e.isTransactionFinished)
    (he : Entries e.log m e'.toExecutionState) : Open m e' where
  status := hs.trans h.status
  unfinished := hf.trans h.unfinished
  ranked := hl ▸ h.ranked
  obeys := hl ▸ h.obeys
  handled := by rw [hl, hp]; exact h.handled
  outcome := hl ▸ h.outcome
  entries := hl ▸ he

theorem quiet (h : Open n e) (hl : e'.log = e.log) (hp : e'.pending = e.pending)
    (hs : e'.status = e.status) (hf : e'.isTransactionFinished = e.isTransactionFinished)
    (hk : ∀ i, e'.keyReadSet.get i = e.keyReadSet.get i) (hw : e'.keyWriteSet = e.keyWriteSet) :
    Open n e' :=
  h.advance hl hp hs hf (h.entries.congr hk hw)

theorem issue (h : Open n e) {y : Op} {c : HandlerCall K} (hy : y.rank = 0)
    (hc : ∀ (x : ExecutionState K V S) log gaveUp, CallOk x log gaveUp y c)
    (ho : c.isOutcome = false) : Open n ((e.setMoveToNext y false).issue y c) where
  status := h.status
  unfinished := h.unfinished
  ranked ev hev := by
    rcases List.mem_append.mp hev with hev | hev
    · exact h.ranked ev hev
    · obtain rfl := List.mem_singleton.mp hev
      exact hy
  obeys x gaveUp := (h.obeys x gaveUp).issued (hc x _ gaveUp)
  handled := by
    change (issuedCalls (e.log ++ [.issued y c])).Perm
      (answeredCalls (e.log ++ [.issued y c]) ++ (e.pending ++ [(y, c)]))
    rw [issuedCalls_append, answeredCalls_append, ← List.append_assoc]
    simpa [answeredCalls, issuedCalls] using h.handled.append_right [(y, c)]
  outcome := by
    refine (outcomeCalls_append e.log [.issued y c]).trans ?_
    rw [h.outcome]
    simp [outcomeCalls, issuedCalls, ho]
  entries := h.entries.mono (List.subset_append_left _ _)

variable [DecidableEq K]

theorem complete (h : Open n e) {op : Op} {c : HandlerCall K} {r : Reply V op}
    (hc : Completed op c r e e') : Open n e' := by
  have hi : Event.issued op c ∈ e.log :=
    mem_issuedCalls.mp (h.handled.mem_iff.mpr (List.mem_append_right _ hc.mem))
  refine ⟨hc.status.trans h.status, hc.isTransactionFinished.trans h.unfinished, ?_, ?_, ?_, ?_, ?_⟩
  · intro ev hev
    rw [hc.log] at hev
    rcases List.mem_append.mp hev with hev | hev
    · exact h.ranked ev hev
    · obtain rfl := List.mem_singleton.mp hev
      exact (h.ranked _ hi :)
  · intro x gaveUp
    rw [hc.log]
    exact (h.obeys x gaveUp).answered op c r
  · rw [hc.log, hc.pending, issuedCalls_append, answeredCalls_append]
    simp only [issuedCalls, answeredCalls, List.filterMap_cons, List.filterMap_nil,
      List.append_nil, List.append_assoc, List.singleton_append]
    exact h.handled.trans ((List.perm_cons_erase hc.mem).append_left _)
  · rw [hc.log, outcomeCalls_answered]
    exact h.outcome
  · refine (h.entries.mono hc.log_subset).congr (fun i => ?_) hc.keyWriteSet
    rw [hc.keyReadSet]

end Open

theorem Reading.complete [DecidableEq K] {n : ℕ} {e e' : TransactionExecution K V S}
    (h : Reading n e) {op : Op} {c : HandlerCall K} {r : Reply V op}
    (hc : Completed op c r e e') : Reading n e' := by
  refine ⟨by rw [hc.keyReadSet, h.size], by rw [hc.args, h.entry], by rw [hc.flags, h.moved], ?_, ?_⟩
  · intro c' hc'
    rw [hc.pending] at hc'
    rw [hc.args]
    exact h.pending c' (List.mem_of_mem_erase hc')
  · intro hf
    rw [hc.args, hc.log]
    by_cases hop : op = .readOutside
    · subst hop
      obtain ⟨t, rfl⟩ := h.pending c hc.mem
      exact ⟨t, r, by simp, hc.self⟩
    · have hres := hc.other .readOutside (Ne.symm hop)
      rw [leafIsFinished_congr hres] at hf
      obtain ⟨t, r', hr', hres'⟩ := h.answered hf
      exact ⟨t, r', List.mem_append_left _ hr', hres.trans hres'⟩

theorem Serving.complete [DecidableEq K] {e e' : TransactionExecution K V S} (h : Serving e)
    {op : Op} {c : HandlerCall K} {r : Reply V op} (hc : Completed op c r e e') : Serving e' := by
  cases h with
  | idle n h size stacked =>
    exact .idle n (h.complete hc) (by rw [hc.keyReadSet, size]) (stacked.complete hc)
  | single n h size op hop stacked moved =>
    exact .single n (h.complete hc) (by rw [hc.keyReadSet, size]) op hop (stacked.complete hc)
      (by rw [hc.flags, moved])
  | reading n h parent hp stacked read =>
    exact .reading n (h.complete hc) parent hp (stacked.complete hc) (read.complete hc)
  | returned n h size op hop stacked moved =>
    exact .returned n (h.complete hc) (by rw [hc.keyReadSet, size]) op hop (stacked.complete hc)
      (by rw [hc.flags, moved])
  | instant n h size op hop stacked =>
    exact .instant n (h.complete hc) (by rw [hc.keyReadSet, size]) op hop (stacked.complete hc)

theorem Alone.unstacked {e : TransactionExecution K V S} (h : Alone none e) :
    Stacked none (fun _ => False) e := Stacked.of_alone h fun _ => id

section

variable [DecidableEq K] {n : ℕ} {e : TransactionExecution K V S}

omit [DecidableEq K] in
theorem setResultRecord_frame (record : Option Addr) :
    (e.setResultRecord record).log = e.log ∧ (e.setResultRecord record).pending = e.pending ∧
    (e.setResultRecord record).status = e.status ∧
    (e.setResultRecord record).isTransactionFinished = e.isTransactionFinished ∧
    (e.setResultRecord record).keyReadSet = e.keyReadSet ∧
    (e.setResultRecord record).keyWriteSet = e.keyWriteSet ∧
    (e.setResultRecord record).args = e.args := by
  unfold setResultRecord
  split
  · exact ⟨rfl, rfl, rfl, rfl, rfl, rfl, rfl⟩
  · split <;> exact ⟨rfl, rfl, rfl, rfl, rfl, rfl, rfl⟩
  · exact ⟨rfl, rfl, rfl, rfl, rfl, rfl, rfl⟩

omit [DecidableEq K] in
theorem internalRead_sets {e' : TransactionExecution K V S} (h : e.internalRead = .ok e') :
    e'.status = e.status ∧ e'.args = e.args ∧ e'.keyWriteSet = e.keyWriteSet := by
  unfold TransactionExecution.internalRead at h
  split at h
  · cases h
  · next v hv =>
    cases h
    split
    · exact ⟨rfl, rfl, rfl⟩
    · obtain ⟨-, -, h3, -, -, h6, h7⟩ := setResultRecord_frame (e := e.fillReadSet
        e.args.readOutsideEntry e.args.readOutsideKey
        (.reset v.version v.txId v.beginTs v.endTs v.isDeleted v.readRecord)) v.readRecord
      exact ⟨h3, h7, h6⟩
  · cases h
    exact ⟨rfl, rfl, rfl⟩

theorem Open.write (h : Open n e) (size : e.keyReadSet.popIndex = n) {j : ℕ}
    (hj : e.findInReadSet e.args.writeKey = some j) (isDeleted : Bool) (record : Option Addr) :
    Open n (e.write j isDeleted record) ∧ (e.write j isDeleted record).keyReadSet.popIndex = n := by
  obtain ⟨hlt, hkey, -⟩ := Pool.find_eq_some hj
  have hk : e.keyReadSet.key j = some e.args.writeKey := by
    simpa [KeyReadSetEntryPool.key] using hkey
  have hent : Entries e.log n (e.write j isDeleted record).toExecutionState :=
    h.entries.write_entry (size ▸ hlt) (Nat.le_of_eq size.symm) hk rfl rfl
  exact ⟨h.advance rfl rfl rfl rfl hent, size⟩

theorem Open.updateCallImpl (h : Open n e) (size : e.keyReadSet.popIndex = n) :
    Open n e.updateCallImpl ∧ e.updateCallImpl.keyReadSet.popIndex = n := by
  unfold TransactionExecution.updateCallImpl
  split
  · next j hj =>
    split
    · exact ⟨h.quiet rfl rfl rfl rfl (fun _ => rfl) rfl, size⟩
    · exact h.write size hj false _
  · exact ⟨h.quiet rfl rfl rfl rfl (fun _ => rfl) rfl, size⟩

theorem Open.deleteCallImpl (h : Open n e) (size : e.keyReadSet.popIndex = n) :
    Open n e.deleteCallImpl ∧ e.deleteCallImpl.keyReadSet.popIndex = n := by
  unfold TransactionExecution.deleteCallImpl
  split
  · next i hi =>
    split
    · exact ⟨h.quiet rfl rfl rfl rfl (fun _ => rfl) rfl, size⟩
    · have hent : Entries e.log n (TransactionExecution.setResultFinished
          { e with keyWriteSet := e.keyWriteSet.setDeleted i }).toExecutionState :=
        h.entries.setDeleted i rfl rfl
      exact ⟨h.advance rfl rfl rfl rfl hent, size⟩
  · next j hj =>
    split
    · exact ⟨h.quiet rfl rfl rfl rfl (fun _ => rfl) rfl, size⟩
    · exact h.write size hj true none
  · exact ⟨h.quiet rfl rfl rfl rfl (fun _ => rfl) rfl, size⟩

omit [DecidableEq K] in
theorem Open.internalRead (h : Open n e) (size : e.keyReadSet.popIndex = n + 1)
    (hentry : e.args.readOutsideEntry = n) {t : ℤ} {r : Reply V .readOutside}
    (hans : Event.answered .readOutside (.getVersionList e.args.readOutsideKey t) r ∈ e.log)
    (hres : e.handlerResult .readOutside = ⟨r.result, true, r.isError, 0⟩)
    (hre : r.isError = false) {e' : TransactionExecution K V S} (hr : e.internalRead = .ok e') :
    Open (n + 1) e' ∧ e'.keyReadSet.popIndex = n + 1 := by
  have hlt : n < e.keyReadSet.popIndex := by rw [size]; exact Nat.lt_succ_self n
  unfold TransactionExecution.internalRead at hr
  rw [hres] at hr
  have hfill : ∀ entry, Seen r.result entry → entry.isUpdated = false →
      entry.needRelease = true ∧ entry.needPostProcessing = false →
      Open (n + 1) (e.fillReadSet e.args.readOutsideEntry e.args.readOutsideKey entry) := by
    intro entry hs hu ho
    have hent : Entries e.log (n + 1) (e.fillReadSet e.args.readOutsideEntry
        e.args.readOutsideKey entry).toExecutionState :=
      h.entries.fill hlt hans hre hs hu ho (by rw [fillReadSet, hentry]) rfl
    exact h.advance rfl rfl rfl rfl hent
  split at hr
  · cases hr
  · next v hv =>
    cases hr
    have hs := hfill (.reset v.version v.txId v.beginTs v.endTs v.isDeleted v.readRecord)
      (by rw [Seen, hv]; exact ⟨rfl, rfl, rfl, rfl⟩) rfl ⟨rfl, rfl⟩
    split
    · exact ⟨hs.quiet rfl rfl rfl rfl (fun _ => rfl) rfl, size⟩
    · obtain ⟨h1, h2, h3, h4, h5, h6, -⟩ := setResultRecord_frame (e := e.fillReadSet
        e.args.readOutsideEntry e.args.readOutsideKey
        (.reset v.version v.txId v.beginTs v.endTs v.isDeleted v.readRecord)) v.readRecord
      exact ⟨hs.quiet h1 h2 h3 h4 (fun i => by rw [h5]) h6, by rw [h5]; exact size⟩
  · next hv =>
    cases hr
    have hs := hfill (.reset 0 VersionEntry.kEmptyTxId 0 VersionEntry.kMaxTimeStamp true none)
      (by rw [Seen, hv]; exact ⟨rfl, rfl, rfl, rfl⟩) rfl ⟨rfl, rfl⟩
    exact ⟨hs.quiet rfl rfl rfl rfl (fun _ => rfl) rfl, size⟩

end

section

variable {n : ℕ} {e : TransactionExecution K V S}

theorem Open.setSlot (h : Open n e) (j : ℕ) (o : Option Op) : Open n (e.setSlot j o) :=
  h.quiet rfl rfl rfl rfl (fun _ => rfl) rfl

theorem Open.setHasNext (h : Open n e) (op : Op) (b : Bool) : Open n (e.setHasNext op b) :=
  h.quiet rfl rfl rfl rfl (fun _ => rfl) rfl

theorem Open.setFlags (h : Open n e) (op : Op) (f : OperationFlags) : Open n (e.setFlags op f) :=
  h.quiet rfl rfl rfl rfl (fun _ => rfl) rfl

end

section

variable [DecidableEq K] [Services S] {n i : ℕ} {e e' e₁ : TransactionExecution K V S}

omit [DecidableEq K] [Services S] in
theorem Serving.of_settle {parent : Option Op} {member : Op → Prop} {op : Op}
    (hst : Stacked parent member e) (hi : e.operationVector.slot i = some op)
    (hp : ∀ y, parent = some y → y = op)
    (hm : ∀ y, member y → y = op ∧ e.leafIsFinished op = true ∨ (e.flags y).moveToNext = true)
    (ha : Advanced op e none e₁) (ho : Open n e₁) (size : e₁.keyReadSet.popIndex = n) :
    Serving (e₁.setSlot i none) :=
  .idle n (ho.setSlot i none) size (hst.settle hi hp hm ha).unstacked

theorem Serving.visit_single (h : Open n e) (size : e.keyReadSet.popIndex = n) {op : Op}
    (hop : op = .initTxn ∨ op = .readDataStore) (hst : Stacked none (· = op) e)
    (hi : e.operationVector.slot i = some op) (hf : e.isFinished op = true) {o : Option Op}
    (hn : next op e = .ok (o, e₁)) :
    o = none ∧ Serving (e₁.setSlot i none) ∨
      ∃ y, o = some y ∧ Serving (call y (e₁.setSlot i (some y))) := by
  have ha := next_advanced hn
  have hm : ∀ (hl : e.isFinished op = e.leafIsFinished op), ∀ y, y = op →
      y = op ∧ e.leafIsFinished op = true ∨ (e.flags y).moveToNext = true :=
    fun hl y hy => .inl ⟨hy, hl ▸ hf⟩
  rcases hop with rfl | rfl
  · simp only [next, nextImpl] at hn
    split at hn
    · cases hn
      refine .inr ⟨_, rfl, ?_⟩
      have halone := hst.settle hi (by simp) (hm rfl) ha
      have ho : Open n ((((e.setFlags .initTxn ⟨true, true⟩).resetTxnIDAndTime).resetResult
          .initTxn).setSlot i (some .initTxn)) := h.quiet rfl rfl rfl rfl (fun _ => rfl) rfl
      refine .single n (ho.issue (c := .newTxn _ _ _) rfl (fun _ _ _ => ⟨_, _, rfl⟩) rfl) size
        .initTxn (.inl rfl) (halone.issue ?_ _) (issue_moveToNext _ _ _)
      simp [TransactionExecution.setSlot, resetResult, setHandlerResult, leafIsFinished]
    · cases hn
      refine .inl ⟨rfl, .of_settle hst hi (by simp) (hm rfl) ha ?_ size⟩
      exact h.quiet rfl rfl rfl rfl (fun _ => rfl) rfl
  · simp only [next, nextImpl, readDataStoreNext, noNext] at hn
    have hz : ∀ z : TransactionExecution K V S, e₁ = z.setHasNext .readDataStore false → o = none →
        Quiet (e.setFlags .readDataStore ⟨true, true⟩) z →
        z.status = e.status → z.isTransactionFinished = e.isTransactionFinished →
        z.keyReadSet = e.keyReadSet → z.keyWriteSet = e.keyWriteSet →
        o = none ∧ Serving (e₁.setSlot i none) := by
      rintro z rfl rfl hq hs hfin hk hw
      have hl : z.log = e.log := by rw [hq]; rfl
      have hpend : z.pending = e.pending := by rw [hq]; rfl
      refine ⟨rfl, .of_settle hst hi (by simp) (hm rfl) ha
        (Open.setHasNext (h.quiet hl hpend hs hfin (fun _ => by rw [hk]) hw) _ _) ?_⟩
      exact (congrArg Pool.popIndex hk).trans size
    split at hn
    · cases hn
      exact .inl (hz _ rfl rfl rfl rfl rfl rfl rfl)
    · split at hn
      · cases hn
        exact .inl (hz _ rfl rfl rfl rfl rfl rfl rfl)
      · next a ha' =>
        cases hn
        obtain ⟨-, -, h3, h4, h5, h6, -⟩ := setResultRecord_frame
          (e := e.setFlags .readDataStore ⟨true, true⟩) (some a)
        exact .inl (hz _ rfl rfl (quiet_setResultRecord _ _) h3 h4 h5 h6)

theorem Serving.visit_reading (h : Open n e) {parent : Option Op}
    (hp : parent = none ∨ parent = some .insert ∨ parent = some .upsert)
    (hst : Stacked parent (· = .readOutside) e) (read : Reading n e)
    (hi : e.operationVector.slot i = some .readOutside)
    (hf : e.leafIsFinished .readOutside = true) {o : Option Op}
    (hn : next .readOutside e = .ok (o, e₁)) : o = none ∧ Serving (e₁.setSlot i none) := by
  have ha := next_advanced hn
  have hstep : o = none ∧ ∃ m, Open m e₁ ∧ e₁.keyReadSet.popIndex = m := by
    simp only [next, nextImpl] at hn
    split at hn
    · cases hn
      refine ⟨rfl, n, h.quiet rfl rfl rfl rfl (fun _ => rfl) rfl, ?_⟩
      change e.keyReadSet.popIndex - 1 = n
      rw [read.size]
      rfl
    · next he =>
      obtain ⟨t, r, hans, hres⟩ := read.answered hf
      cases hr : (e.setFlags .readOutside ⟨true, true⟩).internalRead with
      | error m => rw [hr] at hn; cases hn
      | ok z =>
        rw [hr] at hn
        cases hn
        have he' : r.isError = false := by
          have : ¬ (e.handlerResult .readOutside).isError = true := he
          rw [hres] at this
          simpa using this
        obtain ⟨h1, h2⟩ := (h.setFlags .readOutside ⟨true, true⟩).internalRead read.size read.entry
          hans hres he' hr
        exact ⟨rfl, n + 1, h1.setHasNext _ _, h2⟩
  obtain ⟨rfl, m, hm, size⟩ := hstep
  refine ⟨rfl, ?_⟩
  have hmoved : (e₁.flags .readOutside).moveToNext = true := by
    rw [ha.flags, Function.update_self]
  rcases hp with rfl | rfl | rfl
  · exact .of_settle hst hi (by simp) (fun y hy => .inl ⟨hy, hf⟩) ha hm size
  · exact .returned m (hm.setSlot i none) size .insert (.inl rfl) (hst.leave hi rfl hf ha) hmoved
  · exact .returned m (hm.setSlot i none) size .upsert (.inr rfl) (hst.leave hi rfl hf ha) hmoved

theorem Serving.visit_returned (h : Open n e) (size : e.keyReadSet.popIndex = n) {op : Op}
    (hop : op = .insert ∨ op = .upsert) (hst : Stacked (some op) (· = .readOutside) e)
    (moved : (e.flags .readOutside).moveToNext = true) (hi : e.operationVector.slot i = some op)
    {o : Option Op} (hn : next op e = .ok (o, e₁)) : o = none ∧ Serving (e₁.setSlot i none) := by
  have ha := next_advanced hn
  have hstep : o = none ∧ Open n e₁ ∧ e₁.keyReadSet.popIndex = n := by
    have hflags : Open n (e.setFlags op ⟨true, true⟩) := h.setFlags op _
    rcases hop with rfl | rfl
    · simp only [next, nextImpl, insertNext, noNext] at hn
      cases hn
      refine ⟨rfl, ?_⟩
      split
      · next j hj =>
        split
        · obtain ⟨h1, h2⟩ := hflags.write size hj false e.args.writeRecord
          exact ⟨h1.setHasNext _ _, h2⟩
        · exact ⟨hflags.quiet rfl rfl rfl rfl (fun _ => rfl) rfl, size⟩
      · exact ⟨hflags.quiet rfl rfl rfl rfl (fun _ => rfl) rfl, size⟩
    · simp only [next, nextImpl, upsertNext, noNext] at hn
      cases hn
      refine ⟨rfl, ?_⟩
      split
      · next j hj =>
        obtain ⟨h1, h2⟩ := hflags.write size hj false e.args.writeRecord
        exact ⟨h1.setHasNext _ _, h2⟩
      · exact ⟨hflags.quiet rfl rfl rfl rfl (fun _ => rfl) rfl, size⟩
  obtain ⟨rfl, ho, hs⟩ := hstep
  refine ⟨rfl, .of_settle hst hi (fun y hy => (Option.some.inj hy).symm) ?_ ha ho hs⟩
  rintro y rfl
  exact .inr moved

theorem Serving.visit_instant (h : Open n e) (size : e.keyReadSet.popIndex = n) {op : Op}
    (hop : op = .update ∨ op = .delete) (hst : Stacked (some op) (fun _ => False) e)
    (hi : e.operationVector.slot i = some op) {o : Option Op} (hn : next op e = .ok (o, e₁)) :
    o = none ∧ Serving (e₁.setSlot i none) := by
  have ha := next_advanced hn
  have hstep : o = none ∧ Open n e₁ ∧ e₁.keyReadSet.popIndex = n := by
    rcases hop with rfl | rfl <;> cases hn <;>
      exact ⟨rfl, h.quiet rfl rfl rfl rfl (fun _ => rfl) rfl, size⟩
  obtain ⟨rfl, ho, hs⟩ := hstep
  exact ⟨rfl, .of_settle hst hi (fun y hy => (Option.some.inj hy).symm) (fun _ hy => hy.elim) ha ho hs⟩

end

section

variable [DecidableEq K] [Services S] {n i : ℕ} {e e' e₁ : TransactionExecution K V S}

theorem Serving.visit (h : Serving e) {b : Bool} (hv : visit i e = .ok (e', b)) : Serving e' := by
  rcases visit_cases hv with rfl | ⟨op, o, e₁, hi, hf, hn, -, hcase⟩
  · exact h
  have leaves : o = none ∧ Serving (e₁.setSlot i none) → Serving e' := by
    rintro ⟨rfl, hs⟩
    rcases hcase with ⟨-, rfl⟩ | ⟨y, hy, -⟩
    · exact hs
    · cases hy
  have continues : (∃ y, o = some y ∧ Serving (call y (e₁.setSlot i (some y)))) → Serving e' := by
    rintro ⟨y, rfl, hs⟩
    rcases hcase with ⟨hy, -⟩ | ⟨z, hz, rfl⟩
    · cases hy
    · obtain rfl := Option.some.inj hz
      exact hs
  cases h with
  | idle n h size stacked =>
    rcases stacked.occupied.held_of_slot hi with hp | ⟨hm, -⟩
    · cases hp
    · exact hm.elim
  | single n h size op' hop stacked moved =>
    rcases stacked.occupied.held_of_slot hi with hp | ⟨rfl, -⟩
    · cases hp
    · exact (visit_single h size hop stacked hi hf hn).elim leaves continues
  | reading n h parent hp stacked read =>
    rcases stacked.occupied.held_of_slot hi with hpar | ⟨rfl, -⟩
    · -- the parent waits for the read, which has not moved on
      have hwait : ∀ op, e.children op = some [.readOutside] → e.isFinished op = false := by
        intro op hc
        simp [isFinished, hc, isCascadeFinished, read.moved]
      rcases hp with rfl | rfl | rfl
      · cases hpar
      · obtain rfl := Option.some.inj hpar
        rw [hwait _ rfl] at hf
        cases hf
      · obtain rfl := Option.some.inj hpar
        rw [hwait _ rfl] at hf
        cases hf
    · exact leaves (visit_reading h hp stacked read hi hf hn)
  | returned n h size op' hop stacked moved =>
    rcases stacked.occupied.held_of_slot hi with hpar | ⟨rfl, hm⟩
    · obtain rfl := Option.some.inj hpar
      exact leaves (visit_returned h size hop stacked moved hi hn)
    · rw [moved] at hm
      cases hm
  | instant n h size op' hop stacked =>
    rcases stacked.occupied.held_of_slot hi with hpar | ⟨hm, -⟩
    · obtain rfl := Option.some.inj hpar
      exact leaves (visit_instant h size hop stacked hi hn)
    · exact hm.elim

omit [DecidableEq K] [Services S] in
theorem Serving.opened (h : Serving e) : ∃ n, Open n e := by
  cases h with
  | idle n h | single n h | reading n h | returned n h | instant n h => exact ⟨n, h⟩

omit [DecidableEq K] [Services S] in
theorem Serving.status (h : Serving e) : e.status = .ongoing := by
  obtain ⟨n, ho⟩ := h.opened
  exact ho.status

omit [DecidableEq K] [Services S] in
theorem Serving.frame (h : Serving e) (services : S) (memory : Addr → V) {v : Slots Op}
    (hv : ∀ held, e.operationVector.Occupied held → v.Occupied held) :
    Serving { e with services := services, memory := memory, operationVector := v } := by
  have ho : ∀ {n}, Open n e → Open n
      { e with services := services, memory := memory, operationVector := v } :=
    fun h => h.quiet rfl rfl rfl rfl (fun _ => rfl) rfl
  have hst : ∀ {parent member}, Stacked parent member e → Stacked parent member
      { e with services := services, memory := memory, operationVector := v } :=
    fun h => ⟨h.parent_not_member, hv _ h.occupied, h.pending_member, h.pending_nodup,
      h.moved_finished, h.finished_answered⟩
  cases h with
  | idle n h size stacked => exact .idle n (ho h) size (hst stacked)
  | single n h size op hop stacked moved =>
    exact .single n (ho h) size op hop (hst stacked) moved
  | reading n h parent hp stacked read =>
    exact .reading n (ho h) parent hp (hst stacked)
      ⟨read.size, read.entry, read.moved, read.pending, read.answered⟩
  | returned n h size op hop stacked moved =>
    exact .returned n (ho h) size op hop (hst stacked) moved
  | instant n h size op hop stacked => exact .instant n (ho h) size op hop (hst stacked)

theorem Serving.tidy (h : Serving e) : Serving e.tidy := by
  unfold TransactionExecution.tidy
  rw [if_neg (by rw [h.status]; simp)]
  exact h.frame e.services e.memory fun _ ho => ho.trim

end

section

variable [DecidableEq K] [Services S] {n : ℕ} {e : TransactionExecution K V S}

omit [DecidableEq K] [Services S] in
theorem Alone.push (h : Alone none e) (op : Op) : Alone (some op) (e.push op) where
  occupied := (h.occupied.pushBack (x := op) (by simp)).congr fun x => by simp [eq_comm]
  pending := h.pending

omit [DecidableEq K] [Services S] in
theorem Alone.invoke {p y : Op} (h : Alone (some p) e) (hy : y ≠ p)
    (hf : e.leafIsFinished y = false) (c : HandlerCall K) :
    Stacked (some p) (· = y) (((e.push y).setMoveToNext y false).issue y c) := by
  have hmv : (Function.update e.flags y { e.flags y with moveToNext := false } y).moveToNext = false := by
    rw [Function.update_self]
  refine ⟨?_, ?_, ?_, ?_, ?_, ?_⟩
  · rintro x hx rfl
    exact hy (Option.some.inj hx).symm
  · refine (h.occupied.pushBack (x := y) fun hx => hy (Option.some.inj hx).symm).congr fun x => ?_
    constructor
    · rintro (rfl | hx)
      · exact .inr ⟨rfl, hmv⟩
      · exact .inl hx
    · rintro (hx | ⟨rfl, -⟩)
      · exact .inr hx
      · exact .inl rfl
  · intro q hq
    rw [show (((e.push y).setMoveToNext y false).issue y c).pending = [(y, c)] from
      congrArg (· ++ [(y, c)]) h.pending] at hq
    obtain rfl := List.mem_singleton.mp hq
    exact ⟨rfl, hf⟩
  · rw [show (((e.push y).setMoveToNext y false).issue y c).pending = [(y, c)] from
      congrArg (· ++ [(y, c)]) h.pending]
    exact List.nodup_singleton _
  · rintro x rfl hm
    exact absurd (hmv.symm.trans hm) (by simp)
  · rintro x rfl hfx
    exact absurd (hf.symm.trans hfx) (by simp)

omit [DecidableEq K] [Services S] in
theorem leafIsFinished_resetReadOutside (key : SetKey K) :
    (e.resetReadOutside key).leafIsFinished .readOutside = false := by
  simp [resetReadOutside, setHandlerResult, leafIsFinished]

omit [DecidableEq K] [Services S] in
theorem Open.resetReadOutside (h : Open n e) (key : SetKey K) : Open n (e.resetReadOutside key) :=
  h.quiet rfl rfl rfl rfl (fun i => Pool.get_new e.keyReadSet i) rfl

omit [DecidableEq K] [Services S] in
theorem Open.reading (h : Open n e) (size : e.keyReadSet.popIndex = n) (key : SetKey K)
    (hp : e.pending = []) {z : TransactionExecution K V S}
    (hz : z = ((e.resetReadOutside key).push .readOutside).setMoveToNext .readOutside false) :
    Open n (z.issueCall .readOutside) ∧ Reading n (z.issueCall .readOutside) := by
  have hs : (e.resetReadOutside key).keyReadSet.popIndex = n + 1 :=
    (Pool.popIndex_new e.keyReadSet).trans (congrArg (· + 1) size)
  subst hz
  refine ⟨?_, hs, ?_, ?_, ?_, ?_⟩
  · have ho : Open n ((e.resetReadOutside key).push .readOutside) :=
      (h.resetReadOutside key).quiet rfl rfl rfl rfl (fun _ => rfl) rfl
    exact ho.issue rfl (fun _ _ _ => ⟨_, _, rfl⟩) rfl
  · exact congrArg (· - 1) hs
  · exact issue_moveToNext _ _ _
  · intro c hc
    rw [show (((((e.resetReadOutside key).push .readOutside).setMoveToNext .readOutside
      false).issueCall .readOutside).pending) = [(.readOutside, .getVersionList key
        e.commitTimestampLocal)] from congrArg (· ++ _) hp] at hc
    obtain ⟨-, rfl⟩ := Prod.mk.inj (List.mem_singleton.mp hc)
    exact ⟨_, rfl⟩
  · intro hf
    exact absurd ((leafIsFinished_resetReadOutside (e := e) key).symm.trans hf) (by simp)

structure Idle (n : ℕ) (e : TransactionExecution K V S) : Prop where
  opened : Open n e
  size : e.keyReadSet.popIndex = n
  alone : Alone none e

namespace Idle

omit [DecidableEq K] [Services S]

theorem requested (h : Idle n e) (r : OperationRequest K) (record : Option Addr) :
    Idle n (resetResultRecord { e with currentRequest := some r, requestFinished := false }
      record) where
  opened := h.opened.quiet rfl rfl rfl rfl (fun _ => rfl) rfl
  size := h.size
  alone := ⟨h.alone.occupied, h.alone.pending⟩

theorem resetWrite (h : Idle n e) (key : SetKey K) (record : Option Addr) :
    Idle n (e.resetWrite key record) where
  opened := h.opened.quiet rfl rfl rfl rfl (fun _ => rfl) rfl
  size := h.size
  alone := ⟨h.alone.occupied, h.alone.pending⟩

theorem setHandlerResult (h : Idle n e) (op : Op) (r : HandlerResult op.Result)
    (args : OperationArgs K) :
    Idle n (TransactionExecution.setHandlerResult { e with args := args } op r) where
  opened := h.opened.quiet rfl rfl rfl rfl (fun _ => rfl) rfl
  size := h.size
  alone := ⟨h.alone.occupied, h.alone.pending⟩

end Idle

namespace Serving

theorem start_read (h : Idle n e) (key : SetKey K) :
    Serving (start .readOutside (e.resetReadOutside key)) := by
  obtain ⟨ho, hr⟩ := h.opened.reading h.size key h.alone.pending rfl
  have hz : Alone (some .readOutside) ((e.resetReadOutside key).push .readOutside) :=
    Alone.push (e := e.resetReadOutside key) ⟨h.alone.occupied, h.alone.pending⟩ _
  exact .reading n ho none (.inl rfl) (hz.issue (leafIsFinished_resetReadOutside key) _) hr

theorem start_write (h : Idle n e) {op : Op} (hop : op = .insert ∨ op = .upsert) :
    Serving (start op e) := by
  let z := (e.push op).setMoveToNext op false
  have hz : Alone (some op) (z.resetReadOutside e.args.writeKey) :=
    ⟨(h.alone.push op).occupied, h.alone.pending⟩
  have ho : Open n z := h.opened.quiet rfl rfl rfl rfl (fun _ => rfl) rfl
  obtain ⟨hr, hr'⟩ := ho.reading h.size e.args.writeKey h.alone.pending rfl
  have hst := hz.invoke (y := .readOutside) (by rintro rfl; simp at hop)
    (leafIsFinished_resetReadOutside _) (.getVersionList e.args.writeKey e.commitTimestampLocal)
  rcases hop with rfl | rfl
  · exact .reading n hr _ (.inr (.inl rfl)) hst hr'
  · exact .reading n hr _ (.inr (.inr rfl)) hst hr'

theorem start_instant (h : Idle n e) {op : Op} (hop : op = .update ∨ op = .delete) :
    Serving (start op e) := by
  let z := (e.push op).setMoveToNext op false
  have hz : Alone (some op) z := ⟨(h.alone.push op).occupied, h.alone.pending⟩
  have ho : Open n z := h.opened.quiet rfl rfl rfl rfl (fun _ => rfl) rfl
  rcases hop with rfl | rfl
  · obtain ⟨h1, h2⟩ := ho.updateCallImpl h.size
    have hq : Quiet z z.updateCallImpl := by
      unfold updateCallImpl
      repeat' split
      all_goals rfl
    exact .instant n h1 h2 .update (.inl rfl) (.of_parent (hq.alone hz) fun _ => id)
  · obtain ⟨h1, h2⟩ := ho.deleteCallImpl h.size
    have hq : Quiet z z.deleteCallImpl := by
      unfold deleteCallImpl
      repeat' split
      all_goals rfl
    exact .instant n h1 h2 .delete (.inr rfl) (.of_parent (hq.alone hz) fun _ => id)

theorem start_single (h : Idle n e) {op : Op} (hop : op = .initTxn ∨ op = .readDataStore)
    (hf : e.leafIsFinished op = false) : Serving (start op e) := by
  have ho : Open n (e.push op) := h.opened.quiet rfl rfl rfl rfl (fun _ => rfl) rfl
  have hz : Alone (some op) (e.push op) := h.alone.push op
  rcases hop with rfl | rfl
  · exact .single n (ho.issue (c := .newTxn _ _ _) rfl (fun _ _ _ => ⟨_, _, rfl⟩) rfl) h.size
      .initTxn (.inl rfl) (hz.issue hf _) (issue_moveToNext _ _ _)
  · exact .single n (ho.issue (c := .readRecord _) rfl (fun _ _ _ => ⟨_, rfl⟩) rfl) h.size
      .readDataStore (.inr rfl) (hz.issue hf _) (issue_moveToNext _ _ _)

theorem dispatch (h : Idle n e) {r : OperationRequest K} (hc : r ≠ .commit) (ha : r ≠ .abort) :
    Serving (e.dispatch r) := by
  cases r with
  | «begin» =>
    exact start_single ((h.requested _ _).setHandlerResult .initTxn _ e.args) (.inl rfl)
      (by simp [TransactionExecution.setHandlerResult, leafIsFinished])
  | read key record | readOutside key record => exact start_read (h.requested _ record) key
  | insert key record => exact start_write ((h.requested _ _).resetWrite key record) (.inl rfl)
  | upsert key record => exact start_write ((h.requested _ _).resetWrite key record) (.inr rfl)
  | update key record => exact start_instant ((h.requested _ _).resetWrite key record) (.inl rfl)
  | delete key => exact start_instant ((h.requested _ _).resetWrite key none) (.inr rfl)
  | readDataStore key record needToRead =>
    have hr := h.requested (.readDataStore key record needToRead) record
    cases needToRead with
    | true =>
      exact start_single (hr.setHandlerResult .readDataStore _ _) (.inr rfl)
        (by simp [TransactionExecution.setHandlerResult, leafIsFinished])
    | false =>
      have ho : Open n (e.dispatch (.readDataStore key record false)) :=
        hr.opened.quiet rfl rfl rfl rfl (fun _ => rfl) rfl
      exact .idle n ho hr.size (Alone.unstacked ⟨hr.alone.occupied, hr.alone.pending⟩)
  | commit => exact absurd rfl hc
  | abort => exact absurd rfl ha

omit [DecidableEq K] [Services S] in
theorem settled (h : Serving e) (hv : e.operationVector = []) :
    Settled e ∧ ∃ n, Idle n e := by
  have hnil : ∀ {parent member}, Stacked parent member e → ∀ z,
      ¬ (parent = some z ∨ member z ∧ (e.flags z).moveToNext = false) := by
    intro parent member hst z hz
    have := (hst.occupied.holds z).mpr hz
    rw [hv] at this
    exact Slots.not_holds_nil z this
  cases h with
  | idle n h size stacked =>
    have hp : e.pending = [] := List.eq_nil_iff_forall_not_mem.mpr fun p hp =>
      (stacked.pending_member p hp).1
    refine ⟨⟨hv, hp, h.status, h.unfinished, h.ranked, h.obeys, ?_, h.outcome⟩, n, h, size, ?_⟩
    · simpa [hp] using h.handled
    · exact ⟨stacked.occupied.congr fun x => by simp, hp⟩
  | single n h size op hop stacked moved => exact absurd (.inr ⟨rfl, moved⟩) (hnil stacked op)
  | reading n h parent hp stacked read =>
    exact absurd (.inr ⟨rfl, read.moved⟩) (hnil stacked .readOutside)
  | returned n h size op hop stacked moved => exact absurd (.inl rfl) (hnil stacked op)
  | instant n h size op hop stacked => exact absurd (.inl rfl) (hnil stacked op)

end Serving

end

end TransactionExecution

end Fugue
