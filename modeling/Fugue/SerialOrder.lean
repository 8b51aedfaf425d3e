import Fugue.CommittedSets
import Fugue.Library.Serial

namespace Fugue

open TransactionExecution VersionStore

variable {ι K V S : Type}

def Client.SawOf (c w : Client K V S) : Prop :=
  ∃ key version ts, c.Saw key version ∧ w.Commits key version ts

namespace SharedStore

variable {s s' : SharedStore ι K V S}

/-- The committed transactions, in the order in which the store was told of them. -/
structure Decisions (s : SharedStore ι K V S) (order : List ι) : Prop where
  nodup : order.Nodup
  mem : ∀ j, j ∈ order ↔ (s.client j).ToldCommitted
  earlier : order.Pairwise fun j w => ¬ (s.client j).SawOf (s.client w)
  other : ∀ j, ¬ (s.client j).SawOf (s.client j)

theorem Decisions.quiet {order : List ι} (h : Decisions s order) (hq : Quiet s s') :
    Decisions s' order := by
  have hfrom : ∀ j w, (s'.client j).SawOf (s'.client w) → (s.client j).SawOf (s.client w) := by
    rintro j w ⟨key, version, ts, ⟨op, t, r, hr, hsaw⟩, hcom⟩
    refine ⟨key, version, ts, ⟨op, t, r, (hq.same j _ _ _).mp hr, hsaw⟩, ?_⟩
    exact ((hq.same w).exists_iff fun _ _ => rfl).mp hcom
  refine ⟨h.nodup, fun j => ?_, h.earlier.imp fun hno hnew => hno (hfrom _ _ hnew),
    fun j hnew => h.other j (hfrom j j hnew)⟩
  rw [h.mem]
  exact exists_congr fun id => ((hq.same j).exists_iff fun _ _ => rfl).symm

variable [DecidableEq ι]

theorem mem_answer {j j' : ι} {ev x : Event K V} {store : VersionStore K} :
    x ∈ ((s.answer j ev store).client j').history ↔
      x ∈ (s.client j').history ∨ j' = j ∧ x = ev := by
  by_cases hj : j' = j
  · subst hj
    simp only [answer, setClient, Function.update_self, Client.history_answer, List.mem_append,
      List.mem_singleton, true_and]
  · simp only [answer, setClient, Function.update_of_ne hj, hj, false_and, or_false]

variable [DecidableEq K] [Services S]

theorem Coherent.sawOf_answer (h : Coherent s) {j : ι} {op : Op} {c : HandlerCall K}
    {r : Reply V op} (hp : (op, c) ∈ (s.client j).execution.pending)
    (hnew : ∀ ev ∈ (s.client j).performed, ev.op ≠ op) {store : VersionStore K} {a b : ι}
    (hab : ((s.answer j (.answered op c r) store).client a).SawOf
      ((s.answer j (.answered op c r) store).client b)) :
    (s.client a).SawOf (s.client b) ∨
      a = j ∧ ¬ (s.client j).ToldCommitted ∧ (∃ key time, c = .getVersionList key time) ∧
        (s.client b).ToldCommitted := by
  obtain ⟨key, version, ts, ⟨op', t, r', hr', hsaw⟩, hcommits⟩ := hab
  rcases exists_answer.mp hcommits with hold | ⟨-, hcom⟩
  · rcases mem_answer.mp hr' with hr' | ⟨rfl, heq⟩
    · exact Or.inl ⟨key, version, ts, ⟨op', t, r', hr', hsaw⟩, hold⟩
    · -- The new read comes from a transaction that is not told to be committed.
      obtain ⟨rfl, rfl, -⟩ := Event.answered.inj heq
      refine Or.inr ⟨rfl, fun htold => ?_, ⟨key, t, rfl⟩, ?_⟩
      · obtain ⟨op, id, hop, hissued⟩ := htold.issued (h.sound a)
        exact (h.sound a).alive.not_reading hissued hop hp
      · exact ((h.sound b).committed_of_commits hold).told
  · obtain ⟨op'', expect, endTs, txId, record, r'', heq⟩ := Event.of_commits hcom
    obtain ⟨rfl, rfl, -⟩ := Event.answered.inj heq
    obtain ⟨howes, -⟩ := h.resolving hp hnew rfl
    rcases mem_answer.mp hr' with hr' | ⟨-, heq'⟩
    · exact absurd ⟨op', t, r', hr', hsaw⟩ (h.not_saw_of_owes howes)
    · cases heq'

omit [DecidableEq ι] in
theorem Coherent.not_settled (h : Coherent s) {j : ι} {op : Op} {id : ℤ} {status : TxnStatus}
    (hp : (op, .updateTxnStatus id status) ∈ (s.client j).execution.pending)
    (hnew : ∀ ev ∈ (s.client j).performed, ev.op ≠ op) (y : ℤ × TxnStatus) :
    ¬ (s.client j).Told Event.settles y := by
  have halive := (h.sound j).alive
  have hissued := halive.issued_of_pending hp
  rintro ⟨ev, hev, hy⟩
  obtain ⟨op', r, rfl⟩ := Event.of_settles hy
  have hissued' := (h.sound j).issued hev
  have hmixed : ∀ {op₁ op₂ : Op} {id₁ id₂ : ℤ},
      Event.issued op₁ (.updateTxnStatus id₁ .committed) ∈ (s.client j).execution.log →
      Event.issued op₂ (.updateTxnStatus id₂ .aborted) ∉ (s.client j).execution.log := by
    intro op₁ op₂ id₁ id₂ h₁ h₂
    obtain ⟨x, gaveUp, stage, ts, hd⟩ := halive.decided h₁
    cases hd.not_abortive h₂
  have hsame : op' = op := by
    rcases halive.updateTxnStatus hissued with ⟨rfl, rfl⟩ | ⟨rfl, rfl⟩
    · rcases halive.updateTxnStatus hissued' with ⟨rfl, -⟩ | ⟨-, heq⟩
      · rfl
      · exact absurd (heq ▸ hissued') (hmixed hissued)
    · rcases halive.updateTxnStatus hissued' with ⟨-, heq⟩ | ⟨rfl, -⟩
      · exact absurd hissued (hmixed (heq ▸ hissued'))
      · rfl
  subst hsame
  have hop : 0 < op'.rank := by
    rcases halive.updateTxnStatus hissued with ⟨rfl, -⟩ | ⟨rfl, -⟩ <;> decide
  rcases List.mem_append.mp hev with hev | hev
  · exact halive.not_answered_of_pending hop hp r hev
  · exact hnew _ hev rfl

theorem Decisions.perform (hco : Coherent s) {order : List ι} (h : Decisions s order) {j : ι}
    {op : Op} {c : HandlerCall K} {r : Reply V op}
    (hp : (op, c) ∈ (s.client j).execution.pending)
    (hnew : ∀ ev ∈ (s.client j).performed, ev.op ≠ op) {store : VersionStore K} :
    ∃ order', Decisions (s.answer j (.answered op c r) store) order' := by
  have hfrom : ∀ {a b}, ((s.answer j (.answered op c r) store).client a).SawOf
      ((s.answer j (.answered op c r) store).client b) →
        (s.client a).SawOf (s.client b) ∨ a = j ∧ ¬ (s.client j).ToldCommitted ∧
          (∃ key time, c = .getVersionList key time) ∧ (s.client b).ToldCommitted :=
    fun hab => hco.sawOf_answer hp hnew hab
  have hother : ∀ a, ¬ ((s.answer j (.answered op c r) store).client a).SawOf
      ((s.answer j (.answered op c r) store).client a) := by
    intro a hab
    rcases hfrom hab with hold | ⟨rfl, hno, -, htold⟩
    · exact h.other a hold
    · exact hno htold
  have htold : ∀ j', ((s.answer j (.answered op c r) store).client j').ToldCommitted ↔
      (s.client j').ToldCommitted ∨
        j' = j ∧ ∃ id, (Event.answered op c r).settles = some (id, .committed) := by
    intro j'
    simp only [Client.ToldCommitted, Client.Told, exists_answer, exists_or, exists_and_left]
  by_cases hsettles : ∃ id, (Event.answered op c r).settles = some (id, .committed)
  · obtain ⟨id, hsettles⟩ := hsettles
    obtain ⟨op', r', heq⟩ := Event.of_settles hsettles
    obtain ⟨rfl, rfl, -⟩ := Event.answered.inj heq
    have hno : ¬ (s.client j).ToldCommitted := by
      rintro ⟨id', htold⟩
      exact hco.not_settled hp hnew _ htold
    have hj : j ∉ order := fun hmem => hno ((h.mem j).mp hmem)
    have hold : ∀ {a b}, ((s.answer j (.answered op (.updateTxnStatus id .committed) r)
        store).client a).SawOf ((s.answer j (.answered op (.updateTxnStatus id .committed) r)
        store).client b) → (s.client a).SawOf (s.client b) := by
      intro a b hab
      refine (hfrom hab).resolve_right ?_
      rintro ⟨-, -, ⟨key, time, heq⟩, -⟩
      cases heq
    refine ⟨order ++ [j], ?_, fun j' => ?_, ?_, hother⟩
    · exact h.nodup.append (List.nodup_singleton j) (List.disjoint_singleton.mpr hj)
    · rw [htold, List.mem_append, List.mem_singleton, h.mem]
      exact or_congr_right ⟨fun hj => ⟨hj, id, hsettles⟩, And.left⟩
    · refine List.pairwise_append.mpr ⟨h.earlier.imp fun hno hab => hno (hold hab),
        List.pairwise_singleton _ _, fun a ha b hb hab => ?_⟩
      -- Nobody has read from a transaction that was not committed before.
      obtain rfl := List.mem_singleton.mp hb
      obtain ⟨key, version, ts, -, hcom⟩ := hold hab
      exact hno ((hco.sound b).committed_of_commits hcom).told
  · refine ⟨order, h.nodup, fun j' => ?_, ?_, hother⟩
    · rw [htold, h.mem]
      exact ⟨Or.inl, fun hj => hj.resolve_right fun hnew => hsettles hnew.2⟩
    · refine h.earlier.imp_of_mem fun ha hb hno hab => ?_
      rcases hfrom hab with hold | ⟨rfl, hun, -, -⟩
      · exact hno hold
      · exact hun ((h.mem _).mp ha)

theorem Decisions.step (hco : Coherent s) {order : List ι} (h : Decisions s order)
    {a : SharedAction ι K V S} (hs : s.step a = some s') : ∃ order', Decisions s' order' := by
  obtain ⟨-, ⟨-, hq⟩ | ⟨j, op, c, r, -, hp, hnew, -, rfl⟩⟩ := step_cases hco.sound hs
  · exact ⟨order, h.quiet hq⟩
  · exact h.perform hco (List.mem_of_find?_eq_some hp) hnew

omit [DecidableEq ι] [DecidableEq K] in
theorem Decisions.start (e : ι → TransactionExecution K V S) :
    Decisions (SharedStore.start e) [] := by
  have hnone : ∀ j (ev : Event K V), ev ∉ ((SharedStore.start e).client j).history :=
    fun j ev hev => List.not_mem_nil hev
  refine ⟨List.nodup_nil, fun j => ⟨fun hj => absurd hj List.not_mem_nil, ?_⟩, List.Pairwise.nil, ?_⟩
  · rintro ⟨id, ev, hev, -⟩
    exact absurd hev (hnone j ev)
  · rintro j ⟨key, version, ts, -, ev, hev, -⟩
    exact hnone j ev hev

theorem exists_decisions {e : ι → TransactionExecution K V S}
    (hv : ∀ j, (e j).operationVector = []) (hp : ∀ j, (e j).pending = [])
    {as : List (SharedAction ι K V S)} (hr : run step (start e) as = some s) :
    Coherent s ∧ ∃ order, Decisions s order := by
  have hstep : ∀ (s : SharedStore ι K V S) a s', (Coherent s ∧ ∃ order, Decisions s order) →
      step s a = some s' → Coherent s' ∧ ∃ order, Decisions s' order := by
    rintro s a s' ⟨hco, order, hd⟩ hs
    exact ⟨hco.step hs, hd.step hco hs⟩
  exact run_invariant hstep ⟨.start hv hp, [], .start e⟩ hr

namespace Coherent

omit [DecidableEq ι]

variable {j w : ι} {key : SetKey K} {version ts : ℤ}

theorem commits_of_saw (h : Coherent s) (hj : (s.client j).Saw key version)
    (hw : (s.client w).CommittedAt ts) (hwrites : (s.client w).Writes key version) :
    ∃ begin, (s.client w).Commits key version begin := by
  have hread := (h.sound w).reads_of_writes hw hwrites
  have hpos := h.nonneg_of_saw ((h.sound w).saw_of_reads hw hread)
  obtain ⟨a, begin, hcom, ha, -⟩ := h.author_of_saw hj (by omega)
  obtain rfl := h.writer_unique ha hw (h.writes_of_commits hcom) hwrites
  exact ⟨begin, hcom⟩

theorem newest_of_leaves (h : Coherent s) {order : List ι} {last : SetKey K → ℤ}
    (hmem : ∀ j, j ∈ order ↔ ∃ ts, (s.client j).CommittedAt ts)
    (hl : Leaves (fun j => (s.client j).Writes) order last)
    (hpaid : ∀ j version, ¬ (s.client j).Owes key version) {v : VersionEntry}
    (hv : v ∈ (opened (s.store key)).head?) : v.version = last key := by
  have hkept : last key = 0 ∨ ∃ u ∈ s.store key, u.Committed ∧ u.version = last key := by
    apply (hl.written key).imp_right
    rintro ⟨w, hw, hwrites⟩
    obtain ⟨ts, hw⟩ := (hmem w).mp hw
    obtain ⟨op, hup⟩ := h.uploads_of_writes hw hwrites
    rcases owes_or_resolved hup with ho | ⟨begin, hcom⟩ | hdel
    · exact absurd ho (hpaid w _)
    · obtain ⟨u, hu, hc, hversion, -⟩ := h.authors.kept w key _ begin hcom
      exact ⟨u, hu, hc, hversion⟩
    · exact absurd hdel (h.not_deletes hw)
  rcases h.shaped key with hnil | ⟨dirty, committed, hstore, hshape⟩
  · rw [hnil] at hv hkept
    obtain rfl : VersionEntry.pseudo = v := Option.some.inj hv
    refine (hkept.resolve_right ?_).symm
    rintro ⟨u, hu, -⟩
    exact List.not_mem_nil hu
  · obtain ⟨n, l, rfl⟩ := List.exists_cons_of_ne_nil hshape.lineage.ne_nil
    have hnone : dirty = none := by
      cases dirty with
      | none => rfl
      | some d =>
        have hd : d ∈ s.store key := hstore ▸ List.mem_cons_self
        obtain ⟨j, ho, -⟩ := h.dues.owed key d hd (hshape.dirty d rfl).1
        exact absurd ho (hpaid j _)
    subst hnone
    rw [hstore] at hv hkept
    obtain rfl : n = v := Option.some.inj hv
    have hn := hshape.lineage.number_eq
    have hle : n.version ≤ last key := by
      by_cases hpos : 0 < n.version
      · have hmem' : n ∈ s.store key := hstore ▸ List.mem_cons_self
        obtain ⟨w, hw⟩ := h.authors.written key n hmem'
          (hshape.committed_of_mem List.mem_cons_self) hpos
        have hw' := (hmem w).mpr ⟨_, (h.sound w).committed_of_commits hw⟩
        exact hl.le w hw' key _ (h.writes_of_commits hw)
      · have := hl.nonneg key
        omega
    rcases hkept with hzero | ⟨u, hu, hc, hversion⟩
    · omega
    · have hlt := hshape.lineage.number_lt (hshape.mem_of_committed hu hc)
      rw [List.length_cons] at hlt
      omega

end Coherent

end SharedStore

namespace TimestampStore

open SharedStore

variable {s : TimestampStore ι K V S}

/-- No committed transaction has read a version that another one with its timestamp replaces. -/
def Untied (s : TimestampStore ι K V S) : Prop :=
  ∀ j j' key version ts, (s.shared.client j).CommittedAt ts → (s.shared.client j').CommittedAt ts →
    (s.shared.client j).Reads key version → (s.shared.client j').Writes key (version + 1) → j = j'

/-- What the committed transactions have read and written is what they would have when run one after
another in the order of their timestamps. The newest version of a key to which nothing is being
written is the one that such a run leaves. -/
def Serializable (s : TimestampStore ι K V S) : Prop :=
  ∃ (order : List ι) (last : SetKey K → ℤ), order.Nodup ∧
    (∀ j, j ∈ order ↔ ∃ ts, (s.shared.client j).CommittedAt ts) ∧
    (order.Pairwise fun j j' => ∀ ts ts', (s.shared.client j).CommittedAt ts →
      (s.shared.client j').CommittedAt ts' → ts ≤ ts') ∧
    Serial (fun j => (s.shared.client j).Reads) (fun j => (s.shared.client j).Writes)
      (fun _ => 0) order last ∧
    ∀ key, (∀ j version, ¬ (s.shared.client j).Owes key version) →
      ∀ v ∈ (opened (s.shared.store key)).head?, v.version = last key

variable [DecidableEq ι] [DecidableEq K] [Services S]

/-- Every run of any number of transactions is serializable, unless one commits at the timestamp of
another that replaces what it has read. -/
theorem serializable {e : ι → TransactionExecution K V S}
    (hv : ∀ j, (e j).operationVector = []) (hp : ∀ j, (e j).pending = [])
    {as : List (SharedAction ι K V S)} (hr : run step (start e) as = some s)
    (hid : ∀ j j', (s.shared.client j).execution.txnId = (s.shared.client j').execution.txnId →
      j = j') (hne : ∀ j, (s.shared.client j).execution.txnId ≠ VersionEntry.kEmptyTxId)
    (huntied : Untied s) : Serializable s := by
  have hguard : Guarded s := .of_start hv hp hr hid
  obtain ⟨hco, d, hd⟩ := exists_decisions hv hp (run_shared hr)
  have hsound := hco.sound
  have hmem : ∀ j, j ∈ d ↔ ∃ ts, (s.shared.client j).CommittedAt ts := by
    intro j
    rw [hd.mem]
    exact ⟨fun hj => hj.committedAt (hsound j), fun ⟨ts, hj⟩ => hj.told⟩
  choose! ts hts using fun j (hj : j ∈ d) => (hmem j).mp hj
  have hts' : ∀ {j t}, (s.shared.client j).CommittedAt t → ts j = t := fun {j} _ hj =>
    (hsound j).committedAt_unique (hts j ((hmem j).mpr ⟨_, hj⟩)) hj
  have hsaw : ∀ j ∈ d, ∀ key version, (s.shared.client j).Reads key version →
      (s.shared.client j).Saw key version :=
    fun j hj key version hread => (hsound j).saw_of_reads (hts j hj) hread
  have hfrom : d.Pairwise fun j w => ¬ ReadsFrom (fun j => (s.shared.client j).Reads)
      (fun j => (s.shared.client j).Writes) j w := by
    refine hd.earlier.imp_of_mem fun {j w} hj hw hno hrf => hno ?_
    obtain ⟨key, version, hread, hwrites⟩ := hrf
    obtain ⟨begin, hcom⟩ := hco.commits_of_saw (hsaw j hj key version hread) (hts w hw) hwrites
    exact ⟨key, version, begin, hsaw j hj key version hread, hcom⟩
  have hnonneg : ∀ j ∈ d, ∀ key version, (s.shared.client j).Reads key version → 0 ≤ version :=
    fun j hj key version hread => hco.nonneg_of_saw (hsaw j hj key version hread)
  have hafter : ∀ j ∈ d, ∀ key version, (s.shared.client j).Reads key version → 0 < version →
      ∃ w ∈ d, (s.shared.client w).Writes key version ∧ w ≠ j ∧ ts w ≤ ts j := by
    intro j hj key version hread hpos
    obtain ⟨w, begin, hcom, hw, hbegin⟩ := hco.author_of_saw (hsaw j hj key version hread) hpos
    refine ⟨w, (hmem w).mpr ⟨begin, hw⟩, hco.writes_of_commits hcom, ?_, ?_⟩
    · rintro rfl
      exact hd.other w ⟨key, version, begin, hsaw w hj key version hread, hcom⟩
    · obtain ⟨v, hv, -, hversion, hle⟩ := hco.begin_le_of_reads (hts j hj) hread
      rw [hts' hw, ← hbegin v hv hversion]
      exact hle
  have hbefore : ∀ j ∈ d, ∀ key version, (s.shared.client j).Reads key version →
      ∀ w ∈ d, (s.shared.client w).Writes key (version + 1) → w = j ∨ ts j < ts w := by
    intro j hj key version hread w hw hwrites
    by_cases hjw : w = j
    · exact Or.inl hjw
    · have hle := hguard.le_of_reads hid (hne w) (hts j hj) (hts w hw) hread hwrites (Ne.symm hjw)
      refine Or.inr (lt_of_le_of_ne hle fun heq => hjw ?_)
      exact (huntied j w key version (ts j) (hts j hj) (heq ▸ hts w hw) hread hwrites).symm
  have hnext : ∀ j ∈ d, ∀ key version, (s.shared.client j).Writes key version →
      (s.shared.client j).Reads key (version - 1) :=
    fun j hj key version hwrites => (hsound j).reads_of_writes (hts j hj) hwrites
  obtain ⟨order, last, hperm, hsorted, hserial, hleaves⟩ :=
    exists_serial hd.nodup hfrom hnonneg hafter hbefore hnext
  refine ⟨order, last, hperm.nodup_iff.mpr hd.nodup, fun j => hperm.mem_iff.trans (hmem j),
    hsorted.imp fun hle t t' hj hj' => ?_, hserial, fun key hpaid v hv => ?_⟩
  · rw [← hts' hj, ← hts' hj']
    exact hle
  · exact hco.newest_of_leaves (fun j => hperm.mem_iff.trans (hmem j)) hleaves hpaid hv

theorem samplePushed_runs : ∃ s ∈ run step samplePair samplePushed, SampleOutcome 7 s ∧
    ∀ j, (s.shared.client j).execution.txnId ≠ VersionEntry.kEmptyTxId := by decide +kernel

theorem serializable_sample :
    ∃ s, run step samplePair samplePushed = some s ∧ SampleOutcome 7 s ∧ Serializable s := by
  obtain ⟨s, hs, hout, hne⟩ := samplePushed_runs
  have ⟨hid, _, hj, hj', _⟩ := hout
  have hsound := (exists_decisions (fun _ => rfl) (fun _ => rfl) (run_shared hs)).1.sound
  -- One transaction commits at 6 and the other one at 7.
  have hreader : ∀ ts, (s.shared.client 0).CommittedAt ts → ts = 6 :=
    fun ts hts => (hsound 0).committedAt_unique hts ⟨1, hj⟩
  have hwriter : ∀ ts, (s.shared.client 1).CommittedAt ts → ts = 7 :=
    fun ts hts => (hsound 1).committedAt_unique hts ⟨11, hj'⟩
  refine ⟨s, hs, hout, serializable (fun _ => rfl) (fun _ => rfl) hs hid hne ?_⟩
  intro j j' key version ts hts hts' _ _
  by_contra hne
  have hcases : j = 0 ∧ j' = 1 ∨ j = 1 ∧ j' = 0 := by omega
  rcases hcases with ⟨rfl, rfl⟩ | ⟨rfl, rfl⟩
  · have := hreader ts hts
    have := hwriter ts hts'
    omega
  · have := hreader ts hts'
    have := hwriter ts hts
    omega

end TimestampStore

end Fugue
