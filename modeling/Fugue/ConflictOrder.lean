import Fugue.SerialOrder
import Mathlib.Logic.Relation

namespace Fugue

open TransactionExecution VersionStore

variable {ι K V S : Type}

theorem TransactionExecution.Decided.begin_lt [DecidableEq K] [Services S]
    {x : ExecutionState K V S} {gaveUp : Prop} {s : Stage} {ts : ℤ} {e : TransactionExecution K V S}
    (h : Decided x gaveUp s ts e) (hst : ∀ id ts r, Event.answered .setCommitTs
      (.setCommitTimestamp id ts) r ∈ e.log → r.isError = false → ts ≤ r.result) {i l : ℕ}
    {key : SetKey K} {version : ℤ} (hi : i < e.keyReadSet.popIndex)
    (hkey : e.keyReadSet.key i = some key) (hw : e.keyWriteSet.Writes l key version) :
    (e.keyReadSet.entry i).beginTs < ts := by
  have sets := h.pipe.core.sets
  obtain ⟨c, r, hr, herror, rfl, -⟩ := h.timestamped
  obtain ⟨pre, hpre, -, proposed, ⟨-, hreads⟩, rfl⟩ :=
    h.pipe.core.callOk (h.pipe.core.issued_of_answered hr)
  obtain ⟨hl, hlk, -⟩ := sets.writes.mp hw
  have hlt := (hreads i (sets.readSize ▸ hi)).2 key ((sets.readKey i).symm.trans hkey) l hl hlk
  have hle := hst _ _ _ hr herror
  rw [sets.beginTs]
  omega

namespace SharedStore

variable {s : SharedStore ι K V S} [DecidableEq K] [Services S] {j w : ι} {key : SetKey K}
  {n m ts ts' : ℤ} {v : VersionEntry}

namespace Coherent

theorem exists_older (h : Coherent s) (hv : v ∈ s.store key) (hc : v.Committed) (hn : 0 ≤ n)
    (hle : n ≤ v.version) :
    ∃ u ∈ s.store key, u.Committed ∧ u.version = n ∧ u.beginTs ≤ v.beginTs := by
  obtain ⟨dirty, committed, hstore, hshape⟩ := h.shaped_of_mem hv
  rw [hstore] at hv ⊢
  have hv := hshape.mem_of_committed hv hc
  have hlt := hshape.lineage.number_lt hv
  obtain ⟨u, hu, rfl⟩ := hshape.lineage.exists_number hn (by omega)
  refine ⟨u, List.mem_append_right _ hu, hshape.committed_of_mem hu, rfl, ?_⟩
  exact hshape.lineage.start_le_of_number hu hv hle

theorem begin_eq_of_writes (h : Coherent s) (hj : (s.client j).CommittedAt ts)
    (hw : (s.client j).Writes key n) (hv : v ∈ s.store key) (hc : v.Committed)
    (hn : v.version = n) : v.beginTs = ts := by
  have hread := (h.sound j).reads_of_writes hj hw
  have hpos := h.nonneg_of_saw ((h.sound j).saw_of_reads hj hread)
  obtain ⟨a, ha⟩ := h.authors.written key v hv hc (by omega)
  have hcommitted := (h.sound a).committed_of_commits ha
  obtain rfl := h.writer_unique hcommitted hj (hn ▸ h.writes_of_commits ha) hw
  exact (h.sound a).committedAt_unique hcommitted hj

theorem le_begin_of_writes (h : Coherent s) (hj : (s.client j).CommittedAt ts)
    (hw : (s.client j).Writes key n) (hv : v ∈ s.store key) (hc : v.Committed)
    (hle : n ≤ v.version) : ts ≤ v.beginTs := by
  have hread := (h.sound j).reads_of_writes hj hw
  have hpos := h.nonneg_of_saw ((h.sound j).saw_of_reads hj hread)
  obtain ⟨u, hu, huc, hun, hbegin⟩ := h.exists_older (n := n) hv hc (by omega) hle
  rw [← h.begin_eq_of_writes hj hw hu huc hun]
  exact hbegin

theorem begin_lt_of_writes (h : Coherent s) (hj : (s.client j).CommittedAt ts)
    (hw : (s.client j).Writes key n) :
    ∃ v ∈ s.store key, v.Committed ∧ v.version = n - 1 ∧ v.beginTs < ts := by
  obtain ⟨i, hi, hkey, hversion⟩ := (h.sound j).reads_of_writes hj hw
  obtain ⟨x, gaveUp, stage, hd⟩ := (h.sound j).decided hj
  obtain ⟨l, hw⟩ := hw
  obtain ⟨t, r, hr, herror, hseen⟩ := hd.read hi hkey
  obtain ⟨v, hv, hc, hvn, hbegin⟩ :=
    h.fits j _ (List.mem_append_left _ hr) r.result rfl herror _ hseen
  refine ⟨v, hv, hc, hvn.trans hversion, ?_⟩
  rw [hbegin]
  exact hd.begin_lt (h.timestamp_le j) hi hkey hw

end Coherent

/-- Both transactions access a key, and one of them writes it. What `w` accesses comes after what `j`
does. -/
inductive Conflict (s : SharedStore ι K V S) (j w : ι) : Prop
  | writeRead {key : SetKey K} {n m : ℤ} (hj : (s.client j).Writes key n)
      (hw : (s.client w).Reads key m) (hnm : n ≤ m)
  | readWrite {key : SetKey K} {n m : ℤ} (hj : (s.client j).Reads key n)
      (hw : (s.client w).Writes key m) (hnm : n < m)
  | writeWrite {key : SetKey K} {n m : ℤ} (hj : (s.client j).Writes key n)
      (hw : (s.client w).Writes key m) (hnm : n < m)

def Precedes (s : SharedStore ι K V S) (j w : ι) : Prop :=
  j ≠ w ∧ (∃ ts, (s.client j).CommittedAt ts) ∧ (∃ ts, (s.client w).CommittedAt ts) ∧ Conflict s j w

theorem Coherent.lt_of_writes (h : Coherent s) (hj : (s.client j).CommittedAt ts)
    (hw : (s.client w).CommittedAt ts') (hn : (s.client j).Writes key n)
    (hm : (s.client w).Writes key m) (hnm : n < m) : ts < ts' := by
  obtain ⟨v, hv, hc, hversion, hlt⟩ := h.begin_lt_of_writes hw hm
  exact (h.le_begin_of_writes hj hn hv hc (by omega)).trans_lt hlt

end SharedStore

namespace TimestampStore

open SharedStore

variable {s : TimestampStore ι K V S} [DecidableEq K] [Services S] {j w : ι} {key : SetKey K}
  {n m ts ts' : ℤ}

theorem Guarded.le_of_replaced (h : Guarded s)
    (hid : ∀ j j', (s.shared.client j).execution.txnId = (s.shared.client j').execution.txnId →
      j = j') (hne : ∀ j, (s.shared.client j).execution.txnId ≠ VersionEntry.kEmptyTxId)
    (hj : (s.shared.client j).CommittedAt ts) (hr : (s.shared.client j).Reads key n)
    {u : VersionEntry} (hu : u ∈ s.shared.store key) (hc : u.Committed)
    (hversion : u.version = n + 1) : ts ≤ u.beginTs := by
  have hpos := h.coherent.nonneg_of_saw ((h.coherent.sound j).saw_of_reads hj hr)
  obtain ⟨a, ha⟩ := h.coherent.authors.written key u hu hc (by omega)
  have hcommitted := (h.coherent.sound a).committed_of_commits ha
  by_cases hja : j = a
  · subst hja
    exact ((h.coherent.sound j).committedAt_unique hj hcommitted).le
  · have hw := h.coherent.writes_of_commits ha
    exact h.le_of_reads hid (hne a) hj hcommitted hr (hversion ▸ hw) hja

theorem Guarded.le_of_conflict (h : Guarded s)
    (hid : ∀ j j', (s.shared.client j).execution.txnId = (s.shared.client j').execution.txnId →
      j = j') (hne : ∀ j, (s.shared.client j).execution.txnId ≠ VersionEntry.kEmptyTxId)
    (hj : (s.shared.client j).CommittedAt ts) (hw : (s.shared.client w).CommittedAt ts')
    (hjw : j ≠ w) (hconflict : Conflict s.shared j w) : ts ≤ ts' := by
  have hco := h.coherent
  cases hconflict with
  | writeRead hn hm hnm =>
    obtain ⟨v, hv, hc, hversion, hle⟩ := hco.begin_le_of_reads hw hm
    exact (hco.le_begin_of_writes hj hn hv hc (by omega)).trans hle
  | readWrite hn hm hnm =>
    rcases Int.lt_iff_add_one_le.mp hnm |>.eq_or_lt with heq | hlt
    · exact h.le_of_reads hid (hne w) hj hw hn (heq ▸ hm) hjw
    · -- The next version was committed before `w` read the one that it replaces.
      have hpos := hco.nonneg_of_saw ((hco.sound j).saw_of_reads hj hn)
      obtain ⟨v, hv, hc, hversion, hbegin⟩ := hco.begin_lt_of_writes hw hm
      obtain ⟨u, hu, huc, hun, hle⟩ := hco.exists_older hv hc (Int.le_add_one hpos) (by omega)
      exact (h.le_of_replaced hid hne hj hn hu huc hun).trans (hle.trans hbegin.le)
  | writeWrite hn hm hnm => exact (hco.lt_of_writes hj hw hn hm hnm).le

theorem Guarded.le_of_path (h : Guarded s)
    (hid : ∀ j j', (s.shared.client j).execution.txnId = (s.shared.client j').execution.txnId →
      j = j') (hne : ∀ j, (s.shared.client j).execution.txnId ≠ VersionEntry.kEmptyTxId)
    (hj : (s.shared.client j).CommittedAt ts) (hw : (s.shared.client w).CommittedAt ts')
    (hpath : Relation.ReflTransGen (Precedes s.shared) j w) : ts ≤ ts' := by
  induction hpath generalizing ts' with
  | refl => exact ((h.coherent.sound j).committedAt_unique hj hw).le
  | tail hpath hlast ih =>
    obtain ⟨hne', ⟨t, ht⟩, -, hconflict⟩ := hlast
    exact (ih ht).trans (h.le_of_conflict hid hne ht hw hne' hconflict)

variable [DecidableEq ι]

/-- In every run the timestamps of the committed transactions follow the conflicts between them.
Those on a cycle of conflicts have the same timestamp, and no two of them write the same key. -/
theorem conflicts_ordered {e : ι → TransactionExecution K V S}
    (hv : ∀ j, (e j).operationVector = []) (hp : ∀ j, (e j).pending = [])
    {as : List (SharedAction ι K V S)} (hr : run step (start e) as = some s)
    (hid : ∀ j j', (s.shared.client j).execution.txnId = (s.shared.client j').execution.txnId →
      j = j') (hne : ∀ j, (s.shared.client j).execution.txnId ≠ VersionEntry.kEmptyTxId)
    (hj : (s.shared.client j).CommittedAt ts) (hw : (s.shared.client w).CommittedAt ts')
    (hpath : Relation.ReflTransGen (Precedes s.shared) j w) :
    ts ≤ ts' ∧ (Relation.ReflTransGen (Precedes s.shared) w j → ts = ts' ∧
      (j ≠ w → ∀ key n m, (s.shared.client j).Writes key n → ¬ (s.shared.client w).Writes key m)) := by
  have h : Guarded s := .of_start hv hp hr hid
  have hle := h.le_of_path hid hne hj hw hpath
  refine ⟨hle, fun hback => ?_⟩
  have heq : ts = ts' := le_antisymm hle (h.le_of_path hid hne hw hj hback)
  refine ⟨heq, fun hjw key n m hn hm => ?_⟩
  rcases lt_trichotomy n m with hlt | rfl | hlt
  · exact (h.coherent.lt_of_writes hj hw hn hm hlt).ne heq
  · exact hjw (h.coherent.writer_unique hj hw hn hm)
  · exact (h.coherent.lt_of_writes hw hj hm hn hlt).ne' heq

theorem conflicts_ordered_sample :
    ∃ s, run step samplePair samplePushed = some s ∧ SampleOutcome 7 s ∧
      Precedes s.shared 0 1 ∧ (6 : ℤ) ≤ 7 ∧
      (Relation.ReflTransGen (Precedes s.shared) 1 0 → (6 : ℤ) = 7 ∧
        ((0 : Fin 2) ≠ 1 → ∀ key n m, (s.shared.client 0).Writes key n →
          ¬ (s.shared.client 1).Writes key m)) := by
  obtain ⟨s, hs, hout, hne⟩ := samplePushed_runs
  have ⟨hid, _, hj, hj', hi, hkey, _, ev, hev, hup⟩ := hout
  have hsound := (exists_decisions (fun _ => rfl) (fun _ => rfl) (run_shared hs)).1.sound
  obtain ⟨v, r, rfl, -, hversion⟩ := Event.of_uploads hup
  obtain ⟨⟨i, -, hw⟩, -⟩ := (hsound 1).alive.uploads ((hsound 1).issued hev)
  have hread : (s.shared.client 0).Reads _ _ := ⟨0, hi, hkey, rfl⟩
  have hprecedes : Precedes s.shared 0 1 :=
    ⟨by decide, ⟨6, 1, hj⟩, ⟨7, 11, hj'⟩, .readWrite hread ⟨i, hw⟩ (by omega)⟩
  exact ⟨s, hs, hout, hprecedes, conflicts_ordered (fun _ => rfl) (fun _ => rfl) hs hid hne ⟨1, hj⟩
    ⟨11, hj'⟩ (.single hprecedes)⟩

/-- In every run, what a committed transaction has read was valid at its timestamp, and what it has
written begins there. -/
theorem snapshot_at_commit {e : ι → TransactionExecution K V S}
    (hv : ∀ j, (e j).operationVector = []) (hp : ∀ j, (e j).pending = [])
    {as : List (SharedAction ι K V S)} (hr : run step (start e) as = some s)
    (hid : ∀ j j', (s.shared.client j).execution.txnId = (s.shared.client j').execution.txnId →
      j = j') (hne : ∀ j, (s.shared.client j).execution.txnId ≠ VersionEntry.kEmptyTxId)
    (hj : (s.shared.client j).CommittedAt ts) (key : SetKey K) :
    (∀ n, (s.shared.client j).Reads key n → ∃ v ∈ s.shared.store key, v.Committed ∧
      v.version = n ∧ v.beginTs ≤ ts ∧ (v.endTs = VersionEntry.kMaxTimeStamp ∨ ts ≤ v.endTs)) ∧
    ∀ n, (s.shared.client j).Writes key n → ∀ v ∈ s.shared.store key, v.Committed →
      v.version = n → v.beginTs = ts := by
  have h : Guarded s := .of_start hv hp hr hid
  refine ⟨fun n hn => ?_, fun n hn v hv hc => h.coherent.begin_eq_of_writes hj hn hv hc⟩
  obtain ⟨v, hv, hc, hversion, hle⟩ := h.coherent.begin_le_of_reads hj hn
  refine ⟨v, hv, hc, hversion, hle, ?_⟩
  obtain ⟨dirty, committed, hstore, hshape⟩ := h.coherent.shaped_of_mem hv
  rw [hstore] at hv
  have hvc := hshape.mem_of_committed hv hc
  rcases hshape.lineage.number_lt hvc |> Int.lt_iff_add_one_le.mp |>.eq_or_lt with heq | hlt
  · left
    obtain ⟨i, hi⟩ := List.mem_iff_getElem?.mp hvc
    have hnum := hshape.lineage.number_getElem? hi
    obtain rfl : i = 0 := by omega
    obtain ⟨x, l, rfl⟩ := List.exists_cons_of_ne_nil hshape.lineage.ne_nil
    obtain rfl := Option.some.inj hi
    exact hshape.lineage.stop_eq
  · right
    have hpos := h.coherent.nonneg_of_saw ((h.coherent.sound j).saw_of_reads hj hn)
    obtain ⟨u, hu, hun⟩ := hshape.lineage.exists_number (n := v.version + 1) (by omega) hlt
    have hu' : u ∈ dirty.toList ++ committed := List.mem_append_right _ hu
    have huc := hshape.committed_of_mem hu
    rw [hshape.endTs_eq hv hu' huc hun]
    exact h.le_of_replaced hid hne hj hn (hstore ▸ hu') huc (by omega)

theorem snapshot_at_commit_sample :
    ∃ s, run step samplePair samplePushed = some s ∧ SampleOutcome 7 s ∧
      (∀ n, (s.shared.client 0).Reads ⟨"t", 1⟩ n → ∃ v ∈ s.shared.store ⟨"t", 1⟩, v.Committed ∧
        v.version = n ∧ v.beginTs ≤ 6 ∧ (v.endTs = VersionEntry.kMaxTimeStamp ∨ 6 ≤ v.endTs)) ∧
      ∀ n, (s.shared.client 0).Writes ⟨"t", 1⟩ n → ∀ v ∈ s.shared.store ⟨"t", 1⟩, v.Committed →
        v.version = n → v.beginTs = 6 := by
  obtain ⟨s, hs, hout, hne⟩ := samplePushed_runs
  exact ⟨s, hs, hout, snapshot_at_commit (fun _ => rfl) (fun _ => rfl) hs hout.1 hne
    ⟨1, hout.2.2.1⟩ _⟩

end TimestampStore

end Fugue
