import Fugue.OwnReads
import Fugue.PublishedResults

namespace Fugue

/-- The versions of a key, newest first: perhaps one that is not committed yet, and at least one
that is. -/
structure VersionChain where
  dirty : Option VersionEntry
  newest : VersionEntry
  older : List VersionEntry
  contiguous : ∀ (i : ℕ) v, (dirty.toList ++ newest :: older)[i]? = some v →
    v.version + i + 1 = ((dirty.toList ++ newest :: older).length : ℤ)
  committed : ∀ v ∈ newest :: older,
    v.beginTs ≠ VersionEntry.kDefaultBeginTs ∧ v.endTs ≠ VersionEntry.kDefaultEndTs
  uncommitted : ∀ v ∈ dirty, v.endTs = VersionEntry.kDefaultEndTs
  pseudo : newest.version = 0 → newest.isDeleted = true →
    newest.beginTs = 0 ∧ newest.endTs = VersionEntry.kMaxTimeStamp

namespace VersionChain

variable (c : VersionChain)

def entries : List VersionEntry := c.dirty.toList ++ c.newest :: c.older

def twoNewest (missing : VersionEntry) : VersionEntry × VersionEntry :=
  (c.entries.getD 0 missing, c.entries.getD 1 missing)

def Returns (res : VersionEntry × VersionEntry) : Prop :=
  ∃ missing : VersionEntry, missing.version = VersionEntry.kDefaultVersion ∧
    (res = c.twoNewest missing ∨ res = (c.twoNewest missing).swap)

theorem newest_version : c.newest.version = c.older.length := by
  have hget : (c.dirty.toList ++ c.newest :: c.older)[c.dirty.toList.length]? = some c.newest := by
    simp
  have hver := c.contiguous _ _ hget
  rw [List.length_append, List.length_cons] at hver
  omega

theorem dirty_version {d : VersionEntry} (hd : c.dirty = some d) :
    d.version = c.older.length + 1 := by
  have hget : (c.dirty.toList ++ c.newest :: c.older)[0]? = some d := by
    rw [hd]
    rfl
  have hver := c.contiguous _ _ hget
  rw [hd] at hver
  simp only [Option.toList_some, List.cons_append, List.nil_append, List.length_cons] at hver
  omega

theorem older_version {v : VersionEntry} {l : List VersionEntry} (hd : c.dirty = none)
    (hl : c.older = v :: l) : v.version < c.newest.version := by
  have hget : (c.dirty.toList ++ c.newest :: c.older)[1]? = some v := by
    rw [hd, hl]
    rfl
  have hver := c.contiguous _ _ hget
  have hnew := c.newest_version
  rw [hd, hl] at hver
  rw [hl] at hnew
  simp only [Option.toList_none, List.nil_append, List.length_cons] at hver hnew
  omega

/-- What a read sees of the chain; the pseudo version stands for no version. -/
def visible : Option VersionEntry :=
  if c.newest.isDeleted = true ∧ c.newest.version = 0 then none else some c.newest

/-- With the newer version first the comparison on `endTs` finds the newest committed one. -/
theorem internalPickVisibleVersion_twoNewest {missing : VersionEntry}
    (hm : missing.version = VersionEntry.kDefaultVersion) :
    (c.twoNewest missing).2.version < (c.twoNewest missing).1.version ∧
      internalPickVisibleVersion (c.twoNewest missing).1 (c.twoNewest missing).2 =
        .ok c.visible := by
  have hnew := c.newest_version
  obtain ⟨hbegin, hend⟩ := c.committed c.newest List.mem_cons_self
  have hvisible : (if !c.newest.isDeleted || decide (c.newest.version > 0) then some c.newest
      else none) = c.visible := by
    unfold visible
    by_cases hd : c.newest.isDeleted = true
    · by_cases hz : c.newest.version = 0
      · simp [hd, hz]
      · have hpos : 0 < c.newest.version := by omega
        simp [hd, hz, hpos]
    · simp [hd]
  cases hdirty : c.dirty with
  | some d =>
    have htwo : c.twoNewest missing = (d, c.newest) := by
      rw [twoNewest, entries, hdirty]
      rfl
    have hver := c.dirty_version hdirty
    have hne : c.newest.version ≠ VersionEntry.kDefaultVersion := by
      rw [hnew, VersionEntry.kDefaultVersion]
      omega
    rw [htwo]
    refine ⟨by dsimp only; omega, ?_⟩
    rw [internalPickVisibleVersion, if_neg (not_not.mpr (c.uncommitted d hdirty)), if_pos hne,
      if_neg hbegin, hvisible]
  | none =>
    obtain ⟨v, htwo, hlt⟩ : ∃ v, c.twoNewest missing = (c.newest, v) ∧
        v.version < c.newest.version := by
      cases holder : c.older with
      | nil =>
        refine ⟨missing, ?_, ?_⟩
        · rw [twoNewest, entries, hdirty, holder]
          rfl
        · rw [hm, hnew, VersionEntry.kDefaultVersion]
          omega
      | cons w l =>
        refine ⟨w, ?_, c.older_version hdirty holder⟩
        rw [twoNewest, entries, hdirty, holder]
        rfl
    rw [htwo]
    refine ⟨hlt, ?_⟩
    rw [internalPickVisibleVersion, if_pos hend, hvisible]

theorem pickVisibleVersion_returns {res : VersionEntry × VersionEntry} (h : c.Returns res) :
    pickVisibleVersion res = .ok c.visible := by
  obtain ⟨missing, hm, hres⟩ := h
  obtain ⟨hlt, hpick⟩ := c.internalPickVisibleVersion_twoNewest hm
  rcases hres with rfl | rfl
  · rw [pickVisibleVersion, if_pos hlt]
    exact hpick
  · rw [pickVisibleVersion, Prod.fst_swap, Prod.snd_swap,
      if_neg (Int.not_lt.mpr (Int.le_of_lt hlt)), if_pos hlt]
    exact hpick

end VersionChain

open TransactionExecution

/-- A read-set entry keeps what the later steps of its transaction need of the version `v`. -/
structure ReadSetEntry.Records (r : ReadSetEntry) (v : VersionEntry) : Prop where
  version : r.version = v.version
  beginTs : r.beginTs = v.beginTs
  endTs : r.endTs = v.endTs
  isDeleted : r.isDeleted = v.isDeleted

theorem VersionChain.records (c : VersionChain) {res : VersionEntry × VersionEntry}
    {r : ReadSetEntry} (h : c.Returns res) (hr : Seen res r) : r.Records c.newest := by
  unfold Seen at hr
  rw [c.pickVisibleVersion_returns h] at hr
  unfold visible at hr
  by_cases hp : c.newest.isDeleted = true ∧ c.newest.version = 0
  · obtain ⟨hbegin, hend⟩ := c.pseudo hp.2 hp.1
    rw [if_pos hp] at hr
    obtain ⟨h1, h2, h3, h4⟩ := hr
    exact ⟨h1.trans hp.2.symm, h2.trans hbegin.symm, h3.trans hend.symm, h4.trans hp.1.symm⟩
  · rw [if_neg hp] at hr
    obtain ⟨h1, h2, h3, h4⟩ := hr
    exact ⟨h1, h2, h3, h4⟩

namespace TransactionExecution

variable {K V S : Type} {e e' : TransactionExecution K V S}

theorem internalRead_entry (h : e.internalRead = .ok e')
    (hlt : e.args.readOutsideEntry < e.keyReadSet.popIndex) :
    e'.keyReadSet.popIndex = e.keyReadSet.popIndex ∧
    e'.keyReadSet.key e.args.readOutsideEntry = some e.args.readOutsideKey ∧
    Seen (e.handlerResult .readOutside).result (e'.keyReadSet.entry e.args.readOutsideEntry) ∧
    ∀ j, j ≠ e.args.readOutsideEntry → e'.keyReadSet.get j = e.keyReadSet.get j := by
  obtain ⟨entry, hs, hk⟩ : ∃ entry, Seen (e.handlerResult .readOutside).result entry ∧
      e'.keyReadSet = (e.fillReadSet e.args.readOutsideEntry e.args.readOutsideKey
        entry).keyReadSet := by
    unfold internalRead at h
    split at h
    · cases h
    · next v hv =>
      cases h
      refine ⟨.reset v.version v.txId v.beginTs v.endTs v.isDeleted v.readRecord, ?_, ?_⟩
      · rw [Seen, hv]
        exact ⟨rfl, rfl, rfl, rfl⟩
      · split
        · rfl
        · exact (setResultRecord_frame v.readRecord).2.2.2.2.1
    · next hv =>
      cases h
      refine ⟨.reset 0 VersionEntry.kEmptyTxId 0 VersionEntry.kMaxTimeStamp true none, ?_, rfl⟩
      rw [Seen, hv]
      exact ⟨rfl, rfl, rfl, rfl⟩
  rw [hk]
  have hself : (e.fillReadSet e.args.readOutsideEntry e.args.readOutsideKey entry).keyReadSet.get
      e.args.readOutsideEntry = ⟨some e.args.readOutsideKey, entry⟩ :=
    Pool.get_modify_self _ _ hlt
  refine ⟨rfl, ?_, ?_, fun j hj => Pool.get_modify_ne _ _ hj⟩
  · rw [KeyReadSetEntryPool.key, hself]
  · rw [KeyReadSetEntryPool.entry, hself]
    exact hs

variable [DecidableEq K] [Services S]

structure ReadNewest (c : VersionChain) (n : ℕ) (e e' : TransactionExecution K V S) : Prop where
  size : e'.keyReadSet.popIndex = n + 1
  key : e'.keyReadSet.key n = some e.args.readOutsideKey
  entry : (e'.keyReadSet.entry n).Records c.newest
  other : ∀ j < n, e'.keyReadSet.get j = e.keyReadSet.get j
  null : c.newest.version = 0 → c.newest.isDeleted = true →
    e'.result = { Result.reset e.result.record with isNull := true } ∧
      (e'.keyReadSet.entry n).beginTs = 0 ∧
      (e'.keyReadSet.entry n).endTs = VersionEntry.kMaxTimeStamp
  deleted : 0 < c.newest.version → c.newest.isDeleted = true →
    e'.result = { Result.reset e.result.record with isDeleted := true }
  record : c.newest.isDeleted = false → e'.result.isDeleted = false ∧ e'.result.isNull = false ∧
    e'.result.isError = false ∧ ∀ a, c.newest.readRecord = some a →
      e'.result.record.map e'.memory = some (e.memory a)

/-- A read records the newest committed version of its key. -/
theorem read_newest (c : VersionChain) {e₀ : TransactionExecution K V S} {as : List (Action K V)}
    (hv : e₀.operationVector = []) (hp : e₀.pending = []) (hr : run step e₀.reset as = some e)
    {i : ℕ} (hi : e.operationVector.slot i = some .readOutside)
    (hf : (e.handlerResult .readOutside).isFinished = true)
    (he : (e.handlerResult .readOutside).isError = false)
    (hres : c.Returns (e.handlerResult .readOutside).result) :
    ∃ e' t reply, step e (.visit i) = some e' ∧
      Event.answered .readOutside (.getVersionList e.args.readOutsideKey t) reply ∈ e.log ∧
      reply.result = (e.handlerResult .readOutside).result ∧
      ReadNewest c e.args.readOutsideEntry e e' := by
  obtain ⟨ha, hpub, -⟩ := Published.run hv hp hr
  have hsize := ha.sound.entry i hi
  obtain ⟨n, parent, -, -, -, hread⟩ := ha.reading hi
  obtain ⟨t, reply, hans, hrep⟩ := hread.answered hf
  have hfresh := hpub.fresh (hpub.currentRequest_ne hi) (hpub.unfinished hi rfl)
  let z := e.setFlags .readOutside ⟨true, true⟩
  have hpick := c.pickVisibleVersion_returns hres
  obtain ⟨w, hw⟩ : ∃ w, z.internalRead = .ok w := by
    have hpick : pickVisibleVersion (z.handlerResult .readOutside).result = .ok c.visible := hpick
    unfold internalRead
    rw [hpick]
    cases c.visible with
    | none => exact ⟨_, rfl⟩
    | some v => exact ⟨_, rfl⟩
  have hreply : reply.isError = false := by
    rw [hrep] at he
    exact he
  have hresult : (e.handlerResult .readOutside).result = reply.result := by rw [hrep]
  obtain ⟨hpop, hkey, hseen, hother⟩ := internalRead_entry hw (hsize ▸ Nat.lt_succ_self _)
  have hret : Returned e.result.record e.memory reply w :=
    returned_of_internalRead (e := z) hfresh hresult hreply hw
  rw [Returned, if_neg (by simp [hreply]), ← hresult, hpick] at hret
  refine ⟨(w.setHasNext .readOutside false).setSlot i none, t, reply, ?_, hans, hresult.symm, ?_⟩
  · have hfin : e.isFinished .readOutside = true := hf
    have hnext : next .readOutside e = .ok (none, w.setHasNext .readOutside false) := by
      have he : ¬ (z.handlerResult .readOutside).isError = true := by
        change ¬ (e.handlerResult .readOutside).isError = true
        rw [he]
        simp
      change nextImpl .readOutside z = _
      rw [nextImpl, if_neg he, hw]
      rfl
    rw [step, visit, hi]
    dsimp only
    rw [if_pos hfin, hnext]
    rfl
  · have hrec := c.records hres hseen
    refine ⟨hpop.trans hsize.symm, hkey, hrec, fun j hj => hother j (Nat.ne_of_lt hj), ?_, ?_, ?_⟩
    · intro hz hd
      rw [show c.visible = none from if_pos ⟨hd, hz⟩] at hret
      exact ⟨hret, hrec.beginTs.trans (c.pseudo hz hd).1, hrec.endTs.trans (c.pseudo hz hd).2⟩
    · intro hz hd
      rw [show c.visible = some c.newest from if_neg fun hp => Int.ne_of_gt hz hp.2] at hret
      dsimp only at hret
      rw [if_pos hd] at hret
      exact hret
    · intro hd
      have hnd : ¬ c.newest.isDeleted = true := by simp [hd]
      rw [show c.visible = some c.newest from if_neg fun hp => hnd hp.1] at hret
      dsimp only at hret
      rw [if_neg hnd] at hret
      exact hret

def sampleChain : VersionChain where
  dirty := some { VersionEntry.blank none with version := 1, txId := 4, isDeleted := false }
  newest := samplePseudo
  older := []
  contiguous i v hv := by
    match i with
    | 0 =>
      cases hv
      rfl
    | 1 =>
      cases hv
      rfl
    | i + 2 => cases hv
  committed v hv := by
    obtain rfl := List.mem_singleton.mp hv
    decide
  uncommitted v hv := by
    cases hv
    rfl
  pseudo _ _ := ⟨rfl, rfl⟩

theorem read_newest_sample : ∃ e e' : TransactionExecution ℕ ℕ LocalServices,
    run step sampleExecution.reset [.dispatch .begin, sampleAnswer .initTxn, .visit 0, .tidy,
      .dispatch (.read ⟨"t", 1⟩ (some 7)),
      .complete .readOutside ⟨false, (sampleChain.twoNewest (.blank none)).swap, []⟩] = some e ∧
    step e (.visit 0) = some e' ∧ (e'.keyReadSet.entry 0).Records samplePseudo ∧
    e'.result = { Result.reset (some 7) with isNull := true } := by
  have h : (run step sampleExecution.reset [.dispatch .begin, sampleAnswer .initTxn, .visit 0,
      .tidy, .dispatch (.read ⟨"t", 1⟩ (some 7)),
      .complete .readOutside ⟨false, (sampleChain.twoNewest (.blank none)).swap, []⟩]).map
        (fun e => (e.operationVector.slot 0, e.handlerResult .readOutside, e.args.readOutsideEntry,
          e.result.record)) = some (some .readOutside,
            ⟨(sampleChain.twoNewest (.blank none)).swap, true, false, 0⟩, 0, some 7) := by
    decide +kernel
  obtain ⟨e, hr, h⟩ := Option.map_eq_some_iff.mp h
  simp only [Prod.mk.injEq] at h
  obtain ⟨hi, hres, hentry, hrec⟩ := h
  obtain ⟨e', -, -, hs, -, -, hnew⟩ := read_newest sampleChain rfl rfl hr hi (by rw [hres])
    (by rw [hres]) (by rw [hres]; exact ⟨.blank none, rfl, .inr rfl⟩)
  rw [hentry] at hnew
  refine ⟨e, e', hr, hs, hnew.entry, ?_⟩
  rw [(hnew.null rfl rfl).1, hrec]

end TransactionExecution

end Fugue
