import Fugue.CommitStages

namespace Fugue

namespace TransactionExecution

open ExecutionState

variable {K V S : Type} [DecidableEq K] [Services S]
variable {x : ExecutionState K V S} {gaveUp : Prop} {s : Stage} {e e' e₁ : TransactionExecution K V S}
variable {i : ℕ} {op y : Op}

section

omit [DecidableEq K] [Services S]

theorem Posted.congr (h : Posted x e) (hw : e'.keyWriteSet = e.keyWriteSet)
    (hl : e'.log = e.log) : Posted x e' := by
  intro j hj
  rw [hw, hl]
  exact h j hj

theorem Posted.issues (h : Posted x e) (hw : e'.keyWriteSet = e.keyWriteSet)
    {l : List (Op × HandlerCall K)} (hl : e'.log = e.log ++ issues l) : Posted x e' := by
  intro j hj
  rw [hw, hl, h j hj]
  refine or_congr_right ⟨fun hu => hu.mono (List.subset_append_left _ _), ?_⟩
  rintro ⟨c, r, hr, he⟩
  rcases List.mem_append.mp hr with hr | hr
  · exact ⟨c, r, hr, he⟩
  · obtain ⟨p, -, hp⟩ := List.mem_map.mp hr
    cases hp

end

theorem Pipe.leave (h : Pipe x gaveUp s e) (hi : e.operationVector.slot i = some op)
    (hm : s.member e op) (hf : e.leafIsFinished op = true) (ha : Advanced op e none e₁)
    (hs : SameSets e.toExecutionState e₁.toExecutionState)
    (hmem : ∀ z, s.member e z ↔ s.member e₁ z)
    (hfin : e₁.isTransactionFinished = e.isTransactionFinished)
    (hout : e₁.outcome s = e.outcome s) (hpost : s ≠ .upload → Posted x e₁)
    (hfacts : Facts x gaveUp (e₁.setSlot i none) s) : Pipe x gaveUp s (e₁.setSlot i none) where
  core := h.core.advance ha.log ha.pending hs fun z _ _ _ _ => ha.handlerResult z (by simp)
  stacked := (h.stacked.leave hi hm hf ha).congr hmem
  outcome := (congrArg outcomeCalls ha.log).trans (h.outcome.trans hout.symm)
  finished := by
    change e₁.isTransactionFinished = true ↔ _
    rw [hfin]
    exact h.finished
  posted := hpost
  facts := hfacts

/-- Between two stages: only the operation `o` is on the stack, and nothing is in flight. -/
structure Ready (x : ExecutionState K V S) (gaveUp : Prop) (n : ℕ) (l : List (HandlerCall K))
    (o : Option Op) (e : TransactionExecution K V S) : Prop where
  core : Core x gaveUp n e
  alone : Alone o e
  outcome : outcomeCalls e.log = l
  posted : Posted x e

theorem Pipe.ready (h : Pipe x gaveUp s e) (hi : e.operationVector.slot i = some op)
    (hp : ∀ z, s.parent = some z → z = op)
    (hm : ∀ z, s.member e z → z = op ∧ e.leafIsFinished op = true ∨ (e.flags z).moveToNext = true)
    {o : Option Op} (ha : Advanced op e o e₁) (ho : ∀ z, o = some z → s.rank < z.rank)
    (hs : SameSets e.toExecutionState e₁.toExecutionState) (hpost : Posted x e₁) :
    Ready x gaveUp s.rank (e.outcome s) o (e₁.setSlot i o) where
  core := by
    refine h.core.advance ha.log ha.pending hs fun z c r hr _ => ha.handlerResult z fun hz => ?_
    have h1 := h.core.ranked _ hr
    have h2 := ho z hz
    exact absurd h1 (Nat.not_le_of_lt h2)
  alone := h.stacked.settle hi hp hm ha
  outcome := (congrArg outcomeCalls ha.log).trans h.outcome
  posted := hpost

omit [DecidableEq K] [Services S] in
theorem Ready.quiet {n : ℕ} {l : List (HandlerCall K)} {o : Option Op}
    (h : Ready x gaveUp n l o e) (hq : Quiet e e')
    (hs : SameSets e.toExecutionState e'.toExecutionState)
    (hw : e'.keyWriteSet = e.keyWriteSet) : Ready x gaveUp n l o e' := by
  have hl : e'.log = e.log := by rw [hq]
  have hp : e'.pending = e.pending := by rw [hq]
  have hr : e'.handlerResult = e.handlerResult := by rw [hq]
  exact ⟨h.core.advance hl hp hs fun z _ _ _ _ => by rw [hr], hq.alone h.alone,
    hl ▸ h.outcome, h.posted.congr hw hl⟩

omit [DecidableEq K] [Services S] in
theorem issue_moveToNext (z : TransactionExecution K V S) (y : Op) (c : HandlerCall K) :
    (((z.setMoveToNext y false).issue y c).flags y).moveToNext = false := by
  simp [TransactionExecution.issue, setMoveToNext, setFlags]

theorem Ready.issue {n : ℕ} {l : List (HandlerCall K)} {c : HandlerCall K}
    (h : Ready x gaveUp n l (some y) e) (hf : e.leafIsFinished y = false)
    (hc : CallOk x e.log gaveUp y c) (hn : n < s.rank) (hy : y.rank = s.rank)
    (hpar : s.parent = none)
    (hmem : ∀ z, z = y ↔ s.member ((e.setMoveToNext y false).issue y c) z)
    (hfin : e.isTransactionFinished = true ↔ s = .committed ∨ s = .aborted)
    (hout : l ++ [c].filter HandlerCall.isOutcome =
      ((e.setMoveToNext y false).issue y c).outcome s)
    (hfacts : Facts x gaveUp ((e.setMoveToNext y false).issue y c) s) :
    Pipe x gaveUp s ((e.setMoveToNext y false).issue y c) where
  core := h.core.issue hc (h.core.not_issued (hy ▸ hn)) (Nat.le_of_lt hn) (Nat.le_of_eq hy)
  stacked := hpar ▸ (h.alone.issue hf c).congr hmem
  outcome := by
    rw [← hout, ← h.outcome]
    exact (outcomeCalls_append e.log [.issued y c]).trans (by simp [outcomeCalls, issuedCalls])
  finished := hfin
  posted _ := h.posted.issues (l := [(y, c)]) rfl rfl
  facts := hfacts

theorem Ready.family {F : Family K V S} {n : ℕ} {l : List (HandlerCall K)}
    (h : Ready x gaveUp n l (some F.parent) e) (hn : n < s.rank)
    (hy : ∀ j, (F.child j).rank = s.rank) (hpar : s.parent = some F.parent)
    (hmem : Invoked F (F.index e.args) (e.setMoveToNext F.parent false) (call F.parent e) →
      ∀ z, F.member (call F.parent e) z ↔ s.member (call F.parent e) z)
    (hc : ∀ j index k, (F.index e.args)[j]? = some index →
      F.request e.toExecutionState index = some k →
      ∀ log', e.log ⊆ log' → CallOk x log' gaveUp (F.child j) k)
    (hfin : e.isTransactionFinished = true ↔ s = .committed ∨ s = .aborted)
    (hout : Invoked F (F.index e.args) (e.setMoveToNext F.parent false) (call F.parent e) →
      l ++ ((F.index e.args).filterMap (F.request e.toExecutionState)).filter
        HandlerCall.isOutcome = (call F.parent e).outcome s)
    (hfacts : Invoked F (F.index e.args) (e.setMoveToNext F.parent false) (call F.parent e) →
      Facts x gaveUp (call F.parent e) s) : Pipe x gaveUp s (call F.parent e) := by
  obtain ⟨hi, hst⟩ := h.alone.call_family
  have hl : (call F.parent e).log =
      e.log ++ issues (calls F.child F.request e.toExecutionState (F.index e.args)) := hi.log
  refine ⟨h.core.invoked hi hn hy ?_, ?_, ?_, ?_, ?_, hfacts hi⟩
  · intro q hq log' hlog
    obtain ⟨j, index, hj, hqj, hr⟩ := mem_calls.mp hq
    rw [hqj]
    exact hc j index q.2 hj hr log' hlog
  · rw [hpar]
    refine hst.congr fun z => ?_
    rw [← hmem hi, Family.member, hi.index]
    rfl
  · rw [hl, outcomeCalls_append, outcomeCalls_issues, calls_snd, h.outcome]
    exact hout hi
  · rw [hi.data]
    exact hfin
  · exact fun _ => h.posted.issues (by rw [hi.data]; rfl) hl

theorem Pipe.reply (h : Pipe x gaveUp s e) (op : Op) (hm : s.member e op) (hf : e.leafIsFinished op = true)
    (hop : 0 < op.rank) : ∃ c r, Event.answered op c r ∈ e.log ∧
      e.handlerResult op = ⟨r.result, true, r.isError, 0⟩ := by
  obtain ⟨c, r, hr⟩ := h.stacked.finished_answered op hm hf
  exact ⟨c, r, hr, h.core.agree op c r hr hop⟩

omit [DecidableEq K] [Services S] in
theorem UploadFacts.posted (h : UploadFacts x e) (hc : Core x gaveUp 1 e)
    (hm : ∀ j < x.keyWriteSet.popIndex, (e.flags (.uploadVersionEntry j)).moveToNext = true) :
    Posted x e := by
  intro j hj
  rcases h.moved j hj (hm j hj) with ⟨⟨c, r, hr, he, -⟩, hp⟩ | ⟨⟨c, r, hr, he⟩, -, hp⟩
  · exact ⟨fun _ => .inr ⟨c, r, hr, he⟩, fun _ => hp⟩
  · rw [hp]
    refine ⟨.inl, fun hu => hu.resolve_right ?_⟩
    rintro ⟨c', r', hr', he'⟩
    have := (hc.reply_unique (by simp [Op.rank]) hr hr').2
    rw [he, he'] at this
    cases this

theorem Pipe.leave_upload (h : Pipe x gaveUp .upload e) {j : ℕ}
    (hj : j < x.keyWriteSet.popIndex) (hi : e.operationVector.slot i = some (.uploadVersionEntry j))
    (hmv : (e.flags (.uploadVersionEntry j)).moveToNext = false)
    (hf : e.leafIsFinished (.uploadVersionEntry j) = true) {o : Option Op}
    (hn : next (.uploadVersionEntry j) e = .ok (o, e₁)) :
    o = none ∧ Pipe x gaveUp .upload (e₁.setSlot i none) := by
  have hfacts : UploadFacts x e := h.facts
  have hm : Stage.upload.member e (.uploadVersionEntry j) :=
    ⟨j, by rw [← hfacts.size] at hj; simpa [uploadFamily] using hj, rfl⟩
  have ha := next_advanced hn
  obtain ⟨c, r, hr, hres⟩ := h.reply _ hm hf (by simp [Op.rank])
  have hentry := hfacts.entry j hj
  have hflag : ∀ l, l ≠ j → e₁.flags (.uploadVersionEntry l) = e.flags (.uploadVersionEntry l) := by
    intro l hl
    rw [ha.flags, Function.update_of_ne (by simpa using hl)]
  have hflagj : (e₁.flags (.uploadVersionEntry j)).moveToNext = true := by
    rw [ha.flags, Function.update_self]
  simp only [next, nextImpl, uploadVersionEntryNext] at hn
  rw [show (e.setFlags (.uploadVersionEntry j) ⟨true, true⟩).handlerResult = e.handlerResult from rfl,
    hres] at hn
  split at hn
  · next he =>
    cases hn
    have hu : UploadFailed e.log j := ⟨c, r, hr, he⟩
    refine ⟨rfl, h.leave hi hm hf ha (.of_eq rfl rfl rfl) (fun _ => Iff.rfl) rfl rfl (by simp) ?_⟩
    refine ⟨hfacts.size, hfacts.entry, .inr ⟨rfl, j, hj, hu⟩, ?_, ?_⟩
    · intro l hl hml
      by_cases hlj : l = j
      · subst hlj
        cases hml.symm.trans hflagj
      · exact hfacts.waiting l hl ((congrArg _ (hflag l hlj)).symm.trans hml)
    · intro l hl hml
      by_cases hlj : l = j
      · subst hlj
        exact .inr ⟨hu, rfl, hfacts.waiting l hl hmv⟩
      · rcases hfacts.moved l hl ((congrArg _ (hflag l hlj)).symm.trans hml) with
          huploaded | ⟨h1, -, h3⟩
        · exact .inl huploaded
        · exact .inr ⟨h1, rfl, h3⟩
  · next he =>
    cases hn
    have he' : r.isError = false := by simpa using he
    have hpop : e.keyWriteSet.popIndex = x.keyWriteSet.popIndex := h.core.sets.writeSize
    have hneed : ∀ l < x.keyWriteSet.popIndex,
        ((e.keyWriteSet.setPostProcessing (e.args.uploadEntry j)).entry l).needPostProcessing =
          if l = j then true else (e.keyWriteSet.entry l).needPostProcessing := by
      intro l hl
      rw [needPostProcessing_set (hpop.symm ▸ hl), hentry]
    refine ⟨rfl, h.leave hi hm hf ha (.setPostProcessing _ rfl rfl rfl) (fun _ => Iff.rfl) rfl rfl
      (by simp) ?_⟩
    refine ⟨hfacts.size, hfacts.entry, hfacts.status, ?_, ?_⟩
    · intro l hl hml
      by_cases hlj : l = j
      · subst hlj
        cases hml.symm.trans hflagj
      · refine (hneed l hl).trans ?_
        rw [if_neg hlj]
        exact hfacts.waiting l hl ((congrArg _ (hflag l hlj)).symm.trans hml)
    · intro l hl hml
      by_cases hlj : l = j
      · subst hlj
        exact .inl ⟨⟨c, r, hr, he', Int.le_max_right e.maxCommitTimestampOfWriters (r.result : ℤ)⟩, (hneed l hl).trans (if_pos rfl)⟩
      · rcases hfacts.moved l hl ((congrArg _ (hflag l hlj)).symm.trans hml) with
          ⟨⟨c', r', hr', he', hle⟩, hp⟩ | ⟨h1, h2, h3⟩
        · refine .inl ⟨⟨c', r', hr', he', Int.le_trans hle (Int.le_max_left e.maxCommitTimestampOfWriters (r.result : ℤ))⟩, (hneed l hl).trans ?_⟩
          rw [if_neg hlj, hp]
        · refine .inr ⟨h1, h2, (hneed l hl).trans ?_⟩
          rw [if_neg hlj, h3]

theorem Pipe.rest (h : Pipe x gaveUp s e) (hi : e.operationVector.slot i = some op)
    (hp : ∀ z, s.parent = some z → z = op)
    (hm : ∀ z, s.member e z → z = op ∧ e.leafIsFinished op = true ∨ (e.flags z).moveToNext = true)
    (ha : Advanced op e none e₁) (hs : SameSets e.toExecutionState e₁.toExecutionState)
    (hpost : Posted x e₁) {s' : Stage} (hr : s.rank ≤ s'.rank) (hpar : s'.parent = none)
    (hmem : ∀ z, ¬ s'.member (e₁.setSlot i none) z) (hout : e₁.outcome s' = e.outcome s)
    (hfin : e₁.isTransactionFinished = true ↔ s' = .committed ∨ s' = .aborted)
    (hfacts : Facts x gaveUp (e₁.setSlot i none) s') : Pipe x gaveUp s' (e₁.setSlot i none) := by
  have hb := h.ready hi hp hm ha (fun z hz => by cases hz) hs hpost
  refine ⟨hb.core.mono hr, ?_, hb.outcome.trans hout.symm, hfin, fun _ => hb.posted, hfacts⟩
  rw [hpar]
  exact Stacked.of_alone hb.alone hmem

omit [DecidableEq K] [Services S] in
theorem setSlot_ne_nil {j : ℕ} {o : Option Op} (hi : e.operationVector.slot j = some op)
    (he : e₁.operationVector = e.operationVector) : (e₁.setSlot i o).operationVector ≠ [] := by
  have hl := Slots.lt_length_of_slot hi
  intro hnil
  have hlen : (e₁.operationVector.setSlot i o).length = 0 := congrArg List.length hnil
  rw [he, Slots.setSlot, List.length_set] at hlen
  omega

omit [Services S] [DecidableEq K] in
theorem le_foldl_max (f : ℕ → ℤ) (l : List ℕ) (a : ℤ) :
    a ≤ l.foldl (fun m i => max m (f i)) a ∧ ∀ j ∈ l, f j ≤ l.foldl (fun m i => max m (f i)) a := by
  induction l generalizing a with
  | nil => simp
  | cons b l ih =>
    obtain ⟨h1, h2⟩ := ih (max a (f b))
    refine ⟨by simp only [List.foldl_cons]; omega, fun j hj => ?_⟩
    simp only [List.foldl_cons]
    rcases List.mem_cons.mp hj with rfl | hj
    · omega
    · exact h2 j hj

omit [Services S] in
theorem proposedCommitTs_eq : e.proposedCommitTs = (List.range e.keyReadSet.popIndex).foldl
    (fun m j => max m (if ((e.keyReadSet.key j).bind e.findInWriteSet).isSome then
      (e.keyReadSet.entry j).beginTs + 1 else (e.keyReadSet.entry j).beginTs))
    (max (e.maxCommitTimestampOfWriters + 1) e.commitTimestampLocal) := by
  unfold proposedCommitTs
  congr 1
  funext m j
  split <;> rfl

omit [Services S] in
theorem proposedCommitTs_bounds : max (e.maxCommitTimestampOfWriters + 1) e.commitTimestampLocal ≤
      e.proposedCommitTs ∧ ∀ j ∈ List.range e.keyReadSet.popIndex,
    (if ((e.keyReadSet.key j).bind e.findInWriteSet).isSome then (e.keyReadSet.entry j).beginTs + 1
      else (e.keyReadSet.entry j).beginTs) ≤ e.proposedCommitTs := by
  rw [proposedCommitTs_eq]
  exact le_foldl_max _ _ _

omit [Services S] in
theorem proposedCommitTs_proposed {log : List (Event K V)}
    (hs : SameSets x e.toExecutionState)
    (hw : ∀ j c r, Event.answered (.uploadVersionEntry j) c r ∈ log → r.isError = false →
      (r.result : ℤ) ≤ e.maxCommitTimestampOfWriters) :
    Proposed x log e.proposedCommitTs := by
  obtain ⟨h1, h2⟩ := proposedCommitTs_bounds (e := e)
  constructor
  · intro j c r hr he
    have hle : (r.result : ℤ) ≤ e.maxCommitTimestampOfWriters := hw j c r hr he
    have hmax := Int.le_max_left (e.maxCommitTimestampOfWriters + 1) e.commitTimestampLocal
    exact Int.le_trans (Int.add_le_add_right hle 1) (Int.le_trans hmax h1)
  · intro j hj
    have hb := h2 j (List.mem_range.mpr (hs.readSize ▸ hj))
    rw [hs.beginTs, hs.readKey] at hb
    refine ⟨by split at hb <;> omega, fun k hk l hl hkl => ?_⟩
    have hfind : e.findInWriteSet k ≠ none := by
      intro hnone
      have := Pool.find_eq_none.mp hnone l (hs.writeSize.symm ▸ hl)
      have hkey : (e.keyWriteSet.get l).key = some k := (hs.writeKey l).trans hkl
      simp [hkey] at this
    rw [hk, Option.bind_some, if_pos (Option.isSome_iff_ne_none.mpr hfind)] at hb
    exact hb

theorem Ready.call_setCommitTs {n : ℕ} (h : Ready x gaveUp n [] (some .setCommitTs) e) (hn : n < 2)
    (hst : e.status = .ongoing) (hunf : e.isTransactionFinished = false)
    (hres : (e.handlerResult .setCommitTs).isFinished = false) (hup : AllUploaded x e.log)
    (hw : ∀ j c r, Event.answered (.uploadVersionEntry j) c r ∈ e.log → r.isError = false →
      (r.result : ℤ) ≤ e.maxCommitTimestampOfWriters) :
    Pipe x gaveUp .timestamp (call .setCommitTs e) := by
  let z := e.resetTime.setCommitTs e.resetTime.proposedCommitTs
  have hz : Ready x gaveUp n [] (some .setCommitTs) z := h.quiet rfl (.of_eq rfl rfl rfl) rfl
  have hcall : CallOk x z.log gaveUp .setCommitTs (.setCommitTimestamp z.txnId z.commitTimestamp) :=
    ⟨hup, z.commitTimestamp, proposedCommitTs_proposed (h.core.sets.trans (.of_eq rfl rfl rfl)) hw,
      by rw [hz.core.sets.txnId]⟩
  refine hz.issue (s := .timestamp) hres hcall hn rfl rfl (fun _ => Iff.rfl) ?_ rfl
    ⟨hst, hup.mono (List.subset_append_left _ _), issue_moveToNext _ _ _⟩
  exact ⟨fun hc => absurd (hunf.symm.trans hc) (by simp), by simp⟩

theorem Pipe.upload_finished (h : Pipe x gaveUp .upload e)
    (hi : e.operationVector.slot i = some .upload) (hf : e.isFinished .upload = true)
    {o : Option Op} (hn : next .upload e = .ok (o, e₁)) :
    o = none ∧ Pipe x gaveUp .failing (e₁.setSlot i none) ∨
      ∃ y, o = some y ∧ Pipe x gaveUp .timestamp (call y (e₁.setSlot i (some y))) := by
  have hfacts : UploadFacts x e := h.facts
  have ha := next_advanced hn
  have hmv : ∀ j < x.keyWriteSet.popIndex, (e.flags (.uploadVersionEntry j)).moveToNext = true := by
    intro j hj
    have hc := uploadFamily.isFinished_parent.mp hf j (by
      rw [← hfacts.size] at hj; simpa [uploadFamily] using hj)
    exact (Bool.and_eq_true_iff.mp hc).2
  have hm : ∀ z, Stage.upload.member e z →
      z = .upload ∧ e.leafIsFinished .upload = true ∨ (e.flags z).moveToNext = true := by
    rintro z ⟨j, hj, rfl⟩
    refine .inr (hmv j ?_)
    rw [← hfacts.size]
    simpa [uploadFamily] using hj
  have hp : ∀ z, Stage.upload.parent = some z → z = .upload := by simp [Stage.parent]
  have hposted : Posted x e := hfacts.posted h.core hmv
  have hunf : e.isTransactionFinished = false := by simpa using h.finished
  simp only [next, nextImpl] at hn
  split at hn
  · next hw =>
    obtain ⟨hs, j, hj, hu⟩ : e.status = .waitForAborting ∧
        ∃ j < x.keyWriteSet.popIndex, UploadFailed e.log j := by
      refine hfacts.status.resolve_left fun hs => ?_
      have hw' : e.status = .waitForAborting := hw
      rw [hs] at hw'
      cases hw'
    cases hn
    refine .inl ⟨rfl, h.rest hi hp hm ha (.of_eq rfl rfl rfl) hposted ?_ rfl (fun z => id) rfl ?_ ?_⟩
    · simp [Stage.rank]
    · exact ⟨fun hc => absurd (hunf.symm.trans hc) (by simp), by simp⟩
    · exact ⟨rfl, .inl ⟨j, hj, hu⟩, setSlot_ne_nil hi rfl⟩
  · next hw =>
    have hs : e.status = .ongoing := hfacts.status.resolve_right fun hs => hw hs.1
    have hall : ∀ j < x.keyWriteSet.popIndex, ∃ c r,
        Event.answered (.uploadVersionEntry j) c r ∈ e.log ∧ r.isError = false ∧
          (r.result : ℤ) ≤ e.maxCommitTimestampOfWriters := by
      intro j hj
      rcases hfacts.moved j hj (hmv j hj) with ⟨hu, -⟩ | ⟨-, hw', -⟩
      · exact hu
      · exact absurd hw' hw
    cases hn
    refine .inr ⟨_, rfl, ?_⟩
    refine (h.ready hi hp hm ha (by simp [Op.rank, Stage.rank]) (.of_eq rfl rfl rfl)
      hposted).call_setCommitTs (Nat.lt_succ_self 1) hs hunf ?_ (fun j hj => ?_) ?_
    · simp [setSlot, resetResult, setHandlerResult]
    · obtain ⟨c, r, hr, he, -⟩ := hall j hj
      exact ⟨c, r, hr, he⟩
    · intro j c r hr he
      obtain ⟨pre, -, hj, -⟩ := h.core.callOk (h.core.issued_of_answered hr)
      obtain ⟨c', r', hr', he', hle⟩ := hall j hj
      rw [(h.core.reply_unique (by simp [Op.rank]) hr hr').1]
      exact hle

theorem Ready.call_validate {n : ℕ} (h : Ready x gaveUp n [] (some .validate) e) (hn : n ≤ 2)
    (hst : e.status = .ongoing) (hunf : e.isTransactionFinished = false)
    (hup : AllUploaded x e.log) (hts : Timestamped e.log e.commitTimestamp)
    (hidx : e.args.validateIndex = x.unupdated) : Pipe x gaveUp .validate (call .validate e) := by
  have hpush : ∀ ev ∈ e.log, ∀ j, ev.op ≠ .pushConflictTxnCommitTsLowerBound j := by
    intro ev hev j hop
    have := h.core.ranked ev hev
    rw [hop] at this
    exact absurd (this.trans hn) (by simp [Op.rank])
  have hflag : ∀ e', Invoked validateFamily x.unupdated (e.setMoveToNext .validate false) e' →
      ∀ j < x.unupdated.length, (e'.flags (.updateReadEntryMaxCommitTs j)).moveToNext = false :=
    fun e' hi => hi.flags_child
  refine h.family (F := validateFamily) (s := .validate) (Nat.lt_succ_of_le hn) (fun _ => rfl) rfl
    ?_ ?_ ?_ ?_ ?_
  · intro hi z
    refine ⟨.inl, fun hz => hz.resolve_right ?_⟩
    rintro ⟨j, hj, -, hfl⟩
    have := hi.flags_child j (hi.index ▸ hj)
    rw [show validateFamily.child j = .updateReadEntryMaxCommitTs j from rfl, hfl] at this
    cases this
  · intro j index k hj hk log' hlog
    obtain ⟨key, hkey, rfl⟩ := Option.map_eq_some_iff.mp hk
    refine ⟨hup.mono hlog, e.commitTimestamp, index, key, hts.mono hlog, hidx ▸ hj, ?_, ?_⟩
    · exact (h.core.sets.readKey index).symm.trans hkey
    · rw [← h.core.sets.readVersion]
  · exact ⟨fun hc => absurd (hunf.symm.trans hc) (by simp), by simp⟩
  · intro hi
    refine List.filter_eq_nil_iff.mpr fun k hk => ?_
    obtain ⟨j, -, hj⟩ := List.mem_filterMap.mp hk
    obtain ⟨key, -, rfl⟩ := Option.map_eq_some_iff.mp hj
    simp [HandlerCall.isOutcome]
  · intro hi
    change Invoked validateFamily e.args.validateIndex (e.setMoveToNext .validate false)
      (call .validate e) at hi
    change ValidateFacts x (call .validate e)
    have hl : e.log ⊆ (call .validate e).log := hi.log_subset
    have hc : (call .validate e).commitTimestamp = e.commitTimestamp := by rw [hi.data]; rfl
    have hmv : ∀ j < x.unupdated.length,
        ((call .validate e).flags (.updateReadEntryMaxCommitTs j)).moveToNext = false :=
      hflag _ (hidx ▸ hi)
    refine ⟨hup.mono hl, hc ▸ hts.mono hl, hi.index.trans hidx, .inl ?_, ?_, ?_, ?_⟩
    · rw [hi.data]
      exact hst
    · intro ev hev j hop
      rw [hi.log] at hev
      rcases List.mem_append.mp hev with hev | hev
      · exact absurd hop (hpush ev hev j)
      · obtain ⟨p, hp, rfl⟩ := List.mem_map.mp hev
        obtain ⟨l, index, -, hpl, -⟩ := mem_calls.mp hp
        exact absurd (hpl.symm.trans hop) (by simp [validateFamily])
    · intro j hj hfl
      exact absurd (hmv j hj) (by simp [hfl])
    · intro j hj hfl
      exact absurd (hmv j hj) (by simp [hfl])

theorem Pipe.timestamp_finished (h : Pipe x gaveUp .timestamp e)
    (hi : e.operationVector.slot i = some .setCommitTs) (hf : e.isFinished .setCommitTs = true)
    {o : Option Op} (hn : next .setCommitTs e = .ok (o, e₁)) :
    o = none ∧ Pipe x gaveUp .failing (e₁.setSlot i none) ∨
      ∃ y, o = some y ∧ Pipe x gaveUp .validate (call y (e₁.setSlot i (some y))) := by
  obtain ⟨hst, hup, -⟩ := h.facts
  have ha := next_advanced hn
  obtain ⟨c, r, hr, hres⟩ := h.reply .setCommitTs rfl hf (by simp [Op.rank])
  have hm : ∀ z, Stage.timestamp.member e z →
      z = .setCommitTs ∧ e.leafIsFinished .setCommitTs = true ∨ (e.flags z).moveToNext = true :=
    fun z hz => .inl ⟨hz, hf⟩
  have hp : ∀ z, Stage.timestamp.parent = some z → z = .setCommitTs := by simp [Stage.parent]
  have hposted : Posted x e := h.posted (by simp)
  have hunf : e.isTransactionFinished = false := by simpa using h.finished
  simp only [next, nextImpl] at hn
  rw [show (e.setFlags .setCommitTs ⟨true, true⟩).handlerResult = e.handlerResult from rfl,
    hres] at hn
  split at hn
  · next he =>
    cases hn
    refine .inl ⟨rfl, h.rest hi hp hm ha (.of_eq rfl rfl rfl) hposted ?_ rfl (fun z => id) rfl ?_ ?_⟩
    · simp [Stage.rank]
    · exact ⟨fun hc => absurd (hunf.symm.trans hc) (by simp), by simp⟩
    · exact ⟨rfl, .inr ⟨hup, .inl ⟨c, r, hr, he⟩⟩, setSlot_ne_nil hi rfl⟩
  · next he =>
    obtain ⟨he, hts⟩ := not_or.mp he
    have hts : Timestamped e.log r.result :=
      ⟨c, r, hr, by simpa using he, rfl, Int.not_lt.mp hts⟩
    cases hn
    refine .inr ⟨_, rfl, (h.ready hi hp hm ha (by simp [Op.rank, Stage.rank]) (.of_eq rfl rfl rfl)
      hposted).call_validate (Nat.le_refl 2) hst hunf hup hts ?_⟩
    exact h.core.sets.unupdated

namespace ValidateFacts

variable {j : ℕ}

omit [DecidableEq K] [Services S]

theorem leave_reread (h : ValidateFacts x e) (hj : j < x.unupdated.length)
    (hl : e'.log = e.log) (hidx : e'.args.validateIndex = e.args.validateIndex)
    (hc : e'.commitTimestamp = e.commitTimestamp)
    (hf : e'.flags = Function.update e.flags (.updateReadEntryMaxCommitTs j) ⟨true, false⟩)
    (hv : Accepted e.log e.commitTimestamp j ∧ e'.status = e.status ∨
      Rejected e.log e.commitTimestamp j ∧ e'.status = .waitForAborting) : ValidateFacts x e' := by
  have hother : ∀ l, l ≠ j →
      e'.flags (.updateReadEntryMaxCommitTs l) = e.flags (.updateReadEntryMaxCommitTs l) := by
    intro l hlj
    rw [hf, Function.update_of_ne (by simpa using hlj)]
  have hself : e'.flags (.updateReadEntryMaxCommitTs j) = ⟨true, false⟩ := by
    rw [hf, Function.update_self]
  have hwait : e.status = .waitForAborting → e'.status = .waitForAborting :=
    fun hs => hv.elim (fun hv => hv.2.trans hs) And.right
  refine ⟨hl ▸ h.uploaded, by rw [hl, hc]; exact h.timestamped, hidx.trans h.index, ?_, ?_, ?_, ?_⟩
  · rw [hl, hc]
    rcases hv with ⟨-, hs⟩ | ⟨hr, hs⟩
    · rw [hs]
      exact h.status
    · exact .inr ⟨hs, j, hj, hr⟩
  · intro ev hev l hop
    by_cases hlj : l = j
    · rw [hlj, hself]
    · rw [hother l hlj]
      exact h.push ev (hl ▸ hev) l hop
  · intro l hl' hfl
    rw [hl, hc]
    by_cases hlj : l = j
    · subst hlj
      exact hv.imp And.left id
    · exact (h.direct l hl' ((hother l hlj).symm.trans hfl)).imp_right fun ⟨hr, hs⟩ => ⟨hr, hwait hs⟩
  · intro l hl' hfl
    by_cases hlj : l = j
    · subst hlj
      rw [hself] at hfl
      cases hfl
    · obtain ⟨h1, h2⟩ := h.locked l hl' ((hother l hlj).symm.trans hfl)
      rw [hl, hc]
      refine ⟨h1, fun hm => (h2 ?_).imp_right fun ⟨hr, hs⟩ => ⟨hr, hwait hs⟩⟩
      rwa [hf, Function.update_of_ne (by simp)] at hm

theorem leave_push (h : ValidateFacts x e) (hj : j < x.unupdated.length)
    (hlock : e.flags (.updateReadEntryMaxCommitTs j) = ⟨true, true⟩)
    (hl : e'.log = e.log) (hidx : e'.args.validateIndex = e.args.validateIndex)
    (hc : e'.commitTimestamp = e.commitTimestamp)
    (hf : e'.flags = Function.update e.flags (.pushConflictTxnCommitTsLowerBound j) ⟨true, false⟩)
    (hv : Pushed e.log e.commitTimestamp j ∧ e'.status = e.status ∨
      PushFailed e.log e.commitTimestamp j ∧ e'.status = .waitForAborting) :
    ValidateFacts x e' := by
  have hother : ∀ l,
      e'.flags (.updateReadEntryMaxCommitTs l) = e.flags (.updateReadEntryMaxCommitTs l) := by
    intro l
    rw [hf, Function.update_of_ne (by simp)]
  have hwait : e.status = .waitForAborting → e'.status = .waitForAborting :=
    fun hs => hv.elim (fun hv => hv.2.trans hs) And.right
  refine ⟨hl ▸ h.uploaded, by rw [hl, hc]; exact h.timestamped, hidx.trans h.index, ?_, ?_, ?_, ?_⟩
  · rw [hl, hc]
    rcases hv with ⟨-, hs⟩ | ⟨hp, hs⟩
    · rw [hs]
      exact h.status
    · obtain ⟨⟨c, r, hr, -, hid⟩, -⟩ := h.locked j hj hlock
      exact .inr ⟨hs, j, hj, c, r, hr, .inr ⟨hid, hp⟩⟩
  · intro ev hev l hop
    rw [hother]
    exact h.push ev (hl ▸ hev) l hop
  · intro l hl' hfl
    rw [hl, hc]
    exact (h.direct l hl' ((hother l).symm.trans hfl)).imp_right fun ⟨hr, hs⟩ => ⟨hr, hwait hs⟩
  · intro l hl' hfl
    obtain ⟨h1, h2⟩ := h.locked l hl' ((hother l).symm.trans hfl)
    rw [hl, hc]
    refine ⟨h1, fun hm => ?_⟩
    by_cases hlj : l = j
    · subst hlj
      exact hv.imp And.left id
    · refine (h2 ?_).imp_right fun ⟨hr, hs⟩ => ⟨hr, hwait hs⟩
      rwa [hf, Function.update_of_ne (by simpa using hlj)] at hm

theorem issue_push (h : ValidateFacts x e) (hmv : (e.flags (.updateReadEntryMaxCommitTs j)).moveToNext = false)
    {c c' : HandlerCall K} {r : Reply V (.updateReadEntryMaxCommitTs j)}
    (hr : Event.answered (.updateReadEntryMaxCommitTs j) c r ∈ e.log)
    (hread : Reread e.commitTimestamp r.isError r.result)
    (hid : r.result.txId ≠ VersionEntry.kEmptyTxId)
    (hl : e'.log = e.log ++ [.issued (.pushConflictTxnCommitTsLowerBound j) c'])
    (hidx : e'.args.validateIndex = e.args.validateIndex)
    (hc : e'.commitTimestamp = e.commitTimestamp) (hs : e'.status = e.status)
    {f : OperationFlags} (hfm : f.moveToNext = false)
    (hf : e'.flags = Function.update (Function.update e.flags (.updateReadEntryMaxCommitTs j)
      ⟨true, true⟩) (.pushConflictTxnCommitTsLowerBound j) f) : ValidateFacts x e' := by
  have hsub : e.log ⊆ e'.log := hl ▸ List.subset_append_left _ _
  have hother : ∀ l, l ≠ j →
      e'.flags (.updateReadEntryMaxCommitTs l) = e.flags (.updateReadEntryMaxCommitTs l) := by
    intro l hlj
    rw [hf, Function.update_of_ne (by simp), Function.update_of_ne (by simpa using hlj)]
  have hself : e'.flags (.updateReadEntryMaxCommitTs j) = ⟨true, true⟩ := by
    rw [hf, Function.update_of_ne (by simp), Function.update_self]
  refine ⟨h.uploaded.mono hsub, by rw [hc]; exact h.timestamped.mono hsub, hidx.trans h.index,
    ?_, ?_, ?_, ?_⟩
  · rw [hs, hc]
    exact h.status.imp_right fun ⟨hs, l, hl', hr⟩ => ⟨hs, l, hl', hr.mono hsub⟩
  · intro ev hev l hop
    by_cases hlj : l = j
    · rw [hlj, hself]
    · rw [hother l hlj]
      rw [hl] at hev
      rcases List.mem_append.mp hev with hev | hev
      · exact h.push ev hev l hop
      · obtain rfl := List.mem_singleton.mp hev
        exact absurd (Op.pushConflictTxnCommitTsLowerBound.inj hop).symm hlj
  · intro l hl' hfl
    rw [hc, hs]
    by_cases hlj : l = j
    · rw [hlj, hself] at hfl
      cases hfl
    · exact (h.direct l hl' ((hother l hlj).symm.trans hfl)).imp (fun ha => ha.mono hsub)
        fun ⟨hr, hs⟩ => ⟨hr.mono hsub, hs⟩
  · intro l hl' hfl
    rw [hc, hs]
    by_cases hlj : l = j
    · subst hlj
      refine ⟨⟨c, r, hsub hr, hread, hid⟩, fun hm => ?_⟩
      rw [hf, Function.update_self, hfm] at hm
      cases hm
    · obtain ⟨⟨c'', r'', hr'', h1⟩, h2⟩ := h.locked l hl' ((hother l hlj).symm.trans hfl)
      refine ⟨⟨c'', r'', hsub hr'', h1⟩, fun hm => ?_⟩
      rw [hf, Function.update_of_ne (by simpa using hlj), Function.update_of_ne (by simp)] at hm
      exact (h2 hm).imp (fun ha => ha.mono hsub) fun ⟨hr, hs⟩ => ⟨hr.mono hsub, hs⟩

end ValidateFacts

omit [DecidableEq K] [Services S] in
theorem Advanced.flags_of_ne {o : Option Op} (ha : Advanced op e o e₁) {z : Op} (hz : z ≠ op) :
    e₁.flags z = e.flags z := by
  rw [ha.flags, Function.update_of_ne hz]

theorem next_reread {j : ℕ} {o : Option Op} {r : Reply V (.updateReadEntryMaxCommitTs j)}
    (hres : e.handlerResult (.updateReadEntryMaxCommitTs j) = ⟨r.result, true, r.isError, 0⟩)
    (hn : next (.updateReadEntryMaxCommitTs j) e = .ok (o, e₁)) :
    SameSets e.toExecutionState e₁.toExecutionState ∧ e₁.keyWriteSet = e.keyWriteSet ∧
    e₁.commitTimestamp = e.commitTimestamp ∧
    e₁.isTransactionFinished = e.isTransactionFinished ∧
    e₁.args.validateIndex = e.args.validateIndex ∧
    (o = none ∧ ¬ Reread e.commitTimestamp r.isError r.result ∧ e₁.status = .waitForAborting ∨
      Reread e.commitTimestamp r.isError r.result ∧ e₁.status = e.status ∧
        (o = none ∧ r.result.txId = VersionEntry.kEmptyTxId ∨
          o = some (.pushConflictTxnCommitTsLowerBound j) ∧
            r.result.txId ≠ VersionEntry.kEmptyTxId ∧ e₁.args.pushTxnId j = r.result.txId ∧
            (e₁.handlerResult (.pushConflictTxnCommitTsLowerBound j)).isFinished = false)) := by
  simp only [next, nextImpl, updateReadEntryMaxCommitTsNext] at hn
  rw [show (e.setFlags (.updateReadEntryMaxCommitTs j) ⟨true, true⟩).handlerResult =
    e.handlerResult from rfl, hres] at hn
  split at hn
  · next he =>
    cases hn
    refine ⟨.of_eq rfl rfl rfl, rfl, rfl, rfl, rfl, .inl ⟨rfl, fun hr => ?_, rfl⟩⟩
    exact absurd (hr.1.symm.trans he) (by simp)
  · next he =>
    split at hn
    · next hv =>
      cases hn
      exact ⟨.clearRelease _ rfl rfl rfl, rfl, rfl, rfl, rfl, .inl ⟨rfl, fun hr => hr.2.1 hv, rfl⟩⟩
    · next hv =>
      split at hn
      · cases hn
      · split at hn
        · next hts =>
          cases hn
          exact ⟨.clearRelease _ rfl rfl rfl, rfl, rfl, rfl, rfl,
            .inl ⟨rfl, fun hr => Int.not_lt.mpr hr.2.2 hts, rfl⟩⟩
        · next hts =>
          have hread : Reread e.commitTimestamp r.isError r.result :=
            ⟨by simpa using he, hv, Int.not_lt.mp hts⟩
          split at hn
          · next hid =>
            cases hn
            refine ⟨.clearRelease _ rfl rfl rfl, rfl, rfl, rfl, rfl,
              .inr ⟨hread, rfl, .inr ⟨rfl, hid, ?_, ?_⟩⟩⟩
            · simp [resetPushConflict, resetResult, setHandlerResult]
            · simp [resetPushConflict, resetResult, setHandlerResult]
          · next hid =>
            cases hn
            exact ⟨.clearRelease _ rfl rfl rfl, rfl, rfl, rfl, rfl,
              .inr ⟨hread, rfl, .inl ⟨rfl, not_not.mp hid⟩⟩⟩

theorem next_push {j : ℕ} {o : Option Op} {r : Reply V (.pushConflictTxnCommitTsLowerBound j)}
    (hres : e.handlerResult (.pushConflictTxnCommitTsLowerBound j) =
      ⟨r.result, true, r.isError, 0⟩)
    (hn : next (.pushConflictTxnCommitTsLowerBound j) e = .ok (o, e₁)) :
    o = none ∧ SameSets e.toExecutionState e₁.toExecutionState ∧ e₁.keyWriteSet = e.keyWriteSet ∧
    e₁.commitTimestamp = e.commitTimestamp ∧
    e₁.isTransactionFinished = e.isTransactionFinished ∧
    e₁.args.validateIndex = e.args.validateIndex ∧
    ((r.isError = true ∨ TxnEntry.Conflicts e.commitTimestamp r.result) ∧
        e₁.status = .waitForAborting ∨
      r.isError = false ∧ ¬ TxnEntry.Conflicts e.commitTimestamp r.result ∧
        e₁.status = e.status) := by
  simp only [next, nextImpl, pushConflictNext] at hn
  rw [show (e.setFlags (.pushConflictTxnCommitTsLowerBound j) ⟨true, true⟩).handlerResult =
    e.handlerResult from rfl, hres] at hn
  split at hn
  · next he =>
    cases hn
    exact ⟨rfl, .of_eq rfl rfl rfl, rfl, rfl, rfl, rfl, .inl ⟨.inl he, rfl⟩⟩
  · next he =>
    split at hn
    · next hcf =>
      cases hn
      exact ⟨rfl, .of_eq rfl rfl rfl, rfl, rfl, rfl, rfl, .inl ⟨.inr hcf, rfl⟩⟩
    · next hcf =>
      cases hn
      exact ⟨rfl, .of_eq rfl rfl rfl, rfl, rfl, rfl, rfl, .inr ⟨by simpa using he, hcf, rfl⟩⟩

theorem Stage.member_congr_reread (ha : e'.args = e.args)
    (hf : ∀ j, e'.flags (.updateReadEntryMaxCommitTs j) = e.flags (.updateReadEntryMaxCommitTs j)) :
    Stage.validate.member e' = Stage.validate.member e := by
  have hF : validateFamily.member e' = validateFamily.member e :=
    funext fun z => by simp only [Family.member, ha]
  simp only [Stage.member, hF, ha, hf]

theorem Pipe.leave_reread (h : Pipe x gaveUp .validate e) {j : ℕ}
    (hj : j < e.args.validateIndex.length)
    (hi : e.operationVector.slot i = some (.updateReadEntryMaxCommitTs j))
    (hmv : (e.flags (.updateReadEntryMaxCommitTs j)).moveToNext = false)
    (hf : e.leafIsFinished (.updateReadEntryMaxCommitTs j) = true) {o : Option Op}
    (hn : next (.updateReadEntryMaxCommitTs j) e = .ok (o, e₁)) :
    o = none ∧ Pipe x gaveUp .validate (e₁.setSlot i none) ∨
      ∃ y, o = some y ∧ Pipe x gaveUp .validate (call y (e₁.setSlot i (some y))) := by
  have hfacts : ValidateFacts x e := h.facts
  have hj' : j < x.unupdated.length := hfacts.index ▸ hj
  have hm : Stage.validate.member e (.updateReadEntryMaxCommitTs j) := .inl ⟨j, hj, rfl⟩
  have ha := next_advanced hn
  obtain ⟨c, r, hr, hres⟩ := h.reply _ hm hf (by simp [Op.rank])
  obtain ⟨hs, hw, hts, hfin, hidx, hcase⟩ := next_reread hres hn
  have hout : e₁.outcome .validate = e.outcome .validate := rfl
  have hmem : ∀ b, e₁.flags (.updateReadEntryMaxCommitTs j) = ⟨true, b⟩ → ∀ z,
      (Stage.validate.member e₁ z ↔ Stage.validate.member e z ∨
        z = .pushConflictTxnCommitTsLowerBound j ∧ b = true) := by
    intro b hb z
    have hF : validateFamily.member e₁ z ↔ validateFamily.member e z := by
      change (∃ l < e₁.args.validateIndex.length, _) ↔ ∃ l < e.args.validateIndex.length, _
      rw [hidx]
    simp only [Stage.member, hF, hidx, or_assoc]
    refine or_congr_right ⟨?_, ?_⟩
    · rintro ⟨l, hl, rfl, hfl⟩
      by_cases hlj : l = j
      · subst hlj
        exact .inr ⟨rfl, by rw [hb] at hfl; exact (OperationFlags.mk.inj hfl).2⟩
      · exact .inl ⟨l, hl, rfl, (ha.flags_of_ne (by simpa using hlj)).symm.trans hfl⟩
    · rintro (⟨l, hl, rfl, hfl⟩ | ⟨rfl, rfl⟩)
      · have hlj : l ≠ j := by
          rintro rfl
          rw [hfl] at hmv
          cases hmv
        exact ⟨l, hl, rfl, (ha.flags_of_ne (by simpa using hlj)).trans hfl⟩
      · exact ⟨j, hj, rfl, hb⟩
  have hnone : o = none → (Accepted e.log e.commitTimestamp j ∧ e₁.status = e.status ∨
      Rejected e.log e.commitTimestamp j ∧ e₁.status = .waitForAborting) →
      o = none ∧ Pipe x gaveUp .validate (e₁.setSlot i none) := by
    rintro rfl hv
    refine ⟨rfl, h.leave hi hm hf ha hs (fun z => ?_) hfin hout
      (fun _ => (h.posted (by simp)).congr hw ha.log)
      (hfacts.leave_reread hj' ha.log hidx hts ha.flags hv)⟩
    have hb := hmem false (by rw [ha.flags, Function.update_self]; rfl) z
    simp only [Bool.false_eq_true, and_false, or_false] at hb
    exact hb.symm
  rcases hcase with ⟨ho, hrej, hst⟩ | ⟨hread, hst, ⟨ho, hid⟩ | ⟨rfl, hid, htxn, hunf⟩⟩
  · exact .inl (hnone ho (.inr ⟨⟨c, r, hr, .inl hrej⟩, hst⟩))
  · exact .inl (hnone ho (.inl ⟨⟨c, r, hr, hread, .inl hid⟩, hst⟩))
  · refine .inr ⟨_, rfl, ?_⟩
    have hcall : call (.pushConflictTxnCommitTsLowerBound j)
        (e₁.setSlot i (some (.pushConflictTxnCommitTsLowerBound j))) =
        ((e₁.setSlot i (some (.pushConflictTxnCommitTsLowerBound j))).setMoveToNext
          (.pushConflictTxnCommitTsLowerBound j) false).issue (.pushConflictTxnCommitTsLowerBound j)
          (.updateCommitLowerBound r.result.txId (e.commitTimestamp + 1)) := by
      rw [← htxn, ← hts]
      rfl
    rw [hcall]
    have hfresh : ∀ c' r', Event.answered (.pushConflictTxnCommitTsLowerBound j) c' r' ∉ e.log := by
      intro c' r' hr'
      have := hfacts.push _ hr' j rfl
      rw [hmv] at this
      cases this
    have hnew : ∀ c', Event.issued (.pushConflictTxnCommitTsLowerBound j) c' ∉
        (e₁.setSlot i (some (.pushConflictTxnCommitTsLowerBound j))).log := by
      intro c' hc'
      have := hfacts.push _ (ha.log ▸ hc') j rfl
      rw [hmv] at this
      cases this
    have hcore : Core x gaveUp 3 (e₁.setSlot i (some (.pushConflictTxnCommitTsLowerBound j))) := by
      refine h.core.advance ha.log ha.pending hs fun z c' r' hr' _ => ha.handlerResult z ?_
      rintro ⟨⟩
      exact hfresh c' r' hr'
    have hok : CallOk x (e₁.setSlot i (some (.pushConflictTxnCommitTsLowerBound j))).log gaveUp
        (.pushConflictTxnCommitTsLowerBound j)
        (.updateCommitLowerBound r.result.txId (e.commitTimestamp + 1)) := by
      change CallOk x e₁.log gaveUp _ _
      rw [ha.log]
      exact ⟨e.commitTimestamp, c, r, hfacts.timestamped, hr, hread, hid, rfl⟩
    have hst' := h.stacked.replace (c := .updateCommitLowerBound r.result.txId (e.commitTimestamp + 1))
      hi hm hf ha hunf (by simp [Stage.parent]) ?_
    · have hb := hmem true (by rw [ha.flags, Function.update_self]; rfl)
      have hmem₂ : Stage.validate.member (((e₁.setSlot i
          (some (.pushConflictTxnCommitTsLowerBound j))).setMoveToNext
          (.pushConflictTxnCommitTsLowerBound j) false).issue (.pushConflictTxnCommitTsLowerBound j)
          (.updateCommitLowerBound r.result.txId (e.commitTimestamp + 1))) =
          Stage.validate.member e₁ :=
        Stage.member_congr_reread rfl fun l => by
          simp [TransactionExecution.issue, setMoveToNext, setFlags, setSlot]
      refine ⟨hcore.issue hok hnew (Nat.le_refl 3) (Nat.le_refl 3), hst'.congr fun z => ?_, ?_, ?_, ?_, ?_⟩
      · rw [hmem₂, hb z]
        simp [or_comm]
      · refine (outcomeCalls_append e₁.log [.issued _ _]).trans ?_
        rw [ha.log, h.outcome]
        rfl
      · exact (congrArg (· = true) hfin).to_iff.trans h.finished
      · refine fun _ => (h.posted (by simp)).issues (l := [(.pushConflictTxnCommitTsLowerBound j,
          .updateCommitLowerBound r.result.txId (e.commitTimestamp + 1))]) hw ?_
        exact congrArg (· ++ [_]) ha.log
      · exact hfacts.issue_push hmv hr hread hid (congrArg (· ++ [_]) ha.log) hidx hts hst rfl
          (congrArg (Function.update · _ _) ha.flags)
    · rintro (⟨l, -, hl⟩ | ⟨l, -, hl, hfl⟩)
      · cases hl
      · obtain rfl := Op.pushConflictTxnCommitTsLowerBound.inj hl
        rw [hfl] at hmv
        cases hmv

theorem Pipe.leave_push (h : Pipe x gaveUp .validate e) {j : ℕ}
    (hj : j < e.args.validateIndex.length)
    (hlock : e.flags (.updateReadEntryMaxCommitTs j) = ⟨true, true⟩)
    (hi : e.operationVector.slot i = some (.pushConflictTxnCommitTsLowerBound j))
    (hf : e.leafIsFinished (.pushConflictTxnCommitTsLowerBound j) = true) {o : Option Op}
    (hn : next (.pushConflictTxnCommitTsLowerBound j) e = .ok (o, e₁)) :
    o = none ∧ Pipe x gaveUp .validate (e₁.setSlot i none) := by
  have hfacts : ValidateFacts x e := h.facts
  have hj' : j < x.unupdated.length := hfacts.index ▸ hj
  have hm : Stage.validate.member e (.pushConflictTxnCommitTsLowerBound j) :=
    .inr ⟨j, hj, rfl, hlock⟩
  have ha := next_advanced hn
  obtain ⟨c, r, hr, hres⟩ := h.reply _ hm hf (by simp [Op.rank])
  obtain ⟨rfl, hs, hw, hts, hfin, hidx, hcase⟩ := next_push hres hn
  refine ⟨rfl, h.leave hi hm hf ha hs (fun z => ?_) hfin rfl
    (fun _ => (h.posted (by simp)).congr hw ha.log)
    (hfacts.leave_push hj' hlock ha.log hidx hts ha.flags ?_)⟩
  · have hF : validateFamily.member e z ↔ validateFamily.member e₁ z := by
      change (∃ l < e.args.validateIndex.length, _) ↔ ∃ l < e₁.args.validateIndex.length, _
      rw [hidx]
    have hfl : ∀ l, e₁.flags (.updateReadEntryMaxCommitTs l) =
        e.flags (.updateReadEntryMaxCommitTs l) := fun l => ha.flags_of_ne (by simp)
    simp only [Stage.member, hF, hidx, hfl]
  · rcases hcase with ⟨hbad, hst⟩ | ⟨he, hcf, hst⟩
    · exact .inr ⟨⟨c, r, hr, hbad⟩, hst⟩
    · exact .inl ⟨⟨c, r, hr, he, hcf⟩, hst⟩

theorem enableLog_eq : enableLog = false := rfl

theorem Ready.call_writeToLog {n : ℕ} (h : Ready x gaveUp n [] (some .writeToLog) e) (hn : n < 4)
    (hst : e.status = .ongoing) (hunf : e.isTransactionFinished = false) (hv : Validated x e) :
    Pipe x gaveUp .log (call .writeToLog e) := by
  have hcall : call .writeToLog e = (e.setMoveToNext .writeToLog false).setHandlerResult .writeToLog
      { e.handlerResult .writeToLog with isFinished := true } := by
    change (e.setMoveToNext .writeToLog false).writeToLogCallImpl = _
    rw [writeToLogCallImpl, if_pos (by simp [enableLog_eq])]
    rfl
  rw [hcall]
  refine ⟨?_, ?_, h.outcome, ?_, fun _ => h.posted, hst,
    ⟨hv.uploaded, hv.timestamped, hv.accepted⟩⟩
  · refine (h.core.mono (Nat.le_of_lt hn)).advance rfl rfl (.of_eq rfl rfl rfl) fun z c r hr _ => ?_
    refine Function.update_of_ne (fun hz => ?_) _ _
    have hr4 : z.rank ≤ n := h.core.ranked _ hr
    rw [hz] at hr4
    exact absurd hn (Nat.not_lt.mpr hr4)
  · exact Stacked.of_parent ⟨h.alone.occupied, h.alone.pending⟩ fun z => id
  · exact ⟨fun hc => absurd (hunf.symm.trans hc) (by simp), by simp⟩

omit [DecidableEq K] [Services S] in
theorem OperationFlags.eq_mk {f : OperationFlags} {a b : Bool} (ha : f.moveToNext = a)
    (hb : f.hasNext = b) : f = ⟨a, b⟩ := by
  rw [← ha, ← hb]

theorem Pipe.validate_finished (h : Pipe x gaveUp .validate e)
    (hi : e.operationVector.slot i = some .validate) (hf : e.isFinished .validate = true)
    {o : Option Op} (hn : next .validate e = .ok (o, e₁)) :
    o = none ∧ Pipe x gaveUp .failing (e₁.setSlot i none) ∨
      ∃ y, o = some y ∧ Pipe x gaveUp .log (call y (e₁.setSlot i (some y))) := by
  have hfacts : ValidateFacts x e := h.facts
  have ha := next_advanced hn
  have hchild : ∀ j < e.args.validateIndex.length,
      e.flags (.updateReadEntryMaxCommitTs j) = ⟨true, false⟩ ∨
        e.flags (.updateReadEntryMaxCommitTs j) = ⟨true, true⟩ ∧
          (e.flags (.pushConflictTxnCommitTsLowerBound j)).moveToNext = true := by
    intro j hj
    have hc : e.isCascadeFinished (.updateReadEntryMaxCommitTs j) = true :=
      validateFamily.isFinished_parent.mp hf j hj
    simp only [isCascadeFinished, Bool.and_eq_true, Bool.or_eq_true, Bool.not_eq_true'] at hc
    obtain ⟨⟨-, h1⟩, h2 | ⟨-, h2⟩⟩ := hc
    · exact .inl (OperationFlags.eq_mk h1 h2)
    · cases hh : (e.flags (.updateReadEntryMaxCommitTs j)).hasNext with
      | false => exact .inl (OperationFlags.eq_mk h1 hh)
      | true => exact .inr ⟨OperationFlags.eq_mk h1 hh, h2⟩
  have hm : ∀ z, Stage.validate.member e z →
      z = .validate ∧ e.leafIsFinished .validate = true ∨ (e.flags z).moveToNext = true := by
    rintro z (⟨j, hj, rfl⟩ | ⟨j, hj, rfl, hlock⟩)
    · refine .inr ?_
      change (e.flags (.updateReadEntryMaxCommitTs j)).moveToNext = true
      rcases hchild j hj with hfl | ⟨hfl, -⟩ <;> rw [hfl]
    · refine .inr ((hchild j hj).resolve_left fun hfl => ?_).2
      rw [hlock] at hfl
      cases hfl
  have hp : ∀ z, Stage.validate.parent = some z → z = .validate := by simp [Stage.parent]
  have hposted : Posted x e := h.posted (by simp)
  have hunf : e.isTransactionFinished = false := by simpa using h.finished
  simp only [next, nextImpl] at hn
  split at hn
  · next hw =>
    obtain ⟨-, j, hj, hr⟩ : e.status = .waitForAborting ∧
        ∃ j < x.unupdated.length, Rejected e.log e.commitTimestamp j := by
      refine hfacts.status.resolve_left fun hs => ?_
      have hw' : e.status = .waitForAborting := hw
      rw [hs] at hw'
      cases hw'
    cases hn
    refine .inl ⟨rfl, h.rest hi hp hm ha (.of_eq rfl rfl rfl) hposted ?_ rfl (fun z => id) rfl ?_ ?_⟩
    · simp [Stage.rank]
    · exact ⟨fun hc => absurd (hunf.symm.trans hc) (by simp), by simp⟩
    · exact ⟨rfl, .inr ⟨hfacts.uploaded, .inr ⟨_, hfacts.timestamped, j, hj, hr⟩⟩,
        setSlot_ne_nil hi rfl⟩
  · next hw =>
    have hs : e.status = .ongoing := hfacts.status.resolve_right fun hs => hw hs.1
    have hacc : AllAccepted x e.log e.commitTimestamp := by
      intro j hj
      rcases hchild j (hfacts.index.symm ▸ hj) with hfl | ⟨hfl, hmv⟩
      · exact (hfacts.direct j hj hfl).resolve_right fun hr => hw hr.2
      · obtain ⟨⟨c, r, hr, hread, -⟩, hv⟩ := hfacts.locked j hj hfl
        exact ⟨c, r, hr, hread, .inr ((hv hmv).resolve_right fun hr => hw hr.2)⟩
    cases hn
    exact .inr ⟨_, rfl, (h.ready hi hp hm ha (by simp [Op.rank, Stage.rank]) (.of_eq rfl rfl rfl)
      hposted).call_writeToLog (Nat.lt_succ_self 3) hs hunf ⟨hfacts.uploaded, hfacts.timestamped, hacc⟩⟩

omit [DecidableEq K] [Services S] in
theorem Validated.congr (h : Validated x e) (hl : e'.log = e.log)
    (hc : e'.commitTimestamp = e.commitTimestamp) : Validated x e' :=
  ⟨hl ▸ h.uploaded, by rw [hl, hc]; exact h.timestamped, by rw [hl, hc]; exact h.accepted⟩

omit [DecidableEq K] [Services S] in
theorem Validated.subset (h : Validated x e) (hl : e.log ⊆ e'.log)
    (hc : e'.commitTimestamp = e.commitTimestamp) : Validated x e' :=
  ⟨h.uploaded.mono hl, hc ▸ h.timestamped.mono hl, hc ▸ h.accepted.mono hl⟩

theorem Pipe.log_finished (h : Pipe x gaveUp .log e)
    (hi : e.operationVector.slot i = some .writeToLog) {o : Option Op}
    (hn : next .writeToLog e = .ok (o, e₁)) :
    ∃ y, o = some y ∧ Pipe x gaveUp .status (call y (e₁.setSlot i (some y))) := by
  obtain ⟨hst, hv⟩ := h.facts
  have ha := next_advanced hn
  have hunf : e.isTransactionFinished = false := by simpa using h.finished
  cases hn
  refine ⟨_, rfl, ?_⟩
  have hready := h.ready hi (by simp [Stage.parent]) (fun z hz => hz.elim) ha
    (by simp [Op.rank, Stage.rank]) (.of_eq rfl rfl rfl) (h.posted (by simp))
  refine hready.issue (s := .status) rfl ?_ (by simp [Stage.rank]) rfl rfl (fun _ => Iff.rfl) ?_ ?_ ?_
  · exact ⟨hv.uploaded, ⟨_, hv.timestamped, hv.accepted⟩, congrArg (HandlerCall.updateTxnStatus · .committed) h.core.sets.txnId⟩
  · exact ⟨fun hc => absurd (hunf.symm.trans hc) (by simp), by simp⟩
  · rfl
  · exact ⟨hst, hv.subset (List.subset_append_left _ _) rfl, issue_moveToNext _ _ _⟩

omit [DecidableEq K] [Services S] in
theorem mem_postProcessIndex {l : ℕ} : l ∈ e.postProcessIndex ↔
    l < e.keyWriteSet.popIndex ∧ (e.keyWriteSet.entry l).needPostProcessing = true := by
  simp [postProcessIndex]

theorem outcome_of_data (hd : e'.toExecutionState = e.toExecutionState) :
    e'.outcome s = e.outcome s :=
  outcome_congr (congrArg ExecutionState.txnId hd) (congrArg ExecutionState.keyWriteSet hd)
    (congrArg ExecutionState.commitTimestamp hd)

theorem Ready.call_postProcessingAfterCommit {n : ℕ}
    (h : Ready x gaveUp n [.updateTxnStatus e.txnId .committed] (some .postProcessingAfterCommit) e)
    (hn : n < 6) (hst : e.status = .ongoing) (hunf : e.isTransactionFinished = false)
    (hv : Validated x e) (htold : ToldCommitted e.log)
    (hidx : e.args.commitIndex = e.postProcessIndex) :
    Pipe x gaveUp .commit (call .postProcessingAfterCommit e) := by
  refine h.family (F := commitFamily) (s := .commit) hn (fun _ => rfl) rfl (fun _ _ => Iff.rfl)
    ?_ ?_ ?_ ?_
  · intro j index k hj hk log' hlog
    obtain ⟨key, hkey, rfl⟩ := Option.map_eq_some_iff.mp hk
    have hmem : index ∈ e.postProcessIndex := hidx ▸ List.mem_of_getElem? hj
    refine ⟨htold.mono hlog, e.commitTimestamp, hv.timestamped.mono hlog, index,
      h.core.sets.writeSize ▸ (mem_postProcessIndex.mp hmem).1, key,
      (h.core.sets.writeKey index).symm.trans hkey, ?_⟩
    rw [commitCall, ← h.core.sets.version, ← h.core.sets.record, ← h.core.sets.txnId]
  · exact ⟨fun hc => absurd (hunf.symm.trans hc) (by simp), by simp⟩
  · intro hi
    rw [outcome_of_data hi.data, List.filter_eq_self.mpr]
    · exact congrArg (fun l => HandlerCall.updateTxnStatus e.txnId .committed ::
        l.filterMap (commitFamily.request e.toExecutionState)) hidx
    · intro k hk
      obtain ⟨j, -, hj⟩ := List.mem_filterMap.mp hk
      obtain ⟨key, -, rfl⟩ := Option.map_eq_some_iff.mp hj
      rfl
  · intro hi
    have hl : e.log ⊆ (call .postProcessingAfterCommit e).log := hi.log_subset
    have hd : (call .postProcessingAfterCommit e).toExecutionState = e.toExecutionState := hi.data
    exact ⟨(congrArg ExecutionState.status hd).trans hst,
      hv.subset hl (congrArg ExecutionState.commitTimestamp hd), htold.mono hl⟩

theorem Pipe.status_finished (h : Pipe x gaveUp .status e)
    (hi : e.operationVector.slot i = some .updateTxnStatusToCommit)
    (hf : e.isFinished .updateTxnStatusToCommit = true) {o : Option Op}
    (hn : next .updateTxnStatusToCommit e = .ok (o, e₁)) :
    ∃ y, o = some y ∧ Pipe x gaveUp .commit (call y (e₁.setSlot i (some y))) := by
  obtain ⟨hst, hv, -⟩ := h.facts
  have ha := next_advanced hn
  obtain ⟨c, r, hr, hres⟩ := h.reply .updateTxnStatusToCommit rfl hf (by simp [Op.rank])
  have hunf : e.isTransactionFinished = false := by simpa using h.finished
  simp only [next, nextImpl] at hn
  rw [show (e.setFlags .updateTxnStatusToCommit ⟨true, true⟩).handlerResult = e.handlerResult from rfl,
    hres] at hn
  split at hn
  · cases hn
  · next he =>
    cases hn
    refine ⟨_, rfl, ?_⟩
    have hready := h.ready hi (by simp [Stage.parent]) (fun z hz => .inl ⟨hz, hf⟩) ha
      (by simp [Op.rank, Stage.rank]) (.of_eq rfl rfl rfl) (h.posted (by simp))
    exact hready.call_postProcessingAfterCommit (Nat.lt_succ_self 5) hst hunf (hv.congr rfl rfl)
      ⟨c, r, hr, by simpa using he⟩ rfl

omit [DecidableEq K] [Services S] in
theorem sameSets_clearReleaseOfWrite (l : ℕ) : SameSets e.toExecutionState
    (e.clearReleaseOfWrite l).toExecutionState ∧
      (e.clearReleaseOfWrite l).keyWriteSet = e.keyWriteSet ∧
      (e.clearReleaseOfWrite l).commitTimestamp = e.commitTimestamp ∧
      (e.clearReleaseOfWrite l).status = e.status ∧
      (e.clearReleaseOfWrite l).isTransactionFinished = e.isTransactionFinished ∧
      (e.clearReleaseOfWrite l).args = e.args := by
  unfold clearReleaseOfWrite
  split
  · exact ⟨.clearRelease _ rfl rfl rfl, rfl, rfl, rfl, rfl, rfl⟩
  · exact ⟨.of_eq rfl rfl rfl, rfl, rfl, rfl, rfl, rfl⟩

theorem Pipe.leave_family (h : Pipe x gaveUp s e) (hs : s = .commit ∨ s = .delete ∨ s = .release)
    (hi : e.operationVector.slot i = some op) (hm : s.member e op) (hf : e.leafIsFinished op = true)
    (ha : Advanced op e none e₁) (hsets : SameSets e.toExecutionState e₁.toExecutionState)
    (hw : e₁.keyWriteSet = e.keyWriteSet) (hc : e₁.commitTimestamp = e.commitTimestamp)
    (hst : e₁.status = e.status) (hfin : e₁.isTransactionFinished = e.isTransactionFinished)
    (hargs : e₁.args = e.args) : Pipe x gaveUp s (e₁.setSlot i none) := by
  have hmem : ∀ F : Family K V S, ∀ z, F.member e z ↔ F.member e₁ z := by
    intro F z
    simp only [Family.member, hargs]
  have hl : (e₁.setSlot i none).log = e.log := ha.log
  refine h.leave hi hm hf ha hsets (fun z => ?_) hfin (outcome_congr hsets.txnId hw hc)
    (fun hup => (h.posted hup).congr hw ha.log) ?_
  · rcases hs with rfl | rfl | rfl <;> exact hmem _ z
  · rcases hs with rfl | rfl | rfl
    · exact ⟨hst.trans h.facts.1, h.facts.2.1.congr hl hc, hl ▸ h.facts.2.2⟩
    · exact ⟨hst ▸ h.facts.1, hl ▸ h.facts.2⟩
    · exact ⟨hst ▸ h.facts.1, hl ▸ h.facts.2⟩

theorem Pipe.leave_commit (h : Pipe x gaveUp .commit e) {j : ℕ} (hj : j < e.args.commitIndex.length)
    (hi : e.operationVector.slot i = some (.postProcessingCommitEntryAfterCommit j))
    (hf : e.leafIsFinished (.postProcessingCommitEntryAfterCommit j) = true) {o : Option Op}
    (hn : next (.postProcessingCommitEntryAfterCommit j) e = .ok (o, e₁)) :
    o = none ∧ Pipe x gaveUp .commit (e₁.setSlot i none) := by
  have ha := next_advanced hn
  simp only [next, nextImpl] at hn
  split at hn
  · cases hn
  · cases hn
    obtain ⟨hs, hw, hc, hst, hfin, hargs⟩ := sameSets_clearReleaseOfWrite
      (e := e.setFlags (.postProcessingCommitEntryAfterCommit j) ⟨true, true⟩) (e.args.commitEntry j)
    exact ⟨rfl, h.leave_family (.inl rfl) hi ⟨j, hj, rfl⟩ hf ha hs hw hc hst hfin hargs⟩

theorem Pipe.leave_delete (h : Pipe x gaveUp .delete e) {j : ℕ} (hj : j < e.args.deleteIndex.length)
    (hi : e.operationVector.slot i = some (.postProcessingDeleteEntryAfterAbort j))
    (hf : e.leafIsFinished (.postProcessingDeleteEntryAfterAbort j) = true) {o : Option Op}
    (hn : next (.postProcessingDeleteEntryAfterAbort j) e = .ok (o, e₁)) :
    o = none ∧ Pipe x gaveUp .delete (e₁.setSlot i none) := by
  have ha := next_advanced hn
  simp only [next, nextImpl, deleteEntryNext] at hn
  repeat' split at hn
  all_goals cases hn
  · exact ⟨rfl, h.leave_family (.inr (.inl rfl)) hi ⟨j, hj, rfl⟩ hf ha (.clearRelease _ rfl rfl rfl)
      rfl rfl rfl rfl rfl⟩
  · exact ⟨rfl, h.leave_family (.inr (.inl rfl)) hi ⟨j, hj, rfl⟩ hf ha (.of_eq rfl rfl rfl)
      rfl rfl rfl rfl rfl⟩
  · exact ⟨rfl, h.leave_family (.inr (.inl rfl)) hi ⟨j, hj, rfl⟩ hf ha (.of_eq rfl rfl rfl)
      rfl rfl rfl rfl rfl⟩

theorem Pipe.leave_release (h : Pipe x gaveUp .release e) {j : ℕ}
    (hj : j < e.args.releaseIndex.length)
    (hi : e.operationVector.slot i = some (.releaseReadCounterForEachEntry j))
    (hf : e.leafIsFinished (.releaseReadCounterForEachEntry j) = true) {o : Option Op}
    (hn : next (.releaseReadCounterForEachEntry j) e = .ok (o, e₁)) :
    o = none ∧ Pipe x gaveUp .release (e₁.setSlot i none) := by
  have ha := next_advanced hn
  simp only [next, nextImpl] at hn
  split at hn
  · cases hn
  · cases hn
    exact ⟨rfl, h.leave_family (.inr (.inr rfl)) hi ⟨j, hj, rfl⟩ hf ha (.clearRelease _ rfl rfl rfl)
      rfl rfl rfl rfl rfl⟩

theorem moved_of_finished {F : Family K V S}
    (hleaf : ∀ j, e.isCascadeFinished (F.child j) =
      (e.leafIsFinished (F.child j) && (e.flags (F.child j)).moveToNext))
    (hf : e.isFinished F.parent = true) {z : Op} (hz : F.member e z) :
    (e.flags z).moveToNext = true := by
  obtain ⟨j, hj, rfl⟩ := hz
  have hc := F.isFinished_parent.mp hf j hj
  rw [hleaf] at hc
  exact (Bool.and_eq_true_iff.mp hc).2

theorem Pipe.commit_finished (h : Pipe x gaveUp .commit e)
    (hi : e.operationVector.slot i = some .postProcessingAfterCommit)
    (hf : e.isFinished .postProcessingAfterCommit = true) {o : Option Op}
    (hn : next .postProcessingAfterCommit e = .ok (o, e₁)) :
    o = none ∧ Pipe x gaveUp .committed (e₁.setSlot i none) := by
  obtain ⟨hst, hv, htold⟩ := h.facts
  have ha := next_advanced hn
  cases hn
  refine ⟨rfl, h.rest hi (by simp [Stage.parent]) (fun z hz => .inr ?_) ha (.of_eq rfl rfl rfl)
    (h.posted (by simp)) (Nat.le_refl 6) rfl (fun z => id) rfl (by simp [setHasNext, setFlags]) ?_⟩
  · exact moved_of_finished (F := commitFamily) (fun _ => rfl) hf hz
  · exact ⟨rfl, hv.congr rfl rfl, htold⟩

theorem Pipe.delete_finished (h : Pipe x gaveUp .delete e)
    (hi : e.operationVector.slot i = some .postProcessingAfterAbort)
    (hf : e.isFinished .postProcessingAfterAbort = true) {o : Option Op}
    (hn : next .postProcessingAfterAbort e = .ok (o, e₁)) :
    ∃ y, o = some y ∧ Pipe x gaveUp .release (call y (e₁.setSlot i (some y))) := by
  have hfacts := h.facts
  have ha := next_advanced hn
  have hunf : e.isTransactionFinished = false := by simpa using h.finished
  cases hn
  refine ⟨_, rfl, ?_⟩
  have hready := h.ready hi (by simp [Stage.parent])
    (fun z hz => .inr (moved_of_finished (F := deleteFamily) (fun _ => rfl) hf hz)) ha
    (by simp [Op.rank, Stage.rank]) (.of_eq rfl rfl rfl) (h.posted (by simp))
  refine hready.family (F := releaseFamily) (s := .release) (Nat.lt_succ_self 8) (fun _ => rfl) rfl
    (fun _ _ => Iff.rfl) ?_ ?_ ?_ ?_
  · intro j index k _ hk log' hlog
    obtain ⟨key, hkey, rfl⟩ := Option.map_eq_some_iff.mp hk
    exact ⟨hfacts.2.2.mono hlog, key, _, rfl⟩
  · exact ⟨fun hc => absurd (hunf.symm.trans hc) (by simp), by simp⟩
  · intro hi'
    rw [outcome_of_data hi'.data, List.filter_eq_nil_iff.mpr, List.append_nil]
    · rfl
    · intro k hk
      obtain ⟨j, -, hj⟩ := List.mem_filterMap.mp hk
      obtain ⟨key, -, rfl⟩ := Option.map_eq_some_iff.mp hj
      simp [HandlerCall.isOutcome]
  · intro hi'
    have hl : e.log ⊆ _ := hi'.log_subset
    refine ⟨?_, hfacts.2.1.imp_right fun hd => hd.mono hl, hfacts.2.2.mono hl⟩
    exact (congrArg (· ≠ TxnStatus.aborting) (congrArg ExecutionState.status hi'.data)).mpr hfacts.1

theorem Pipe.release_finished (h : Pipe x gaveUp .release e)
    (hi : e.operationVector.slot i = some .releaseReadCounter)
    (hf : e.isFinished .releaseReadCounter = true) {o : Option Op}
    (hn : next .releaseReadCounter e = .ok (o, e₁)) :
    o = none ∧ Pipe x gaveUp .aborted (e₁.setSlot i none) := by
  obtain ⟨-, hd, htold⟩ := h.facts
  have ha := next_advanced hn
  cases hn
  refine ⟨rfl, h.rest hi (by simp [Stage.parent]) (fun z hz => .inr ?_) ha (.of_eq rfl rfl rfl)
    (h.posted (by simp)) (Nat.le_refl 9) rfl (fun z => id) rfl (by simp [setHasNext, setFlags]) ?_⟩
  · exact moved_of_finished (F := releaseFamily) (fun _ => rfl) hf hz
  · exact ⟨rfl, hd, htold⟩

theorem Ready.call_postProcessingAfterAbort {n : ℕ}
    (h : Ready x gaveUp n [.updateTxnStatus e.txnId .aborted] (some .postProcessingAfterAbort) e)
    (hn : n < 8) (hst : e.status ≠ .aborting) (hunf : e.isTransactionFinished = false)
    (hd : gaveUp ∨ Doomed x e.log) (htold : ToldAborted e.log)
    (hidx : e.args.deleteIndex = e.postProcessIndex) :
    Pipe x gaveUp .delete (call .postProcessingAfterAbort e) := by
  refine h.family (F := deleteFamily) (s := .delete) hn (fun _ => rfl) rfl (fun _ _ => Iff.rfl)
    ?_ ?_ ?_ ?_
  · intro j index k hj hk log' hlog
    obtain ⟨key, hkey, rfl⟩ := Option.map_eq_some_iff.mp hk
    have hmem : index ∈ e.postProcessIndex := hidx ▸ List.mem_of_getElem? hj
    obtain ⟨hlt, hneed⟩ := mem_postProcessIndex.mp hmem
    have hlt' : index < x.keyWriteSet.popIndex := h.core.sets.writeSize ▸ hlt
    refine ⟨htold.mono hlog, index, hlt', ?_, key, (h.core.sets.writeKey index).symm.trans hkey, ?_⟩
    · exact ((h.posted index hlt').mp hneed).imp_right fun hu => hu.mono hlog
    · rw [deleteCall, ← h.core.sets.version]
  · exact ⟨fun hc => absurd (hunf.symm.trans hc) (by simp), by simp⟩
  · intro hi
    rw [outcome_of_data hi.data, List.filter_eq_self.mpr]
    · exact congrArg (fun l => HandlerCall.updateTxnStatus e.txnId .aborted ::
        l.filterMap (deleteFamily.request e.toExecutionState)) hidx
    · intro k hk
      obtain ⟨j, -, hj⟩ := List.mem_filterMap.mp hk
      obtain ⟨key, -, rfl⟩ := Option.map_eq_some_iff.mp hj
      rfl
  · intro hi
    have hl : e.log ⊆ (call .postProcessingAfterAbort e).log := hi.log_subset
    refine ⟨?_, hd.imp_right fun hd => hd.mono hl, htold.mono hl⟩
    exact (congrArg (· ≠ TxnStatus.aborting) (congrArg ExecutionState.status hi.data)).mpr hst

theorem Pipe.abort_finished (h : Pipe x gaveUp .abort e)
    (hi : e.operationVector.slot i = some .updateTxnStatusToAbort)
    (hf : e.isFinished .updateTxnStatusToAbort = true) {o : Option Op}
    (hn : next .updateTxnStatusToAbort e = .ok (o, e₁)) :
    ∃ y, o = some y ∧ Pipe x gaveUp .delete (call y (e₁.setSlot i (some y))) := by
  obtain ⟨hst, hd, -⟩ := h.facts
  have ha := next_advanced hn
  obtain ⟨c, r, hr, hres⟩ := h.reply .updateTxnStatusToAbort rfl hf (by simp [Op.rank])
  have hunf : e.isTransactionFinished = false := by simpa using h.finished
  simp only [next, nextImpl] at hn
  rw [show (e.setFlags .updateTxnStatusToAbort ⟨true, true⟩).handlerResult = e.handlerResult from rfl,
    hres] at hn
  split at hn
  · cases hn
  · next he =>
    cases hn
    refine ⟨_, rfl, ?_⟩
    have hready := h.ready hi (by simp [Stage.parent]) (fun z hz => .inl ⟨hz, hf⟩) ha
      (by simp [Op.rank, Stage.rank]) (.of_eq rfl rfl rfl) (h.posted (by simp))
    exact hready.call_postProcessingAfterAbort (Nat.lt_succ_self 7) hst hunf hd
      ⟨c, r, hr, by simpa using he⟩ rfl

theorem Core.abort {n : ℕ} (h : Core x gaveUp n e) (hp : e.pending = [])
    (hout : outcomeCalls e.log = []) (hpost : Posted x e) (hn : n < 7) (hst : e.status ≠ .aborting)
    (hunf : e.isTransactionFinished = false) (hd : gaveUp ∨ Doomed x e.log) :
    Pipe x gaveUp .abort e.abort := by
  let z := ({ e with operationVector := [], result := Result.reset none } |>.resetResult
    .updateTxnStatusToAbort |>.push .updateTxnStatusToAbort : TransactionExecution K V S)
  have hz : Ready x gaveUp n [] (some .updateTxnStatusToAbort) z := by
    refine ⟨h.advance rfl rfl (.of_eq rfl rfl rfl) fun w c r hr _ => ?_, ⟨?_, hp⟩, hout, hpost⟩
    · refine Function.update_of_ne (fun hw => ?_) _ _
      have hr7 : w.rank ≤ n := h.ranked _ hr
      rw [hw] at hr7
      exact absurd hn (Nat.not_lt.mpr hr7)
    · refine (Slots.occupied_nil.pushBack (x := Op.updateTxnStatusToAbort) id).congr fun w => ?_
      simp [eq_comm]
  refine hz.issue (s := .abort) ?_ ?_ hn rfl rfl (fun _ => Iff.rfl) ?_ ?_ ?_
  · simp [z, push, resetResult, setHandlerResult, leafIsFinished]
  · exact ⟨hd, congrArg (HandlerCall.updateTxnStatus · .aborted) h.sets.txnId⟩
  · exact ⟨fun hc => absurd (hunf.symm.trans hc) (by simp), by simp⟩
  · rfl
  · exact ⟨hst, hd.imp_right fun hd => hd.mono (List.subset_append_left _ _),
      issue_moveToNext _ _ _⟩

theorem Pipe.visit (h : Pipe x gaveUp s e) {b : Bool} (hv : visit i e = .ok (e', b)) :
    ∃ s', Pipe x gaveUp s' e' := by
  rcases visit_cases hv with rfl | ⟨op, o, e₁, hi, hf, hn, -, hcase⟩
  · exact ⟨s, h⟩
  have hnone : o = none → e' = e₁.setSlot i none := by
    rintro rfl
    rcases hcase with ⟨-, he⟩ | ⟨y, hy, -⟩
    · exact he
    · cases hy
  have hsome : ∀ y, o = some y → e' = call y (e₁.setSlot i (some y)) := by
    rintro y rfl
    rcases hcase with ⟨hy, -⟩ | ⟨z, hz, he⟩
    · cases hy
    · rw [Option.some.inj hz]
      exact he
  have leaves : ∀ {s'}, o = none ∧ Pipe x gaveUp s' (e₁.setSlot i none) → ∃ s', Pipe x gaveUp s' e' :=
    fun {s'} ⟨ho, hp⟩ => ⟨s', hnone ho ▸ hp⟩
  have continues : ∀ {s'}, (∃ y, o = some y ∧ Pipe x gaveUp s' (call y (e₁.setSlot i (some y)))) →
      ∃ s', Pipe x gaveUp s' e' := fun {s'} ⟨y, ho, hp⟩ => ⟨s', hsome y ho ▸ hp⟩
  have hheld := h.stacked.occupied.held_of_slot hi
  cases s with
  | upload =>
    rcases hheld with hp | ⟨⟨j, hj, rfl⟩, hmv⟩
    · obtain rfl := Option.some.inj hp
      exact (h.upload_finished hi hf hn).elim leaves continues
    · have hsize : UploadFacts x e := h.facts
      have hj' : j < x.keyWriteSet.popIndex := by
        rw [← hsize.size]
        simpa [uploadFamily] using hj
      exact leaves (h.leave_upload hj' hi hmv hf hn)
  | timestamp =>
    rcases hheld with hp | ⟨rfl, -⟩
    · cases hp
    · exact (h.timestamp_finished hi hf hn).elim leaves continues
  | validate =>
    rcases hheld with hp | ⟨⟨j, hj, rfl⟩ | ⟨j, hj, rfl, hlock⟩, hmv⟩
    · obtain rfl := Option.some.inj hp
      exact (h.validate_finished hi hf hn).elim leaves continues
    · exact (h.leave_reread hj hi hmv hf hn).elim leaves continues
    · exact leaves (h.leave_push hj hlock hi hf hn)
  | log =>
    rcases hheld with hp | ⟨hm, -⟩
    · obtain rfl := Option.some.inj hp
      exact continues (h.log_finished hi hn)
    · exact hm.elim
  | status =>
    rcases hheld with hp | ⟨rfl, -⟩
    · cases hp
    · exact continues (h.status_finished hi hf hn)
  | commit =>
    rcases hheld with hp | ⟨⟨j, hj, rfl⟩, -⟩
    · obtain rfl := Option.some.inj hp
      exact leaves (h.commit_finished hi hf hn)
    · exact leaves (h.leave_commit hj hi hf hn)
  | committed | failing | aborted =>
    rcases hheld with hp | ⟨hm, -⟩
    · cases hp
    · exact hm.elim
  | abort =>
    rcases hheld with hp | ⟨rfl, -⟩
    · cases hp
    · exact continues (h.abort_finished hi hf hn)
  | delete =>
    rcases hheld with hp | ⟨⟨j, hj, rfl⟩, -⟩
    · obtain rfl := Option.some.inj hp
      exact continues (h.delete_finished hi hf hn)
    · exact leaves (h.leave_delete hj hi hf hn)
  | release =>
    rcases hheld with hp | ⟨⟨j, hj, rfl⟩, -⟩
    · obtain rfl := Option.some.inj hp
      exact leaves (h.release_finished hi hf hn)
    · exact leaves (h.leave_release hj hi hf hn)

/-- Nothing that a stage keeps true depends on the clock, on the contents of the records or on the
slot that an operation occupies. -/
theorem Pipe.frame (h : Pipe x gaveUp s e) (services : S) (memory : Addr → V) {v : Slots Op}
    (hv : ∀ held, e.operationVector.Occupied held → v.Occupied held)
    (hs : s = .failing → v ≠ []) : Pipe x gaveUp s
      { e with services := services, memory := memory, operationVector := v } where
  core := h.core.advance rfl rfl (.of_eq rfl rfl rfl) fun _ _ _ _ _ => rfl
  stacked := ⟨h.stacked.parent_not_member, hv _ h.stacked.occupied, h.stacked.pending_member,
    h.stacked.pending_nodup, h.stacked.moved_finished, h.stacked.finished_answered⟩
  outcome := h.outcome
  finished := h.finished
  posted := h.posted
  facts := by
    have hf := h.facts
    cases s with
    | upload =>
      have hf : UploadFacts x e := hf
      exact ⟨hf.size, hf.entry, hf.status, hf.waiting, hf.moved⟩
    | timestamp => exact hf
    | validate =>
      have hf : ValidateFacts x e := hf
      exact ⟨hf.uploaded, hf.timestamped, hf.index, hf.status, hf.push, hf.direct, hf.locked⟩
    | log => exact ⟨hf.1, hf.2.congr rfl rfl⟩
    | status => exact ⟨hf.1, hf.2.1.congr rfl rfl, hf.2.2⟩
    | commit | committed => exact ⟨hf.1, hf.2.1.congr rfl rfl, hf.2.2⟩
    | failing => exact ⟨hf.1, hf.2.1, hs rfl⟩
    | abort | delete | release | aborted => exact hf

theorem Pipe.trim (h : Pipe x gaveUp s e) (hs : s ≠ .failing) :
    Pipe x gaveUp s { e with operationVector := e.operationVector.trim } :=
  h.frame e.services e.memory (fun _ ho => ho.trim) fun hf => absurd hf hs

theorem Pipe.status_ne_aborting (h : Pipe x gaveUp s e) (hs : s ≠ .failing) :
    e.status ≠ .aborting := by
  have hf := h.facts
  cases s with
  | upload =>
    rcases (show UploadFacts x e from hf).status with hst | ⟨hst, -⟩ <;> rw [hst] <;> simp
  | validate =>
    rcases (show ValidateFacts x e from hf).status with hst | ⟨hst, -⟩ <;> rw [hst] <;> simp
  | timestamp | log | status | commit | committed | aborted => rw [hf.1]; simp
  | failing => exact absurd rfl hs
  | abort | delete | release => exact hf.1

theorem Pipe.tidy_failing (h : Pipe x gaveUp .failing e) : Pipe x gaveUp .abort e.tidy := by
  obtain ⟨hst, hd, -⟩ := h.facts
  have hp : e.pending = [] := List.eq_nil_iff_forall_not_mem.mpr fun p hp =>
    (h.stacked.pending_member p hp).1
  have hunf : e.isTransactionFinished = false := by simpa using h.finished
  unfold TransactionExecution.tidy
  rw [if_pos hst]
  refine Core.abort (n := 3) ?_ hp h.outcome ((h.posted (by simp)).congr rfl rfl)
    (by simp) (by simp) hunf (.inr hd)
  exact h.core.advance rfl rfl (.of_eq rfl rfl rfl) fun _ _ _ _ _ => rfl

theorem Pipe.tidy_other (h : Pipe x gaveUp s e) (hs : s ≠ .failing) : Pipe x gaveUp s e.tidy := by
  unfold TransactionExecution.tidy
  rw [if_neg (h.status_ne_aborting hs)]
  exact h.trim hs

theorem Pipe.tidy (h : Pipe x gaveUp s e) : ∃ s', Pipe x gaveUp s' e.tidy := by
  by_cases hs : s = .failing
  · subst hs
    exact ⟨.abort, h.tidy_failing⟩
  · exact ⟨s, h.tidy_other hs⟩

theorem Pipe.not_dispatch (h : Pipe x gaveUp s e) (hv : e.operationVector = []) :
    e.isTransactionFinished = true := by
  refine h.finished.mpr ?_
  have hnil : ∀ z, ¬ (s.parent = some z ∨ s.member e z ∧ (e.flags z).moveToNext = false) := by
    intro z hz
    have := (h.stacked.occupied.holds z).mpr hz
    rw [hv] at this
    exact Slots.not_holds_nil z this
  cases s with
  | upload | validate | log | commit | delete | release => exact absurd (.inl rfl) (hnil _)
  | failing => exact absurd hv h.facts.2.2
  | timestamp | status | abort => exact absurd (.inr ⟨rfl, h.facts.2.2⟩) (hnil _)
  | committed => exact .inl rfl
  | aborted => exact .inr rfl

theorem Pipe.step (h : Pipe x gaveUp s e) {a : Action K V} (hstep : step e a = some e') :
    ∃ s', Pipe x gaveUp s' e' := by
  cases a with
  | dispatch r =>
    simp only [TransactionExecution.step] at hstep
    split at hstep
    · next hd => exact absurd (h.not_dispatch hd.1) (by simp [hd.2])
    · cases hstep
  | complete op reply =>
    obtain ⟨c, hc⟩ := complete_cases hstep
    exact ⟨s, h.complete hc⟩
  | visit i =>
    simp only [TransactionExecution.step] at hstep
    cases hv : TransactionExecution.visit i e with
    | error m => rw [hv] at hstep; cases hstep
    | ok p =>
      rw [hv] at hstep
      cases hstep
      exact h.visit (b := p.2) hv
  | tidy =>
    simp only [TransactionExecution.step] at hstep
    split at hstep
    · cases hstep
    · cases hstep
      exact h.tidy

/-- The execution is between two requests of a transaction that is still open. -/
structure Settled (e : TransactionExecution K V S) : Prop where
  operationVector : e.operationVector = []
  pending : e.pending = []
  status : e.status = .ongoing
  unfinished : e.isTransactionFinished = false
  ranked : ∀ ev ∈ e.log, ev.op.rank = 0
  obeys : ∀ (x : ExecutionState K V S) gaveUp, Obeys x e.log gaveUp
  handled : (issuedCalls e.log).Perm (answeredCalls e.log)
  outcome : outcomeCalls e.log = []

namespace Settled

omit [DecidableEq K] [Services S] in
theorem core (h : Settled e) (gaveUp : Prop) : Core e.toExecutionState gaveUp 0 e where
  sets := .refl _
  ranked ev hev := Nat.le_of_eq (h.ranked ev hev)
  agree op c r hr hop := absurd hop (by rw [show op.rank = 0 from h.ranked _ hr]; simp)
  obeys := h.obeys _ _
  handled := by rw [h.pending, List.append_nil]; exact h.handled
  once := .of_ranked h.ranked

omit [DecidableEq K] [Services S] in
theorem posted (h : Settled e) : Posted e.toExecutionState e := by
  intro j _
  refine ⟨.inl, fun hn => hn.resolve_right ?_⟩
  rintro ⟨c, r, hr, -⟩
  exact absurd (h.ranked _ hr) (by simp [Event.op, Op.rank])

theorem dispatch_abort (h : Settled e) :
    Pipe e.toExecutionState True .abort (e.dispatch .abort) := by
  have hc : Core e.toExecutionState True 0
      { e with currentRequest := some .abort, requestFinished := false } :=
    (h.core True).advance rfl rfl (.of_eq rfl rfl rfl) fun _ _ _ _ _ => rfl
  exact hc.abort h.pending h.outcome (h.posted.congr rfl rfl) (by simp) (by simp [h.status])
    h.unfinished (.inl trivial)

theorem dispatch_commit (h : Settled e) :
    Pipe e.toExecutionState False .upload (e.dispatch .commit) := by
  let z := ((({ e with currentRequest := some .commit, requestFinished := false } :
    TransactionExecution K V S).resetResultRecord none).resetUpload).push .upload
  have hz : Ready e.toExecutionState False 0 [] (some .upload) z := by
    refine ⟨(h.core False).advance rfl rfl (.of_eq rfl rfl rfl) fun _ _ _ _ _ => rfl,
      ⟨?_, h.pending⟩, h.outcome, h.posted.congr rfl rfl⟩
    have ho : e.operationVector.Occupied fun _ => False := h.operationVector ▸ Slots.occupied_nil
    exact (ho.pushBack (x := Op.upload) id).congr fun w => by simp [eq_comm]
  have hidx : (uploadFamily : Family K V S).index z.args = List.range e.keyWriteSet.popIndex := rfl
  refine hz.family (F := uploadFamily) (s := .upload) Nat.one_pos (fun _ => rfl) rfl
    (fun _ _ => Iff.rfl) ?_ ?_ ?_ ?_
  · intro j index k hj hk log' _
    rw [hidx] at hj
    obtain ⟨hlt, rfl⟩ := List.getElem?_eq_some_iff.mp hj
    obtain ⟨key, hkey, rfl⟩ := Option.map_eq_some_iff.mp hk
    rw [List.getElem_range] at hkey ⊢
    exact ⟨by simpa using hlt, key, hkey, rfl⟩
  · exact ⟨fun hc => absurd (h.unfinished.symm.trans hc) (by simp), by simp⟩
  · intro _
    refine List.filter_eq_nil_iff.mpr fun k hk => ?_
    obtain ⟨j, -, hj⟩ := List.mem_filterMap.mp hk
    obtain ⟨key, -, rfl⟩ := Option.map_eq_some_iff.mp hj
    simp [HandlerCall.isOutcome]
  · intro hi
    change UploadFacts e.toExecutionState (call .upload z)
    have hd : (call .upload z).toExecutionState = z.toExecutionState := hi.data
    have hsize : List.range (call .upload z).args.uploadSize = List.range e.keyWriteSet.popIndex :=
      hi.index
    have hchild : ∀ j < e.keyWriteSet.popIndex,
        ((call .upload z).flags (.uploadVersionEntry j)).moveToNext = false :=
      fun j hj => hi.flags_child j (by simpa [hidx] using hj)
    refine ⟨?_, ?_, .inl ?_, ?_, ?_⟩
    · simpa using congrArg List.length hsize
    · intro j hj
      exact hi.entry j j (by rw [hidx, List.getElem?_range hj])
    · exact (congrArg ExecutionState.status hd).trans h.status
    · intro j _ _
      rw [show (call .upload z).keyWriteSet = e.keyWriteSet from
        (congrArg ExecutionState.keyWriteSet hd :)]
    · intro j hj hm
      exact absurd ((hchild j hj).symm.trans hm) (by simp)

end Settled

end TransactionExecution

end Fugue
