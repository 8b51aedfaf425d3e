import Fugue.CommitDecision

namespace Fugue

open ExecutionState

variable {K V S : Type}

namespace TransactionExecution

/-- The read-set entry whose counter the call of an operation gives back. -/
def counterOf (e : TransactionExecution K V S) : Op → Option ℕ
  | .updateReadEntryMaxCommitTs i => some (e.args.rereadEntry i)
  | .postProcessingCommitEntryAfterCommit i =>
    (e.keyWriteSet.entry (e.args.commitEntry i)).readEntry
  | .releaseReadCounterForEachEntry i => some (e.args.releaseEntry i)
  | _ => none

/-- A re-read that failed gives nothing back. -/
def givesBack (e : TransactionExecution K V S) (op : Op) (isError : Bool) : Option ℕ :=
  match op with
  | .updateReadEntryMaxCommitTs _ => if isError then none else e.counterOf op
  | _ => e.counterOf op

def released (e : TransactionExecution K V S) : Action K V → Option ℕ
  | .complete op reply => e.givesBack op reply.isError
  | _ => none

def given (e : TransactionExecution K V S) : Event K V → Option ℕ
  | .issued .. => none
  | .answered op _ r => e.givesBack op r.isError

def RereadFailed (log : List (Event K V)) (op : Op) : Prop :=
  ∃ i c r, op = .updateReadEntryMaxCommitTs i ∧
    Event.answered (.updateReadEntryMaxCommitTs i) c r ∈ log ∧ r.isError = true

def UploadsDiffer (log : List (Event K V)) : Prop :=
  ∀ op op' k v v' (r : Reply V op) (r' : Reply V op'),
    Event.answered op (.uploadVersion k v) r ∈ log → r.isError = false →
    Event.answered op' (.uploadVersion k v') r' ∈ log → r'.isError = false →
    v.version = v'.version → op = op'

section

variable {e e' : TransactionExecution K V S}

theorem counterOf_of_givesBack {op : Op} {b : Bool} {j : ℕ} (h : e.givesBack op b = some j) :
    e.counterOf op = some j := by
  cases op with
  | updateReadEntryMaxCommitTs i =>
    cases b with
    | true => cases h
    | false => exact h
  | _ => exact h

theorem givesBack_congr {op : Op} (h : e'.counterOf op = e.counterOf op) (b : Bool) :
    e'.givesBack op b = e.givesBack op b := by
  unfold givesBack
  split <;> rw [h]

theorem rank_of_counterOf {op : Op} {j : ℕ} (h : e.counterOf op = some j) :
    op.rank = 3 ∨ op.rank = 6 ∨ op.rank = 9 := by
  cases op with
  | updateReadEntryMaxCommitTs i => exact .inl rfl
  | postProcessingCommitEntryAfterCommit i => exact .inr (.inl rfl)
  | releaseReadCounterForEachEntry i => exact .inr (.inr rfl)
  | _ => cases h

theorem counterOf_congr (ha : e'.args.rereadEntry = e.args.rereadEntry)
    (hc : e'.args.commitEntry = e.args.commitEntry)
    (hr : e'.args.releaseEntry = e.args.releaseEntry)
    (hw : ∀ i, (e'.keyWriteSet.entry i).readEntry = (e.keyWriteSet.entry i).readEntry) (op : Op) :
    e'.counterOf op = e.counterOf op := by
  cases op with
  | updateReadEntryMaxCommitTs i => simp only [counterOf, ha]
  | postProcessingCommitEntryAfterCommit i => simp only [counterOf, hc, hw]
  | releaseReadCounterForEachEntry i => simp only [counterOf, hr]
  | _ => rfl

theorem counterOf_of_args (ha : e'.args = e.args) (hw : e'.keyWriteSet = e.keyWriteSet) (op : Op) :
    e'.counterOf op = e.counterOf op := by
  apply counterOf_congr
  · rw [ha]
  · rw [ha]
  · rw [ha]
  · intro i
    rw [hw]

theorem RereadFailed.mono {log log' : List (Event K V)} {op : Op} (h : RereadFailed log op)
    (hl : log ⊆ log') : RereadFailed log' op := by
  obtain ⟨i, c, r, hop, hr, he⟩ := h
  exact ⟨i, c, r, hop, hl hr, he⟩

theorem needRelease_clearRelease (p : KeyReadSetEntryPool K) {i j : ℕ} (hj : j < p.popIndex) :
    ((p.clearRelease i).entry j).needRelease =
      if j = i then false else (p.entry j).needRelease := by
  simp only [KeyReadSetEntryPool.clearRelease, KeyReadSetEntryPool.entry, Pool.get_modify p _ hj]
  split <;> rfl

end

section

variable [DecidableEq K] [Services S] {e e' e₁ : TransactionExecution K V S}

structure Counting (op : Op) (e e' : TransactionExecution K V S) : Prop where
  counterOf : ∀ z, e'.counterOf z = e.counterOf z
  size : e'.keyReadSet.popIndex = e.keyReadSet.popIndex
  needRelease : ∀ j < e.keyReadSet.popIndex, (e'.keyReadSet.entry j).needRelease =
    if e.givesBack op (e.handlerResult op).isError = some j then false
    else (e.keyReadSet.entry j).needRelease

namespace Counting

omit [DecidableEq K] [Services S]

theorem still {op : Op} (hc : ∀ z, e'.counterOf z = e.counterOf z)
    (hr : e'.keyReadSet = e.keyReadSet)
    (hg : e.givesBack op (e.handlerResult op).isError = none) : Counting op e e' where
  counterOf := hc
  size := by rw [hr]
  needRelease j _ := by
    rw [hr, if_neg]
    rw [hg]
    simp

theorem clear {op : Op} {i : ℕ} (hc : ∀ z, e'.counterOf z = e.counterOf z)
    (hr : e'.keyReadSet = e.keyReadSet.clearRelease i)
    (hg : e.givesBack op (e.handlerResult op).isError = some i) : Counting op e e' where
  counterOf := hc
  size := by
    rw [hr]
    rfl
  needRelease j hj := by
    rw [hr, needRelease_clearRelease _ hj, hg]
    simp [eq_comm]

end Counting

omit [DecidableEq K] [Services S] in
theorem readEntry_setPostProcessing (p : KeyWriteSetEntryPool K) (i j : ℕ) :
    ((p.setPostProcessing j).entry i).readEntry = (p.entry i).readEntry :=
  Pool.get_modify_field (fun o : KeyWriteSetEntry K => o.entry.readEntry) _ _ _ _ fun _ => rfl

theorem reread_counting {i : ℕ} {o : Option Op}
    (hn : next (.updateReadEntryMaxCommitTs i) e = .ok (o, e₁)) :
    Counting (.updateReadEntryMaxCommitTs i) e e₁ := by
  have hclear : (e.handlerResult (.updateReadEntryMaxCommitTs i)).isError = false →
      e.givesBack (.updateReadEntryMaxCommitTs i)
        (e.handlerResult (.updateReadEntryMaxCommitTs i)).isError = some (e.args.rereadEntry i) := by
    intro he
    rw [he]
    rfl
  simp only [next, nextImpl, updateReadEntryMaxCommitTsNext] at hn
  split at hn
  · next he =>
    cases hn
    apply Counting.still
    · exact counterOf_of_args rfl rfl
    · rfl
    · exact if_pos he
  · next he =>
    have hg := hclear (Bool.eq_false_iff.mpr he)
    split at hn
    · cases hn
      exact .clear (counterOf_of_args rfl rfl) rfl hg
    · split at hn
      · cases hn
      · split at hn
        · cases hn
          exact .clear (counterOf_of_args rfl rfl) rfl hg
        · split at hn
          · cases hn
            exact .clear (counterOf_congr rfl rfl rfl fun _ => rfl) rfl hg
          · cases hn
            exact .clear (counterOf_of_args rfl rfl) rfl hg

theorem commit_counting {i : ℕ} {o : Option Op}
    (hn : next (.postProcessingCommitEntryAfterCommit i) e = .ok (o, e₁)) :
    Counting (.postProcessingCommitEntryAfterCommit i) e e₁ := by
  simp only [next, nextImpl, clearReleaseOfWrite] at hn
  split at hn
  · cases hn
  · split at hn
    · next j hj =>
      cases hn
      exact .clear (counterOf_of_args rfl rfl) rfl hj
    · next hj =>
      cases hn
      exact .still (counterOf_of_args rfl rfl) rfl hj

theorem delete_counting {i : ℕ} {o : Option Op}
    (hpost : ∀ j < e.keyReadSet.popIndex, (e.keyReadSet.entry j).needPostProcessing = false)
    (hn : next (.postProcessingDeleteEntryAfterAbort i) e = .ok (o, e₁)) :
    Counting (.postProcessingDeleteEntryAfterAbort i) e e₁ := by
  simp only [next, nextImpl, deleteEntryNext] at hn
  split at hn
  · cases hn
  · split at hn
    · next j hj =>
      split at hn
      · next hneed =>
        cases hn
        refine ⟨counterOf_of_args rfl rfl, rfl, fun l hl => ?_⟩
        -- no live entry is marked, so the entry that is cleared is not live
        have hne : l ≠ j := by
          rintro rfl
          exact absurd ((hpost l hl).symm.trans hneed) (by simp)
        refine (needRelease_clearRelease e.keyReadSet hl).trans ?_
        rw [if_neg hne]
        exact (if_neg (by simp [givesBack, TransactionExecution.counterOf])).symm
      · cases hn
        exact .still (counterOf_of_args rfl rfl) rfl rfl
    · cases hn
      exact .still (counterOf_of_args rfl rfl) rfl rfl

theorem next_counting {op : Op} {o : Option Op} (hop : 0 < op.rank)
    (hpost : ∀ j < e.keyReadSet.popIndex, (e.keyReadSet.entry j).needPostProcessing = false)
    (hn : next op e = .ok (o, e₁)) : Counting op e e₁ := by
  cases op with
  | updateReadEntryMaxCommitTs i => exact reread_counting hn
  | postProcessingCommitEntryAfterCommit i => exact commit_counting hn
  | postProcessingDeleteEntryAfterAbort i => exact delete_counting hpost hn
  | uploadVersionEntry i =>
    simp only [next, nextImpl, uploadVersionEntryNext] at hn
    split at hn <;> cases hn
    · exact .still (counterOf_of_args rfl rfl) rfl rfl
    · exact .still (counterOf_congr rfl rfl rfl (readEntry_setPostProcessing _ · _)) rfl rfl
  | releaseReadCounterForEachEntry i =>
    simp only [next, nextImpl] at hn
    split at hn <;> cases hn
    exact .clear (counterOf_of_args rfl rfl) rfl rfl
  | insert | upsert | update | delete | readOutside | initTxn | readDataStore => cases hop
  | _ =>
    simp only [next, nextImpl, pushConflictNext] at hn
    repeat' split at hn
    all_goals cases hn
    all_goals exact .still (counterOf_congr rfl rfl rfl fun _ => rfl) rfl rfl

end

/-- The entries whose counter is given back are those that an answered call covers, and no two
calls cover one entry, unless the one that re-read it failed. -/
structure Counted (x : ExecutionState K V S) (gone : List ℕ) (e : TransactionExecution K V S) :
    Prop where
  gone : e.log.filterMap e.given = gone
  cleared : ∀ j < x.keyReadSet.popIndex, (e.keyReadSet.entry j).needRelease = false ↔
    ∃ op c r, Event.answered op c r ∈ e.log ∧ (e.flags op).moveToNext = true ∧
      e.givesBack op r.isError = some j
  reread : ∀ i c, Event.issued (.updateReadEntryMaxCommitTs i) c ∈ e.log →
    x.unupdated[i]? = e.counterOf (.updateReadEntryMaxCommitTs i)
  distinct : ∀ op op' c c' j, Event.issued op c ∈ e.log → Event.issued op' c' ∈ e.log →
    e.counterOf op = some j → e.counterOf op' = some j →
    op = op' ∨ RereadFailed e.log op ∨ RereadFailed e.log op'

section

variable {x : ExecutionState K V S} {gone : List ℕ} {gaveUp : Prop} {n : ℕ}
variable {e e' e₁ : TransactionExecution K V S} {i : ℕ} {op y : Op}

theorem given_congr {ev : Event K V} (h : e'.counterOf ev.op = e.counterOf ev.op) :
    e'.given ev = e.given ev := by
  cases ev with
  | issued op c => rfl
  | answered op c r => exact givesBack_congr h _

theorem given_issues (l : List (Op × HandlerCall K)) :
    (issues l : List (Event K V)).filterMap e.given = [] := by
  rw [List.filterMap_eq_nil_iff]
  intro ev hev
  obtain ⟨p, -, rfl⟩ := List.mem_map.mp hev
  rfl

theorem mem_issues {l : List (Op × HandlerCall K)} {c : HandlerCall K} :
    Event.issued op c ∈ (issues l : List (Event K V)) ↔ (op, c) ∈ l := by
  constructor
  · intro h
    obtain ⟨p, hp, hpe⟩ := List.mem_map.mp h
    obtain ⟨rfl, rfl⟩ := Event.issued.inj hpe
    exact hp
  · intro h
    exact List.mem_map.mpr ⟨_, h, rfl⟩

theorem answered_issues {l : List (Op × HandlerCall K)} {c : HandlerCall K} {r : Reply V op} :
    Event.answered op c r ∉ (issues l : List (Event K V)) := by
  intro h
  obtain ⟨p, -, hp⟩ := List.mem_map.mp h
  cases hp

theorem Counted.grow (h : Counted x gone e)
    (hc : ∀ op c (r : Reply V op), Event.answered op c r ∈ e.log → Event.issued op c ∈ e.log)
    {l : List (Op × HandlerCall K)} (hl : e'.log = e.log ++ issues l)
    (hr : e'.keyReadSet = e.keyReadSet)
    (hold : ∀ op c, Event.issued op c ∈ e.log → e'.counterOf op = e.counterOf op ∧
      (e.counterOf op ≠ none → e'.flags op = e.flags op))
    (hre : ∀ i c, (.updateReadEntryMaxCommitTs i, c) ∈ l →
      x.unupdated[i]? = e'.counterOf (.updateReadEntryMaxCommitTs i))
    (hnew : ∀ op c j, (op, c) ∈ l → e'.counterOf op = some j →
      (∀ op' c', Event.issued op' c' ∈ e.log → e.counterOf op' = some j →
        RereadFailed e.log op') ∧
      ∀ op' c', (op', c') ∈ l → e'.counterOf op' = some j → op' = op) : Counted x gone e' where
  gone := by
    rw [hl, List.filterMap_append, given_issues, List.append_nil, ← h.gone]
    apply List.filterMap_congr
    intro ev hev
    cases ev with
    | issued op c => rfl
    | answered op c r => exact givesBack_congr (hold op c (hc op c r hev)).1 _
  cleared j hj := by
    rw [hr, h.cleared j hj]
    have hsame : ∀ op c (r : Reply V op), Event.answered op c r ∈ e.log →
        ((e.flags op).moveToNext = true ∧ e.givesBack op r.isError = some j ↔
          (e'.flags op).moveToNext = true ∧ e'.givesBack op r.isError = some j) := by
      intro op c r hans
      obtain ⟨h1, h2⟩ := hold op c (hc op c r hans)
      rw [givesBack_congr h1]
      apply and_congr_left
      intro hg
      rw [h2 (by simp [counterOf_of_givesBack hg])]
    constructor
    · rintro ⟨op, c, r, hans, hg⟩
      refine ⟨op, c, r, ?_, (hsame op c r hans).mp hg⟩
      rw [hl]
      exact List.mem_append_left _ hans
    · rintro ⟨op, c, r, hans, hg⟩
      rw [hl] at hans
      have hans' := (List.mem_append.mp hans).resolve_right answered_issues
      exact ⟨op, c, r, hans', (hsame op c r hans').mpr hg⟩
  reread i c hi := by
    rw [hl] at hi
    rcases List.mem_append.mp hi with hi | hi
    · rw [(hold _ c hi).1]
      exact h.reread i c hi
    · exact hre i c (mem_issues.mp hi)
  distinct op op' c c' j hi hi' hop hop' := by
    have hsub : e.log ⊆ e'.log := hl ▸ List.subset_append_left _ _
    rw [hl] at hi hi'
    rcases List.mem_append.mp hi with hi | hi <;> rcases List.mem_append.mp hi' with hi' | hi'
    · rw [(hold _ c hi).1] at hop
      rw [(hold _ c' hi').1] at hop'
      apply (h.distinct op op' c c' j hi hi' hop hop').imp_right
      exact Or.imp (fun hf => hf.mono hsub) fun hf => hf.mono hsub
    · rw [(hold _ c hi).1] at hop
      have hf := (hnew op' c' j (mem_issues.mp hi') hop').1 op c hi hop
      exact .inr (.inl (hf.mono hsub))
    · rw [(hold _ c' hi').1] at hop'
      have hf := (hnew op c j (mem_issues.mp hi) hop).1 op' c' hi' hop'
      exact .inr (.inr (hf.mono hsub))
    · exact .inl ((hnew op' c' j (mem_issues.mp hi') hop').2 op c (mem_issues.mp hi) hop)

theorem Counted.grow_other (h : Counted x gone e)
    (hc : ∀ op c (r : Reply V op), Event.answered op c r ∈ e.log → Event.issued op c ∈ e.log)
    {l : List (Op × HandlerCall K)} (hl : e'.log = e.log ++ issues l)
    (hr : e'.keyReadSet = e.keyReadSet) (hold : ∀ op, e'.counterOf op = e.counterOf op)
    (hf : ∀ op, e.counterOf op ≠ none → e'.flags op = e.flags op)
    (hnew : ∀ op c, (op, c) ∈ l → e.counterOf op = none) : Counted x gone e' := by
  apply h.grow hc hl hr
  · exact fun op c _ => ⟨hold op, hf op⟩
  · intro i c hi
    cases hnew _ c hi
  · intro op c j hi hop
    rw [hold, hnew op c hi] at hop
    cases hop

variable [DecidableEq K]

theorem Counted.complete (h : Counted x gone e) {c : HandlerCall K} {r : Reply V op}
    (hc : Completed op c r e e') (hmv : (e.flags op).moveToNext = false) :
    Counted x (gone ++ (e.released (.complete op r)).toList) e' := by
  have hold : ∀ z, e'.counterOf z = e.counterOf z := counterOf_of_args hc.args hc.keyWriteSet
  have hlog : ∀ ev ∈ e'.log, ev ∈ e.log ∨ ev = .answered op c r := by
    intro ev hev
    rw [hc.log] at hev
    exact (List.mem_append.mp hev).imp_right List.mem_singleton.mp
  have hissued : ∀ op' c', Event.issued op' c' ∈ e'.log → Event.issued op' c' ∈ e.log := by
    intro op' c' hi
    rcases hlog _ hi with hi | hi
    · exact hi
    · cases hi
  constructor
  · rw [hc.log, List.filterMap_append, ← h.gone]
    have hsame : e'.given = e.given := funext fun ev => given_congr (hold ev.op)
    rw [hsame]
    rfl
  · intro j hj
    rw [hc.keyReadSet, h.cleared j hj, hc.flags]
    constructor
    · rintro ⟨op', c', r', hans, hm, hg⟩
      refine ⟨op', c', r', hc.log_subset hans, hm, ?_⟩
      rw [givesBack_congr (hold op')]
      exact hg
    · rintro ⟨op', c', r', hans, hm, hg⟩
      rw [givesBack_congr (hold op')] at hg
      rcases hlog _ hans with hans | hans
      · exact ⟨op', c', r', hans, hm, hg⟩
      · have hop : op' = op := congrArg Event.op hans
        rw [hop, hmv] at hm
        cases hm
  · intro i c' hi
    rw [hold]
    exact h.reread i c' (hissued _ _ hi)
  · intro op₁ op₂ c₁ c₂ j h₁ h₂ hj₁ hj₂
    rw [hold] at hj₁ hj₂
    apply (h.distinct op₁ op₂ c₁ c₂ j (hissued _ _ h₁) (hissued _ _ h₂) hj₁ hj₂).imp_right
    exact Or.imp (fun hf => hf.mono hc.log_subset) fun hf => hf.mono hc.log_subset

variable [Services S]

theorem Counted.next (h : Counted x gone e) (hc : Core x gaveUp n e) {o : Option Op}
    (hop : 0 < op.rank)
    (hpost : ∀ j < e.keyReadSet.popIndex, (e.keyReadSet.entry j).needPostProcessing = false)
    (hans : e.counterOf op ≠ none → ∃ c r, Event.answered op c r ∈ e.log ∧
      e.handlerResult op = ⟨r.result, true, r.isError, 0⟩)
    (hn : next op e = .ok (o, e₁)) : Counted x gone (e₁.setSlot i o) := by
  have ha := next_advanced hn
  have hk := next_counting hop hpost hn
  have hold : ∀ z, (e₁.setSlot i o).counterOf z = e.counterOf z := hk.counterOf
  have hlog : (e₁.setSlot i o).log = e.log := ha.log
  constructor
  · rw [hlog, ← h.gone]
    apply List.filterMap_congr
    exact fun ev _ => given_congr (hold ev.op)
  · intro j hj
    have hj' : j < e.keyReadSet.popIndex := hc.sets.readSize ▸ hj
    have hflag : (e₁.setSlot i o).flags = Function.update e.flags op ⟨true, o.isSome⟩ := ha.flags
    have hrelease : ((e₁.setSlot i o).keyReadSet.entry j).needRelease =
        if e.givesBack op (e.handlerResult op).isError = some j then false
        else (e.keyReadSet.entry j).needRelease := hk.needRelease j hj'
    rw [hrelease, hflag, hlog]
    by_cases hg : e.givesBack op (e.handlerResult op).isError = some j
    · rw [if_pos hg]
      obtain ⟨c, r, hr, hres⟩ := hans (by simp [counterOf_of_givesBack hg])
      rw [hres] at hg
      refine iff_of_true rfl ⟨op, c, r, hr, ?_, ?_⟩
      · rw [Function.update_self]
      · rw [givesBack_congr (hold op)]
        exact hg
    · rw [if_neg hg, h.cleared j hj]
      constructor
      · rintro ⟨z, c, r, hr, hm, hz⟩
        refine ⟨z, c, r, hr, ?_, ?_⟩
        · by_cases hzo : z = op
          · rw [hzo, Function.update_self]
          · rw [Function.update_of_ne hzo]
            exact hm
        · rw [givesBack_congr (hold z)]
          exact hz
      · rintro ⟨z, c, r, hr, hm, hz⟩
        rw [givesBack_congr (hold z)] at hz
        have hzo : z ≠ op := by
          rintro rfl
          apply hg
          rw [hc.agree z c r hr hop]
          exact hz
        rw [Function.update_of_ne hzo] at hm
        exact ⟨z, c, r, hr, hm, hz⟩
  · intro l c hl
    rw [hlog] at hl
    rw [hold]
    exact h.reread l c hl
  · intro op₁ op₂ c₁ c₂ j h₁ h₂ hj₁ hj₂
    rw [hlog] at h₁ h₂ ⊢
    rw [hold] at hj₁ hj₂
    exact h.distinct op₁ op₂ c₁ c₂ j h₁ h₂ hj₁ hj₂

def Family.SetsOwn (F : Family K V S) : Prop :=
  ∀ (z : TransactionExecution K V S) i j op, op ≠ F.child i →
    (F.reset z i j).counterOf op = z.counterOf op

theorem upload_setsOwn : (uploadFamily : Family K V S).SetsOwn :=
  fun _ _ _ op _ => counterOf_congr rfl rfl rfl (fun _ => rfl) op

theorem delete_setsOwn : (deleteFamily : Family K V S).SetsOwn :=
  fun _ _ _ op _ => counterOf_congr rfl rfl rfl (fun _ => rfl) op

theorem validate_setsOwn : (validateFamily : Family K V S).SetsOwn := by
  intro z i j op hop
  cases op with
  | updateReadEntryMaxCommitTs l =>
    have hl : l ≠ i := by
      rintro rfl
      exact hop rfl
    exact congrArg some ((validateFamily.entry_reset z i j l).trans (if_neg hl))
  | _ => rfl

theorem commit_setsOwn : (commitFamily : Family K V S).SetsOwn := by
  intro z i j op hop
  cases op with
  | postProcessingCommitEntryAfterCommit l =>
    have hl : l ≠ i := by
      rintro rfl
      exact hop rfl
    exact congrArg (fun w => (z.keyWriteSet.entry w).readEntry)
      ((commitFamily.entry_reset z i j l).trans (if_neg hl))
  | _ => rfl

theorem release_setsOwn : (releaseFamily : Family K V S).SetsOwn := by
  intro z i j op hop
  cases op with
  | releaseReadCounterForEachEntry l =>
    have hl : l ≠ i := by
      rintro rfl
      exact hop rfl
    exact congrArg some ((releaseFamily.entry_reset z i j l).trans (if_neg hl))
  | _ => rfl

theorem Family.call_counterOf (F : Family K V S) (hF : F.SetsOwn)
    (e : TransactionExecution K V S) (hop : ∀ i, op ≠ F.child i) :
    (call F.parent e).counterOf op = e.counterOf op := by
  have hstep : ∀ (z : TransactionExecution K V S) i j,
      ((F.reset z i j).invoke (F.child i)).counterOf op = z.counterOf op := by
    intro z i j
    rw [← hF z i j op (hop i)]
    unfold invoke
    rw [F.call_child, issueCall_eq]
    exact counterOf_of_args rfl rfl op
  have hloop : ∀ (l : List (ℕ × ℕ)) (z : TransactionExecution K V S),
      (l.foldl (fun z p => (F.reset z p.2 p.1).invoke (F.child p.2)) z).counterOf op =
        z.counterOf op := by
    intro l
    induction l with
    | nil => exact fun z => rfl
    | cons p l ih => exact fun z => (ih _).trans (hstep z p.2 p.1)
  rw [F.call_parent]
  exact (hloop _ _).trans (counterOf_of_args rfl rfl op)

theorem Counted.family {F : Family K V S} {m : ℕ} (h : Counted x gone e) (hc : Core x gaveUp n e)
    (hn : n < m) (hm : ∀ i, (F.child i).rank = m) (hp : e.counterOf F.parent = none)
    (hF : F.SetsOwn)
    (hre : ∀ i < (F.index e.args).length, ∀ l, F.child i = .updateReadEntryMaxCommitTs l →
      x.unupdated[l]? = (call F.parent e).counterOf (.updateReadEntryMaxCommitTs l))
    (hnew : ∀ i < (F.index e.args).length, ∀ j,
      (call F.parent e).counterOf (F.child i) = some j →
      (∀ op' c', Event.issued op' c' ∈ e.log → e.counterOf op' = some j →
        RereadFailed e.log op') ∧
      ∀ i' < (F.index e.args).length, (call F.parent e).counterOf (F.child i') = some j →
        i' = i) : Counted x gone (call F.parent e) := by
  have hi := invokeAll_invoked F (F.index e.args) (e.setMoveToNext F.parent false)
  rw [← F.call_parent] at hi
  have hmem : ∀ op c, (op, c) ∈ calls F.child F.request e.toExecutionState (F.index e.args) →
      ∃ i < (F.index e.args).length, op = F.child i := by
    intro op c hop
    obtain ⟨i, index, hi, rfl, -⟩ := mem_calls.mp hop
    exact ⟨i, (List.getElem?_eq_some_iff.mp hi).1, rfl⟩
  apply h.grow (fun _ _ _ => hc.issued_of_answered) hi.log
  · exact (congrArg ExecutionState.keyReadSet hi.data :)
  · intro op c hop
    have hne : ∀ i, op ≠ F.child i := by
      rintro i rfl
      exact hc.not_issued (hm i ▸ hn) c hop
    refine ⟨F.call_counterOf hF e hne, fun hop => ?_⟩
    rw [hi.flags_other op fun i _ => hne i]
    refine Function.update_of_ne ?_ _ _
    rintro rfl
    exact hop hp
  · intro l c hl
    obtain ⟨i, hi, hop⟩ := hmem _ c hl
    exact hre i hi l hop.symm
  · intro op c j hop hj
    obtain ⟨i, hi, rfl⟩ := hmem op c hop
    refine ⟨(hnew i hi j hj).1, fun op' c' hop' hj' => ?_⟩
    obtain ⟨i', hi', rfl⟩ := hmem op' c' hop'
    rw [(hnew i hi j hj).2 i' hi' hj']

theorem Counted.upload (h : Counted x gone e) (hc : Core x gaveUp 0 e) :
    Counted x gone (call .upload e) := by
  apply h.family (F := uploadFamily) hc Nat.one_pos (fun _ => rfl) rfl upload_setsOwn
  · intro i _ l hl
    cases hl
  · intro i _ j hj
    cases hj

theorem Counted.delete (h : Counted x gone e) (hc : Core x gaveUp n e) (hn : n < 8) :
    Counted x gone (call .postProcessingAfterAbort e) := by
  apply h.family (F := deleteFamily) hc hn (fun _ => rfl) rfl delete_setsOwn
  · intro i _ l hl
    cases hl
  · intro i _ j hj
    cases hj

theorem Counted.validate (h : Counted x gone e) (hc : Core x gaveUp n e) (hn : n < 3)
    (hidx : e.args.validateIndex = x.unupdated) : Counted x gone (call .validate e) := by
  have hi : Invoked validateFamily e.args.validateIndex (e.setMoveToNext .validate false)
      (call .validate e) := invokeAll_invoked validateFamily _ _
  rw [hidx] at hi
  have hcov : ∀ i < x.unupdated.length,
      (call .validate e).counterOf (.updateReadEntryMaxCommitTs i) = x.unupdated[i]? := by
    intro i hlt
    rw [List.getElem?_eq_getElem hlt]
    exact congrArg some (hi.entry i _ (List.getElem?_eq_getElem hlt))
  apply h.family (F := validateFamily) hc hn (fun _ => rfl) rfl validate_setsOwn
  · rintro i hlt l hl
    obtain rfl := Op.updateReadEntryMaxCommitTs.inj hl
    exact (hcov i (hidx ▸ hlt)).symm
  · intro i hlt j hj
    have hlt' : i < x.unupdated.length := hidx ▸ hlt
    constructor
    · intro op' c' hi' hj'
      have hr : op'.rank ≤ n := hc.ranked _ hi'
      have := rank_of_counterOf hj'
      omega
    · intro i' hi' hj'
      have hi'' : i' < x.unupdated.length := hidx ▸ hi'
      have hsame : x.unupdated[i']? = x.unupdated[i]? := by
        rw [← hcov i hlt', ← hcov i' hi'']
        exact hj'.trans hj.symm
      have hnodup : x.unupdated.Nodup := List.nodup_range.filter _
      exact (List.getElem?_inj hi'' hnodup).mp hsame

omit [DecidableEq K] [Services S] in
theorem Core.readEntry_inj (hc : Core x gaveUp n e) {log : List (Event K V)}
    (entries : Entries log x.keyReadSet.popIndex x) (hup : AllUploaded x e.log)
    (hd : UploadsDiffer e.log) {i i' : ℕ} (hi : i < x.keyWriteSet.popIndex)
    (hi' : i' < x.keyWriteSet.popIndex)
    (hr : (x.keyWriteSet.entry i).readEntry = (x.keyWriteSet.entry i').readEntry) : i = i' := by
  obtain ⟨k, j, hk, hj, -, hkj, hver, -⟩ := entries.write i hi
  obtain ⟨k', j', hk', hj', -, hkj', hver', -⟩ := entries.write i' hi'
  obtain rfl : j = j' := Option.some.inj (hj.symm.trans (hr.trans hj'))
  obtain rfl : k = k' := Option.some.inj (hkj.symm.trans hkj')
  obtain ⟨c, r, hans, he⟩ := hup i hi
  obtain ⟨c', r', hans', he'⟩ := hup i' hi'
  obtain ⟨-, -, -, k₁, hk₁, rfl⟩ := hc.callOk (hc.issued_of_answered hans)
  obtain ⟨-, -, -, k₂, hk₂, rfl⟩ := hc.callOk (hc.issued_of_answered hans')
  obtain rfl : k = k₁ := Option.some.inj (hk.symm.trans hk₁)
  obtain rfl : k = k₂ := Option.some.inj (hk'.symm.trans hk₂)
  have hop := hd _ _ k _ _ r r' hans he hans' he' (hver.trans hver'.symm)
  exact Op.uploadVersionEntry.inj hop

theorem Counted.commit (h : Counted x gone e) (hc : Core x gaveUp n e) (hn : n < 6)
    {log : List (Event K V)} (entries : Entries log x.keyReadSet.popIndex x)
    (hup : AllUploaded x e.log) (hd : UploadsDiffer e.log)
    (hidx : e.args.commitIndex = e.postProcessIndex) :
    Counted x gone (call .postProcessingAfterCommit e) := by
  have hi : Invoked commitFamily e.args.commitIndex
      (e.setMoveToNext .postProcessingAfterCommit false) (call .postProcessingAfterCommit e) :=
    invokeAll_invoked commitFamily _ _
  have hnodup : e.args.commitIndex.Nodup := by
    rw [hidx]
    exact List.nodup_range.filter _
  have hcov : ∀ i < e.args.commitIndex.length, ∃ w < x.keyWriteSet.popIndex,
      e.args.commitIndex[i]? = some w ∧ (call .postProcessingAfterCommit e).counterOf
        (.postProcessingCommitEntryAfterCommit i) = (x.keyWriteSet.entry w).readEntry := by
    intro i hlt
    have hget : e.args.commitIndex[i]? = some e.args.commitIndex[i] :=
      List.getElem?_eq_getElem hlt
    have hmem : e.args.commitIndex[i] ∈ e.postProcessIndex := hidx ▸ List.getElem_mem hlt
    refine ⟨_, hc.sets.writeSize ▸ (mem_postProcessIndex.mp hmem).1, hget, ?_⟩
    have hentry : (call .postProcessingAfterCommit e).args.commitEntry i =
        e.args.commitIndex[i] := hi.entry i _ hget
    simp only [counterOf, hentry]
    rw [show (call .postProcessingAfterCommit e).keyWriteSet = e.keyWriteSet from
      (congrArg ExecutionState.keyWriteSet hi.data :)]
    exact (congrArg WriteSetEntry.readEntry (hc.sets.write _) :)
  apply h.family (F := commitFamily) hc hn (fun _ => rfl) rfl commit_setsOwn
  · intro i _ l hl
    cases hl
  · intro i hlt j hj
    obtain ⟨w, hw, hget, hcw⟩ := hcov i hlt
    have hwj : (x.keyWriteSet.entry w).readEntry = some j := hcw.symm.trans hj
    constructor
    · intro op' c' hi' hj'
      have hr : op'.rank ≤ n := hc.ranked _ hi'
      cases op' with
      | updateReadEntryMaxCommitTs l =>
        -- what is re-read was not updated
        obtain ⟨-, j', -, hwj', -, -, -, hu⟩ := entries.write w hw
        obtain rfl : j = j' := Option.some.inj (hwj.symm.trans hwj')
        have hget := (h.reread l c' hi').trans hj'
        have hmem := List.mem_of_getElem? hget
        simp [ExecutionState.unupdated, hu] at hmem
      | postProcessingCommitEntryAfterCommit l => exact absurd hn (Nat.not_lt.mpr hr)
      | releaseReadCounterForEachEntry l =>
        change 9 ≤ n at hr
        omega
      | _ => cases hj'
    · intro i' hlt' hj'
      obtain ⟨w', hw', hget', hcw'⟩ := hcov i' hlt'
      have hwj' : (x.keyWriteSet.entry w').readEntry = some j := hcw'.symm.trans hj'
      obtain rfl := hc.readEntry_inj entries hup hd hw hw' (hwj.trans hwj'.symm)
      exact (List.getElem?_inj hlt' hnodup).mp (hget'.trans hget.symm)

theorem Counted.release (h : Counted x gone e) (hc : Core x gaveUp n e) (hn : n < 9)
    (hmoved : ∀ l c, Event.issued (.updateReadEntryMaxCommitTs l) c ∈ e.log →
      (∃ r, Event.answered (.updateReadEntryMaxCommitTs l) c r ∈ e.log) ∧
        (e.flags (.updateReadEntryMaxCommitTs l)).moveToNext = true)
    (hun : ∀ ev ∈ e.log, ev.op.rank ≠ 6)
    (hidx : e.args.releaseIndex = (List.range e.keyReadSet.popIndex).filter
      fun i => (e.keyReadSet.entry i).needRelease) :
    Counted x gone (call .releaseReadCounter e) := by
  have hi : Invoked releaseFamily e.args.releaseIndex
      (e.setMoveToNext .releaseReadCounter false) (call .releaseReadCounter e) :=
    invokeAll_invoked releaseFamily _ _
  have hnodup : e.args.releaseIndex.Nodup := by
    rw [hidx]
    exact List.nodup_range.filter _
  have hcov : ∀ i < e.args.releaseIndex.length, ∀ j,
      (call .releaseReadCounter e).counterOf (.releaseReadCounterForEachEntry i) = some j →
      e.args.releaseIndex[i]? = some j := by
    intro i hlt j hj
    have hget : e.args.releaseIndex[i]? = some e.args.releaseIndex[i] :=
      List.getElem?_eq_getElem hlt
    have hentry : (call .releaseReadCounter e).args.releaseEntry i = e.args.releaseIndex[i] :=
      hi.entry i _ hget
    rw [hget, ← hentry]
    exact hj
  apply h.family (F := releaseFamily) hc hn (fun _ => rfl) rfl release_setsOwn
  · intro i _ l hl
    cases hl
  · intro i hlt j hj
    have hget := hcov i hlt j hj
    have hmem : j ∈ e.args.releaseIndex := List.mem_of_getElem? hget
    rw [hidx, List.mem_filter, List.mem_range, hc.sets.readSize] at hmem
    obtain ⟨hjn, hneed⟩ := hmem
    constructor
    · intro op' c' hi' hj'
      have hr : op'.rank ≤ n := hc.ranked _ hi'
      cases op' with
      | updateReadEntryMaxCommitTs l =>
        obtain ⟨⟨r, hans⟩, hmv⟩ := hmoved l c' hi'
        cases he : r.isError with
        | true => exact ⟨l, c', r, rfl, hans, he⟩
        | false =>
          have hg : e.givesBack (.updateReadEntryMaxCommitTs l) r.isError = some j := by
            rw [he]
            exact hj'
          have hclear := (h.cleared j hjn).mpr ⟨_, c', r, hans, hmv, hg⟩
          rw [hclear] at hneed
          cases hneed
      | postProcessingCommitEntryAfterCommit l => exact absurd rfl (hun _ hi')
      | releaseReadCounterForEachEntry l => exact absurd hn (Nat.not_lt.mpr hr)
      | _ => cases hj'
    · intro i' hlt' hj'
      exact (List.getElem?_inj hlt' hnodup).mp ((hcov i' hlt' j hj').trans hget.symm)

end

end TransactionExecution

end Fugue
