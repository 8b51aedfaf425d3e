import Fugue.LiveSteps
import Fugue.OperationFlight
import Fugue.RequestNotification
import Fugue.WriteSet

namespace Fugue

open ExecutionState

namespace TransactionExecution

variable {K V S : Type}

/-- All that the execution can reach is live: what is on the stack, what that waits for, and the
read set, up to the entry of a read that has not returned. -/
structure Linked (s : Fugue.Live) (e : TransactionExecution K V S) : Prop where
  reset : s.called ⊆ s.reset
  stack : ∀ i op, e.operationVector.slot i = some op → op ∈ s.called
  current : e.operationVector ≠ [] → e.currentRequest ≠ none
  children : ∀ op ∈ s.called, ∀ ops, e.children op = some ops → ∀ y ∈ ops, y ∈ s.called
  pushed : ∀ i, .updateReadEntryMaxCommitTs i ∈ s.called →
    e.flags (.updateReadEntryMaxCommitTs i) = ⟨true, true⟩ →
    .pushConflictTxnCommitTsLowerBound i ∈ s.called
  filled : ∀ i < e.keyReadSet.popIndex, i ∈ s.reads ∨
    i = e.args.readOutsideEntry ∧ ∃ j, e.operationVector.slot j = some .readOutside

structure Sound (e : TransactionExecution K V S) : Prop where
  entry : ∀ i, e.operationVector.slot i = some .readOutside →
    e.args.readOutsideEntry + 1 = e.keyReadSet.popIndex
  waits : ∀ i op, e.operationVector.slot i = some op → e.isFinished op = true →
    op ≠ .readOutside → ∀ j, e.operationVector.slot j ≠ some .readOutside
  aborting : e.status = .aborting → ∀ j, e.operationVector.slot j ≠ some .readOutside

theorem children_congr {e e' : TransactionExecution K V S} (h : e'.args = e.args) (op : Op) :
    e'.children op = e.children op := by
  cases op <;> simp only [TransactionExecution.children, h]

theorem children_child {e : TransactionExecution K V S} {op y : Op}
    (h : y ∈ (e.children op).getD []) : e.children y = none := by
  cases op with
  | upload | validate | postProcessingAfterCommit | postProcessingAfterAbort
  | releaseReadCounter =>
    obtain ⟨i, -, rfl⟩ := List.mem_map.mp h
    rfl
  | insert | upsert =>
    obtain rfl := List.mem_singleton.mp h
    rfl
  | _ => cases h

theorem ne_nil_of_slot {e : TransactionExecution K V S} {op : Op} {i : ℕ}
    (hi : e.operationVector.slot i = some op) : e.operationVector ≠ [] := by
  intro hn
  rw [hn] at hi
  simp at hi

namespace Agree

variable {m : Prop} {b b' : List (Event K V)} {s : Fugue.Live}
variable {e e' : TransactionExecution K V S} {op : Op}

theorem restrict (h : Agree m b b' s e e') {c : Set Op} (hc : c ⊆ s.called) :
    Agree m b b' { s with called := c } e e' where
  data := { h.data with }
  operationVector := h.operationVector
  pending := h.pending
  log := h.log
  moveToNext y hy := h.moveToNext y (hc hy)
  hasNext y hy := h.hasNext y (hc hy)
  finished := h.finished
  handlerResult := h.handlerResult
  args y hy := by
    have ha := h.args y hy
    cases y <;> exact ha

theorem children (h : Agree m b b' s e e') (hop : op ∈ s.reset) :
    e'.children op = e.children op := by
  have ha := h.args op hop
  cases op with
  | upload | validate | postProcessingAfterCommit | postProcessingAfterAbort
  | releaseReadCounter => simp only [TransactionExecution.children, ha.1]
  | _ => rfl

theorem isCascadeFinished (h : Agree m b b' s e e') (hl : Linked s e) (hop : op ∈ s.called)
    (hw : op.waits = true) : e'.isCascadeFinished op = e.isCascadeFinished op := by
  have hf := h.finished op (hl.reset hop) (.inl hw)
  have hm := h.moveToNext op hop
  cases op with
  | updateReadEntryMaxCommitTs i =>
    simp only [TransactionExecution.isCascadeFinished, hf, hm]
    cases hmv : (e.flags (.updateReadEntryMaxCommitTs i)).moveToNext with
    | false => simp
    | true =>
      rw [h.hasNext _ hop hmv]
      cases hn : (e.flags (.updateReadEntryMaxCommitTs i)).hasNext with
      | false => simp
      | true =>
        have hc := hl.pushed i hop (OperationFlags.eq_mk hmv hn)
        rw [h.finished _ (hl.reset hc) (.inl rfl), h.moveToNext _ hc]
  | _ => simp only [TransactionExecution.isCascadeFinished, hf, hm]

theorem isFinished (h : Agree m b b' s e e') (hl : Linked s e) (hop : op ∈ s.called) :
    e'.isFinished op = e.isFinished op := by
  have hr := hl.reset hop
  have hc := h.children hr
  have hchild := hl.children op hop
  have hall : ∀ ops, e.children op = some ops → (∀ y ∈ ops, y.waits = true) →
      e'.isFinished op = e.isFinished op := by
    intro ops hops hw
    simp only [TransactionExecution.isFinished, hc, hops]
    rw [Bool.eq_iff_iff, List.all_eq_true, List.all_eq_true]
    refine forall₂_congr fun y hy => ?_
    rw [h.isCascadeFinished hl (hchild ops hops y hy) (hw y hy)]
  cases op with
  | upload | validate | postProcessingAfterCommit | postProcessingAfterAbort
  | releaseReadCounter =>
    refine hall _ rfl fun y hy => ?_
    obtain ⟨i, -, rfl⟩ := List.mem_map.mp hy
    rfl
  | insert | upsert =>
    refine hall _ rfl fun y hy => ?_
    obtain rfl := List.mem_singleton.mp hy
    rfl
  | update | delete => rfl
  | writeToLog => exact h.finished _ hr (.inr rfl)
  | _ => exact h.finished _ hr (.inl rfl)

end Agree

section

variable [DecidableEq K] [Services S] {e z : TransactionExecution K V S} {op : Op} {o : Option Op}

/-- Only a read changes the length of the read set, and only the successor gets a new list of
entries to work on. -/
theorem next_frame (hn : next op e = .ok (o, z)) :
    (op ≠ .readOutside → z.keyReadSet.popIndex = e.keyReadSet.popIndex) ∧
      ∀ y, o ≠ some y → z.children y = e.children y := by
  have hargs : z.args = e.args → ∀ y, o ≠ some y → z.children y = e.children y :=
    fun ha y _ => children_congr ha y
  unfold next at hn
  cases op with
  | readOutside =>
    refine ⟨fun hne => absurd rfl hne, hargs ?_⟩
    simp only [nextImpl] at hn
    split at hn
    · cases hn
      rfl
    · cases hr : (e.setFlags .readOutside ⟨true, true⟩).internalRead with
      | error msg =>
        rw [hr] at hn
        cases hn
      | ok w =>
        rw [hr] at hn
        cases hn
        exact (internalRead_sets hr).2.1
  | setCommitTs =>
    simp only [nextImpl] at hn
    split at hn <;> cases hn
    · exact ⟨fun _ => rfl, hargs rfl⟩
    · refine ⟨fun _ => rfl, fun y hy => ?_⟩
      cases y <;> first | rfl | exact absurd rfl hy
  | updateTxnStatusToCommit | updateTxnStatusToAbort =>
    simp only [nextImpl] at hn
    split at hn <;> cases hn
    refine ⟨fun _ => rfl, fun y hy => ?_⟩
    cases y <;> first | rfl | exact absurd rfl hy
  | postProcessingAfterAbort =>
    cases hn
    refine ⟨fun _ => rfl, fun y hy => ?_⟩
    cases y <;> first | rfl | exact absurd rfl hy
  | updateReadEntryMaxCommitTs i =>
    simp only [nextImpl, updateReadEntryMaxCommitTsNext] at hn
    repeat' split at hn
    all_goals cases hn
    all_goals refine ⟨fun _ => rfl, fun y _ => ?_⟩
    all_goals cases y <;> rfl
  | insert =>
    simp only [nextImpl, insertNext] at hn
    cases hn
    constructor
    · intro _
      split
      · split <;> rfl
      · rfl
    · apply hargs
      split
      · split <;> rfl
      · rfl
  | upsert =>
    simp only [nextImpl, upsertNext] at hn
    cases hn
    constructor
    · intro _
      split <;> rfl
    · apply hargs
      split <;> rfl
  | readDataStore =>
    simp only [nextImpl, readDataStoreNext, noNext] at hn
    cases hn
    have hr := setResultRecord_frame (e := e.setFlags .readDataStore ⟨true, true⟩)
    constructor
    · intro _
      split
      · rfl
      · split
        · rfl
        · next a _ => exact congrArg Pool.popIndex (hr (some a)).2.2.2.2.1
    · apply hargs
      split
      · rfl
      · split
        · rfl
        · next a _ => exact (hr (some a)).2.2.2.2.2.2
  | postProcessingCommitEntryAfterCommit i =>
    simp only [nextImpl, clearReleaseOfWrite] at hn
    split at hn <;> cases hn
    constructor
    · intro _
      split <;> rfl
    · apply hargs
      split <;> rfl
  | _ =>
    simp only [nextImpl, uploadVersionEntryNext, pushConflictNext, deleteEntryNext] at hn
    repeat' split at hn
    all_goals cases hn
    all_goals exact ⟨fun _ => rfl, hargs rfl⟩

theorem callLeaf_frame (op : Op) (e : TransactionExecution K V S) :
    (callLeaf op e).flags = (e.setMoveToNext op false).flags ∧ (callLeaf op e).args = e.args := by
  have hi : ((e.setMoveToNext op false).issueCall op).flags = (e.setMoveToNext op false).flags ∧
      ((e.setMoveToNext op false).issueCall op).args = e.args := by
    rw [issueCall_eq]
    exact ⟨rfl, rfl⟩
  cases op with
  | setCommitTs =>
    simp only [callLeaf, setCommitTsCallImpl]
    rw [issueCall_eq]
    exact ⟨rfl, rfl⟩
  | writeToLog =>
    simp only [callLeaf, writeToLogCallImpl]
    split <;> exact ⟨rfl, rfl⟩
  | update =>
    simp only [callLeaf, updateCallImpl]
    repeat' split
    all_goals exact ⟨rfl, rfl⟩
  | delete =>
    simp only [callLeaf, deleteCallImpl]
    repeat' split
    all_goals exact ⟨rfl, rfl⟩
  | _ => exact hi

structure Called (op : Op) (e z : TransactionExecution K V S) : Prop where
  children : ∀ y, z.children y = e.children y
  moved : ∀ y, y = op ∨ y ∈ (e.children op).getD [] → (z.flags y).moveToNext = false
  flags : ∀ y, y ≠ op → y ∉ (e.children op).getD [] → z.flags y = e.flags y

theorem Family.called (F : Family K V S)
    (hF : ∀ (e : TransactionExecution K V S) i j y, (F.reset e i j).children y = e.children y)
    (e : TransactionExecution K V S) : Called F.parent e (call F.parent e) := by
  have hi := invokeAll_invoked F (F.index e.args) (e.setMoveToNext F.parent false)
  have hl : ∀ (l : List (ℕ × ℕ)) (z : TransactionExecution K V S) y,
      (l.foldl (fun e p => (F.reset e p.2 p.1).invoke (F.child p.2)) z).children y =
        z.children y := by
    intro l
    induction l with
    | nil => exact fun z y => rfl
    | cons p l ih =>
      intro z y
      rw [List.foldl_cons, ih, ← hF z p.2 p.1]
      exact children_congr (callLeaf_frame _ _).2 y
  rw [F.call_parent]
  have hc : (e.children F.parent).getD [] = (List.range (F.index e.args).length).map F.child := by
    rw [F.children_parent]
    rfl
  refine ⟨fun y => hl _ _ y, ?_, ?_⟩
  · rw [hc]
    rintro y (rfl | hy)
    · rw [hi.flags_other _ fun i _ h => F.child_ne_parent i h.symm]
      simp [setMoveToNext, setFlags]
    · obtain ⟨i, hil, rfl⟩ := List.mem_map.mp hy
      exact hi.flags_child i (List.mem_range.mp hil)
  · rw [hc]
    intro y hy hn
    rw [hi.flags_other y fun i hil h => hn (List.mem_map.mpr ⟨i, List.mem_range.mpr hil, h.symm⟩)]
    simp [setMoveToNext, setFlags, hy]

theorem call_called (op : Op) (e : TransactionExecution K V S) : Called op e (call op e) := by
  have hl : e.children op = none → Called op e (callLeaf op e) := by
    intro hc
    obtain ⟨hf, ha⟩ := callLeaf_frame op e
    refine ⟨fun y => children_congr ha y, fun y hy => ?_, fun y hy _ => ?_⟩
    · rw [hc] at hy
      obtain rfl := hy.resolve_right (by simp)
      simp [hf, setMoveToNext, setFlags]
    · simp [hf, setMoveToNext, setFlags, hy]
  have hr : op = .insert ∨ op = .upsert → Called op e
      ((e.setMoveToNext op false).resetReadOutside e.args.writeKey |>.invoke .readOutside) := by
    intro ho
    obtain ⟨hf, ha⟩ := callLeaf_frame .readOutside
      (((e.setMoveToNext op false).resetReadOutside e.args.writeKey).push .readOutside)
    have hc : (e.children op).getD [] = [.readOutside] := by rcases ho with rfl | rfl <;> rfl
    have hne : op ≠ .readOutside := by rcases ho with rfl | rfl <;> simp
    rw [invoke]
    refine ⟨fun y => (children_congr ha y).trans ?_, fun y hy => ?_, fun y hy hn => ?_⟩
    · cases y <;> rfl
    · rw [hc, List.mem_singleton] at hy
      rw [hf]
      rcases hy with rfl | rfl
      · simp [setMoveToNext, setFlags, push, resetReadOutside, insertReadSet, setHandlerResult, hne]
      · simp [setMoveToNext, setFlags]
    · rw [hc, List.mem_singleton] at hn
      rw [hf]
      simp [setMoveToNext, setFlags, push, resetReadOutside, insertReadSet, setHandlerResult, hy, hn]
  cases op with
  | upload => exact uploadFamily.called (fun _ _ _ y => by cases y <;> rfl) e
  | validate => exact validateFamily.called (fun _ _ _ y => by cases y <;> rfl) e
  | postProcessingAfterCommit => exact commitFamily.called (fun _ _ _ y => by cases y <;> rfl) e
  | postProcessingAfterAbort => exact deleteFamily.called (fun _ _ _ y => by cases y <;> rfl) e
  | releaseReadCounter => exact releaseFamily.called (fun _ _ _ y => by cases y <;> rfl) e
  | insert => exact hr (.inl rfl)
  | upsert => exact hr (.inr rfl)
  | _ => exact hl rfl

end

section

variable [DecidableEq K] [Services S] {m : Prop} {b b' : List (Event K V)} {s : Fugue.Live}
variable {e e' z : TransactionExecution K V S} {op : Op} {o : Option Op} {i : ℕ}

theorem Agree.next (h : Agree m b b' s e e') (hl : Linked s e) (hsd : Sound e)
    (hi : e.operationVector.slot i = some op) (hf : e.isFinished op = true)
    (hn : next op e = .ok (o, z)) :
    ∃ z' t, next op e' = .ok (o, z') ∧ s.Le t ∧ (∀ y, o = some y → y ∈ t.reset) ∧
      (∀ j < z.keyReadSet.popIndex, j ∈ t.reads) ∧ Agree m b b' t z z' := by
  have hcall := hl.stack i op hi
  have hcur := hl.current (ne_nil_of_slot hi)
  have hres := hl.reset hcall
  have hs := h.setFlags op ⟨true, true⟩
  have hleaf : op.waits = true → e.leafIsFinished op = true := by
    intro hw
    cases op <;> first | exact hf | cases hw
  by_cases hop : op = .readOutside
  · subst hop
    have hentry := hsd.entry i hi
    have hlt : e.args.readOutsideEntry < e.keyReadSet.popIndex := hentry ▸ Nat.lt_succ_self _
    obtain ⟨z', t, hn', ht, ha, rfl, hsize⟩ := hs.next_readOutside hres (Set.mem_insert _ _)
      (hleaf rfl) hcur (.inr hlt) hn
    have hle := (s.le_addCalled .readOutside).trans ht
    refine ⟨z', t, hn', hle, (fun y hy => by cases hy), fun j hj => ?_, ha⟩
    rcases hsize with hsize | ⟨hsize, hmem⟩
    · have hsize : z.keyReadSet.popIndex = e.keyReadSet.popIndex - 1 := hsize
      rcases hl.filled j (by omega) with hj' | ⟨hj', -⟩
      · exact hle.reads hj'
      · omega
    · have hsize : z.keyReadSet.popIndex = e.keyReadSet.popIndex := hsize
      rcases hl.filled j (hsize ▸ hj) with hj' | ⟨rfl, -⟩
      · exact hle.reads hj'
      · exact hmem
  · have hfull : Set.Iio e.keyReadSet.popIndex ⊆ s.reads := by
      intro j hj
      refine (hl.filled j hj).resolve_right ?_
      rintro ⟨-, l, hl⟩
      exact hsd.waits i op hi hf hop l hl
    obtain ⟨z', t, hn', ht, hy, ha⟩ := hs.nextImpl hres (Set.mem_insert _ _) hleaf hcur hop hfull hn
    have hle := (s.le_addCalled op).trans ht
    refine ⟨z', t, hn', hle, hy, fun j hj => hle.reads (hfull ?_), ha⟩
    rw [← (next_frame hn).1 hop]
    exact hj

theorem call_reads {y : Op} (hy : y ≠ .insert ∧ y ≠ .upsert ∧ y ≠ .update ∧ y ≠ .delete) :
    (call y e).keyReadSet = e.keyReadSet := by
  rw [call_data]
  cases y with
  | insert | upsert | update | delete => simp at hy
  | writeToLog =>
    simp only [callData, writeToLogCallImpl]
    split <;> rfl
  | _ => rfl

theorem next_successor {y : Op} (hn : next op e = .ok (some y, z)) :
    (y ≠ .insert ∧ y ≠ .upsert ∧ y ≠ .update ∧ y ≠ .delete) ∧
      (∀ i, y ≠ .updateReadEntryMaxCommitTs i) ∧
      ∀ i, op = .updateReadEntryMaxCommitTs i → y = .pushConflictTxnCommitTsLowerBound i := by
  unfold TransactionExecution.next at hn
  cases op <;> simp only [nextImpl, uploadVersionEntryNext, updateReadEntryMaxCommitTsNext,
    pushConflictNext, deleteEntryNext, readDataStoreNext, insertNext, upsertNext] at hn
  case readOutside =>
    split at hn
    · cases hn
    · cases hr : (e.setFlags .readOutside ⟨true, true⟩).internalRead <;> rw [hr] at hn <;> cases hn
  all_goals repeat' split at hn
  all_goals cases hn
  all_goals simp

structure Calling (c : Set Op) (y : Op) (t : Fugue.Live) (w : TransactionExecution K V S) : Prop where
  called : c ⊆ t.called
  reset : c ⊆ t.reset
  current : w.currentRequest ≠ none
  stack : ∀ i x, w.operationVector.slot i = some x → x = y ∨ x ∈ c
  children : ∀ x ∈ c, x ≠ y → ∀ ops, w.children x = some ops → ∀ v ∈ ops, v ∈ c
  pushed : ∀ i, .updateReadEntryMaxCommitTs i ∈ c →
    w.flags (.updateReadEntryMaxCommitTs i) = ⟨true, true⟩ →
    y = .pushConflictTxnCommitTsLowerBound i ∨ .pushConflictTxnCommitTsLowerBound i ∈ c
  successor : ∀ i, y ≠ .updateReadEntryMaxCommitTs i

theorem Agree.call_linked {w w' : TransactionExecution K V S} {c : Set Op} {y : Op} {t : Fugue.Live}
    (h : Agree m b b' t w w') (hc : Calling c y t w) (hy : y ∈ t.reset)
    (hs : y = .setCommitTs ∨ y = .update ∨ y = .delete →
      Set.Iio w.keyReadSet.popIndex ⊆ t.reads)
    (hfill : ∀ i < (TransactionExecution.call y w).keyReadSet.popIndex, i ∈ t.reads ∨
      i = (TransactionExecution.call y w).args.readOutsideEntry ∧
        ∃ j, (TransactionExecution.call y w).operationVector.slot j = some .readOutside) :
    ∃ u, Fugue.Live.Le { t with called := c } u ∧
      Agree m b b' u (TransactionExecution.call y w) (TransactionExecution.call y w') ∧
      Linked u (TransactionExecution.call y w) := by
  obtain ⟨u, hcalls, ha⟩ := h.call hy hc.current hs
  have hcall := call_called y w
  let d : Set Op := fun x => x ∈ c ∨ x = y ∨ x ∈ (w.children y).getD []
  have hchild : ∀ x, x ∈ (w.children y).getD [] → x ∈ u.called ∧ x ∈ u.reset := by
    intro x hx
    cases hops : w.children y with
    | none =>
      rw [hops] at hx
      cases hx
    | some ops =>
      rw [hops] at hx
      exact hcalls.children ops ((hcall.children y).trans hops) x hx
  have hd : d ⊆ u.called := by
    rintro x (hx | rfl | hx)
    · exact hcalls.le.called (hc.called hx)
    · exact hcalls.called
    · exact (hchild x hx).1
  refine ⟨{ u with called := d }, ⟨hcalls.le.reads, hcalls.le.writes, hcalls.le.reset,
    fun x hx => .inl hx⟩, ha.restrict hd, ?_, ?_, ?_, ?_, ?_, ?_⟩
  · rintro x (hx | rfl | hx)
    · exact hcalls.le.reset (hc.reset hx)
    · exact hcalls.le.reset hy
    · exact (hchild x hx).2
  · intro i x hi
    rw [call_stack] at hi
    by_cases hlt : i < w.operationVector.length
    · rw [Slots.slot, List.getElem?_append_left hlt] at hi
      rcases hc.stack i x hi with hx | hx
      · exact .inr (.inl hx)
      · exact .inl hx
    · right
      right
      rw [Slots.slot, List.getElem?_append_right (Nat.le_of_not_lt hlt), List.getElem?_map] at hi
      obtain ⟨v, hv, hx⟩ := Option.map_eq_some_iff.mp (Option.join_eq_some_iff.mp hi)
      obtain rfl := Option.some.inj hx
      exact List.mem_of_getElem? hv
  · intro _
    rw [(call_told y w).1.current]
    exact hc.current
  · intro x hx ops hops v hv
    rw [hcall.children] at hops
    by_cases hxy : x = y
    · subst hxy
      right
      right
      rw [hops]
      exact hv
    · rcases hx with hx | rfl | hx
      · exact .inl (hc.children x hx hxy ops hops v hv)
      · exact absurd rfl hxy
      · rw [children_child hx] at hops
        cases hops
  · intro i hi hf
    have hne := hc.successor i
    by_cases hmem : .updateReadEntryMaxCommitTs i ∈ (w.children y).getD []
    · have := hcall.moved _ (.inr hmem)
      rw [hf] at this
      cases this
    · rw [hcall.flags _ hne.symm hmem] at hf
      have hic : .updateReadEntryMaxCommitTs i ∈ c :=
        hi.resolve_right fun hi => hi.elim (fun hi => hne hi.symm) hmem
      rcases hc.pushed i hic hf with hp | hp
      · exact .inr (.inl hp.symm)
      · exact .inl hp
  · intro i hi
    exact (hfill i hi).imp_left fun h => hcalls.le.reads h

theorem Agree.visit (h : Agree m b b' s e e') (hl : Linked s e) (hsd : Sound e) {d : Bool}
    (hv : visit i e = .ok (z, d)) :
    ∃ z' t, visit i e' = .ok (z', d) ∧ s.Le t ∧ Agree m b b' t z z' ∧ Linked t z := by
  unfold TransactionExecution.visit at hv ⊢
  rw [h.operationVector]
  cases hi : e.operationVector.slot i with
  | none =>
    rw [hi] at hv
    cases hv
    exact ⟨e', s, rfl, .refl s, h, hl⟩
  | some op =>
    rw [hi] at hv
    dsimp only at hv ⊢
    have hcall := hl.stack i op hi
    have hcur := hl.current (ne_nil_of_slot hi)
    have hlen := Slots.lt_length_of_slot hi
    rw [h.isFinished hl hcall]
    by_cases hf : e.isFinished op = true
    · rw [if_pos hf] at hv ⊢
      cases hn : TransactionExecution.next op e with
      | error msg =>
        rw [hn] at hv
        cases hv
      | ok p =>
        obtain ⟨o, e₁⟩ := p
        have ha := next_advanced hn
        have hfr := next_frame hn
        have hcur₁ : e₁.currentRequest = e.currentRequest := (next_told hn).1.current
        obtain ⟨e₁', t, hn', hle, hy, hreads, hag⟩ := h.next hl hsd hi hf hn
        rw [hn] at hv
        rw [hn']
        have hslot : ∀ o j, (e₁.setSlot i o).operationVector.slot j =
            if j = i then o else e.operationVector.slot j := by
          intro o j
          simp only [TransactionExecution.setSlot, ha.operationVector]
          exact Slots.slot_setSlot _ _ _ _ hlen
        have hflags : ∀ j, e₁.flags (.updateReadEntryMaxCommitTs j) = ⟨true, true⟩ →
            op = .updateReadEntryMaxCommitTs j ∧ o.isSome = true ∨
              e.flags (.updateReadEntryMaxCommitTs j) = ⟨true, true⟩ := by
          intro j hj
          rw [ha.flags] at hj
          by_cases hop : op = .updateReadEntryMaxCommitTs j
          · subst hop
            rw [Function.update_self] at hj
            exact .inl ⟨rfl, (OperationFlags.mk.inj hj).2⟩
          · rw [Function.update_of_ne (Ne.symm hop)] at hj
            exact .inr hj
        cases o with
        | none =>
          cases hv
          refine ⟨_, { t with called := s.called }, ?_, ⟨hle.reads, hle.writes, hle.reset,
            subset_rfl⟩, (hag.setSlot i none).restrict hle.called, ?_⟩
          · simp only [hag.data.status, TransactionExecution.setSlot]
          · refine ⟨hl.reset.trans hle.reset, fun j x hj => ?_, fun _ => hcur₁ ▸ hcur,
              fun x hx ops hops => ?_, fun j hj hjf => ?_, fun j hj => .inl (hreads j hj)⟩
            · rw [hslot] at hj
              split at hj
              · cases hj
              · exact hl.stack j x hj
            · exact hl.children x hx ops ((hfr.2 x (by simp)).symm.trans hops)
            · exact hl.pushed j hj ((hflags j hjf).resolve_left (by simp))
        | some y =>
          cases hv
          obtain ⟨hkind, hreread, hpush⟩ := next_successor hn
          have hreset := hy y rfl
          have hc : Calling s.called y t (e₁.setSlot i (some y)) := by
            refine ⟨hle.called, hl.reset.trans hle.reset, hcur₁ ▸ hcur, fun j x hj => ?_,
              fun x hx hxy ops hops => ?_, fun j hj hjf => ?_, hreread⟩
            · rw [hslot] at hj
              split at hj
              · exact .inl (Option.some.inj hj).symm
              · exact .inr (hl.stack j x hj)
            · refine hl.children x hx ops (Eq.trans ?_ hops)
              exact (hfr.2 x fun hxy' => hxy (Option.some.inj hxy').symm).symm
            · rcases hflags j hjf with ⟨hop, -⟩ | hjf
              · exact .inl (hpush j hop)
              · exact .inr (hl.pushed j hj hjf)
          obtain ⟨u, hu, hau, hlu⟩ := (hag.setSlot i (some y)).call_linked hc hreset
            (fun _ j hj => hreads j hj) (fun j hj => .inl (hreads j (by
              rw [call_reads hkind] at hj
              exact hj)))
          have hs : s.Le { t with called := s.called } :=
            ⟨hle.reads, hle.writes, hle.reset, subset_rfl⟩
          exact ⟨_, u, rfl, hs.trans hu, hau, hlu⟩
    · rw [if_neg hf] at hv ⊢
      cases hv
      exact ⟨e', s, rfl, .refl s, h, hl⟩

omit [DecidableEq K] [Services S] in
theorem Agree.fillResult (h : Agree m b b' s e e') (r : HandlerResult op.Result) :
    Agree m b b' s (e.setHandlerResult op r) (e'.setHandlerResult op r) := by
  refine { h with finished := fun y hy hw => ?_, handlerResult := fun y hy hw hf => ?_ }
  · by_cases hyo : y = op
    · subst hyo
      apply leafIsFinished_congr
      simp [TransactionExecution.setHandlerResult]
    · rw [leafIsFinished_setHandlerResult _ _ hyo, leafIsFinished_setHandlerResult _ _ hyo]
      exact h.finished y hy hw
  · by_cases hyo : y = op
    · subst hyo
      simp [TransactionExecution.setHandlerResult]
    · rw [leafIsFinished_setHandlerResult _ _ hyo] at hf
      simp only [TransactionExecution.setHandlerResult, Function.update_of_ne hyo]
      exact h.handlerResult y hy hw hf

omit [Services S] in
theorem Agree.complete (h : Agree m b b' s e e') (hl : Linked s e) {r : Reply V op}
    (hc : e.complete op r = some z) :
    ∃ z', e'.complete op r = some z' ∧ Agree m b b' s z z' ∧ Linked s z := by
  unfold TransactionExecution.complete at hc ⊢
  rw [h.pending]
  cases hp : e.pending.find? (fun p => decide (p.1 = op)) with
  | none =>
    rw [hp] at hc
    cases hc
  | some p =>
    rw [hp] at hc
    obtain rfl := Option.some.inj hc
    refine ⟨_, rfl, ?_, ?_⟩
    · apply Agree.fillResult
      obtain ⟨l, hl, hl'⟩ := h.log
      refine { h with data := { h.data with memory := fun hm => ?_ }, pending := ?_,
                      log := ⟨l ++ [.answered op p.2 r], ?_, ?_⟩ }
      · rw [h.data.memory hm]
      · rfl
      · rw [hl, List.append_assoc]
      · rw [hl', List.append_assoc]
    · exact ⟨hl.reset, hl.stack, hl.current,
        fun x hx ops hops => hl.children x hx ops ((children_congr rfl x).symm.trans hops),
        hl.pushed, hl.filled⟩

omit [DecidableEq K] [Services S] in
theorem Linked.calling {w : TransactionExecution K V S} {y : Op} {t : Fugue.Live} (hl : Linked s e)
    (hle : s.Le t) (hw : w.operationVector = [some y]) (hcur : w.currentRequest ≠ none)
    (hch : ∀ x, x ≠ y → w.children x = e.children x) (hfl : w.flags = e.flags)
    (hy : ∀ i, y ≠ .updateReadEntryMaxCommitTs i) : Calling s.called y t w where
  called := hle.called
  reset := hl.reset.trans hle.reset
  current := hcur
  stack j x hj := by
    rw [hw] at hj
    cases j with
    | zero => exact .inl (Option.some.inj hj).symm
    | succ j => simp [Slots.slot] at hj
  children x hx hxy ops hops := hl.children x hx ops ((hch x hxy).symm.trans hops)
  pushed j hj hjf := .inr (hl.pushed j hj (hfl ▸ hjf))
  successor := hy

theorem Agree.abort (h : Agree m b b' s e e') (hl : Linked s e) (hc : e.currentRequest ≠ none)
    (hs : ∀ i < e.keyReadSet.popIndex, i ∈ s.reads) :
    ∃ t, s.Le t ∧ Agree m b b' t e.abort e'.abort ∧ Linked t e.abort := by
  have hclear : Agree m b b' s
      { e with operationVector := ([] : Slots Op), result := Result.reset none }
      { e' with operationVector := ([] : Slots Op), result := Result.reset none } :=
    { h with data := { h.data with result := fun hc => ⟨rfl, (h.data.result hc).2⟩ },
             operationVector := rfl }
  have hres := (hclear.resetResult (show Op.waits .updateTxnStatusToAbort = true from rfl) (by simp) trivial).push
    .updateTxnStatusToAbort
  have hle := s.le_addReset .updateTxnStatusToAbort
  have hcalling := hl.calling (w := (TransactionExecution.resetResult
    { e with operationVector := ([] : Slots Op), result := Result.reset none }
      .updateTxnStatusToAbort).push .updateTxnStatusToAbort) hle rfl hc
      (fun x _ => children_congr rfl x) rfl (by simp)
  obtain ⟨u, hu, hau, hlu⟩ := hres.call_linked hcalling (Set.mem_insert _ _) (by simp)
    (fun i hi => .inl (hs i (by rw [call_reads (by simp)] at hi; exact hi)))
  have hls : s.Le { s.addReset .updateTxnStatusToAbort with called := s.called } :=
    ⟨subset_rfl, subset_rfl, hle.reset, subset_rfl⟩
  exact ⟨u, hls.trans hu, hau, hlu⟩

theorem Agree.tidy (h : Agree m b b' s e e') (hl : Linked s e) (hsd : Sound e)
    (hne : e.status = .aborting → e.operationVector ≠ []) :
    ∃ t, s.Le t ∧ Agree m b b' t e.tidy e'.tidy ∧ Linked t e.tidy := by
  unfold TransactionExecution.tidy
  rw [h.data.status]
  split
  · next hst =>
    have hst' : Agree m b b' s { e with status := .aborted } { e' with status := .aborted } :=
      h.sameData { h.data with status := rfl }
    have hls : Linked s { e with status := .aborted } :=
      ⟨hl.reset, hl.stack, hl.current,
        fun x hx ops hops => hl.children x hx ops ((children_congr rfl x).symm.trans hops),
        hl.pushed, hl.filled⟩
    refine hst'.abort hls (hl.current (hne hst)) fun i hi => ?_
    refine (hl.filled i hi).resolve_right ?_
    rintro ⟨-, j, hj⟩
    exact hsd.aborting hst j hj
  · refine ⟨s, .refl s, { h with operationVector := ?_ }, hl.reset, fun i op hi => ?_,
      fun hn => hl.current fun hv => hn (congrArg Slots.trim hv),
      fun x hx ops hops => hl.children x hx ops ((children_congr rfl x).symm.trans hops),
      hl.pushed, fun i hi => ?_⟩
    · rw [h.operationVector]
    · exact hl.stack i op ((Slots.slot_trim _ _).symm.trans hi)
    · refine (hl.filled i hi).imp id ?_
      rintro ⟨hi, j, hj⟩
      exact ⟨hi, j, (Slots.slot_trim _ _).trans hj⟩

theorem call_popIndex {y : Op} (hy : y ≠ .insert ∧ y ≠ .upsert) :
    (call y e).keyReadSet.popIndex = e.keyReadSet.popIndex := by
  by_cases hk : y = .update ∨ y = .delete
  · rcases hk with rfl | rfl
    · simp only [call, callLeaf, updateCallImpl]
      repeat' split
      all_goals rfl
    · simp only [call, callLeaf, deleteCallImpl]
      repeat' split
      all_goals rfl
  · rw [call_reads ⟨hy.1, hy.2, fun h => hk (.inl h), fun h => hk (.inr h)⟩]

theorem Agree.started {w w' : TransactionExecution K V S} {y : Op} {t : Fugue.Live}
    (h : Agree m b b' t w w') (hl : Linked s e) (hle : s.Le t) (hv : w.operationVector = [])
    (hc : w.currentRequest ≠ none) (hch : ∀ x, x ≠ y → w.children x = e.children x)
    (hfl : w.flags = e.flags) (hr : ∀ i < e.keyReadSet.popIndex, i ∈ s.reads)
    (hyr : y ∈ t.reset) (hy : ∀ i, y ≠ .updateReadEntryMaxCommitTs i)
    (hn : y ≠ .setCommitTs ∧ w.keyReadSet.popIndex = e.keyReadSet.popIndex ∨
      y = .readOutside ∧ w.keyReadSet.popIndex = e.keyReadSet.popIndex + 1 ∧
        w.args.readOutsideEntry = e.keyReadSet.popIndex) :
    ∃ u, s.Le u ∧ Agree m b b' u (start y w) (start y w') ∧ Linked u (start y w) := by
  have hpush : (w.push y).operationVector = [some y] := by
    simp [TransactionExecution.push, Slots.pushBack, hv]
  have hcalling := hl.calling (w := w.push y) hle hpush hc hch hfl hy
  have hlive : ∀ i < e.keyReadSet.popIndex, i ∈ t.reads := fun i hi => hle.reads (hr i hi)
  have hfill : ∀ i < (TransactionExecution.call y (w.push y)).keyReadSet.popIndex, i ∈ t.reads ∨
      i = (TransactionExecution.call y (w.push y)).args.readOutsideEntry ∧
        ∃ j, (TransactionExecution.call y (w.push y)).operationVector.slot j =
          some .readOutside := by
    intro i hi
    rcases hn with ⟨-, hsize⟩ | ⟨rfl, hsize, hent⟩
    · by_cases hins : y = .insert ∨ y = .upsert
      · -- the nested read adds one entry
        have hi' : i < (w.push y).keyReadSet.new.popIndex := by
          rcases hins with rfl | rfl <;> exact hi
        rw [Pool.popIndex_new] at hi'
        rcases Nat.lt_succ_iff_lt_or_eq.mp hi' with hlt | heq
        · exact .inl (hlive i (hsize ▸ hlt))
        · right
          constructor
          · have hent : (w.push y).keyReadSet.new.popIndex - 1 = (w.push y).keyReadSet.popIndex := by
              rw [Pool.popIndex_new, Nat.add_sub_cancel]
            rcases hins with rfl | rfl <;> exact heq.trans hent.symm
          · refine ⟨1, ?_⟩
            rw [call_stack, hpush]
            rcases hins with rfl | rfl <;> rfl
      · rw [call_popIndex ⟨fun h => hins (.inl h), fun h => hins (.inr h)⟩] at hi
        exact .inl (hlive i (hsize ▸ hi))
    · rw [call_popIndex (by simp)] at hi
      have hi' : i < w.keyReadSet.popIndex := hi
      rw [hsize] at hi'
      rcases Nat.lt_succ_iff_lt_or_eq.mp hi' with hlt | heq
      · exact .inl (hlive i hlt)
      · refine .inr ⟨heq.trans hent.symm, 0, ?_⟩
        rw [call_stack, hpush]
        rfl
  obtain ⟨u, hu, hau, hlu⟩ := (h.push y).call_linked hcalling hyr (fun hys i hi => by
    rcases hn with ⟨-, hsize⟩ | ⟨rfl, -⟩
    · exact hlive i (hsize ▸ hi)
    · simp at hys) hfill
  have hls : s.Le { t with called := s.called } := ⟨hle.reads, hle.writes, hle.reset, subset_rfl⟩
  exact ⟨u, hls.trans hu, hau, hlu⟩

theorem Agree.dispatch (h : Agree m b b' s e e') (hl : Linked s e) (hv : e.operationVector = [])
    (r : OperationRequest K) :
    ∃ t, s.Le t ∧ Agree m b b' t (e.dispatch r) (e'.dispatch r) ∧ Linked t (e.dispatch r) := by
  have hreads : ∀ i < e.keyReadSet.popIndex, i ∈ s.reads := by
    intro i hi
    refine (hl.filled i hi).resolve_right ?_
    rintro ⟨-, j, hj⟩
    exact ne_nil_of_slot hj hv
  have hreq : ∀ record, Agree m b b' s
      { e with currentRequest := some r, requestFinished := false, result := Result.reset record }
      { e' with
        currentRequest := some r, requestFinished := false, result := Result.reset record } :=
    fun record =>
      h.sameData { h.data with currentRequest := rfl, result := fun _ => ⟨rfl, rfl⟩ }
  have hkept : ∀ record, Linked s
      { e with
        currentRequest := some r, requestFinished := false, result := Result.reset record } :=
    fun record => ⟨hl.reset, hl.stack, fun _ => Option.some_ne_none r,
      fun x hx ops hops => hl.children x hx ops ((children_congr rfl x).symm.trans hops),
      hl.pushed, hl.filled⟩
  have hcur : (some r : Option (OperationRequest K)) ≠ none := Option.some_ne_none r
  cases r with
  | begin =>
    exact ((hreq none).resetResult (show Op.waits .initTxn = true from rfl) (by simp) trivial).started hl
      (s.le_addReset _) hv hcur (fun x _ => children_congr rfl x) rfl hreads
      (Set.mem_insert _ _) (by simp) (.inl ⟨by simp, rfl⟩)
  | insert key record | upsert key record =>
    exact ((hreq record).resetWrite key record (by simp)).started hl (s.le_addReset _) hv hcur
      (fun x _ => by cases x <;> rfl) rfl hreads (Set.mem_insert _ _) (by simp)
      (.inl ⟨by simp, rfl⟩)
  | update key record =>
    exact ((hreq none).resetWrite key record (by simp)).started hl (s.le_addReset _) hv hcur
      (fun x _ => by cases x <;> rfl) rfl hreads (Set.mem_insert _ _) (by simp)
      (.inl ⟨by simp, rfl⟩)
  | delete key =>
    exact ((hreq none).resetWrite key none (by simp)).started hl (s.le_addReset _) hv hcur
      (fun x _ => by cases x <;> rfl) rfl hreads (Set.mem_insert _ _) (by simp)
      (.inl ⟨by simp, rfl⟩)
  | read key record | readOutside key record =>
    exact ((hreq record).resetReadOutside key).started hl (s.le_addReset _) hv hcur
      (fun x _ => by cases x <;> rfl) rfl hreads (Set.mem_insert _ _) (by simp)
      (.inr ⟨rfl, Pool.popIndex_new _, by
        change e.keyReadSet.new.popIndex - 1 = _
        rw [Pool.popIndex_new, Nat.add_sub_cancel]⟩)
  | readDataStore key record needToRead =>
    cases needToRead with
    | false =>
      exact ⟨s, .refl s, (hreq record).notify hcur id,
        hl.reset, hl.stack, fun _ => hcur,
        fun x hx ops hops => hl.children x hx ops ((children_congr rfl x).symm.trans hops),
        hl.pushed, hl.filled⟩
    | true =>
      have hargs : Agree m b b' s
          { e with currentRequest := some (.readDataStore key record true), requestFinished := false,
                   result := Result.reset record,
                   args := { e.args with readDataStoreKey := key } }
          { e' with currentRequest := some (.readDataStore key record true), requestFinished := false,
                    result := Result.reset record,
                    args := { e'.args with readDataStoreKey := key } } := by
        apply (hreq record).setArgs
        intro y hy
        cases y with
        | readDataStore => exact rfl
        | _ => exact h.args _ hy
      refine (Agree.setHandlerResult hargs ?_ ?_
        (show Op.SameArgs s _ _ .readDataStore from rfl)).started hl (s.le_addReset _) hv hcur
        (fun x _ => by cases x <;> rfl) rfl hreads (Set.mem_insert _ _) (by simp)
        (.inl ⟨by simp, rfl⟩)
      · simp [TransactionExecution.setHandlerResult, leafIsFinished]
      · simp [TransactionExecution.setHandlerResult, leafIsFinished]
  | commit =>
    exact ((hreq none).resetUpload).started hl (s.le_addReset _) hv hcur
      (fun x hx => by cases x <;> first | rfl | exact absurd rfl hx) rfl hreads
      (Set.mem_insert _ _) (by simp) (.inl ⟨by simp, rfl⟩)
  | abort => exact (hreq none).abort (hkept none) hcur hreads

theorem Agree.step (h : Agree m b b' s e e') (hl : Linked s e) (hsd : Sound e) {a : Action K V}
    (hs : step e a = some z) :
    ∃ z' t, TransactionExecution.step e' a = some z' ∧ Agree m b b' t z z' ∧ Linked t z := by
  cases a with
  | dispatch r =>
    simp only [TransactionExecution.step, h.operationVector, h.data.isTransactionFinished] at hs ⊢
    split at hs
    · next hd =>
      cases hs
      obtain ⟨t, -, ha, hlt⟩ := h.dispatch hl hd.1 r
      exact ⟨_, t, if_pos hd, ha, hlt⟩
    · cases hs
  | complete op r =>
    obtain ⟨z', hz', ha, hlz⟩ := h.complete hl hs
    exact ⟨z', s, hz', ha, hlz⟩
  | visit i =>
    simp only [TransactionExecution.step] at hs ⊢
    cases hv : TransactionExecution.visit i e with
    | error msg =>
      rw [hv] at hs
      cases hs
    | ok p =>
      rw [hv] at hs
      cases hs
      obtain ⟨z', t, hz', -, ha, hlt⟩ := h.visit hl hsd (d := p.2) hv
      exact ⟨z', t, by rw [hz']; rfl, ha, hlt⟩
  | tidy =>
    simp only [TransactionExecution.step, h.operationVector] at hs ⊢
    split at hs
    · cases hs
    · next hne =>
      cases hs
      obtain ⟨t, -, ha, hlt⟩ := h.tidy hl hsd fun _ => hne
      exact ⟨_, t, if_neg hne, ha, hlt⟩

theorem Alive.reading (h : Alive e) (hi : e.operationVector.slot i = some .readOutside) :
    ∃ n parent, e.status = .ongoing ∧ (parent = none ∨ parent = some .insert ∨
      parent = some .upsert) ∧ Stacked parent (· = .readOutside) e ∧ Reading n e := by
  cases h with
  | ending x gaveUp st entries h => exact absurd (h.rank_of_slot hi) (Nat.lt_irrefl 0)
  | serving h =>
    cases h with
    | idle n h size stacked =>
      rcases stacked.occupied.held_of_slot hi with hp | ⟨hm, -⟩
      · cases hp
      · exact hm.elim
    | single n h size op hop stacked =>
      rcases stacked.occupied.held_of_slot hi with hp | ⟨rfl, -⟩
      · cases hp
      · simp at hop
    | reading n h parent hp stacked read => exact ⟨n, parent, h.status, hp, stacked, read⟩
    | returned n h size op hop stacked moved =>
      rcases stacked.occupied.held_of_slot hi with hp | ⟨-, hm⟩
      · obtain rfl := Option.some.inj hp
        simp at hop
      · rw [moved] at hm
        cases hm
    | instant n h size op hop stacked =>
      rcases stacked.occupied.held_of_slot hi with hp | ⟨hm, -⟩
      · obtain rfl := Option.some.inj hp
        simp at hop
      · exact hm.elim

theorem Alive.sound (h : Alive e) : Sound e where
  entry i hi := by
    obtain ⟨n, parent, -, -, -, hr⟩ := h.reading hi
    rw [hr.size, hr.entry]
  waits i op hi hf hop j hj := by
    obtain ⟨n, parent, -, hp, hst, hr⟩ := h.reading hj
    rcases hst.occupied.held_of_slot hi with hpar | ⟨hm, -⟩
    · have hfin : e.isFinished op = (e.leafIsFinished .readOutside &&
          (e.flags .readOutside).moveToNext) := by
        rcases hp with rfl | rfl | rfl <;> cases hpar <;>
          simp [TransactionExecution.isFinished, TransactionExecution.children, isCascadeFinished]
      rw [hfin, hr.moved, Bool.and_false] at hf
      cases hf
    · exact hop hm
  aborting hs j hj := by
    rw [h.slot_of_aborting hs j] at hj
    cases hj

/-- The states in which an execution may be used again: newly constructed, or at the end of a
transaction that ran to its finish. -/
inductive Used : TransactionExecution K V S → Prop
  | init (services : S) (memory : Addr → V) (key : SetKey K) : Used (init services memory key)
  | finish {e e' : TransactionExecution K V S} {as : List (Action K V)} (h : Used e)
      (hr : run TransactionExecution.step e.reset as = some e')
      (hf : e'.isTransactionFinished = true) (hv : e'.operationVector = []) : Used e'

theorem Used.idle (h : Used e) : e.operationVector = [] ∧ e.pending = [] := by
  induction h with
  | init => exact ⟨rfl, rfl⟩
  | @finish e e' as h hr hf hv ih =>
    have hal : Alive e' := (Alive.reset ih.1 ih.2).run hr
    have ht := hal.tidied_finished hf
    rw [TransactionExecution.tidied, if_pos hv] at ht
    exact ht

/-- What the handler and the clients see of an execution: the calls and their answers, the status
and the result of the current request. -/
def observed (e : TransactionExecution K V S) :
    List (Event K V) × TxnStatus × Bool × Option (OperationRequest K × Result × Bool) :=
  (e.log, e.status, e.isTransactionFinished,
    e.currentRequest.map fun r => (r, e.result, e.requestFinished))

omit [DecidableEq K] [Services S] in
theorem Agree.observed (h : Agree m [] [] s e e') : e'.observed = e.observed := by
  obtain ⟨l, hl, hl'⟩ := h.log
  have hlog : e'.log = e.log := hl'.trans hl.symm
  unfold TransactionExecution.observed
  rw [hlog, h.data.status, h.data.isTransactionFinished, h.data.currentRequest]
  cases hc : e.currentRequest with
  | none => rfl
  | some r =>
    have hres := h.data.result (by rw [hc]; simp)
    rw [hres.1, hres.2]

/-- The execution can be in this state after `Reset`, and the other one agrees with it. -/
def Tandem (m : Prop) (e e' : TransactionExecution K V S) : Prop :=
  Alive e ∧ ∃ s, Agree m [] [] s e e' ∧ Linked s e

theorem Tandem.step {a : Action K V} (h : Tandem m e e')
    (hs : TransactionExecution.step e a = some z) :
    ∃ z', TransactionExecution.step e' a = some z' ∧ Tandem m z z' := by
  obtain ⟨hal, s, ha, hl⟩ := h
  obtain ⟨z', t, hz', hat, hlt⟩ := ha.step hl hal.sound hs
  exact ⟨z', hz', hal.step hs, t, hat, hlt⟩

theorem Tandem.reset (h : Used e) (h' : Used e') (hid : e'.reset.txnId = e.reset.txnId)
    (ht : e'.reset.commitTimestampLocal = e.reset.commitTimestampLocal)
    (hs : e'.reset.services = e.reset.services) :
    Tandem (e'.memory = e.memory) e.reset e'.reset := by
  obtain ⟨hv, hp⟩ := h.idle
  obtain ⟨hv', hp'⟩ := h'.idle
  refine ⟨.reset hv hp, ⟨∅, ∅, ∅, ∅⟩, ?_, ?_⟩
  · constructor
    · constructor
      · exact hs
      · exact id
      · exact hid
      · change TxnEntry.reset e'.reset.txnId e'.reset.commitTimestampLocal =
          TxnEntry.reset e.reset.txnId e.reset.commitTimestampLocal
        rw [hid, ht]
      · exact ht
      · rfl
      · rfl
      · rfl
      · rfl
      · rfl
      · exact fun hc => absurd rfl hc
      · exact .reset _ _
      · exact .reset _ _
      · exact fun i hi => absurd hi (Nat.not_lt_zero i)
      · exact fun i hi => hi.elim
    · exact hv'.trans hv.symm
    · exact hp'.trans hp.symm
    · exact ⟨[], rfl, rfl⟩
    · exact fun op hop => hop.elim
    · exact fun op hop => hop.elim
    · exact fun op hop => hop.elim
    · exact fun op hop => hop.elim
    · exact fun op hop => hop.elim
  · constructor
    · exact subset_rfl
    · intro i op hi
      rw [show e.reset.operationVector = [] from hv] at hi
      simp at hi
    · exact fun hne => absurd hv hne
    · exact fun op hop => hop.elim
    · exact fun i hi => hi.elim
    · exact fun i hi => absurd hi (Nat.not_lt_zero i)

theorem run_tandem (h : Tandem m e e') {as : List (Action K V)}
    (hr : run TransactionExecution.step e as = some z) :
    ∃ z', run TransactionExecution.step e' as = some z' ∧ z'.observed = z.observed ∧
      (m → z'.memory = z.memory) := by
  have hsim : ∃ z', run TransactionExecution.step e' as = some z' ∧ Tandem m z z' :=
    run_simulation (fun e e' a z hR hs => hR.step hs) h hr
  obtain ⟨z', hz', -, s, ha, -⟩ := hsim
  exact ⟨z', hz', ha.observed, ha.data.memory⟩

/-- Two executions that were used before, or never, and start a transaction with the same id and
time behave in the same way: whatever the requests and the answers are, the same calls are issued,
with the same arguments, and the same results and status are produced. -/
theorem slot_reuse (h : Used e) (h' : Used e') (hid : e'.reset.txnId = e.reset.txnId)
    (ht : e'.reset.commitTimestampLocal = e.reset.commitTimestampLocal)
    (hs : e'.reset.services = e.reset.services) (as : List (Action K V)) :
    (run TransactionExecution.step e'.reset as).map observed =
      (run TransactionExecution.step e.reset as).map observed ∧
    (e'.memory = e.memory →
      (run TransactionExecution.step e'.reset as).map (fun z => z.memory) =
        (run TransactionExecution.step e.reset as).map fun z => z.memory) := by
  have hab := Tandem.reset h h' hid ht hs
  have hba := Tandem.reset h' h hid.symm ht.symm hs.symm
  constructor
  · apply run_map_eq
    · intro z hz
      obtain ⟨z', hz', ho, -⟩ := run_tandem hab hz
      exact ⟨z', hz', ho⟩
    · intro z hz
      obtain ⟨z', hz', ho, -⟩ := run_tandem hba hz
      exact ⟨z', hz', ho⟩
  · intro hmem
    apply run_map_eq
    · intro z hz
      obtain ⟨z', hz', -, hm⟩ := run_tandem hab hz
      exact ⟨z', hz', hm hmem⟩
    · intro z hz
      obtain ⟨z', hz', -, hm⟩ := run_tandem hba hz
      exact ⟨z', hz', hm hmem.symm⟩

end

def sampleFresh (services : LocalServices) : TransactionExecution ℕ ℕ LocalServices :=
  init services (fun _ => 0) ⟨"t", 0⟩

def sampleAbort : List (Action ℕ ℕ) :=
  [.dispatch .begin, sampleAnswer .initTxn, .visit 0, .tidy, .dispatch (.upsert ⟨"t", 1⟩ (some 7)),
    sampleAnswer .readOutside, .visit 1, .visit 0, .tidy, .dispatch .abort,
    sampleAnswer .updateTxnStatusToAbort, .visit 0, .visit 0,
    sampleAnswer (.releaseReadCounterForEachEntry 0), .visit 1, .visit 0, .tidy]

theorem slot_reuse_sample : ∃ e : TransactionExecution ℕ ℕ LocalServices,
    Used e ∧ (e.keyReadSet.popIndex, e.keyWriteSet.popIndex) = (1, 1) ∧
    ∀ as, (run TransactionExecution.step e.reset as).map observed =
        (run TransactionExecution.step (sampleFresh e.services).reset as).map observed ∧
      (e.memory = (sampleFresh e.services).memory →
        (run TransactionExecution.step e.reset as).map (fun z => z.memory) =
          (run TransactionExecution.step (sampleFresh e.services).reset as).map
            fun z => z.memory) := by
  have h : (run TransactionExecution.step
      (sampleFresh ⟨.ofBase 0 100, .ofClock fun _ => 5⟩).reset sampleAbort).map
      (fun e => (e.isTransactionFinished, e.operationVector,
        (e.keyReadSet.popIndex, e.keyWriteSet.popIndex))) = some (true, [], (1, 1)) := by
    decide +kernel
  obtain ⟨e, hr, he⟩ := Option.map_eq_some_iff.mp h
  have hused : Used e := .finish (.init _ _ _) hr (congrArg Prod.fst he)
    (congrArg (fun p => p.2.1) he)
  exact ⟨e, hused, congrArg (fun p => p.2.2) he,
    slot_reuse (.init _ _ _) hused rfl rfl rfl⟩

end TransactionExecution

end Fugue
