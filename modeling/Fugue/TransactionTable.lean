import Fugue.CommitAtomicity

namespace Fugue

open TransactionExecution

variable {ι K V S : Type}

namespace TxnEntry

structure Continues (t t' : TxnEntry) : Prop where
  txId : t'.txId = t.txId
  lowerBound : t.commitLowerBound ≤ t'.commitLowerBound
  commitTs : t.commitTs ≠ kDefaultCommitTs → t'.commitTs = t.commitTs
  status : t.status ≠ .ongoing → t'.status = t.status

namespace Continues

variable {t t' t'' : TxnEntry}

theorem refl (t : TxnEntry) : Continues t t := ⟨rfl, le_rfl, fun _ => rfl, fun _ => rfl⟩

theorem trans (h : Continues t t') (h' : Continues t' t'') : Continues t t'' := by
  refine ⟨h'.txId.trans h.txId, h.lowerBound.trans h'.lowerBound, fun hset => ?_, fun hset => ?_⟩
  · have heq := h.commitTs hset
    rw [← heq] at hset
    exact (h'.commitTs hset).trans heq
  · have heq := h.status hset
    rw [← heq] at hset
    exact (h'.status hset).trans heq

theorem fixed (h : t.commitTs = kDefaultCommitTs) (commitTs : ℤ) : Continues t (t.fixed commitTs) :=
  ⟨rfl, le_rfl, fun hset => absurd h hset, fun _ => rfl⟩

theorem raised (t : TxnEntry) (lowerBound : ℤ) : Continues t (t.raised lowerBound) := by
  refine ⟨?_, t.le_raised lowerBound, fun _ => t.raised_commitTs lowerBound,
    fun _ => t.raised_status lowerBound⟩
  unfold TxnEntry.raised
  split <;> rfl

theorem settled (h : t.status = .ongoing) (status : TxnStatus) :
    Continues t { t with status := status } :=
  ⟨rfl, le_rfl, fun _ => rfl, fun hset => absurd h hset⟩

end Continues

def Kept (entry entry' : ℤ → Option TxnEntry) : Prop :=
  ∀ id, ∀ t ∈ entry id, ∃ t' ∈ entry' id, Continues t t'

theorem Kept.refl (entry : ℤ → Option TxnEntry) : Kept entry entry :=
  fun _ t ht => ⟨t, ht, .refl t⟩

theorem Kept.trans {entry entry' entry'' : ℤ → Option TxnEntry} (h : Kept entry entry')
    (h' : Kept entry' entry'') : Kept entry entry'' := by
  intro id t ht
  obtain ⟨t', ht', hc⟩ := h id t ht
  obtain ⟨t'', ht'', hc'⟩ := h' id t' ht'
  exact ⟨t'', ht'', hc.trans hc'⟩

theorem Kept.update {entry : ℤ → Option TxnEntry} {id : ℤ} {u : TxnEntry}
    (h : ∀ t ∈ entry id, Continues t u) : Kept entry (Function.update entry id (some u)) := by
  intro id' t ht
  by_cases hid : id' = id
  · subst hid
    exact ⟨u, by rw [Function.update_self]; rfl, h t ht⟩
  · exact ⟨t, by rwa [Function.update_of_ne hid], .refl t⟩

end TxnEntry

open TxnEntry

structure Settled (entry : ℤ → Option TxnEntry) (settles : ι → ℤ → TxnStatus → Prop) : Prop where
  told : ∀ j id status, settles j id status → ∃ t ∈ entry id, t.status = status
  teller : ∀ id, ∀ t ∈ entry id, t.status ≠ .ongoing → ∃ j, settles j id t.status

namespace Settled

variable {entry : ℤ → Option TxnEntry} {settles settles' : ι → ℤ → TxnStatus → Prop}

theorem congr (h : Settled entry settles)
    (hs : ∀ j id status, settles' j id status ↔ settles j id status) : Settled entry settles' := by
  obtain rfl : settles' = settles := by
    funext j id status
    exact propext (hs j id status)
  exact h

theorem update (h : Settled entry settles) {id : ℤ} {u : TxnEntry}
    (hold : ∀ t ∈ entry id, u.status = t.status) (hnew : entry id = none → u.status = .ongoing) :
    Settled (Function.update entry id (some u)) settles := by
  refine ⟨fun j id' status hs => ?_, fun id' t ht hset => ?_⟩
  · obtain ⟨t, ht, hst⟩ := h.told j id' status hs
    by_cases hid : id' = id
    · subst hid
      exact ⟨u, by rw [Function.update_self]; rfl, (hold t ht).trans hst⟩
    · exact ⟨t, by rwa [Function.update_of_ne hid], hst⟩
  · by_cases hid : id' = id
    · subst hid
      rw [Function.update_self] at ht
      obtain rfl := Option.some.inj ht
      cases hentry : entry id' with
      | none => exact absurd (hnew hentry) hset
      | some t =>
        have heq := hold t hentry
        rw [heq] at hset ⊢
        exact h.teller id' t hentry hset
    · rw [Function.update_of_ne hid] at ht
      exact h.teller id' t ht hset

theorem settle (h : Settled entry settles) {j : ι} {id : ℤ} {status : TxnStatus} {t : TxnEntry}
    (hfirst : ∀ j' status', ¬ settles j' id status') (hs : ∀ j' id' status', settles' j' id' status' ↔
      settles j' id' status' ∨ j' = j ∧ id = id' ∧ status = status') :
    Settled (Function.update entry id (some { t with status := status })) settles' := by
  refine ⟨fun j' id' status' hold => ?_, fun id' t' ht' hset => ?_⟩
  · rcases (hs j' id' status').mp hold with hold | ⟨-, rfl, rfl⟩
    · obtain ⟨t', ht', hst⟩ := h.told j' id' status' hold
      have hne : id' ≠ id := by
        rintro rfl
        exact hfirst j' status' hold
      exact ⟨t', by rwa [Function.update_of_ne hne], hst⟩
    · exact ⟨_, by rw [Function.update_self]; rfl, rfl⟩
  · by_cases hid : id' = id
    · subst hid
      rw [Function.update_self] at ht'
      obtain rfl := Option.some.inj ht'
      exact ⟨j, (hs j id' _).mpr (Or.inr ⟨rfl, rfl, rfl⟩)⟩
    · rw [Function.update_of_ne hid] at ht'
      obtain ⟨j', hj'⟩ := h.teller id' t' ht' hset
      exact ⟨j', (hs j' id' _).mpr (Or.inl hj')⟩

end Settled

/-- The transaction has told the store its timestamp or its outcome under the id. -/
def Client.Names (c : Client K V S) (id : ℤ) : Prop :=
  (∃ ts, c.Told Event.fixes (id, ts)) ∨ ∃ status, c.Told Event.settles (id, status)

namespace TimestampStore

open SharedStore

variable {s s' : TimestampStore ι K V S}

def Separate (s : TimestampStore ι K V S) : Prop :=
  ∀ j j' id, (s.shared.client j).Names id → (s.shared.client j').Names id → j = j'

theorem Separate.distinct (h : Separate s) : Distinct s :=
  fun j j' id ts ts' hj hj' => h j j' id (Or.inl ⟨ts, hj⟩) (Or.inl ⟨ts', hj'⟩)

theorem Separate.of_mono (h : Separate s')
    (hmono : ∀ j id, (s.shared.client j).Names id → (s'.shared.client j).Names id) : Separate s :=
  fun j j' id hj hj' => h j j' id (hmono j id hj) (hmono j' id hj')

variable [DecidableEq K] [Services S]

theorem Separate.of_ids (h : Coherent s.shared)
    (hid : ∀ j j', (s.shared.client j).execution.txnId = (s.shared.client j').execution.txnId →
      j = j') : Separate s := by
  have hown : ∀ j id, (s.shared.client j).Names id → id = (s.shared.client j).execution.txnId := by
    rintro j id (⟨ts, ev, hev, hy⟩ | ⟨status, ev, hev, hy⟩)
    · obtain ⟨op, commitTs, r, rfl, -⟩ := Event.of_fixes hy
      exact (h.sound j).alive.txnId_eq ((h.sound j).issued hev) (Or.inl ⟨commitTs, rfl⟩)
    · obtain ⟨op, r, rfl⟩ := Event.of_settles hy
      exact (h.sound j).alive.txnId_eq ((h.sound j).issued hev) (Or.inr ⟨status, rfl⟩)
  intro j j' id hj hj'
  exact hid j j' ((hown j id hj).symm.trans (hown j' id hj'))

def Consistent (s : TimestampStore ι K V S) : Prop :=
  Settled s.timestamps.entry fun j id status =>
    (s.shared.client j).Told Event.settles (id, status)

variable [DecidableEq ι]

theorem names_step (h : Coherent s.shared) {a : SharedAction ι K V S} (hs : s.step a = some s')
    (j : ι) (id : ℤ) (hj : (s.shared.client j).Names id) : (s'.shared.client j).Names id := by
  rcases step_cases h.sound hs with ⟨hq, -⟩ | ⟨j', op, c, r, -, -, -, -, hs', -⟩
  · apply hj.imp
    · rintro ⟨ts, hf⟩
      exact ⟨ts, ((hq.same j).exists_iff fun _ _ => rfl).mpr hf⟩
    · rintro ⟨status, hst⟩
      exact ⟨status, ((hq.same j).exists_iff fun _ _ => rfl).mpr hst⟩
  · apply hj.imp
    · rintro ⟨ts, hf⟩
      exact ⟨ts, (told_answer hs').mpr (Or.inl hf)⟩
    · rintro ⟨status, hst⟩
      exact ⟨status, (told_answer hs').mpr (Or.inl hst)⟩

omit [DecidableEq ι] [DecidableEq K] [Services S] in
theorem Consistent.of_same (h : Consistent s)
    (htold : ∀ j y, (s'.shared.client j).Told Event.settles y ↔
      (s.shared.client j).Told Event.settles y)
    (hentry : s'.timestamps.entry = s.timestamps.entry) : Consistent s' := by
  rw [Consistent, hentry]
  exact h.congr fun j id status => htold j _

theorem Consistent.perform (hg : Guarded s) (h : Consistent s) (hsep : Separate s') {j : ι} {op : Op}
    {c : HandlerCall K} {r : Reply V op} (hp : (op, c) ∈ (s.shared.client j).execution.pending)
    (hnew : ∀ ev ∈ (s.shared.client j).performed, ev.op ≠ op) (herror : r.isError = false)
    (htimes : s.timestamps.Answers s.shared.store c r) {store : VersionStore K}
    (hs' : s'.shared = s.shared.answer j (.answered op c r) store)
    (ht' : s'.timestamps = s.timestamps.after c) :
    Consistent s' ∧ Kept s.timestamps.entry s'.timestamps.entry := by
  have hco := hg.coherent
  have hissued := (hco.sound j).alive.issued_of_pending hp
  have hsame : (Event.answered op c r).settles = none → ∀ j' y,
      (s'.shared.client j').Told Event.settles y ↔ (s.shared.client j').Told Event.settles y := by
    intro hnone j' y
    simp only [told_answer hs', hnone, reduceCtorEq, and_false, or_false]
  cases c with
  | newTxn entry localTime limit =>
    have hnone : s.timestamps.entry entry.txId = none := htimes
    have hentry : s'.timestamps.entry =
        Function.update s.timestamps.entry entry.txId (some entry.opened) := by
      rw [ht']
      rfl
    rw [Consistent, hentry]
    refine ⟨(h.update (fun t ht => ?_) fun _ => rfl).congr fun j' id status => hsame rfl j' _,
      Kept.update fun t ht => ?_⟩
    all_goals
      rw [hnone] at ht
      cases ht
  | setCommitTimestamp id commitTs =>
    obtain rfl := ((hco.sound j).alive.op_eq hissued).1 id commitTs rfl
    obtain ⟨t, ht, hresult⟩ := htimes
    have hentry : s'.timestamps.entry =
        Function.update s.timestamps.entry id (some (t.fixed commitTs)) := by
      rw [ht', Timestamps.after, Option.mem_def.mp ht]
      rfl
    have hfixes : (Event.answered .setCommitTs (.setCommitTimestamp id commitTs) r :
        Event K V).fixes = some (id, r.result) := by
      simp only [Event.fixes, herror, Bool.false_eq_true, if_false, Reply.timestamp,
        Option.map_some]
    -- Nobody has fixed a timestamp for the id.
    have hunset : t.commitTs = kDefaultCommitTs := by
      by_contra hset
      obtain ⟨j', hj'⟩ := hg.ledger.fixer id t ht hset
      obtain rfl := hsep j j' id (Or.inl ⟨_, (told_answer hs').mpr (Or.inr ⟨rfl, hfixes⟩)⟩)
        (Or.inl ⟨_, (told_answer hs').mpr (Or.inl hj')⟩)
      exact not_fixed hco hp hnew _ hj'
    rw [Consistent, hentry]
    have hmem : ∀ u ∈ s.timestamps.entry id, u = t := fun u hu => Option.mem_unique hu ht
    refine ⟨(h.update (fun u hu => ?_) fun hn => ?_).congr fun j' id status => hsame rfl j' _,
      Kept.update fun u hu => ?_⟩
    · rw [hmem u hu]
      rfl
    · rw [hn] at ht
      cases ht
    · rw [hmem u hu]
      exact .fixed hunset commitTs
  | updateCommitLowerBound id lowerBound =>
    obtain ⟨i, rfl⟩ := ((hco.sound j).alive.op_eq hissued).2 id lowerBound rfl
    obtain ⟨t, ht, hresult⟩ := htimes
    have hentry : s'.timestamps.entry =
        Function.update s.timestamps.entry id (some (t.raised lowerBound)) := by
      rw [ht', Timestamps.after, Option.mem_def.mp ht]
      rfl
    rw [Consistent, hentry]
    have hmem : ∀ u ∈ s.timestamps.entry id, u = t := fun u hu => Option.mem_unique hu ht
    refine ⟨(h.update (fun u hu => ?_) fun hn => ?_).congr fun j' id status => hsame rfl j' _,
      Kept.update fun u hu => ?_⟩
    · rw [hmem u hu]
      exact t.raised_status lowerBound
    · rw [hn] at ht
      cases ht
    · rw [hmem u hu]
      exact .raised t lowerBound
  | updateTxnStatus id status =>
    obtain ⟨t, ht⟩ := Option.ne_none_iff_exists'.mp htimes
    have hentry : s'.timestamps.entry =
        Function.update s.timestamps.entry id (some { t with status := status }) := by
      rw [ht', Timestamps.after, ht]
      rfl
    have hsettles : (Event.answered op (.updateTxnStatus id status) r : Event K V).settles =
        some (id, status) := by
      simp only [Event.settles, herror, Bool.false_eq_true, if_false]
    have hfirst : ∀ j' status', ¬ (s.shared.client j').Told Event.settles (id, status') := by
      intro j' status' hj'
      obtain rfl := hsep j j' id (Or.inr ⟨_, (told_answer hs').mpr (Or.inr ⟨rfl, hsettles⟩)⟩)
        (Or.inr ⟨_, (told_answer hs').mpr (Or.inl hj')⟩)
      exact hco.not_settled hp hnew _ hj'
    rw [Consistent, hentry]
    refine ⟨h.settle (j := j) hfirst fun j' id' status' => ?_, Kept.update fun u hu => ?_⟩
    · simp only [told_answer hs', hsettles, Option.some.injEq, Prod.mk.injEq]
    · obtain rfl := Option.mem_unique hu ht
      apply Continues.settled
      by_contra hset
      obtain ⟨j', hj'⟩ := h.teller id u hu hset
      exact hfirst j' _ hj'
  | _ =>
    have hentry : s'.timestamps.entry = s.timestamps.entry := by
      rw [ht']
      rfl
    rw [hentry]
    exact ⟨h.of_same (hsame rfl) hentry, .refl _⟩

theorem Consistent.step (hg : Guarded s) (h : Consistent s) (hsep : Separate s')
    {a : SharedAction ι K V S} (hs : s.step a = some s') :
    Consistent s' ∧ Kept s.timestamps.entry s'.timestamps.entry := by
  rcases step_cases hg.coherent.sound hs with ⟨hq, ht⟩ | ⟨j, op, c, r, hp, hnew, -, htimes, hs', ht'⟩
  · rw [ht]
    refine ⟨h.of_same (fun j y => (hq.same j).exists_iff fun _ _ => rfl) (by rw [ht]), .refl _⟩
  · cases herror : r.isError with
    | true =>
      have hsame : s'.timestamps = s.timestamps := by
        rw [ht', herror]
        rfl
      obtain ⟨-, -, -, hsettles, -⟩ := Event.of_error c herror
      rw [hsame]
      refine ⟨h.of_same (fun j' y => ?_) (by rw [hsame]), .refl _⟩
      simp only [told_answer hs', hsettles, reduceCtorEq, and_false, or_false]
    | false =>
      rw [herror] at ht'
      exact h.perform hg hsep hp hnew herror (htimes.resolve_left (by simp [herror])) hs' ht'

theorem Separate.of_run {as : List (SharedAction ι K V S)} (h : Coherent s.shared)
    (hr : run TimestampStore.step s as = some s') (hsep : Separate s') : Separate s := by
  induction as generalizing s with
  | nil =>
    obtain rfl := Option.some.inj hr
    exact hsep
  | cons a as ih =>
    obtain ⟨t, hs, ht⟩ := run_cons.mp hr
    exact (ih (h.step (step_shared hs)) ht).of_mono (names_step h hs)

theorem Consistent.run {as : List (SharedAction ι K V S)} (hg : Guarded s) (h : Consistent s)
    (hr : run TimestampStore.step s as = some s') (hsep : Separate s') :
    Guarded s' ∧ Consistent s' ∧ Kept s.timestamps.entry s'.timestamps.entry := by
  induction as generalizing s with
  | nil =>
    obtain rfl := Option.some.inj hr
    exact ⟨hg, h, .refl _⟩
  | cons a as ih =>
    obtain ⟨t, hs, ht⟩ := run_cons.mp hr
    have hst := hsep.of_run (hg.coherent.step (step_shared hs)) ht
    obtain ⟨hct, hkept⟩ := h.step hg hst hs
    obtain ⟨hg', hc', hkept'⟩ := ih (hg.step hst.distinct hs) hct ht
    exact ⟨hg', hc', hkept.trans hkept'⟩

omit [DecidableEq ι] [DecidableEq K] in
theorem Consistent.start (e : ι → TransactionExecution K V S) :
    Consistent (TimestampStore.start e) := by
  refine ⟨fun j id status hs => ?_, fun id t ht => ?_⟩
  · obtain ⟨ev, hev, -⟩ := hs
    exact absurd hev List.not_mem_nil
  · cases ht

omit [DecidableEq ι] in
theorem told_of_finished (h : Coherent s.shared) {j : ι}
    (hfin : (s.shared.client j).execution.isTransactionFinished = true) :
    (s.shared.client j).Told Event.settles ((s.shared.client j).execution.txnId,
      (s.shared.client j).execution.status) ∧
    (s.shared.client j).execution.status ≠ .ongoing := by
  obtain ⟨x, gaveUp, stage, entries, hpipe⟩ := (h.sound j).alive.finished hfin
  have htold : ∀ {op : Op} {call : HandlerCall K} {r : Reply V op} {status : TxnStatus},
      Event.answered op call r ∈ (s.shared.client j).execution.log → r.isError = false →
      call = .updateTxnStatus x.txnId status → (s.shared.client j).Told Event.settles
        ((s.shared.client j).execution.txnId, status) := by
    rintro op call r status hr herror rfl
    refine ⟨_, List.mem_append_left _ hr, ?_⟩
    simp only [Event.settles, herror, Bool.false_eq_true, if_false, hpipe.core.sets.txnId]
  rcases hpipe.finished.mp hfin with rfl | rfl
  · obtain ⟨hst, -, call, r, hr, herror⟩ := hpipe.facts
    obtain ⟨-, -, -, -, hcall⟩ := hpipe.core.callOk (hpipe.core.issued_of_answered hr)
    rw [hst]
    exact ⟨htold hr herror hcall, by decide⟩
  · obtain ⟨hst, -, call, r, hr, herror⟩ := hpipe.facts
    obtain ⟨-, -, -, hcall⟩ := hpipe.core.callOk (hpipe.core.issued_of_answered hr)
    rw [hst]
    exact ⟨htold hr herror hcall, by decide⟩

/-- The store never drops the entry of a transaction, nor changes its timestamp or its outcome once
they are set. Whenever a transaction is finished, they are in all later states what the transaction
itself ended with. -/
theorem transaction_table {e : ι → TransactionExecution K V S}
    (hv : ∀ j, (e j).operationVector = []) (hp : ∀ j, (e j).pending = [])
    {as bs : List (SharedAction ι K V S)} (hr : run step (start e) as = some s)
    (hr' : run step s bs = some s')
    (hid : ∀ j j', (s'.shared.client j).execution.txnId = (s'.shared.client j').execution.txnId →
      j = j') :
    Kept s.timestamps.entry s'.timestamps.entry ∧
    ∀ j, (s.shared.client j).execution.isTransactionFinished = true →
      ∃ t ∈ s'.timestamps.entry (s.shared.client j).execution.txnId,
        t.status = (s.shared.client j).execution.status ∧
        ∀ ts, (s.shared.client j).CommittedAt ts → t.commitTs = ts := by
  have hco' : Coherent s'.shared := by
    have hall := run_append.mpr ⟨s, hr, hr'⟩
    exact run_invariant (fun _ _ _ hi hs => Coherent.step hi hs) (Coherent.start hv hp)
      (run_shared hall)
  have hsep' := Separate.of_ids hco' hid
  -- The ids were separate when `s` was reached, too.
  have hsep : Separate s := by
    apply Separate.of_run _ hr' hsep'
    exact run_invariant (fun _ _ _ hi hs => Coherent.step hi hs) (Coherent.start hv hp)
      (run_shared hr)
  obtain ⟨hg, hc, -⟩ := Consistent.run (.start hv hp) (.start e) hr hsep
  obtain ⟨-, -, hkept⟩ := hc.run hg hr' hsep'
  refine ⟨hkept, fun j hfin => ?_⟩
  obtain ⟨htold, hset⟩ := told_of_finished hg.coherent hfin
  obtain ⟨t, ht, hstatus⟩ := hc.told j _ _ htold
  obtain ⟨t', ht', hcont⟩ := hkept _ t ht
  refine ⟨t', ht', (hcont.status (hstatus ▸ hset)).trans hstatus, fun ts hts => ?_⟩
  obtain ⟨x, gaveUp, stage, hd⟩ := (hg.coherent.sound j).decided hts
  obtain ⟨commitTs, r, hr, herror, rfl, hpos⟩ := hd.fixed
  have hfixes : (s.shared.client j).Told Event.fixes
      ((s.shared.client j).execution.txnId, r.result) := by
    refine ⟨_, List.mem_append_left _ hr, ?_⟩
    simp only [Event.fixes, herror, Bool.false_eq_true, if_false, Reply.timestamp, Option.map_some]
  obtain ⟨u, hu, hfixed⟩ := hg.ledger.fixed j _ _ hfixes
  obtain rfl := Option.mem_unique hu ht
  rw [← hfixed] at hpos ⊢
  exact hcont.commitTs fun hdefault => absurd (hdefault ▸ hpos) (by decide)

theorem transaction_table_sample :
    ∃ s s', run step samplePair (sampleRead ++ sampleUpsert 1 (.pseudo, .blank none) ++
        sampleCommit 1 6) = some s ∧
      run step s (sampleReread { VersionEntry.pseudo with maxCommitTs := 6, endTs := 6 }) = some s' ∧
      (s.shared.client 1).execution.isTransactionFinished = true ∧
      Kept s.timestamps.entry s'.timestamps.entry ∧
      ∀ j, (s.shared.client j).execution.isTransactionFinished = true →
        ∃ t ∈ s'.timestamps.entry (s.shared.client j).execution.txnId,
          t.status = (s.shared.client j).execution.status ∧
          ∀ ts, (s.shared.client j).CommittedAt ts → t.commitTs = ts := by
  have hrun : ∃ s ∈ run step samplePair (sampleRead ++ sampleUpsert 1 (.pseudo, .blank none) ++
        sampleCommit 1 6),
      ∃ s' ∈ run step s (sampleReread { VersionEntry.pseudo with maxCommitTs := 6, endTs := 6 }),
      (s.shared.client 1).execution.isTransactionFinished = true ∧
      ∀ j j', (s'.shared.client j).execution.txnId = (s'.shared.client j').execution.txnId →
        j = j' := by decide +kernel
  obtain ⟨s, hs, s', hs', hfin, hid⟩ := hrun
  exact ⟨s, s', hs, hs', hfin, transaction_table (fun _ => rfl) (fun _ => rfl) hs hs' hid⟩

end TimestampStore

end Fugue
