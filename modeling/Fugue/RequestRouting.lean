import Fugue.RequestQueue

namespace Fugue

open TransactionExecutor RuntimeTransactionExecutor

variable {K V S : Type}

/-- Whether a session that sends whole transactions is inside one, after one more request. -/
def advancePhase (p : Option Bool) (r : OperationRequest K) : Option Bool :=
  match p with
  | some false => if r.isBegin then some true else none
  | some true => if r.isBegin then none else some !r.isEnd
  | none => none

/-- Whether the session is inside a transaction; `none` if its requests do not form a sequence of
whole transactions, the last of which may be incomplete. -/
def phase (l : List (SessionRequest K)) (sessionId : ℤ) : Option Bool :=
  (l.filter (·.sessionId = sessionId)).foldl (fun p r => advancePhase p r.operation) (some false)

def WholeTransactions (l : List (SessionRequest K)) : Prop := ∀ sessionId, phase l sessionId ≠ none

theorem phase_concat (l : List (SessionRequest K)) (r : SessionRequest K) (sessionId : ℤ) :
    phase (l ++ [r]) sessionId = if r.sessionId = sessionId then
      advancePhase (phase l sessionId) r.operation else phase l sessionId := by
  simp only [phase, List.filter_append, List.foldl_append]
  split <;> simp_all

theorem WholeTransactions.initial {l m : List (SessionRequest K)}
    (h : WholeTransactions (l ++ m)) : WholeTransactions l := by
  induction m using List.reverseRecOn with
  | nil => simpa using h
  | append_singleton m r ih =>
    refine ih fun sessionId hn => h sessionId ?_
    rw [← List.append_assoc, phase_concat, hn]
    split <;> rfl

/-- The slot `i` was given to the latest `Begin` of the session, and to no other one since. -/
def Latest (pushed : List (Push K)) (sessionId : ℤ) (i : ℕ) : Prop :=
  ∃ pre b mid, pushed = pre ++ b :: mid ∧ b.request.operation.isBegin = true ∧
    b.request.sessionId = sessionId ∧ b.slot = i ∧
    ∀ p ∈ mid, p.request.operation.isBegin = true → p.request.sessionId ≠ sessionId ∧ p.slot ≠ i

/-- Each request but a `Begin` was pushed into the slot of its session's latest `Begin`, and that
slot was in use. -/
def Routed (pushed : List (Push K)) : Prop :=
  ∀ pre p post, pushed = pre ++ p :: post → p.request.operation.isBegin = false →
    Latest pre p.request.sessionId p.slot ∧ p.inUse = true

theorem Latest.concat {pushed : List (Push K)} {sessionId : ℤ} {i : ℕ}
    (h : Latest pushed sessionId i) {p : Push K}
    (hp : p.request.operation.isBegin = true → p.request.sessionId ≠ sessionId ∧ p.slot ≠ i) :
    Latest (pushed ++ [p]) sessionId i := by
  obtain ⟨pre, b, mid, rfl, hb, hid, hi, hmid⟩ := h
  refine ⟨pre, b, mid ++ [p], by simp, hb, hid, hi, fun q hq => ?_⟩
  rcases List.mem_append.mp hq with hq | hq
  · exact hmid q hq
  · obtain rfl := List.mem_singleton.mp hq
    exact hp

theorem Routed.concat {pushed : List (Push K)} (h : Routed pushed) {p : Push K}
    (hp : p.request.operation.isBegin = false →
      Latest pushed p.request.sessionId p.slot ∧ p.inUse = true) : Routed (pushed ++ [p]) := by
  intro pre q post heq hb
  rcases List.eq_nil_or_concat post with rfl | ⟨post, l, rfl⟩
  · obtain ⟨rfl, hq⟩ := List.append_inj' heq rfl
    obtain rfl := (List.cons.inj hq).1
    exact hp hb
  · refine h pre q post ?_ hb
    rw [List.concat_eq_append, ← List.cons_append, ← List.append_assoc] at heq
    exact (List.append_inj' heq rfl).1

namespace ExecutorRun

/-- The slot `i` runs the transaction that the session is inside, which has not been asked to end,
and a search for the session finds this slot first. -/
structure Placed (s : ExecutorRun K V S) (sessionId : ℤ) (i : ℕ) : Prop where
  task : ∃ t, s.activeTxn[i]? = some t ∧ t.inUse = true ∧ t.sessionId = sessionId ∧
    ∀ r ∈ t.request.operationRequestQueue, r.operation.isEnd = false
  first : ∀ j u, j < i → s.activeTxn[j]? = some u → u.sessionId ≠ sessionId
  latest : Latest s.pushed sessionId i

variable [DecidableEq K] [Services S]

structure Routing (n : ℕ) (s : ExecutorRun K V S) : Prop where
  kept : Kept n s
  placed : ∀ sessionId, phase (s.pushed.map Push.request) sessionId = some true →
    ∃ i, Placed s sessionId i
  routed : Routed s.pushed

/-- A `Begin` is launched only when no slot before the first one that is not in use still has the
id of its session. -/
def Fresh (s : ExecutorRun K V S) : ExecutorAction K V S → Prop
  | .launch => ∀ r y, s.fetch = some (r, y) → r.operation.isBegin = true →
      s.activeTxnNumber < s.concurrentTxnCount →
      ∀ (j : ℕ) (u : TransactionTask K V S), s.activeTxn[j]? = some u →
        (∀ k (v : TransactionTask K V S), k ≤ j → s.activeTxn[k]? = some v → v.inUse = true) →
        u.sessionId ≠ r.sessionId
  | _ => True

variable {n i : ℕ} {s s' : ExecutorRun K V S} {sessionId : ℤ}

omit [DecidableEq K] [Services S] in
theorem Placed.set (h : Placed s sessionId i) {j : ℕ} {t t' : TransactionTask K V S}
    (ht : s.activeTxn[j]? = some t) (hx : s'.activeTxn = s.activeTxn.set j t')
    (hid : t'.sessionId = t.sessionId ∨ t'.sessionId ≠ sessionId ∧ t.inUse = false)
    (hsame : j = i → t'.inUse = true ∧
      ∀ r ∈ t'.request.operationRequestQueue, r.operation.isEnd = false)
    (hl : Latest s'.pushed sessionId i) : Placed s' sessionId i := by
  obtain ⟨u, hu, huse, huid, hq⟩ := h.task
  have hlt := (List.getElem?_eq_some_iff.mp ht).1
  refine ⟨?_, fun k v hk hv => ?_, hl⟩
  · by_cases hji : j = i
    · subst hji
      obtain rfl := Option.some.inj (ht.symm.trans hu)
      obtain ⟨huse', hq'⟩ := hsame rfl
      refine ⟨t', by rw [hx, List.getElem?_set_self hlt], huse', ?_, hq'⟩
      rcases hid with hid | ⟨-, hno⟩
      · exact hid.trans huid
      · rw [huse] at hno
        cases hno
    · exact ⟨u, by rw [hx, List.getElem?_set_ne hji, hu], huse, huid, hq⟩
  · rw [hx] at hv
    by_cases hjk : j = k
    · subst hjk
      rw [List.getElem?_set_self hlt] at hv
      obtain rfl := Option.some.inj hv
      rcases hid with hid | ⟨hid, -⟩
      · rw [hid]
        exact h.first j t hk ht
      · exact hid
    · rw [List.getElem?_set_ne hjk] at hv
      exact h.first k v hk hv

namespace Routing

theorem init (n : ℕ) (services : S) (memory : Addr → V) (key : SetKey K) :
    Routing n (ExecutorRun.init n services memory key) where
  kept := .init n services memory key
  placed sessionId h := by
    rw [show (ExecutorRun.init n services memory key).pushed = [] from rfl] at h
    simp [phase] at h
  routed pre p post h := by
    rw [show (ExecutorRun.init n services memory key).pushed = [] from rfl] at h
    simp at h

theorem keep (h : Routing n s) {j : ℕ} {t t' : TransactionTask K V S} {p : Push K}
    (ht : s.activeTxn[j]? = some t) (hx : s'.activeTxn = s.activeTxn.set j t')
    (hp : s'.pushed = s.pushed ++ [p]) (hslot : p.slot = j)
    (hid : t'.sessionId = p.request.sessionId) (hne : p.request.sessionId ≠ sessionId)
    (hold : t.sessionId = t'.sessionId ∨ t.inUse = false)
    (hph : phase (s'.pushed.map Push.request) sessionId = some true) :
    ∃ i, Placed s' sessionId i := by
  rw [hp, List.map_append, List.map_singleton, phase_concat, if_neg hne] at hph
  obtain ⟨i, hi⟩ := h.placed sessionId hph
  obtain ⟨u, hu, huse, huid, -⟩ := hi.task
  have hji : j ≠ i := by
    rintro rfl
    obtain rfl := Option.some.inj (ht.symm.trans hu)
    rcases hold with hold | hold
    · exact hne (hid.symm.trans (hold.symm.trans huid))
    · rw [huse] at hold
      cases hold
  refine ⟨i, hi.set ht hx ?_ (fun h => absurd h hji) ?_⟩
  · rcases hold with hold | hold
    · exact .inl hold.symm
    · exact .inr ⟨fun h => hne (hid.symm.trans h), hold⟩
  · rw [hp]
    apply hi.latest.concat
    exact fun _ => ⟨hne, fun h => hji (hslot.symm.trans h)⟩

theorem launched (h : Routing n s) (hw : WholeTransactions s'.added)
    (hs : step s .launch = some s') (hf : Fresh s .launch) : Routing n s' := by
  have hkept := h.kept.step hs
  have hwhole : WholeTransactions (s'.pushed.map Push.request) := by
    rw [hkept.order] at hw
    exact hw.initial
  cases launch_launched hs with
  | idle hw hs' => rwa [hs']
  | parked r hr hwait hc hn hx ha hp =>
    refine ⟨hkept, fun sessionId hph => ?_, hp ▸ h.routed⟩
    rw [hp] at hph
    obtain ⟨i, hi⟩ := h.placed sessionId hph
    exact ⟨i, by rw [hx]; exact hi.task, by rw [hx]; exact hi.first, by rw [hp]; exact hi.latest⟩
  | started r j t hr hwait hc ht hu hfirst hx hn ha hp =>
    obtain ⟨u, huj, rfl⟩ := task_eq_some.mp ht
    have hlt := (List.getElem?_eq_some_iff.mp huj).1
    refine ⟨hkept, fun sessionId hph => ?_, ?_⟩
    · by_cases hid : r.sessionId = sessionId
      · subst hid
        refine ⟨j, ⟨_, by rw [hx, List.getElem?_set_self hlt], rfl, rfl, ?_⟩, fun k v hk hv => ?_,
          s.pushed, _, [], hp, hr, rfl, rfl, by simp⟩
        · intro q hq
          obtain rfl := List.mem_singleton.mp hq
          cases hb : q.operation <;> simp_all [OperationRequest.isBegin, OperationRequest.isEnd]
        · rw [hx, List.getElem?_set_ne (Nat.ne_of_gt hk)] at hv
          have hnum : s.activeTxnNumber < s.concurrentTxnCount := by
            rw [h.kept.active, concurrentTxnCount]
            have := List.countP_lt_length_iff (p := fun t : TransactionTask K V S => t.inUse)
              |>.mpr ⟨u, List.mem_of_getElem? huj, hu⟩
            omega
          have hfetch : ∃ y, s.fetch = some (r, y) := by
            cases hfe : s.fetch with
            | none =>
              rw [fetch_eq_none hfe] at hwait
              cases hwait
            | some q =>
              obtain ⟨q, y⟩ := q
              have hcons := (fetch_cases hfe).2.1.symm.trans hwait
              exact ⟨y, by rw [(List.cons.inj hcons).1]⟩
          obtain ⟨y, hy⟩ := hfetch
          exact hf r y hy hr hnum k v hv fun l w hl hw' => hfirst l w (by omega) hw'
      · exact h.keep huj hx hp rfl rfl hid (.inr hu) hph
    · rw [hp]
      refine h.routed.concat fun hb => ?_
      rw [hr] at hb
      cases hb
  | routed r j t hr hwait hc ht hid hfirst hx hn ha hp =>
    obtain ⟨u, huj, rfl⟩ := task_eq_some.mp ht
    have hph : phase (s.pushed.map Push.request) r.sessionId = some true := by
      have := hwhole r.sessionId
      rw [hp, List.map_append, List.map_singleton, phase_concat, if_pos rfl] at this
      cases hq : phase (s.pushed.map Push.request) r.sessionId with
      | none => simp [hq, advancePhase] at this
      | some b => cases b <;> simp_all [advancePhase]
    obtain ⟨i, hi⟩ := h.placed r.sessionId hph
    obtain ⟨v, hv, huse, hvid, hq⟩ := hi.task
    have hij : j = i := by
      rcases Nat.lt_trichotomy j i with hlt | heq | hlt
      · exact absurd hid (hi.first j u hlt huj)
      · exact heq
      · exact absurd hvid (hfirst i v hlt hv)
    subst hij
    obtain rfl := Option.some.inj (huj.symm.trans hv)
    refine ⟨hkept, fun sessionId hph' => ?_, ?_⟩
    · by_cases hse : r.sessionId = sessionId
      · subst hse
        rw [hp, List.map_append, List.map_singleton, phase_concat, if_pos rfl, hph] at hph'
        have hend : r.operation.isEnd = false := by simpa [advancePhase, hr] using hph'
        refine ⟨j, hi.set huj hx (.inl rfl) (fun _ => ⟨huse, fun q hq' => ?_⟩) ?_⟩
        · rcases List.mem_append.mp hq' with hq' | hq'
          · exact hq q hq'
          · obtain rfl := List.mem_singleton.mp hq'
            exact hend
        · rw [hp]
          apply hi.latest.concat
          intro hb
          rw [hr] at hb
          cases hb
      · exact h.keep huj hx hp rfl hvid hse (.inl rfl) hph'
    · rw [hp]
      exact h.routed.concat fun _ => ⟨hi.latest, huse⟩

theorem step (h : Routing n s) (hw : WholeTransactions s'.added) {a : ExecutorAction K V S}
    (hs : step s a = some s') (hf : Fresh s a) : Routing n s' := by
  have hkept := h.kept.step hs
  cases a with
  | addRequest r =>
    cases hs
    exact ⟨hkept, fun sessionId hph => by
      obtain ⟨i, hi⟩ := h.placed sessionId hph
      exact ⟨i, hi.task, hi.first, hi.latest⟩, h.routed⟩
  | launch => exact h.launched hw hs hf
  | slot a =>
    obtain ⟨x, hx, rfl⟩ := Option.map_eq_some_iff.mp hs
    refine ⟨hkept, fun sessionId hph => ?_, h.routed⟩
    obtain ⟨i, hi⟩ := h.placed sessionId hph
    rcases step_cases RuntimeTransactionExecutor.dispatches h.kept.tasks hx with ⟨ht, -, -⟩ |
      ⟨j, t, t', hc⟩
    · exact ⟨i, ht.symm ▸ hi.task, ht.symm ▸ hi.first, hi.latest⟩
    · refine ⟨i, hi.set hc.old hc.new (.inl hc.sessionId) (fun hji => ?_) hi.latest⟩
      subst hji
      obtain ⟨u, hu, huse, -, hq⟩ := hi.task
      obtain rfl := Option.some.inj (hc.old.symm.trans hu)
      -- no request to end the transaction has come, so that the slot is not released
      have hno : ¬ s.Releases a := fun hd => by
        have hfin := (h.kept.tasks t (List.mem_of_getElem? hu)).unfinished huse hq
        rw [(hc.leaves hd).2.1] at hfin
        cases hfin
      exact ⟨(hc.stays hno).1.trans huse, hc.queue ▸ hq⟩

end Routing

theorem step_added {a : ExecutorAction K V S} (hs : step s a = some s') :
    ∃ l, s'.added = s.added ++ l := by
  cases a with
  | addRequest r =>
    cases hs
    exact ⟨[r], rfl⟩
  | launch =>
    cases launch_launched hs with
    | idle hw hs' => exact ⟨[], by simp [hs']⟩
    | parked r hr hw hc hn hx ha hp => exact ⟨[], by simp [ha]⟩
    | started r i t hr hw hc ht hu hfirst hx hn ha hp => exact ⟨[], by simp [ha]⟩
    | routed r i t hr hw hc ht hid hfirst hx hn ha hp => exact ⟨[], by simp [ha]⟩
  | slot a =>
    obtain ⟨x, hx, rfl⟩ := Option.map_eq_some_iff.mp hs
    exact ⟨[], (List.append_nil _).symm⟩

/-- Requests other than a `Begin` reach the slot of their own transaction while it is in use. -/
theorem requests_routed {n : ℕ} {services : S} {memory : Addr → V} {key : SetKey K}
    {as : List (ExecutorAction K V S)} {s : ExecutorRun K V S}
    (hr : run step (init n services memory key) as = some s) (hw : WholeTransactions s.added)
    (hf : Along step Fresh (init n services memory key) as) : Routed s.pushed := by
  have hinv : WholeTransactions s.added → Routing n s :=
    run_invariant_along (I := fun t => WholeTransactions t.added → Routing n t)
      (fun t a t' ha hi hs hw' => by
        obtain ⟨l, hl⟩ := step_added hs
        exact (hi (hl ▸ hw').initial).step hw' hs ha)
      hf (fun _ => .init n services memory key) hr
  exact (hinv hw).routed

def earlySession : List (ExecutorAction ℕ ℕ LocalServices) :=
  [.addRequest ⟨5, .begin⟩, .addRequest ⟨5, .commit⟩, .addRequest ⟨5, .begin⟩,
    .addRequest ⟨5, .read ⟨"t", 1⟩ none⟩, .launch, .launch, .launch, .launch]

theorem read_misrouted : ∃ s, run step (sampleRun 2) earlySession = some s ∧
    WholeTransactions s.added ∧ ¬ Routed s.pushed := by
  have h : (run step (sampleRun 2) earlySession).map (fun s => (s.added, s.pushed)) = some
      ([⟨5, .begin⟩, ⟨5, .commit⟩, ⟨5, .begin⟩, ⟨5, .read ⟨"t", 1⟩ none⟩],
        [⟨⟨5, .begin⟩, 0, true⟩, ⟨⟨5, .commit⟩, 0, true⟩, ⟨⟨5, .begin⟩, 1, true⟩,
          ⟨⟨5, .read ⟨"t", 1⟩ none⟩, 0, true⟩]) := by decide +kernel
  obtain ⟨s, hr, hs⟩ := Option.map_eq_some_iff.mp h
  obtain ⟨ha, hp⟩ := Prod.mk.inj hs
  refine ⟨s, hr, fun sessionId => ?_, fun hrouted => ?_⟩
  · rw [ha]
    by_cases hid : 5 = sessionId
    · subst hid
      decide
    · simp [phase, hid]
  · obtain ⟨⟨pre, b, mid, heq, -, -, hslot, hmid⟩, -⟩ := hrouted
      [⟨⟨5, .begin⟩, 0, true⟩, ⟨⟨5, .commit⟩, 0, true⟩, ⟨⟨5, .begin⟩, 1, true⟩] _ [] hp rfl
    have hin : (⟨⟨5, .begin⟩, 1, true⟩ : Push ℕ) ∈ b :: mid := by
      apply List.mem_of_getLast?
      have hlast := congrArg List.getLast? heq
      rw [List.getLast?_append_of_ne_nil pre (List.cons_ne_nil b mid)] at hlast
      exact hlast.symm
    rcases List.mem_cons.mp hin with hb | hb
    · rw [← hb] at hslot
      cases hslot
    · exact (hmid _ hb rfl).1 rfl

theorem requests_routed_sample : ∃ s, run step (sampleRun 1) [.addRequest ⟨5, .begin⟩,
      .addRequest ⟨5, .read ⟨"t", 1⟩ none⟩, .launch, .launch] = some s ∧ Routed s.pushed := by
  have h : (run step (sampleRun 1) [.addRequest ⟨5, .begin⟩, .addRequest ⟨5, .read ⟨"t", 1⟩ none⟩,
      .launch, .launch]).map (·.added) = some [⟨5, .begin⟩, ⟨5, .read ⟨"t", 1⟩ none⟩] := by
    decide +kernel
  obtain ⟨s, hr, hs⟩ := Option.map_eq_some_iff.mp h
  refine ⟨s, hr, requests_routed hr (fun sessionId => ?_) ?_⟩
  · rw [hs]
    by_cases hid : 5 = sessionId
    · subst hid
      decide
    · simp [phase, hid]
  · refine ⟨trivial, fun s₁ h₁ => ?_⟩
    obtain rfl := Option.some.inj h₁
    refine ⟨trivial, fun s₂ h₂ => ?_⟩
    obtain rfl := Option.some.inj h₂
    refine ⟨fun r y hf hb hn j u hu hk => ?_, fun s₃ h₃ => ?_⟩
    · cases hk 0 _ (Nat.zero_le j) rfl
    · obtain rfl := Option.some.inj h₃
      refine ⟨fun r y hf hb => ?_, fun s₄ h₄ => trivial⟩
      obtain ⟨rfl, -⟩ := Prod.mk.inj (Option.some.inj hf)
      cases hb

end ExecutorRun

end Fugue
