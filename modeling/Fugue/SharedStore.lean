import Fugue.ExecutorSteps
import Fugue.ResolvedVersions

/-! Any number of transactions, each on an execution of its own, and the store that performs their
calls one at a time. A call is performed before its answer arrives. -/

namespace Fugue

open TransactionExecution VersionStore

variable {ι K V S : Type}

/-- A transaction with the answers that are still on their way to it. -/
structure Client (K V S : Type) where
  execution : TransactionExecution K V S
  performed : List (Event K V)

structure SharedStore (ι K V S : Type) where
  store : VersionStore K
  client : ι → Client K V S

/-- A transaction takes a step of its own, or the executor that it shares its services and its
memory with changes them; the store performs one of its calls; the answer of a performed call
arrives. -/
inductive SharedAction (ι K V S : Type)
  | own (j : ι) (a : Action K V)
  | share (j : ι) (services : S) (memory : Addr → V)
  | perform (j : ι) (op : Op) (reply : Reply V op)
  | deliver (j : ι) (i : ℕ)

def Event.uploads : Event K V → Option (Op × SetKey K × ℤ)
  | .answered op (.uploadVersion key v) r => if r.isError then none else some (op, key, v.version)
  | _ => none

def Event.resolves : Event K V → Option (SetKey K × ℤ)
  | .answered _ c _ => c.resolved
  | .issued .. => none

def Event.commits : Event K V → Option (SetKey K × ℤ × ℤ)
  | .answered _ (.commitVersion key version _ beginTs ..) _ => some (key, version, beginTs)
  | _ => none

namespace Client

/-- The calls of the transaction, and all the answers that the store gave to them. -/
def history (c : Client K V S) : List (Event K V) := c.execution.log ++ c.performed

def Uploads (c : Client K V S) (op : Op) (key : SetKey K) (version : ℤ) : Prop :=
  ∃ ev ∈ c.history, ev.uploads = some (op, key, version)

def Resolves (c : Client K V S) (key : SetKey K) (version : ℤ) : Prop :=
  ∃ ev ∈ c.history, ev.resolves = some (key, version)

/-- The transaction has committed its version of the key at `beginTs`. -/
def Commits (c : Client K V S) (key : SetKey K) (version beginTs : ℤ) : Prop :=
  ∃ ev ∈ c.history, ev.commits = some (key, version, beginTs)

/-- A version that was uploaded and neither committed nor deleted yet. -/
def Owes (c : Client K V S) (key : SetKey K) (version : ℤ) : Prop :=
  (∃ op, c.Uploads op key version) ∧ ¬ c.Resolves key version

def answer (c : Client K V S) (ev : Event K V) : Client K V S :=
  { c with performed := c.performed ++ [ev] }

end Client

namespace SharedStore

def setClient [DecidableEq ι] (s : SharedStore ι K V S) (j : ι) (c : Client K V S) :
    SharedStore ι K V S := { s with client := Function.update s.client j c }

def answer [DecidableEq ι] (s : SharedStore ι K V S) (j : ι) (ev : Event K V)
    (store : VersionStore K) : SharedStore ι K V S :=
  { s.setClient j ((s.client j).answer ev) with store := store }

variable [DecidableEq ι] [DecidableEq K] [Services S]

def step (s : SharedStore ι K V S) : SharedAction ι K V S → Option (SharedStore ι K V S)
  | .own j a =>
    if Contended.isComplete a then none
    else (TransactionExecution.step (s.client j).execution a).map fun e =>
      s.setClient j { s.client j with execution := e }
  | .share j services memory =>
    some (s.setClient j
      { s.client j with execution := (s.client j).execution.share services memory })
  | .perform j op reply =>
    ((s.client j).execution.pending.find? fun p => p.1 = op).bind fun p =>
      if Permits s.store p.2 reply ∧ ∀ ev ∈ (s.client j).performed, ev.op ≠ op then
        some (s.answer j (.answered op p.2 reply) (s.store.perform reply.isError p.2))
      else none
  | .deliver j i =>
    match (s.client j).performed[i]? with
    | some (.answered op _ reply) =>
      ((s.client j).execution.complete op reply).map fun e =>
        s.setClient j ⟨e, (s.client j).performed.eraseIdx i⟩
    | _ => none

end SharedStore

theorem exists_append_of_getElem? {α : Type} {l : List α} {i : ℕ} {a : α} (h : l[i]? = some a) :
    ∃ l₁ l₂, l = l₁ ++ a :: l₂ ∧ l.eraseIdx i = l₁ ++ l₂ := by
  obtain ⟨hi, rfl⟩ := List.getElem?_eq_some_iff.mp h
  refine ⟨l.take i, l.drop (i + 1), ?_, List.eraseIdx_eq_take_drop_succ l i⟩
  rw [← List.drop_eq_getElem_cons hi, List.take_append_drop]

namespace Client

def SameAnswers (c c' : Client K V S) : Prop :=
  ∀ op call r, Event.answered op call r ∈ c'.history ↔ Event.answered op call r ∈ c.history

variable {c c' : Client K V S}

theorem history_answer (c : Client K V S) (ev : Event K V) :
    (c.answer ev).history = c.history ++ [ev] :=
  (List.append_assoc _ _ _).symm

theorem exists_answer (c : Client K V S) (ev : Event K V) {β : Type} {f : Event K V → Option β}
    {y : β} : (∃ x ∈ (c.answer ev).history, f x = some y) ↔
      (∃ x ∈ c.history, f x = some y) ∨ f ev = some y := by
  rw [history_answer]
  simp only [List.mem_append, List.mem_singleton, or_and_right, exists_or, exists_eq_left]

theorem SameAnswers.exists_iff (h : SameAnswers c c') {β : Type} {f : Event K V → Option β}
    (hf : ∀ op call, f (.issued op call) = none) {y : β} :
    (∃ ev ∈ c'.history, f ev = some y) ↔ ∃ ev ∈ c.history, f ev = some y := by
  constructor
  · rintro ⟨ev, hev, hy⟩
    cases ev with
    | issued op call =>
      rw [hf] at hy
      cases hy
    | answered op call r => exact ⟨_, (h op call r).mp hev, hy⟩
  · rintro ⟨ev, hev, hy⟩
    cases ev with
    | issued op call =>
      rw [hf] at hy
      cases hy
    | answered op call r => exact ⟨_, (h op call r).mpr hev, hy⟩

variable [DecidableEq K] [Services S]

structure Sound (c : Client K V S) : Prop where
  alive : Alive c.execution
  inFlight : ∀ op call r, Event.answered op call r ∈ c.performed →
    (op, call) ∈ c.execution.pending
  nodup : (c.performed.map Event.op).Nodup

namespace Sound

variable {e : TransactionExecution K V S}

theorem issued (h : Sound c) {op : Op} {call : HandlerCall K} {r : Reply V op}
    (hr : Event.answered op call r ∈ c.history) : Event.issued op call ∈ c.execution.log := by
  rcases List.mem_append.mp hr with hr | hr
  · exact h.alive.issued_of_answered hr
  · exact h.alive.issued_of_pending (h.inFlight op call r hr)

theorem own (h : Sound c) {a : Action K V} (hs : TransactionExecution.step c.execution a = some e)
    (ha : Contended.isComplete a = false) :
    Sound { c with execution := e } ∧ SameAnswers c { c with execution := e } := by
  refine ⟨⟨h.alive.step hs, fun op call r hr => ?_, h.nodup⟩, fun op call r => ?_⟩
  · exact h.alive.pending_subset hs ha (h.inFlight op call r hr)
  · obtain ⟨new, hlog, hnew⟩ := step_log hs
    have hno : Event.answered op call r ∉ new := by
      intro hr
      rw [hnew _ _ _ hr] at ha
      cases ha
    simp only [history, hlog, List.mem_append, hno, or_false]

theorem share (h : Sound c) (services : S) (memory : Addr → V) :
    Sound { c with execution := c.execution.share services memory } :=
  ⟨h.alive.share services memory, h.inFlight, h.nodup⟩

theorem deliver (h : Sound c) {i : ℕ} {op : Op} {call : HandlerCall K} {r : Reply V op}
    (hi : c.performed[i]? = some (.answered op call r)) (hs : c.execution.complete op r = some e) :
    Sound ⟨e, c.performed.eraseIdx i⟩ ∧ SameAnswers c ⟨e, c.performed.eraseIdx i⟩ ∧
      e.txnId = c.execution.txnId := by
  obtain ⟨call', hc⟩ := complete_cases hs
  have hmem := h.inFlight op call r (List.mem_of_getElem? hi)
  -- The answered call is the one that was performed.
  have hcall : (op, call') = (op, call) :=
    List.inj_on_of_nodup_map h.alive.pending_nodup hc.mem hmem rfl
  obtain rfl := (Prod.mk.inj hcall).2
  obtain ⟨l₁, l₂, hl, herase⟩ := exists_append_of_getElem? hi
  have hnodup := h.nodup
  rw [hl, List.map_append, List.map_cons, List.nodup_middle, List.nodup_cons] at hnodup
  rw [herase]
  refine ⟨⟨?_, fun op₂ call₂ r₂ hr => ?_, ?_⟩, fun op₂ call₂ r₂ => ?_, hc.txnId⟩
  · exact h.alive.step (a := .complete op r) hs
  · have hne : op₂ ≠ op := by
      intro heq
      rw [← List.map_append] at hnodup
      exact hnodup.1 (List.mem_map.mpr ⟨_, hr, heq⟩)
    have hold : Event.answered op₂ call₂ r₂ ∈ c.performed := by
      rw [hl]
      exact List.mem_append.mpr ((List.mem_append.mp hr).imp_right (List.mem_cons_of_mem _))
    change _ ∈ e.pending
    rw [hc.pending]
    refine (List.mem_erase_of_ne fun heq => ?_).mpr (h.inFlight op₂ call₂ r₂ hold)
    exact hne (Prod.mk.inj heq).1
  · rw [List.map_append]
    exact hnodup.2
  · simp only [history, hc.log, hl, List.mem_append, List.mem_cons, List.not_mem_nil, or_false]
    tauto

theorem perform (h : Sound c) {op : Op} {call : HandlerCall K}
    (hp : (op, call) ∈ c.execution.pending) (hnew : ∀ ev ∈ c.performed, ev.op ≠ op)
    (r : Reply V op) : Sound (c.answer (.answered op call r)) := by
  refine ⟨h.alive, fun op₂ call₂ r₂ hr => ?_, ?_⟩
  · rcases List.mem_append.mp hr with hr | hr
    · exact h.inFlight op₂ call₂ r₂ hr
    · cases List.mem_singleton.mp hr
      exact hp
  · change ((c.performed ++ [_]).map Event.op).Nodup
    rw [List.map_append]
    refine List.Nodup.append h.nodup (List.nodup_singleton _) fun op₂ hop hop' => ?_
    obtain ⟨ev, hev, rfl⟩ := List.mem_map.mp hop
    exact hnew ev hev (List.mem_singleton.mp hop')

end Sound

def Started (c : Client K V S) : Prop :=
  ∃ op call, Event.issued op call ∈ c.execution.log ∧ 0 < op.rank

end Client

namespace SharedStore

variable {s s' : SharedStore ι K V S}

structure Quiet (s s' : SharedStore ι K V S) : Prop where
  store : s'.store = s.store
  same : ∀ j, (s.client j).SameAnswers (s'.client j)
  txnId : ∀ j, (s.client j).Started →
    (s'.client j).execution.txnId = (s.client j).execution.txnId

variable [DecidableEq ι]

theorem client_setClient {P : ι → Client K V S → Prop} {j : ι} {c : Client K V S} (hc : P j c)
    (h : ∀ j', P j' (s.client j')) (j' : ι) : P j' ((s.setClient j c).client j') := by
  by_cases hj : j' = j
  · subst hj
    simpa only [setClient, Function.update_self] using hc
  · simpa only [setClient, Function.update_of_ne hj] using h j'

theorem history_subset_answer (s : SharedStore ι K V S) (j : ι) (ev : Event K V)
    (store : VersionStore K) (j' : ι) :
    (s.client j').history ⊆ ((s.answer j ev store).client j').history := by
  apply client_setClient (P := fun j' c => (s.client j').history ⊆ c.history)
  · rw [Client.history_answer]
    exact List.subset_append_left _ _
  · exact fun j' => List.Subset.refl _

theorem Quiet.of_setClient {j : ι} {c : Client K V S} (hsame : (s.client j).SameAnswers c)
    (hid : (s.client j).Started → c.execution.txnId = (s.client j).execution.txnId) :
    Quiet s (s.setClient j c) where
  store := rfl
  same := client_setClient (P := fun j' c' => (s.client j').SameAnswers c') hsame
    fun _ _ _ _ => Iff.rfl
  txnId := client_setClient (P := fun j' c' => (s.client j').Started →
    c'.execution.txnId = (s.client j').execution.txnId) hid fun _ _ => rfl

variable [DecidableEq K] [Services S]

theorem step_cases (h : ∀ j, (s.client j).Sound) {a : SharedAction ι K V S}
    (hs : s.step a = some s') :
    (∀ j, (s'.client j).Sound) ∧ ((∀ j op r, a ≠ .perform j op r) ∧ Quiet s s' ∨
      ∃ j op c r, a = .perform j op r ∧
        ((s.client j).execution.pending.find? fun p => p.1 = op) = some (op, c) ∧
        (∀ ev ∈ (s.client j).performed, ev.op ≠ op) ∧ Permits s.store c r ∧
        s' = s.answer j (.answered op c r) (s.store.perform r.isError c)) := by
  cases a with
  | own j b =>
    simp only [step] at hs
    split at hs
    · cases hs
    · next hb =>
      obtain ⟨e, he, rfl⟩ := Option.map_eq_some_iff.mp hs
      obtain ⟨hsound, hsame⟩ := (h j).own he (by simpa using hb)
      refine ⟨client_setClient (P := fun _ c => c.Sound) hsound h, Or.inl ⟨by simp, ?_⟩⟩
      apply Quiet.of_setClient hsame
      rintro ⟨op, call, hissued, hop⟩
      exact (h j).alive.txnId_step hissued hop he
  | share j services memory =>
    cases hs
    refine ⟨client_setClient (P := fun _ c => c.Sound) ((h j).share services memory) h,
      Or.inl ⟨by simp, ?_⟩⟩
    exact Quiet.of_setClient (fun _ _ _ => Iff.rfl) fun _ => rfl
  | perform j op reply =>
    simp only [step] at hs
    obtain ⟨⟨op', c⟩, hp, hs⟩ := Option.bind_eq_some_iff.mp hs
    obtain rfl : op' = op := by simpa using List.find?_some hp
    split at hs
    · next hok =>
      cases hs
      refine ⟨client_setClient (P := fun _ c => c.Sound) ?_ h,
        Or.inr ⟨j, op', c, reply, rfl, hp, hok.2, hok.1, rfl⟩⟩
      exact (h j).perform (List.mem_of_find?_eq_some hp) hok.2 reply
    · cases hs
  | deliver j i =>
    simp only [step] at hs
    split at hs
    · next op c reply hi =>
      obtain ⟨e, he, rfl⟩ := Option.map_eq_some_iff.mp hs
      obtain ⟨hsound, hsame, hid⟩ := (h j).deliver hi he
      exact ⟨client_setClient (P := fun _ c => c.Sound) hsound h,
        Or.inl ⟨by simp, Quiet.of_setClient hsame fun _ => hid⟩⟩
    · cases hs

end SharedStore

end Fugue
