import Fugue.CommitDecided
import Fugue.TimestampLedger

namespace Fugue

open TransactionExecution VersionStore

variable {ι K V S : Type}

namespace Event

def told : Event K V → Option (SetKey K × ℤ × ℤ)
  | .answered _ (.uploadVersion key v) r =>
    if r.isError then none else r.latestReader.map fun ts => (key, v.version, ts)
  | _ => none

def rereads : Event K V → Option (SetKey K × ℤ × ℤ × VersionEntry)
  | .answered _ (.updateMaxCommitTsAndReread key version ts) r =>
    r.version.bind fun v =>
      if r.isError = false ∧ 0 ≤ ts ∧ ts ≤ v.endTs then some (key, version, ts, v) else none
  | _ => none

def pushes : Event K V → Option (ℤ × ℤ × TxnEntry)
  | .answered _ (.updateCommitLowerBound id lowerBound) r =>
    if r.isError then none else r.txnEntry.map fun t => (id, lowerBound, t)
  | _ => none

def fixes : Event K V → Option (ℤ × ℤ)
  | .answered _ (.setCommitTimestamp id _) r =>
    if r.isError then none else r.timestamp.map fun ts => (id, ts)
  | _ => none

def settles : Event K V → Option (ℤ × TxnStatus)
  | .answered _ (.updateTxnStatus id status) r => if r.isError then none else some (id, status)
  | _ => none

def deletes : Event K V → Option (SetKey K × ℤ)
  | .answered _ (.deleteVersion key version) _ => some (key, version)
  | _ => none

/-- A re-read does not find that its version ends at the timestamp of the reader. -/
def Untied (ev : Event K V) : Prop := ∀ y ∈ ev.rereads, y.2.2.2.endTs ≠ y.2.2.1

instance (ev : Event K V) : Decidable ev.Untied := by
  unfold Untied
  infer_instance

theorem commits_or_deletes {ev : Event K V} {key : SetKey K} {version : ℤ}
    (h : ev.resolves = some (key, version)) :
    (∃ ts, ev.commits = some (key, version, ts)) ∨ ev.deletes = some (key, version) := by
  cases ev with
  | issued op c => cases h
  | answered op c r =>
    cases c with
    | commitVersion key' version' expect ts endTs txId record =>
      obtain ⟨rfl, rfl⟩ := Prod.mk.inj (Option.some.inj h)
      exact Or.inl ⟨ts, rfl⟩
    | deleteVersion key' version' => exact Or.inr h
    | _ => cases h

theorem of_rereads {ev : Event K V} {key : SetKey K} {version ts : ℤ} {v : VersionEntry}
    (h : ev.rereads = some (key, version, ts, v)) :
    ∃ op r, ev = .answered op (.updateMaxCommitTsAndReread key version ts) r ∧
      r.version = some v := by
  unfold rereads at h
  split at h
  · obtain ⟨v', hv, h⟩ := Option.bind_eq_some_iff.mp h
    split at h
    · obtain ⟨rfl, h1⟩ := Prod.mk.inj (Option.some.inj h)
      obtain ⟨rfl, h2⟩ := Prod.mk.inj h1
      obtain ⟨rfl, rfl⟩ := Prod.mk.inj h2
      exact ⟨_, _, rfl, hv⟩
    · cases h
  · cases h

theorem of_fixes {ev : Event K V} {id ts : ℤ} (h : ev.fixes = some (id, ts)) :
    ∃ op commitTs r, ev = .answered op (.setCommitTimestamp id commitTs) r ∧ r.isError = false ∧
      r.timestamp = some ts := by
  unfold fixes at h
  split at h
  · split at h
    · cases h
    · next herror =>
      obtain ⟨ts', hts, h⟩ := Option.map_eq_some_iff.mp h
      obtain ⟨rfl, rfl⟩ := Prod.mk.inj h
      exact ⟨_, _, _, rfl, by simpa using herror, hts⟩
  · cases h

theorem of_told {ev : Event K V} {key : SetKey K} {version m : ℤ}
    (h : ev.told = some (key, version, m)) :
    ∃ op v r, ev = .answered op (.uploadVersion key v) r ∧ r.latestReader = some m := by
  unfold told at h
  split at h
  · split at h
    · cases h
    · obtain ⟨ts', hts, h⟩ := Option.map_eq_some_iff.mp h
      obtain ⟨rfl, h1⟩ := Prod.mk.inj h
      obtain ⟨rfl, rfl⟩ := Prod.mk.inj h1
      exact ⟨_, _, _, rfl, hts⟩
  · cases h

theorem of_settles {ev : Event K V} {id : ℤ} {status : TxnStatus}
    (h : ev.settles = some (id, status)) :
    ∃ op r, ev = .answered op (.updateTxnStatus id status) r := by
  unfold settles at h
  split at h
  · split at h
    · cases h
    · obtain ⟨rfl, rfl⟩ := Prod.mk.inj (Option.some.inj h)
      exact ⟨_, _, rfl⟩
  · cases h

theorem of_deletes {ev : Event K V} {key : SetKey K} {version : ℤ}
    (h : ev.deletes = some (key, version)) :
    ∃ op r, ev = .answered op (.deleteVersion key version) r := by
  unfold deletes at h
  split at h
  · obtain ⟨rfl, rfl⟩ := Prod.mk.inj (Option.some.inj h)
    exact ⟨_, _, rfl⟩
  · cases h

theorem of_error {op : Op} (c : HandlerCall K) {r : Reply V op} (h : r.isError = true) :
    (Event.answered op c r).rereads = none ∧ (Event.answered op c r).uploads = none ∧
      (Event.answered op c r).fixes = none ∧ (Event.answered op c r).settles = none ∧
      (Event.answered op c r).pushes = none := by
  cases c <;> simp [rereads, uploads, fixes, settles, pushes, h]

end Event

def Client.Told (c : Client K V S) {β : Type} (f : Event K V → Option β) (y : β) : Prop :=
  ∃ ev ∈ c.history, f ev = some y

/-- The store was told that the transaction is committed, at the timestamp that it had fixed. -/
def Client.CommittedAt (c : Client K V S) (ts : ℤ) : Prop :=
  ∃ id, c.Told Event.settles (id, .committed) ∧ c.Told Event.fixes (id, ts)

/-- Why a transaction that uploaded the version after `version` commits after a reader at `ts`
whose re-read returned `v`: it learned of the reader, or the reader learned of it, or it had
committed or deleted its version before. -/
def Client.Follows (c : Client K V S) (key : SetKey K) (version ts : ℤ) (v : VersionEntry) : Prop :=
  (∃ m, c.Told Event.told (key, version + 1, m) ∧ ts ≤ m) ∨ c.execution.txnId = v.txId ∨
    c.Commits key (version + 1) v.endTs ∨ c.Told Event.deletes (key, version + 1)

instance {β : Type} [DecidableEq β] (c : Client K V S) (f : Event K V → Option β) (y : β) :
    Decidable (c.Told f y) := by
  unfold Client.Told
  infer_instance

theorem Client.Told.mono {c c' : Client K V S} {β : Type} {f : Event K V → Option β} {y : β}
    (h : c.Told f y) (hf : ∀ op call, f (.issued op call) = none)
    (hsub : ∀ op call r, Event.answered op call r ∈ c.history →
      Event.answered op call r ∈ c'.history) : c'.Told f y := by
  obtain ⟨ev, hev, hy⟩ := h
  cases ev with
  | issued op call =>
    rw [hf] at hy
    cases hy
  | answered op call r => exact ⟨_, hsub op call r hev, hy⟩

theorem Client.Follows.mono {c c' : Client K V S} {key : SetKey K} {version ts : ℤ}
    {v : VersionEntry} (h : c.Follows key version ts v)
    (hid : c'.execution.txnId = c.execution.txnId)
    (hsub : ∀ op call r, Event.answered op call r ∈ c.history →
      Event.answered op call r ∈ c'.history) : c'.Follows key version ts v := by
  rcases h with ⟨m, htold, hle⟩ | heq | hcom | hdel
  · exact Or.inl ⟨m, htold.mono (fun _ _ => rfl) hsub, hle⟩
  · exact Or.inr (Or.inl (hid.trans heq))
  · exact Or.inr (Or.inr (Or.inl (Told.mono hcom (fun _ _ => rfl) hsub)))
  · exact Or.inr (Or.inr (Or.inr (hdel.mono (fun _ _ => rfl) hsub)))

theorem Shaped.endTs_eq {dirty : Option VersionEntry} {committed : List VersionEntry}
    (h : Shaped dirty committed) {u x : VersionEntry} (hu : u ∈ dirty.toList ++ committed)
    (hx : x ∈ dirty.toList ++ committed) (hc : x.Committed) (hn : x.version = u.version + 1) :
    u.endTs = x.beginTs := by
  have hx := h.mem_of_committed hx hc
  have hxl := h.lineage.number_lt hx
  have hu : u ∈ committed := by
    rcases List.mem_append.mp hu with hu | hu
    · have hd := (h.dirty u (Option.mem_toList.mp hu)).2
      omega
    · exact hu
  obtain ⟨i, hi⟩ := List.mem_iff_getElem?.mp hx
  obtain ⟨j, hj⟩ := List.mem_iff_getElem?.mp hu
  have h1 := h.lineage.number_getElem? hi
  have h2 := h.lineage.number_getElem? hj
  obtain rfl : j = i + 1 := by omega
  exact h.lineage.stops hi hj

theorem Shaped.owner_eq {dirty : Option VersionEntry} {committed : List VersionEntry}
    (h : Shaped dirty committed) {d : VersionEntry} (hd : d ∈ dirty.toList ++ committed)
    (hc : ¬ d.Committed) {version : ℤ} (hn : d.version = version + 1) :
    owner (dirty.toList ++ committed) version = d.txId := by
  rw [owner]
  cases hfind : (dirty.toList ++ committed).find? fun d =>
      decide (¬ d.Committed ∧ d.version = version + 1) with
  | none =>
    have := List.find?_eq_none.mp hfind d hd
    simp [hc, hn] at this
  | some d' =>
    have hd' : ¬ d'.Committed ∧ d'.version = version + 1 := by
      have := List.find?_some hfind
      simpa only [decide_eq_true_eq] using this
    rw [h.eq_of_version (List.mem_of_find?_eq_some hfind) hd (hd'.2.trans hn.symm)]
    rfl

namespace TimestampStore

open SharedStore

/-- What re-reads have left behind for the writers of later versions. -/
structure Protects (s : TimestampStore ι K V S) : Prop where
  marked : ∀ j key version ts v,
    (s.shared.client j).Told Event.rereads (key, version, ts, v) →
    ts ≤ s.timestamps.maxCommitTs key version
  followed : ∀ j key version ts v,
    (s.shared.client j).Told Event.rereads (key, version, ts, v) →
    ∀ j' op, (s.shared.client j').Uploads op key (version + 1) →
      (s.shared.client j').Follows key version ts v

def Ledger (s : TimestampStore ι K V S) : Prop :=
  Recorded s.timestamps.entry (fun j id ts => (s.shared.client j).Told Event.fixes (id, ts))
    (fun id => ∃ j, (s.shared.client j).Told Event.settles (id, .aborted))
    fun id b t => ∃ j, (s.shared.client j).Told Event.pushes (id, b, t)

structure Guarded [DecidableEq K] [Services S] (s : TimestampStore ι K V S) : Prop where
  coherent : Coherent s.shared
  protects : Protects s
  ledger : Ledger s

def Distinct (s : TimestampStore ι K V S) : Prop :=
  ∀ j j' id ts ts', (s.shared.client j).Told Event.fixes (id, ts) →
    (s.shared.client j').Told Event.fixes (id, ts') → j = j'

variable {s s' : TimestampStore ι K V S}

theorem told_answer [DecidableEq ι] {j j' : ι} {ev : Event K V} {store : VersionStore K} {β : Type}
    {f : Event K V → Option β} {y : β}
    (hs' : s'.shared = s.shared.answer j ev store) :
    (s'.shared.client j').Told f y ↔ (s.shared.client j').Told f y ∨ j' = j ∧ f ev = some y := by
  rw [hs']
  exact exists_answer

theorem Distinct.of_mono (h : Distinct s')
    (hmono : ∀ j y, (s.shared.client j).Told Event.fixes y → (s'.shared.client j).Told Event.fixes y) :
    Distinct s :=
  fun j j' id ts ts' hj hj' => h j j' id ts ts' (hmono j _ hj) (hmono j' _ hj')

variable [DecidableEq K] [Services S]

theorem started_of_uploads (h : Coherent s.shared) {j : ι} {op : Op} {key : SetKey K} {version : ℤ}
    (hup : (s.shared.client j).Uploads op key version) : (s.shared.client j).Started := by
  obtain ⟨ev, hev, hup⟩ := hup
  obtain ⟨v, r, rfl, -⟩ := Event.of_uploads hup
  have hissued := (h.sound j).issued hev
  obtain ⟨⟨i, rfl, -⟩, -⟩ := (h.sound j).alive.uploads hissued
  exact ⟨_, _, hissued, Nat.one_pos⟩

theorem committed_of_rereads (h : Coherent s.shared) {j : ι} {key : SetKey K} {version ts : ℤ}
    {v : VersionEntry} (htold : (s.shared.client j).Told Event.rereads (key, version, ts, v)) :
    ∃ u ∈ s.shared.store key, u.Committed ∧ u.version = version := by
  obtain ⟨ev, hev, hy⟩ := htold
  obtain ⟨op, r, rfl, -⟩ := Event.of_rereads hy
  obtain ⟨t, r', hr', herror, entry, hseen, rfl⟩ :=
    (h.sound j).alive.read_of_rereads ((h.sound j).issued hev)
  obtain ⟨u, hu, hc, hversion, -⟩ :=
    h.fits j _ (List.mem_append_left _ hr') r'.result rfl herror entry hseen
  exact ⟨u, hu, hc, hversion⟩

theorem Guarded.quiet (h : Guarded s) (hco : Coherent s'.shared) (hq : Quiet s.shared s'.shared)
    (ht : s'.timestamps = s.timestamps) : Guarded s' := by
  have htold : ∀ j {β : Type} {f : Event K V → Option β} {y : β},
      (∀ op call, f (.issued op call) = none) →
      ((s'.shared.client j).Told f y ↔ (s.shared.client j).Told f y) :=
    fun j _ _ _ hf => (hq.same j).exists_iff hf
  refine ⟨hco, ⟨fun j key version ts v hre => ?_, fun j key version ts v hre j' op hup => ?_⟩, ?_⟩
  · rw [ht]
    exact h.protects.marked j key version ts v ((htold j fun _ _ => rfl).mp hre)
  · have hup' : (s.shared.client j').Uploads op key (version + 1) :=
      (htold j' fun _ _ => rfl).mp hup
    have hfollows := h.protects.followed j key version ts v ((htold j fun _ _ => rfl).mp hre) j' op hup'
    exact hfollows.mono (hq.txnId j' (started_of_uploads h.coherent hup'))
      fun op call r hr => (hq.same j' op call r).mpr hr
  · rw [Ledger, ht]
    apply h.ledger.congr
    · exact fun j id ts => htold j fun _ _ => rfl
    · exact fun id => exists_congr fun j => htold j fun _ _ => rfl
    · exact fun id b t => exists_congr fun j => htold j fun _ _ => rfl

theorem follows_of_reread (h : Coherent s.shared) {key : SetKey K} {version ts : ℤ}
    {u v : VersionEntry} (hu : u ∈ s.shared.store key) (huv : u.version = version)
    (hend : v.endTs = u.endTs) (howner : v.txId = owner (s.shared.store key) version) {j : ι}
    {op : Op} (hup : (s.shared.client j).Uploads op key (version + 1)) :
    (s.shared.client j).Follows key version ts v := by
  obtain ⟨dirty, committed, hstore, hshape⟩ := h.shaped_of_mem hu
  by_cases hres : (s.shared.client j).Resolves key (version + 1)
  · obtain ⟨ev, hev, hres⟩ := hres
    rcases Event.commits_or_deletes hres with ⟨begin, hcom⟩ | hdel
    · obtain ⟨x, hx, hc, hxv, rfl⟩ := h.authors.kept j key _ begin ⟨ev, hev, hcom⟩
      rw [hstore] at hu hx
      have heq : u.endTs = x.beginTs := hshape.endTs_eq hu hx hc (by rw [hxv, huv])
      exact Or.inr (Or.inr (Or.inl ⟨ev, hev, by rw [hend, heq, hcom]⟩))
    · exact Or.inr (Or.inr (Or.inr ⟨ev, hev, hdel⟩))
  · -- The version is still owed, and its owner is the one that the re-read reports.
    obtain ⟨d, hd, hc, hdv⟩ := h.dues.held j key _ ⟨⟨op, hup⟩, hres⟩
    obtain ⟨j', hj', hid⟩ := h.dues.owed key d hd hc
    obtain rfl := h.dues.sole j j' key _ ⟨⟨op, hup⟩, hres⟩ (hdv ▸ hj')
    rw [hstore] at hd howner
    exact Or.inr (Or.inl (by rw [hid, howner, hshape.owner_eq hd hc hdv]))

variable [DecidableEq ι]

omit [DecidableEq K] [Services S] in
theorem follows_answer {j j' : ι} {ev : Event K V} {store : VersionStore K} {key : SetKey K}
    {version ts : ℤ} {v : VersionEntry} (hs' : s'.shared = s.shared.answer j ev store)
    (h : (s.shared.client j').Follows key version ts v) :
    (s'.shared.client j').Follows key version ts v := by
  rw [hs']
  exact h.mono (txnId_answer _ _ _ _ _)
    fun op call r hr => history_subset_answer s.shared j ev store j' hr

theorem Protects.reread (hco : Coherent s.shared) (h : Protects s) {j : ι} {op : Op}
    {key : SetKey K} {version ts : ℤ} {r : Reply V op}
    (htimes : s.timestamps.Answers s.shared.store (.updateMaxCommitTsAndReread key version ts) r)
    (hs' : s'.shared = s.shared.answer j
      (.answered op (.updateMaxCommitTsAndReread key version ts) r) s.shared.store)
    (ht' : s'.timestamps =
      s.timestamps.setMax key version (max (s.timestamps.maxCommitTs key version) ts)) :
    Protects s' := by
  have hnew : ∀ {j' k n t v}, (s'.shared.client j').Told Event.rereads (k, n, t, v) →
      (s.shared.client j').Told Event.rereads (k, n, t, v) ∨
        k = key ∧ n = version ∧ t = ts ∧ r.version = some v := by
    intro j' k n t v hre
    rcases (told_answer hs').mp hre with hold | ⟨-, hnew⟩
    · exact Or.inl hold
    · obtain ⟨op', r', hev, hv⟩ := Event.of_rereads hnew
      cases hev
      exact Or.inr ⟨rfl, rfl, rfl, hv⟩
  have hup : ∀ {j' op' k n}, (s'.shared.client j').Uploads op' k n →
      (s.shared.client j').Uploads op' k n := by
    intro j' op' k n hup
    exact ((told_answer hs').mp hup).resolve_right fun hnew => by cases hnew.2
  constructor
  · intro j' k n t v hre
    rw [ht']
    by_cases heq : k = key ∧ n = version
    · obtain ⟨rfl, rfl⟩ := heq
      rw [Timestamps.maxCommitTs_setMax]
      rcases hnew hre with hold | ⟨-, -, rfl, -⟩
      · exact (h.marked j' k n t v hold).trans (le_max_left _ _)
      · exact le_max_right _ _
    · rw [Timestamps.maxCommitTs_setMax_of_ne _ fun hk hn => heq ⟨hk, hn⟩]
      rcases hnew hre with hold | ⟨hk, hn, -⟩
      · exact h.marked j' k n t v hold
      · exact absurd ⟨hk, hn⟩ heq
  · intro j' k n t v hre j'' op' hup'
    apply follows_answer hs'
    rcases hnew hre with hold | ⟨rfl, rfl, rfl, hv⟩
    · exact h.followed j' k n t v hold j'' op' (hup hup')
    · obtain ⟨⟨u, hu, huv, -, hend⟩, howner, -⟩ := htimes v hv
      exact follows_of_reread hco hu huv hend howner (hup hup')

theorem Protects.upload (hco : Coherent s.shared) (h : Protects s) {j : ι} {i : ℕ} {key : SetKey K}
    {w : VersionEntry} {r : Reply V (.uploadVersionEntry i)} (herror : r.isError = false)
    (hfree : ∀ u ∈ s.shared.store key, u.version ≠ w.version)
    (htimes : s.timestamps.Answers s.shared.store (.uploadVersion key w) r)
    {store : VersionStore K} (hs' : s'.shared = s.shared.answer j
      (.answered (.uploadVersionEntry i) (.uploadVersion key w) r) store)
    (ht' : s'.timestamps = s.timestamps.setMax key w.version w.maxCommitTs) : Protects s' := by
  have hold : ∀ {j' k n t v}, (s'.shared.client j').Told Event.rereads (k, n, t, v) →
      (s.shared.client j').Told Event.rereads (k, n, t, v) := by
    intro j' k n t v hre
    exact ((told_answer hs').mp hre).resolve_right fun hnew => by cases hnew.2
  constructor
  · intro j' k n t v hre
    have hne : k = key → n ≠ w.version := by
      rintro rfl rfl
      obtain ⟨u, hu, -, huv⟩ := committed_of_rereads hco (hold hre)
      exact hfree u hu huv
    rw [ht', Timestamps.maxCommitTs_setMax_of_ne _ hne]
    exact h.marked j' k n t v (hold hre)
  · intro j' k n t v hre j'' op' hup
    rcases (told_answer hs').mp hup with hup | ⟨rfl, hnew⟩
    · exact follows_answer hs' (h.followed j' k n t v (hold hre) j'' op' hup)
    · simp only [Event.uploads, herror, Bool.false_eq_true, if_false, Option.some.injEq,
        Prod.mk.injEq] at hnew
      obtain ⟨-, rfl, hversion⟩ := hnew
      refine Or.inl ⟨r.result, (told_answer hs').mpr (Or.inr ⟨rfl, ?_⟩), ?_⟩
      · simp only [Event.told, herror, Bool.false_eq_true, if_false, Reply.latestReader,
          Option.map_some, hversion]
      · have hlatest := htimes r.result rfl
        rw [hlatest, hversion, Int.add_sub_cancel]
        exact h.marked j' key n t v (hold hre)

omit [DecidableEq K] [Services S] in
theorem Protects.other (h : Protects s) {j : ι} {ev : Event K V} {store : VersionStore K}
    (hs' : s'.shared = s.shared.answer j ev store) (hre : ev.rereads = none)
    (hup : ev.uploads = none)
    (hmax : s'.timestamps.maxCommitTs = s.timestamps.maxCommitTs) : Protects s' := by
  have hold : ∀ {j' y}, (s'.shared.client j').Told Event.rereads y →
      (s.shared.client j').Told Event.rereads y := by
    intro j' y htold
    refine ((told_answer hs').mp htold).resolve_right fun hnew => ?_
    rw [hre] at hnew
    cases hnew.2
  constructor
  · intro j' k n t v htold
    rw [hmax]
    exact h.marked j' k n t v (hold htold)
  · intro j' k n t v htold j'' op' hup'
    have hup' : (s.shared.client j'').Uploads op' k (n + 1) := by
      refine ((told_answer hs').mp hup').resolve_right fun hnew => ?_
      rw [hup] at hnew
      cases hnew.2
    exact follows_answer hs' (h.followed j' k n t v (hold htold) j'' op' hup')

omit [DecidableEq K] [Services S] in
theorem told_answer_exists {j : ι} {ev : Event K V} {store : VersionStore K} {β : Type}
    {f : Event K V → Option β} {y : β} (hs' : s'.shared = s.shared.answer j ev store) :
    (∃ j', (s'.shared.client j').Told f y) ↔
      (∃ j', (s.shared.client j').Told f y) ∨ f ev = some y := by
  constructor
  · rintro ⟨j', htold⟩
    exact ((told_answer hs').mp htold).imp (fun hold => ⟨j', hold⟩) And.right
  · rintro (⟨j', hold⟩ | hnew)
    · exact ⟨j', (told_answer hs').mpr (Or.inl hold)⟩
    · exact ⟨j, (told_answer hs').mpr (Or.inr ⟨rfl, hnew⟩)⟩

omit [DecidableEq K] [Services S] in
theorem Ledger.other (h : Ledger s) {j : ι} {ev : Event K V} {store : VersionStore K}
    (hs' : s'.shared = s.shared.answer j ev store)
    (hnone : ev.fixes = none ∧ ev.settles = none ∧ ev.pushes = none)
    (hentry : s'.timestamps.entry = s.timestamps.entry) : Ledger s' := by
  rw [Ledger, hentry]
  refine h.congr (fun j' id ts => ?_) (fun id => ?_) fun id b t => ?_
  · simp only [told_answer hs', hnone.1, reduceCtorEq, and_false, or_false]
  · simp only [told_answer_exists hs', hnone.2.1, reduceCtorEq, or_false]
  · simp only [told_answer_exists hs', hnone.2.2, reduceCtorEq, or_false]

omit [DecidableEq ι] in
theorem not_fixed (h : Coherent s.shared) {j : ι} {c : HandlerCall K}
    (hp : (.setCommitTs, c) ∈ (s.shared.client j).execution.pending)
    (hnew : ∀ ev ∈ (s.shared.client j).performed, ev.op ≠ .setCommitTs) (y : ℤ × ℤ) :
    ¬ (s.shared.client j).Told Event.fixes y := by
  rintro ⟨ev, hev, hy⟩
  obtain ⟨op, commitTs, r, rfl, -⟩ := Event.of_fixes hy
  obtain rfl := ((h.sound j).alive.op_eq ((h.sound j).issued hev)).1 _ _ rfl
  rcases List.mem_append.mp hev with hev | hev
  · exact (h.sound j).alive.not_answered_of_pending (by decide) hp r hev
  · exact hnew _ hev rfl

theorem Ledger.perform (hco : Coherent s.shared) (h : Ledger s) (hdistinct : Distinct s') {j : ι}
    {op : Op} {c : HandlerCall K} {r : Reply V op}
    (hp : (op, c) ∈ (s.shared.client j).execution.pending)
    (hnew : ∀ ev ∈ (s.shared.client j).performed, ev.op ≠ op) (herror : r.isError = false)
    (htimes : s.timestamps.Answers s.shared.store c r) {store : VersionStore K}
    (hs' : s'.shared = s.shared.answer j (.answered op c r) store)
    (ht' : s'.timestamps = s.timestamps.after c) : Ledger s' := by
  have hissued := (hco.sound j).alive.issued_of_pending hp
  cases c with
  | newTxn entry localTime limit =>
    have hentry : s'.timestamps.entry = Function.update s.timestamps.entry entry.txId
        (some entry.opened) := by
      rw [ht']
      rfl
    rw [Ledger, hentry]
    refine (h.newTxn htimes entry).congr (fun j' id ts => ?_) (fun id => ?_) fun id b t => ?_
    · simp only [told_answer hs', Event.fixes, reduceCtorEq, and_false, or_false]
    · simp only [told_answer_exists hs', Event.settles, reduceCtorEq, or_false]
    · simp only [told_answer_exists hs', Event.pushes, reduceCtorEq, or_false]
  | setCommitTimestamp id commitTs =>
    obtain rfl := ((hco.sound j).alive.op_eq hissued).1 id commitTs rfl
    obtain ⟨t, ht, hresult⟩ := htimes
    have hresult : r.result = max commitTs t.commitLowerBound := hresult r.result rfl
    have hentry : s'.timestamps.entry = Function.update s.timestamps.entry id
        (some (t.fixed commitTs)) := by
      rw [ht', Timestamps.after, Option.mem_def.mp ht]
      rfl
    have hfixes : (Event.answered .setCommitTs (.setCommitTimestamp id commitTs) r :
        Event K V).fixes = some (id, r.result) := by
      simp only [Event.fixes, herror, Bool.false_eq_true, if_false, Reply.timestamp,
        Option.map_some]
    have hfirst : ∀ j' ts, ¬ (s.shared.client j').Told Event.fixes (id, ts) := by
      intro j' ts hj'
      obtain rfl := hdistinct j j' id r.result ts
        ((told_answer hs').mpr (Or.inr ⟨rfl, hfixes⟩)) ((told_answer hs').mpr (Or.inl hj'))
      exact not_fixed hco hp hnew _ hj'
    rw [Ledger, hentry]
    refine (h.fix (j := j) ht hfirst fun j' id' ts => Iff.rfl).congr (fun j' id' ts => ?_)
      (fun id' => ?_) fun id' b t => ?_
    · simp only [told_answer hs', hfixes, Option.some.injEq, Prod.mk.injEq, hresult]
    · simp only [told_answer_exists hs', Event.settles, reduceCtorEq, or_false]
    · simp only [told_answer_exists hs', Event.pushes, reduceCtorEq, or_false]
  | updateCommitLowerBound id lowerBound =>
    obtain ⟨i, rfl⟩ := ((hco.sound j).alive.op_eq hissued).2 id lowerBound rfl
    obtain ⟨t, ht, hresult⟩ := htimes
    have hresult : r.result = t.raised lowerBound := hresult r.result rfl
    have hentry : s'.timestamps.entry = Function.update s.timestamps.entry id
        (some (t.raised lowerBound)) := by
      rw [ht', Timestamps.after, Option.mem_def.mp ht]
      rfl
    rw [Ledger, hentry]
    refine (h.push ht fun id' b t' => Iff.rfl).congr (fun j' id' ts => ?_) (fun id' => ?_)
      fun id' b t' => ?_
    · simp only [told_answer hs', Event.fixes, reduceCtorEq, and_false, or_false]
    · simp only [told_answer_exists hs', Event.settles, reduceCtorEq, or_false]
    · simp only [told_answer_exists hs', Event.pushes, herror, Bool.false_eq_true, if_false,
        Reply.txnEntry, Option.map_some, Option.some.injEq, Prod.mk.injEq, hresult]
  | updateTxnStatus id status =>
    obtain ⟨t, ht⟩ := Option.ne_none_iff_exists'.mp htimes
    have hentry : s'.timestamps.entry = Function.update s.timestamps.entry id
        (some { t with status := status }) := by
      rw [ht', Timestamps.after, ht]
      rfl
    rw [Ledger, hentry]
    have hstatus : status = .committed ∨ status = .aborted :=
      ((hco.sound j).alive.updateTxnStatus hissued).imp And.right And.right
    refine (h.setStatus ht hstatus fun id' => Iff.rfl).congr (fun j' id' ts => ?_) (fun id' => ?_)
      fun id' b t' => ?_
    · simp only [told_answer hs', Event.fixes, reduceCtorEq, and_false, or_false]
    · simp only [told_answer_exists hs', Event.settles, herror, Bool.false_eq_true, if_false,
        Option.some.injEq, Prod.mk.injEq]
    · simp only [told_answer_exists hs', Event.pushes, reduceCtorEq, or_false]
  | _ =>
    refine h.other hs' ⟨rfl, rfl, rfl⟩ ?_
    rw [ht']
    rfl

theorem Guarded.perform (h : Guarded s) (hco : Coherent s'.shared) (hdistinct : Distinct s')
    {j : ι} {op : Op} {c : HandlerCall K} {r : Reply V op}
    (hp : (op, c) ∈ (s.shared.client j).execution.pending)
    (hnew : ∀ ev ∈ (s.shared.client j).performed, ev.op ≠ op)
    (hpermits : VersionStore.Permits s.shared.store c r)
    (htimes : r.isError = true ∨ s.timestamps.Answers s.shared.store c r)
    (hs' : s'.shared = s.shared.answer j (.answered op c r) (s.shared.store.perform r.isError c))
    (ht' : s'.timestamps = s.timestamps.perform r.isError c) : Guarded s' := by
  cases herror : r.isError with
  | true =>
    obtain ⟨hre, hup, hrest⟩ := Event.of_error c herror
    have hsame : s'.timestamps = s.timestamps := by
      rw [ht', herror]
      rfl
    exact ⟨hco, h.protects.other hs' hre hup (by rw [hsame]),
      h.ledger.other hs' hrest (by rw [hsame])⟩
  | false =>
    rw [herror] at ht' hs'
    have htimes := htimes.resolve_left (by simp [herror])
    refine ⟨hco, ?_, h.ledger.perform h.coherent hdistinct hp hnew herror htimes hs' ht'⟩
    cases c with
    | uploadVersion key w =>
      obtain ⟨⟨i, rfl, -⟩, -⟩ := (h.coherent.sound j).alive.uploads
        ((h.coherent.sound j).alive.issued_of_pending hp)
      exact h.protects.upload h.coherent herror (hpermits.resolve_left (by simp [herror])) htimes
        hs' ht'
    | updateMaxCommitTsAndReread key version ts =>
      exact h.protects.reread h.coherent htimes hs' ht'
    | _ =>
      refine h.protects.other hs' rfl rfl ?_
      rw [ht']
      rfl

theorem Guarded.step (h : Guarded s) (hdistinct : Distinct s') {a : SharedAction ι K V S}
    (hs : s.step a = some s') : Guarded s' := by
  have hco : Coherent s'.shared := h.coherent.step (step_shared hs)
  rcases step_cases h.coherent.sound hs with ⟨hq, ht⟩ | ⟨j, op, c, r, hp, hnew, hpermits, htimes,
    hs', ht'⟩
  · exact h.quiet hco hq ht
  · exact h.perform hco hdistinct hp hnew hpermits htimes hs' ht'

omit [DecidableEq ι] in
theorem Guarded.start {e : ι → TransactionExecution K V S}
    (hv : ∀ j, (e j).operationVector = []) (hp : ∀ j, (e j).pending = []) :
    Guarded (start e) := by
  have hnone : ∀ j {β : Type} {f : Event K V → Option β} {y : β},
      ¬ ((TimestampStore.start e).shared.client j).Told f y := by
    rintro j β f y ⟨ev, hev, -⟩
    exact List.not_mem_nil hev
  refine ⟨Coherent.start hv hp, ⟨fun j _ _ _ _ hre => absurd hre (hnone j),
    fun j _ _ _ _ hre => absurd hre (hnone j)⟩, ?_⟩
  refine ⟨fun j id ts hf => absurd hf (hnone j), fun id t ht => ?_, fun id t ht => ?_,
    fun id b t hp => ?_, fun id b t hp => ?_, fun id b t hp => ?_, fun id b t hp => ?_⟩
  · cases ht
  · cases ht
  all_goals exact absurd hp.choose_spec (hnone hp.choose)

theorem Guarded.of_run {as : List (SharedAction ι K V S)} (h : Guarded s)
    (hr : run TimestampStore.step s as = some s') (hdistinct : Distinct s') : Guarded s' := by
  induction as using List.reverseRecOn generalizing s' with
  | nil =>
    obtain rfl := Option.some.inj hr
    exact h
  | append_singleton as a ih =>
    obtain ⟨t, ht, hs⟩ := run_concat.mp hr
    refine (ih ht ?_).step hdistinct hs
    have hsound := (run_invariant (fun _ _ _ hi hs => Coherent.step hi hs) h.coherent
      (run_shared ht)).sound
    apply hdistinct.of_mono
    intro j y hy
    rcases step_cases hsound hs with ⟨hq, -⟩ | ⟨j', op, c, r, -, -, -, -, hs', -⟩
    · exact ((hq.same j).exists_iff fun _ _ => rfl).mpr hy
    · exact (told_answer hs').mpr (Or.inl hy)

end TimestampStore

section

variable [DecidableEq K] [Services S] {c : Client K V S}

theorem Client.Sound.answered_of_history (h : c.Sound) {op : Op} {call call' : HandlerCall K}
    {r r' : Reply V op} (hop : 0 < op.rank) (hr : Event.answered op call r ∈ c.history)
    (hr' : Event.answered op call' r' ∈ c.execution.log) :
    Event.answered op call r ∈ c.execution.log := by
  refine (List.mem_append.mp hr).resolve_right fun hf => ?_
  exact h.alive.not_answered_of_pending hop (h.inFlight op call r hf) r' hr'

theorem Client.Sound.decided (h : c.Sound) {ts : ℤ} (hc : c.CommittedAt ts) :
    ∃ x gaveUp s, Decided x gaveUp s ts c.execution := by
  obtain ⟨id, ⟨ev, hev, hsettles⟩, ⟨ev', hev', hfixes⟩⟩ := hc
  obtain ⟨op, r, rfl⟩ := Event.of_settles hsettles
  obtain ⟨x, gaveUp, s, ts', hd⟩ := h.alive.decided (h.issued hev)
  obtain ⟨op', commitTs, r', rfl, -, hts⟩ := Event.of_fixes hfixes
  obtain rfl := (h.alive.op_eq (h.issued hev')).1 _ _ rfl
  obtain ⟨commitTs', r₂, hr₂, -, rfl, -⟩ := hd.fixed
  have hlog := h.answered_of_history (by decide) hev' hr₂
  obtain rfl : r'.result = ts := Option.some.inj hts
  rw [(hd.pipe.core.reply_unique (by decide) hlog hr₂).1]
  exact ⟨x, gaveUp, s, hd⟩

end

namespace TimestampStore

open SharedStore

variable {s : TimestampStore ι K V S} [DecidableEq K] [Services S]

theorem distinct_of_ids (h : Coherent s.shared)
    (hid : ∀ j j', (s.shared.client j).execution.txnId = (s.shared.client j').execution.txnId →
      j = j') : Distinct s := by
  have hown : ∀ j id ts, (s.shared.client j).Told Event.fixes (id, ts) →
      id = (s.shared.client j).execution.txnId := by
    rintro j id ts ⟨ev, hev, hy⟩
    obtain ⟨op, commitTs, r, rfl, -⟩ := Event.of_fixes hy
    exact (h.sound j).alive.txnId_eq ((h.sound j).issued hev) (Or.inl ⟨commitTs, rfl⟩)
  intro j j' id ts ts' hj hj'
  exact hid j j' ((hown j id ts hj).symm.trans (hown j' id ts' hj'))

theorem lt_of_told (h : Coherent s.shared) {j : ι} {ts : ℤ} {key : SetKey K} {version m : ℤ}
    (hj : (s.shared.client j).CommittedAt ts)
    (htold : (s.shared.client j).Told Event.told (key, version, m)) : m < ts := by
  obtain ⟨x, gaveUp, stage, hd⟩ := (h.sound j).decided hj
  obtain ⟨ev, hev, hy⟩ := htold
  obtain ⟨op, v, r, rfl, hm⟩ := Event.of_told hy
  have hissued := (h.sound j).issued hev
  obtain ⟨⟨i, rfl, hi, -⟩, -⟩ := (h.sound j).alive.uploads hissued
  obtain ⟨c, r', hr', -⟩ := hd.uploaded i (hd.pipe.core.sets.writeSize ▸ hi)
  have hlog := (h.sound j).answered_of_history (by exact Nat.one_pos) hev hr'
  obtain rfl := Option.some.inj hm
  refine hd.max_lt (fun id ts r hr herror => ?_) hlog
  exact h.fits j _ (List.mem_append_left _ hr) r.result rfl herror

theorem not_abortive (h : Coherent s.shared) {j : ι} {ts : ℤ}
    (hj : (s.shared.client j).CommittedAt ts) {op : Op} {c : HandlerCall K} {r : Reply V op}
    (hr : Event.answered op c r ∈ (s.shared.client j).history) : c.isAbortive = false := by
  obtain ⟨x, gaveUp, stage, hd⟩ := (h.sound j).decided hj
  exact hd.not_abortive ((h.sound j).issued hr)

theorem lt_of_pushes (h : Guarded s)
    (hid : ∀ j j', (s.shared.client j).execution.txnId = (s.shared.client j').execution.txnId →
      j = j') {j : ι} {ts ts' : ℤ} {t : TxnEntry} (hj : (s.shared.client j).CommittedAt ts')
    (hp : ∃ j', (s.shared.client j').Told Event.pushes
      ((s.shared.client j).execution.txnId, ts + 1, t))
    (hno : ¬ TxnEntry.Conflicts ts t) : ts < ts' := by
  obtain ⟨x, gaveUp, stage, hd⟩ := (h.coherent.sound j).decided hj
  obtain ⟨commitTs, r, hr, herror, hresult, hpos⟩ := hd.fixed
  have haborts : ¬ ∃ j', (s.shared.client j').Told Event.settles
      ((s.shared.client j).execution.txnId, .aborted) := by
    rintro ⟨j', ev, hev, hy⟩
    obtain ⟨op, r', rfl⟩ := Event.of_settles hy
    have hown := (h.coherent.sound j').alive.txnId_eq ((h.coherent.sound j').issued hev)
      (Or.inr ⟨_, rfl⟩)
    obtain rfl := hid j j' hown
    exact absurd (not_abortive h.coherent hj hev) (by simp [HandlerCall.isAbortive])
  refine h.ledger.lt_of_pushed hp hno haborts (j := j) ⟨_, List.mem_append_left _ hr, ?_⟩ ?_
  · simp only [Event.fixes, herror, Bool.false_eq_true, if_false, Reply.timestamp, Option.map_some,
      hresult]
  · exact fun hdefault => absurd (hdefault ▸ hpos) (by decide)

/-- A reader whose re-read was accepted commits before the writer of the next version, or at the
same timestamp if the re-read found the version to end there. -/
theorem Guarded.le_of_reread (h : Guarded s)
    (hid : ∀ j j', (s.shared.client j).execution.txnId = (s.shared.client j').execution.txnId →
      j = j') {j j' : ι} {ts ts' : ℤ}
    (hne : (s.shared.client j').execution.txnId ≠ VersionEntry.kEmptyTxId)
    (hj : (s.shared.client j).CommittedAt ts)
    (hj' : (s.shared.client j').CommittedAt ts') {l : ℕ} {key : SetKey K} {version : ℤ}
    {r : Reply V (.updateReadEntryMaxCommitTs l)}
    (hr : Event.answered (.updateReadEntryMaxCommitTs l) (.updateMaxCommitTsAndReread key version ts)
      r ∈ (s.shared.client j).execution.log) (hreread : Reread ts r.isError r.result)
    (hpush : r.result.txId = VersionEntry.kEmptyTxId ∨ ∃ r',
      Event.answered (.pushConflictTxnCommitTsLowerBound l)
        (.updateCommitLowerBound r.result.txId (ts + 1)) r' ∈ (s.shared.client j).execution.log ∧
      r'.isError = false ∧ ¬ TxnEntry.Conflicts ts r'.result) {op : Op}
    (hup : (s.shared.client j').Uploads op key (version + 1)) :
    ts ≤ ts' ∧ (ts = ts' → ∃ v, (s.shared.client j).Told Event.rereads (key, version, ts, v) ∧
      v.endTs = ts) := by
  obtain ⟨x, gaveUp, stage, hd⟩ := (h.coherent.sound j).decided hj
  obtain ⟨x', gaveUp', stage', hd'⟩ := (h.coherent.sound j').decided hj'
  obtain ⟨-, -, -, -, -, hpos⟩ := hd.fixed
  obtain ⟨herror, -, hend⟩ := hreread
  have htold : (s.shared.client j).Told Event.rereads (key, version, ts, r.result) := by
    refine ⟨_, List.mem_append_left _ hr, ?_⟩
    simp only [Event.rereads, Reply.version, Option.bind_some, herror, hpos, hend, and_self,
      if_true]
  have hlt : ts < ts' → ts ≤ ts' ∧ (ts = ts' → ∃ v,
      (s.shared.client j).Told Event.rereads (key, version, ts, v) ∧ v.endTs = ts) :=
    fun hlt => ⟨hlt.le, fun heq => absurd heq hlt.ne⟩
  rcases h.protects.followed j key _ ts _ htold j' op hup with ⟨m, hm, hle⟩ | heq | hcom | hdel
  · exact hlt (hle.trans_lt (lt_of_told h.coherent hj' hm))
  · -- The reader saw the version of `j'` before it was committed.
    rcases hpush with hnone | ⟨r', hr', herror', hno⟩
    · exact absurd (heq.trans hnone) hne
    · refine hlt (lt_of_pushes h hid hj' ⟨j, _, List.mem_append_left _ hr', ?_⟩ hno)
      simp only [Event.pushes, herror', Bool.false_eq_true, if_false, Reply.txnEntry,
        Option.map_some, heq]
  · obtain ⟨ev, hev, hcom⟩ := hcom
    obtain ⟨op', expect, endTs, txId, record, r', rfl⟩ := Event.of_commits hcom
    have hbegin := hd'.begin_eq ((h.coherent.sound j').issued hev)
    exact ⟨hbegin ▸ hend, fun htie => ⟨_, htold, hbegin.trans htie.symm⟩⟩
  · obtain ⟨ev, hev, hdel⟩ := hdel
    obtain ⟨op', r', rfl⟩ := Event.of_deletes hdel
    exact absurd (not_abortive h.coherent hj' hev) (by simp [HandlerCall.isAbortive])

theorem Guarded.protected (h : Guarded s)
    (hid : ∀ j j', (s.shared.client j).execution.txnId = (s.shared.client j').execution.txnId →
      j = j') {j j' : ι} {ts ts' : ℤ}
    (hne : (s.shared.client j').execution.txnId ≠ VersionEntry.kEmptyTxId)
    (hj : (s.shared.client j).CommittedAt ts)
    (hj' : (s.shared.client j').CommittedAt ts') {i : ℕ} {key : SetKey K}
    (hi : i < (s.shared.client j).execution.keyReadSet.popIndex)
    (hkey : (s.shared.client j).execution.keyReadSet.key i = some key)
    (hw : ∀ l < (s.shared.client j).execution.keyWriteSet.popIndex,
      (s.shared.client j).execution.keyWriteSet.key l ≠ some key) {op : Op}
    (hup : (s.shared.client j').Uploads op key
      (((s.shared.client j).execution.keyReadSet.entry i).version + 1)) :
    ts ≤ ts' ∧ (ts = ts' → ∃ v, (s.shared.client j).Told Event.rereads
      (key, ((s.shared.client j).execution.keyReadSet.entry i).version, ts, v) ∧ v.endTs = ts) := by
  obtain ⟨x, gaveUp, stage, hd⟩ := (h.coherent.sound j).decided hj
  obtain ⟨l, r, hr, hreread, hpush⟩ := hd.validated hi hkey hw
  exact h.le_of_reread hid hne hj hj' hr hreread hpush hup

variable [DecidableEq ι]

theorem Guarded.of_start {e : ι → TransactionExecution K V S}
    (hv : ∀ j, (e j).operationVector = []) (hp : ∀ j, (e j).pending = [])
    {as : List (SharedAction ι K V S)} (hr : run TimestampStore.step (TimestampStore.start e) as = some s)
    (hid : ∀ j j', (s.shared.client j).execution.txnId = (s.shared.client j').execution.txnId →
      j = j') : Guarded s := by
  have hco : Coherent s.shared :=
    run_invariant (fun _ _ _ hi hs => Coherent.step hi hs) (.start hv hp) (run_shared hr)
  exact (Guarded.start hv hp).of_run hr (distinct_of_ids hco hid)

/-- In every run of any number of transactions, a transaction that has read a version and not
written its key commits before the one that replaces the version, or at the same timestamp if its
re-read found the version to end there. -/
theorem readers_protected {e : ι → TransactionExecution K V S}
    (hv : ∀ j, (e j).operationVector = []) (hp : ∀ j, (e j).pending = [])
    {as : List (SharedAction ι K V S)} (hr : run step (start e) as = some s)
    (hid : ∀ j j', (s.shared.client j).execution.txnId = (s.shared.client j').execution.txnId →
      j = j') {j j' : ι} {ts ts' : ℤ}
    (hne : (s.shared.client j').execution.txnId ≠ VersionEntry.kEmptyTxId)
    (hj : (s.shared.client j).CommittedAt ts)
    (hj' : (s.shared.client j').CommittedAt ts') {i : ℕ} {key : SetKey K}
    (hi : i < (s.shared.client j).execution.keyReadSet.popIndex)
    (hkey : (s.shared.client j).execution.keyReadSet.key i = some key)
    (hw : ∀ l < (s.shared.client j).execution.keyWriteSet.popIndex,
      (s.shared.client j).execution.keyWriteSet.key l ≠ some key) {op : Op}
    (hup : (s.shared.client j').Uploads op key
      (((s.shared.client j).execution.keyReadSet.entry i).version + 1)) :
    ts ≤ ts' ∧ (ts = ts' → ∃ v, (s.shared.client j).Told Event.rereads
      (key, ((s.shared.client j).execution.keyReadSet.entry i).version, ts, v) ∧
        v.endTs = ts) := by
  exact (Guarded.of_start hv hp hr hid).protected hid hne hj hj' hi hkey hw hup

def UntiedReread (s : TimestampStore ι K V S) : SharedAction ι K V S → Prop
  | .perform j op reply =>
    ∀ p ∈ (s.shared.client j).execution.pending.find? fun p => p.1 = op,
      (Event.answered op p.2 reply).Untied
  | _ => True

instance (s : TimestampStore ι K V S) (a : SharedAction ι K V S) : Decidable (UntiedReread s a) := by
  unfold UntiedReread
  cases a <;> infer_instance

theorem untied_of_run {e : ι → TransactionExecution K V S}
    (hv : ∀ j, (e j).operationVector = []) (hp : ∀ j, (e j).pending = [])
    {as : List (SharedAction ι K V S)} (hok : Along step UntiedReread (start e) as)
    (hr : run step (start e) as = some s) (j : ι) :
    ∀ ev ∈ (s.shared.client j).history, ev.Untied := by
  have hstep : ∀ (s : TimestampStore ι K V S) a s', UntiedReread s a →
      (Coherent s.shared ∧ ∀ j, ∀ ev ∈ (s.shared.client j).history, ev.Untied) →
      step s a = some s' →
      Coherent s'.shared ∧ ∀ j, ∀ ev ∈ (s'.shared.client j).history, ev.Untied := by
    rintro s a s' hok ⟨hco, h⟩ hs
    refine ⟨hco.step (step_shared hs), fun j ev hev => ?_⟩
    obtain ⟨-, ⟨-, hq⟩ | ⟨j', op, c, r, rfl, hp, -, -, hs'⟩⟩ :=
      SharedStore.step_cases hco.sound (step_shared hs)
    · cases ev with
      | issued op c => nofun
      | answered op c r => exact h j _ ((hq.same j op c r).mp hev)
    · rw [hs'] at hev
      revert hev
      apply client_setClient (P := fun _ c => ev ∈ c.history → ev.Untied)
      · rw [Client.history_answer]
        intro hev
        rcases List.mem_append.mp hev with hold | hnew
        · exact h j' ev hold
        · rw [List.mem_singleton.mp hnew]
          exact hok _ hp
      · exact fun j => h j ev
  have hstart : ∀ j, ∀ ev ∈ ((start e).shared.client j).history, ev.Untied :=
    fun j ev hev => absurd hev List.not_mem_nil
  exact (run_invariant_along hstep hok ⟨.start hv hp, hstart⟩ hr).2 j

/-- While no re-read finds a version that ends at the timestamp of the reader, a transaction that
has read a version and not written its key commits before the one that replaces the version. -/
theorem readers_before_writers {e : ι → TransactionExecution K V S}
    (hv : ∀ j, (e j).operationVector = []) (hp : ∀ j, (e j).pending = [])
    {as : List (SharedAction ι K V S)} (hok : Along step UntiedReread (start e) as)
    (hr : run step (start e) as = some s)
    (hid : ∀ j j', (s.shared.client j).execution.txnId = (s.shared.client j').execution.txnId →
      j = j') {j j' : ι} {ts ts' : ℤ}
    (hne : (s.shared.client j').execution.txnId ≠ VersionEntry.kEmptyTxId)
    (hj : (s.shared.client j).CommittedAt ts) (hj' : (s.shared.client j').CommittedAt ts') {i : ℕ}
    {key : SetKey K} (hi : i < (s.shared.client j).execution.keyReadSet.popIndex)
    (hkey : (s.shared.client j).execution.keyReadSet.key i = some key)
    (hw : ∀ l < (s.shared.client j).execution.keyWriteSet.popIndex,
      (s.shared.client j).execution.keyWriteSet.key l ≠ some key) {op : Op}
    (hup : (s.shared.client j').Uploads op key
      (((s.shared.client j).execution.keyReadSet.entry i).version + 1)) : ts < ts' := by
  obtain ⟨hle, htie⟩ := (Guarded.of_start hv hp hr hid).protected hid hne hj hj' hi hkey hw hup
  refine lt_of_le_of_ne hle fun heq => ?_
  obtain ⟨v, ⟨ev, hev, hre⟩, hend⟩ := htie heq
  exact untied_of_run hv hp hok hr j ev hev _ hre hend

section

def sampleRead : List (SharedAction (Fin 2) ℕ ℕ LocalServices) :=
  sampleActs 0 [.dispatch .begin] ++ sampleAnswer 0 .initTxn ⟨false, (), []⟩ ++
    sampleActs 0 [.visit 0, .tidy, .dispatch (.read ⟨"t", 1⟩ none)] ++
    sampleAnswer 0 .readOutside ⟨false, (.pseudo, .blank none), []⟩ ++
    sampleActs 0 [.visit 0, .tidy]

def sampleReread (v : VersionEntry) : List (SharedAction (Fin 2) ℕ ℕ LocalServices) :=
  sampleActs 0 [.dispatch .commit, .visit 0] ++ sampleAnswer 0 .setCommitTs ⟨false, (6 : ℤ), []⟩ ++
    sampleActs 0 [.visit 0] ++ sampleAnswer 0 (.updateReadEntryMaxCommitTs 0) ⟨false, v, []⟩ ++
    sampleActs 0 [.visit 1]

def sampleCommitted : List (SharedAction (Fin 2) ℕ ℕ LocalServices) :=
  sampleActs 0 [.visit 0, .visit 0] ++ sampleAnswer 0 .updateTxnStatusToCommit ⟨false, (), []⟩

def samplePushed : List (SharedAction (Fin 2) ℕ ℕ LocalServices) :=
  sampleRead ++ sampleUpsert 1 (.pseudo, .blank none) ++
    sampleReread { VersionEntry.pseudo with maxCommitTs := 6, txId := 11 } ++
    sampleAnswer 0 (.pushConflictTxnCommitTsLowerBound 0) ⟨false, ⟨11, .ongoing, -1, 7⟩, []⟩ ++
    sampleActs 0 [.visit 1] ++ sampleCommitted ++ sampleCommit 1 7

def sampleTied : List (SharedAction (Fin 2) ℕ ℕ LocalServices) :=
  sampleRead ++ sampleUpsert 1 (.pseudo, .blank none) ++ sampleCommit 1 6 ++
    sampleReread { VersionEntry.pseudo with maxCommitTs := 6, endTs := 6 } ++ sampleCommitted

def samplePair : TimestampStore (Fin 2) ℕ ℕ LocalServices := start fun j => sampleExecutions j

def SampleOutcome (ts : ℤ) (s : TimestampStore (Fin 2) ℕ ℕ LocalServices) : Prop :=
  (∀ j j', (s.shared.client j).execution.txnId = (s.shared.client j').execution.txnId → j = j') ∧
  (s.shared.client 1).execution.txnId ≠ VersionEntry.kEmptyTxId ∧
  ((s.shared.client 0).Told Event.settles (1, .committed) ∧
    (s.shared.client 0).Told Event.fixes (1, 6)) ∧
  ((s.shared.client 1).Told Event.settles (11, .committed) ∧
    (s.shared.client 1).Told Event.fixes (11, ts)) ∧
  0 < (s.shared.client 0).execution.keyReadSet.popIndex ∧
  (s.shared.client 0).execution.keyReadSet.key 0 = some ⟨"t", 1⟩ ∧
  (∀ l < (s.shared.client 0).execution.keyWriteSet.popIndex,
    (s.shared.client 0).execution.keyWriteSet.key l ≠ some ⟨"t", 1⟩) ∧
  (s.shared.client 1).Told Event.uploads (.uploadVersionEntry 0, ⟨"t", 1⟩,
    ((s.shared.client 0).execution.keyReadSet.entry 0).version + 1)

instance (ts : ℤ) (s : TimestampStore (Fin 2) ℕ ℕ LocalServices) :
    Decidable (SampleOutcome ts s) := by
  unfold SampleOutcome
  infer_instance

theorem readers_before_writers_sample :
    ∃ s, run step samplePair samplePushed = some s ∧ SampleOutcome 7 s ∧ (6 : ℤ) < 7 := by
  have hrun : ∃ s ∈ run step samplePair samplePushed, SampleOutcome 7 s := by decide +kernel
  obtain ⟨s, hs, hout⟩ := hrun
  have hok : Along step UntiedReread samplePair samplePushed := by decide +kernel
  refine ⟨s, hs, hout, ?_⟩
  obtain ⟨hid, hne, hj, hj', hi, hkey, hw, hup⟩ := hout
  exact readers_before_writers (fun _ => rfl) (fun _ => rfl) hok hs hid hne ⟨1, hj⟩ ⟨11, hj'⟩ hi hkey
    hw hup

theorem readers_protected_sample :
    ∃ s, run step samplePair sampleTied = some s ∧ SampleOutcome 6 s ∧ (6 : ℤ) ≤ 6 ∧
      ((6 : ℤ) = 6 → ∃ v, (s.shared.client 0).Told Event.rereads
        (⟨"t", 1⟩, ((s.shared.client 0).execution.keyReadSet.entry 0).version, 6, v) ∧
          v.endTs = 6) := by
  have hrun : ∃ s ∈ run step samplePair sampleTied, SampleOutcome 6 s := by decide +kernel
  obtain ⟨s, hs, hout⟩ := hrun
  refine ⟨s, hs, hout, ?_⟩
  obtain ⟨hid, hne, hj, hj', hi, hkey, hw, hup⟩ := hout
  exact readers_protected (fun _ => rfl) (fun _ => rfl) hs hid hne ⟨1, hj⟩ ⟨11, hj'⟩ hi hkey hw hup

/-- Both transactions commit at 6, although the writer has replaced the version that was read. -/
theorem readers_before_writers_tied :
    ∃ s, run step samplePair sampleTied = some s ∧ SampleOutcome 6 s ∧
      (s.shared.client 0).CommittedAt 6 ∧ (s.shared.client 1).CommittedAt 6 ∧ ¬ (6 : ℤ) < 6 := by
  have hrun : ∃ s ∈ run step samplePair sampleTied, SampleOutcome 6 s := by decide +kernel
  obtain ⟨s, hs, hout⟩ := hrun
  exact ⟨s, hs, hout, ⟨1, hout.2.2.1⟩, ⟨11, hout.2.2.2.1⟩, by decide⟩

end

end TimestampStore

end Fugue
