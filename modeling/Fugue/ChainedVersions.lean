import Fugue.SharedStore

namespace Fugue

open TransactionExecution VersionStore

variable {ι K V S : Type}

def VersionStore.Keeps (store store' : VersionStore K) : Prop :=
  ∀ key, ∀ v ∈ store key, v.Committed →
    ∃ w ∈ store' key, w.Committed ∧ w.version = v.version ∧ w.beginTs = v.beginTs

theorem VersionStore.Keeps.of_subset {store store' : VersionStore K}
    (h : ∀ key, ∀ v ∈ store key, v.Committed → v ∈ store' key) : store.Keeps store' :=
  fun key v hv hc => ⟨v, h key v hv hc, hc, rfl, rfl⟩

/-- What the answers to reads and to proposed timestamps tell of the store. -/
def Event.Fits (store : VersionStore K) : Event K V → Prop
  | .answered _ (.getVersionList key _) r => ∀ res ∈ r.versions, r.isError = false →
    ∀ entry, Seen res entry →
      ∃ v ∈ store key, v.Committed ∧ v.version = entry.version ∧ v.beginTs = entry.beginTs
  | .answered _ (.setCommitTimestamp _ commitTs) r => ∀ ts ∈ r.timestamp, r.isError = false →
    commitTs ≤ ts
  | _ => True

theorem Event.Fits.mono {store store' : VersionStore K} {ev : Event K V} (h : ev.Fits store)
    (hk : store.Keeps store') : ev.Fits store' := by
  cases ev with
  | issued op c => trivial
  | answered op c r =>
    cases c with
    | getVersionList key time =>
      intro res hres herror entry hseen
      obtain ⟨v, hv, hc, hversion, hbegin⟩ := h res hres herror entry hseen
      obtain ⟨w, hw, hwc, hwv, hwb⟩ := hk key v hv hc
      exact ⟨w, hw, hwc, hwv.trans hversion, hwb.trans hbegin⟩
    | setCommitTimestamp id ts => exact h
    | _ => trivial

theorem Event.of_uploads {ev : Event K V} {op : Op} {key : SetKey K} {version : ℤ}
    (h : ev.uploads = some (op, key, version)) :
    ∃ v r, ev = .answered op (.uploadVersion key v) r ∧ r.isError = false ∧
      v.version = version := by
  unfold Event.uploads at h
  split at h
  · next op' key' v r =>
    split at h
    · cases h
    · next herror =>
      obtain ⟨rfl, hrest⟩ := Prod.mk.inj (Option.some.inj h)
      obtain ⟨rfl, rfl⟩ := Prod.mk.inj hrest
      exact ⟨v, r, rfl, by simpa using herror, rfl⟩
  · cases h

theorem Event.of_commits {ev : Event K V} {key : SetKey K} {version beginTs : ℤ}
    (h : ev.commits = some (key, version, beginTs)) :
    ∃ op expect endTs txId record r,
      ev = .answered op (.commitVersion key version expect beginTs endTs txId record) r := by
  unfold Event.commits at h
  split at h
  · obtain ⟨rfl, hrest⟩ := Prod.mk.inj (Option.some.inj h)
    obtain ⟨rfl, rfl⟩ := Prod.mk.inj hrest
    exact ⟨_, _, _, _, _, _, rfl⟩
  · cases h

namespace SharedStore

/-- The versions that are not committed are those that the transactions owe. -/
structure Dues (s : SharedStore ι K V S) : Prop where
  owed : ∀ key, ∀ d ∈ s.store key, ¬ d.Committed →
    ∃ j, (s.client j).Owes key d.version ∧ (s.client j).execution.txnId = d.txId
  held : ∀ j key version, (s.client j).Owes key version →
    ∃ d ∈ s.store key, ¬ d.Committed ∧ d.version = version
  sole : ∀ j j' key version, (s.client j).Owes key version → (s.client j').Owes key version → j = j'
  once : ∀ j op op' key version, (s.client j).Uploads op key version →
    (s.client j).Uploads op' key version → op = op'

/-- The versions that are committed, apart from the pseudo versions, have one author each. -/
structure Authors (s : SharedStore ι K V S) : Prop where
  written : ∀ key, ∀ v ∈ s.store key, v.Committed → 0 < v.version →
    ∃ j, (s.client j).Commits key v.version v.beginTs
  kept : ∀ j key version ts, (s.client j).Commits key version ts →
    ∃ v ∈ s.store key, v.Committed ∧ v.version = version ∧ v.beginTs = ts
  single : ∀ j j' key version ts ts', (s.client j).Commits key version ts →
    (s.client j').Commits key version ts' → j = j'

structure Coherent [DecidableEq K] [Services S] (s : SharedStore ι K V S) : Prop where
  sound : ∀ j, (s.client j).Sound
  shaped : ∀ key, s.store key = [] ∨ ∃ dirty committed,
    s.store key = dirty.toList ++ committed ∧ Shaped dirty committed
  fits : ∀ j, ∀ ev ∈ (s.client j).history, ev.Fits s.store
  dues : Dues s
  authors : Authors s

variable {s s' : SharedStore ι K V S}

theorem Dues.quiet (h : Dues s)
    (hdirty : ∀ key (v : VersionEntry), ¬ v.Committed → (v ∈ s'.store key ↔ v ∈ s.store key))
    (hup : ∀ j op key version,
      (s'.client j).Uploads op key version ↔ (s.client j).Uploads op key version)
    (hres : ∀ j key version,
      (s'.client j).Resolves key version ↔ (s.client j).Resolves key version)
    (hid : ∀ j key version, (s.client j).Owes key version →
      (s'.client j).execution.txnId = (s.client j).execution.txnId) : Dues s' := by
  have howes : ∀ j key version,
      (s'.client j).Owes key version ↔ (s.client j).Owes key version := by
    intro j key version
    simp only [Client.Owes, hup, hres]
  constructor
  · intro key d hd hc
    obtain ⟨j, hj, htx⟩ := h.owed key d ((hdirty key d hc).mp hd) hc
    exact ⟨j, (howes j key _).mpr hj, (hid j key _ hj).trans htx⟩
  · intro j key version hj
    obtain ⟨d, hd, hc, hversion⟩ := h.held j key version ((howes j key version).mp hj)
    exact ⟨d, (hdirty key d hc).mpr hd, hc, hversion⟩
  · intro j j' key version hj hj'
    exact h.sole j j' key version ((howes j key version).mp hj) ((howes j' key version).mp hj')
  · intro j op op' key version hop hop'
    exact h.once j op op' key version ((hup j op key version).mp hop) ((hup j op' key version).mp hop')

theorem Dues.upload (h : Dues s) {j : ι} (op : Op) {key : SetKey K} {v : VersionEntry}
    (hdirty : ¬ v.Committed) (hid : v.txId = (s.client j).execution.txnId)
    (hall : ∀ w ∈ s.store key, w.Committed) (hunresolved : ¬ (s.client j).Resolves key v.version)
    (hself : s'.store key = v :: s.store key) (hother : ∀ k, k ≠ key → s'.store k = s.store k)
    (hup : ∀ j' op' k version, (s'.client j').Uploads op' k version ↔
      (s.client j').Uploads op' k version ∨ j' = j ∧ op = op' ∧ key = k ∧ v.version = version)
    (hres : ∀ j' k version, (s'.client j').Resolves k version ↔ (s.client j').Resolves k version)
    (htx : ∀ j', (s'.client j').execution.txnId = (s.client j').execution.txnId) : Dues s' := by
  have hnone : ∀ j' version, ¬ (s.client j').Owes key version := by
    intro j' version hj'
    obtain ⟨d, hd, hc, -⟩ := h.held j' key version hj'
    exact hc (hall d hd)
  have howes : ∀ j' k version, (s'.client j').Owes k version ↔
      (s.client j').Owes k version ∨ j' = j ∧ key = k ∧ v.version = version := by
    intro j' k version
    simp only [Client.Owes, hup, hres]
    constructor
    · rintro ⟨⟨op', hold | ⟨hj, -, hk, hv⟩⟩, hn⟩
      · exact Or.inl ⟨⟨op', hold⟩, hn⟩
      · exact Or.inr ⟨hj, hk, hv⟩
    · rintro (⟨⟨op', hold⟩, hn⟩ | ⟨rfl, rfl, rfl⟩)
      · exact ⟨⟨op', Or.inl hold⟩, hn⟩
      · exact ⟨⟨op, Or.inr ⟨rfl, rfl, rfl, rfl⟩⟩, hunresolved⟩
  constructor
  · intro k d hd hc
    by_cases hk : k = key
    · subst hk
      rw [hself] at hd
      rcases List.mem_cons.mp hd with rfl | hd
      · exact ⟨j, (howes j k _).mpr (Or.inr ⟨rfl, rfl, rfl⟩), (htx j).trans hid.symm⟩
      · exact absurd (hall d hd) hc
    · rw [hother k hk] at hd
      obtain ⟨j', hj', hown⟩ := h.owed k d hd hc
      exact ⟨j', (howes j' k _).mpr (Or.inl hj'), (htx j').trans hown⟩
  · intro j' k version hj'
    rcases (howes j' k version).mp hj' with hold | ⟨-, rfl, rfl⟩
    · obtain ⟨d, hd, hc, hversion⟩ := h.held j' k version hold
      have hk : k ≠ key := by
        rintro rfl
        exact hnone j' version hold
      exact ⟨d, (hother k hk).symm ▸ hd, hc, hversion⟩
    · exact ⟨v, hself.symm ▸ List.mem_cons_self, hdirty, rfl⟩
  · intro j₁ j₂ k version h1 h2
    rcases (howes j₁ k version).mp h1 with hold | ⟨rfl, rfl, rfl⟩
    · rcases (howes j₂ k version).mp h2 with hold' | ⟨rfl, rfl, rfl⟩
      · exact h.sole j₁ j₂ k version hold hold'
      · exact absurd hold (hnone j₁ _)
    · rcases (howes j₂ key _).mp h2 with hold' | ⟨rfl, -, -⟩
      · exact absurd hold' (hnone j₂ _)
      · rfl
  · intro j' op₁ op₂ k version h1 h2
    rcases (hup j' op₁ k version).mp h1 with hold | ⟨rfl, rfl, rfl, rfl⟩
    · rcases (hup j' op₂ k version).mp h2 with hold' | ⟨rfl, rfl, rfl, rfl⟩
      · exact h.once j' op₁ op₂ k version hold hold'
      · exact absurd ⟨⟨op₁, hold⟩, hunresolved⟩ (hnone j' _)
    · rcases (hup j' op₂ key _).mp h2 with hold' | ⟨-, rfl, -, -⟩
      · exact absurd ⟨⟨op₂, hold'⟩, hunresolved⟩ (hnone j' _)
      · rfl

theorem Dues.resolve (h : Dues s) {j : ι} {key : SetKey K} {version : ℤ}
    (hj : (s.client j).Owes key version)
    (honly : ∀ d ∈ s.store key, ¬ d.Committed → d.version = version)
    (hall : ∀ d ∈ s'.store key, d.Committed) (hother : ∀ k, k ≠ key → s'.store k = s.store k)
    (hup : ∀ j' op k v, (s'.client j').Uploads op k v ↔ (s.client j').Uploads op k v)
    (hres : ∀ j' k v, (s'.client j').Resolves k v ↔
      (s.client j').Resolves k v ∨ j' = j ∧ key = k ∧ version = v)
    (hid : ∀ j', (s'.client j').execution.txnId = (s.client j').execution.txnId) : Dues s' := by
  have hold : ∀ j' k v, (s'.client j').Owes k v → (s.client j').Owes k v := by
    intro j' k v ho
    simp only [Client.Owes, hup, hres, not_or] at ho
    exact ⟨ho.1, ho.2.1⟩
  constructor
  · intro k d hd hc
    have hk : k ≠ key := by
      rintro rfl
      exact hc (hall d hd)
    rw [hother k hk] at hd
    obtain ⟨j', ⟨hj', hn⟩, htx⟩ := h.owed k d hd hc
    refine ⟨j', ?_, (hid j').trans htx⟩
    simp only [Client.Owes, hup, hres]
    exact ⟨hj', not_or.mpr ⟨hn, fun heq => hk heq.2.1.symm⟩⟩
  · intro j' k v ho
    obtain ⟨d, hd, hc, hversion⟩ := h.held j' k v (hold j' k v ho)
    by_cases hk : k = key
    · -- The version was owed by `j` alone, which has resolved it now.
      subst hk
      obtain rfl : v = version := hversion.symm.trans (honly d hd hc)
      obtain rfl := h.sole j' j k v (hold j' k v ho) hj
      exact absurd ((hres j' k v).mpr (Or.inr ⟨rfl, rfl, rfl⟩)) ho.2
    · rw [← hother k hk] at hd
      exact ⟨d, hd, hc, hversion⟩
  · intro j₁ j₂ k v h1 h2
    exact h.sole j₁ j₂ k v (hold j₁ k v h1) (hold j₂ k v h2)
  · intro j' op op' k v h1 h2
    exact h.once j' op op' k v ((hup j' op k v).mp h1) ((hup j' op' k v).mp h2)

theorem Authors.quiet (h : Authors s) (hkeep : s.store.Keeps s'.store)
    (hback : ∀ key, ∀ v ∈ s'.store key, v.Committed → 0 < v.version → v ∈ s.store key)
    (hcom : ∀ j key version ts,
      (s'.client j).Commits key version ts ↔ (s.client j).Commits key version ts) : Authors s' := by
  constructor
  · intro key v hv hc hpos
    obtain ⟨j, hj⟩ := h.written key v (hback key v hv hc hpos) hc hpos
    exact ⟨j, (hcom j key _ _).mpr hj⟩
  · intro j key version ts hj
    obtain ⟨v, hv, hc, hversion, hbegin⟩ := h.kept j key version ts ((hcom j key version ts).mp hj)
    obtain ⟨w, hw, hwc, hwv, hwb⟩ := hkeep key v hv hc
    exact ⟨w, hw, hwc, hwv.trans hversion, hwb.trans hbegin⟩
  · intro j j' key version ts ts' hj hj'
    exact h.single j j' key version ts ts' ((hcom j key version ts).mp hj)
      ((hcom j' key version ts').mp hj')

theorem Authors.commit (h : Authors s) {j : ι} {key : SetKey K} {version ts : ℤ}
    (hkeep : s.store.Keeps s'.store) (hfirst : ∀ j' t, ¬ (s.client j').Commits key version t)
    (hnew : ∃ v ∈ s'.store key, v.Committed ∧ v.version = version ∧ v.beginTs = ts)
    (hback : ∀ k, ∀ v ∈ s'.store k, v.Committed → k = key ∧ v.version = version ∧ v.beginTs = ts ∨
      ∃ w ∈ s.store k, w.Committed ∧ w.version = v.version ∧ w.beginTs = v.beginTs)
    (hcom : ∀ j' k v t, (s'.client j').Commits k v t ↔
      (s.client j').Commits k v t ∨ j' = j ∧ key = k ∧ version = v ∧ ts = t) : Authors s' := by
  constructor
  · intro k v hv hc hpos
    rcases hback k v hv hc with ⟨rfl, rfl, rfl⟩ | ⟨w, hw, hwc, hwv, hwb⟩
    · exact ⟨j, (hcom j k _ _).mpr (Or.inr ⟨rfl, rfl, rfl, rfl⟩)⟩
    · obtain ⟨j', hj'⟩ := h.written k w hw hwc (hwv ▸ hpos)
      exact ⟨j', (hcom j' k _ _).mpr (Or.inl (hwv ▸ hwb ▸ hj'))⟩
  · intro j' k v t hj'
    rcases (hcom j' k v t).mp hj' with hold | ⟨-, rfl, rfl, rfl⟩
    · obtain ⟨w, hw, hc, hversion, hbegin⟩ := h.kept j' k v t hold
      obtain ⟨x, hx, hxc, hxv, hxb⟩ := hkeep k w hw hc
      exact ⟨x, hx, hxc, hxv.trans hversion, hxb.trans hbegin⟩
    · exact hnew
  · intro j₁ j₂ k v t t' h1 h2
    rcases (hcom j₁ k v t).mp h1 with hold | ⟨rfl, rfl, rfl, rfl⟩
    · rcases (hcom j₂ k v t').mp h2 with hold' | ⟨rfl, rfl, rfl, rfl⟩
      · exact h.single j₁ j₂ k v t t' hold hold'
      · exact absurd hold (hfirst j₁ t)
    · rcases (hcom j₂ key version t').mp h2 with hold' | ⟨rfl, -⟩
      · exact absurd hold' (hfirst j₂ t')
      · rfl

variable [DecidableEq ι]

theorem exists_answer {j j' : ι} {ev : Event K V} {store : VersionStore K} {β : Type}
    {f : Event K V → Option β} {y : β} :
    (∃ x ∈ ((s.answer j ev store).client j').history, f x = some y) ↔
      (∃ x ∈ (s.client j').history, f x = some y) ∨ j' = j ∧ f ev = some y := by
  by_cases hj : j' = j
  · subst hj
    simp only [answer, setClient, Function.update_self, Client.exists_answer, true_and]
  · simp only [answer, setClient, Function.update_of_ne hj, hj, false_and, or_false]

theorem txnId_answer (s : SharedStore ι K V S) (j j' : ι) (ev : Event K V)
    (store : VersionStore K) :
    ((s.answer j ev store).client j').execution.txnId = (s.client j').execution.txnId := by
  by_cases hj : j' = j
  · subst hj
    simp only [answer, setClient, Function.update_self, Client.answer]
  · simp only [answer, setClient, Function.update_of_ne hj]

variable [DecidableEq K] [Services S]

namespace Coherent

omit [DecidableEq ι] in
theorem quiet (h : Coherent s) (hsound : ∀ j, (s'.client j).Sound) (hq : Quiet s s') :
    Coherent s' := by
  refine ⟨hsound, ?_, fun j ev hev => ?_, ?_, ?_⟩
  · rw [hq.store]
    exact h.shaped
  · rw [hq.store]
    cases ev with
    | issued op call => trivial
    | answered op call r => exact h.fits j _ ((hq.same j op call r).mp hev)
  · refine h.dues.quiet (fun _ _ _ => by rw [hq.store])
      (fun j op key version => (hq.same j).exists_iff fun _ _ => rfl)
      (fun j key version => (hq.same j).exists_iff fun _ _ => rfl) fun j key version ho => ?_
    obtain ⟨⟨op, ev, hev, hup⟩, -⟩ := ho
    obtain ⟨v, r, rfl, -⟩ := Event.of_uploads hup
    have hissued := (h.sound j).issued hev
    obtain ⟨⟨i, rfl, -⟩, -⟩ := (h.sound j).alive.uploads hissued
    exact hq.txnId j ⟨_, _, hissued, Nat.one_pos⟩
  · refine h.authors.quiet (.of_subset fun _ _ hv _ => hq.store ▸ hv)
      (fun _ v hv _ _ => hq.store ▸ hv) fun j key version ts => ?_
    exact (hq.same j).exists_iff fun _ _ => rfl

theorem fits_answer (h : Coherent s) {j : ι} {ev : Event K V} {store : VersionStore K}
    (hkeep : s.store.Keeps store) (hfit : ev.Fits store) (j' : ι) :
    ∀ x ∈ ((s.answer j ev store).client j').history, x.Fits store := by
  refine client_setClient (P := fun _ c => ∀ x ∈ c.history, x.Fits store) (fun x hx => ?_)
    (fun j' x hx => (h.fits j' x hx).mono hkeep) j'
  rw [Client.history_answer] at hx
  rcases List.mem_append.mp hx with hx | hx
  · exact (h.fits j x hx).mono hkeep
  · rw [List.mem_singleton.mp hx]
    exact hfit

theorem answer (h : Coherent s) {j : ι} {ev : Event K V} {store : VersionStore K}
    (hsound : ((s.client j).answer ev).Sound) (hfit : ev.Fits store)
    (hnone : ev.uploads = none ∧ ev.resolves = none ∧ ev.commits = none)
    (hstore : ∀ key, store key = s.store key ∨ s.store key = [] ∧ store key = [.pseudo]) :
    Coherent (s.answer j ev store) := by
  have hmem : ∀ key (v : VersionEntry), v ∈ store key → v ∈ s.store key ∨ v = .pseudo := by
    intro key v hv
    rcases hstore key with hk | ⟨-, hk⟩
    · exact Or.inl (hk ▸ hv)
    · rw [hk] at hv
      exact Or.inr (List.mem_singleton.mp hv)
  have hold : ∀ key (v : VersionEntry), v ∈ s.store key → v ∈ store key := by
    intro key v hv
    rcases hstore key with hk | ⟨hk, -⟩
    · rw [hk]
      exact hv
    · rw [hk] at hv
      cases hv
  have hkeep : s.store.Keeps store := .of_subset fun key v hv _ => hold key v hv
  refine ⟨client_setClient (P := fun _ c => c.Sound) hsound h.sound, fun key => ?_, h.fits_answer hkeep hfit, ?_, ?_⟩
  · rcases hstore key with hk | ⟨-, hk⟩
    · rw [show (s.answer j ev store).store key = s.store key from hk]
      exact h.shaped key
    · exact Or.inr ⟨none, _, hk, .pseudo⟩
  · refine h.dues.quiet (fun key v hc => ⟨fun hv => ?_, hold key v⟩) (fun j' op key version => ?_)
      (fun j' key version => ?_) fun j' key version _ => txnId_answer s j j' ev store
    · refine (hmem key v hv).resolve_right fun heq => ?_
      rw [heq] at hc
      exact hc (by decide)
    · simp only [Client.Uploads, exists_answer, hnone.1, reduceCtorEq, and_false, or_false]
    · simp only [Client.Resolves, exists_answer, hnone.2.1, reduceCtorEq, and_false, or_false]
  · refine h.authors.quiet hkeep (fun key v hv hc hpos => ?_) fun j' key version ts => ?_
    · refine (hmem key v hv).resolve_right fun heq => ?_
      rw [heq] at hpos
      exact absurd hpos (by decide)
    · simp only [Client.Commits, exists_answer, hnone.2.2, reduceCtorEq, and_false, or_false]

omit [DecidableEq ι] in
theorem shaped_of_mem (h : Coherent s) {key : SetKey K} {v : VersionEntry} (hv : v ∈ s.store key) :
    ∃ dirty committed, s.store key = dirty.toList ++ committed ∧ Shaped dirty committed := by
  refine (h.shaped key).resolve_left fun hnil => ?_
  rw [hnil] at hv
  cases hv

omit [DecidableEq ι] in
theorem replaced (h : Coherent s) {j : ι} {op : Op} {c : HandlerCall K}
    (hc : Event.issued op c ∈ (s.client j).execution.log) (hop : 0 < op.rank) {i : ℕ}
    {key : SetKey K} {version : ℤ}
    (hw : (s.client j).execution.keyWriteSet.Writes i key version) :
    ∃ u ∈ s.store key, u.Committed ∧ u.version + 1 = version := by
  obtain ⟨l, -, -, hnext, t, r, hr, herror, hseen⟩ := (h.sound j).alive.read_of_writes hc hop hw
  obtain ⟨u, hu, huc, hversion, -⟩ :=
    h.fits j _ (List.mem_append_left _ hr) r.result rfl herror _ hseen
  exact ⟨u, hu, huc, by rw [hversion, hnext]⟩

omit [DecidableEq ι] in
theorem upload_next (h : Coherent s) {j : ι} {op : Op} {key : SetKey K} {v : VersionEntry}
    (hp : (op, .uploadVersion key v) ∈ (s.client j).execution.pending)
    (hfree : ∀ w ∈ s.store key, w.version ≠ v.version) :
    Shaped none (s.store key) ∧ Shaped (some v) (s.store key) := by
  have hissued := (h.sound j).alive.issued_of_pending hp
  obtain ⟨⟨i, rfl, hw⟩, -, hdirty⟩ := (h.sound j).alive.uploads hissued
  obtain ⟨u, hu, huc, hversion⟩ := h.replaced hissued Nat.one_pos hw
  obtain ⟨dirty, committed, hstore, hshape⟩ := h.shaped_of_mem hu
  rw [hstore] at hfree hu ⊢
  obtain ⟨rfl, hnext⟩ := hshape.next_version hfree (hshape.mem_of_committed hu huc) hversion
  exact ⟨hshape, hshape.upload hdirty hnext⟩

omit [DecidableEq ι] [Services S] in
theorem shaped_update {store : VersionStore K} {key : SetKey K} {l : List VersionEntry}
    (h : ∀ k, store k = [] ∨ ∃ dirty committed, store k = dirty.toList ++ committed ∧
      Shaped dirty committed)
    (hl : ∃ dirty committed, l = dirty.toList ++ committed ∧ Shaped dirty committed)
    (k : SetKey K) :
    Function.update store key l k = [] ∨ ∃ dirty committed,
      Function.update store key l k = dirty.toList ++ committed ∧ Shaped dirty committed := by
  by_cases hk : k = key
  · subst hk
    rw [Function.update_self]
    exact Or.inr hl
  · rw [Function.update_of_ne hk]
    exact h k

theorem upload (h : Coherent s) {j : ι} {op : Op} {key : SetKey K} {v : VersionEntry}
    {r : Reply V op} (hp : (op, .uploadVersion key v) ∈ (s.client j).execution.pending)
    (hsound : ((s.client j).answer (.answered op (.uploadVersion key v) r)).Sound)
    (herror : r.isError = false) (hfree : ∀ w ∈ s.store key, w.version ≠ v.version) :
    Coherent (s.answer j (.answered op (.uploadVersion key v) r)
      (Function.update s.store key (v :: s.store key))) := by
  obtain ⟨⟨i, hi, -⟩, hid, hdirty⟩ :=
    (h.sound j).alive.uploads ((h.sound j).alive.issued_of_pending hp)
  obtain ⟨hshape, hshape'⟩ := h.upload_next hp hfree
  have hall : ∀ w ∈ s.store key, w.Committed := fun w hw => hshape.committed_of_mem hw
  have hunresolved : ¬ (s.client j).Resolves key v.version := by
    rintro ⟨x, hx, hres⟩
    cases x with
    | issued op' c => cases hres
    | answered op' c r' =>
      subst hi
      rw [Event.resolves, (h.sound j).alive.not_resolved_of_pending hp
        ((h.sound j).issued hx)] at hres
      cases hres
  have hother : ∀ k, k ≠ key → Function.update s.store key (v :: s.store key) k = s.store k :=
    fun k hk => Function.update_of_ne hk _ _
  have hiff : ∀ k, ∀ w : VersionEntry, w.Committed →
      (w ∈ Function.update s.store key (v :: s.store key) k ↔ w ∈ s.store k) := by
    intro k w hc
    by_cases hk : k = key
    · subst hk
      have hne : w ≠ v := by
        rintro rfl
        exact hdirty hc
      rw [Function.update_self, List.mem_cons, or_iff_right hne]
    · rw [hother k hk]
  have hkeep : s.store.Keeps (Function.update s.store key (v :: s.store key)) :=
    .of_subset fun k w hw hc => (hiff k w hc).mpr hw
  refine ⟨client_setClient (P := fun _ c => c.Sound) hsound h.sound, shaped_update h.shaped ⟨some v, _, rfl, hshape'⟩,
    h.fits_answer hkeep trivial, ?_, ?_⟩
  · refine h.dues.upload op hdirty hid hall hunresolved (Function.update_self _ _ _) hother
      (fun j' op' k version => ?_) (fun j' k version => ?_) fun j' => txnId_answer s j j' _ _
    · simp only [Client.Uploads, exists_answer, Event.uploads, herror, Bool.false_eq_true, if_false,
        Option.some.injEq, Prod.mk.injEq]
    · simp only [Client.Resolves, exists_answer, Event.resolves, HandlerCall.resolved, reduceCtorEq,
        and_false, or_false]
  · refine h.authors.quiet hkeep (fun k w hw hc _ => (hiff k w hc).mp hw) fun j' k version ts => ?_
    simp only [Client.Commits, exists_answer, Event.commits, reduceCtorEq, and_false, or_false]

omit [DecidableEq ι] in
theorem uploads_of_uploadedAs (h : Coherent s) {j : ι} {i : ℕ} {key : SetKey K} {version : ℤ}
    (hu : UploadedAs (s.client j).execution i key version) :
    (s.client j).Uploads (.uploadVersionEntry i) key version := by
  obtain ⟨hw, c, r, hr, herror⟩ := hu
  obtain ⟨v, rfl, rfl⟩ :=
    (h.sound j).alive.upload_call ((h.sound j).alive.issued_of_answered hr) hw
  refine ⟨_, List.mem_append_left _ hr, ?_⟩
  simp only [Event.uploads, herror, Bool.false_eq_true, if_false]

omit [DecidableEq ι] in
theorem resolving (h : Coherent s) {j : ι} {op : Op} {c : HandlerCall K} {key : SetKey K}
    {version : ℤ} (hp : (op, c) ∈ (s.client j).execution.pending)
    (hnew : ∀ ev ∈ (s.client j).performed, ev.op ≠ op) (hc : c.resolved = some (key, version)) :
    (s.client j).Owes key version ∧ ∃ d committed, s.store key = d :: committed ∧
      Shaped (some d) committed ∧ d.version = version := by
  have halive := (h.sound j).alive
  have hissued := halive.issued_of_pending hp
  obtain ⟨hop, i, hu⟩ := halive.resolves hissued hc
  have howes : (s.client j).Owes key version := by
    refine ⟨⟨_, h.uploads_of_uploadedAs hu⟩, ?_⟩
    rintro ⟨ev, hev, hres⟩
    cases ev with
    | issued op' c' => cases hres
    | answered op' c' r =>
      have hinj : ∀ l l' k v, UploadedAs (s.client j).execution l k v →
          UploadedAs (s.client j).execution l' k v → l = l' := by
        intro l l' k v hl hl'
        exact Op.uploadVersionEntry.inj (h.dues.once j _ _ k v (h.uploads_of_uploadedAs hl)
          (h.uploads_of_uploadedAs hl'))
      obtain rfl : op = op' :=
        halive.resolves_once hinj hissued ((h.sound j).issued hev) hc hres
      rcases List.mem_append.mp hev with hev | hev
      · exact halive.not_answered_of_pending (Nat.zero_lt_of_lt hop) hp r hev
      · exact hnew _ hev rfl
  refine ⟨howes, ?_⟩
  obtain ⟨d, hd, hdirty, hversion⟩ := h.dues.held j key version howes
  obtain ⟨dirty, committed, hstore, hshape⟩ := h.shaped_of_mem hd
  rw [hstore] at hd
  obtain rfl := hshape.dirty_of_mem hd hdirty
  exact ⟨d, committed, hstore, hshape, hversion⟩

theorem dues_resolve (h : Coherent s) {j : ι} {key : SetKey K} {d : VersionEntry}
    {committed l : List VersionEntry} (howes : (s.client j).Owes key d.version)
    (hstore : s.store key = d :: committed) (hshape : Shaped (some d) committed)
    (hl : ∀ v ∈ l, v.Committed) {ev : Event K V} (hup : ev.uploads = none)
    (hres : ev.resolves = some (key, d.version)) :
    Dues (s.answer j ev (Function.update s.store key l)) := by
  refine h.dues.resolve howes (fun w hw hc => ?_) (fun w hw => ?_)
    (fun k hk => Function.update_of_ne hk _ _) (fun j' op k v => ?_) (fun j' k v => ?_)
    fun j' => txnId_answer s j j' ev _
  · rw [hstore] at hw
    rw [Option.some.inj (hshape.dirty_of_mem hw hc)]
  · exact hl w (by simpa only [SharedStore.answer, Function.update_self] using hw)
  · simp only [Client.Uploads, exists_answer, hup, reduceCtorEq, and_false, or_false]
  · simp only [Client.Resolves, exists_answer, hres, Option.some.injEq, Prod.mk.injEq]

theorem delete (h : Coherent s) {j : ι} {op : Op} {key : SetKey K} {version : ℤ} {r : Reply V op}
    (hp : (op, .deleteVersion key version) ∈ (s.client j).execution.pending)
    (hnew : ∀ ev ∈ (s.client j).performed, ev.op ≠ op)
    (hsound : ((s.client j).answer (.answered op (.deleteVersion key version) r)).Sound) :
    Coherent (s.answer j (.answered op (.deleteVersion key version) r)
      (s.store.after (.deleteVersion key version))) := by
  obtain ⟨howes, d, committed, hstore, hshape, rfl⟩ := h.resolving hp hnew rfl
  obtain ⟨hfilter, hshape'⟩ := hshape.delete
  rw [after, hstore, hfilter]
  have hback : ∀ k, ∀ v ∈ Function.update s.store key committed k, v ∈ s.store k := by
    intro k v hv
    by_cases hk : k = key
    · subst hk
      rw [Function.update_self] at hv
      rw [hstore]
      exact List.mem_cons_of_mem _ hv
    · rwa [Function.update_of_ne hk] at hv
  have hkeep : s.store.Keeps (Function.update s.store key committed) := by
    apply VersionStore.Keeps.of_subset
    intro k v hv hc
    by_cases hk : k = key
    · subst hk
      rw [Function.update_self]
      rw [hstore] at hv
      exact hshape.mem_of_committed hv hc
    · rwa [Function.update_of_ne hk]
  refine ⟨client_setClient (P := fun _ c => c.Sound) hsound h.sound, shaped_update h.shaped ⟨none, _, rfl, hshape'⟩,
    h.fits_answer hkeep trivial, ?_, ?_⟩
  · exact h.dues_resolve howes hstore hshape (fun v hv => hshape'.committed_of_mem hv) rfl rfl
  · refine h.authors.quiet hkeep (fun k v hv _ _ => hback k v hv) fun j' k v ts => ?_
    simp only [Client.Commits, exists_answer, Event.commits, reduceCtorEq, and_false, or_false]

omit [DecidableEq ι] in
theorem committing (h : Coherent s) {j : ι} {op : Op} {key : SetKey K}
    {expect ts endTs txId : ℤ} {record : Option Addr} {d : VersionEntry}
    {committed : List VersionEntry} (hp : (op, .commitVersion key d.version expect ts endTs txId record) ∈
      (s.client j).execution.pending) (hstore : s.store key = d :: committed)
    (hshape : Shaped (some d) committed) :
    endTs = VersionEntry.kMaxTimeStamp ∧ ∃ v l, committed = v :: l ∧ v.beginTs < ts := by
  have halive := (h.sound j).alive
  have hst : ∀ id ts r, Event.answered .setCommitTs (.setCommitTimestamp id ts) r ∈
      (s.client j).execution.log → r.isError = false → ts ≤ r.result := by
    intro id ts r hr herror
    exact h.fits j _ (List.mem_append_left _ hr) r.result rfl herror
  obtain ⟨hend, i, t, r, hr, herror, hseen, hnext, hlt⟩ :=
    halive.begin_lt hst (halive.issued_of_pending hp)
  obtain ⟨u, hu, huc, hversion, hbegin⟩ :=
    h.fits j _ (List.mem_append_left _ hr) r.result rfl herror _ hseen
  rw [hstore] at hu
  have hu : u ∈ committed := hshape.mem_of_committed hu huc
  obtain ⟨v, l, rfl⟩ := List.exists_cons_of_ne_nil hshape.lineage.ne_nil
  have hd := (hshape.dirty d rfl).2
  have hv := hshape.lineage.number_eq
  rw [List.length_cons] at hd
  obtain rfl : u = v := hshape.lineage.eq_of_number hu List.mem_cons_self (by omega)
  exact ⟨hend, u, l, rfl, by rw [hbegin]; exact hlt⟩

theorem commit (h : Coherent s) {j : ι} {op : Op} {key : SetKey K}
    {version expect ts endTs txId : ℤ} {record : Option Addr} {r : Reply V op}
    (hp : (op, .commitVersion key version expect ts endTs txId record) ∈
      (s.client j).execution.pending)
    (hnew : ∀ ev ∈ (s.client j).performed, ev.op ≠ op)
    (hsound : ((s.client j).answer
      (.answered op (.commitVersion key version expect ts endTs txId record) r)).Sound) :
    Coherent (s.answer j (.answered op (.commitVersion key version expect ts endTs txId record) r)
      (s.store.after (.commitVersion key version expect ts endTs txId record))) := by
  obtain ⟨howes, d, committed, hstore, hshape, rfl⟩ := h.resolving hp hnew rfl
  obtain ⟨rfl, v, l, rfl, hlt⟩ := h.committing hp hstore hshape
  have hcommits := hshape.commit hlt txId record
  rw [after, hstore]
  generalize (d :: v :: l).map _ = committed at hcommits ⊢
  have hself : ∀ x, x ∈ Function.update s.store key committed key ↔ x ∈ committed := by
    intro x
    rw [Function.update_self]
  have hother : ∀ k, k ≠ key → Function.update s.store key committed k = s.store k :=
    fun k hk => Function.update_of_ne hk _ _
  have hkeep : s.store.Keeps (Function.update s.store key committed) := by
    intro k w hw hc
    by_cases hk : k = key
    · subst hk
      rw [hstore] at hw
      obtain ⟨x, hx, hxv, hxb⟩ := hcommits.keeps w (hshape.mem_of_committed hw hc)
      exact ⟨x, (hself x).mpr hx, hcommits.shaped.committed_of_mem hx, hxv, hxb⟩
    · exact ⟨w, (hother k hk).symm ▸ hw, hc, rfl, rfl⟩
  have hcom : ∀ j' k version t, ((s.answer j
      (.answered op (.commitVersion key d.version expect ts VersionEntry.kMaxTimeStamp txId record) r)
      (Function.update s.store key committed)).client j').Commits k version t ↔
        (s.client j').Commits k version t ∨ j' = j ∧ key = k ∧ d.version = version ∧ ts = t := by
    intro j' k version t
    simp only [Client.Commits, exists_answer, Event.commits, Option.some.injEq, Prod.mk.injEq]
  -- Nobody else has committed the version, which was not committed before.
  have hfirst : ∀ j' t, ¬ (s.client j').Commits key d.version t := by
    intro j' t hj'
    obtain ⟨x, hx, hc, hversion, -⟩ := h.authors.kept j' key d.version t hj'
    rw [hstore] at hx
    obtain rfl := hshape.eq_of_version hx List.mem_cons_self hversion
    exact (hshape.dirty x rfl).1 hc
  refine ⟨client_setClient (P := fun _ c => c.Sound) hsound h.sound, shaped_update h.shaped ⟨none, _, rfl, hcommits.shaped⟩,
    h.fits_answer hkeep trivial, ?_, ?_⟩
  · exact h.dues_resolve howes hstore hshape (fun w hw => hcommits.shaped.committed_of_mem hw)
      rfl rfl
  · refine h.authors.commit hkeep hfirst ?_ (fun k w hw hc => ?_) hcom
    · obtain ⟨x, hx, hversion, hbegin⟩ := hcommits.newest
      exact ⟨x, (hself x).mpr hx, hcommits.shaped.committed_of_mem hx, hversion, hbegin⟩
    · by_cases hk : k = key
      · subst hk
        rcases hcommits.back w ((hself w).mp hw) with hnew' | ⟨x, hx, hversion, hbegin⟩
        · exact Or.inl ⟨rfl, hnew'⟩
        · have hxs : x ∈ s.store k := hstore ▸ List.mem_cons_of_mem _ hx
          exact Or.inr ⟨x, hxs, hshape.committed_of_mem hx, hversion, hbegin⟩
      · exact Or.inr ⟨w, hother k hk ▸ hw, hc, rfl, rfl⟩

theorem read (h : Coherent s) {j : ι} {op : Op} {key : SetKey K} {time : ℤ} {r : Reply V op}
    (hsound : ((s.client j).answer (.answered op (.getVersionList key time) r)).Sound)
    (hpermits : Permits s.store (.getVersionList key time) r) :
    Coherent (s.answer j (.answered op (.getVersionList key time) r)
      (s.store.perform r.isError (.getVersionList key time))) := by
  have hstore : ∀ k, s.store.perform r.isError (.getVersionList key time) k = s.store k ∨
      s.store k = [] ∧ s.store.perform r.isError (.getVersionList key time) k = [.pseudo] := by
    intro k
    cases herror : r.isError with
    | true => exact Or.inl rfl
    | false =>
      rw [perform, if_neg Bool.false_ne_true, after]
      by_cases hk : k = key
      · subst hk
        rw [Function.update_self, opened]
        split
        · next hnil => exact Or.inr ⟨hnil, rfl⟩
        · exact Or.inl rfl
      · exact Or.inl (Function.update_of_ne hk _ _)
  refine h.answer hsound (fun res hres herror entry hseen => ?_) ⟨rfl, rfl, rfl⟩ hstore
  have hnewest := (hpermits res hres).resolve_left (by simp [herror])
  rw [perform, herror, if_neg Bool.false_ne_true, after, Function.update_self]
  obtain ⟨dirty, committed, hopened, hshape⟩ : ∃ dirty committed,
      opened (s.store key) = dirty.toList ++ committed ∧ Shaped dirty committed := by
    rcases h.shaped key with hnil | ⟨dirty, committed, hk, hshape⟩
    · exact ⟨none, _, if_pos hnil, .pseudo⟩
    · have hne : s.store key ≠ [] := by
        rw [hk]
        exact List.append_ne_nil_of_right_ne_nil _ hshape.lineage.ne_nil
      exact ⟨dirty, committed, (if_neg hne).trans hk, hshape⟩
  rw [hopened] at hnewest ⊢
  obtain ⟨v, hv, hversion, hbegin⟩ := hshape.seen hnewest hseen
  exact ⟨v, List.mem_append_right _ hv, hshape.committed_of_mem hv, hversion, hbegin⟩

theorem perform (h : Coherent s) {j : ι} {op : Op} {c : HandlerCall K} {r : Reply V op}
    (hp : (op, c) ∈ (s.client j).execution.pending)
    (hnew : ∀ ev ∈ (s.client j).performed, ev.op ≠ op) (hpermits : Permits s.store c r) :
    Coherent (s.answer j (.answered op c r) (s.store.perform r.isError c)) := by
  have hsound := (h.sound j).perform hp hnew r
  cases c with
  | getVersionList key time => exact h.read hsound hpermits
  | uploadVersion key v =>
    cases herror : r.isError with
    | true =>
      refine h.answer hsound trivial ⟨?_, rfl, rfl⟩ fun key => Or.inl rfl
      simp only [Event.uploads, herror, if_true]
    | false => exact h.upload hp hsound herror (hpermits.resolve_left (by simp [herror]))
  | setCommitTimestamp id ts =>
    refine h.answer hsound (fun n hn herror => ?_) ⟨rfl, rfl, rfl⟩
      fun key => Or.inl (congrFun (ite_self s.store) key)
    exact (hpermits n hn).resolve_left (by simp [herror])
  | commitVersion key version expect ts endTs txId record =>
    rw [show r.isError = false from hpermits]
    exact h.commit hp hnew hsound
  | deleteVersion key version =>
    rw [show r.isError = false from hpermits]
    exact h.delete hp hnew hsound
  | _ =>
    exact h.answer hsound trivial ⟨rfl, rfl, rfl⟩
      fun key => Or.inl (congrFun (ite_self s.store) key)

theorem step (h : Coherent s) {a : SharedAction ι K V S} (hs : s.step a = some s') :
    Coherent s' := by
  obtain ⟨hsound, ⟨-, hq⟩ | ⟨j, op, c, r, -, hp, hnew, hpermits, rfl⟩⟩ := step_cases h.sound hs
  · exact h.quiet hsound hq
  · exact h.perform (List.mem_of_find?_eq_some hp) hnew hpermits

omit [DecidableEq ι] in
theorem unfinished (h : Coherent s) {j : ι} {key : SetKey K} {version : ℤ}
    (ho : (s.client j).Owes key version) :
    (s.client j).execution.isTransactionFinished = false := by
  have halive := (h.sound j).alive
  obtain ⟨⟨op, ev, hev, hup⟩, hunresolved⟩ := ho
  obtain ⟨v, r, rfl, herror, rfl⟩ := Event.of_uploads hup
  obtain ⟨⟨i, rfl, hw⟩, -⟩ := halive.uploads ((h.sound j).issued hev)
  cases hfin : (s.client j).execution.isTransactionFinished with
  | false => rfl
  | true =>
    have hlog := (List.mem_append.mp hev).resolve_right fun hf =>
      halive.not_pending_of_finished hfin _ ((h.sound j).inFlight _ _ _ hf)
    obtain ⟨op', c, r', hr', hc⟩ := halive.resolved_of_finished hfin ⟨hw, _, r, hlog, herror⟩
    exact absurd ⟨_, List.mem_append_left _ hr', hc⟩ hunresolved

omit [DecidableEq ι] in
theorem read_of_commits (h : Coherent s) {j : ι} {key : SetKey K} {version ts : ℤ}
    (hj : (s.client j).Commits key version ts) :
    (∃ op, (s.client j).Uploads op key version) ∧ ∃ i < (s.client j).execution.keyReadSet.popIndex,
      (s.client j).execution.keyReadSet.key i = some key ∧
      ((s.client j).execution.keyReadSet.entry i).version + 1 = version := by
  obtain ⟨ev, hev, hcommits⟩ := hj
  obtain ⟨op, expect, endTs, txId, record, r, rfl⟩ := Event.of_commits hcommits
  have hissued := (h.sound j).issued hev
  obtain ⟨hop, i, hu⟩ := (h.sound j).alive.resolves hissued rfl
  obtain ⟨l, hl, hkey, hnext, -⟩ :=
    (h.sound j).alive.read_of_writes hissued (Nat.zero_lt_of_lt hop) hu.1
  exact ⟨⟨_, h.uploads_of_uploadedAs hu⟩, l, hl, hkey, hnext⟩

end Coherent

def start (e : ι → TransactionExecution K V S) : SharedStore ι K V S where
  store _ := []
  client j := ⟨(e j).reset, []⟩

omit [DecidableEq ι] in
theorem Coherent.start {e : ι → TransactionExecution K V S}
    (hv : ∀ j, (e j).operationVector = []) (hp : ∀ j, (e j).pending = []) :
    Coherent (start e) := by
  have hhistory : ∀ j, ((SharedStore.start e).client j).history = [] := fun j => rfl
  have hnone : ∀ j {β : Type} {f : Event K V → Option β} {y : β},
      ¬ ∃ ev ∈ ((SharedStore.start e).client j).history, f ev = some y := by
    rintro j β f y ⟨ev, hev, -⟩
    rw [hhistory] at hev
    exact List.not_mem_nil hev
  have hsound : ∀ j, ((SharedStore.start e).client j).Sound := fun j =>
    ⟨.reset (hv j) (hp j), fun _ _ _ hr => absurd hr List.not_mem_nil, List.nodup_nil⟩
  refine ⟨hsound, fun key => Or.inl rfl, fun j ev hev => ?_, ?_, ?_⟩
  · rw [hhistory] at hev
    exact absurd hev List.not_mem_nil
  · exact ⟨fun key d hd => absurd hd List.not_mem_nil, fun j key version hj => absurd hj.1.choose_spec (hnone j),
      fun j j' key version hj => absurd hj.1.choose_spec (hnone j),
      fun j op op' key version hop => absurd hop (hnone j)⟩
  · exact ⟨fun key d hd => absurd hd List.not_mem_nil, fun j key version ts hj => absurd hj (hnone j),
      fun j j' key version ts ts' hj => absurd hj (hnone j)⟩

structure Chained (l : List VersionEntry) : Prop where
  contiguous : ∀ (i : ℕ) v, l[i]? = some v → v.version + i + 1 = l.length
  newest : ∀ (i : ℕ) v, l[i]? = some v → ¬ v.Committed → i = 0
  increasing : (l.filter (·.Committed)).Pairwise fun newer older => older.beginTs < newer.beginTs
  linked : ∀ (i : ℕ) v w, (l.filter (·.Committed))[i]? = some v →
    (l.filter (·.Committed))[i + 1]? = some w → w.endTs = v.beginTs

omit [DecidableEq ι] [DecidableEq K] [Services S] in
theorem Chained.nil : Chained [] := by
  refine ⟨fun i v hv => ?_, fun i v hv => ?_, List.Pairwise.nil, fun i v w hv => ?_⟩
  all_goals cases hv

omit [DecidableEq ι] [DecidableEq K] [Services S] in
theorem chained_of_shaped {dirty : Option VersionEntry} {committed : List VersionEntry}
    (h : Shaped dirty committed) : Chained (dirty.toList ++ committed) := by
  have hfilter : (dirty.toList ++ committed).filter (·.Committed) = committed := by
    rw [List.filter_append, List.filter_eq_self.mpr fun v hv =>
      decide_eq_true (h.committed_of_mem hv)]
    cases dirty with
    | none => rfl
    | some d => simp [(h.dirty d rfl).1]
  refine ⟨fun i v hv => h.contiguous hv, fun i v hv hc => ?_, ?_, ?_⟩
  · have hd := h.dirty_of_mem (List.mem_of_getElem? hv) hc
    have h1 := h.contiguous hv
    have h2 := (h.dirty v hd).2
    rw [hd] at h1
    simp only [Option.toList_some, List.cons_append, List.nil_append, List.length_cons] at h1
    omega
  · rw [hfilter]
    exact h.lineage.increasing
  · rw [hfilter]
    exact fun i v w => h.lineage.stops

/-- In every run of any number of transactions the versions of a key form a chain, in which a
version that is not committed belongs to a transaction that is not finished, and each other one was
written by one transaction, which has read the version before it. -/
theorem versions_chained {e : ι → TransactionExecution K V S}
    (hv : ∀ j, (e j).operationVector = []) (hp : ∀ j, (e j).pending = [])
    {as : List (SharedAction ι K V S)} (hr : run step (start e) as = some s) (key : SetKey K) :
    Chained (s.store key) ∧
    (∀ d ∈ s.store key, ¬ d.Committed → ∃ j, (s.client j).Owes key d.version ∧
      (s.client j).execution.txnId = d.txId ∧
      (s.client j).execution.isTransactionFinished = false) ∧
    ∀ v ∈ s.store key, v.Committed → 0 < v.version →
      ∃ j, (s.client j).Commits key v.version v.beginTs ∧
        (∃ op, (s.client j).Uploads op key v.version) ∧
        (∃ i < (s.client j).execution.keyReadSet.popIndex,
          (s.client j).execution.keyReadSet.key i = some key ∧
          ((s.client j).execution.keyReadSet.entry i).version + 1 = v.version) ∧
        ∀ j' ts, (s.client j').Commits key v.version ts → j' = j := by
  have h : Coherent s := run_invariant (fun _ _ _ hi hs => hi.step hs) (.start hv hp) hr
  refine ⟨?_, fun d hd hc => ?_, fun v hv hc hpos => ?_⟩
  · rcases h.shaped key with hnil | ⟨dirty, committed, hk, hshape⟩
    · rw [hnil]
      exact .nil
    · rw [hk]
      exact chained_of_shaped hshape
  · obtain ⟨j, ho, htx⟩ := h.dues.owed key d hd hc
    exact ⟨j, ho, htx, h.unfinished ho⟩
  · obtain ⟨j, hj⟩ := h.authors.written key v hv hc hpos
    obtain ⟨hup, hread⟩ := h.read_of_commits hj
    exact ⟨j, hj, hup, hread, fun j' ts hj' => h.authors.single j' j key _ ts _ hj' hj⟩

def sampleExecutions (j : ℕ) : TransactionExecution ℕ ℕ LocalServices :=
  .init ⟨.ofBase (10 * j) 100, .ofClock fun _ => 5⟩ (fun _ => 0) ⟨"t", 0⟩

def sampleActs {ι : Type} (j : ι) (as : List (TransactionExecution.Action ℕ ℕ)) :
    List (SharedAction ι ℕ ℕ LocalServices) := as.map (.own j)

def sampleAnswer {ι : Type} (j : ι) (op : Op) (reply : Reply ℕ op) :
    List (SharedAction ι ℕ ℕ LocalServices) := [.perform j op reply, .deliver j 0]

def sampleUpsert {ι : Type} (j : ι) (res : VersionEntry × VersionEntry) :
    List (SharedAction ι ℕ ℕ LocalServices) :=
  sampleActs j [.dispatch .begin] ++ sampleAnswer j .initTxn ⟨false, (), []⟩ ++
    sampleActs j [.visit 0, .tidy, .dispatch (.upsert ⟨"t", 1⟩ (some 7))] ++
    sampleAnswer j .readOutside ⟨false, res, []⟩ ++
    sampleActs j [.visit 1, .visit 0, .tidy, .dispatch .commit] ++
    [.perform j (.uploadVersionEntry 0) ⟨false, (0 : ℤ), []⟩]

def sampleCommit {ι : Type} (j : ι) (ts : ℤ) : List (SharedAction ι ℕ ℕ LocalServices) :=
  .deliver j 0 :: sampleActs j [.visit 1, .visit 0] ++
    sampleAnswer j .setCommitTs ⟨false, ts, []⟩ ++
    sampleActs j [.visit 0, .visit 0, .visit 0] ++
    sampleAnswer j .updateTxnStatusToCommit ⟨false, (), []⟩ ++ sampleActs j [.visit 0] ++
    sampleAnswer j (.postProcessingCommitEntryAfterCommit 0) ⟨false, (), []⟩ ++
    sampleActs j [.visit 2, .visit 0, .tidy]

def sampleRun : List (SharedAction ℕ ℕ ℕ LocalServices) :=
  sampleUpsert 0 (.pseudo, .blank none) ++ sampleCommit 0 6 ++
    sampleUpsert 1 ({ VersionEntry.pseudo with version := 1, beginTs := 6, isDeleted := false },
      { VersionEntry.pseudo with endTs := 6 })

set_option maxRecDepth 4000 in
theorem versions_chained_sample :
    ∃ s, run step (start sampleExecutions) sampleRun = some s ∧
      (s.store ⟨"t", 1⟩).map (fun v => (v.version, v.txId, v.beginTs, v.endTs)) =
        [(2, 11, -1, -1), (1, -1, 6, int64Max), (0, -1, 0, 6)] ∧ Chained (s.store ⟨"t", 1⟩) ∧
      (∀ d ∈ s.store ⟨"t", 1⟩, ¬ d.Committed → ∃ j, (s.client j).Owes ⟨"t", 1⟩ d.version ∧
        (s.client j).execution.txnId = d.txId ∧
        (s.client j).execution.isTransactionFinished = false) ∧
      ∀ v ∈ s.store ⟨"t", 1⟩, v.Committed → 0 < v.version →
        ∃ j, (s.client j).Commits ⟨"t", 1⟩ v.version v.beginTs ∧
          (∃ op, (s.client j).Uploads op ⟨"t", 1⟩ v.version) ∧
          (∃ i < (s.client j).execution.keyReadSet.popIndex,
            (s.client j).execution.keyReadSet.key i = some ⟨"t", 1⟩ ∧
            ((s.client j).execution.keyReadSet.entry i).version + 1 = v.version) ∧
          ∀ j' ts, (s.client j').Commits ⟨"t", 1⟩ v.version ts → j' = j := by
  have hrun : (run step (start sampleExecutions) sampleRun).map (fun s =>
      (s.store ⟨"t", 1⟩).map fun v => (v.version, v.txId, v.beginTs, v.endTs)) =
      some [(2, 11, -1, -1), (1, -1, 6, int64Max), (0, -1, 0, 6)] := by
    decide +kernel
  obtain ⟨s, hs, hstore⟩ := Option.map_eq_some_iff.mp hrun
  exact ⟨s, hs, hstore, versions_chained (fun _ => rfl) (fun _ => rfl) hs ⟨"t", 1⟩⟩

end SharedStore

end Fugue
