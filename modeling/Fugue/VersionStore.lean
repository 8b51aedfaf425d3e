import Fugue.Library.Lineage
import Fugue.VersionChain
import Mathlib.Data.List.GetD
import Mathlib.Logic.Function.Basic

/-! A store that keeps the versions of each key, newest first, and what its calls do to them. What
the order of the versions does not depend on is left open: the records, the timestamps of readers,
and which reads and uploads fail without an effect. -/

namespace Fugue

variable {K V : Type}

abbrev VersionStore (K : Type) := SetKey K → List VersionEntry

namespace VersionEntry

def Committed (v : VersionEntry) : Prop := v.endTs ≠ kDefaultEndTs

instance (v : VersionEntry) : Decidable v.Committed := by
  unfold Committed
  infer_instance

/-- The version of a key that nothing was written to. -/
def pseudo : VersionEntry where
  version := 0
  txId := kEmptyTxId
  beginTs := 0
  endTs := kMaxTimeStamp
  maxCommitTs := 0
  isDeleted := true
  readRecord := none
  writeRecord := none

/-- What an answer has to show of a version. -/
def shown (v : VersionEntry) : VersionEntry :=
  { v with maxCommitTs := 0, readRecord := none, writeRecord := none }

end VersionEntry

def Reply.versions {op : Op} (r : Reply V op) : Option (VersionEntry × VersionEntry) :=
  match op, r with
  | .readOutside, r => some r.result
  | _, _ => none

def Reply.timestamp {op : Op} (r : Reply V op) : Option ℤ :=
  match op, r with
  | .setCommitTs, r => some r.result
  | _, _ => none

def HandlerCall.resolved : HandlerCall K → Option (SetKey K × ℤ)
  | .commitVersion key version .. => some (key, version)
  | .deleteVersion key version => some (key, version)
  | _ => none

namespace VersionStore

/-- `GetVersionList` creates the pseudo version of a new key. -/
def opened (l : List VersionEntry) : List VersionEntry := if l = [] then [.pseudo] else l

/-- The two newest versions, in either order; a missing one has the default values. -/
def Newest (l : List VersionEntry) (res : VersionEntry × VersionEntry) : Prop :=
  (res.1.shown = (l.getD 0 (.blank none)).shown ∧ res.2.shown = (l.getD 1 (.blank none)).shown) ∨
    (res.2.shown = (l.getD 0 (.blank none)).shown ∧ res.1.shown = (l.getD 1 (.blank none)).shown)

instance (l : List VersionEntry) (res : VersionEntry × VersionEntry) :
    Decidable (Newest l res) := by
  unfold Newest
  infer_instance

/-- The answers that the store may give to a call. -/
def Permits (store : VersionStore K) {op : Op} (c : HandlerCall K) (r : Reply V op) : Prop :=
  match c with
  | .getVersionList key _ => ∀ res ∈ r.versions, r.isError = true ∨ Newest (opened (store key)) res
  | .uploadVersion key v => r.isError = true ∨ ∀ w ∈ store key, w.version ≠ v.version
  | .setCommitTimestamp _ commitTs => ∀ ts ∈ r.timestamp, r.isError = true ∨ commitTs ≤ ts
  | .commitVersion .. => r.isError = false
  | .deleteVersion .. => r.isError = false
  | _ => True

instance (store : VersionStore K) {op : Op} (c : HandlerCall K) (r : Reply V op) :
    Decidable (Permits store c r) := by
  unfold Permits
  cases c <;> infer_instance

/-- What committing `version` at `beginTs` makes of a version of the same key. The record comes
with the call: the upload has passed none. -/
def commitAt (version beginTs endTs txId : ℤ) (record : Option Addr) (v : VersionEntry) :
    VersionEntry :=
  if v.version = version then
    { v with txId := txId, beginTs := beginTs, endTs := endTs, writeRecord := record }
  else if v.version + 1 = version then { v with endTs := beginTs }
  else v

def after [DecidableEq K] (store : VersionStore K) : HandlerCall K → VersionStore K
  | .getVersionList key _ => Function.update store key (opened (store key))
  | .uploadVersion key v => Function.update store key (v :: store key)
  | .commitVersion key version _ beginTs endTs txId record =>
    Function.update store key ((store key).map (commitAt version beginTs endTs txId record))
  | .deleteVersion key version =>
    Function.update store key ((store key).filter fun v => v.version ≠ version ∨ v.Committed)
  | _ => store

def perform [DecidableEq K] (store : VersionStore K) (isError : Bool) (c : HandlerCall K) :
    VersionStore K := if isError then store else store.after c

end VersionStore

open VersionStore

theorem pickVisibleVersion_shown (v w : VersionEntry) : pickVisibleVersion (v.shown, w.shown) =
    (pickVisibleVersion (v, w)).map (Option.map VersionEntry.shown) := by
  have hpick : ∀ v w : VersionEntry, internalPickVisibleVersion v.shown w.shown =
      (internalPickVisibleVersion v w).map (Option.map VersionEntry.shown) := by
    intro v w
    simp only [internalPickVisibleVersion, apply_ite (Except.map (Option.map VersionEntry.shown))]
    simp only [Except.map, apply_ite (Option.map VersionEntry.shown), Option.map_some,
      Option.map_none]
    rfl
  simp only [pickVisibleVersion, hpick, apply_ite (Except.map (Option.map VersionEntry.shown))]
  rfl

theorem seen_shown {res : VersionEntry × VersionEntry} {r : ReadSetEntry} :
    Seen (res.1.shown, res.2.shown) r ↔ Seen res r := by
  rw [Seen, Seen, pickVisibleVersion_shown]
  cases pickVisibleVersion (res.1, res.2) with
  | error m => rfl
  | ok o => cases o <;> rfl

/-- The versions of a key: one that is not committed, perhaps, and those that are. -/
structure Shaped (dirty : Option VersionEntry) (committed : List VersionEntry) : Prop where
  lineage : Lineage VersionEntry.version VersionEntry.beginTs VersionEntry.endTs 0
    VersionEntry.kMaxTimeStamp committed
  dirty : ∀ d ∈ dirty, ¬ d.Committed ∧ d.version = committed.length

namespace Shaped

variable {dirty : Option VersionEntry} {committed l : List VersionEntry} {v w d : VersionEntry}

theorem pseudo : Shaped none [.pseudo] where
  lineage := .first (v := VersionEntry.pseudo) rfl rfl
  dirty := nofun

theorem committed_of_mem (h : Shaped dirty committed) (hv : v ∈ committed) : v.Committed := by
  rcases h.lineage.lt_stop hv with hs | hs
  · rw [VersionEntry.Committed, hs]
    decide
  · exact fun heq => absurd (heq ▸ hs) (by decide)

theorem mem_of_committed (h : Shaped dirty committed) (hv : v ∈ dirty.toList ++ committed)
    (hc : v.Committed) : v ∈ committed := by
  rcases List.mem_append.mp hv with hd | hv
  · exact absurd hc (h.dirty v (Option.mem_toList.mp hd)).1
  · exact hv

theorem dirty_of_mem (h : Shaped dirty committed) (hv : v ∈ dirty.toList ++ committed)
    (hc : ¬ v.Committed) : dirty = some v := by
  rcases List.mem_append.mp hv with hd | hv
  · exact Option.mem_toList.mp hd
  · exact absurd (h.committed_of_mem hv) hc

theorem eq_of_version (h : Shaped dirty committed) (hv : v ∈ dirty.toList ++ committed)
    (hw : w ∈ dirty.toList ++ committed) (hn : v.version = w.version) : v = w := by
  have hlt : ∀ {x y}, x ∈ dirty → y ∈ committed → y.version < x.version := by
    intro x y hx hy
    rw [(h.dirty x hx).2]
    exact h.lineage.number_lt hy
  rcases List.mem_append.mp hv with hv | hv <;> rcases List.mem_append.mp hw with hw | hw
  · exact Option.some.inj ((Option.mem_toList.mp hv).symm.trans (Option.mem_toList.mp hw))
  · exact absurd hn (hlt (Option.mem_toList.mp hv) hw).ne'
  · exact absurd hn (hlt (Option.mem_toList.mp hw) hv).ne
  · exact h.lineage.eq_of_number hv hw hn

theorem next_version (h : Shaped dirty committed) {n : ℤ}
    (hn : ∀ w ∈ dirty.toList ++ committed, w.version ≠ n) (hv : v ∈ committed)
    (hvn : v.version + 1 = n) : dirty = none ∧ n = committed.length := by
  have hlt := h.lineage.number_lt hv
  obtain ⟨i, hi⟩ := List.mem_iff_getElem?.mp hv
  have hnum := h.lineage.number_getElem? hi
  have hi' := (List.getElem?_eq_some_iff.mp hi).1
  have heq : n = committed.length := by
    by_contra hne
    obtain ⟨w, hw, hwn⟩ := h.lineage.exists_number (n := n) (by omega) (by omega)
    exact hn w (List.mem_append_right _ hw) hwn
  refine ⟨?_, heq⟩
  cases dirty with
  | none => rfl
  | some d =>
    have hd := (h.dirty d rfl).2
    exact absurd (hd.trans heq.symm) (hn d List.mem_cons_self)

theorem contiguous (h : Shaped dirty committed) {i : ℕ}
    (hv : (dirty.toList ++ committed)[i]? = some v) :
    v.version + i + 1 = ((dirty.toList ++ committed).length : ℤ) := by
  cases dirty with
  | none => exact h.lineage.number_getElem? hv
  | some d =>
    cases i with
    | zero =>
      obtain rfl := Option.some.inj hv
      have := (h.dirty d rfl).2
      simp only [Option.toList_some, List.cons_append, List.nil_append, List.length_cons]
      omega
    | succ i =>
      have := h.lineage.number_getElem? (i := i) hv
      simp only [Option.toList_some, List.cons_append, List.nil_append, List.length_cons]
      omega

theorem upload (h : Shaped none committed) (hv : ¬ v.Committed)
    (hn : v.version = committed.length) : Shaped (some v) committed where
  lineage := h.lineage
  dirty d hd := by
    obtain rfl := Option.some.inj hd
    exact ⟨hv, hn⟩

structure Commits (d : VersionEntry) (ts : ℤ) (committed committed' : List VersionEntry) :
    Prop where
  shaped : Shaped none committed'
  newest : ∃ x ∈ committed', x.version = d.version ∧ x.beginTs = ts
  keeps : ∀ w ∈ committed, ∃ x ∈ committed', x.version = w.version ∧ x.beginTs = w.beginTs
  back : ∀ x ∈ committed', x.version = d.version ∧ x.beginTs = ts ∨
    ∃ w ∈ committed, w.version = x.version ∧ w.beginTs = x.beginTs

theorem commit (h : Shaped (some d) (v :: l)) {ts : ℤ} (hlt : v.beginTs < ts) (txId : ℤ)
    (record : Option Addr) : Commits d ts (v :: l)
      ((d :: v :: l).map (commitAt d.version ts VersionEntry.kMaxTimeStamp txId record)) := by
  have hd := (h.dirty d rfl).2
  have hv := h.lineage.number_eq
  rw [List.length_cons] at hd
  have hnext : v.version + 1 = d.version := by omega
  have hold : l.map (commitAt d.version ts VersionEntry.kMaxTimeStamp txId record) = l := by
    refine (List.map_congr_left fun x hx => ?_).trans (List.map_id l)
    have hx := h.lineage.number_lt_newest hx
    rw [commitAt, if_neg (by omega), if_neg (by omega)]
    rfl
  rw [List.map_cons, List.map_cons, hold, commitAt, if_pos rfl, commitAt, if_neg (by omega),
    if_pos hnext]
  have hprev : Lineage VersionEntry.version VersionEntry.beginTs VersionEntry.endTs 0 ts
      ({ v with endTs := ts } :: l) := h.lineage.restop (w := { v with endTs := ts }) rfl rfl
  refine ⟨⟨?_, nofun⟩, ⟨_, List.mem_cons_self, rfl, rfl⟩, fun w hw => ?_, fun x hx => ?_⟩
  · exact .next (v := { d with
      txId := txId, beginTs := ts, endTs := VersionEntry.kMaxTimeStamp
      writeRecord := record }) hprev hnext.symm hlt
  · rcases List.mem_cons.mp hw with rfl | hw
    · exact ⟨_, List.mem_cons_of_mem _ List.mem_cons_self, rfl, rfl⟩
    · exact ⟨w, List.mem_cons_of_mem _ (List.mem_cons_of_mem _ hw), rfl, rfl⟩
  · rcases List.mem_cons.mp hx with rfl | hx
    · exact Or.inl ⟨rfl, rfl⟩
    · rcases List.mem_cons.mp hx with rfl | hx
      · exact Or.inr ⟨v, List.mem_cons_self, rfl, rfl⟩
      · exact Or.inr ⟨x, List.mem_cons_of_mem _ hx, rfl, rfl⟩

theorem delete (h : Shaped (some d) committed) :
    (d :: committed).filter (fun v => v.version ≠ d.version ∨ v.Committed) = committed ∧
      Shaped none committed := by
  refine ⟨?_, h.lineage, nofun⟩
  rw [List.filter_cons_of_neg]
  · apply List.filter_eq_self.mpr
    intro x hx
    exact decide_eq_true (Or.inr (h.committed_of_mem hx))
  · simp [(h.dirty d rfl).1]

theorem seen (h : Shaped dirty committed) {res : VersionEntry × VersionEntry}
    (hn : Newest (dirty.toList ++ committed) res) {r : ReadSetEntry} (hs : Seen res r) :
    ∃ v ∈ committed, v.version = r.version ∧ v.beginTs = r.beginTs := by
  obtain ⟨n, older, rfl⟩ := List.exists_cons_of_ne_nil h.lineage.ne_nil
  have hentries : (dirty.map VersionEntry.shown).toList ++ n.shown :: older.map VersionEntry.shown =
      (dirty.toList ++ n :: older).map VersionEntry.shown := by
    cases dirty <;> rfl
  let c : VersionChain :=
    { dirty := dirty.map VersionEntry.shown
      newest := n.shown
      older := older.map VersionEntry.shown
      contiguous := by
        rw [hentries]
        intro i v hv
        rw [List.getElem?_map] at hv
        obtain ⟨w, hw, rfl⟩ := Option.map_eq_some_iff.mp hv
        rw [List.length_map]
        exact (h.contiguous hw :)
      committed := by
        rw [← List.map_cons]
        intro v hv
        obtain ⟨w, hw, rfl⟩ := List.mem_map.mp hv
        refine ⟨fun heq => ?_, (h.committed_of_mem hw :)⟩
        have hle : 0 ≤ w.beginTs := h.lineage.le_start hw
        have heq : w.beginTs = -1 := heq
        omega
      uncommitted := by
        intro v hv
        obtain ⟨w, hw, rfl⟩ := Option.map_eq_some_iff.mp hv
        exact not_not.mp (h.dirty w hw).1
      pseudo := by
        intro hzero _
        have hbegin := h.lineage.start_first List.mem_cons_self hzero
        exact ⟨hbegin, h.lineage.stop_eq⟩ }
  have htwo : c.twoNewest (VersionEntry.blank none).shown =
      (((dirty.toList ++ n :: older).getD 0 (.blank none)).shown,
        ((dirty.toList ++ n :: older).getD 1 (.blank none)).shown) := by
    rw [VersionChain.twoNewest, VersionChain.entries, hentries, List.getD_map, List.getD_map]
  have hret : c.Returns (res.1.shown, res.2.shown) := by
    refine ⟨(VersionEntry.blank none).shown, rfl, ?_⟩
    rw [htwo]
    rcases hn with ⟨h1, h2⟩ | ⟨h1, h2⟩
    · exact Or.inl (Prod.ext h1 h2)
    · exact Or.inr (Prod.ext h2 h1)
  have hrec := c.records hret (seen_shown.mpr hs)
  exact ⟨n, List.mem_cons_self, hrec.version.symm, hrec.beginTs.symm⟩

end Shaped

end Fugue
