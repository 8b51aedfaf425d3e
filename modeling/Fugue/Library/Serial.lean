import Mathlib.Data.List.Sort
import Mathlib.Data.Prod.Lex
import Mathlib.Tactic.Common

/-! Transactions that run one after another on objects whose versions are numbered from zero, and
when the versions that concurrent transactions read and write are those of such a run. -/

namespace Fugue

variable {T K : Type}

/-- The transactions run one after another. Each reads what is newest and replaces it by the next
version. The functions are the newest versions before and after. -/
inductive Serial (reads writes : T → K → ℤ → Prop) : (K → ℤ) → List T → (K → ℤ) → Prop
  | nil (newest : K → ℤ) : Serial reads writes newest [] newest
  | cons {t : T} {l : List T} {newest next last : K → ℤ}
      (hread : ∀ k n, reads t k n → n = newest k)
      (hwrite : ∀ k n, writes t k n → n = newest k + 1 ∧ next k = n)
      (hkeep : ∀ k, (∀ n, ¬ writes t k n) → next k = newest k)
      (h : Serial reads writes next l last) : Serial reads writes newest (t :: l) last

structure Leaves (writes : T → K → ℤ → Prop) (l : List T) (newest : K → ℤ) : Prop where
  written : ∀ k, newest k = 0 ∨ ∃ t ∈ l, writes t k (newest k)
  le : ∀ t ∈ l, ∀ k n, writes t k n → n ≤ newest k
  nonneg : ∀ k, 0 ≤ newest k

def ReadsFrom (reads writes : T → K → ℤ → Prop) (t w : T) : Prop :=
  ∃ k n, reads t k n ∧ writes w k n

/-- Each transaction comes after those whose versions it reads and before those that replace
them. -/
structure Ranked {α : Type} [Preorder α] (reads writes : T → K → ℤ → Prop) (rank : T → α)
    (l : List T) : Prop where
  sorted : l.Pairwise fun t t' => rank t < rank t'
  nonneg : ∀ t ∈ l, ∀ k n, reads t k n → 0 ≤ n
  after : ∀ t ∈ l, ∀ k n, reads t k n → 0 < n → ∃ w ∈ l, writes w k n ∧ rank w < rank t
  before : ∀ t ∈ l, ∀ k n, reads t k n → ∀ w ∈ l, writes w k (n + 1) → w = t ∨ rank t < rank w
  next : ∀ t ∈ l, ∀ k n, writes t k n → reads t k (n - 1)

namespace Ranked

variable {α : Type} [Preorder α] {reads writes : T → K → ℤ → Prop} {rank : T → α} {p q : List T}

theorem mem_left (h : Ranked reads writes rank (p ++ q)) {t w : T} (ht : t ∈ p)
    (hw : w ∈ p ++ q) (hlt : rank w < rank t) : w ∈ p := by
  rcases List.mem_append.mp hw with hw | hw
  · exact hw
  · exact absurd ((List.pairwise_append.mp h.sorted).2.2 t ht w hw) (lt_asymm hlt)

theorem exists_write (h : Ranked reads writes rank (p ++ q)) {k : K} {n : ℤ} (hn : 0 ≤ n) (i : ℕ) :
    ∀ t ∈ p, writes t k (n + 1 + i) → ∃ w ∈ p, writes w k (n + 1) := by
  induction i with
  | zero =>
    intro t ht hw
    refine ⟨t, ht, ?_⟩
    simpa using hw
  | succ i ih =>
    intro t ht hw
    have hprev : n + 1 + ((i + 1 : ℕ) : ℤ) - 1 = n + 1 + i := by omega
    have hread := h.next t (List.mem_append_left q ht) k _ hw
    rw [hprev] at hread
    obtain ⟨w, hw, hwrites, hlt⟩ := h.after t (List.mem_append_left q ht) k _ hread (by omega)
    exact ih w (h.mem_left ht hw hlt) hwrites

theorem read_eq {t : T} (h : Ranked reads writes rank (p ++ t :: q)) {newest : K → ℤ}
    (hl : Leaves writes p newest) {k : K} {n : ℤ} (hr : reads t k n) : n = newest k := by
  have ht : t ∈ p ++ t :: q := List.mem_append_right p List.mem_cons_self
  have hpt : ∀ w ∈ p, rank w < rank t := by
    intro w hw
    exact (List.pairwise_append.mp h.sorted).2.2 w hw t List.mem_cons_self
  have htq : ∀ w ∈ q, rank t < rank w := by
    intro w hw
    exact List.rel_of_pairwise_cons (List.pairwise_append.mp h.sorted).2.1 hw
  have hnonneg := h.nonneg t ht k n hr
  have hle : n ≤ newest k := by
    by_cases hpos : 0 < n
    · obtain ⟨w, hw, hwrites, hlt⟩ := h.after t ht k n hr hpos
      rcases List.mem_append.mp hw with hw | hw
      · exact hl.le w hw k n hwrites
      · rcases List.mem_cons.mp hw with rfl | hw
        · exact absurd hlt (lt_irrefl _)
        · exact absurd hlt (lt_asymm (htq w hw))
    · have := hl.nonneg k
      omega
  by_contra hne
  rcases hl.written k with hzero | ⟨w, hw, hwrites⟩
  · omega
  · -- Somebody before `t` wrote the version after the one that `t` read.
    obtain ⟨i, hi⟩ : ∃ i : ℕ, newest k = n + 1 + i := ⟨(newest k - n - 1).toNat, by omega⟩
    rw [hi] at hwrites
    obtain ⟨w', hw', hwrites'⟩ := h.exists_write hnonneg i w hw hwrites
    rcases h.before t ht k n hr w' (List.mem_append_left _ hw') hwrites' with rfl | hlt
    · exact lt_irrefl _ (hpt w' hw')
    · exact lt_asymm hlt (hpt w' hw')

theorem leaves_concat {t : T} (h : Ranked reads writes rank (p ++ t :: q)) {newest : K → ℤ}
    (hl : Leaves writes p newest) : ∃ next : K → ℤ,
      (∀ k n, writes t k n → n = newest k + 1 ∧ next k = n) ∧
      (∀ k, (∀ n, ¬ writes t k n) → next k = newest k) ∧ Leaves writes (p ++ [t]) next := by
  classical
  have ht : t ∈ p ++ t :: q := List.mem_append_right p List.mem_cons_self
  have hnext : ∀ k n, writes t k n → n = newest k + 1 := by
    intro k n hw
    have := h.read_eq hl (h.next t ht k n hw)
    omega
  let next : K → ℤ := fun k => if ∃ n, writes t k n then newest k + 1 else newest k
  have hwrite : ∀ k n, writes t k n → next k = n := by
    intro k n hw
    rw [hnext k n hw]
    exact if_pos ⟨n, hw⟩
  have hkeep : ∀ k, (∀ n, ¬ writes t k n) → next k = newest k :=
    fun k hk => if_neg fun hex => hk hex.choose hex.choose_spec
  have hge : ∀ k, newest k ≤ next k := by
    intro k
    change newest k ≤ if ∃ n, writes t k n then newest k + 1 else newest k
    split <;> omega
  refine ⟨next, fun k n hw => ⟨hnext k n hw, hwrite k n hw⟩, hkeep, fun k => ?_,
    fun w hw k n hwrites => ?_, fun k => (hl.nonneg k).trans (hge k)⟩
  · by_cases hw : ∃ n, writes t k n
    · obtain ⟨n, hw⟩ := hw
      right
      exact ⟨t, List.mem_append_right p (List.mem_singleton.mpr rfl), hwrite k n hw ▸ hw⟩
    · rw [hkeep k (not_exists.mp hw)]
      apply (hl.written k).imp_right
      rintro ⟨w, hw, hwrites⟩
      exact ⟨w, List.mem_append_left _ hw, hwrites⟩
  · rcases List.mem_append.mp hw with hw | hw
    · exact (hl.le w hw k n hwrites).trans (hge k)
    · obtain rfl := List.mem_singleton.mp hw
      exact (hwrite k n hwrites).ge

theorem serial (h : Ranked reads writes rank (p ++ q)) {newest : K → ℤ}
    (hl : Leaves writes p newest) :
    ∃ last, Serial reads writes newest q last ∧ Leaves writes (p ++ q) last := by
  induction q generalizing p newest with
  | nil =>
    rw [List.append_nil]
    exact ⟨newest, .nil newest, hl⟩
  | cons t q ih =>
    obtain ⟨next, hwrite, hkeep, hnext⟩ := h.leaves_concat hl
    rw [List.append_cons] at h ⊢
    obtain ⟨last, hserial, hlast⟩ := ih h hnext
    rw [← List.append_cons] at h
    refine ⟨last, ?_, hlast⟩
    exact .cons (fun k n hr => h.read_eq hl hr) hwrite hkeep hserial

end Ranked

section

variable {α : Type} [LinearOrder α]

theorem exists_stable [DecidableEq T] {d : List T} (hd : d.Nodup) (ts : T → α) :
    ∃ l : List T, l.Perm d ∧
      l.Pairwise fun t t' => toLex (ts t, d.idxOf t) < toLex (ts t', d.idxOf t') := by
  let rank : T → α ×ₗ ℕ := fun t => toLex (ts t, d.idxOf t)
  let r : T → T → Prop := fun t t' => rank t ≤ rank t'
  have htotal : Std.Total r := ⟨fun t t' => le_total (rank t) (rank t')⟩
  have htrans : IsTrans T r := ⟨fun _ _ _ => le_trans⟩
  have hperm : (d.insertionSort r).Perm d := List.perm_insertionSort r d
  refine ⟨d.insertionSort r, hperm, ?_⟩
  have hle : (d.insertionSort r).Pairwise r := List.pairwise_insertionSort r d
  have hne : (d.insertionSort r).Pairwise (· ≠ ·) := hperm.nodup_iff.mpr hd
  refine (hle.and hne).imp_of_mem ?_
  intro t t' ht ht' hlt
  refine lt_of_le_of_ne hlt.1 fun heq => hlt.2 ?_
  have hidx : d.idxOf t = d.idxOf t' := congrArg (fun x : α ×ₗ ℕ => (ofLex x).2) heq
  exact (List.idxOf_inj (hperm.mem_iff.mp ht)).mp hidx

/-- Transactions that commit in the order `d` run one after another in the order of their
timestamps, if no one reads from a later one, or from one with a later timestamp, and all that
replace what it reads have later timestamps. -/
theorem exists_serial {reads writes : T → K → ℤ → Prop} {d : List T} {ts : T → α} (hd : d.Nodup)
    (hfrom : d.Pairwise fun t w => ¬ ReadsFrom reads writes t w)
    (hnonneg : ∀ t ∈ d, ∀ k n, reads t k n → 0 ≤ n)
    (hafter : ∀ t ∈ d, ∀ k n, reads t k n → 0 < n → ∃ w ∈ d, writes w k n ∧ w ≠ t ∧ ts w ≤ ts t)
    (hbefore : ∀ t ∈ d, ∀ k n, reads t k n → ∀ w ∈ d, writes w k (n + 1) → w = t ∨ ts t < ts w)
    (hnext : ∀ t ∈ d, ∀ k n, writes t k n → reads t k (n - 1)) :
    ∃ l last, l.Perm d ∧ (l.Pairwise fun t t' => ts t ≤ ts t') ∧
      Serial reads writes (fun _ => 0) l last ∧ Leaves writes l last := by
  classical
  obtain ⟨l, hperm, hsorted⟩ := exists_stable hd ts
  have hmem : ∀ {t}, t ∈ l ↔ t ∈ d := hperm.mem_iff
  have hidx : ∀ t ∈ d, ∀ w ∈ d, ReadsFrom reads writes t w → w ≠ t → d.idxOf w < d.idxOf t := by
    intro t ht w hw hrf hne
    by_contra hle
    have hlt : d.idxOf t < d.idxOf w := by
      refine lt_of_le_of_ne (not_lt.mp hle) fun heq => hne ?_
      exact ((List.idxOf_inj ht).mp heq).symm
    have hpair := List.pairwise_iff_getElem.mp hfrom (d.idxOf t) (d.idxOf w)
      (List.idxOf_lt_length_of_mem ht) (List.idxOf_lt_length_of_mem hw) hlt
    rw [List.getElem_idxOf, List.getElem_idxOf] at hpair
    exact hpair hrf
  have hranked : Ranked reads writes (fun t => toLex (ts t, d.idxOf t)) ([] ++ l) := by
    refine ⟨hsorted, fun t ht k n hr => ?_, fun t ht k n hr hpos => ?_,
      fun t ht k n hr w hw hwrites => ?_, fun t ht k n hw => ?_⟩
    · exact hnonneg t (hmem.mp ht) k n hr
    · obtain ⟨w, hw, hwrites, hne, hle⟩ := hafter t (hmem.mp ht) k n hr hpos
      refine ⟨w, hmem.mpr hw, hwrites, Prod.Lex.toLex_lt_toLex.mpr ?_⟩
      rcases hle.lt_or_eq with hlt | heq
      · exact Or.inl hlt
      · exact Or.inr ⟨heq, hidx t (hmem.mp ht) w hw ⟨k, n, hr, hwrites⟩ hne⟩
    · apply (hbefore t (hmem.mp ht) k n hr w (hmem.mp hw) hwrites).imp_right
      exact fun hlt => Prod.Lex.toLex_lt_toLex.mpr (Or.inl hlt)
    · exact hnext t (hmem.mp ht) k n hw
  have hempty : Leaves writes ([] : List T) fun _ => 0 :=
    ⟨fun _ => Or.inl rfl, fun t ht => absurd ht List.not_mem_nil, fun _ => le_rfl⟩
  obtain ⟨last, hserial, hleaves⟩ := hranked.serial hempty
  refine ⟨l, last, hperm, hsorted.imp fun hlt => ?_, hserial, hleaves⟩
  rcases Prod.Lex.toLex_lt_toLex.mp hlt with hlt | ⟨heq, -⟩
  · exact hlt.le
  · exact heq.le

end

end Fugue
