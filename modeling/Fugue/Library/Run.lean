import Mathlib.Data.List.Basic
import Mathlib.Tactic.Common

namespace Fugue

section

variable {σ α : Type} (step : σ → α → Option σ)

def run : σ → List α → Option σ
  | s, [] => some s
  | s, a :: as => (step s a).bind fun s' => run s' as

/-- Every action of the run meets `ok` in the state it is taken in. -/
def Along (ok : σ → α → Prop) : σ → List α → Prop
  | _, [] => True
  | s, a :: as => ok s a ∧ ∀ s', step s a = some s' → Along ok s' as

def decideAlong (ok : σ → α → Prop) [∀ s a, Decidable (ok s a)] :
    (s : σ) → (as : List α) → Decidable (Along step ok s as)
  | _, [] => .isTrue trivial
  | s, a :: as =>
    match h : step s a with
    | some s' =>
      have := decideAlong ok s' as
      decidable_of_iff (ok s a ∧ Along step ok s' as) (by simp [Along, h])
    | none => decidable_of_iff (ok s a) (by simp [Along, h])

instance (ok : σ → α → Prop) [∀ s a, Decidable (ok s a)] (s : σ) (as : List α) :
    Decidable (Along step ok s as) :=
  decideAlong step ok s as

@[simp] theorem run_nil (s : σ) : run step s [] = some s := rfl

variable {step}

theorem run_cons {s s' : σ} {a : α} {as : List α} :
    run step s (a :: as) = some s' ↔ ∃ t, step s a = some t ∧ run step t as = some s' :=
  Option.bind_eq_some_iff

theorem run_append {s s' : σ} {as bs : List α} :
    run step s (as ++ bs) = some s' ↔ ∃ t, run step s as = some t ∧ run step t bs = some s' := by
  induction as generalizing s with
  | nil => simp
  | cons a as ih =>
    rw [List.cons_append, run_cons]
    simp only [ih, run_cons]
    constructor
    · rintro ⟨t, ht, u, hu, hb⟩; exact ⟨u, ⟨t, ht, hu⟩, hb⟩
    · rintro ⟨u, ⟨t, ht, hu⟩, hb⟩; exact ⟨t, ht, u, hu, hb⟩

theorem run_concat {s s' : σ} {as : List α} {a : α} :
    run step s (as ++ [a]) = some s' ↔ ∃ t, run step s as = some t ∧ step t a = some s' := by
  rw [run_append]
  simp only [run_cons, run_nil, Option.some.injEq, exists_eq_right]

theorem exists_run_along {ok : σ → α → Prop} (hstep : ∀ s a, ok s a → ∃ s', step s a = some s')
    {s : σ} {as : List α} (hok : Along step ok s as) : ∃ s', run step s as = some s' := by
  induction as generalizing s with
  | nil => exact ⟨s, rfl⟩
  | cons a as ih =>
    obtain ⟨t, ht⟩ := hstep s a hok.1
    obtain ⟨s', hr⟩ := ih (hok.2 t ht)
    exact ⟨s', run_cons.mpr ⟨t, ht, hr⟩⟩

theorem run_invariant_along {ok : σ → α → Prop} {I : σ → Prop}
    (hstep : ∀ s a s', ok s a → I s → step s a = some s' → I s')
    {s s' : σ} {as : List α} (hok : Along step ok s as) (hs : I s)
    (h : run step s as = some s') : I s' := by
  induction as generalizing s with
  | nil => exact Option.some.inj h ▸ hs
  | cons a as ih =>
    obtain ⟨t, ht, hr⟩ := run_cons.mp h
    exact ih (hok.2 t ht) (hstep s a t hok.1 hs ht) hr

theorem run_invariant {I : σ → Prop} (hstep : ∀ s a s', I s → step s a = some s' → I s')
    {s s' : σ} {as : List α} (hs : I s) (h : run step s as = some s') : I s' := by
  induction as generalizing s with
  | nil => exact Option.some.inj h ▸ hs
  | cons a as ih =>
    obtain ⟨t, ht, hr⟩ := run_cons.mp h
    exact ih (hstep s a t hs ht) hr

theorem run_invariant_of_mem {I : σ → Prop} {s s' : σ} {as : List α}
    (hstep : ∀ t a t', a ∈ as → I t → step t a = some t' → I t') (hs : I s)
    (h : run step s as = some s') : I s' := by
  induction as generalizing s with
  | nil => exact Option.some.inj h ▸ hs
  | cons a as ih =>
    obtain ⟨t, ht, hr⟩ := run_cons.mp h
    apply ih _ _ hr
    · exact fun u b u' hb => hstep u b u' (List.mem_cons_of_mem _ hb)
    · exact hstep s a t List.mem_cons_self hs ht

theorem run_simulation {τ : Type} {step' : τ → α → Option τ} {R : σ → τ → Prop}
    (hstep : ∀ s t a s', R s t → step s a = some s' → ∃ t', step' t a = some t' ∧ R s' t')
    {s s' : σ} {t : τ} {as : List α} (hR : R s t) (h : run step s as = some s') :
    ∃ t', run step' t as = some t' ∧ R s' t' := by
  induction as generalizing s t with
  | nil => exact ⟨t, rfl, Option.some.inj h ▸ hR⟩
  | cons a as ih =>
    obtain ⟨u, hu, hr⟩ := run_cons.mp h
    obtain ⟨v, hv, hR'⟩ := hstep s t a u hR hu
    obtain ⟨t', ht', hR''⟩ := ih hR' hr
    exact ⟨t', run_cons.mpr ⟨v, hv, ht'⟩, hR''⟩

theorem run_map_eq {τ β : Type} {step' : τ → α → Option τ} {f : σ → β} {g : τ → β}
    {s : σ} {t : τ} {as : List α}
    (hst : ∀ s', run step s as = some s' → ∃ t', run step' t as = some t' ∧ g t' = f s')
    (hts : ∀ t', run step' t as = some t' → ∃ s', run step s as = some s' ∧ f s' = g t') :
    (run step' t as).map g = (run step s as).map f := by
  cases hs : run step s as with
  | some s' =>
    obtain ⟨t', ht', hg⟩ := hst s' hs
    rw [ht', Option.map_some, Option.map_some, hg]
  | none =>
    cases ht : run step' t as with
    | none => rfl
    | some t' =>
      obtain ⟨s', hs', -⟩ := hts t' ht
      rw [hs] at hs'
      cases hs'

/-- A run meets `ok` if each of its actions does in the state that the actions before it reach. -/
theorem along_iff_split {ok : σ → α → Prop} {s : σ} {as : List α} : Along step ok s as ↔
    ∀ pre a post t, as = pre ++ a :: post → run step s pre = some t → ok t a := by
  induction as generalizing s with
  | nil =>
    refine ⟨fun _ pre a post t heq => ?_, fun _ => trivial⟩
    simp at heq
  | cons b as ih =>
    constructor
    · rintro ⟨hb, hal⟩ pre a post t heq ht
      cases pre with
      | nil =>
        obtain ⟨rfl, -⟩ := List.cons.inj heq
        exact Option.some.inj ht ▸ hb
      | cons c pre =>
        obtain ⟨rfl, rfl⟩ := List.cons.inj heq
        obtain ⟨u, hu, ht⟩ := run_cons.mp ht
        exact ih.mp (hal u hu) pre a post t rfl ht
    · intro hall
      refine ⟨hall [] b as s rfl rfl, fun u hu => ih.mpr fun pre a post t heq ht => ?_⟩
      exact hall (b :: pre) a post t (congrArg (b :: ·) heq) (run_cons.mpr ⟨u, hu, ht⟩)

/-- Where the steps that meet `ok` keep the invariant `I`, and the others leave `P`, which the
invariant implies, all steps of a run meet `ok` if and only if all its states meet `P`. -/
theorem along_iff_forall {ok : σ → α → Prop} {I P : σ → Prop} (hP : ∀ s, I s → P s)
    (hkeep : ∀ s a s', ok s a → I s → step s a = some s' → I s')
    (hleave : ∀ s a s', I s → step s a = some s' → P s' → ok s a)
    {s s' : σ} {as : List α} (hs : I s) (h : run step s as = some s') :
    Along step ok s as ↔ ∀ pre post t, as = pre ++ post → run step s pre = some t → P t := by
  induction as generalizing s with
  | nil =>
    refine ⟨fun _ pre post t heq ht => ?_, fun _ => trivial⟩
    obtain ⟨rfl, -⟩ := List.append_eq_nil_iff.mp heq.symm
    exact Option.some.inj ht ▸ hP s hs
  | cons a as ih =>
    obtain ⟨u, hu, hr⟩ := run_cons.mp h
    constructor
    · rintro ⟨ha, hal⟩ pre post t heq ht
      have hinv := hkeep s a u ha hs hu
      cases pre with
      | nil => exact Option.some.inj ht ▸ hP s hs
      | cons b pre =>
        obtain ⟨rfl, rfl⟩ := List.cons.inj heq
        obtain ⟨v, hv, ht⟩ := run_cons.mp ht
        obtain rfl := Option.some.inj (hu.symm.trans hv)
        exact (ih hinv hr).mp (hal u hu) pre post t rfl ht
    · intro hall
      have ha : ok s a := hleave s a u hs hu (hall [a] as u rfl (run_cons.mpr ⟨u, hu, rfl⟩))
      refine ⟨ha, fun v hv => ?_⟩
      obtain rfl := Option.some.inj (hu.symm.trans hv)
      refine (ih (hkeep s a u ha hs hu) hr).mpr fun pre post t heq ht => ?_
      exact hall (a :: pre) post t (congrArg (a :: ·) heq) (run_cons.mpr ⟨u, hu, ht⟩)

/-- Where each step keeps the invariant just when it meets `ok`, all steps of a run do if and only
if the invariant holds in all the states that the run passes. -/
theorem along_iff {ok : σ → α → Prop} {I : σ → Prop}
    (hstep : ∀ s a s', I s → step s a = some s' → (I s' ↔ ok s a))
    {s s' : σ} {as : List α} (hs : I s) (h : run step s as = some s') :
    Along step ok s as ↔ ∀ pre post t, as = pre ++ post → run step s pre = some t → I t :=
  along_iff_forall (fun _ hi => hi) (fun s a s' ha hi hu => (hstep s a s' hi hu).mpr ha)
    (fun s a s' hi hu => (hstep s a s' hi hu).mp) hs h

end

end Fugue
