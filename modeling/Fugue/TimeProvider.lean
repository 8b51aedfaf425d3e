import Fugue.Library.Run
import Fugue.LocalServices
import Mathlib.Data.Int.Order.Basic
import Mathlib.Tactic.Common

namespace Fugue

inductive TimeCall
  | getTime
  | setTime (time : Int64)
  deriving DecidableEq

structure TimeHistory where
  provider : LocalTimeProvider
  returned : List ℤ

namespace TimeHistory

def init (clock : ℕ → Int64) : TimeHistory := ⟨.ofClock fun n => (clock n).toInt, []⟩

def after (h : TimeHistory) : TimeCall → TimeHistory
  | .getTime => ⟨h.provider.getTime.2, h.returned ++ [h.provider.getTime.1]⟩
  | .setTime time => { h with provider := h.provider.setTime time.toInt }

/-- `time_value_ + count_` before the call. -/
def upcoming (h : TimeHistory) : ℤ := h.provider.timeValue + h.provider.count

/-- The sum that the call computes does not overflow. A `GetTime` that reads the clock drops
`count_` before it adds it. -/
def Defined (h : TimeHistory) (c : TimeCall) : Prop :=
  c = .getTime ∧ h.provider.count = timeProviderInterval ∨ h.upcoming ≤ int64Max

instance (h : TimeHistory) (c : TimeCall) : Decidable (Defined h c) :=
  inferInstanceAs (Decidable (_ ∨ _))

/-- An `int64_t` sum that overflows has no defined value. -/
def step (h : TimeHistory) (c : TimeCall) : Option TimeHistory :=
  if Defined h c then some (h.after c) else none

def Increasing (h : TimeHistory) : Prop := h.returned.Pairwise (· < ·)

/-- A `GetTime` that reads the clock finds that the clock has caught up. -/
def Refreshes (h : TimeHistory) (c : TimeCall) : Prop :=
  c = .getTime → h.provider.count = timeProviderInterval → h.upcoming ≤ h.provider.clock 0

structure Ordered (h : TimeHistory) : Prop where
  count : 0 ≤ h.provider.count
  increasing : h.Increasing
  lt : ∀ v ∈ h.returned, v < h.upcoming
  last : 0 < h.provider.count → h.upcoming - 1 ∈ h.returned

variable {h h' : TimeHistory} {c : TimeCall}

theorem step_eq_some : step h c = some h' ↔ Defined h c ∧ h.after c = h' := by
  unfold step
  split <;> simp [*]

theorem increasing_concat {l : List ℤ} {t : ℤ} :
    (l ++ [t]).Pairwise (· < ·) ↔ l.Pairwise (· < ·) ∧ ∀ v ∈ l, v < t := by
  rw [List.pairwise_append]
  simp

theorem getTime_of_eq (hc : h.provider.count = timeProviderInterval) :
    h.provider.getTime.1 = max h.provider.timeValue (h.provider.clock 0) ∧
      (h.after .getTime).provider.count = 1 ∧
      (h.after .getTime).upcoming = h.provider.getTime.1 + 1 := by
  simp [upcoming, after, LocalTimeProvider.getTime, hc]

theorem getTime_of_ne (hc : h.provider.count ≠ timeProviderInterval) :
    h.provider.getTime.1 = h.upcoming ∧
      (h.after .getTime).provider.count = h.provider.count + 1 ∧
      (h.after .getTime).upcoming = h.provider.getTime.1 + 1 := by
  simp only [upcoming, after, LocalTimeProvider.getTime, if_neg hc, Int.add_assoc, and_self]

namespace Ordered

theorem init (clock : ℕ → Int64) : Ordered (init clock) := by
  constructor
  · exact Int.le_refl 0
  · exact List.Pairwise.nil
  · simp [TimeHistory.init]
  · exact fun hlt => absurd hlt (Int.lt_irrefl 0)

theorem getTime (hh : Ordered h) (hle : h.upcoming ≤ h.provider.getTime.1) :
    Ordered (h.after .getTime) := by
  have hnext : 0 ≤ (h.after .getTime).provider.count ∧
      (h.after .getTime).upcoming = h.provider.getTime.1 + 1 := by
    have hcount := hh.count
    by_cases hc : h.provider.count = timeProviderInterval
    · obtain ⟨-, hone, hup⟩ := getTime_of_eq hc
      exact ⟨by omega, hup⟩
    · obtain ⟨-, hsucc, hup⟩ := getTime_of_ne hc
      exact ⟨by omega, hup⟩
  have hlt : ∀ v ∈ h.returned, v < h.provider.getTime.1 :=
    fun v hv => Int.lt_of_lt_of_le (hh.lt v hv) hle
  refine ⟨hnext.1, increasing_concat.mpr ⟨hh.increasing, hlt⟩, fun v hv => ?_, fun _ => ?_⟩
  · rw [hnext.2]
    rcases List.mem_append.mp hv with hv | hv
    · have := hlt v hv
      omega
    · rw [List.mem_singleton.mp hv]
      exact Int.lt_succ _
  · rw [hnext.2, Int.add_sub_cancel]
    exact List.mem_append_right _ List.mem_cons_self

theorem setTime (hh : Ordered h) (time : Int64) : Ordered (h.after (.setTime time)) := by
  refine ⟨Int.le_refl 0, hh.increasing, fun v hv => ?_, fun hlt => absurd hlt (Int.lt_irrefl 0)⟩
  have hv := hh.lt v hv
  have hmax := Int.le_max_left h.upcoming time.toInt
  change v < max h.upcoming time.toInt + 0
  omega

theorem after (hh : Ordered h) (hc : Refreshes h c) : Ordered (h.after c) := by
  cases c with
  | setTime time => exact hh.setTime time
  | getTime =>
    apply hh.getTime
    by_cases heq : h.provider.count = timeProviderInterval
    · rw [(getTime_of_eq heq).1]
      exact Int.le_trans (hc rfl heq) (Int.le_max_right _ _)
    · exact (getTime_of_ne heq).1.ge

/-- A refresh that drops the count returns something that was returned before, or less. -/
theorem refreshes (hh : Ordered h) (hi : (h.after c).Increasing) : Refreshes h c := by
  rintro rfl heq
  have hpos : 0 < h.provider.count := by
    rw [heq]
    decide
  have hlt := (increasing_concat.mp hi).2 _ (hh.last hpos)
  rw [(getTime_of_eq heq).1] at hlt
  unfold upcoming at hlt ⊢
  omega

end Ordered

theorem returned_extends {calls : List TimeCall} (hr : run step h calls = some h') :
    h.returned <+: h'.returned := by
  apply run_invariant (I := fun z => h.returned <+: z.returned) _ List.prefix_rfl hr
  intro z c z' hz hs
  obtain ⟨-, rfl⟩ := step_eq_some.mp hs
  cases c with
  | getTime => exact hz.trans (List.prefix_append _ _)
  | setTime time => exact hz

structure Ranged (h : TimeHistory) : Prop where
  timeValue : InInt64 h.provider.timeValue
  count : 0 ≤ h.provider.count ∧ h.provider.count ≤ timeProviderInterval
  clock : ∀ n, InInt64 (h.provider.clock n)
  returned : ∀ v ∈ h.returned, InInt64 v

theorem inInt64_toInt (x : Int64) : InInt64 x.toInt := by
  have hle := x.le_toInt
  have hlt := x.toInt_lt
  constructor <;> unfold int64Max <;> omega

theorem inInt64_max {a b : ℤ} (ha : InInt64 a) (hb : InInt64 b) : InInt64 (max a b) := by
  unfold InInt64 at *
  omega

theorem Ranged.after (hh : Ranged h) (hd : Defined h c) : Ranged (h.after c) := by
  obtain ⟨htime, ⟨hpos, hle⟩, hclock, hret⟩ := hh
  have hsum : h.upcoming ≤ int64Max → InInt64 h.upcoming := by
    intro hmax
    unfold InInt64 upcoming at *
    omega
  cases c with
  | setTime time =>
    have hup := hsum (hd.resolve_left (by simp))
    refine ⟨inInt64_max hup (inInt64_toInt time), ?_, hclock, hret⟩
    exact ⟨Int.le_refl 0, show 0 ≤ timeProviderInterval by decide⟩
  | getTime =>
    have hval : InInt64 h.provider.getTime.1 → ∀ v ∈ (h.after .getTime).returned, InInt64 v := by
      intro hget v hv
      rcases List.mem_append.mp hv with hv | hv
      · exact hret v hv
      · rwa [List.mem_singleton.mp hv]
    by_cases hc : h.provider.count = timeProviderInterval
    · have hmax := inInt64_max htime (hclock 0)
      refine ⟨?_, ?_, fun n => ?_, hval ?_⟩
      · simpa only [TimeHistory.after, LocalTimeProvider.getTime, if_pos hc] using hmax
      · rw [(getTime_of_eq hc).2.1]
        decide
      · simpa only [TimeHistory.after, LocalTimeProvider.getTime, if_pos hc] using hclock (n + 1)
      · rwa [(getTime_of_eq hc).1]
    · have hup := hsum (hd.resolve_left fun hcall => hc hcall.2)
      refine ⟨?_, ?_, fun n => ?_, hval ?_⟩
      · simpa only [TimeHistory.after, LocalTimeProvider.getTime, if_neg hc] using htime
      · rw [(getTime_of_ne hc).2.1]
        omega
      · simpa only [TimeHistory.after, LocalTimeProvider.getTime, if_neg hc] using hclock n
      · rwa [(getTime_of_ne hc).1]

/-- No value of a run is beyond what `int64_t` holds, so that integers stand for them. -/
theorem ranged_of_run {clock : ℕ → Int64} {calls : List TimeCall}
    (hr : run step (init clock) calls = some h) : Ranged h := by
  apply run_invariant (I := Ranged) _ _ hr
  · intro z c z' hz hs
    obtain ⟨hd, rfl⟩ := step_eq_some.mp hs
    exact hz.after hd
  · refine ⟨inInt64_toInt (clock 0), ⟨Int.le_refl 0, ?_⟩, fun n => ?_, ?_⟩
    · exact show 0 ≤ timeProviderInterval by decide
    · exact inInt64_toInt (clock (n + 1))
    · simp [init]

/-- No sum overflows and the returned times increase if and only if no call adds up a sum beyond
`INT64_MAX`, and no `GetTime` reads a clock that has not caught up with the values that were
counted since the last reading. -/
theorem times_increasing (clock : ℕ → Int64) (calls : List TimeCall) :
    (∃ h, run step (init clock) calls = some h ∧ h.Increasing) ↔
      Along step (fun h c => Defined h c ∧ Refreshes h c) (init clock) calls := by
  have hkeep : ∀ h c h', Defined h c ∧ Refreshes h c → Ordered h → step h c = some h' →
      Ordered h' := by
    rintro h c h' ⟨-, hc⟩ hh hs
    obtain ⟨-, rfl⟩ := step_eq_some.mp hs
    exact hh.after hc
  have hleave : ∀ h c h', Ordered h → step h c = some h' → h'.Increasing →
      Defined h c ∧ Refreshes h c := by
    intro h c h' hh hs hi
    obtain ⟨hd, rfl⟩ := step_eq_some.mp hs
    exact ⟨hd, hh.refreshes hi⟩
  constructor
  · rintro ⟨h, hr, hi⟩
    apply (along_iff_forall (fun _ => Ordered.increasing) hkeep hleave (Ordered.init clock) hr).mpr
    rintro pre post t rfl ht
    obtain ⟨u, hu, hpost⟩ := run_append.mp hr
    obtain rfl := Option.some.inj (ht.symm.trans hu)
    exact List.Pairwise.sublist (returned_extends hpost).sublist hi
  · intro hok
    obtain ⟨h, hr⟩ := exists_run_along
      (fun s a ha => ⟨s.after a, step_eq_some.mpr ⟨ha.1, rfl⟩⟩) hok
    exact ⟨h, hr, (run_invariant_along hkeep hok (Ordered.init clock) hr).increasing⟩

theorem counting (clock : ℕ → Int64) (n : ℕ) (hn : n ≤ timeProviderInterval)
    (hmax : (clock 0).toInt + n ≤ int64Max) :
    ∃ h, run step (init clock) (List.replicate n .getTime) = some h ∧ Ordered h ∧
      h.provider = ⟨(clock 0).toInt, n, fun i => (clock (i + 1)).toInt⟩ := by
  induction n with
  | zero => exact ⟨_, rfl, .init clock, rfl⟩
  | succ n ih =>
    rw [Int.natCast_succ] at hn hmax
    obtain ⟨h, hr, hh, hp⟩ := ih (by omega) (by omega)
    have hcount : h.provider.count = n := congrArg LocalTimeProvider.count hp
    have hc : h.provider.count ≠ timeProviderInterval := by omega
    refine ⟨h.after .getTime, ?_, hh.after fun _ heq => absurd heq hc, ?_⟩
    · rw [List.replicate_succ', run_concat]
      refine ⟨h, hr, step_eq_some.mpr ⟨.inr ?_, rfl⟩⟩
      rw [upcoming, hp]
      dsimp only
      omega
    · change (h.provider.getTime).2 = _
      simp only [LocalTimeProvider.getTime, if_neg hc]
      rw [hp, Int.natCast_succ]

/-- A clock that stands still while the thousand values after its reading are used up. -/
theorem times_increasing_stopped : ∃ (clock : ℕ → Int64) (calls : List TimeCall) (h : TimeHistory),
    (∀ m n, m ≤ n → clock m ≤ clock n) ∧ run step (init clock) calls = some h ∧
      ¬ h.Increasing := by
  obtain ⟨n, hn⟩ : ∃ n : ℕ, (n : ℤ) = timeProviderInterval := ⟨1000, rfl⟩
  have hmax : (5 : Int64).toInt + n ≤ int64Max := by
    rw [hn]
    decide
  obtain ⟨h, hr, hh, hp⟩ := counting (fun _ => 5) n (Int.le_of_eq hn) hmax
  have hcount : h.provider.count = timeProviderInterval := by rw [hp, hn]
  refine ⟨fun _ => 5, List.replicate (n + 1) .getTime, h.after .getTime, fun _ _ _ => ?_, ?_, ?_⟩
  · exact Int64.le_refl 5
  · rw [List.replicate_succ', run_concat]
    exact ⟨h, hr, step_eq_some.mpr ⟨.inl ⟨rfl, hcount⟩, rfl⟩⟩
  · intro hi
    have hle := hh.refreshes hi rfl hcount
    rw [upcoming, hp, hn] at hle
    exact absurd hle (by decide)

end TimeHistory

end Fugue
