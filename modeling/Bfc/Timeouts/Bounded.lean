import Bfc.Timeouts.Waits

/-!
# Which waits are bounded

A reactor should not wait longer than until its earliest timer, and `cv_reactor` not longer than its
limit. For the reactors that wait for file descriptors it is so in every state: they clamp what does
not fit. `cv_reactor` multiplies its limit by 1000 as it is, and the product wraps; and `wait_for`
adds what it is given to the time of its clock, in nanoseconds, and the sum wraps. What is stored
may then be negative or zero, or a time that is over, so that the wait ends at once again and again,
or the wait is not what was asked for. `waits_bounded_iff` says in which states this can be told.
-/

namespace Bfc.Timeouts

open Timers

variable {κ : Type*}

/-- What `poll` is given: milliseconds of an `int`, and none that is not left. -/
structure PollBounded (timer : Timer κ) (deadlineUs nowUs : Int) (queueBacklog : Bool) : Prop where
  nonneg : 0 ≤ PollReactor.timeoutMs timer queueBacklog nowUs
  stored : PollReactor.timeoutMs timer queueBacklog nowUs ≤ intMax
  within : 1000 * PollReactor.timeoutMs timer queueBacklog nowUs ≤ remaining deadlineUs nowUs

/-- What `epoll_pwait2` is given: all that is left, in normal form. -/
def EpollExact (timer : Timer κ) (deadlineUs nowUs : Int) : Prop :=
  ∃ ts, EpollReactor.timeoutPtr timer false nowUs = some ts ∧ ts.Normalised ∧
    ts.tvSec * 1000000000 + ts.tvNsec = remaining deadlineUs nowUs * 1000

/-- What `epoll_wait` is given instead: milliseconds of an `int`, that are less than one more than
what is left, and not less than that unless they do not fit. -/
structure EpollBounded (timer : Timer κ) (deadlineUs nowUs : Int) : Prop where
  nonneg : 0 ≤ EpollReactor.timeoutMs (EpollReactor.timeoutPtr timer false nowUs)
  stored : EpollReactor.timeoutMs (EpollReactor.timeoutPtr timer false nowUs) ≤ intMax
  within : 1000 * EpollReactor.timeoutMs (EpollReactor.timeoutPtr timer false nowUs) <
    remaining deadlineUs nowUs + 1000
  whole : EpollReactor.timeoutMs (EpollReactor.timeoutPtr timer false nowUs) = intMax ∨
    remaining deadlineUs nowUs ≤
      1000 * EpollReactor.timeoutMs (EpollReactor.timeoutPtr timer false nowUs)

/-- How long `cv_reactor` waits: not beyond the limit or what is left, and zero only if one of them
is. -/
structure CvBounded (timer : Timer κ) (timeoutMs : UInt64) (deadlineUs nowUs clockNs : Int) :
    Prop where
  nonneg : 0 ≤ CvReactor.timeoutUs timer timeoutMs nowUs
  within : CvReactor.waitNs timer timeoutMs nowUs clockNs ≤
    1000 * min (1000 * (timeoutMs.toNat : Int)) (remaining deadlineUs nowUs)
  waits : CvReactor.waitNs timer timeoutMs nowUs clockNs = 0 → timeoutMs = 0 ∨ deadlineUs ≤ nowUs

/-- Without timers and without a backlog, there is no limit but that of `cv_reactor`. -/
structure IdleWaits (timer : Timer κ) (timeoutMs : UInt64) (nowUs clockNs : Int) : Prop where
  poll : PollReactor.timeoutMs timer false nowUs = -1
  epoll : EpollReactor.timeoutPtr timer false nowUs = none
  epollWait : EpollReactor.timeoutMs (EpollReactor.timeoutPtr timer false nowUs) = -1
  cv : CvReactor.waitNs timer timeoutMs nowUs clockNs = 1000000 * timeoutMs.toNat
  nonneg : 0 ≤ CvReactor.timeoutUs timer timeoutMs nowUs

/-- The waits of the three reactors, in a state of the timer and at a time, where `clockNs` is when
`wait_for` reads the clock. With a backlog, those that have queues do not wait. -/
structure WaitsBounded (timer : Timer κ) (timeoutMs : UInt64) (nowUs clockNs : Int) : Prop where
  poll : ∀ d, Earliest timer d → ∀ queueBacklog, PollBounded timer d nowUs queueBacklog
  epoll : ∀ d, Earliest timer d → EpollExact timer d nowUs ∧ EpollBounded timer d nowUs
  backlog : PollReactor.timeoutMs timer true nowUs = 0 ∧
    EpollReactor.timeoutPtr timer true nowUs = some {} ∧ EpollReactor.timeoutMs (some {}) = 0
  cv : ∀ d, Earliest timer d → CvBounded timer timeoutMs d nowUs clockNs
  idle : timer.cbMap.keys = [] → IdleWaits timer timeoutMs nowUs clockNs

/-- The product of the limit is not stored as a negative number, and the lesser of it and what is
left, in nanoseconds modulo 2^64, is some time, and such that the clock has the time after it. -/
def LimitStored (timeoutMs : UInt64) (deadlineUs nowUs clockNs : Int) : Prop :=
  1000 * timeoutMs.toNat % 2 ^ 64 < 2 ^ 63 ∧
    0 < 1000 * min (deadlineUs - nowUs) (1000 * timeoutMs.toNat % 2 ^ 64 : Nat) % 2 ^ 64 ∧
      clockNs + 1000 * min (deadlineUs - nowUs) (1000 * timeoutMs.toNat % 2 ^ 64 : Nat) % 2 ^ 64 <
        2 ^ 63

/-- When the limit does what it should: while no timer is pending, the clock has the time after it,
and before the deadline of one, it is zero or stored right. -/
structure LimitFits (timer : Timer κ) (timeoutMs : UInt64) (nowUs clockNs : Int) : Prop where
  idle : timer.cbMap.keys = [] → clockNs + 1000000 * timeoutMs.toNat < 2 ^ 63
  before : ∀ d, Earliest timer d →
    d ≤ nowUs ∨ timeoutMs = 0 ∨ LimitStored timeoutMs d nowUs clockNs

theorem eq_zero_iff {timeoutMs : UInt64} : timeoutMs = 0 ↔ 1000 * timeoutMs.toNat = 0 := by
  rw [← UInt64.toNat_inj, UInt64.toNat_zero]
  omega

/-- The limits that do so in every state, when the clock is read at `clockNs`. -/
theorem limitFits_iff {timeoutMs : UInt64} {clockNs : Int} (clock : IsTime clockNs) :
    (∀ (timer : Timer κ) (nowUs : Int), LimitFits timer timeoutMs nowUs clockNs) ↔
      clockNs + 1000000 * timeoutMs.toNat < 2 ^ 63 := by
  constructor
  · intro fits
    exact (fits {} 0).idle rfl
  · intro small timer nowUs
    refine ⟨fun _ => small, fun d _ => ?_⟩
    have start := clock.nonneg
    by_cases past : d ≤ nowUs
    · exact .inl past
    · refine .inr ?_
      rw [eq_zero_iff, LimitStored]
      have product : 1000000 * (timeoutMs.toNat : Int) = 1000 * (1000 * timeoutMs.toNat : Nat) := by
        omega
      rw [product] at small
      generalize 1000 * timeoutMs.toNat = limit at small
      have stored : limit % 2 ^ 64 = limit := Nat.mod_eq_of_lt (by omega)
      rw [stored, Int.emod_eq_of_lt (by omega) (by omega)]
      omega

variable {timer : Timer κ} {deadlineUs nowUs clockNs : Int}

/-- Seconds and nanoseconds of what is left are in normal form. -/
theorem normalised_remaining (deadlineUs nowUs : Int) :
    Timespec.Normalised
      { tvSec := remaining deadlineUs nowUs / 1000000
        tvNsec := remaining deadlineUs nowUs % 1000000 * 1000 } := by
  have nonneg : 0 ≤ remaining deadlineUs nowUs := le_max_left _ _
  refine ⟨?_, ?_, ?_⟩
  · show 0 ≤ remaining deadlineUs nowUs / 1000000
    omega
  · show 0 ≤ remaining deadlineUs nowUs % 1000000 * 1000
    omega
  · show remaining deadlineUs nowUs % 1000000 * 1000 < 1000000000
    omega

section Bounds

variable (deadline : IsTime deadlineUs) (now : IsTime nowUs) (earliest : Earliest timer deadlineUs)

include deadline now earliest

theorem pollBounded (queueBacklog : Bool) :
    PollBounded timer deadlineUs nowUs queueBacklog := by
  have nonneg : 0 ≤ remaining deadlineUs nowUs := le_max_left _ _
  have bounds : ∀ ms, ms = 0 ∨ ms = min (remaining deadlineUs nowUs / 1000) intMax →
      0 ≤ ms ∧ ms ≤ intMax ∧ 1000 * ms ≤ remaining deadlineUs nowUs := by
    unfold intMax
    omega
  have value : PollReactor.timeoutMs timer queueBacklog nowUs = 0 ∨
      PollReactor.timeoutMs timer queueBacklog nowUs =
        min (remaining deadlineUs nowUs / 1000) intMax := by
    cases queueBacklog with
    | true => exact .inl rfl
    | false => exact .inr (PollReactor.timeoutMs_eq deadline now earliest)
  obtain ⟨nonneg, stored, within⟩ := bounds _ value
  exact ⟨nonneg, stored, within⟩

theorem epollExact : EpollExact timer deadlineUs nowUs := by
  refine ⟨_, EpollReactor.timeoutPtr_eq deadline now earliest,
    normalised_remaining deadlineUs nowUs, ?_⟩
  show remaining deadlineUs nowUs / 1000000 * 1000000000 +
    remaining deadlineUs nowUs % 1000000 * 1000 = _
  omega

theorem epollBounded : EpollBounded timer deadlineUs nowUs := by
  have nonneg : 0 ≤ remaining deadlineUs nowUs := le_max_left _ _
  have stored : remaining deadlineUs nowUs < 2 ^ 63 := by
    obtain ⟨-, upper⟩ := deadline
    obtain ⟨lower, -⟩ := now
    unfold remaining
    omega
  have value := EpollReactor.timeoutMs_eq (normalised_remaining deadlineUs nowUs)
    (show remaining deadlineUs nowUs / 1000000 * 1000 + 1000 < 2 ^ 63 by omega)
  rw [← EpollReactor.timeoutPtr_eq deadline now earliest] at value
  have bounds : ∀ ms, ms = min (remaining deadlineUs nowUs / 1000000 * 1000 +
      (remaining deadlineUs nowUs % 1000000 * 1000 + 999999) / 1000000) intMax →
      0 ≤ ms ∧ ms ≤ intMax ∧ 1000 * ms < remaining deadlineUs nowUs + 1000 ∧
        (ms = intMax ∨ remaining deadlineUs nowUs ≤ 1000 * ms) := by
    unfold intMax
    omega
  obtain ⟨nonneg, stored, within, whole⟩ := bounds _ value
  exact ⟨nonneg, stored, within, whole⟩

/-- `cv_reactor` waits before a deadline only if the limit is zero or stored right. -/
theorem fits_of_cvBounded (timeoutMs : UInt64)
    (bounded : CvBounded timer timeoutMs deadlineUs nowUs clockNs) (clock : IsTime clockNs) :
    deadlineUs ≤ nowUs ∨ timeoutMs = 0 ∨ LimitStored timeoutMs deadlineUs nowUs clockNs := by
  have value := CvReactor.timeoutUs_eq deadline now earliest timeoutMs
  have limit := int64_natCast (1000 * timeoutMs.toNat)
  obtain ⟨nonneg, -, waits⟩ := bounded
  by_cases past : deadlineUs ≤ nowUs
  · exact .inl past
  · refine .inr ?_
    rw [CvReactor.waitNs, waitForNs_eq] at waits
    rw [value, if_neg past] at nonneg waits
    rw [eq_zero_iff] at waits ⊢
    rw [LimitStored]
    generalize 1000 * timeoutMs.toNat = us at nonneg waits limit ⊢
    -- the product is stored as it is, but for a multiple of 2^64
    have stored : int64 us = (us % 2 ^ 64 : Nat) ∧ us % 2 ^ 64 < 2 ^ 63 := by omega
    rw [stored.1] at waits
    by_cases zero : us % 2 ^ 64 = 0
    · refine .inl ((waits ?_).resolve_right past)
      have nothing : min (deadlineUs - nowUs) ((us % 2 ^ 64 : Nat) : Int) = 0 := by omega
      rw [nothing, Int.mul_zero, Int.add_zero, int64_eq clock.nonneg clock.stored, Int.sub_self]
      rfl
    · by_cases noWait : us = 0
      · exact .inl noWait
      · refine .inr ⟨stored.2, (int64_later clock _).mp ?_⟩
        by_contra ended
        exact (waits (max_eq_left (by omega))).elim noWait past

/-- And it is bounded then. -/
theorem cvBounded_of_fits (timeoutMs : UInt64) (clock : IsTime clockNs)
    (fits : deadlineUs ≤ nowUs ∨ timeoutMs = 0 ∨
      LimitStored timeoutMs deadlineUs nowUs clockNs) :
    CvBounded timer timeoutMs deadlineUs nowUs clockNs := by
  have value := CvReactor.timeoutUs_eq deadline now earliest timeoutMs
  have limit := int64_natCast (1000 * timeoutMs.toNat)
  have within : ∀ {us : Int}, CvReactor.timeoutUs timer timeoutMs nowUs = us → 0 ≤ us →
      us ≤ min (1000 * (timeoutMs.toNat : Int)) (remaining deadlineUs nowUs) →
      CvReactor.waitNs timer timeoutMs nowUs clockNs ≤
        1000 * min (1000 * (timeoutMs.toNat : Int)) (remaining deadlineUs nowUs) := by
    rintro us rfl nonneg least
    have most := waitForNs_le nonneg clock
    rw [CvReactor.waitNs]
    omega
  by_cases past : deadlineUs ≤ nowUs
  · rw [if_pos past] at value
    have nothing : remaining deadlineUs nowUs = 0 := max_eq_left (by omega)
    exact ⟨by omega, within value (Int.le_refl 0) (by rw [nothing]; omega), fun _ => .inr past⟩
  · rw [if_neg past] at value
    have remains : remaining deadlineUs nowUs = deadlineUs - nowUs := max_eq_right (by omega)
    rcases fits.resolve_left past with unlimited | ⟨small, later⟩
    · have product := eq_zero_iff.mp unlimited
      have zero : CvReactor.timeoutUs timer timeoutMs nowUs = 0 := by omega
      refine ⟨by omega, within zero (Int.le_refl 0) ?_, fun _ => .inl unlimited⟩
      rw [remains]
      omega
    · rw [← int64_later clock] at later
      obtain ⟨stored, -⟩ := limit.resolve_right fun wraps => Nat.not_lt.mpr wraps.2 small
      rw [stored] at value
      refine ⟨by omega, within value (by omega) ?_, fun noWait => ?_⟩
      · rw [remains]
        omega
      · rw [CvReactor.waitNs, waitForNs_eq, value] at noWait
        omega

end Bounds

/-- `cv_reactor` without timers. -/
theorem idleWaits_iff (idle : timer.cbMap.keys = []) (timeoutMs : UInt64) (nowUs : Int)
    (clock : IsTime clockNs) :
    IdleWaits timer timeoutMs nowUs clockNs ↔ clockNs + 1000000 * timeoutMs.toNat < 2 ^ 63 := by
  have unset := getNextDeadlineUs_none idle
  have value := CvReactor.waitNs_idle idle timeoutMs nowUs clockNs
  obtain ⟨lower, upper⟩ := clock
  constructor
  · intro waits
    have stored := int64_lt (clockNs + 1000000 * timeoutMs.toNat)
    rw [waits.cv] at value
    omega
  · intro fits
    refine ⟨?_, ?_, ?_, ?_, ?_⟩
    · rw [PollReactor.timeoutMs, unset]
      rfl
    · rw [EpollReactor.timeoutPtr, unset]
      rfl
    · rw [EpollReactor.timeoutPtr, unset]
      rfl
    · rw [value, int64_eq (by omega) fits]
      omega
    · rw [CvReactor.timeoutUs_idle idle, int64_eq (by omega) (by omega)]
      omega

/-- **When the waits are bounded.** At every time that is not negative, if the earliest deadline is
not: if and only if the limit of `cv_reactor` fits. -/
theorem waits_bounded_iff {timer : Timer κ} (timeoutMs : UInt64) {nowUs clockNs : Int}
    (now : IsTime nowUs) (clock : IsTime clockNs) (time : ∀ d, Earliest timer d → IsTime d) :
    WaitsBounded timer timeoutMs nowUs clockNs ↔ LimitFits timer timeoutMs nowUs clockNs := by
  constructor
  · intro bounded
    exact {
      idle := fun idle => (idleWaits_iff idle timeoutMs nowUs clock).mp (bounded.idle idle)
      before := fun d h => fits_of_cvBounded (time d h) now h timeoutMs (bounded.cv d h) clock }
  · intro fits
    exact {
      poll := fun d h queueBacklog => pollBounded (time d h) now h queueBacklog
      epoll := fun d h => ⟨epollExact (time d h) now h, epollBounded (time d h) now h⟩
      backlog := ⟨rfl, rfl, rfl⟩
      cv := fun d h => cvBounded_of_fits (time d h) now h timeoutMs clock (fits.before d h)
      idle := fun idle => (idleWaits_iff idle timeoutMs nowUs clock).mpr (fits.idle idle) }

/-- A timer that is due five seconds after the start. -/
def oneTimer : Timer Unit := (({} : Timer Unit).waitUs 5000000 () 0).2

theorem oneTimer_keys : oneTimer.cbMap.keys = [{ deadline := 5000000, ctr := 0 }] := rfl

theorem oneTimer_earliest (d : Int) : Earliest oneTimer d ↔ d = 5000000 := by
  have only : ∀ id ∈ oneTimer.cbMap.keys, id.deadline = 5000000 := by
    intro id hid
    rw [oneTimer_keys, List.mem_singleton] at hid
    rw [hid]
  constructor
  · rintro ⟨⟨id, hid, rfl⟩, -⟩
    exact only id hid
  · rintro rfl
    exact ⟨⟨_, oneTimer_keys ▸ List.mem_cons_self, rfl⟩,
      fun id hid => Int.le_of_eq (only id hid).symm⟩

/-- The usual limit, two seconds after the start. -/
theorem waits_bounded_iff_usual :
    WaitsBounded oneTimer 100 2000000 2000000500 ↔ LimitFits oneTimer 100 2000000 2000000500 :=
  waits_bounded_iff 100 ⟨by decide, by decide⟩ ⟨by decide, by decide⟩ fun d h =>
    (oneTimer_earliest d).mp h ▸ ⟨by decide, by decide⟩

/-- **The greatest limit is stored as a negative number**, so that the wait for a timer ends at
once. -/
theorem limit_wraps :
    ¬∀ (timer : Timer Unit) (timeoutMs : UInt64) (nowUs clockNs : Int), IsTime nowUs →
      IsTime clockNs → (∀ d, Earliest timer d → IsTime d) →
      WaitsBounded timer timeoutMs nowUs clockNs := by
  intro bounded
  have time : ∀ d, Earliest oneTimer d → IsTime d := by
    intro d h
    rw [(oneTimer_earliest d).mp h]
    exact ⟨by decide, by decide⟩
  have nonneg := ((bounded oneTimer 18446744073709551615 0 0 ⟨by decide, by decide⟩
    ⟨by decide, by decide⟩ time).cv 5000000 ((oneTimer_earliest _).mpr rfl)).nonneg
  have value : CvReactor.timeoutUs oneTimer 18446744073709551615 0 = -1000 := by decide +kernel
  rw [value] at nonneg
  cases nonneg

end Bfc.Timeouts
