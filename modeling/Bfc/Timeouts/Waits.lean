import Bfc.Timers.NeverEarly

/-!
# How long a reactor waits

The part of each `run` that comes before its wait: from the next deadline of the timer and the time,
`poll_reactor` makes a number of milliseconds for `poll`, `epoll_reactor` a `timespec` for
`epoll_pwait2`, or milliseconds again where there is only `epoll_wait`, and `cv_reactor` a number of
microseconds that its own limit bounds too. The first three are what the kernel is given;
`cv_reactor` gives its number to `wait_for`, which adds it to the time once more.

The divisions of the source round toward zero. What is stored in an `int64_t` or an `int` wraps.
-/

namespace Bfc.Timeouts

open Timers

variable {κ : Type*}

/-- The value of an `int` that a result is stored in. -/
def int32 (n : Int) : Int := n.bmod (2 ^ 32)

/-- `std::numeric_limits<int>::max()`. -/
def intMax : Int := 2147483647

/-- `timespec`. -/
structure Timespec where
  tvSec : Int := 0
  tvNsec : Int := 0
deriving DecidableEq

/-- `timeout_ms` of `poll_reactor::run`. -/
def PollReactor.timeoutMs (timer : Timer κ) (queueBacklog : Bool) (nowUs : Int) : Int :=
  let timeoutMs :=
    match timer.getNextDeadlineUs with
    | none => -1
    | some nextDeadlineUs =>
      let diff := int64 (nextDeadlineUs - nowUs)
      if diff ≤ 0 then 0
      else
        let diffMs := diff.tdiv 1000
        if diffMs > intMax then intMax else int32 diffMs
  if queueBacklog then 0 else timeoutMs

/-- `timeout_ptr` of `epoll_reactor::run`. -/
def EpollReactor.timeoutPtr (timer : Timer κ) (queueBacklog : Bool) (nowUs : Int) :
    Option Timespec :=
  let timeoutPtr :=
    match timer.getNextDeadlineUs with
    | none => none
    | some nextDeadlineUs =>
      let diff := int64 (nextDeadlineUs - nowUs)
      if diff > 0 then
        some { tvSec := diff.tdiv 1000000, tvNsec := int64 (diff.tmod 1000000 * 1000) }
      else some {}
  if queueBacklog then some {} else timeoutPtr

/-- `timeout_ms` of `epoll_reactor::wait`, where there is no `epoll_pwait2`. -/
def EpollReactor.timeoutMs : Option Timespec → Int
  | none => -1
  | some timeout =>
    let ms := int64 (int64 (timeout.tvSec * 1000) + (timeout.tvNsec + 999999).tdiv 1000000)
    if ms > intMax then intMax else int32 ms

/-- `timeout_us` of `cv_reactor::run`, where `m_timeout_ms` is the argument of the constructor. -/
def CvReactor.timeoutUs (timer : Timer κ) (timeoutMs : UInt64) (nowUs : Int) : Int :=
  let timeoutUs := int64 (int64 timeoutMs.toNat * 1000)
  match timer.getNextDeadlineUs with
  | none => timeoutUs
  | some nextDeadlineUs =>
    let diff := int64 (nextDeadlineUs - nowUs)
    if diff ≤ 0 then 0
    else if diff < timeoutUs then diff
    else timeoutUs

/-- How long `condition_variable::wait_for` waits while its predicate stays false, in nanoseconds:
until `timeoutUs` after the time of `steady_clock`, which counts nanoseconds in an `int64_t`. -/
def waitForNs (timeoutUs clockNs : Int) : Int :=
  let untilNs := int64 (clockNs + int64 (timeoutUs * 1000))
  max 0 (untilNs - clockNs)

/-- How long `cv_reactor::run` waits, where `clockNs` is the time that `wait_for` reads. -/
def CvReactor.waitNs (timer : Timer κ) (timeoutMs : UInt64) (nowUs clockNs : Int) : Int :=
  waitForNs (CvReactor.timeoutUs timer timeoutMs nowUs) clockNs

/-! ## What the waits are meant to be -/

/-- The earliest pending deadline. -/
structure Earliest (timer : Timer κ) (deadlineUs : Int) : Prop where
  pending : ∃ id ∈ timer.cbMap.keys, id.deadline = deadlineUs
  least : ∀ id ∈ timer.cbMap.keys, deadlineUs ≤ id.deadline

/-- How long it is until then. -/
def remaining (deadlineUs nowUs : Int) : Int := max 0 (deadlineUs - nowUs)

/-- A time that is not negative, in the units of its clock. -/
structure IsTime (time : Int) : Prop where
  nonneg : 0 ≤ time
  stored : time < 2 ^ 63

/-- The nanoseconds of a normalised `timespec` are less than a second. -/
structure Timespec.Normalised (ts : Timespec) : Prop where
  sec : 0 ≤ ts.tvSec
  nsec : 0 ≤ ts.tvNsec
  nsec_lt : ts.tvNsec < 1000000000

/-- A time in nanoseconds is one in microseconds. -/
theorem IsTime.of_ns {us : Int} (h : IsTime (1000 * us)) : IsTime us := by
  obtain ⟨nonneg, stored⟩ := h
  exact ⟨by omega, by omega⟩

variable {timer : Timer κ} {deadlineUs nowUs : Int}

/-- `get_next_deadline_us` finds it. -/
theorem Earliest.next (h : Earliest timer deadlineUs) :
    timer.getNextDeadlineUs = some deadlineUs := by
  have spec := getNextDeadlineUs_spec timer
  obtain ⟨id, hid, rfl⟩ := h.pending
  cases next : timer.getNextDeadlineUs with
  | none =>
    rw [next] at spec
    rw [spec] at hid
    cases hid
  | some d =>
    rw [next] at spec
    obtain ⟨⟨other, ho, rfl⟩, least⟩ := spec
    exact congrArg some (Int.le_antisymm (least id hid) (h.least other ho))

/-- It finds nothing if nothing is pending. -/
theorem getNextDeadlineUs_none (h : timer.cbMap.keys = []) : timer.getNextDeadlineUs = none := by
  rw [Timer.getNextDeadlineUs, List.map_eq_nil_iff.mp h]
  rfl

/-- The difference of two times is stored as it is. -/
theorem int64_sub {a b : Int} (ha : IsTime a) (hb : IsTime b) : int64 (a - b) = a - b := by
  obtain ⟨lower, upper⟩ := ha
  obtain ⟨lower', upper'⟩ := hb
  exact Int.bmod_eq_of_le_mul_two (by omega) (by omega)

theorem int32_eq {n : Int} (lower : 0 ≤ n) (upper : n ≤ intMax) : int32 n = n := by
  unfold intMax at upper
  exact Int.bmod_eq_of_le_mul_two (by omega) (by omega)

/-- What a clamped conversion to `int` yields. -/
theorem clamp_eq_min {n : Int} (lower : 0 ≤ n) :
    (if n > intMax then intMax else int32 n) = min n intMax := by
  split
  · rename_i above
    exact (min_eq_right (Int.le_of_lt above)).symm
  · rename_i within
    rw [int32_eq lower (Int.not_lt.mp within), min_eq_left (Int.not_lt.mp within)]

/-! ## The file descriptor reactors -/

section Fds

variable (deadline : IsTime deadlineUs) (now : IsTime nowUs)

include deadline now

/-- `poll` is given whole milliseconds that are left. -/
theorem PollReactor.timeoutMs_eq (h : Earliest timer deadlineUs) :
    PollReactor.timeoutMs timer false nowUs = min (remaining deadlineUs nowUs / 1000) intMax := by
  rw [PollReactor.timeoutMs, h.next]
  show (if int64 (deadlineUs - nowUs) ≤ 0 then 0 else _) = _
  rw [int64_sub deadline now, remaining]
  split
  · rename_i past
    rw [max_eq_left past]
    rfl
  · rename_i future
    have future := Int.not_le.mp future
    rw [max_eq_right (Int.le_of_lt future), Int.tdiv_eq_ediv_of_nonneg (Int.le_of_lt future)]
    exact clamp_eq_min (Int.ediv_nonneg (Int.le_of_lt future) (by decide))

/-- `epoll_pwait2` is given what is left, in seconds and nanoseconds. -/
theorem EpollReactor.timeoutPtr_eq (h : Earliest timer deadlineUs) :
    EpollReactor.timeoutPtr timer false nowUs = some
      { tvSec := remaining deadlineUs nowUs / 1000000
        tvNsec := remaining deadlineUs nowUs % 1000000 * 1000 } := by
  rw [EpollReactor.timeoutPtr, h.next]
  show (if int64 (deadlineUs - nowUs) > 0 then _ else _) = _
  rw [int64_sub deadline now, remaining]
  split
  · rename_i future
    have small := Int.emod_lt_of_pos (deadlineUs - nowUs) (show (0 : Int) < 1000000 by decide)
    have nonneg := Int.emod_nonneg (deadlineUs - nowUs) (show (1000000 : Int) ≠ 0 by decide)
    rw [max_eq_right (Int.le_of_lt future), Int.tdiv_eq_ediv_of_nonneg (Int.le_of_lt future),
      Int.tmod_eq_emod_of_nonneg (Int.le_of_lt future), int64_eq (by omega) (by omega)]
  · rename_i past
    rw [max_eq_left (Int.not_lt.mp past)]
    rfl

end Fds

/-- `epoll_wait` is given what is left in milliseconds, rounded up. -/
theorem EpollReactor.timeoutMs_eq {ts : Timespec} (normalised : ts.Normalised)
    (stored : ts.tvSec * 1000 + 1000 < 2 ^ 63) :
    EpollReactor.timeoutMs (some ts) =
      min (ts.tvSec * 1000 + (ts.tvNsec + 999999) / 1000000) intMax := by
  obtain ⟨sec, nsec, nsec_lt⟩ := normalised
  rw [EpollReactor.timeoutMs, Int.tdiv_eq_ediv_of_nonneg (by omega)]
  rw [int64_eq (n := ts.tvSec * 1000) (by omega) (by omega), int64_eq (by omega) (by omega)]
  exact clamp_eq_min (by omega)

/-! ## `cv_reactor` -/

/-- The limit in microseconds, as it is stored. -/
theorem int64_limit (n : Nat) : int64 (int64 n * 1000) = int64 (1000 * n : Nat) := by
  rw [int64, int64, int64, Int.mul_comm, Int.mul_bmod_bmod, Int.natCast_mul]
  rfl

/-- A natural number is stored as it is up to a multiple of 2^64, which is taken off, and one more
from the upper half. -/
theorem int64_natCast (n : Nat) :
    int64 n = (n % 2 ^ 64 : Nat) ∧ n % 2 ^ 64 < 2 ^ 63 ∨ int64 n < 0 ∧ 2 ^ 63 ≤ n % 2 ^ 64 := by
  rw [int64, Int.bmod_def]
  split
  · left
    omega
  · right
    omega

/-- The condition variable waits for the least of what is left and the limit, as it is stored. -/
theorem CvReactor.timeoutUs_eq (deadline : IsTime deadlineUs) (now : IsTime nowUs)
    (h : Earliest timer deadlineUs) (timeoutMs : UInt64) :
    CvReactor.timeoutUs timer timeoutMs nowUs =
      if deadlineUs ≤ nowUs then 0
      else min (deadlineUs - nowUs) (int64 (1000 * timeoutMs.toNat : Nat)) := by
  rw [CvReactor.timeoutUs, h.next, int64_limit]
  show (if int64 (deadlineUs - nowUs) ≤ 0 then 0 else _) = _
  rw [int64_sub deadline now, min_def_lt]
  simp only [sub_nonpos]

/-- Without timers it waits for the limit, as it is stored. -/
theorem CvReactor.timeoutUs_idle (h : timer.cbMap.keys = []) (timeoutMs : UInt64) (nowUs : Int) :
    CvReactor.timeoutUs timer timeoutMs nowUs = int64 (1000 * timeoutMs.toNat : Nat) := by
  rw [CvReactor.timeoutUs, getNextDeadlineUs_none h, int64_limit]

/-- The two sums of `wait_for` wrap as one. -/
theorem waitForNs_eq (timeoutUs clockNs : Int) :
    waitForNs timeoutUs clockNs = max 0 (int64 (clockNs + 1000 * timeoutUs) - clockNs) := by
  rw [waitForNs, int64, int64, int64, Int.add_bmod_bmod, Int.mul_comm]

/-- What is not negative is not stored as more than it is. -/
theorem int64_le {n : Int} (nonneg : 0 ≤ n) : int64 n ≤ n := by
  obtain ⟨n, rfl⟩ := Int.eq_ofNat_of_zero_le nonneg
  rcases int64_natCast n with ⟨stored, -⟩ | ⟨negative, -⟩
  · rw [stored]
    exact Int.ofNat_le.mpr (Nat.mod_le n _)
  · omega

/-- A sum is stored as a time that is to come exactly if what is added, but for a multiple of 2^64,
is some time and still fits. -/
theorem int64_later {clockNs : Int} (clock : IsTime clockNs) (n : Int) :
    clockNs < int64 (clockNs + n) ↔ 0 < n % 2 ^ 64 ∧ clockNs + n % 2 ^ 64 < 2 ^ 63 := by
  obtain ⟨nonneg, stored⟩ := clock
  rw [int64, Int.bmod_def]
  omega

/-- A sum that wraps only makes the wait shorter. -/
theorem waitForNs_le {timeoutUs clockNs : Int} (nonneg : 0 ≤ timeoutUs) (clock : IsTime clockNs) :
    waitForNs timeoutUs clockNs ≤ 1000 * timeoutUs := by
  have lower := clock.nonneg
  have stored : int64 (clockNs + 1000 * timeoutUs) ≤ clockNs + 1000 * timeoutUs :=
    int64_le (by omega)
  rw [waitForNs_eq]
  omega

/-- Without timers the wait ends at the time and the limit added up, as the sum is stored. -/
theorem CvReactor.waitNs_idle (h : timer.cbMap.keys = []) (timeoutMs : UInt64)
    (nowUs clockNs : Int) :
    CvReactor.waitNs timer timeoutMs nowUs clockNs =
      max 0 (int64 (clockNs + 1000000 * timeoutMs.toNat) - clockNs) := by
  have sum : int64 (clockNs + 1000 * int64 (1000 * timeoutMs.toNat : Nat)) =
      int64 (clockNs + 1000000 * timeoutMs.toNat) := by
    have product : (1000000 : Int) * timeoutMs.toNat = 1000 * (1000 * timeoutMs.toNat : Nat) := by
      omega
    rw [product]
    show Int.bmod (clockNs + 1000 * Int.bmod _ (2 ^ 64)) (2 ^ 64) = Int.bmod _ (2 ^ 64)
    rw [← Int.add_bmod_bmod, Int.mul_bmod_bmod, Int.add_bmod_bmod]
  rw [CvReactor.waitNs, CvReactor.timeoutUs_idle h, waitForNs_eq, sum]

end Bfc.Timeouts
