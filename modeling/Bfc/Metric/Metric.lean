import Mathlib.Algebra.BigOperators.Group.Finset.Piecewise
import Bfc.Lib.Transition

/-!
# Metrics among threads

`metric::fetch_add` and `fetch_sub` on one metric, over exact arithmetic. A call is two kinds of
atomic step: the load, and each `compare_exchange_strong` of its loop, which on failure reloads the
expected value. The loop goes on while the exchange succeeds.

So a call whose exchange fails gives up without having added anything, and one whose exchange
succeeds tries again, and adds a second time if the value is back. `Exact` is what the calls
should do, and `updates_exact` says that they do exactly if no call is disturbed: its first exchange
finds the value it has loaded, and the next one finds another. For the record, a call counts its
exchanges that have succeeded.
-/

namespace Bfc.Metric

open Lts

/-- A call. -/
inductive Call (R : Type*) where
  | fetchAdd (val : R)
  | fetchSub (val : R)

namespace Call

variable {R : Type*} [AddCommGroup R]

/-- The value that is to replace the old one. -/
def update : Call R → R → R
  | .fetchAdd val, old => old + val
  | .fetchSub val, old => old - val

/-- What the call is to add. -/
def amount : Call R → R
  | .fetchAdd val => val
  | .fetchSub val => -val

theorem update_eq (c : Call R) (old : R) : c.update old = old + c.amount := by
  cases c with
  | fetchAdd val => rfl
  | fetchSub val => exact sub_eq_add_neg old val

end Call

/-- Where a call is: before its load, before an exchange with the value it expects, or returned. -/
inductive Phase (R : Type*) where
  | called
  | exchanging (old : R)
  | returned (old : R)

/-- The value, where the calls are, and how many of its exchanges have succeeded for each. -/
structure World (R ι : Type*) where
  value : R
  phase : ι → Phase R := fun _ => .called
  applied : ι → Nat := fun _ => 0

/-- An atomic step of a call. -/
inductive Label (ι : Type*) where
  | load (c : ι)
  | exchange (c : ι)

variable {R ι : Type*} [DecidableEq ι]

/-- The call goes on to this. -/
def World.goto (w : World R ι) (c : ι) (phase : Phase R) : World R ι :=
  { w with phase := Function.update w.phase c phase }

/-- The call's exchange succeeds. -/
def World.apply (w : World R ι) (c : ι) (value : R) : World R ι :=
  { w with value := value, applied := Function.update w.applied c (w.applied c + 1) }

variable [AddCommGroup R] [DecidableEq R]

/-- The state after an atomic step, where it can be taken. -/
def step (calls : ι → Call R) (w : World R ι) : Label ι → Option (World R ι)
  | .load c =>
    match w.phase c with
    | .called =>
      if w.value = (calls c).update w.value then some (w.goto c (.returned w.value))
      else some (w.goto c (.exchanging w.value))
    | _ => none
  | .exchange c =>
    match w.phase c with
    | .exchanging old =>
      -- the loop goes on while the exchange succeeds
      if w.value = old then some (w.apply c ((calls c).update old))
      else some (w.goto c (.returned w.value))
    | _ => none

/-- No call is counted twice, and one that has returned is counted, unless it adds nothing; so when
all have returned, the value is the initial one and all amounts. -/
structure Exact [Fintype ι] (calls : ι → Call R) (initial : R) (w : World R ι) : Prop where
  atMostOnce : ∀ c, w.applied c ≤ 1
  once : ∀ c old, w.phase c = .returned old → (calls c).amount ≠ 0 → w.applied c = 1
  total : (∀ c, ∃ old, w.phase c = .returned old) →
    w.value = initial + ∑ c, (calls c).amount

/-- The condition on a step: a call's first exchange finds the value that it expects, and one after
a success finds another. -/
def Undisturbed (w : World R ι) : Label ι → Prop
  | .load _ => True
  | .exchange c => ∀ old, w.phase c = .exchanging old →
    (w.applied c = 0 → w.value = old) ∧ (w.applied c ≠ 0 → w.value ≠ old)

/-! ## What a step does -/

omit [AddCommGroup R] [DecidableEq R] in
/-- After a call has gone on, it is there, and the others are where they were. -/
theorem World.goto_phase {w : World R ι} {c c' : ι} {p q : Phase R}
    (h : (w.goto c p).phase c' = q) : c' = c ∧ p = q ∨ c' ≠ c ∧ w.phase c' = q := by
  change Function.update w.phase c p c' = q at h
  by_cases same : c' = c
  · subst same
    rw [Function.update_self] at h
    exact .inl ⟨rfl, h⟩
  · rw [Function.update_of_ne same] at h
    exact .inr ⟨same, h⟩

omit [AddCommGroup R] [DecidableEq R] in
theorem World.goto_self (w : World R ι) (c : ι) (p : Phase R) : (w.goto c p).phase c = p := by
  show Function.update w.phase c p c = p
  rw [Function.update_self]

/-- What a step can be: a load of a call that adds nothing or something, and an exchange that
succeeds or fails. -/
inductive Step (calls : ι → Call R) (w : World R ι) : Label ι → World R ι → Prop
  | nothing {c : ι} : w.phase c = .called → (calls c).amount = 0 →
      Step calls w (.load c) (w.goto c (.returned w.value))
  | load {c : ι} : w.phase c = .called → (calls c).amount ≠ 0 →
      Step calls w (.load c) (w.goto c (.exchanging w.value))
  | succeed {c : ι} {old : R} : w.phase c = .exchanging old → w.value = old →
      Step calls w (.exchange c) (w.apply c (w.value + (calls c).amount))
  | fail {c : ι} {old : R} : w.phase c = .exchanging old → w.value ≠ old →
      Step calls w (.exchange c) (w.goto c (.returned w.value))

theorem Step.of_step {calls : ι → Call R} {w w' : World R ι} {l : Label ι}
    (h : step calls w l = some w') : Step calls w l w' := by
  cases l with
  | load c =>
    simp only [step, Call.update_eq, left_eq_add] at h
    split at h
    · rename_i called
      split at h
      · rename_i zero
        exact Option.some.inj h ▸ .nothing called zero
      · rename_i adds
        exact Option.some.inj h ▸ .load called adds
    · cases h
  | exchange c =>
    simp only [step, Call.update_eq] at h
    split at h
    · rename_i old exchanging
      split at h
      · rename_i same
        rw [← same] at h
        exact Option.some.inj h ▸ .succeed exchanging same
      · rename_i moved
        exact Option.some.inj h ▸ .fail exchanging moved
    · cases h

/-! ## What is counted is in the value -/

/-- The value is the initial one and all amounts, each as often as its call is counted; and a call
that tries to exchange adds something. -/
structure Counted [Fintype ι] (calls : ι → Call R) (initial : R) (w : World R ι) : Prop where
  value : w.value = initial + ∑ c, w.applied c • (calls c).amount
  adds : ∀ c old, w.phase c = .exchanging old → (calls c).amount ≠ 0

omit [DecidableEq R] in
/-- One more success of a call counts its amount once more. -/
theorem sum_applied_succ [Fintype ι] (calls : ι → Call R) (applied : ι → Nat) (c : ι) :
    ∑ i, Function.update applied c (applied c + 1) i • (calls i).amount =
      (∑ i, applied i • (calls i).amount) + (calls c).amount := by
  have others : ∑ i ∈ Finset.univ.erase c,
      Function.update applied c (applied c + 1) i • (calls i).amount =
        ∑ i ∈ Finset.univ.erase c, applied i • (calls i).amount := by
    apply Finset.sum_congr rfl
    intro i hi
    rw [Function.update_of_ne (Finset.ne_of_mem_erase hi)]
  rw [← Finset.add_sum_erase _ _ (Finset.mem_univ c),
    ← Finset.add_sum_erase _ _ (Finset.mem_univ c), others, Function.update_self, succ_nsmul]
  exact add_right_comm _ _ _

variable [Fintype ι] {calls : ι → Call R} {initial : R} {w w' : World R ι} {l : Label ι}

theorem Counted.step (h : Counted calls initial w) (hstep : step calls w l = some w') :
    Counted calls initial w' := by
  cases Step.of_step hstep with
  | @nothing c called zero =>
    refine ⟨h.value, fun c' old hc' => ?_⟩
    rcases World.goto_phase hc' with ⟨-, hc'⟩ | ⟨-, hc'⟩
    · cases hc'
    · exact h.adds c' old hc'
  | @load c called adds =>
    refine ⟨h.value, fun c' old hc' => ?_⟩
    rcases World.goto_phase hc' with ⟨rfl, -⟩ | ⟨-, hc'⟩
    · exact adds
    · exact h.adds c' old hc'
  | @succeed c old exchanging same =>
    refine ⟨?_, h.adds⟩
    show w.value + (calls c).amount =
      initial + ∑ i, Function.update w.applied c (w.applied c + 1) i • (calls i).amount
    rw [sum_applied_succ, h.value, add_assoc]
  | @fail c old exchanging moved =>
    refine ⟨h.value, fun c' old' hc' => ?_⟩
    rcases World.goto_phase hc' with ⟨-, hc'⟩ | ⟨-, hc'⟩
    · cases hc'
    · exact h.adds c' old' hc'

omit [DecidableEq R] [DecidableEq ι] in
theorem Counted.start (calls : ι → Call R) (initial : R) :
    Counted calls initial ({ value := initial } : World R ι) where
  value := by simp only [zero_nsmul, Finset.sum_const_zero, add_zero]
  adds c old hc := by cases hc

omit [DecidableEq R] [DecidableEq ι] in
/-- What is counted as it should be is in the value. -/
theorem Counted.exact (h : Counted calls initial w) (atMostOnce : ∀ c, w.applied c ≤ 1)
    (once : ∀ c old, w.phase c = .returned old → (calls c).amount ≠ 0 → w.applied c = 1) :
    Exact calls initial w where
  atMostOnce := atMostOnce
  once := once
  total returned := by
    rw [h.value]
    congr 1
    apply Finset.sum_congr rfl
    intro c _
    obtain ⟨old, hc⟩ := returned c
    by_cases zero : (calls c).amount = 0
    · rw [zero, nsmul_zero]
    · rw [once c old hc zero, one_nsmul]

/-! ## When calls are counted once -/

omit [AddCommGroup R] [DecidableEq R] [DecidableEq ι] [Fintype ι] in
/-- The condition, for a call that expects a value. -/
theorem undisturbed_iff {c : ι} {old : R} (exchanging : w.phase c = .exchanging old) :
    Undisturbed w (.exchange c) ↔
      (w.applied c = 0 → w.value = old) ∧ (w.applied c ≠ 0 → w.value ≠ old) := by
  constructor
  · intro met
    exact met old exchanging
  · intro met old' hc
    obtain rfl := Phase.exchanging.inj (exchanging.symm.trans hc)
    exact met

omit [DecidableEq R] in
/-- A success counts the call as it should be exactly if it is the first one. -/
theorem Counted.succeed_iff (isExact : Exact calls initial w) {c : ι} {old value : R}
    (counted : Counted calls initial (w.apply c value)) (exchanging : w.phase c = .exchanging old) :
    Exact calls initial (w.apply c value) ↔ w.applied c = 0 := by
  constructor
  · intro good
    have once : Function.update w.applied c (w.applied c + 1) c ≤ 1 := good.atMostOnce c
    rw [Function.update_self] at once
    omega
  · intro first
    refine counted.exact (fun c' => ?_) fun c' old' hc' adds => ?_
    · show Function.update w.applied c (w.applied c + 1) c' ≤ 1
      by_cases here : c' = c
      · subst here
        rw [Function.update_self, first]
      · rw [Function.update_of_ne here]
        exact isExact.atMostOnce c'
    · show Function.update w.applied c (w.applied c + 1) c' = 1
      have other : c' ≠ c := by
        rintro rfl
        have both : w.phase c' = .returned old' := hc'
        rw [exchanging] at both
        cases both
      rw [Function.update_of_ne other]
      exact isExact.once c' old' hc' adds

omit [DecidableEq R] in
/-- A return leaves the call counted as it should be exactly if it is counted. -/
theorem Counted.fail_iff (isExact : Exact calls initial w) {c : ι} {value : R}
    (counted : Counted calls initial (w.goto c (.returned value))) (adds : (calls c).amount ≠ 0) :
    Exact calls initial (w.goto c (.returned value)) ↔ w.applied c ≠ 0 := by
  constructor
  · intro good
    have once : w.applied c = 1 :=
      good.once c value (World.goto_self ..) adds
    omega
  · intro added
    refine counted.exact isExact.atMostOnce fun c' old' hc' adds' => ?_
    rcases World.goto_phase hc' with ⟨rfl, -⟩ | ⟨-, hc'⟩
    · have atMost := isExact.atMostOnce c'
      show w.applied c' = 1
      omega
    · exact isExact.once c' old' hc' adds'

/-- A step keeps the calls counted as they should be exactly if its call is not disturbed. -/
theorem Counted.step_iff (h : Counted calls initial w) (isExact : Exact calls initial w)
    (hstep : Metric.step calls w l = some w') : Exact calls initial w' ↔ Undisturbed w l := by
  have counted := h.step hstep
  cases Step.of_step hstep with
  | @nothing c called zero =>
    refine iff_of_true (counted.exact isExact.atMostOnce fun c' old hc' adds => ?_) trivial
    rcases World.goto_phase hc' with ⟨rfl, -⟩ | ⟨-, hc'⟩
    · exact absurd zero adds
    · exact isExact.once c' old hc' adds
  | @load c called adds =>
    refine iff_of_true (counted.exact isExact.atMostOnce fun c' old hc' adds => ?_) trivial
    rcases World.goto_phase hc' with ⟨-, hc'⟩ | ⟨-, hc'⟩
    · cases hc'
    · exact isExact.once c' old hc' adds
  | @succeed c old exchanging same =>
    rw [counted.succeed_iff isExact exchanging, undisturbed_iff exchanging]
    constructor
    · intro first
      exact ⟨fun _ => same, fun again => absurd first again⟩
    · rintro ⟨-, second⟩
      by_contra again
      exact second again same
  | @fail c old exchanging moved =>
    rw [counted.fail_iff isExact (h.adds c old exchanging), undisturbed_iff exchanging]
    constructor
    · intro applied
      exact ⟨fun notApplied => absurd notApplied applied, fun _ => moved⟩
    · rintro ⟨first, -⟩ notApplied
      exact moved (first notApplied)

/-- **Updates are counted once exactly as long as no call is disturbed.** For any calls, and however
their atomic steps interleave, the calls are counted as they should be in every state passed if and
only if each call's first exchange finds the value it expects, and one after a success does not. -/
theorem updates_exact (calls : ι → Call R) (initial : R) (labels : List (Label ι)) :
    AllStates (step calls) (Exact calls initial) { value := initial } labels ↔
      AllSteps (step calls) Undisturbed { value := initial } labels := by
  have start : Counted calls initial { value := initial } := .start calls initial
  refine allStates_iff_allSteps (I := Counted calls initial) Counted.step Counted.step_iff
    labels start ?_
  exact start.exact (fun _ => Nat.zero_le 1) fun c old hc => by cases hc

/-- **An update is lost.** Two threads add 1 to 0. Both load, the first one exchanges, and the
exchange of the second fails: it returns, and the value is 1. -/
theorem fetchAdd_lost :
    ∃ w : World Int Bool, ([.load false, .load true, .exchange false, .exchange false,
        .exchange true] : List (Label Bool)).foldlM (step fun _ => .fetchAdd (1 : Int))
          { value := 0 } = some w ∧
      (∀ c, ∃ old, w.phase c = .returned old) ∧ w.value = 1 ∧
      0 + ∑ _c : Bool, (Call.fetchAdd (1 : Int)).amount = 2 ∧
      ¬Exact (fun _ => .fetchAdd 1) 0 w := by
  refine ⟨_, rfl, ?_, rfl, by decide, ?_⟩
  · intro c
    cases c with
    | false => exact ⟨_, rfl⟩
    | true => exact ⟨_, rfl⟩
  · intro isExact
    have once := isExact.once true 1 rfl (by decide)
    exact absurd once (by decide)

end Bfc.Metric
