import Bfc.Lib.Transition
import Mathlib.Logic.Function.Basic

/-!
# One-shot notifications

A subscriber asks for a notification and gets at most one for each time it asked. An `Account` is
what counts for one subscriber: how often it has asked, how often it was notified, and its credit,
which is the number of notifications that may still come without being asked for. Asking adds one to
the credit and a notification takes one; nothing else may add to it. So an account that starts
within its means stays there (`Move.within`), however the system splits the credit up between a
request that waits, a report on its way and anything else.

`Tally` keeps the counts of all subscribers, and `never_ahead` is the rule for a system with one:
when every step that meets a condition is a move of each account, then in every run whose steps meet
it nobody is notified more often than asked for.
-/

namespace OneShot

/-! ## One subscriber -/

/-- The requests and notifications since the subscription, and those that may still come. -/
structure Account where
  requested : Nat := 0
  invoked : Nat := 0
  credit : Nat := 0
deriving DecidableEq, Repr

/-- What may happen to an account. -/
inductive Move (a b : Account) : Prop
  /-- A new subscription. -/
  | subscribed (new : b = {})
  /-- The subscriber asks for a notification. -/
  | requested (requests : b.requested = a.requested + 1) (invocations : b.invoked = a.invoked)
      (credit : b.credit ≤ a.credit + 1)
  /-- A notification. -/
  | spent (requests : b.requested = a.requested) (invocations : b.invoked = a.invoked + 1)
      (credit : b.credit + 1 ≤ a.credit)
  /-- Anything else: credit may be passed on within the system, or lapse. -/
  | idle (requests : b.requested = a.requested) (invocations : b.invoked = a.invoked)
      (credit : b.credit ≤ a.credit)

/-- An account is within its means: what came and what may come was asked for. -/
def Account.Within (a : Account) : Prop := a.invoked + a.credit ≤ a.requested

/-- **No move takes an account beyond its means.** -/
theorem Move.within {a b : Account} (move : Move a b) (h : a.Within) : b.Within := by
  unfold Account.Within at h ⊢
  cases move with
  | subscribed new =>
    rw [new]
    exact Nat.le_refl 0
  | requested requests invocations credit => omega
  | spent requests invocations credit => omega
  | idle requests invocations credit => omega

/-- An account within its means was not notified more often than asked for. -/
theorem Account.Within.invoked_le {a : Account} (h : a.Within) : a.invoked ≤ a.requested := by
  unfold Account.Within at h
  omega

/-! ## All subscribers -/

variable {K : Type*}

/-- The counts by subscriber: its subscriptions so far, and what was asked for and came since the
last of them. -/
structure Tally (K : Type*) where
  subscriptions : K → Nat := fun _ => 0
  requested : K → Nat := fun _ => 0
  invoked : K → Nat := fun _ => 0

namespace Tally

/-- Nobody was notified more often than asked for. -/
def Bounded (t : Tally K) : Prop := ∀ k, t.invoked k ≤ t.requested k

/-- The account of a subscriber that has this much credit. -/
def account (t : Tally K) (k : K) (credit : Nat) : Account where
  requested := t.requested k
  invoked := t.invoked k
  credit := credit

variable {c c' : K → Nat}

/-- The counts stay, and no credit is added. -/
theorem moves_idle (t : Tally K) (credit : ∀ k, c' k ≤ c k) (k : K) :
    Move (t.account k (c k)) (t.account k (c' k)) := by
  apply Move.idle
  · rfl
  · rfl
  · exact credit k

section Changes

variable [DecidableEq K]

/-- A new subscription. -/
def subscribe (t : Tally K) (k : K) : Tally K where
  subscriptions := Function.update t.subscriptions k (t.subscriptions k + 1)
  requested := Function.update t.requested k 0
  invoked := Function.update t.invoked k 0

/-- A request. -/
def request (t : Tally K) (k : K) : Tally K :=
  { t with requested := Function.update t.requested k (t.requested k + 1) }

/-- A notification. -/
def invoke (t : Tally K) (k : K) : Tally K :=
  { t with invoked := Function.update t.invoked k (t.invoked k + 1) }

theorem subscribe_subscriptions (t : Tally K) (k : K) :
    (t.subscribe k).subscriptions k = t.subscriptions k + 1 :=
  Function.update_self ..

theorem subscribe_subscriptions_of_ne (t : Tally K) {k k' : K} (h : k' ≠ k) :
    (t.subscribe k).subscriptions k' = t.subscriptions k' :=
  Function.update_of_ne h ..

/-- A new subscription, whose credit is nothing. -/
theorem moves_subscribe (t : Tally K) (k : K) (own : c' k = 0)
    (others : ∀ k', k' ≠ k → c' k' ≤ c k') (k' : K) :
    Move (t.account k' (c k')) ((t.subscribe k).account k' (c' k')) := by
  by_cases h : k' = k
  · subst h
    apply Move.subscribed
    simp only [account, subscribe, Function.update_self, own]
  · apply Move.idle
    · exact Function.update_of_ne h ..
    · exact Function.update_of_ne h ..
    · exact others k' h

/-- A request, which adds one to the credit at most. -/
theorem moves_request (t : Tally K) (k : K) (own : c' k ≤ c k + 1)
    (others : ∀ k', k' ≠ k → c' k' ≤ c k') (k' : K) :
    Move (t.account k' (c k')) ((t.request k).account k' (c' k')) := by
  by_cases h : k' = k
  · subst h
    apply Move.requested
    · exact Function.update_self ..
    · rfl
    · exact own
  · apply Move.idle
    · exact Function.update_of_ne h ..
    · rfl
    · exact others k' h

/-- A notification, for which there was credit. -/
theorem moves_invoke (t : Tally K) (k : K) (own : c' k + 1 ≤ c k)
    (others : ∀ k', k' ≠ k → c' k' ≤ c k') (k' : K) :
    Move (t.account k' (c k')) ((t.invoke k).account k' (c' k')) := by
  by_cases h : k' = k
  · subst h
    apply Move.spent
    · rfl
    · exact Function.update_self ..
    · exact own
  · apply Move.idle
    · rfl
    · exact Function.update_of_ne h ..
    · exact others k' h

end Changes

end Tally

/-! ## Systems -/

variable {σ ι : Type*} {f : σ → ι → Option σ} (tally : σ → Tally K) (credit : σ → K → Nat)

/-- **The rule of one-shot systems.** When each step that meets the condition is a move of every
account, and keeps what the moves rest on, then in a run whose steps meet the condition nobody is
ever notified more often than asked for. -/
theorem never_ahead {I : σ → Prop} {C : σ → ι → Prop}
    (keeps : ∀ {s l t}, I s → f s l = some t → I t)
    (moves : ∀ {s l t}, I s → C s l → f s l = some t →
      ∀ k, Move ((tally s).account k (credit s k)) ((tally t).account k (credit t k)))
    {ls : List ι} {s : σ} (h : Lts.AllSteps f C s ls) (inv : I s)
    (start : ∀ k, ((tally s).account k (credit s k)).Within) :
    Lts.AllStates f (fun s => (tally s).Bounded) s ls := by
  refine Lts.AllSteps.allStates
    (I := fun s => I s ∧ ∀ k, ((tally s).account k (credit s k)).Within) ?_ ?_ h ⟨inv, start⟩
  · intro s l t before condition step
    exact ⟨keeps before.1 step, fun k => (moves before.1 condition step k).within (before.2 k)⟩
  · intro s within k
    exact (within.2 k).invoked_le

end OneShot
