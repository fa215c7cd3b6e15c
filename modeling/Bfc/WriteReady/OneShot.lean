import Bfc.EpollReactor.OneShot
import Bfc.PollReactor.OneShot

/-!
# Write notifications are one-shot

`poll_reactor` and `epoll_reactor` promise the same of `add_write_rdy` and `req_write`: the callback
runs once for each request. They keep it by different means, and under different conditions. Both
break it for a registration that was never armed, since an error or a hang-up is reported without a
request and its callback runs then too.
-/

namespace Bfc

open Lts

/-- **Write notifications are one-shot.** In every run of either reactor in which reports reach
write registrations only as they were asked for, no write callback runs more often than it was
requested since its registration. -/
theorem write_notifications_one_shot {κ : Type*} :
    (∀ (wakeFd : Int) (pollIn : BitVec 16) (events : List (PollReactor.Event κ)),
      AllSteps PollReactor.Counted.step PollReactor.Counted.Asked (.init wakeFd pollIn) events →
      AllStates PollReactor.Counted.step (fun c => c.tally.Bounded) (.init wakeFd pollIn) events) ∧
    ∀ (eventFd : Nat) (pollIn : BitVec 32) (actions : List (EpollReactor.Action κ)),
      AllSteps EpollReactor.Counted.step EpollReactor.Counted.Asked (.init eventFd pollIn)
        actions →
      AllStates EpollReactor.Counted.step (fun c => c.tally.Bounded) (.init eventFd pollIn)
        actions :=
  ⟨PollReactor.Counted.bounded, EpollReactor.Counted.bounded⟩

/-- Descriptor 4 is registered and armed, and becomes writable: one request, one notification. -/
theorem write_notifications_requested :
    (∃ c : PollReactor.Counted Unit,
      [.call (.addWrite 4 (some ()) 5), .call (.reqWrite 4 4), .poll, .visit 1 4].foldlM
        PollReactor.Counted.step (.init 3 1) = some c ∧
      c.tally.requested 4 = 1 ∧ c.tally.invoked 4 = 1 ∧ c.tally.Bounded) ∧
    ∃ c : EpollReactor.Counted Unit,
      [.call (.openFd 4), .call (.addWrite 4 (some ()) 5 true),
        .call (.reqWrite 4 0x40000004 true), .wait [(5, 4)], .dispatch].foldlM
          EpollReactor.Counted.step (.init 3 1) = some c ∧
      c.tally.requested 4 = 1 ∧ c.tally.invoked 4 = 1 ∧ c.tally.Bounded := by
  obtain ⟨poll, epoll⟩ := write_notifications_one_shot (κ := Unit)
  constructor
  · have all := poll 3 1
      [.call (.addWrite 4 (some ()) 5), .call (.reqWrite 4 4), .poll, .visit 1 4] ?_
    · exact ⟨_, rfl, rfl, rfl, all.last rfl⟩
    refine .cons rfl trivial (.cons rfl trivial (.cons rfl trivial (.cons rfl ?_ trivial)))
    intro item cb visited _ _ _
    obtain rfl := Option.some.inj visited
    decide
  · have all := epoll 3 1
      [.call (.openFd 4), .call (.addWrite 4 (some ()) 5 true),
        .call (.reqWrite 4 0x40000004 true), .wait [(5, 4)], .dispatch] ?_
    · exact ⟨_, rfl, rfl, rfl, all.last rfl⟩
    refine .cons rfl trivial (.cons rfl trivial (.cons rfl trivial (.cons rfl trivial
      (.cons rfl ?_ trivial))))
    intro r rest fd head own _
    obtain ⟨rfl, rfl⟩ := List.cons.inj head
    obtain rfl := Option.some.inj own
    rfl

/-- **A write callback runs without a request.** Descriptor 4 has a write registration and no
`req_write`, and its peer hangs up: the next pass of either reactor runs the callback. -/
theorem write_notifications_unrequested :
    (∃ c : PollReactor.Counted Unit,
      [.call (.addWrite 4 (some ()) 5), .poll, .visit 1 0x010].foldlM PollReactor.Counted.step
        (.init 3 1) = some c ∧
      c.tally.requested 4 = 0 ∧ c.tally.invoked 4 = 1 ∧ ¬c.tally.Bounded) ∧
    ∃ c : EpollReactor.Counted Unit,
      [.call (.openFd 4), .call (.addWrite 4 (some ()) 5 true), .wait [(5, 0x010)],
        .dispatch].foldlM EpollReactor.Counted.step (.init 3 1) = some c ∧
      c.tally.requested 4 = 0 ∧ c.tally.invoked 4 = 1 ∧ ¬c.tally.Bounded := by
  constructor
  · refine ⟨_, rfl, rfl, rfl, fun bounded => ?_⟩
    exact absurd (bounded 4) (by decide)
  · refine ⟨_, rfl, rfl, rfl, fun bounded => ?_⟩
    exact absurd (bounded 4) (by decide)

end Bfc
