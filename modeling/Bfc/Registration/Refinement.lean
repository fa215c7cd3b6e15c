import Bfc.EpollReactor.Refinement
import Bfc.PollReactor.Refinement

/-!
# Both reactors give the service

`poll_reactor` and `epoll_reactor` keep the same tables in different ways: one poll vector with an
entry a direction, against an interest set with a duplicate for each write. Seen as
`Registration.Service`, a run of either is a run of the service, with the same answers, and so what
holds of every run of the service holds of both. `ToldBy` is such a thing: the calls that were made
say who is registered with which callback, which writes are asked for, and whom a notification
runs.
-/

namespace Bfc.Registration

open Lts

variable {κ : Type*}

/-- What is registered and requested is what the calls made last, and a notification has run what
was registered last before it. -/
structure Service.ToldBy (s : Service κ) (ls : List (Action κ)) : Prop where
  registrations : ∀ fd direction, s.registration fd direction = lastMade fd direction ls
  requests : ∀ fd, s.requested fd = lastAsked fd ls
  notifications : ∀ before fd direction cb after, ls = before ++ .notify fd direction cb :: after →
    lastMade fd direction before = some (some cb)

theorem Service.toldBy_of_run {ls : List (Action κ)} {s : Service κ}
    (run : Run Service.Step {} ls s) : s.ToldBy ls where
  registrations fd direction := registration_run run fd direction
  requests fd := requested_run run fd
  notifications _ _ _ _ _ same := notified (same ▸ run)

/-- **Both reactors refine the service.** What a run of either one shows, its calls with their
answers, the callbacks it runs, the requests that are met and the ends of its passes, is a run of
the service, from nothing to what the tables are. -/
theorem reactors_refine :
    (∀ (wakeFd : Int) (pollIn : BitVec 16) (events : List (PollReactor.Event κ))
      (s : PollReactor.Reactor κ), (∀ event ∈ events, PollReactor.Proper event) →
      events.foldlM PollReactor.Reactor.steps (.init wakeFd pollIn) = some s →
      Run Service.Step {} (shows PollReactor.Reactor.steps PollReactor.Reactor.view
        (.init wakeFd pollIn) events) s.service) ∧
    ∀ (eventFd : Nat) (pollIn : BitVec 32) (actions : List (EpollReactor.Action κ))
      (c : EpollReactor.Counted κ), (∀ action ∈ actions, EpollReactor.Counted.Proper action) →
      actions.foldlM EpollReactor.Counted.step (.init eventFd pollIn) = some c →
      Run Service.Step {} (shows EpollReactor.Counted.step EpollReactor.Counted.view
        (.init eventFd pollIn) actions) c.service := by
  constructor
  · intro wakeFd pollIn events s proper run
    exact (PollReactor.run_service wakeFd pollIn proper run).2
  · intro eventFd pollIn actions c proper run
    exact EpollReactor.Counted.run_service eventFd pollIn proper run

/-- A write that is requested, reported and notified, removed and cleaned up, by either reactor. -/
theorem reactors_refine_write :
    ∃ (s : PollReactor.Reactor Nat) (c : EpollReactor.Counted Nat),
      Run Service.Step {} [.call (.addWrite 5 (some 50) true) true, .call (.reqWrite 5) true,
        .take 5, .notify 5 .write 50, .call (.remWrite 5) true, .endPass] s.service ∧
      Run Service.Step {} [.call (.addWrite 5 (some 50) true) true, .call (.reqWrite 5) true,
        .take 5, .notify 5 .write 50, .call (.remWrite 5) true, .endPass] c.service ∧
      s.service.entries 5 = none ∧ c.service.entries 5 = none := by
  obtain ⟨poll, epoll⟩ := reactors_refine (κ := Nat)
  refine ⟨_, _, poll 3 1 [.call (.addWrite 5 (some 50) 6), .call (.reqWrite 5 4), .poll,
    .visit 1 4, .call (.remWrite 5), .cleanup] _ ?_ rfl,
    epoll 3 1 [.call (.openFd 5), .call (.addWrite 5 (some 50) 6 true),
      .call (.reqWrite 5 0x40000004 true), .wait [(6, 4)], .dispatch, .call (.remWrite 5),
      .cleanup] _ ?_ rfl, rfl, rfl⟩
  · simp [PollReactor.Proper, PollReactor.Op.fd]
  · simp [EpollReactor.Counted.Proper, EpollReactor.epollOneShot]

/-- **Both reactors do what they are told.** After any run of either one, each descriptor is
registered with what the calls registered it with last, the kernel is asked for a write of those
that were requested and not reported since, and every callback that was run was the one registered
last before. -/
theorem reactors_follow_calls :
    (∀ (wakeFd : Int) (pollIn : BitVec 16) (events : List (PollReactor.Event κ))
      (s : PollReactor.Reactor κ), (∀ event ∈ events, PollReactor.Proper event) →
      events.foldlM PollReactor.Reactor.steps (.init wakeFd pollIn) = some s →
      ∀ shown, shown = shows PollReactor.Reactor.steps PollReactor.Reactor.view
        (.init wakeFd pollIn) events →
      s.service.ToldBy shown ∧ ∀ fd, s.Armed fd ↔ lastAsked fd shown = true) ∧
    ∀ (eventFd : Nat) (pollIn : BitVec 32) (actions : List (EpollReactor.Action κ))
      (c : EpollReactor.Counted κ), (∀ action ∈ actions, EpollReactor.Counted.Proper action) →
      actions.foldlM EpollReactor.Counted.step (.init eventFd pollIn) = some c →
      ∀ shown, shown = shows EpollReactor.Counted.step EpollReactor.Counted.view
        (.init eventFd pollIn) actions →
      c.service.ToldBy shown ∧ ∀ fd, c.armed fd = lastAsked fd shown := by
  constructor
  · rintro wakeFd pollIn events s proper run shown rfl
    obtain ⟨consistent, served⟩ := PollReactor.run_service wakeFd pollIn proper run
    refine ⟨Service.toldBy_of_run served, fun fd => ?_⟩
    rw [← Service.requested_run served, PollReactor.requested_service consistent,
      decide_eq_true_iff]
  · rintro eventFd pollIn actions c proper run shown rfl
    have served := EpollReactor.Counted.run_service eventFd pollIn proper run
    refine ⟨Service.toldBy_of_run served, fun fd => ?_⟩
    rw [← Service.requested_run served, EpollReactor.Counted.requested_service]

/-- A request of either reactor stands over the clean-up that ends the pass, and a notification of
the other direction. -/
theorem reactors_follow_calls_asked :
    ∃ (s : PollReactor.Reactor Nat) (c : EpollReactor.Counted Nat),
      (s.Armed 5 ∧ s.service.registration 5 .read = some (some 51)) ∧
      c.armed 5 = true ∧ c.service.registration 5 .read = some (some 51) := by
  obtain ⟨poll, epoll⟩ := reactors_follow_calls (κ := Nat)
  obtain ⟨told, armed⟩ := poll 3 1 [.call (.addRead 5 1 (some 51)),
    .call (.addWrite 5 (some 50) 6), .call (.reqWrite 5 4), .poll, .visit 1 1, .cleanup] _ (by
      simp [PollReactor.Proper, PollReactor.Op.fd]) rfl _ rfl
  obtain ⟨told', armed'⟩ := epoll 3 1 [.call (.openFd 5), .call (.addRead 5 1 (some 51) true),
    .call (.addWrite 5 (some 50) 6 true), .call (.reqWrite 5 0x40000004 true), .wait [(5, 1)],
    .dispatch, .cleanup] _ (by
      simp [EpollReactor.Counted.Proper, EpollReactor.epollOneShot]) rfl _ rfl
  exact ⟨_, _, ⟨(armed 5).mpr rfl, (told.registrations 5 .read).trans rfl⟩, (armed' 5).trans rfl,
    (told'.registrations 5 .read).trans rfl⟩

end Bfc.Registration
