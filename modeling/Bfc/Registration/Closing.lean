import Bfc.EpollReactor.Duplicates
import Bfc.EpollReactor.Pass
import Bfc.PollReactor.Duplicates

/-!
# Duplicates are closed exactly once

`duplicates_exact` is what both reactors do with the duplicates: one is open for each descriptor
that is registered for writing, `rem_write` or the clean-up closes it, and nothing else is ever
closed, whatever the program opens and closes beside. The poll reactor has a duplicate open for no
other descriptor. The epoll reactor may, where `EPOLL_CTL_ADD` refused it: it stays with the entry,
for the next `add_write` or the clean-up. The destructors close none of them.
-/

namespace Bfc.Registration

open Lts

variable {κ : Type*}

/-- **Both reactors close what they duplicated exactly once.** In every run each close names a
duplicate that is open then, and each `dup` is of a descriptor without one; at its end there is one
for each descriptor registered for writing. -/
theorem duplicates_exact :
    (∀ (readEnd writeEnd : Int) (pollIn : BitVec 16) (events : List (PollReactor.FiledEvent κ))
      (w : PollReactor.Filed κ),
      events.foldlM PollReactor.Filed.step (.init readEnd writeEnd pollIn) = some w →
      ∀ shown, shown = shows PollReactor.Filed.step PollReactor.Filed.view
        (.init readEnd writeEnd pollIn) events →
      Custody.Exact (PollReactor.Filed.init readEnd writeEnd pollIn : PollReactor.Filed κ).files
          shown w.custody ∧
        w.reactor.closed = shown.filterMap FileAction.closes ∧
        ∀ fd, (∃ x, w.files x = some (.duplicate fd)) ↔
          ∃ e, w.reactor.fdEntries fd = some e ∧ e.writeActive = true) ∧
    ∀ (eventFd : Nat) (pollIn : BitVec 32) (events : List (EpollReactor.Event κ))
      (s : EpollReactor.Reactor κ),
      events.foldlM EpollReactor.Reactor.step (.init eventFd pollIn) = some s →
      ∀ shown, shown = shows EpollReactor.Reactor.step EpollReactor.Reactor.fileView
        (.init eventFd pollIn) events →
      Custody.Exact (EpollReactor.Reactor.init eventFd pollIn :
          EpollReactor.Reactor κ).custody.files shown s.custody ∧
        ∀ fd e, s.fdEntries fd = some e → e.writeActive = true →
          ∃ x, s.custody.files x = some (.duplicate fd) := by
  constructor
  · rintro readEnd writeEnd pollIn events w run shown rfl
    obtain ⟨consistent, custody⟩ := PollReactor.run_custody run
    have isExact := Custody.exact_of_run (fun x fd duplicate => ?_) custody
    refine ⟨isExact, PollReactor.run_closed run, fun fd => ?_⟩
    · calc (∃ x, w.files x = some (.duplicate fd))
        _ ↔ ∃ x, w.reactor.duplicate fd = some x := exists_congr fun x => isExact.held x fd
        _ ↔ ∃ e, w.reactor.fdEntries fd = some e ∧ e.writeActive = true :=
          PollReactor.duplicate_iff_registered consistent fd
    · change (if x = readEnd ∨ x = writeEnd then some Owner.reactor else none) = _ at duplicate
      split at duplicate <;> cases duplicate
  · rintro eventFd pollIn events s run shown rfl
    have isExact := Custody.exact_of_run (fun x fd duplicate => ?_)
      (EpollReactor.run_custody eventFd pollIn run)
    refine ⟨isExact, fun fd e he active => ⟨e.writeCtx.fd, ?_⟩⟩
    · have ok := (EpollReactor.Agree.run (run_of_foldlM run)).entries fd e he
      exact congrArg (Option.map EpollReactor.Owner.shown) (ok.duplicate (ok.write active).1)
    · change (Function.update (fun _ => none) (eventFd : Int) (some EpollReactor.Owner.event) x).map
        EpollReactor.Owner.shown = _ at duplicate
      by_cases own : x = eventFd
      · subst own
        rw [Function.update_self] at duplicate
        cases duplicate
      · rw [Function.update_of_ne own] at duplicate
        cases duplicate

/-- A descriptor is registered for writing, removed and registered again in one pass: both reactors
open its second duplicate under a number that the program had in between. -/
theorem duplicates_exact_again :
    ∃ (w : PollReactor.Filed Nat) (s : EpollReactor.Reactor Nat),
      w.reactor.closed = [6] ∧ (∃ x, w.files x = some (.duplicate 5)) ∧
      ∃ x, s.custody.files x = some (.duplicate 5) := by
  obtain ⟨poll, epoll⟩ := duplicates_exact (κ := Nat)
  obtain ⟨-, closed, there⟩ := poll 3 4 1 [.openFd 5, .event (.call (.addWrite 5 (some 50) 6)),
    .event (.call (.remWrite 5)), .openFd 6, .closeFd 6,
    .event (.call (.addWrite 5 (some 51) 6)), .event .cleanup] _ rfl _ rfl
  obtain ⟨-, there'⟩ := epoll 3 1 [.call (.openFd 5), .call (.addWrite 5 (some 50) 6 true),
    .call (.remWrite 5), .call (.openFd 6), .call (.closeFd 6),
    .call (.addWrite 5 (some 51) 6 true), .cleanup] _ rfl _ rfl
  exact ⟨_, _, closed.trans rfl, (there 5).mpr ⟨_, rfl, rfl⟩, there' 5 _ rfl rfl⟩

end Bfc.Registration
