import Bfc.EpollReactor.Pass
import Bfc.PollReactor.Pass

/-!
# Additions that fail

`add_read` and `add_write` of both reactors make the entry, duplicate the descriptor and store the
callback before the step that can fail, and they take none of it back. `Registrations` is what there
is to change: the entries, with the callbacks of their active directions, the events that are armed,
and the duplicates that are open.

An addition that fails leaves all of it exactly when there was nothing for it to change: the
descriptor has an entry already, no duplicate has been made for it, and an active registration has
the very callback that was passed. The poll reactor stores the callback after its last failure, so
that for it the entry is all that counts. For both the condition can be told before the call, from
its arguments and what the kernel answers.
-/

namespace Bfc

open Lts

variable {κ : Type*}

/-- What is registered. An entry has a direction or not, and with a direction its callback, which
may be empty; `ω` is what a reactor keeps armed. -/
@[ext]
structure Registrations (κ ω : Type*) where
  entries : Int → Option (Option (Option κ) × Option (Option κ))
  armed : ω
  duplicates : Int → Prop

/-- A direction that is active has its callback. -/
def direction (active : Bool) (cb : Option κ) : Option (Option κ) :=
  if active then some cb else none

theorem direction_eq_iff {active : Bool} {cb cb' : Option κ} :
    direction active cb = direction active cb' ↔ (active = true → cb = cb') := by
  cases active with
  | false => simp [direction]
  | true => simp [direction]

/-- A call that answers `false` has left a view of the state as it was. -/
def FailureKeeps {σ ρ : Type*} (view : σ → ρ) (s : σ) (result : σ × Bool) : Prop :=
  result.2 = false → view result.1 = view s

theorem failureKeeps_iff {σ ρ : Type*} {view : σ → ρ} {s : σ} {result : σ × Bool}
    (failed : result.2 = false) : FailureKeeps view s result ↔ view result.1 = view s :=
  ⟨fun keeps => keeps failed, fun same _ => same⟩

/-- A table that is written at one key looks the same exactly if there was an entry that did. -/
theorem map_update_eq_iff {ε ρ : Type*} (table : Int → Option ε) (view : ε → ρ) (fd : Int) (e : ε) :
    (fun x => (Function.update table fd (some e) x).map view) = (fun x => (table x).map view) ↔
      ∃ old, table fd = some old ∧ view e = view old := by
  constructor
  · intro same
    have here := congrFun same fd
    rw [Function.update_self, Option.map_some] at here
    obtain ⟨old, hold, looks⟩ := Option.map_eq_some_iff.mp here.symm
    exact ⟨old, hold, looks.symm⟩
  · rintro ⟨old, hold, looks⟩
    funext x
    by_cases own : x = fd
    · subst own
      rw [Function.update_self, hold, Option.map_some, Option.map_some, looks]
    · rw [Function.update_of_ne own]

/-! ## The poll reactor -/

namespace PollReactor

/-- The directions of an entry. -/
def FdEntry.directions (e : FdEntry κ) : Option (Option κ) × Option (Option κ) :=
  (direction e.readActive e.readCtx.cb, direction e.writeActive e.writeCtx.cb)

namespace Reactor

/-- What is registered. A duplicate is held in the write context it was made for. -/
def registrations (s : Reactor κ) : Registrations κ (List PollEntry) where
  entries fd := (s.fdEntries fd).map FdEntry.directions
  armed := s.pollEntries
  duplicates d := d ≠ -1 ∧ ∃ fd e, s.fdEntries fd = some e ∧ e.writeCtx.fd = d

/-- An addition that fails has changed nothing. -/
def FailedAdditionKeeps (s : Reactor κ) : Event κ → Prop
  | .call (.addRead fd events cb) => FailureKeeps registrations s (s.addRead fd events cb)
  | .call (.addWrite fd cb dupFd) => FailureKeeps registrations s (s.addWrite fd cb dupFd)
  | _ => True

/-- The condition on an addition: `add_write` finds an entry, or `dup` succeeds. -/
def Prepared (s : Reactor κ) : Event κ → Prop
  | .call (.addWrite fd _ dupFd) => (s.fdEntries fd).isSome ∨ dupFd ≠ -1
  | _ => True

/-- `add_read` does not fail. -/
theorem addRead_succeeds (s : Reactor κ) (fd : Int) (events : BitVec 32) (cb : Option κ) :
    (s.addRead fd events cb).2 = true := by
  unfold addRead
  dsimp only
  split
  · rfl
  · rfl

/-- An entry that is stored in place of another, with the same directions and duplicate. -/
theorem registrations_putEntry {s : Reactor κ} {fd : Int} {old e : FdEntry κ}
    (hold : s.fdEntries fd = some old) (looks : e.directions = old.directions)
    (same : e.writeCtx.fd = old.writeCtx.fd) :
    (s.putEntry fd e).registrations = s.registrations := by
  have entries := (map_update_eq_iff s.fdEntries FdEntry.directions fd e).mpr ⟨old, hold, looks⟩
  have fds := (map_update_eq_iff s.fdEntries (·.writeCtx.fd) fd e).mpr ⟨old, hold, same⟩
  have duplicates : ∀ t : Reactor κ, t.registrations.duplicates =
      fun d => d ≠ -1 ∧ ∃ fd, (t.fdEntries fd).map (·.writeCtx.fd) = some d := by
    intro t
    funext d
    simp only [registrations, Option.map_eq_some_iff]
  refine Registrations.ext entries rfl ?_
  rw [duplicates, duplicates]
  exact funext fun d => congrArg (fun table => d ≠ -1 ∧ ∃ x, table x = some d) fds

/-- `add_write` fails where `dup` does, and has stored the entry by then. -/
theorem addWrite_failed {s : Reactor κ} {fd dupFd : Int} {cb : Option κ}
    (failed : (s.addWrite fd cb dupFd).2 = false) :
    dupFd = -1 ∧ (s.addWrite fd cb dupFd).1 = s.putEntry fd (named fd (s.entryOf fd)) := by
  have named_ctx : (named fd (s.entryOf fd)).writeCtx = (s.entryOf fd).writeCtx := rfl
  by_cases none_held : (s.entryOf fd).writeCtx.fd = -1
  · by_cases fails : dupFd = -1
    · refine ⟨fails, ?_⟩
      have ctx : ({ (s.entryOf fd).writeCtx with fd := dupFd } : FdCtx κ) =
          (s.entryOf fd).writeCtx := by rw [fails, ← none_held]
      simp only [addWrite, named_ctx, none_held, if_true, fails] at ctx ⊢
      rw [ctx]
      rfl
    · simp only [addWrite, named_ctx, none_held, if_true, fails, if_false] at failed
      split at failed
      · cases failed
      · cases failed
  · simp only [addWrite, named_ctx, none_held, if_false] at failed
    split at failed
    · cases failed
    · cases failed

theorem addWrite_keeps_iff (s : Reactor κ) (fd : Int) (cb : Option κ) (dupFd : Int) :
    FailureKeeps registrations s (s.addWrite fd cb dupFd) ↔
      (s.fdEntries fd).isSome ∨ dupFd ≠ -1 := by
  cases he : s.fdEntries fd with
  | none =>
    by_cases fails : dupFd = -1
    · subst fails
      refine iff_of_false (fun keeps => ?_) (by simp)
      have failed : (s.addWrite fd cb (-1)).2 = false := by
        simp [addWrite, entryOf, he, named]
      have entries := congrArg Registrations.entries (keeps failed)
      rw [(addWrite_failed failed).2] at entries
      obtain ⟨old, hold, -⟩ := (map_update_eq_iff ..).mp entries
      rw [he] at hold
      cases hold
    · exact iff_of_true (fun failed => absurd (addWrite_failed failed).1 fails) (.inr fails)
  | some e =>
    refine iff_of_true (fun failed => ?_) (.inl rfl)
    have stored : s.entryOf fd = e := by rw [entryOf, he, Option.getD_some]
    rw [(addWrite_failed failed).2, stored]
    exact registrations_putEntry he rfl rfl

/-- An addition that fails keeps what is registered exactly if it meets the condition. -/
theorem keeps_iff (s : Reactor κ) (event : Event κ) :
    s.FailedAdditionKeeps event ↔ s.Prepared event := by
  cases event with
  | call op =>
    cases op with
    | addRead fd events cb =>
      refine iff_of_true (fun failed => ?_) trivial
      rw [addRead_succeeds] at failed
      cases failed
    | addWrite fd cb dupFd => exact s.addWrite_keeps_iff fd cb dupFd
    | remRead | remWrite | reqWrite => exact Iff.rfl
  | poll | visit | cleanup => exact Iff.rfl

end Reactor

end PollReactor

/-! ## The epoll reactor -/

namespace EpollReactor

/-- The directions of an entry. -/
def FdEntry.directions (e : FdEntry κ) : Option (Option κ) × Option (Option κ) :=
  (direction e.readActive e.readCtx.cb, direction e.writeActive e.writeCtx.cb)

namespace Reactor

/-- What is registered, and what the kernel has for it. -/
def registrations (s : Reactor κ) : Registrations κ (Int → Option Watch) where
  entries fd := (s.fdEntries fd).map FdEntry.directions
  armed := s.kernel.interest
  duplicates d := ∃ fd, s.kernel.fds d = some (.duplicate fd)

/-- An addition that fails has changed nothing. -/
def FailedAdditionKeeps (s : Reactor κ) : Event κ → Prop
  | .call (.addRead fd events cb added) =>
    FailureKeeps registrations s (s.addRead fd events cb added)
  | .call (.addWrite fd cb dupFd added) =>
    FailureKeeps registrations s (s.addWrite fd cb dupFd added)
  | _ => True

/-- The condition on an addition. It succeeds; or the descriptor has an entry, the addition makes no
duplicate, and if it passes `EPOLL_CTL_ADD` the callback of an active registration, it is the same
one. -/
def Prepared (s : Reactor κ) : Event κ → Prop
  | .call (.addRead fd _ cb added) =>
    added = true ∨ ∃ e, s.fdEntries fd = some e ∧ (e.readActive = true → cb = e.readCtx.cb)
  | .call (.addWrite fd cb dupFd added) =>
    added = true ∧ (s.entryOf fd).writeFd dupFd ≠ -1 ∨
      ∃ e, s.fdEntries fd = some e ∧
        if e.writeCtx.fd = -1 then dupFd = -1 else e.writeActive = true → cb = e.writeCtx.cb
  | _ => True

/-- An entry that is stored, with nothing done to the kernel, is not seen exactly if there was one
that looks the same. -/
theorem registrations_eq_iff {s t : Reactor κ} {fd : Int} {e : FdEntry κ}
    (entries : t.fdEntries = Function.update s.fdEntries fd (some e))
    (kernel : t.kernel = s.kernel) :
    t.registrations = s.registrations ↔
      ∃ old, s.fdEntries fd = some old ∧ e.directions = old.directions := by
  rw [← map_update_eq_iff, ← entries]
  constructor
  · exact congrArg Registrations.entries
  · intro same
    refine Registrations.ext same ?_ ?_
    · exact congrArg Kernel.interest kernel
    · exact congrArg (fun (k : Kernel) d => ∃ fd, k.fds d = some (.duplicate fd)) kernel

theorem addRead_keeps_iff (s : Reactor κ) (fd : Int) (events : BitVec 32) (cb : Option κ)
    (added : Bool) :
    FailureKeeps registrations s (s.addRead fd events cb added) ↔
      added = true ∨ ∃ e, s.fdEntries fd = some e ∧ (e.readActive = true → cb = e.readCtx.cb) := by
  cases added with
  | true => exact iff_of_true (fun failed => by cases failed) (.inl rfl)
  | false =>
    have stored : (s.addRead fd events cb false).1.registrations = s.registrations ↔ _ :=
      registrations_eq_iff rfl rfl
    rw [failureKeeps_iff rfl, stored, or_iff_right Bool.false_ne_true]
    refine exists_congr fun e => and_congr_right fun he => ?_
    have old : ({ s with adds := s.adds + 1 } : Reactor κ).entryOf fd = e := Agree.entryOf_eq he
    rw [old, ← direction_eq_iff]
    exact Prod.ext_iff.trans (and_iff_left rfl)

/-- `dup` fails, and the entry has been stored by then. -/
theorem addWrite_dup_fails {s : Reactor κ} {fd dupFd : Int} (cb : Option κ) (added : Bool)
    (fails : (s.entryOf fd).writeFd dupFd = -1) :
    s.addWrite fd cb dupFd added =
      (({ s with adds := s.adds + 1 } : Reactor κ).putEntry fd ((s.entryOf fd).named fd), false) :=
  if_pos fails

theorem dupped_kernel (s : Reactor κ) (fd dupFd : Int) :
    (s.dupped fd dupFd).kernel =
      if (s.entryOf fd).writeCtx.fd = -1 then s.kernel.openFd dupFd (.duplicate fd)
      else s.kernel := by
  unfold dupped
  split
  · rfl
  · rfl

/-- There is a duplicate, and `EPOLL_CTL_ADD` fails: the callback has been stored by then. -/
theorem addWrite_add_fails {s : Reactor κ} {fd dupFd : Int} (cb : Option κ)
    (held : (s.entryOf fd).writeFd dupFd ≠ -1) :
    ∃ t e, s.addWrite fd cb dupFd false = (t, false) ∧
      t.fdEntries = Function.update s.fdEntries fd (some e) ∧
      t.kernel = (if (s.entryOf fd).writeCtx.fd = -1 then s.kernel.openFd dupFd (.duplicate fd)
        else s.kernel) ∧
      e.directions = (direction (s.entryOf fd).readActive (s.entryOf fd).readCtx.cb,
        direction (s.entryOf fd).writeActive cb) := by
  have entries := (Agree.dupped_same { s with adds := s.adds + 1 } fd dupFd).1
  exact ⟨_, _, if_neg held, congrArg (fun table => Function.update table fd _) entries,
    dupped_kernel _ fd dupFd, rfl⟩

theorem addWrite_keeps_iff {s : Reactor κ} {fd dupFd : Int} (cb : Option κ) (added : Bool)
    (allowed : s.allows (.addWrite fd cb dupFd added)) :
    FailureKeeps registrations s (s.addWrite fd cb dupFd added) ↔
      added = true ∧ (s.entryOf fd).writeFd dupFd ≠ -1 ∨
        ∃ e, s.fdEntries fd = some e ∧
          if e.writeCtx.fd = -1 then dupFd = -1 else e.writeActive = true → cb = e.writeCtx.cb := by
  by_cases held : (s.entryOf fd).writeFd dupFd = -1
  · -- `dup` fails, and only the entry may be new
    have stored : (s.addWrite fd cb dupFd added).1.registrations = s.registrations ↔
        ∃ old, s.fdEntries fd = some old ∧
          ((s.entryOf fd).named fd).directions = old.directions := by
      rw [addWrite_dup_fails cb added held]
      exact registrations_eq_iff rfl rfl
    rw [failureKeeps_iff (by rw [addWrite_dup_fails cb added held]), stored,
      or_iff_right fun done => done.2 held]
    refine exists_congr fun e => and_congr_right fun he => ?_
    rw [Agree.entryOf_eq he] at held ⊢
    refine iff_of_true rfl ?_
    unfold FdEntry.writeFd at held
    split at held
    · rename_i none_held
      rwa [if_pos none_held]
    · rename_i own
      exact absurd held own
  · cases added with
    | true =>
      refine iff_of_true (fun failed => ?_) (.inl ⟨rfl, held⟩)
      cases (congrArg Prod.snd (if_neg held)).symm.trans failed
    | false =>
      obtain ⟨t, e, failed, entries, kernel, directions⟩ := addWrite_add_fails cb held
      rw [failed, failureKeeps_iff rfl, or_iff_right fun done => Bool.false_ne_true done.1]
      by_cases none_held : (s.entryOf fd).writeCtx.fd = -1
      · -- the duplicate stays open
        have new : s.kernel.fds dupFd = none ∧ dupFd ≠ -1 := by
          rw [FdEntry.writeFd, if_pos none_held] at held
          exact ⟨(allowed.2.1.resolve_left held).2.1, held⟩
        refine iff_of_false (fun same => ?_) ?_
        · have kept : t.registrations.duplicates dupFd := by
            refine ⟨fd, ?_⟩
            rw [kernel, if_pos none_held]
            exact Function.update_self ..
          rw [same] at kept
          obtain ⟨fd', stored⟩ := kept
          rw [new.1] at stored
          cases stored
        · rintro ⟨old, hold, condition⟩
          rw [Agree.entryOf_eq hold] at none_held
          rw [if_pos none_held] at condition
          exact new.2 condition
      · rw [if_neg none_held] at kernel
        rw [registrations_eq_iff entries kernel]
        refine exists_congr fun old => and_congr_right fun hold => ?_
        rw [Agree.entryOf_eq hold] at directions none_held
        rw [directions, if_neg none_held, ← direction_eq_iff]
        exact Prod.ext_iff.trans (and_iff_right rfl)

/-- An addition that fails keeps what is registered exactly if it meets the condition. -/
theorem keeps_iff {s t : Reactor κ} {event : Event κ} (step : s.step event = some t) :
    s.FailedAdditionKeeps event ↔ s.Prepared event := by
  cases event with
  | call op =>
    have allowed := (Option.ite_none_right_eq_some.mp step).1
    cases op with
    | addRead fd events cb added => exact s.addRead_keeps_iff fd events cb added
    | addWrite fd cb dupFd added => exact addWrite_keeps_iff cb added allowed
    | openFd | closeFd | remRead | remWrite | reqWrite => exact Iff.rfl
  | cleanup => exact Iff.rfl

end Reactor

end EpollReactor

/-! ## Both -/

/-- **When failed additions change nothing.** In every run of either reactor, the additions that
fail leave the entries, the active directions with their callbacks, the armed events and the open
duplicates as they were, if and only if each addition of the run meets the condition where it is
made. -/
theorem failed_additions_keep_iff :
    (∀ (wakeFd : Int) (pollIn : BitVec 16) (events : List (PollReactor.Event κ)),
      AllSteps (fun s event => some (PollReactor.Reactor.step s event))
          PollReactor.Reactor.FailedAdditionKeeps (.init wakeFd pollIn) events ↔
        AllSteps (fun s event => some (PollReactor.Reactor.step s event))
          PollReactor.Reactor.Prepared (.init wakeFd pollIn) events) ∧
    ∀ (eventFd : Nat) (pollIn : BitVec 32) (events : List (EpollReactor.Event κ)),
      AllSteps EpollReactor.Reactor.step EpollReactor.Reactor.FailedAdditionKeeps
          (.init eventFd pollIn) events ↔
        AllSteps EpollReactor.Reactor.step EpollReactor.Reactor.Prepared
          (.init eventFd pollIn) events := by
  constructor
  · intro wakeFd pollIn events
    exact allSteps_congr (fun _ => PollReactor.Reactor.keeps_iff _ _) events _
  · intro eventFd pollIn events
    exact allSteps_congr (fun step => EpollReactor.Reactor.keeps_iff step) events _

/-- **A failed addition replaces a callback.** Descriptor 4 has a read registration in the epoll
reactor, and a second `add_read` for it fails. What it was given is the callback now. -/
theorem failed_addition_replaces :
    ¬∀ (eventFd : Nat) (pollIn : BitVec 32) (events : List (EpollReactor.Event Bool)),
      AllSteps EpollReactor.Reactor.step EpollReactor.Reactor.FailedAdditionKeeps
        (.init eventFd pollIn) events := by
  intro keeps
  have last := ((keeps 3 1 [.call (.openFd 4), .call (.addRead 4 1 (some true) true),
    .call (.addRead 4 1 (some false) false)] _ rfl).2 _ rfl).2 _ rfl
  have entries := congrFun (congrArg Registrations.entries (last.1 rfl)) 4
  have replaced : (some (some (some false), none) : Option (Option (Option Bool) × _)) =
      some (some (some true), none) := entries
  exact absurd replaced (by decide)

end Bfc
