import Mathlib.Data.List.Basic
import Mathlib.Logic.Function.Basic

/-!
# The poll reactor's tables

`detail::poll_reactor` keeps two structures that hold each other's places: `m_poll_entries`, the
vector handed to `::poll`, and `m_fd_entries`, the registrations by descriptor. This module is the
state and the operations on it as the source has them: `add_read`, `rem_read`, `add_write`,
`rem_write`, `req_write`, the helpers under them and the clean-up at the end of a pass.

Representation. A callback is an element of `κ`, and an empty `cb_t` is `none`. A poll index is
`none` where the source has `invalid_index()`, the largest `size_t`, which no vector reaches.
Generations are `Nat`: `Reactor.gen` is the number of poll entries ever added, so `++m_gen` on
`uint64_t` is the same for the first 2^64 - 1 of them. What a system call answers (`dup`) is an
argument of the operation that makes it, and the descriptors passed to `close` are kept in order.

`guardHits` is the one field the source does not have. It counts how often one of the three
helpers took its out-of-range guard, which in the source returns in silence.
-/

namespace Bfc.PollReactor

/-- `poll_kind`: whom a poll entry belongs to. -/
inductive PollKind where
  | wake
  | read
  | write
deriving DecidableEq, Repr

/-- `pollfd`, the kernel's record. -/
structure Pollfd where
  fd : Int
  events : BitVec 16 := 0
  revents : BitVec 16 := 0
deriving DecidableEq, Repr

/-- `fd_ctx_s`: the descriptor a registration watches and its callback. -/
structure FdCtx (κ : Type*) where
  fd : Int := -1
  cb : Option κ := none

/-- `fd_entry_s`: the two registrations of one descriptor. -/
structure FdEntry (κ : Type*) where
  fd : Int := -1
  readCtx : FdCtx κ := {}
  writeCtx : FdCtx κ := {}
  readActive : Bool := false
  writeActive : Bool := false
  readPollIndex : Option Nat := none
  writePollIndex : Option Nat := none
  readGen : Nat := 0
  writeGen : Nat := 0

/-- `poll_entry_s`: one watched descriptor, with the registration it belongs to. -/
structure PollEntry where
  pfd : Pollfd
  ownerFd : Int := -1
  kind : PollKind := .wake
  gen : Nat := 0
deriving DecidableEq, Repr

/-- The members of `detail::poll_reactor` that registrations and dispatch use. -/
structure Reactor (κ : Type*) where
  pollEntries : List PollEntry
  fdEntries : Int → Option (FdEntry κ) := fun _ => none
  pendingCleanup : List Int := []
  dispatch : List PollEntry := []
  gen : Nat := 0
  retiredCbs : List κ := []
  closed : List Int := []
  guardHits : Nat := 0

/-- The poll entry of the wake pipe's read end, as the constructor builds it. -/
def wakeEntry (wakeFd : Int) (pollIn : BitVec 16) : PollEntry :=
  { pfd := { fd := wakeFd, events := pollIn, revents := 0 }, ownerFd := -1, kind := .wake }

namespace Reactor

variable {κ : Type*}

/-- The reactor its constructor leaves. -/
def init (wakeFd : Int) (pollIn : BitVec 16) : Reactor κ :=
  { pollEntries := [wakeEntry wakeFd pollIn] }

/-! ## Parts of the state -/

/-- Stores the entry of a descriptor. -/
def putEntry (s : Reactor κ) (fd : Int) (entry : FdEntry κ) : Reactor κ :=
  { s with fdEntries := Function.update s.fdEntries fd (some entry) }

/-- `m_fd_entries[fd]`: the entry of a descriptor, a new one where there is none. -/
def entryOf (s : Reactor κ) (fd : Int) : FdEntry κ := (s.fdEntries fd).getD {}

/-- Writes through a reference to an entry. -/
def modifyEntry (s : Reactor κ) (fd : Int) (f : FdEntry κ → FdEntry κ) : Reactor κ :=
  { s with fdEntries := Function.update s.fdEntries fd ((s.fdEntries fd).map f) }

/-- The poll entry at an index, with the index: `none` is the helpers' guard
`index >= m_poll_entries.size()`. -/
def pollEntryAt (s : Reactor κ) (index : Option Nat) : Option (Nat × PollEntry) :=
  index.bind fun i => s.pollEntries[i]?.map fun p => (i, p)

/-- A helper's guard was taken. -/
def hitGuard (s : Reactor κ) : Reactor κ := { s with guardHits := s.guardHits + 1 }

/-! ## The helpers on the poll vector -/

/-- `add_poll_entry`: the new entry's index is its answer. -/
def addPollEntry (s : Reactor κ) (watchedFd ownerFd : Int) (kind : PollKind)
    (events : BitVec 16) : Reactor κ × Nat :=
  let entry : PollEntry :=
    { pfd := { fd := watchedFd, events := events, revents := 0 }, ownerFd := ownerFd,
      kind := kind, gen := s.gen + 1 }
  ({ s with gen := s.gen + 1, pollEntries := s.pollEntries ++ [entry] }, s.pollEntries.length)

/-- `m_poll_entries[index].gen`. -/
def genAt (s : Reactor κ) (index : Nat) : Nat := (s.pollEntries[index]?.map (·.gen)).getD 0

/-- `set_poll_entry`. -/
def setPollEntry (s : Reactor κ) (index : Option Nat) (watchedFd : Int)
    (events : BitVec 16) : Reactor κ :=
  match s.pollEntryAt index with
  | none => s.hitGuard
  | some (i, p) =>
    let p := { p with pfd := { fd := watchedFd, events := events, revents := 0 } }
    { s with pollEntries := s.pollEntries.set i p }

/-- `set_poll_events`. -/
def setPollEvents (s : Reactor κ) (index : Option Nat) (events : BitVec 16) : Reactor κ :=
  match s.pollEntryAt index with
  | none => s.hitGuard
  | some (i, p) =>
    let p := { p with pfd := { p.pfd with events := events, revents := 0 } }
    { s with pollEntries := s.pollEntries.set i p }

/-- `update_poll_index`: the owner of a moved poll entry learns its new place. -/
def updatePollIndex (s : Reactor κ) (ownerFd : Int) (kind : PollKind) (newIndex : Nat) :
    Reactor κ :=
  match s.fdEntries ownerFd with
  | none => s
  | some entry =>
    match kind with
    | .read => s.putEntry ownerFd { entry with readPollIndex := some newIndex }
    | .write => s.putEntry ownerFd { entry with writePollIndex := some newIndex }
    | .wake => s

/-- `remove_poll_entry_by_index`: the last entry moves into the hole. -/
def removePollEntryByIndex (s : Reactor κ) (index : Option Nat) : Reactor κ :=
  match s.pollEntryAt index with
  | none => s.hitGuard
  | some (i, _) =>
    match s.pollEntries.getLast? with
    | none => s
    | some moved =>
      let s := if i ≠ s.pollEntries.length - 1 then
          { s with pollEntries := s.pollEntries.set i moved }.updatePollIndex
            moved.ownerFd moved.kind i
        else s
      { s with pollEntries := s.pollEntries.dropLast }

/-- `retire_cb`: a removed callback is kept to the end of the pass. -/
def retireCb (s : Reactor κ) (cb : Option κ) : Reactor κ :=
  match cb with
  | none => s
  | some cb => { s with retiredCbs := s.retiredCbs ++ [cb] }

/-- The last lines of both removals: an entry with no registration left is to be cleaned up. -/
def notePending (s : Reactor κ) (fd : Int) : Reactor κ :=
  match s.fdEntries fd with
  | none => s
  | some entry =>
    if !entry.readActive && !entry.writeActive then
      { s with pendingCleanup := s.pendingCleanup ++ [fd] }
    else s

/-! ## Registrations -/

/-- `entry.fd = (entry.fd == -1) ? fd : entry.fd`. -/
def named (fd : Int) (entry : FdEntry κ) : FdEntry κ :=
  { entry with fd := if entry.fd = -1 then fd else entry.fd }

/-- `add_read`. -/
def addRead (s : Reactor κ) (fd : Int) (events : BitVec 32) (cb : Option κ) : Reactor κ × Bool :=
  let entry := { named fd (s.entryOf fd) with
    readCtx := { fd := fd, cb := cb }
    readActive := true }
  if entry.readPollIndex = none then
    let (s, index) := s.addPollEntry fd fd .read (events.setWidth 16)
    (s.putEntry fd { entry with readPollIndex := some index, readGen := s.genAt index }, true)
  else
    ((s.putEntry fd entry).setPollEntry entry.readPollIndex fd (events.setWidth 16), true)

/-- `rem_read`. -/
def remRead (s : Reactor κ) (fd : Int) : Reactor κ × Bool :=
  match s.fdEntries fd with
  | none => (s, false)
  | some entry =>
    let s := if entry.readActive ∧ entry.readCtx.fd ≠ -1 then
        ((s.removePollEntryByIndex entry.readPollIndex).retireCb entry.readCtx.cb).modifyEntry fd
          fun e => { e with readActive := false, readCtx := {}, readPollIndex := none }
      else s
    (s.notePending fd, true)

/-- `add_write`; `dupFd` is what `dup(fd)` answers if it is called. -/
def addWrite (s : Reactor κ) (fd : Int) (cb : Option κ) (dupFd : Int) : Reactor κ × Bool :=
  let entry := named fd (s.entryOf fd)
  let ctxFd := if entry.writeCtx.fd = -1 then dupFd else entry.writeCtx.fd
  if ctxFd = -1 then
    (s.putEntry fd { entry with writeCtx := { entry.writeCtx with fd := ctxFd } }, false)
  else
    let entry := { entry with writeCtx := { fd := ctxFd, cb := cb }, writeActive := true }
    if entry.writePollIndex = none then
      let (s, index) := s.addPollEntry ctxFd fd .write 0
      (s.putEntry fd { entry with writePollIndex := some index, writeGen := s.genAt index }, true)
    else
      ((s.putEntry fd entry).setPollEntry entry.writePollIndex ctxFd 0, true)

/-- `rem_write`. -/
def remWrite (s : Reactor κ) (fd : Int) : Reactor κ × Bool :=
  match s.fdEntries fd with
  | none => (s, false)
  | some entry =>
    let s := if entry.writeActive ∧ entry.writeCtx.fd ≠ -1 then
        let s := s.removePollEntryByIndex entry.writePollIndex
        let s := { s with closed := s.closed ++ [entry.writeCtx.fd] }
        (s.retireCb entry.writeCtx.cb).modifyEntry fd
          fun e => { e with writeActive := false, writeCtx := {}, writePollIndex := none }
      else s
    (s.notePending fd, true)

/-- `req_write`. -/
def reqWrite (s : Reactor κ) (fd : Int) (events : BitVec 32) : Reactor κ × Bool :=
  match s.fdEntries fd with
  | none => (s, false)
  | some entry =>
    if !entry.writeActive || entry.writeCtx.fd = -1 then (s, false)
    else (s.setPollEvents entry.writePollIndex (events.setWidth 16), true)

/-! ## The end of a pass -/

/-- One round of the clean-up loop: an entry added again since its removal is skipped. -/
def cleanupFd (s : Reactor κ) (fd : Int) : Reactor κ :=
  match s.fdEntries fd with
  | none => s
  | some entry =>
    if !entry.readActive && !entry.writeActive then
      { s with
        closed := if entry.writeCtx.fd ≠ -1 then s.closed ++ [entry.writeCtx.fd] else s.closed
        fdEntries := Function.update s.fdEntries fd none }
    else s

/-- The clean-up of a pass, and the release of the callbacks retired in it. -/
def cleanup (s : Reactor κ) : Reactor κ :=
  { s.pendingCleanup.foldl cleanupFd s with pendingCleanup := [], retiredCbs := [] }

end Reactor

/-! ## The calls a caller makes -/

/-- A registration call, with what the kernel answers to a `dup` in it. -/
inductive Op (κ : Type*) where
  | addRead (fd : Int) (events : BitVec 32) (cb : Option κ)
  | remRead (fd : Int)
  | addWrite (fd : Int) (cb : Option κ) (dupFd : Int)
  | remWrite (fd : Int)
  | reqWrite (fd : Int) (events : BitVec 32)

/-- The descriptor a call names. -/
def Op.fd {κ : Type*} : Op κ → Int
  | .addRead fd _ _ | .remRead fd | .addWrite fd _ _ | .remWrite fd | .reqWrite fd _ => fd

/-- The state and the answer of a call. -/
def Reactor.call {κ : Type*} (s : Reactor κ) : Op κ → Reactor κ × Bool
  | .addRead fd events cb => s.addRead fd events cb
  | .remRead fd => s.remRead fd
  | .addWrite fd cb dupFd => s.addWrite fd cb dupFd
  | .remWrite fd => s.remWrite fd
  | .reqWrite fd events => s.reqWrite fd events

/-- The state after a list of calls. -/
def Reactor.calls {κ : Type*} (s : Reactor κ) (ops : List (Op κ)) : Reactor κ :=
  ops.foldl (fun s op => (s.call op).1) s

end Bfc.PollReactor
