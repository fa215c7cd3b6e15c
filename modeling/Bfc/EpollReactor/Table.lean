import Mathlib.Logic.Function.Basic
import Bfc.Lib.Transition

/-!
# The registrations of the epoll reactor

`detail::epoll_reactor` as far as registrations go: the entries of `m_fd_entries` with their two
contexts, the deferred clean-up, and the calls that change them. The kernel is here too, because the
reactor hands it pointers into the map: the descriptors that are open, and the interest set, which
has the pointer for each descriptor watched. An entry's place in memory is its descriptor and the
number of the node that was made for it, so that an entry made later for the same descriptor is
elsewhere.

What the kernel answers is part of a call: what `dup` returns and whether `EPOLL_CTL_ADD` or
`EPOLL_CTL_MOD` succeeds. `allows` is what it can answer, and what callers do: they use descriptors
of their own, and close none that has a read registration. `EPOLL_CTL_DEL` of a watched descriptor
succeeds.

`adds` counts the calls of `add_read` and `add_write`; a context keeps, for the record, which of
them stored its callback and which armed it.
-/

namespace Bfc.EpollReactor

/-- The two directions of a descriptor. -/
inductive Side where
  | read
  | write
deriving DecidableEq, Repr

/-- `event.data.ptr`: the eventfd's context, or a context of an entry. -/
inductive Ptr where
  | eventFdCtx
  | ctx (fd : Int) (node : Nat) (side : Side)
deriving DecidableEq, Repr

/-- What the kernel has for a watched descriptor: `epoll_event`. -/
structure Watch where
  events : BitVec 32
  ptr : Ptr
deriving DecidableEq, Repr

/-- Whose an open descriptor is: a caller's, the eventfd, or the reactor's duplicate of another. -/
inductive Owner where
  | caller
  | event
  | duplicate (fd : Int)
deriving DecidableEq, Repr

/-- The open descriptors and the interest set. -/
structure Kernel where
  fds : Int → Option Owner := fun _ => none
  interest : Int → Option Watch := fun _ => none

/-- `fd_ctx_s`. -/
structure FdCtx (κ : Type*) where
  fd : Int := -1
  events : BitVec 32 := 0
  cb : Option κ := none
  storedBy : Nat := 0
  armedBy : Nat := 0

/-- `fd_entry_s`, with its node. -/
structure FdEntry (κ : Type*) where
  fd : Int := -1
  node : Nat
  readCtx : FdCtx κ := {}
  writeCtx : FdCtx κ := {}
  readActive : Bool := false
  writeActive : Bool := false

/-- The members of `detail::epoll_reactor` that registrations and dispatch use, and the kernel. -/
structure Reactor (κ : Type*) where
  eventFd : Int
  fdEntries : Int → Option (FdEntry κ) := fun _ => none
  nodes : Nat := 0
  pendingCleanup : List Int := []
  kernel : Kernel
  adds : Nat := 0

namespace Kernel

/-- `EPOLL_CTL_ADD` and `EPOLL_CTL_DEL`. -/
def ctl (k : Kernel) (fd : Int) (watch : Option Watch) : Kernel :=
  { k with interest := Function.update k.interest fd watch }

/-- `EPOLL_CTL_MOD`. -/
def modify (k : Kernel) (fd : Int) (events : BitVec 32) : Kernel :=
  k.ctl fd ((k.interest fd).map fun watch => { watch with events := events })

/-- A descriptor is opened. -/
def openFd (k : Kernel) (fd : Int) (owner : Owner) : Kernel :=
  { k with fds := Function.update k.fds fd (some owner) }

/-- `close`: the descriptor leaves the interest set too. -/
def close (k : Kernel) (fd : Int) : Kernel :=
  { fds := Function.update k.fds fd none, interest := Function.update k.interest fd none }

end Kernel

namespace FdEntry

variable {κ : Type*}

/-- The context of a direction. -/
def ctx (e : FdEntry κ) : Side → FdCtx κ
  | .read => e.readCtx
  | .write => e.writeCtx

/-- A direction is registered. -/
def active (e : FdEntry κ) : Side → Bool
  | .read => e.readActive
  | .write => e.writeActive

/-- The descriptor that `add_write` watches: the duplicate there is, or the one `dup` answers. -/
def writeFd (e : FdEntry κ) (dupFd : Int) : Int :=
  if e.writeCtx.fd = -1 then dupFd else e.writeCtx.fd

/-- `entry.fd = (entry.fd == -1) ? fd : entry.fd`. -/
def named (e : FdEntry κ) (fd : Int) : FdEntry κ := { e with fd := if e.fd = -1 then fd else e.fd }

end FdEntry

namespace Reactor

variable {κ : Type*}

/-- The reactor its constructor leaves. -/
def init (eventFd : Nat) (pollIn : BitVec 32) : Reactor κ where
  eventFd := eventFd
  kernel := (({} : Kernel).openFd eventFd .event).ctl eventFd
    (some { events := pollIn, ptr := .eventFdCtx })

/-- Stores the entry of a descriptor. -/
def putEntry (s : Reactor κ) (fd : Int) (entry : FdEntry κ) : Reactor κ :=
  { s with
    fdEntries := Function.update s.fdEntries fd (some entry)
    nodes := max s.nodes (entry.node + 1) }

/-- `m_fd_entries[fd]`: the entry of a descriptor, a new node where there is none. -/
def entryOf (s : Reactor κ) (fd : Int) : FdEntry κ := (s.fdEntries fd).getD { node := s.nodes }

/-- What the kernel has becomes this. -/
def withKernel (s : Reactor κ) (k : Kernel) : Reactor κ := { s with kernel := k }

/-- `add_read`; `added` is whether `EPOLL_CTL_ADD` succeeds. -/
def addRead (s : Reactor κ) (fd : Int) (events : BitVec 32) (cb : Option κ) (added : Bool) :
    Reactor κ × Bool :=
  let s := { s with adds := s.adds + 1 }
  let entry := (s.entryOf fd).named fd
  let ctx : FdCtx κ :=
    { entry.readCtx with fd := fd, events := events, cb := cb, storedBy := s.adds }
  if added then
    let watch : Watch := { events := events, ptr := .ctx fd entry.node .read }
    ((s.withKernel (s.kernel.ctl fd (some watch))).putEntry fd
      { entry with readCtx := { ctx with armedBy := s.adds }, readActive := true }, true)
  else (s.putEntry fd { entry with readCtx := ctx }, false)

/-- `m_pending_cleanup.push_back(fd)`, if neither direction is registered. -/
def notePending (s : Reactor κ) (fd : Int) (entry : FdEntry κ) : Reactor κ :=
  if !entry.readActive && !entry.writeActive then
    { s with pendingCleanup := s.pendingCleanup ++ [fd] }
  else s

/-- `rem_read`. -/
def remRead (s : Reactor κ) (fd : Int) : Reactor κ × Bool :=
  match s.fdEntries fd with
  | none => (s, false)
  | some entry =>
    if entry.readActive ∧ entry.readCtx.fd ≠ -1 then
      let s := s.withKernel (s.kernel.ctl entry.readCtx.fd none)
      let entry := { entry with
        readActive := false
        readCtx := { entry.readCtx with cb := none, fd := -1 } }
      ((s.putEntry fd entry).notePending fd entry, true)
    else (s.notePending fd entry, true)

/-- `dup(fd)`, if the write context has no descriptor. -/
def dupped (s : Reactor κ) (fd dupFd : Int) : Reactor κ :=
  if (s.entryOf fd).writeCtx.fd = -1 then s.withKernel (s.kernel.openFd dupFd (.duplicate fd))
  else s

/-- `add_write`; `dupFd` is what `dup(fd)` answers if it is called, and `added` is whether
`EPOLL_CTL_ADD` succeeds. -/
def addWrite (s : Reactor κ) (fd : Int) (cb : Option κ) (dupFd : Int) (added : Bool) :
    Reactor κ × Bool :=
  let s := { s with adds := s.adds + 1 }
  let entry := (s.entryOf fd).named fd
  let ctxFd := entry.writeFd dupFd
  if ctxFd = -1 then (s.putEntry fd entry, false)
  else
    let s := s.dupped fd dupFd
    let ctx : FdCtx κ :=
      { entry.writeCtx with fd := ctxFd, events := 0, cb := cb, storedBy := s.adds }
    if added then
      let watch : Watch := { events := 0, ptr := .ctx fd entry.node .write }
      ((s.withKernel (s.kernel.ctl ctxFd (some watch))).putEntry fd
        { entry with writeCtx := { ctx with armedBy := s.adds }, writeActive := true }, true)
    else (s.putEntry fd { entry with writeCtx := ctx }, false)

/-- `rem_write`. -/
def remWrite (s : Reactor κ) (fd : Int) : Reactor κ × Bool :=
  match s.fdEntries fd with
  | none => (s, false)
  | some entry =>
    if entry.writeActive ∧ entry.writeCtx.fd ≠ -1 then
      let s := s.withKernel ((s.kernel.ctl entry.writeCtx.fd none).close entry.writeCtx.fd)
      let entry := { entry with
        writeCtx := { entry.writeCtx with fd := -1, cb := none }
        writeActive := false }
      ((s.putEntry fd entry).notePending fd entry, true)
    else (s.notePending fd entry, true)

/-- `req_write`; `modified` is whether `EPOLL_CTL_MOD` succeeds. -/
def reqWrite (s : Reactor κ) (fd : Int) (events : BitVec 32) (modified : Bool) :
    Reactor κ × Bool :=
  match s.fdEntries fd with
  | none => (s, false)
  | some entry =>
    if !entry.writeActive ∨ entry.writeCtx.fd = -1 then (s, false)
    else
      let s := s.putEntry fd
        { entry with writeCtx := { entry.writeCtx with events := events } }
      if modified then (s.withKernel (s.kernel.modify entry.writeCtx.fd events), true)
      else (s, false)

/-- One round of the clean-up loop. -/
def cleanupFd (s : Reactor κ) (fd : Int) : Reactor κ :=
  match s.fdEntries fd with
  | none => s
  | some entry =>
    -- an entry that has been re-armed since its removal is skipped
    if !entry.readActive && !entry.writeActive then
      let s := if entry.writeCtx.fd ≠ -1 then s.withKernel (s.kernel.close entry.writeCtx.fd) else s
      { s with fdEntries := Function.update s.fdEntries fd none }
    else s

/-- The clean-up of a pass. -/
def cleanup (s : Reactor κ) : Reactor κ :=
  { s.pendingCleanup.foldl cleanupFd s with pendingCleanup := [] }

end Reactor

/-! ## Calls -/

/-- What the reactor thread or a caller does: a call, with the kernel's answers, or a descriptor
of the caller's that is opened or closed. -/
inductive Op (κ : Type*) where
  | openFd (fd : Int)
  | closeFd (fd : Int)
  | addRead (fd : Int) (events : BitVec 32) (cb : Option κ) (added : Bool)
  | remRead (fd : Int)
  | addWrite (fd : Int) (cb : Option κ) (dupFd : Int) (added : Bool)
  | remWrite (fd : Int)
  | reqWrite (fd : Int) (events : BitVec 32) (modified : Bool)

namespace Reactor

variable {κ : Type*}

/-- A descriptor is not one of the reactor's own, which no caller knows. -/
def foreign (s : Reactor κ) (fd : Int) : Prop :=
  s.kernel.fds fd = none ∨ s.kernel.fds fd = some .caller

instance (s : Reactor κ) (fd : Int) : Decidable (s.foreign fd) :=
  inferInstanceAs (Decidable (_ ∨ _))

/-- What callers do and the kernel can answer: `openFd` and `dup` give a number that is free,
`EPOLL_CTL_ADD` fails for a descriptor that is not open or is watched already, and a caller removes
the read registration of a descriptor before closing it. -/
def allows (s : Reactor κ) : Op κ → Prop
  | .openFd fd => 0 ≤ fd ∧ s.kernel.fds fd = none
  | .closeFd fd =>
    s.kernel.fds fd = some .caller ∧ (s.fdEntries fd).all (fun e => !e.readActive) = true
  | .addRead fd _ _ added =>
    s.foreign fd ∧ (added = true → s.kernel.fds fd = some .caller ∧ s.kernel.interest fd = none)
  | .addWrite fd _ dupFd added =>
    s.foreign fd ∧
      (dupFd = -1 ∨ 0 ≤ dupFd ∧ s.kernel.fds dupFd = none ∧ s.kernel.fds fd = some .caller) ∧
      (added = true → s.kernel.interest ((s.entryOf fd).writeFd dupFd) = none)
  | .remRead _ | .remWrite _ | .reqWrite .. => True

instance (s : Reactor κ) (op : Op κ) : Decidable (s.allows op) := by
  cases op <;> unfold allows <;> infer_instance

/-- The effect of a call. -/
def perform (s : Reactor κ) : Op κ → Reactor κ
  | .openFd fd => s.withKernel (s.kernel.openFd fd .caller)
  | .closeFd fd => s.withKernel (s.kernel.close fd)
  | .addRead fd events cb added => (s.addRead fd events cb added).1
  | .remRead fd => (s.remRead fd).1
  | .addWrite fd cb dupFd added => (s.addWrite fd cb dupFd added).1
  | .remWrite fd => (s.remWrite fd).1
  | .reqWrite fd events modified => (s.reqWrite fd events modified).1

/-- A call, where it can be made and answered so. -/
def call (s : Reactor κ) (op : Op κ) : Option (Reactor κ) :=
  if s.allows op then some (s.perform op) else none

/-- The calls one after the other. -/
def calls (s : Reactor κ) (ops : List (Op κ)) : Option (Reactor κ) := ops.foldlM call s

end Reactor

end Bfc.EpollReactor
