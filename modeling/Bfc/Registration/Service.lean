import Mathlib.Logic.Function.Basic
import Bfc.Lib.Transition

/-!
# What the descriptor reactors are for

The service that `poll_reactor` and `epoll_reactor` both give, without poll vectors, interest sets
and duplicates: a descriptor is registered for reading and for writing, with a callback each, and a
write notification can be requested. A call for a descriptor makes an entry for it, which stays when
nothing is registered any more until the pass ends, so that a second removal still finds it.

`Step` is what may happen. A notification runs the callback that is registered at that moment. Which
descriptors are ready, and so when `take` takes a request back and who is notified, is not the
service's to say.
-/

namespace Bfc.Registration

open Lts

/-- What a descriptor is watched for. -/
inductive Direction where
  | read
  | write
deriving DecidableEq, Repr

/-- A write registration: its callback, which may be empty, and whether a notification is
requested. -/
structure WriteEntry (κ : Type*) where
  cb : Option κ
  requested : Bool := false

/-- What a descriptor is registered for. -/
structure Entry (κ : Type*) where
  read : Option (Option κ) := none
  write : Option (WriteEntry κ) := none

namespace Entry

variable {κ : Type*}

/-- The callback of a direction that is registered. -/
def registered (e : Entry κ) : Direction → Option (Option κ)
  | .read => e.read
  | .write => e.write.map WriteEntry.cb

/-- Neither direction is registered. -/
def idle (e : Entry κ) : Bool := e.read.isNone && e.write.isNone

/-- A write notification is requested. -/
def requested (e : Entry κ) : Bool := e.write.any WriteEntry.requested

/-- The write registration is asked for a notification, or not any more. -/
def setRequested (e : Entry κ) (requested : Bool) : Entry κ :=
  { e with write := e.write.map fun w => { w with requested := requested } }

end Entry

/-- The entries, and the descriptors whose entries may go when the pass ends. -/
structure Service (κ : Type*) where
  entries : Int → Option (Entry κ) := fun _ => none
  pending : List Int := []

/-- A call. The kernel says of `add_write` whether there is a duplicate to watch. -/
inductive Request (κ : Type*) where
  | addRead (fd : Int) (cb : Option κ)
  | remRead (fd : Int)
  | addWrite (fd : Int) (cb : Option κ) (opened : Bool)
  | remWrite (fd : Int)
  | reqWrite (fd : Int)

/-- What happens: a call with its answer, the invocation of a callback, a request that is taken back
as its descriptor is reported, and the end of a pass. -/
inductive Action (κ : Type*) where
  | call (request : Request κ) (answer : Bool)
  | notify (fd : Int) (direction : Direction) (cb : κ)
  | take (fd : Int)
  | endPass

namespace Service

variable {κ : Type*}

/-- The entry of a descriptor, a new one where there is none. -/
def entryOf (s : Service κ) (fd : Int) : Entry κ := (s.entries fd).getD {}

/-- Stores the entry of a descriptor. -/
def put (s : Service κ) (fd : Int) (e : Entry κ) : Service κ :=
  { s with entries := Function.update s.entries fd (some e) }

/-- The last lines of a removal: the entry is stored, and noted if it is idle. -/
def leave (s : Service κ) (fd : Int) (e : Entry κ) : Service κ :=
  if e.idle then { s.put fd e with pending := s.pending ++ [fd] } else s.put fd e

/-- A call: the state after it, and its answer. -/
def request (s : Service κ) : Request κ → Service κ × Bool
  | .addRead fd cb => (s.put fd { s.entryOf fd with read := some cb }, true)
  | .remRead fd =>
    match s.entries fd with
    | none => (s, false)
    | some e => (s.leave fd { e with read := none }, true)
  | .addWrite fd cb opened =>
    if opened then (s.put fd { s.entryOf fd with write := some { cb := cb } }, true)
    else (s.put fd (s.entryOf fd), false)
  | .remWrite fd =>
    match s.entries fd with
    | none => (s, false)
    | some e => (s.leave fd { e with write := none }, true)
  | .reqWrite fd =>
    match s.entries fd with
    | none => (s, false)
    | some e => if e.write.isSome then (s.put fd (e.setRequested true), true) else (s, false)

/-- A request is taken back. -/
def take (s : Service κ) (fd : Int) : Service κ :=
  { s with
    entries := Function.update s.entries fd ((s.entries fd).map fun e => e.setRequested false) }

/-- The entries that were noted go, but for those registered again since. -/
def endPass (s : Service κ) : Service κ where
  entries fd := (s.entries fd).filter fun e => !(fd ∈ s.pending && e.idle)

/-- What may happen next. -/
inductive Step (s : Service κ) : Action κ → Service κ → Prop
  | call (request : Request κ) :
      Step s (.call request (s.request request).2) (s.request request).1
  | notify {fd : Int} {e : Entry κ} {direction : Direction} {cb : κ} (there : s.entries fd = some e)
      (registered : e.registered direction = some (some cb)) : Step s (.notify fd direction cb) s
  | take (fd : Int) : Step s (.take fd) (s.take fd)
  | endPass : Step s .endPass s.endPass

/-- Rounds that take the idle entry of one descriptor each, together take those of all of them. -/
theorem foldl_sweep {σ ε : Type*} {round : σ → Int → σ} {entries : σ → Int → Option ε}
    {idle : ε → Bool} (one : ∀ s x fd, entries (round s x) fd =
      (entries s fd).filter fun e => !(fd = x && idle e)) (fds : List Int) (s : σ) (fd : Int) :
    entries (fds.foldl round s) fd = (entries s fd).filter fun e => !(fd ∈ fds && idle e) := by
  induction fds generalizing s with
  | nil => cases he : entries s fd <;> exact he
  | cons x rest ih =>
    rw [List.foldl_cons, ih, one, Option.filter_filter]
    congr 1
    funext e
    rw [decide_eq_decide.mpr List.mem_cons, Bool.decide_or, Bool.and_or_distrib_right, Bool.not_or]

/-- A round that takes the entry of one descriptor, if there is one and it is idle. -/
theorem sweep_one {ε : Type*} {entries entries' : Int → Option ε} {idle : ε → Bool} {x : Int}
    (swept : entries' = if (entries x).any idle then Function.update entries x none else entries)
    (fd : Int) : entries' fd = (entries fd).filter fun e => !(fd = x && idle e) := by
  by_cases own : fd = x
  · subst own
    rw [swept]
    cases he : entries fd with
    | none =>
      rw [Option.any_none, if_neg Bool.false_ne_true, Option.filter_none]
      exact he
    | some e =>
      rw [Option.any_some, Option.filter_some, decide_eq_true rfl, Bool.true_and]
      cases idle e with
      | true => exact Function.update_self ..
      | false => exact he
  · have all : (entries fd).filter (fun e => !(decide (fd = x) && idle e)) = entries fd := by
      rw [decide_eq_false own]
      cases entries fd <;> rfl
    rw [all, swept]
    split
    · exact Function.update_of_ne own ..
    · rfl

/-! ## Registrations -/

/-- The callback a descriptor is registered with. -/
def registration (s : Service κ) (fd : Int) (direction : Direction) : Option (Option κ) :=
  (s.entries fd).bind fun e => e.registered direction

/-- A write notification is requested for a descriptor. -/
def requested (s : Service κ) (fd : Int) : Bool := (s.entries fd).any Entry.requested

end Service

/-- What a call makes of the registration of a descriptor. -/
def Request.makes {κ : Type*} (fd : Int) (direction : Direction) (was : Option (Option κ)) :
    Request κ → Option (Option κ)
  | .addRead fd' cb => if fd' = fd ∧ direction = .read then some cb else was
  | .remRead fd' => if fd' = fd ∧ direction = .read then none else was
  | .addWrite fd' cb opened => if (fd' = fd ∧ direction = .write) ∧ opened then some cb else was
  | .remWrite fd' => if fd' = fd ∧ direction = .write then none else was
  | .reqWrite _ => was

/-- What a call, with its answer, makes of the request of a descriptor. -/
def Request.asks {κ : Type*} (fd : Int) (was answer : Bool) : Request κ → Bool
  | .addRead .. | .remRead _ => was
  | .addWrite fd' _ opened => if fd' = fd ∧ opened then false else was
  | .remWrite fd' => if fd' = fd then false else was
  | .reqWrite fd' => if fd' = fd ∧ answer then true else was

/-- What happens makes of the registration of a descriptor what a call does. -/
def Action.makes {κ : Type*} (fd : Int) (direction : Direction) (was : Option (Option κ)) :
    Action κ → Option (Option κ)
  | .call r _ => r.makes fd direction was
  | .notify .. | .take _ | .endPass => was

/-- What happens makes of the request of a descriptor what a call does, or takes it back. -/
def Action.asks {κ : Type*} (fd : Int) (was : Bool) : Action κ → Bool
  | .call r answer => r.asks fd was answer
  | .take fd' => if fd' = fd then false else was
  | .notify .. | .endPass => was

/-- What a descriptor was last registered with. -/
def lastMade {κ : Type*} (fd : Int) (direction : Direction) (ls : List (Action κ)) :
    Option (Option κ) := ls.foldl (Action.makes fd direction) none

/-- A notification was requested for a descriptor, and has not been taken back. -/
def lastAsked {κ : Type*} (fd : Int) (ls : List (Action κ)) : Bool :=
  ls.foldl (Action.asks fd) false

namespace Service

variable {κ : Type*} {s t : Service κ} {fd : Int} {direction : Direction}

@[simp] theorem put_entries (s : Service κ) (fd : Int) (e : Entry κ) :
    (s.put fd e).entries = Function.update s.entries fd (some e) := rfl

@[simp] theorem leave_entries (s : Service κ) (fd : Int) (e : Entry κ) :
    (s.leave fd e).entries = Function.update s.entries fd (some e) := by
  unfold leave
  split <;> rfl

/-- An entry that is stored is the registration of its descriptor. -/
theorem registration_stored {e : Entry κ} {fd' : Int}
    (entries : t.entries = Function.update s.entries fd' (some e)) (fd : Int)
    (direction : Direction) : t.registration fd direction =
      if fd' = fd then e.registered direction else s.registration fd direction := by
  unfold registration
  rw [entries]
  split
  · rename_i same
    subst same
    rw [Function.update_self, Option.bind_some]
  · rename_i other
    rw [Function.update_of_ne (Ne.symm other)]

theorem registration_entryOf (s : Service κ) (fd : Int) (direction : Direction) :
    (s.entryOf fd).registered direction = s.registration fd direction := by
  unfold entryOf registration
  cases s.entries fd with
  | none => cases direction <;> rfl
  | some e => rfl

theorem registration_of_entry {e : Entry κ} (there : s.entries fd = some e)
    (direction : Direction) : s.registration fd direction = e.registered direction := by
  rw [registration, there, Option.bind_some]

/-- Nothing is registered in an idle entry. -/
theorem idle_registered {e : Entry κ} (idle : e.idle = true) (direction : Direction) :
    e.registered direction = none := by
  obtain ⟨read, write⟩ := (Bool.and_eq_true ..).mp idle
  cases direction with
  | read => exact Option.isNone_iff_eq_none.mp read
  | write => exact Option.map_eq_none_iff.mpr (Option.isNone_iff_eq_none.mp write)

theorem setRequested_registered (e : Entry κ) (requested : Bool) (direction : Direction) :
    (e.setRequested requested).registered direction = e.registered direction := by
  cases direction with
  | read => rfl
  | write => exact Option.map_map ..

/-- An entry that is stored with one direction changed. -/
theorem registration_changed {e : Entry κ} {fd' : Int} {changed : Direction}
    (entries : t.entries = Function.update s.entries fd' (some e))
    (other : ∀ d, d ≠ changed → e.registered d = s.registration fd' d) :
    t.registration fd direction = if fd' = fd ∧ direction = changed then e.registered changed
      else s.registration fd direction := by
  rw [registration_stored entries]
  by_cases own : fd' = fd
  · subst own
    by_cases same : direction = changed
    · subst same
      rw [if_pos rfl, if_pos ⟨rfl, rfl⟩]
    · rw [if_pos rfl, if_neg fun both => same both.2, other direction same]
  · rw [if_neg own, if_neg fun both => own both.1]

theorem read_changed {cb : Option (Option κ)} (e : Entry κ) (direction : Direction)
    (other : direction ≠ .read) :
    ({ e with read := cb } : Entry κ).registered direction = e.registered direction := by
  cases direction with
  | read => exact absurd rfl other
  | write => rfl

theorem write_changed {w : Option (WriteEntry κ)} (e : Entry κ) (direction : Direction)
    (other : direction ≠ .write) :
    ({ e with write := w } : Entry κ).registered direction = e.registered direction := by
  cases direction with
  | read => rfl
  | write => exact absurd rfl other

/-- What a call makes of the registrations. -/
theorem registration_request (s : Service κ) (r : Request κ) (fd : Int) (direction : Direction) :
    (s.request r).1.registration fd direction =
      r.makes fd direction (s.registration fd direction) := by
  cases r with
  | addRead fd' cb =>
    refine registration_changed (put_entries ..) fun d other => ?_
    rw [read_changed _ d other, registration_entryOf]
  | remRead fd' =>
    cases there : s.entries fd' with
    | none =>
      simp only [request, there, Request.makes]
      split
      · rename_i own
        rw [registration, ← own.1, there, Option.bind_none]
      · rfl
    | some e =>
      simp only [request, there]
      refine registration_changed (leave_entries ..) fun d other => ?_
      rw [read_changed _ d other, registration_of_entry there]
  | addWrite fd' cb opened =>
    simp only [request, Request.makes]
    cases opened with
    | false =>
      rw [if_neg Bool.false_ne_true, if_neg fun both => Bool.false_ne_true both.2,
        registration_stored rfl]
      split
      · rename_i own
        rw [own, registration_entryOf]
      · rfl
    | true =>
      simp only [if_true, and_true]
      refine registration_changed (put_entries ..) fun d other => ?_
      rw [write_changed _ d other, registration_entryOf]
  | remWrite fd' =>
    cases there : s.entries fd' with
    | none =>
      simp only [request, there, Request.makes]
      split
      · rename_i own
        rw [registration, ← own.1, there, Option.bind_none]
      · rfl
    | some e =>
      simp only [request, there]
      refine registration_changed (leave_entries ..) fun d other => ?_
      rw [write_changed _ d other, registration_of_entry there]
  | reqWrite fd' =>
    simp only [request, Request.makes]
    cases there : s.entries fd' with
    | none => rfl
    | some e =>
      dsimp only
      split
      · rw [registration_stored rfl]
        split
        · rename_i own
          rw [setRequested_registered, ← own, registration_of_entry there]
        · rfl
      · rfl

/-- A step changes registrations as its action says, so a pass ends without touching them. -/
theorem Step.registration {a : Action κ} (step : Step s a t) (fd : Int) (direction : Direction) :
    t.registration fd direction = a.makes fd direction (s.registration fd direction) := by
  cases step with
  | call r => exact registration_request s r fd direction
  | notify there registered => rfl
  | take fd' =>
    unfold Service.registration Service.take
    by_cases own : fd = fd'
    · subst own
      dsimp only
      rw [Function.update_self]
      cases s.entries fd with
      | none => rfl
      | some e => exact setRequested_registered e false direction
    · dsimp only
      rw [Function.update_of_ne own]
      rfl
  | endPass =>
    unfold Service.registration Service.endPass
    dsimp only
    cases s.entries fd with
    | none => rfl
    | some e =>
      rw [Option.filter_some]
      split
      · rfl
      · rename_i gone
        rw [Bool.not_eq_true, Bool.not_eq_false', Bool.and_eq_true] at gone
        rw [Option.bind_none, Option.bind_some, idle_registered gone.2]
        rfl

/-- **The registrations are those that the calls made last.** -/
theorem registration_run {ls : List (Action κ)} (run : Run Step {} ls t) (fd : Int)
    (direction : Direction) : t.registration fd direction = lastMade fd direction ls := by
  refine run.history (P := fun ls t => t.registration fd direction = lastMade fd direction ls)
    rfl ?_
  intro ls u a v before step
  rw [step.registration, before, lastMade, lastMade, List.foldl_append]
  rfl

/-- **A notification runs the callback that was registered last.** -/
theorem notified {ls ms : List (Action κ)} {cb : κ}
    (run : Run Step {} (ls ++ .notify fd direction cb :: ms) t) :
    lastMade fd direction ls = some (some cb) := by
  obtain ⟨u, before, rest⟩ := run.split ls _
  obtain ⟨v, step, -⟩ := rest.split [_] ms
  rw [← registration_run before]
  cases step.of_single with
  | notify there registered => rw [registration_of_entry there, registered]

/-! ## Requests -/

theorem requested_entryOf (s : Service κ) (fd : Int) :
    (s.entryOf fd).requested = s.requested fd := by
  unfold entryOf requested
  cases s.entries fd with
  | none => rfl
  | some e => rfl

theorem requested_of_entry {e : Entry κ} (there : s.entries fd = some e) :
    s.requested fd = e.requested := by
  rw [requested, there, Option.any_some]

/-- An entry that is stored is asked for what its descriptor is. -/
theorem requested_stored {e : Entry κ} {fd' : Int}
    (entries : t.entries = Function.update s.entries fd' (some e)) (fd : Int) :
    t.requested fd = if fd' = fd then e.requested else s.requested fd := by
  unfold requested
  rw [entries]
  split
  · rename_i same
    subst same
    rw [Function.update_self, Option.any_some]
  · rename_i other
    rw [Function.update_of_ne (Ne.symm other)]

/-- A request that is set is so while the write is registered. -/
theorem setRequested_requested (e : Entry κ) (requested : Bool) :
    (e.setRequested requested).requested = (e.write.isSome && requested) := by
  unfold Entry.setRequested Entry.requested
  cases e.write <;> rfl

/-- A call changes requests as its answer says. -/
theorem requested_request (s : Service κ) (r : Request κ) (fd : Int) :
    (s.request r).1.requested fd = r.asks fd (s.requested fd) (s.request r).2 := by
  -- an entry is stored that is asked for what it was
  have same : ∀ {t : Service κ} {fd' : Int} {e : Entry κ},
      t.entries = Function.update s.entries fd' (some e) →
      e.requested = s.requested fd' → t.requested fd = s.requested fd := by
    intro t fd' e entries kept
    rw [requested_stored entries]
    split
    · rename_i own
      rw [kept, own]
    · rfl
  cases r with
  | addRead fd' cb => exact same (put_entries ..) (requested_entryOf s fd')
  | remRead fd' =>
    cases there : s.entries fd' with
    | none => simp only [request, there, Request.asks]
    | some e =>
      simp only [request, there, Request.asks]
      exact same (leave_entries ..) (requested_of_entry there).symm
  | addWrite fd' cb opened =>
    simp only [request, Request.asks]
    cases opened with
    | false =>
      rw [if_neg Bool.false_ne_true, if_neg fun both => Bool.false_ne_true both.2]
      exact same (put_entries ..) (requested_entryOf s fd')
    | true =>
      simp only [if_true, and_true]
      rw [requested_stored (put_entries ..)]
      rfl
  | remWrite fd' =>
    cases there : s.entries fd' with
    | none =>
      simp only [request, there, Request.asks]
      split
      · rename_i own
        rw [requested, ← own, there]
        rfl
      · rfl
    | some e =>
      simp only [request, there, Request.asks]
      rw [requested_stored (leave_entries ..)]
      rfl
  | reqWrite fd' =>
    cases there : s.entries fd' with
    | none => simp only [request, there, Request.asks, Bool.false_eq_true, and_false, if_false]
    | some e =>
      by_cases registered : e.write.isSome = true
      · simp only [request, there, Request.asks, if_pos registered, and_true]
        rw [requested_stored (put_entries ..), setRequested_requested, registered]
        rfl
      · simp only [request, there, Request.asks, if_neg registered, Bool.false_eq_true, and_false,
          if_false]

/-- A step changes requests as its action says. -/
theorem Step.requested {a : Action κ} (step : Step s a t) (fd : Int) :
    t.requested fd = a.asks fd (s.requested fd) := by
  cases step with
  | call r => exact requested_request s r fd
  | notify there registered => rfl
  | take fd' =>
    unfold Service.requested Service.take Action.asks
    by_cases own : fd' = fd
    · subst own
      dsimp only
      rw [Function.update_self, if_pos rfl]
      cases s.entries fd' with
      | none => rfl
      | some e =>
        rw [Option.map_some, Option.any_some, setRequested_requested, Bool.and_false]
    · dsimp only
      rw [Function.update_of_ne (Ne.symm own), if_neg own]
  | endPass =>
    unfold Service.requested Service.endPass
    dsimp only
    cases s.entries fd with
    | none => rfl
    | some e =>
      rw [Option.filter_some]
      split
      · rfl
      · rename_i gone
        -- an entry that goes has no request
        rw [Bool.not_eq_true, Bool.not_eq_false', Bool.and_eq_true] at gone
        obtain ⟨-, write⟩ := (Bool.and_eq_true ..).mp gone.2
        rw [Action.asks, Option.any_some, Entry.requested, Option.isNone_iff_eq_none.mp write]
        rfl

/-- **The requests are those that were made last and not taken back.** -/
theorem requested_run {ls : List (Action κ)} (run : Run Step {} ls t) (fd : Int) :
    t.requested fd = lastAsked fd ls := by
  refine run.history (P := fun ls t => t.requested fd = lastAsked fd ls) rfl ?_
  intro ls u a v before step
  rw [step.requested, before, lastAsked, lastAsked, List.foldl_append]
  rfl

end Service

end Bfc.Registration
