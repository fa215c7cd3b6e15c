import Bfc.Lib.Simulation
import Bfc.PollReactor.Pass
import Bfc.Registration.Duplicates

/-!
# The duplicates of the poll reactor

`Filed` is the reactor with the kernel's descriptors beside it, which the tables do not have:
`dup` answers a number that is free, or fails. What a step closes is on record in `closed`, and
`Reactor.fileView` says which descriptors those are.
-/

namespace Bfc.PollReactor

open Lts Registration

variable {κ : Type*} {s t u : Reactor κ} {fd : Int}

/-- The duplicate that an entry holds. -/
def FdEntry.duplicate (e : FdEntry κ) : Option Int :=
  if e.writeCtx.fd = -1 then none else some e.writeCtx.fd

namespace Reactor

/-- The duplicate in the table. -/
def duplicate (s : Reactor κ) (fd : Int) : Option Int := (s.fdEntries fd).bind FdEntry.duplicate

/-- What a call does to descriptors. -/
def opens (s : Reactor κ) : Op κ → List FileAction
  | .addWrite fd _ dupFd =>
    if (s.entryOf fd).writeCtx.fd = -1 ∧ dupFd ≠ -1 then [.dup fd dupFd] else []
  | .remWrite fd =>
    match s.fdEntries fd with
    | none => []
    | some e =>
      if e.writeActive ∧ e.writeCtx.fd ≠ -1 then [.close e.writeCtx.fd] else []
  | .addRead .. | .remRead _ | .reqWrite .. => []

/-- What a round of the clean-up closes. -/
def closesFd (s : Reactor κ) (fd : Int) : List FileAction :=
  match s.fdEntries fd with
  | none => []
  | some e =>
    if !e.readActive && !e.writeActive then e.duplicate.toList.map .close else []

/-- What the clean-up loop closes. -/
def closes : List Int → Reactor κ → List FileAction
  | [], _ => []
  | fd :: rest, s => s.closesFd fd ++ closes rest (s.cleanupFd fd)

/-- What a step does to descriptors. -/
def fileView (s : Reactor κ) : Event κ → List FileAction
  | .call op => s.opens op
  | .poll | .visit .. => []
  | .cleanup => closes s.pendingCleanup s

end Reactor

/-- The reactor, and whose the open descriptors are. -/
structure Filed (κ : Type*) where
  reactor : Reactor κ
  files : Int → Option Registration.Owner

/-- The program opens or closes a descriptor, or the reactor thread takes a step. -/
inductive FiledEvent (κ : Type*) where
  | openFd (x : Int)
  | closeFd (x : Int)
  | event (event : Event κ)

namespace Filed

/-- What the kernel may answer to a `dup` in a step. -/
def answers (w : Filed κ) : Event κ → Prop
  | .call (.addWrite fd _ dupFd) =>
    (w.reactor.entryOf fd).writeCtx.fd = -1 → dupFd = -1 ∨ 0 ≤ dupFd ∧ w.files dupFd = none
  | _ => True

instance (w : Filed κ) (event : Event κ) : Decidable (w.answers event) := by
  unfold answers
  split <;> infer_instance

/-- The step function. -/
def step (w : Filed κ) : FiledEvent κ → Option (Filed κ)
  | .openFd x =>
    if 0 ≤ x ∧ w.files x = none then
      some { w with files := Function.update w.files x (some .program) }
    else none
  | .closeFd x =>
    if w.files x = some .program then
      some { w with files := Function.update w.files x none }
    else none
  | .event event =>
    if w.answers event then
      some {
        reactor := w.reactor.step event
        files := fun x => ownerBy w.files x (w.reactor.fileView event) }
    else none

/-- What a step does to descriptors. -/
def view (w : Filed κ) : FiledEvent κ → List FileAction
  | .openFd x => [.openFd x]
  | .closeFd x => [.closeFd x]
  | .event event => w.reactor.fileView event

/-- The descriptors, and the duplicates in the table. -/
def custody (w : Filed κ) : Custody where
  files := w.files
  held := w.reactor.duplicate

/-- The reactor its constructor leaves, with the two ends of its pipe. -/
def init (readEnd writeEnd : Int) (pollIn : BitVec 16) : Filed κ where
  reactor := .init readEnd pollIn
  files x := if x = readEnd ∨ x = writeEnd then some .reactor else none

end Filed

/-! ## What leaves the duplicates alone -/

/-- The duplicates in the table and those closed stay. -/
structure Retains (s t : Reactor κ) : Prop where
  duplicate : ∀ fd, t.duplicate fd = s.duplicate fd
  closed : t.closed = s.closed

theorem Retains.of_table (table : t.fdEntries = s.fdEntries) (closed : t.closed = s.closed) :
    Retains s t where
  duplicate fd := by rw [Reactor.duplicate, table, Reactor.duplicate]
  closed := closed

theorem Retains.trans (h : Retains s t) (h' : Retains t u) : Retains s u where
  duplicate fd := (h'.duplicate fd).trans (h.duplicate fd)
  closed := h'.closed.trans h.closed

/-- An entry that is stored is what the table holds for its descriptor. -/
theorem duplicate_stored {e : Option (FdEntry κ)}
    (entries : t.fdEntries = Function.update s.fdEntries fd e) (fd' : Int) :
    t.duplicate fd' = Function.update s.duplicate fd (e.bind FdEntry.duplicate) fd' := by
  unfold Reactor.duplicate
  rw [entries]
  by_cases own : fd' = fd
  · subst own
    rw [Function.update_self, Function.update_self]
  · rw [Function.update_of_ne own, Function.update_of_ne own]

theorem duplicate_entryOf (s : Reactor κ) (fd : Int) :
    (s.entryOf fd).duplicate = s.duplicate fd := by
  unfold Reactor.entryOf Reactor.duplicate
  cases s.fdEntries fd with
  | none => rfl
  | some e => rfl

/-- An entry that is stored with the duplicate there was. -/
theorem Retains.stored {e : Option (FdEntry κ)}
    (entries : t.fdEntries = Function.update s.fdEntries fd e)
    (same : e.bind FdEntry.duplicate = s.duplicate fd) (closed : t.closed = s.closed) :
    Retains s t where
  duplicate fd' := by rw [duplicate_stored entries, same, Function.update_eq_self]
  closed := closed

theorem setPollEntry_retains (s : Reactor κ) (index : Option Nat) (fd : Int)
    (events : BitVec 16) : Retains s (s.setPollEntry index fd events) := by
  unfold Reactor.setPollEntry
  split <;> exact .of_table rfl rfl

theorem setPollEvents_retains (s : Reactor κ) (index : Option Nat) (events : BitVec 16) :
    Retains s (s.setPollEvents index events) := by
  unfold Reactor.setPollEvents
  split <;> exact .of_table rfl rfl

theorem updatePollIndex_retains (s : Reactor κ) (owner : Int) (kind : PollKind) (i : Nat) :
    Retains s (s.updatePollIndex owner kind i) := by
  have indexed : ∀ e e' : FdEntry κ, s.fdEntries owner = some e → e'.duplicate = e.duplicate →
      Retains s (s.putEntry owner e') := by
    intro e e' he same
    refine .stored rfl ?_ rfl
    rw [Reactor.duplicate, he]
    exact same
  unfold Reactor.updatePollIndex
  split
  · exact .of_table rfl rfl
  · rename_i e he
    split
    · exact indexed e _ he rfl
    · exact indexed e _ he rfl
    · exact .of_table rfl rfl

theorem removePollEntryByIndex_retains (s : Reactor κ) (index : Option Nat) :
    Retains s (s.removePollEntryByIndex index) := by
  unfold Reactor.removePollEntryByIndex
  split
  · exact .of_table rfl rfl
  · split
    · exact .of_table rfl rfl
    · rename_i i _ _ _ moved _
      dsimp only
      have set : Retains s { s with pollEntries := s.pollEntries.set i moved } :=
        .of_table rfl rfl
      split
      · exact (set.trans (updatePollIndex_retains _ moved.ownerFd moved.kind i)).trans
          (.of_table rfl rfl)
      · exact .of_table rfl rfl

theorem notePending_retains (s : Reactor κ) (fd : Int) : Retains s (s.notePending fd) := by
  unfold Reactor.notePending
  split
  · exact .of_table rfl rfl
  · split <;> exact .of_table rfl rfl

theorem dispatchItem_retains (s : Reactor κ) (item : PollEntry) (revents : BitVec 16) :
    Retains s (s.dispatchItem item revents).1 := by
  unfold Reactor.dispatchItem
  split
  · exact .of_table rfl rfl
  · split
    · exact .of_table rfl rfl
    · split
      · exact .of_table rfl rfl
      · split <;> exact .of_table rfl rfl
    · split
      · exact .of_table rfl rfl
      · split
        · exact setPollEvents_retains ..
        · exact .of_table rfl rfl

/-! ## Calls -/

theorem addRead_retains (s : Reactor κ) (fd : Int) (events : BitVec 32) (cb : Option κ) :
    Retains s (s.addRead fd events cb).1 := by
  unfold Reactor.addRead
  dsimp only
  split
  · refine .stored rfl ?_ rfl
    exact duplicate_entryOf s fd
  · refine Retains.trans ?_ (setPollEntry_retains ..)
    refine .stored rfl ?_ rfl
    exact duplicate_entryOf s fd

/-- The entry of a descriptor with its context for reading gone. -/
theorem clearRead_retains (s : Reactor κ) (fd : Int) (cb : Option κ) :
    Retains s ((s.retireCb cb).modifyEntry fd fun e => e.clear .read) := by
  rw [retireCb_eq]
  refine .stored rfl ?_ rfl
  rw [Reactor.duplicate, Option.bind_map]
  rfl

theorem remRead_retains (s : Reactor κ) (fd : Int) : Retains s (s.remRead fd).1 := by
  unfold Reactor.remRead
  split
  · exact .of_table rfl rfl
  · rename_i e he
    dsimp only
    split
    · exact ((removePollEntryByIndex_retains s e.readPollIndex).trans
        (clearRead_retains _ fd e.readCtx.cb)).trans (notePending_retains ..)
    · exact notePending_retains s fd

theorem reqWrite_retains (s : Reactor κ) (fd : Int) (events : BitVec 32) :
    Retains s (s.reqWrite fd events).1 := by
  unfold Reactor.reqWrite
  split
  · exact .of_table rfl rfl
  · split
    · exact .of_table rfl rfl
    · exact setPollEvents_retains ..

/-! ## What opens and closes one -/

/-- The table after a step, and what the step closed. -/
structure Holds (s t : Reactor κ) (held : Int → Option Int) (closed : List Int) : Prop where
  duplicate : ∀ fd, t.duplicate fd = held fd
  closed : t.closed = s.closed ++ closed

theorem Holds.retains {held : Int → Option Int} {closed : List Int}
    (h : Holds s t held closed) (h' : Retains t u) : Holds s u held closed where
  duplicate fd := (h'.duplicate fd).trans (h.duplicate fd)
  closed := h'.closed.trans h.closed

/-- `add_write` keeps the duplicate there is, or holds the one that `dup` answers. -/
theorem addWrite_holds (s : Reactor κ) (fd : Int) (cb : Option κ) (dupFd : Int) :
    Holds s (s.addWrite fd cb dupFd).1
      (Function.update s.duplicate fd
        (if (s.entryOf fd).writeCtx.fd = -1 ∧ dupFd ≠ -1 then some dupFd else s.duplicate fd))
      [] := by
  obtain ⟨ctxFd, hctx⟩ : ∃ ctxFd, (if (s.entryOf fd).writeCtx.fd = -1 then dupFd
      else (s.entryOf fd).writeCtx.fd) = ctxFd := ⟨_, rfl⟩
  have hctx' : (if (Reactor.named fd (s.entryOf fd)).writeCtx.fd = -1 then dupFd
      else (Reactor.named fd (s.entryOf fd)).writeCtx.fd) = ctxFd := hctx
  -- the entry that is stored holds the descriptor that the context has then
  obtain ⟨held, hheld⟩ : ∃ held, (if ctxFd = -1 then none else some ctxFd) = held := ⟨_, rfl⟩
  have stored : (if (s.entryOf fd).writeCtx.fd = -1 ∧ dupFd ≠ -1 then some dupFd
      else s.duplicate fd) = held := by
    rw [← duplicate_entryOf, FdEntry.duplicate, ← hheld, ← hctx]
    by_cases noWrite : (s.entryOf fd).writeCtx.fd = -1
    · by_cases failed : dupFd = -1 <;> simp [noWrite, failed]
    · simp [noWrite]
  have put : ∀ (t : Reactor κ) (e : FdEntry κ), t.fdEntries = s.fdEntries →
      t.closed = s.closed → e.writeCtx.fd = ctxFd →
      Holds s (t.putEntry fd e) (Function.update s.duplicate fd held) [] := by
    intro t e table closed written
    refine ⟨fun fd' => ?_, closed.trans (List.append_nil _).symm⟩
    have entries : (t.putEntry fd e).fdEntries = Function.update s.fdEntries fd (some e) := by
      rw [Reactor.putEntry, table]
    rw [duplicate_stored entries, Option.bind_some, FdEntry.duplicate, written, hheld]
  rw [stored]
  unfold Reactor.addWrite
  dsimp only
  rw [hctx']
  split
  · refine put s _ rfl rfl ?_
    rfl
  · split
    · refine put _ _ rfl rfl ?_
      rfl
    · refine Holds.retains ?_ (setPollEntry_retains ..)
      refine put s _ rfl rfl ?_
      rfl

/-- `rem_write` closes the duplicate of a registration that is there. -/
theorem remWrite_holds {e : FdEntry κ} (he : s.fdEntries fd = some e)
    (active : e.writeActive = true) (valid : e.writeCtx.fd ≠ -1) :
    Holds s (s.remWrite fd).1 (Function.update s.duplicate fd none) [e.writeCtx.fd] := by
  have kept := removePollEntryByIndex_retains s e.writePollIndex
  have cleared : Holds s ((({ s.removePollEntryByIndex e.writePollIndex with
      closed := (s.removePollEntryByIndex e.writePollIndex).closed ++ [e.writeCtx.fd] } :
        Reactor κ).retireCb e.writeCtx.cb).modifyEntry fd fun e => e.clear .write)
      (Function.update s.duplicate fd none) [e.writeCtx.fd] := by
    rw [retireCb_eq]
    refine ⟨fun fd' => ?_, congrArg (· ++ [e.writeCtx.fd]) kept.closed⟩
    rw [duplicate_stored (s := s.removePollEntryByIndex e.writePollIndex) rfl,
      funext kept.duplicate, Option.bind_map]
    refine congrArg (Function.update s.duplicate fd · fd') ?_
    cases (s.removePollEntryByIndex e.writePollIndex).fdEntries fd with
    | none => rfl
    | some e => rfl
  unfold Reactor.remWrite
  rw [he]
  dsimp only
  rw [if_pos ⟨active, valid⟩]
  exact cleared.retains (notePending_retains ..)

/-! ## Steps -/

/-- A step takes the custody through what it shows, and what it closed is on record. -/
structure Shows (files : Int → Option Registration.Owner) (s t : Reactor κ)
    (ls : List FileAction) : Prop where
  run : Run Custody.Step { files := files, held := s.duplicate } ls
    { files := fun x => ownerBy files x ls, held := t.duplicate }
  closed : t.closed = s.closed ++ ls.filterMap FileAction.closes

variable {files : Int → Option Registration.Owner}

theorem Retains.shows (h : Retains s t) : Shows files s t [] where
  run := Custody.run_to Run.nil (fun _ => rfl) h.duplicate
  closed := by rw [h.closed, List.filterMap_nil, List.append_nil]

theorem Shows.trans {ls ls' : List FileAction} (h : Shows files s t ls)
    (h' : Shows (fun x => ownerBy files x ls) t u ls') : Shows files s u (ls ++ ls') where
  run := by
    exact Custody.run_to (h.run.trans h'.run) (fun _ => rfl) fun _ => rfl
  closed := by rw [h'.closed, h.closed, List.filterMap_append, List.append_assoc]

theorem Holds.shows {held : Int → Option Int} {closed : List Int} (h : Holds s t held closed)
    {a : FileAction} {files' : Int → Option Registration.Owner}
    (step : Custody.Step { files := files, held := s.duplicate } a
      { files := files', held := held }) (closes : closed = a.closes.toList) :
    Shows files s t [a] where
  run := Custody.run_to (Run.single step) (fun _ => rfl) h.duplicate
  closed := by
    rw [h.closed, closes]
    cases a <;> rfl

/-- A round of the clean-up closes the duplicate of an entry that goes. -/
theorem cleanupFd_shows (s : Reactor κ) (fd : Int) :
    Shows files s (s.cleanupFd fd) (s.closesFd fd) := by
  unfold Reactor.closesFd Reactor.cleanupFd
  cases he : s.fdEntries fd with
  | none => exact Retains.shows ⟨fun _ => rfl, rfl⟩
  | some e =>
    dsimp only
    by_cases idle : (!e.readActive && !e.writeActive) = true
    · rw [if_pos idle, if_pos idle]
      have there : s.duplicate fd = e.duplicate := congrArg (Option.bind · FdEntry.duplicate) he
      by_cases valid : e.writeCtx.fd = -1
      · have noDuplicate : e.duplicate = none := if_pos valid
        rw [noDuplicate, if_neg (not_not.mpr valid)]
        have same : Retains s { s with fdEntries := Function.update s.fdEntries fd none } :=
          .stored rfl (there.trans noDuplicate).symm rfl
        exact same.shows
      · have holds : e.duplicate = some e.writeCtx.fd := if_neg valid
        rw [holds, if_pos valid]
        have gone : Holds s
            { s with
              closed := s.closed ++ [e.writeCtx.fd]
              fdEntries := Function.update s.fdEntries fd none }
            (Function.update s.duplicate fd none) [e.writeCtx.fd] :=
          ⟨fun fd' => duplicate_stored (s := s) (e := none) rfl fd', rfl⟩
        exact gone.shows (.close (there.trans holds)) rfl
    · rw [if_neg idle, if_neg idle]
      exact Retains.shows ⟨fun _ => rfl, rfl⟩

/-- The clean-up loop closes the duplicates of the entries that go. -/
theorem closes_shows (fds : List Int) (s : Reactor κ) :
    Shows files s (fds.foldl Reactor.cleanupFd s) (Reactor.closes fds s) := by
  induction fds generalizing s files with
  | nil => exact Retains.shows ⟨fun _ => rfl, rfl⟩
  | cons fd rest ih => exact (cleanupFd_shows s fd).trans (ih (s.cleanupFd fd))

/-- A call opens and closes as it should. -/
theorem call_shows {op : Op κ}
    (free : { reactor := s, files := files : Filed κ }.answers (.call op)) :
    Shows files s (s.call op).1 (s.opens op) := by
  cases op with
  | addRead fd events cb => exact (addRead_retains s fd events cb).shows
  | remRead fd => exact (remRead_retains s fd).shows
  | reqWrite fd events => exact (reqWrite_retains s fd events).shows
  | addWrite fd cb dupFd =>
    have step := addWrite_holds s fd cb dupFd
    simp only [Reactor.opens]
    split
    · rename_i opens
      rw [if_pos opens] at step
      refine step.shows (.dup ?_ ?_) rfl
      · exact ((free opens.1).resolve_left opens.2).2
      · exact (duplicate_entryOf s fd).symm.trans (if_pos opens.1)
    · rename_i same
      rw [if_neg same, Function.update_eq_self] at step
      exact Retains.shows ⟨step.duplicate, step.closed.trans (List.append_nil _)⟩
  | remWrite fd =>
    simp only [Reactor.opens]
    split
    · rename_i he
      refine Retains.shows ?_
      rw [Reactor.call, Reactor.remWrite, he]
      exact ⟨fun _ => rfl, rfl⟩
    · rename_i e he
      split
      · rename_i both
        refine (remWrite_holds he both.1 both.2).shows (.close ?_) rfl
        dsimp only
        rw [Reactor.duplicate, he, Option.bind_some, FdEntry.duplicate, if_neg both.2]
      · rename_i both
        refine Retains.shows ?_
        rw [Reactor.call, Reactor.remWrite, he]
        dsimp only
        rw [if_neg both]
        exact notePending_retains s fd

/-- A step of the reactor thread does. -/
theorem step_shows {event : Event κ}
    (free : { reactor := s, files := files : Filed κ }.answers event) :
    Shows files s (s.step event) (s.fileView event) := by
  cases event with
  | call op => exact call_shows free
  | poll => exact Retains.shows (.of_table rfl rfl)
  | visit pos revents =>
    refine Retains.shows ?_
    unfold Reactor.step
    dsimp only
    split
    · exact .of_table rfl rfl
    · exact dispatchItem_retains ..
  | cleanup =>
    have loop : Shows files s _ _ := closes_shows s.pendingCleanup s
    exact ⟨loop.run, loop.closed⟩

/-! ## Runs -/

/-- A step, with the descriptors beside it. -/
theorem filed_shows {w w' : Filed κ} {event : FiledEvent κ} (step : w.step event = some w') :
    Run Custody.Step w.custody (w.view event) w'.custody ∧
      w'.reactor.closed = w.reactor.closed ++ (w.view event).filterMap FileAction.closes := by
  cases event with
  | openFd x =>
    obtain ⟨allowed, performed⟩ := Option.ite_none_right_eq_some.mp step
    obtain rfl := Option.some.inj performed
    exact ⟨Run.single (.openFd allowed.2), (List.append_nil _).symm⟩
  | closeFd x =>
    obtain ⟨allowed, performed⟩ := Option.ite_none_right_eq_some.mp step
    obtain rfl := Option.some.inj performed
    exact ⟨Run.single (.closeFd allowed), (List.append_nil _).symm⟩
  | event event =>
    obtain ⟨allowed, performed⟩ := Option.ite_none_right_eq_some.mp step
    obtain rfl := Option.some.inj performed
    have shown : Shows w.files w.reactor _ _ := step_shows allowed
    exact ⟨shown.run, shown.closed⟩

variable {readEnd writeEnd : Int} {pollIn : BitVec 16} {events : List (FiledEvent κ)} {w : Filed κ}

/-- Whose the open descriptors are is of no concern to the tables. -/
theorem filed_consistent {wake : PollEntry} {w w' : Filed κ} {event : FiledEvent κ}
    (h : Consistent wake w.reactor) (step : w.step event = some w') :
    Consistent wake w'.reactor := by
  cases event with
  | openFd x | closeFd x =>
    obtain ⟨-, performed⟩ := Option.ite_none_right_eq_some.mp step
    exact Option.some.inj performed ▸ h
  | event event =>
    obtain ⟨-, performed⟩ := Option.ite_none_right_eq_some.mp step
    exact Option.some.inj performed ▸ step_consistent h event

/-- **What a run does to descriptors is a run of the custody.** -/
theorem run_custody (run : events.foldlM Filed.step (.init readEnd writeEnd pollIn) = some w) :
    Consistent (wakeEntry readEnd pollIn) w.reactor ∧
      Run Custody.Step (Filed.init readEnd writeEnd pollIn : Filed κ).custody
        (shows Filed.step Filed.view (.init readEnd writeEnd pollIn) events) w.custody :=
  simulation Filed.custody (I := fun w => Consistent (wakeEntry readEnd pollIn) w.reactor)
    (C := fun _ _ => True) (fun h _ step => ⟨filed_consistent h step, (filed_shows step).1⟩)
    (init_consistent readEnd pollIn) ((allSteps_iff_forall_mem run).mpr fun _ _ => trivial) run

/-- What the reactor closed is what the run shows of it. -/
theorem run_closed (run : events.foldlM Filed.step (.init readEnd writeEnd pollIn) = some w) :
    w.reactor.closed = (shows Filed.step Filed.view (.init readEnd writeEnd pollIn)
      events).filterMap FileAction.closes :=
  log_eq_shows (fun w => w.reactor.closed) FileAction.closes (fun step => (filed_shows step).2) run

/-- A descriptor has a duplicate exactly if it is registered for writing. -/
theorem duplicate_iff_registered {wake : PollEntry} (h : Consistent wake s) (fd : Int) :
    (∃ x, s.duplicate fd = some x) ↔ ∃ e, s.fdEntries fd = some e ∧ e.writeActive = true := by
  unfold Reactor.duplicate
  constructor
  · rintro ⟨x, holds⟩
    obtain ⟨e, he, own⟩ := Option.bind_eq_some_iff.mp holds
    refine ⟨e, he, (h.entries fd e he).writeFd.mp fun noWrite => ?_⟩
    rw [FdEntry.duplicate, if_pos noWrite] at own
    cases own
  · rintro ⟨e, he, active⟩
    refine ⟨e.writeCtx.fd, ?_⟩
    rw [he]
    exact if_neg ((h.entries fd e he).writeFd.mpr active)

end Bfc.PollReactor
