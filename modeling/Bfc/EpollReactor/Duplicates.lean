import Bfc.EpollReactor.Watches
import Bfc.Lib.Simulation
import Bfc.Registration.Duplicates

/-!
# The duplicates of the epoll reactor

`Reactor.custody` is the kernel's descriptors and the duplicates that the entries hold. `add_write`
opens one, which stays with its entry even where `EPOLL_CTL_ADD` fails then; `rem_write` and the
clean-up close it.
-/

namespace Bfc.EpollReactor

open Lts Registration

variable {κ : Type*} {s t : Reactor κ} {fd : Int}

/-- Whose a descriptor is. -/
def Owner.shown : Owner → Registration.Owner
  | .event => .reactor
  | .caller => .program
  | .duplicate fd => .duplicate fd

/-- The duplicate that an entry holds. -/
def FdEntry.held (e : FdEntry κ) : Option Int :=
  if e.writeCtx.fd = -1 then none else some e.writeCtx.fd

namespace Reactor

/-- The kernel's descriptors, and the duplicates in the table. -/
def custody (s : Reactor κ) : Custody where
  files x := (s.kernel.fds x).map Owner.shown
  held fd := (s.fdEntries fd).bind FdEntry.held

/-- What a call does to descriptors. -/
def opens (s : Reactor κ) : Op κ → List FileAction
  | .openFd x => [.openFd x]
  | .closeFd x => [.closeFd x]
  | .addWrite fd _ dupFd _ =>
    if (s.entryOf fd).writeCtx.fd = -1 ∧ dupFd ≠ -1 then [.dup fd dupFd] else []
  | .remWrite fd =>
    match s.fdEntries fd with
    | none => []
    | some e =>
      if e.writeActive ∧ e.writeCtx.fd ≠ -1 then [.close e.writeCtx.fd] else []
  | .addRead .. | .remRead _ | .reqWrite .. => []

/-- What a round of the clean-up closes. -/
def closesFd (s : Reactor κ) (fd : Int) : List FileAction :=
  match s.fdEntries fd with
  | none => []
  | some e =>
    if !e.readActive && !e.writeActive then e.held.toList.map .close else []

/-- What the clean-up loop closes. -/
def closes : List Int → Reactor κ → List FileAction
  | [], _ => []
  | fd :: rest, s => s.closesFd fd ++ closes rest (s.cleanupFd fd)

/-- What a step does to descriptors. -/
def fileView (s : Reactor κ) : Event κ → List FileAction
  | .call op => s.opens op
  | .cleanup => closes s.pendingCleanup s

end Reactor

/-! ## Entries -/

theorem FdEntry.held_eq_some {e : FdEntry κ} {x : Int} :
    e.held = some x ↔ e.writeCtx.fd ≠ -1 ∧ e.writeCtx.fd = x := by
  unfold FdEntry.held
  split
  · rename_i noWrite
    exact ⟨fun h => (by cases h), fun h => absurd noWrite h.1⟩
  · rename_i there
    exact ⟨fun h => ⟨there, Option.some.inj h⟩, fun h => congrArg some h.2⟩

/-- The table holds what its entries do. -/
theorem custody_entryOf (s : Reactor κ) (fd : Int) : s.custody.held fd = (s.entryOf fd).held := by
  unfold Reactor.custody Reactor.entryOf
  dsimp only
  cases s.fdEntries fd with
  | none => rfl
  | some e => rfl

/-- What a call makes of the duplicate of a descriptor. -/
theorem perform_held (s : Reactor κ) (op : Op κ) (fd : Int) :
    (s.perform op).custody.held fd = (op.onEntry fd (s.adds + 1) (s.entryOf fd)).held := by
  rcases perform_entry s op fd with stored | ⟨same, kept⟩
  · exact congrArg (Option.bind · FdEntry.held) stored
  · rw [kept, ← custody_entryOf]
    exact congrArg (Option.bind · FdEntry.held) same

/-- Only `add_write` and `rem_write` of a descriptor change its duplicate. -/
theorem onEntry_held {op : Op κ} {adds : Nat} {e : FdEntry κ}
    (unmade : ∀ cb dupFd added, op = .addWrite fd cb dupFd added → e.writeCtx.fd ≠ -1 ∨ dupFd = -1)
    (unremoved : op = .remWrite fd → ¬(e.writeActive ∧ e.writeCtx.fd ≠ -1)) :
    (op.onEntry fd adds e).held = e.held := by
  cases op with
  | openFd x => rfl
  | closeFd x => rfl
  | addRead x events cb added | remRead x | reqWrite x events modified =>
    simp only [Op.onEntry]
    split <;> rfl
  | addWrite x cb dupFd added =>
    simp only [Op.onEntry]
    split
    · rename_i own
      subst own
      split
      · rfl
      · rename_i there
        have had : e.writeCtx.fd ≠ -1 := by
          rcases unmade cb dupFd added rfl with had | rfl
          · exact had
          · intro noWrite
            exact there (if_pos noWrite)
        have same : e.writeFd dupFd = e.writeCtx.fd := if_neg had
        simp only [FdEntry.held, same]
    · rfl
  | remWrite x =>
    simp only [Op.onEntry]
    split
    · rename_i both
      obtain ⟨rfl, active⟩ := both
      exact absurd active (unremoved rfl)
    · rfl

/-! ## Calls -/

/-- A step that leaves the descriptors and the duplicates alone. -/
theorem custody_same (files : t.kernel.fds = s.kernel.fds)
    (held : ∀ fd, t.custody.held fd = s.custody.held fd) : t.custody = s.custody := by
  have sameFiles : t.custody.files = s.custody.files := by
    unfold Reactor.custody
    rw [files]
  exact congrArg₂ Custody.mk sameFiles (funext held)

/-- A step that opens or closes one descriptor. -/
theorem custody_files {x : Int} {owner : Option Owner}
    (files : t.kernel.fds = Function.update s.kernel.fds x owner) :
    t.custody.files = Function.update s.custody.files x (owner.map Owner.shown) := by
  funext y
  unfold Reactor.custody
  dsimp only
  rw [files]
  by_cases same : y = x
  · subst same
    rw [Function.update_self, Function.update_self]
  · rw [Function.update_of_ne same, Function.update_of_ne same]

/-- `add_write` with a descriptor that has no duplicate yet. -/
theorem addWrite_custody {cb : Option κ} {dupFd : Int} {added : Bool}
    (noWrite : (s.entryOf fd).writeCtx.fd = -1) (opened : dupFd ≠ -1)
    (free : s.kernel.fds dupFd = none) :
    Custody.Step s.custody (.dup fd dupFd) (s.perform (.addWrite fd cb dupFd added)).custody := by
  have held : ∀ fd', (s.perform (.addWrite fd cb dupFd added)).custody.held fd' =
      Function.update s.custody.held fd (some dupFd) fd' := by
    intro fd'
    rw [perform_held]
    by_cases own : fd' = fd
    · subst own
      have writeFd : (s.entryOf fd').writeFd dupFd = dupFd := if_pos noWrite
      rw [Function.update_self]
      simp only [Op.onEntry, writeFd, if_neg opened, if_true, FdEntry.held]
    · rw [Function.update_of_ne own, custody_entryOf]
      refine congrArg FdEntry.held ?_
      simp only [Op.onEntry, if_neg (Ne.symm own)]
  have files : (s.perform (.addWrite fd cb dupFd added)).kernel.fds =
      Function.update s.kernel.fds dupFd (some (.duplicate fd)) := by
    have noWrite' : ((({ s with adds := s.adds + 1 } : Reactor κ).entryOf fd).writeCtx.fd = -1) :=
      noWrite
    have writeFd : ¬((({ s with adds := s.adds + 1 } : Reactor κ).entryOf fd).named fd).writeFd
        dupFd = -1 := by
      rw [show ((({ s with adds := s.adds + 1 } : Reactor κ).entryOf fd).named fd).writeFd dupFd =
        dupFd from if_pos noWrite']
      exact opened
    simp only [Reactor.perform, Reactor.addWrite, if_neg writeFd, Reactor.dupped, if_pos noWrite']
    cases added <;> rfl
  have same : (s.perform (.addWrite fd cb dupFd added)).custody =
      { files := Function.update s.custody.files dupFd (some (.duplicate fd))
        held := Function.update s.custody.held fd (some dupFd) } :=
    congrArg₂ Custody.mk (custody_files files) (funext held)
  rw [same]
  refine .dup ?_ ?_
  · exact congrArg (Option.map Owner.shown) free
  · rw [custody_entryOf]
    exact if_pos noWrite

/-- `rem_write` of a registration that is there. -/
theorem remWrite_custody {e : FdEntry κ} (he : s.fdEntries fd = some e)
    (active : e.writeActive = true) (valid : e.writeCtx.fd ≠ -1) :
    Custody.Step s.custody (.close e.writeCtx.fd) (s.perform (.remWrite fd)).custody := by
  have held : ∀ fd', (s.perform (.remWrite fd)).custody.held fd' =
      Function.update s.custody.held fd none fd' := by
    intro fd'
    rw [perform_held]
    by_cases own : fd' = fd
    · subst own
      rw [Function.update_self, Agree.entryOf_eq he]
      simp only [Op.onEntry, active, valid, ne_eq, not_false_eq_true, and_self, if_true,
        FdEntry.held]
    · rw [Function.update_of_ne own, custody_entryOf]
      refine congrArg FdEntry.held ?_
      simp only [Op.onEntry]
      rw [if_neg fun both => own both.1.symm]
  have files : (s.perform (.remWrite fd)).kernel.fds =
      Function.update s.kernel.fds e.writeCtx.fd none := by
    simp only [Reactor.perform, Reactor.remWrite, he, active, valid, ne_eq, not_false_eq_true,
      and_self, if_true]
    rw [notePending_kernel]
    rfl
  have same : (s.perform (.remWrite fd)).custody =
      { files := Function.update s.custody.files e.writeCtx.fd none
        held := Function.update s.custody.held fd none } :=
    congrArg₂ Custody.mk (custody_files files) (funext held)
  rw [same]
  refine .close ?_
  rw [custody_entryOf, Agree.entryOf_eq he, FdEntry.held_eq_some]
  exact ⟨valid, rfl⟩

/-- A call that opens and closes nothing. -/
theorem quiet_custody {op : Op κ} (opensNone : s.opens op = [])
    (files : (s.perform op).kernel.fds = s.kernel.fds)
    (unmade : ∀ fd cb dupFd added, op = .addWrite fd cb dupFd added →
      (s.entryOf fd).writeCtx.fd ≠ -1 ∨ dupFd = -1)
    (unremoved : ∀ fd, op = .remWrite fd →
      ¬((s.entryOf fd).writeActive ∧ (s.entryOf fd).writeCtx.fd ≠ -1)) :
    Run Custody.Step s.custody (s.opens op) (s.perform op).custody := by
  rw [opensNone, custody_same files fun fd => ?_]
  · exact Run.nil
  · rw [perform_held, custody_entryOf]
    exact onEntry_held (unmade fd) (unremoved fd)

theorem addRead_fds (s : Reactor κ) (fd : Int) (events : BitVec 32) (cb : Option κ)
    (added : Bool) : (s.perform (.addRead fd events cb added)).kernel.fds = s.kernel.fds := by
  cases added <;> rfl

theorem remRead_fds (s : Reactor κ) (fd : Int) :
    (s.perform (.remRead fd)).kernel.fds = s.kernel.fds := by
  simp only [Reactor.perform, Reactor.remRead]
  split
  · rfl
  · split
    · rw [notePending_kernel]
      rfl
    · rw [notePending_kernel]

theorem reqWrite_fds (s : Reactor κ) (fd : Int) (events : BitVec 32) (modified : Bool) :
    (s.perform (.reqWrite fd events modified)).kernel.fds = s.kernel.fds := by
  simp only [Reactor.perform, Reactor.reqWrite]
  split
  · rfl
  · split
    · rfl
    · split <;> rfl

/-- `add_write` where there is a duplicate, or `dup` fails. -/
theorem addWrite_fds {cb : Option κ} {dupFd : Int} {added : Bool}
    (nothing : (s.entryOf fd).writeCtx.fd ≠ -1 ∨ dupFd = -1) :
    (s.perform (.addWrite fd cb dupFd added)).kernel.fds = s.kernel.fds := by
  have undupped : (({ s with adds := s.adds + 1 } : Reactor κ).entryOf fd).writeCtx.fd ≠ -1 ∨
      dupFd = -1 := nothing
  simp only [Reactor.perform, Reactor.addWrite]
  split
  · rfl
  · rename_i valid
    have there : ({ s with adds := s.adds + 1 } : Reactor κ).dupped fd dupFd =
        { s with adds := s.adds + 1 } := by
      refine if_neg ?_
      rcases undupped with had | rfl
      · exact had
      · intro noWrite
        exact valid (if_pos noWrite)
    rw [there]
    cases added <;> rfl

/-- **A call opens and closes descriptors as it should.** -/
theorem call_custody {op : Op κ} (step : s.call op = some t) :
    Run Custody.Step s.custody (s.opens op) t.custody := by
  obtain ⟨allowed, performed⟩ := Option.ite_none_right_eq_some.mp step
  obtain rfl := Option.some.inj performed
  cases op with
  | openFd x =>
    have files : (s.perform (.openFd x)).kernel.fds =
        Function.update s.kernel.fds x (some .caller) := rfl
    have same : (s.perform (.openFd x)).custody =
        { s.custody with files := Function.update s.custody.files x (some .program) } :=
      congrArg₂ Custody.mk (custody_files files) rfl
    rw [same]
    exact Run.single (.openFd (congrArg (Option.map Owner.shown) allowed.2))
  | closeFd x =>
    have files : (s.perform (.closeFd x)).kernel.fds = Function.update s.kernel.fds x none := rfl
    have same : (s.perform (.closeFd x)).custody =
        { s.custody with files := Function.update s.custody.files x none } :=
      congrArg₂ Custody.mk (custody_files files) rfl
    rw [same]
    exact Run.single (.closeFd (congrArg (Option.map Owner.shown) allowed.1))
  | addRead fd events cb added =>
    exact quiet_custody rfl (addRead_fds s fd events cb added) (by simp) (by simp)
  | remRead fd => exact quiet_custody rfl (remRead_fds s fd) (by simp) (by simp)
  | reqWrite fd events modified =>
    exact quiet_custody rfl (reqWrite_fds s fd events modified) (by simp) (by simp)
  | addWrite fd cb dupFd added =>
    by_cases opens : (s.entryOf fd).writeCtx.fd = -1 ∧ dupFd ≠ -1
    · rw [show s.opens (.addWrite fd cb dupFd added) = _ from if_pos opens]
      have free := (allowed.2.1.resolve_left opens.2).2.1
      exact Run.single (addWrite_custody opens.1 opens.2 free)
    · have nothing : (s.entryOf fd).writeCtx.fd ≠ -1 ∨ dupFd = -1 := by
        by_contra both
        rw [not_or, not_not] at both
        exact opens both
      refine quiet_custody (if_neg opens) (addWrite_fds nothing)
        (fun fd' cb' dupFd' added' same => ?_) (by simp)
      obtain ⟨rfl, -, rfl, -⟩ := Op.addWrite.inj same
      exact nothing
  | remWrite fd =>
    cases he : s.fdEntries fd with
    | none =>
      refine quiet_custody (by simp only [Reactor.opens, he]) ?_ (by simp) fun fd' same => ?_
      · simp only [Reactor.perform, Reactor.remWrite, he]
      · obtain rfl := Op.remWrite.inj same
        rw [Reactor.entryOf, he]
        rintro ⟨active, -⟩
        cases active
    | some e =>
      by_cases both : e.writeActive = true ∧ e.writeCtx.fd ≠ -1
      · simp only [Reactor.opens, he, if_pos both]
        exact Run.single (remWrite_custody he both.1 both.2)
      · refine quiet_custody (by simp only [Reactor.opens, he, if_neg both]) ?_ (by simp)
          fun fd' same => ?_
        · simp only [Reactor.perform, Reactor.remWrite, he, if_neg both]
          rw [notePending_kernel]
        · obtain rfl := Op.remWrite.inj same
          rw [Agree.entryOf_eq he]
          exact both

/-! ## The clean-up -/

/-- A round of the clean-up closes the duplicate of an entry that goes. -/
theorem cleanupFd_custody (s : Reactor κ) (fd : Int) :
    Run Custody.Step s.custody (s.closesFd fd) (s.cleanupFd fd).custody := by
  unfold Reactor.closesFd Reactor.cleanupFd
  cases he : s.fdEntries fd with
  | none => exact Run.nil
  | some e =>
    dsimp only
    by_cases idle : (!e.readActive && !e.writeActive) = true
    · rw [if_pos idle, if_pos idle]
      have gone : ∀ fd', (Function.update s.fdEntries fd none fd').bind FdEntry.held =
          Function.update s.custody.held fd none fd' := by
        intro fd'
        by_cases own : fd' = fd
        · subst own
          rw [Function.update_self, Function.update_self]
          rfl
        · rw [Function.update_of_ne own, Function.update_of_ne own]
          rfl
      have there : s.custody.held fd = e.held := congrArg (Option.bind · FdEntry.held) he
      by_cases valid : e.writeCtx.fd ≠ -1
      · have holds : e.held = some e.writeCtx.fd := if_neg valid
        rw [if_pos valid, holds]
        have files : ((s.withKernel (s.kernel.close e.writeCtx.fd)).custody).files =
            Function.update s.custody.files e.writeCtx.fd none :=
          custody_files (t := s.withKernel (s.kernel.close e.writeCtx.fd)) rfl
        have same : ({ s.withKernel (s.kernel.close e.writeCtx.fd) with
            fdEntries := Function.update s.fdEntries fd none } : Reactor κ).custody =
              { files := Function.update s.custody.files e.writeCtx.fd none
                held := Function.update s.custody.held fd none } :=
          congrArg₂ Custody.mk files (funext gone)
        have closed := Custody.Step.close (there.trans holds)
        rw [← same] at closed
        exact Run.single closed
      · have heldNone : e.held = none := if_pos (not_not.mp valid)
        rw [if_neg valid, heldNone]
        have same : ({ s with fdEntries := Function.update s.fdEntries fd none } :
            Reactor κ).custody = s.custody := by
          refine congrArg₂ Custody.mk rfl (funext fun fd' => ?_)
          rw [gone]
          by_cases own : fd' = fd
          · subst own
            rw [Function.update_self, ← heldNone]
            exact there.symm
          · rw [Function.update_of_ne own]
            rfl
        rw [same]
        exact Run.nil
    · rw [if_neg idle, if_neg idle]
      exact Run.nil

/-- The clean-up loop closes the duplicates of the entries that go. -/
theorem closes_custody (fds : List Int) (s : Reactor κ) :
    Run Custody.Step s.custody (Reactor.closes fds s) (fds.foldl Reactor.cleanupFd s).custody := by
  induction fds generalizing s with
  | nil => exact Run.nil
  | cons fd rest ih => exact (cleanupFd_custody s fd).trans (ih (s.cleanupFd fd))

/-! ## Runs -/

/-- **What a run does to descriptors is a run of the custody.** -/
theorem run_custody (eventFd : Nat) (pollIn : BitVec 32) {events : List (Event κ)}
    (run : events.foldlM Reactor.step (Reactor.init eventFd pollIn) = some s) :
    Run Custody.Step (Reactor.init eventFd pollIn : Reactor κ).custody
      (shows Reactor.step Reactor.fileView (Reactor.init eventFd pollIn) events) s.custody := by
  refine simulation_steps Reactor.custody ?_ run
  intro s event t step
  cases event with
  | call op => exact call_custody step
  | cleanup =>
    obtain rfl := Option.some.inj step
    exact closes_custody s.pendingCleanup s

end Bfc.EpollReactor
