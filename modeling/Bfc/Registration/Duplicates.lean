import Mathlib.Logic.Function.Basic
import Bfc.Lib.Transition

/-!
# The duplicates of the descriptor reactors

A write registration is watched through a duplicate of its descriptor, which the reactor opens and
has to close. `Custody` is who has which descriptor open, and which duplicate each descriptor has in
the reactor's tables. The kernel gives out numbers that are free, a closed one among them, so a
second close of a duplicate would hit a descriptor of someone else's: a close is a step only where
the tables hold the duplicate.
-/

namespace Bfc.Registration

open Lts

/-- Whose an open descriptor is: the program's, the reactor's for its wake-ups, or the duplicate of
a descriptor. -/
inductive Owner where
  | program
  | reactor
  | duplicate (fd : Int)
deriving DecidableEq

/-- The open descriptors, and the duplicates the tables hold. -/
structure Custody where
  files : Int → Option Owner
  held : Int → Option Int := fun _ => none

/-- What happens: the program opens and closes a descriptor, the reactor duplicates one and closes
one. -/
inductive FileAction where
  | openFd (x : Int)
  | closeFd (x : Int)
  | dup (fd x : Int)
  | close (x : Int)

/-- What that makes of the owner of a descriptor. -/
def FileAction.owner (x : Int) (was : Option Owner) : FileAction → Option Owner
  | .openFd y => if y = x then some .program else was
  | .dup fd y => if y = x then some (.duplicate fd) else was
  | .closeFd y | .close y => if y = x then none else was

/-- The descriptor that a close of the reactor names. -/
def FileAction.closes : FileAction → Option Int
  | .close x => some x
  | .openFd _ | .closeFd _ | .dup .. => none

/-- Whose a descriptor is after what has happened. -/
def ownerBy (before : Int → Option Owner) (x : Int) (ls : List FileAction) : Option Owner :=
  ls.foldl (FileAction.owner x) (before x)

namespace Custody

/-- What may happen next. -/
inductive Step (s : Custody) : FileAction → Custody → Prop
  | openFd {x : Int} (free : s.files x = none) :
      Step s (.openFd x) { s with files := Function.update s.files x (some .program) }
  | closeFd {x : Int} (own : s.files x = some .program) :
      Step s (.closeFd x) { s with files := Function.update s.files x none }
  | dup {fd x : Int} (free : s.files x = none) (unheld : s.held fd = none) :
      Step s (.dup fd x)
        { files := Function.update s.files x (some (.duplicate fd))
          held := Function.update s.held fd (some x) }
  | close {fd x : Int} (holds : s.held fd = some x) :
      Step s (.close x)
        { files := Function.update s.files x none
          held := Function.update s.held fd none }

/-- What every run looks like, from the files there were: each duplicate that is open is held by its
descriptor's entry, the reactor closes only such, and has no two of one descriptor. -/
structure Exact (first : Int → Option Owner) (ls : List FileAction) (s : Custody) : Prop where
  owners : ∀ x, s.files x = ownerBy first x ls
  held : ∀ x fd, s.files x = some (.duplicate fd) ↔ s.held fd = some x
  closes : ∀ before x after, ls = before ++ .close x :: after →
    ∃ fd, ownerBy first x before = some (.duplicate fd)
  dups : ∀ before fd x after, ls = before ++ .dup fd x :: after →
    ownerBy first x before = none ∧ ∀ y, ownerBy first y before ≠ some (.duplicate fd)

variable {s t : Custody}

/-- A step changes one descriptor. -/
theorem Step.files {a : FileAction} (step : Step s a t) (x : Int) :
    t.files x = a.owner x (s.files x) := by
  have changed : ∀ {y : Int} {owner : Option Owner},
      Function.update s.files y owner x = if y = x then owner else s.files x := by
    intro y owner
    split
    · rename_i same
      subst same
      exact Function.update_self ..
    · rename_i other
      exact Function.update_of_ne (Ne.symm other) ..
  cases step with
  | openFd free => exact changed
  | closeFd own => exact changed
  | dup free unheld => exact changed
  | close holds => exact changed

/-- The duplicates that are open are those the tables hold. -/
def Held (s : Custody) : Prop := ∀ x fd, s.files x = some (.duplicate fd) ↔ s.held fd = some x

/-- A descriptor that is no duplicate, before and after. -/
theorem Held.other (h : s.Held) {y : Int} {owner : Option Owner}
    (was : ∀ fd, s.files y ≠ some (.duplicate fd)) (owned : ∀ fd, owner ≠ some (.duplicate fd)) :
    Held { s with files := Function.update s.files y owner } := by
  intro x fd
  dsimp only
  by_cases same : x = y
  · subst same
    rw [Function.update_self]
    exact ⟨fun duplicate => absurd duplicate (owned fd),
      fun holds => absurd ((h x fd).mpr holds) (was fd)⟩
  · rw [Function.update_of_ne same]
    exact h x fd

/-- Every step keeps it. -/
theorem Held.step (h : s.Held) {a : FileAction} (step : Step s a t) : t.Held := by
  cases step with
  | @openFd y free =>
    refine h.other (fun fd => ?_) fun fd same => by cases same
    rw [free]
    exact fun same => by cases same
  | @closeFd y own =>
    refine h.other (fun fd => ?_) fun fd same => by cases same
    rw [own]
    exact fun same => by cases same
  | @dup fd y free unheld =>
    intro x fd'
    dsimp only
    by_cases same : fd' = fd
    · subst same
      rw [Function.update_self, Option.some.injEq]
      by_cases own : x = y
      · subst own
        rw [Function.update_self]
        exact ⟨fun _ => rfl, fun _ => rfl⟩
      · rw [Function.update_of_ne own]
        refine ⟨fun duplicate => ?_, fun equal => absurd equal.symm own⟩
        rw [h x fd', unheld] at duplicate
        cases duplicate
    · rw [Function.update_of_ne same]
      by_cases own : x = y
      · subst own
        rw [Function.update_self, ← h x fd', free]
        refine ⟨fun duplicate => ?_, fun duplicate => by cases duplicate⟩
        exact absurd (Owner.duplicate.inj (Option.some.inj duplicate)).symm same
      · rw [Function.update_of_ne own]
        exact h x fd'
  | @close fd y holds =>
    intro x fd'
    dsimp only
    have own := (h y fd).mpr holds
    by_cases same : fd' = fd
    · subst same
      rw [Function.update_self]
      refine ⟨fun duplicate => ?_, fun holds' => by cases holds'⟩
      by_cases closed : x = y
      · subst closed
        rw [Function.update_self] at duplicate
        cases duplicate
      · rw [Function.update_of_ne closed, h x fd', holds] at duplicate
        exact absurd (Option.some.inj duplicate).symm closed
    · rw [Function.update_of_ne same]
      by_cases closed : x = y
      · subst closed
        rw [Function.update_self]
        refine ⟨fun duplicate => (by cases duplicate), fun holds' => ?_⟩
        have both := own.symm.trans ((h x fd').mpr holds')
        exact absurd (Owner.duplicate.inj (Option.some.inj both)).symm same
      · rw [Function.update_of_ne closed]
        exact h x fd'

theorem Held.run (h : s.Held) {ls : List FileAction} (run : Run Step s ls t) : t.Held :=
  run.invariant h fun held step => held.step step

/-- Whose each descriptor is, after a run. -/
theorem files_run {ls : List FileAction} (run : Run Step s ls t) (x : Int) :
    t.files x = ownerBy s.files x ls := by
  refine run.history (P := fun ls t => t.files x = ownerBy s.files x ls) rfl ?_
  intro ls u a v before step
  rw [step.files, before, ownerBy, ownerBy, List.foldl_append]
  rfl

/-- A run is known by the duplicates it leaves in the tables. -/
theorem run_to {ls : List FileAction} {u : Custody} (run : Run Step s ls u)
    (files : ∀ x, t.files x = ownerBy s.files x ls) (held : ∀ fd, t.held fd = u.held fd) :
    Run Step s ls t := by
  have same : t = u := congrArg₂ Custody.mk
    (funext fun x => (files x).trans (files_run run x).symm) (funext held)
  exact same ▸ run

/-- **Duplicates are closed exactly once**, in every run from tables that hold none. -/
theorem exact_of_run {first : Int → Option Owner} {ls : List FileAction}
    (noneFirst : ∀ x fd, first x ≠ some (.duplicate fd)) (run : Run Step { files := first } ls s) :
    Exact first ls s := by
  have start : Held { files := first } := fun x fd =>
    ⟨fun duplicate => absurd duplicate (noneFirst x fd), fun holds => by cases holds⟩
  refine ⟨files_run run, start.run run, ?_, ?_⟩
  · rintro before x after rfl
    obtain ⟨u, earlier, rest⟩ := run.split before _
    obtain ⟨v, step, -⟩ := rest.split [_] after
    cases step.of_single with
    | @close fd x holds =>
      exact ⟨fd, (files_run earlier x).symm.trans ((start.run earlier x fd).mpr holds)⟩
  · rintro before fd x after rfl
    obtain ⟨u, earlier, rest⟩ := run.split before _
    obtain ⟨v, step, -⟩ := rest.split [_] after
    cases step.of_single with
    | dup free unheld =>
      refine ⟨(files_run earlier x).symm.trans free, fun y duplicate => ?_⟩
      have holds := (start.run earlier y fd).mp ((files_run earlier y).trans duplicate)
      rw [unheld] at holds
      cases holds

end Custody

end Bfc.Registration
