import Bfc.Configuration.Parser

/-!
# The command manager

`command_manager` as the source has it: `execute` takes the command and the text of its arguments
from a line with one regular expression, and the arguments from that text by searches with another,
until one finds nothing. The handlers are given by names; `answer` says what each returns for its
arguments.

The loop of the searches is told how often it may evaluate its condition, and has no result when
that is not often enough. `readArgs_ends` says what is: once more than the text has characters.

`invoked` is not in the source: it is the handlers that `execute` has run, with their arguments.
-/

namespace Bfc.Commands

open Backtracking Bfc.Configuration

variable {κ : Type}

/-- `\s`. -/
def isSpace (c : Char) : Bool :=
  c = ' ' || c = '\t' || c = '\n' || c = '\x0b' || c = '\x0c' || c = '\r'

/-- `\S`. -/
def notSpace (c : Char) : Bool := !isSpace c

/-- `^([\S]+)[\s]*(.*)$`. -/
def cmdPattern : Regex Char :=
  .seq .start (.seq (.group 1 (.plus true (.one notSpace))) (.seq (.star true (.one isSpace))
    (.seq (.group 2 (.star true (.one dot))) .finish)))

/-- `[\s]*=[\s]*([\S]+)`. -/
def assignPattern : Regex Char :=
  .seq (.star true (.one isSpace)) (.seq (.one (· = '=')) (.seq (.star true (.one isSpace))
    (.group 2 (.plus true (.one notSpace)))))

/-- `([\S]+)[\s]*=[\s]*([\S]+)`. -/
def argsPattern : Regex Char := .seq (.group 1 (.plus true (.one notSpace))) assignPattern

/-- `m_cmds`, and for the record, the handlers that were run. -/
structure Manager (κ : Type) where
  cmds : List Char → Option κ := fun _ => none
  invoked : List (κ × ArgsMap) := []

/-- `add`. -/
def Manager.add (m : Manager κ) (cmd : List Char) (callback : κ) : Manager κ :=
  if (m.cmds cmd).isSome then m
  else { m with cmds := Function.update m.cmds cmd (some callback) }

/-- `remove`. -/
def Manager.remove (m : Manager κ) (cmd : List Char) : Manager κ :=
  { m with cmds := Function.update m.cmds cmd none }

/-- `map.emplace(args_match[1], args_match[2])`. -/
def emplaceMatch (map : ArgsMap) (found : Match Char) : ArgsMap :=
  map.tryEmplace ((found.captures 1).getD []) ((found.captures 2).getD [])

/-- The loop: the arguments, or the text that is returned at once. `args_match.size()` is the number
of the groups, and the match. -/
def readArgs : Nat → ArgsMap → List Char → Option (Except (List Char) ArgsMap)
  | 0, _, _ => none
  | fuel + 1, map, args =>
    match argsPattern.search args with
    | none => some (.ok map)
    | some found =>
      if 3 ≠ argsPattern.markCount + 1 then
        some (.error ("invalid argument:".toList ++ found.text))
      else readArgs fuel (emplaceMatch map found) found.suffix

/-- The command and the text of its arguments. -/
def splitCommand (line : List Char) : List Char × List Char :=
  match cmdPattern.matchWhole line with
  | some found => ((found 1).getD [], (found 2).getD [])
  | none => ([], [])

/-- `execute`. -/
def Manager.execute (answer : κ → ArgsMap → List Char) (fuel : Nat) (m : Manager κ)
    (line : List Char) : Option (List Char × Manager κ) :=
  let (cmd, args) := splitCommand line
  (readArgs fuel (fun _ => none) args).map fun read =>
    match read with
    | .error text => (text, m)
    | .ok map =>
      match m.cmds cmd with
      | none => ("command not found: \"".toList ++ cmd ++ "\"".toList, m)
      | some k => (answer k map, { m with invoked := m.invoked ++ [(k, map)] })

/-! ## The loop -/

variable {map map' : ArgsMap} {args : List Char}

/-- The last round. -/
theorem readArgs_none (fuel : Nat) (h : argsPattern.search args = none) :
    readArgs (fuel + 1) map args = some (.ok map) := by
  rw [readArgs, h]

/-- A round that finds an argument. The pattern has two groups. -/
theorem readArgs_some {found : Match Char} (fuel : Nat) (h : argsPattern.search args = some found) :
    readArgs (fuel + 1) map args = readArgs fuel (emplaceMatch map found) found.suffix := by
  rw [readArgs, h]
  rfl

/-- What a search finds is not empty. -/
theorem search_suffix_lt {found : Match Char} (h : argsPattern.search args = some found) :
    found.suffix.length < args.length :=
  Regex.suffix_lt (by decide) h

/-- **The loop ends**, for every text, and no argument is invalid. -/
theorem readArgs_ends {fuel : Nat} (enough : args.length < fuel) (map : ArgsMap) :
    ∃ map', readArgs fuel map args = some (.ok map') := by
  induction fuel generalizing map args with
  | zero => cases enough
  | succ fuel ih =>
    cases h : argsPattern.search args with
    | none => exact ⟨map, readArgs_none fuel h⟩
    | some found =>
      rw [readArgs_some fuel h]
      exact ih (Nat.lt_of_lt_of_le (search_suffix_lt h) (Nat.le_of_lt_succ enough)) _

/-- A result does not depend on how often the loop may go on. -/
theorem readArgs_stable {fuel : Nat} {read : Except (List Char) ArgsMap}
    (h : readArgs fuel map args = some read) (more : Nat) :
    readArgs (fuel + more) map args = some read := by
  induction fuel generalizing map args with
  | zero => cases h
  | succ fuel ih =>
    rw [Nat.add_right_comm]
    cases search : argsPattern.search args with
    | none =>
      rw [readArgs_none fuel search] at h
      rw [readArgs_none _ search, h]
    | some found =>
      rw [readArgs_some fuel search] at h
      rw [readArgs_some _ search]
      exact ih h

/-- So `execute` has a result, for every line. -/
theorem Manager.execute_ends (answer : κ → ArgsMap → List Char) {fuel : Nat} (m : Manager κ)
    {line : List Char} (enough : (splitCommand line).2.length < fuel) :
    ∃ result, m.execute answer fuel line = some result := by
  obtain ⟨map, read⟩ := readArgs_ends enough fun _ => none
  exact ⟨_, congrArg (Option.map _) read⟩

theorem Manager.execute_stable {answer : κ → ArgsMap → List Char} {fuel : Nat} {m : Manager κ}
    {line : List Char} {result : List Char × Manager κ}
    (h : m.execute answer fuel line = some result) (more : Nat) :
    m.execute answer (fuel + more) line = some result := by
  obtain ⟨read, loop, same⟩ := Option.map_eq_some_iff.mp h
  exact Option.map_eq_some_iff.mpr ⟨read, readArgs_stable loop more, same⟩

/-- A command that is not registered is not found, whatever its arguments, and nothing is run. -/
theorem Manager.execute_not_found (answer : κ → ArgsMap → List Char) {fuel : Nat} {m : Manager κ}
    {line : List Char} (missing : m.cmds (splitCommand line).1 = none)
    (enough : (splitCommand line).2.length < fuel) :
    m.execute answer fuel line =
      some ("command not found: \"".toList ++ (splitCommand line).1 ++ "\"".toList, m) := by
  obtain ⟨map, read⟩ := readArgs_ends enough fun _ => none
  simp only [Manager.execute, read, Option.map_some, missing]

/-- So it is with a command that was removed. -/
theorem Manager.execute_removed (answer : κ → ArgsMap → List Char) {fuel : Nat} (m : Manager κ)
    {line : List Char} (enough : (splitCommand line).2.length < fuel) :
    (m.remove (splitCommand line).1).execute answer fuel line =
      some ("command not found: \"".toList ++ (splitCommand line).1 ++ "\"".toList,
        m.remove (splitCommand line).1) :=
  execute_not_found answer (Function.update_self ..) enough

theorem tryEmplace_isSome (map : ArgsMap) (key value : List Char) :
    (map.tryEmplace key value key).isSome = true := by
  unfold ArgsMap.tryEmplace
  split
  · rename_i bound
    exact bound
  · rw [Function.update_self, Option.isSome_some]

theorem tryEmplace_keeps {key : List Char} (bound : (map key).isSome = true)
    (other value : List Char) : (map.tryEmplace other value key).isSome = true := by
  unfold ArgsMap.tryEmplace
  split
  · exact bound
  · rw [Function.update_apply]
    split
    · rfl
    · exact bound

/-- What the loop has read stays. -/
theorem readArgs_keeps {fuel : Nat} (h : readArgs fuel map args = some (.ok map')) {key : List Char}
    (bound : (map key).isSome = true) : (map' key).isSome = true := by
  induction fuel generalizing map args with
  | zero => cases h
  | succ fuel ih =>
    cases search : argsPattern.search args with
    | none =>
      rw [readArgs_none fuel search] at h
      obtain rfl := Except.ok.inj (Option.some.inj h)
      exact bound
    | some found =>
      rw [readArgs_some fuel search] at h
      exact ih h (tryEmplace_keeps bound _ _)

end Bfc.Commands
