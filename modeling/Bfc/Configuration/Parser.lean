import Mathlib.Data.List.DropRight
import Bfc.Lib.Regex

/-!
# The configuration parser

`configuration_parser` as the source has it: `load_line` matches a line with a regular expression,
trims the two groups and adds them to the map if the key is new, and `load` does that for each line
of a file. A string is the list of its characters, a file the text in it, and the map is the value
of each key that it has.
-/

namespace Bfc.Configuration

open Backtracking

/-- `" \t\r\n"`. -/
def blank (c : Char) : Bool := c = ' ' || c = '\t' || c = '\r' || c = '\n'

/-- `find_first_not_of`. -/
def findFirstNotOf (s : List Char) (set : Char → Bool) : Option Nat := s.findIdx? (!set ·)

/-- `find_last_not_of`. -/
def findLastNotOf (s : List Char) (set : Char → Bool) : Option Nat :=
  (s.reverse.findIdx? (!set ·)).map (s.length - 1 - ·)

/-- `substr`. -/
def substr (s : List Char) (pos count : Nat) : List Char := (s.drop pos).take count

/-- `detail::trim`. -/
def trim (s : List Char) : List Char :=
  match findFirstNotOf s blank with
  | none => []
  | some start =>
    match findLastNotOf s blank with
    | some last => substr s start (last - start + 1)
    | none => s.drop start

/-- `args_map`. -/
abbrev ArgsMap := List Char → Option (List Char)

/-- `try_emplace`. -/
def ArgsMap.tryEmplace (m : ArgsMap) (key value : List Char) : ArgsMap :=
  if (m key).isSome then m else Function.update m key (some value)

/-- `.`: any character but a line terminator. -/
def dot (c : Char) : Bool := c ≠ '\n' && c ≠ '\r'

def space (c : Char) : Bool := c = ' '

/-- `^(.+?)[ ]*=[ ]*(.*?)$`. -/
def configFmt : Regex Char :=
  .seq .start (.seq (.group 1 (.plus false (.one dot))) (.seq (.star true (.one space))
    (.seq (.one (· = '=')) (.seq (.star true (.one space))
      (.seq (.group 2 (.star false (.one dot))) .finish)))))

/-- `load_line`. A group that has matched nothing is empty. -/
def loadLine (m : ArgsMap) (line : List Char) : ArgsMap :=
  match configFmt.matchWhole line with
  | some found => m.tryEmplace (trim ((found 1).getD [])) (trim ((found 2).getD []))
  | none => m

/-- The lines that `std::getline` yields until it fails. -/
def getlines : List Char → List (List Char)
  | [] => []
  | c :: rest =>
    if c = '\n' then [] :: getlines rest
    else
      match getlines rest with
      | [] => [[c]]
      | line :: lines => (c :: line) :: lines

/-- `load`, of a file that can be opened or not. -/
def load (m : ArgsMap) (file : Option (List Char)) : ArgsMap × Bool :=
  match file with
  | none => (m, false)
  | some text => ((getlines text).foldl loadLine m, true)

/-! ## Trimming -/

/-- The first character that is not in a set, after some that are. -/
theorem findFirstNotOf_append {set : Char → Bool} {a : List Char} (mem : ∀ c ∈ a, set c = true)
    {c : Char} (other : set c = false) (rest : List Char) :
    findFirstNotOf (a ++ c :: rest) set = some a.length := by
  have notFound : a.findIdx? (!set ·) = none := by
    rw [List.findIdx?_eq_none_iff]
    intro d hd
    rw [mem d hd, Bool.not_true]
  unfold findFirstNotOf
  rw [List.findIdx?_append, notFound, Option.none_or, List.findIdx?_cons, other, Bool.not_false,
    if_pos rfl, Option.map_some, Nat.zero_add]

/-- The last one, before some that are. -/
theorem findLastNotOf_append {set : Char → Bool} {b : List Char} (mem : ∀ c ∈ b, set c = true)
    {c : Char} (other : set c = false) (a : List Char) :
    findLastNotOf (a ++ c :: b) set = some a.length := by
  have last : b.reverse.findIdx? (!set ·) = none := by
    rw [List.findIdx?_eq_none_iff]
    intro d hd
    rw [mem d (List.mem_reverse.mp hd), Bool.not_true]
  unfold findLastNotOf
  rw [List.reverse_append, List.reverse_cons, List.append_assoc, List.findIdx?_append, last,
    Option.none_or, List.singleton_append, List.findIdx?_cons, other, Bool.not_false, if_pos rfl,
    Option.map_some, Option.map_some, List.length_append, List.length_cons, List.length_reverse]
  congr 1
  omega

/-- What is between the first and the last character that are not blank. -/
theorem trim_between {a u b : List Char} (before : ∀ c ∈ a, blank c = true)
    (after : ∀ c ∈ b, blank c = true) (nonempty : u ≠ []) (first : blank (u.head nonempty) = false)
    (last : blank (u.getLast nonempty) = false) : trim (a ++ (u ++ b)) = u := by
  have start : findFirstNotOf (a ++ (u ++ b)) blank = some a.length := by
    have found := findFirstNotOf_append before first (u.tail ++ b)
    rwa [← List.cons_append, List.cons_head_tail] at found
  have stop : findLastNotOf (a ++ (u ++ b)) blank = some (a.length + (u.length - 1)) := by
    have found := findLastNotOf_append after last (a ++ u.dropLast)
    rwa [List.append_cons, List.append_assoc a, List.dropLast_append_getLast, List.append_assoc,
      List.length_append, List.length_dropLast] at found
  have length := List.length_pos_iff.mpr nonempty
  have count : a.length + (u.length - 1) - a.length + 1 = u.length := by omega
  simp only [trim, start, stop, substr, count, List.drop_left, List.take_left]

/-- **`trim` takes blanks from both ends.** -/
theorem trim_eq (s : List Char) : trim s = (s.dropWhile blank).rdropWhile blank := by
  by_cases nothing : s.dropWhile blank = []
  · have all : findFirstNotOf s blank = none := by
      unfold findFirstNotOf
      rw [List.findIdx?_eq_none_iff]
      rw [List.dropWhile_eq_nil_iff] at nothing
      intro c hc
      rw [nothing c hc, Bool.not_true]
    rw [trim, all, nothing, List.rdropWhile_nil]
  · have front : s.takeWhile blank ++ s.dropWhile blank = s := List.takeWhile_append_dropWhile
    have back : (s.dropWhile blank).rdropWhile blank ++ (s.dropWhile blank).rtakeWhile blank =
        s.dropWhile blank := List.rdropWhile_append_rtakeWhile
    have head := List.head_dropWhile_not blank nothing
    have nonempty : (s.dropWhile blank).rdropWhile blank ≠ [] := by
      rw [Ne, List.rdropWhile_eq_nil_iff]
      intro all
      rw [all _ (List.head_mem nothing)] at head
      cases head
    have last := List.rdropWhile_last_not blank (s.dropWhile blank) nonempty
    rw [Bool.not_eq_true] at last
    have first : blank (((s.dropWhile blank).rdropWhile blank).head nonempty) = false := by
      rw [(List.rdropWhile_prefix blank (s.dropWhile blank)).head nonempty]
      exact head
    have trimmed := trim_between (a := s.takeWhile blank)
      (b := (s.dropWhile blank).rtakeWhile blank) (fun c hc => List.mem_takeWhile_imp hc)
      (fun c hc => List.mem_rtakeWhile_imp hc) nonempty first last
    rwa [back, front] at trimmed

/-- Blanks in front are nothing to `trim`. -/
theorem trim_blanks_append {a : List Char} (blanks : ∀ c ∈ a, blank c = true) (s : List Char) :
    trim (a ++ s) = trim s := by
  rw [trim_eq, trim_eq, List.dropWhile_append_of_pos blanks]

/-- Nor are blanks behind. -/
theorem trim_append_blanks {b : List Char} (blanks : ∀ c ∈ b, blank c = true) (s : List Char) :
    trim (s ++ b) = trim s := by
  have behind : ∀ x : List Char, (x ++ b).rdropWhile blank = x.rdropWhile blank := by
    intro x
    rw [List.rdropWhile, List.rdropWhile, List.reverse_append, List.dropWhile_append_of_pos]
    exact fun c hc => blanks c (List.mem_reverse.mp hc)
  rw [trim_eq, trim_eq, List.dropWhile_append]
  split
  · rename_i empty
    rw [List.isEmpty_iff.mp empty, List.dropWhile_eq_nil_iff.mpr blanks]
  · exact behind _

end Bfc.Configuration
