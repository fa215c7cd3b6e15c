import Bfc.Commands.Arguments

/-!
# Rendered commands

A line is rendered from a command and pairs of a key and a value, with spaces and tabs before each
pair, and around its `=` or not. A value is a word that does not begin with `=`, but may have one
later, as addresses and encoded texts do.

`execute` should run the handler of the command with the first value of each key. It does so if and
only if `readable` holds of the pairs: an argument with an `=` in its value must have a blank on
either side of its own `=`. Of the last argument, the value may end in its only `=` in any case.
-/

namespace Bfc.Commands

open Backtracking Bfc.Configuration

/-- A key and a value, and how they are written. -/
structure Argument where
  key : List Char
  value : List Char
  before : List Char := [' ']
  beforeEquals : List Char := []
  afterEquals : List Char := []
  key_some : key ≠ []
  key_word : Word key
  key_free : '=' ∉ key
  value_some : value ≠ []
  value_word : Word value
  value_first : value.head? ≠ some '='
  separated : before ≠ []
  padded : Padding before ∧ Padding beforeEquals ∧ Padding afterEquals

namespace Argument

/-- What is after the key. -/
def back (a : Argument) : List Char := a.beforeEquals ++ '=' :: (a.afterEquals ++ a.value)

def assignment (a : Argument) : List Char := a.key ++ a.back

def render (a : Argument) : List Char := a.before ++ a.assignment

/-- There are no blanks around the `=`. -/
def tight (a : Argument) : Bool := a.beforeEquals.isEmpty && a.afterEquals.isEmpty

/-- No other `=` of the argument can be taken for its own. -/
def clear (last : Bool) (a : Argument) : Bool :=
  !a.tight || !(if last then a.value.dropLast else a.value).contains '='

end Argument

/-- The arguments, and what is after them. -/
def argsText (args : List Argument) (trailing : List Char) : List Char :=
  args.flatMap Argument.render ++ trailing

/-- The first value of each key. -/
def firstValues (args : List Argument) : ArgsMap := fun key =>
  (args.find? fun a => a.key = key).map Argument.value

/-- The rendered arguments from which `execute` reads these again. -/
def readable : List Argument → Bool
  | [] => true
  | a :: rest => a.clear rest.isEmpty && readable rest

/-! ## The text of the arguments -/

theorem padding_spaces {s : List Char} (h : Padding s) : ∀ c ∈ s, isSpace c = true := by
  intro c hc
  rcases h c hc with rfl | rfl
  · rfl
  · rfl

namespace Argument

variable (a : Argument)

theorem key_cons : ∃ c cs, a.key = c :: cs ∧ isSpace c = false ∧ c ≠ '=' := by
  obtain ⟨c, cs, same⟩ := List.exists_cons_of_ne_nil a.key_some
  have mem : c ∈ a.key := same ▸ List.mem_cons_self
  exact ⟨c, cs, same, a.key_word c mem, fun equals => a.key_free (equals ▸ mem)⟩

theorem value_cons : ∃ c cs, a.value = c :: cs ∧ isSpace c = false ∧ c ≠ '=' := by
  obtain ⟨c, cs, same⟩ := List.exists_cons_of_ne_nil a.value_some
  refine ⟨c, cs, same, a.value_word c (same ▸ List.mem_cons_self), fun equals => a.value_first ?_⟩
  rw [same, List.head?_cons, equals]

end Argument

theorem argsText_cons (a : Argument) (rest : List Argument) (trailing : List Char) :
    argsText (a :: rest) trailing = a.before ++ (a.assignment ++ argsText rest trailing) := by
  rw [argsText, List.flatMap_cons, Argument.render, List.append_assoc, List.append_assoc, argsText]

/-- Without the white space in front, the text begins with the first argument. -/
theorem dropWhile_argsText (a : Argument) (rest : List Argument) (trailing : List Char) :
    (argsText (a :: rest) trailing).dropWhile isSpace = a.assignment ++ argsText rest trailing := by
  obtain ⟨c, key, same, first, -⟩ := a.key_cons
  rw [argsText_cons, List.dropWhile_append_of_pos (padding_spaces a.padded.1), Argument.assignment,
    same, List.cons_append, List.cons_append, List.dropWhile_cons, first,
    if_neg Bool.false_ne_true]

section Text

variable {trailing : List Char} (blanks : Padding trailing)

include blanks

/-- A word before the text ends there. -/
theorem argsText_ends (args : List Argument) :
    ∀ c cs, argsText args trailing = c :: cs → isSpace c = true := by
  intro c cs text
  cases args with
  | nil =>
    have text : trailing = c :: cs := text
    exact padding_spaces blanks c (text ▸ List.mem_cons_self)
  | cons a rest =>
    obtain ⟨d, before, same⟩ := List.exists_cons_of_ne_nil a.separated
    rw [argsText_cons, same] at text
    obtain ⟨rfl, -⟩ := List.cons.inj text
    exact padding_spaces a.padded.1 d (same ▸ List.mem_cons_self)

/-- It is no assignment: a key comes first. -/
theorem argsText_not_assigns (args : List Argument) : ¬Assigns (argsText args trailing) := by
  cases args with
  | nil =>
    rintro ⟨spaces, u, text, -⟩
    have text : trailing = spaces ++ '=' :: u := text
    have mem : '=' ∈ trailing := text ▸ List.mem_append_right _ List.mem_cons_self
    exact blanks.free (by decide) mem
  | cons a rest =>
    obtain ⟨c, key, same, first, free⟩ := a.key_cons
    rw [argsText_cons, assigns_blanks (padding_spaces a.padded.1), Argument.assignment, same,
      List.cons_append, List.cons_append, assigns_cons first]
    exact fun assigns => free assigns.1

/-- There is a word in it if and only if there is an argument. -/
theorem argsText_word (args : List Argument) :
    (∃ c ∈ argsText args trailing, isSpace c = false) ↔ args ≠ [] := by
  constructor
  · rintro ⟨c, hc, word⟩ rfl
    rw [padding_spaces blanks c hc] at word
    cases word
  · intro nonempty
    obtain ⟨a, rest, rfl⟩ := List.exists_cons_of_ne_nil nonempty
    obtain ⟨c, key, same, first, -⟩ := a.key_cons
    refine ⟨c, ?_, first⟩
    rw [argsText_cons, Argument.assignment, same]
    simp only [List.mem_append, List.mem_cons, true_or, or_true]

end Text

/-! ## One argument -/

namespace Argument

/-- A later `=` can be taken for that of the argument: it has none of the blanks that tell, and
there is something to assign after another. -/
def Swallows (a : Argument) (tail : List Char) : Prop :=
  a.tight = true ∧ ∃ v v', a.value = v ++ '=' :: v' ∧ ∃ c ∈ v' ++ tail, isSpace c = false

/-- This is what `clear` decides. -/
theorem swallows_iff (a : Argument) {trailing : List Char} (blanks : Padding trailing)
    (rest : List Argument) :
    a.Swallows (argsText rest trailing) ↔ a.clear rest.isEmpty = false := by
  rw [Swallows, clear, Bool.or_eq_false_iff, Bool.not_eq_false', Bool.not_eq_false',
    List.contains_iff_mem]
  refine and_congr_right fun _ => ?_
  cases rest with
  | nil =>
    rw [List.isEmpty_nil, if_pos rfl]
    constructor
    · rintro ⟨v, v', value, c, hc, word⟩
      rcases List.mem_append.mp hc with later | later
      · have nonempty : v' ≠ [] := List.ne_nil_of_mem later
        rw [value, List.dropLast_append_of_ne_nil (List.cons_ne_nil _ _),
          List.dropLast_cons_of_ne_nil nonempty]
        exact List.mem_append_right _ List.mem_cons_self
      · exact absurd rfl ((argsText_word blanks []).mp ⟨c, later, word⟩)
    · intro mem
      obtain ⟨v, v', value⟩ := List.append_of_mem mem
      have last := List.getLast_mem a.value_some
      refine ⟨v, v' ++ [a.value.getLast a.value_some], ?_, a.value.getLast a.value_some, ?_,
        a.value_word _ last⟩
      · rw [← List.cons_append, ← List.append_assoc, ← value, List.dropLast_append_getLast]
      · simp only [List.mem_append, List.mem_singleton, or_true, true_or]
  | cons b rest =>
    rw [List.isEmpty_cons, if_neg Bool.false_ne_true]
    constructor
    · rintro ⟨v, v', value, -⟩
      rw [value]
      exact List.mem_append_right _ List.mem_cons_self
    · intro mem
      obtain ⟨v, v', value⟩ := List.append_of_mem mem
      obtain ⟨c, hc, word⟩ := (argsText_word blanks (b :: rest)).mpr (List.cons_ne_nil _ _)
      exact ⟨v, v', value, c, List.mem_append_right _ hc, word⟩

variable (a : Argument) {tail x y : List Char}

/-- What can be cut in a value: an assignment begins there only before an `=` of it. -/
theorem value_cut (ends : ∀ c cs, tail = c :: cs → isSpace c = true) (noAssign : ¬Assigns tail)
    (split : a.value ++ tail = x ++ y) (word : Word x) (assigns : Assigns y) :
    ∃ z, a.value = x ++ '=' :: z ∧ ∃ c ∈ z ++ tail, isSpace c = false := by
  rcases List.append_eq_append_iff.mp split with ⟨z, rfl, rest⟩ | ⟨z, value, rest⟩
  · cases z with
    | nil => exact absurd (rest.symm ▸ assigns) noAssign
    | cons c z =>
      have later : Word (c :: z) := fun d hd => word d (List.mem_append_right _ hd)
      exact absurd (ends c _ rest) later.first
  · cases z with
    | nil => exact absurd ((show y = tail from rest) ▸ assigns) noAssign
    | cons c z =>
      have mem : c ∈ a.value := value ▸ List.mem_append_right _ List.mem_cons_self
      rw [rest, List.cons_append, assigns_cons (a.value_word c mem)] at assigns
      obtain ⟨rfl, later⟩ := assigns
      exact ⟨z, value, later⟩

/-- What can be cut after the key: an assignment begins there, and before an `=` of the value of an
argument without blanks. -/
theorem cut_cases (ends : ∀ c cs, tail = c :: cs → isSpace c = true) (noAssign : ¬Assigns tail)
    (split : a.back ++ tail = x ++ y) (word : Word x) (assigns : Assigns y) :
    x = [] ∨ a.Swallows tail ∧ ∃ v, x = '=' :: v := by
  rw [back, List.append_assoc, List.cons_append, List.append_assoc] at split
  cases x with
  | nil => exact .inl rfl
  | cons d x =>
    -- there is no white space in a word, so none before the `=` or after it
    cases before : a.beforeEquals with
    | cons e before' =>
      rw [before] at split
      obtain ⟨rfl, -⟩ := List.cons.inj split
      exact absurd (padding_spaces a.padded.2.1 e (before ▸ List.mem_cons_self)) word.first
    | nil =>
      rw [before] at split
      obtain ⟨rfl, split'⟩ := List.cons.inj split
      have word' : Word x := fun c hc => word c (List.mem_cons_of_mem _ hc)
      cases after : a.afterEquals with
      | nil =>
        rw [after, List.nil_append] at split'
        obtain ⟨z, value, later⟩ := a.value_cut ends noAssign split' word' assigns
        refine .inr ⟨⟨?_, x, z, value, later⟩, x, rfl⟩
        rw [tight, before, after]
        rfl
      | cons e after' =>
        cases x with
        | nil =>
          -- the value would have to be an assignment
          obtain ⟨c, value, same, first, free⟩ := a.value_cons
          have rest : a.afterEquals ++ (a.value ++ tail) = y := split'
          rw [← rest, assigns_blanks (padding_spaces a.padded.2.2), same, List.cons_append,
            assigns_cons first] at assigns
          exact absurd assigns.1 free
        | cons f x =>
          rw [after] at split'
          obtain ⟨rfl, -⟩ := List.cons.inj split'
          exact absurd (padding_spaces a.padded.2.2 e (after ▸ List.mem_cons_self)) word'.first

/-- The longest cut is after the key, unless an `=` of the value can be taken for that of the
argument. -/
theorem longestCut_cases (ends : ∀ c cs, tail = c :: cs → isSpace c = true)
    (noAssign : ¬Assigns tail) (cut : LongestCut (a.assignment ++ tail) x y)
    (longer : a.key.length ≤ x.length) :
    (¬a.Swallows tail ∧ x = a.key ∧ y = a.back ++ tail) ∨ (a.Swallows tail ∧ '=' ∈ x) := by
  have split := cut.split
  rw [assignment, List.append_assoc] at split
  obtain ⟨z, rfl, split'⟩ : ∃ z, x = a.key ++ z ∧ a.back ++ tail = z ++ y := by
    rcases List.append_eq_append_iff.mp split with found | ⟨z, key, rest⟩
    · exact found
    · have short := congrArg List.length key
      rw [List.length_append] at short
      obtain rfl : z = [] := List.eq_nil_of_length_eq_zero (by omega)
      exact ⟨[], by rw [key, List.append_nil, List.append_nil], rest.symm⟩
  have word : Word z := fun c hc => cut.word c (List.mem_append_right _ hc)
  rcases a.cut_cases ends noAssign split' word cut.assigns with rfl | ⟨swallows, v, rfl⟩
  · refine .inl ⟨?_, List.append_nil _, split'.symm⟩
    rintro ⟨tight, v, v', value, later⟩
    -- the cut before the other `=` would be longer
    rw [Argument.tight, Bool.and_eq_true, List.isEmpty_iff, List.isEmpty_iff] at tight
    refine cut.longest (a.key ++ '=' :: v) ('=' :: (v' ++ tail)) ?_ ?_ ?_
      ⟨[], v' ++ tail, rfl, fun c hc => (by cases hc), later⟩
    · rw [assignment, back, tight.1, tight.2, value]
      simp only [List.append_assoc, List.cons_append, List.nil_append]
    · rw [List.append_nil, List.length_append, List.length_cons]
      omega
    · refine List.forall_mem_append.mpr ⟨a.key_word, List.forall_mem_cons.mpr ⟨rfl, ?_⟩⟩
      exact fun c hc => a.value_word c (value ▸ List.mem_append_left _ hc)
  · exact .inr ⟨swallows, List.mem_append_right _ List.mem_cons_self⟩

/-- In a text that begins with an argument, it can be cut after the key. -/
theorem search_assignment {text : List Char}
    (begins : text.dropWhile isSpace = a.assignment ++ tail) :
    ∃ x y found, LongestCut (a.assignment ++ tail) x y ∧ a.key.length ≤ x.length ∧
      argsPattern.search text = some found ∧ CutMatch x y found := by
  obtain ⟨c, value, same, first, -⟩ := a.value_cons
  have blanks : ∀ c ∈ text.takeWhile isSpace, isSpace c = true :=
    fun c hc => List.mem_takeWhile_imp hc
  have split : a.assignment ++ tail = a.key ++ (a.back ++ tail) := List.append_assoc ..
  have assigns : Assigns (a.back ++ tail) := by
    refine ⟨a.beforeEquals, (a.afterEquals ++ a.value) ++ tail, List.append_assoc ..,
      padding_spaces a.padded.2.1, c, ?_, first⟩
    simp only [same, List.mem_append, List.mem_cons, or_true, true_or]
  have found := search_cut blanks split a.key_some a.key_word assigns
  have whole : text.takeWhile isSpace ++ (a.assignment ++ tail) = text := by
    rw [← begins, List.takeWhile_append_dropWhile]
  rwa [whole] at found

/-- An argument that is read. -/
theorem search_read {text : List Char} (begins : text.dropWhile isSpace = a.assignment ++ tail)
    (ends : ∀ c cs, tail = c :: cs → isSpace c = true) (noAssign : ¬Assigns tail)
    (clear : ¬a.Swallows tail) :
    ∃ found, argsPattern.search text = some found ∧ found.suffix = tail ∧
      ∀ map, emplaceMatch map found = map.tryEmplace a.key a.value := by
  obtain ⟨x, y, found, cut, longer, search, t, u, rest, first, succeeds, captures, suffix⟩ :=
    a.search_assignment begins
  rcases a.longestCut_cases ends noAssign cut longer with ⟨-, rfl, rfl⟩ | ⟨swallows, -⟩
  · have rest : t.rest = a.beforeEquals ++ '=' :: (a.afterEquals ++ (a.value ++ tail)) := by
      rw [rest, back, List.append_assoc, List.cons_append, List.append_assoc]
    obtain ⟨u', succeeds', suffix', second⟩ := exec_assign rest (padding_spaces a.padded.2.1)
      (padding_spaces a.padded.2.2) a.value_some a.value_word ends
    obtain rfl := Option.some.inj (succeeds.symm.trans succeeds')
    refine ⟨found, search, suffix.trans suffix', fun map => ?_⟩
    rw [emplaceMatch, captures, second, first]
    rfl
  · exact absurd swallows clear

/-- An argument that is not: a key is read that has an `=`. -/
theorem search_misread {text : List Char} (begins : text.dropWhile isSpace = a.assignment ++ tail)
    (ends : ∀ c cs, tail = c :: cs → isSpace c = true) (noAssign : ¬Assigns tail)
    (swallows : a.Swallows tail) :
    ∃ found key, argsPattern.search text = some found ∧ '=' ∈ key ∧
      ∀ map, (emplaceMatch map found key).isSome = true := by
  obtain ⟨x, y, found, cut, longer, search, t, u, rest, first, succeeds, captures, -⟩ :=
    a.search_assignment begins
  rcases a.longestCut_cases ends noAssign cut longer with ⟨clear, -⟩ | ⟨-, mem⟩
  · exact absurd swallows clear
  · obtain ⟨u', v, succeeds', second⟩ := exec_assign_some (rest.symm ▸ cut.assigns)
    obtain rfl := Option.some.inj (succeeds.symm.trans succeeds')
    refine ⟨found, x, search, mem, fun map => ?_⟩
    rw [emplaceMatch, captures, second, first]
    exact tryEmplace_isSome map x v

end Argument

/-! ## All of them -/

section Loop

variable {args : List Argument} {trailing text : List Char} {fuel : Nat}

/-- Readable arguments are read one by one. White space before the first may be missing. -/
theorem readArgs_readable (blanks : Padding trailing) (isReadable : readable args = true)
    (begins : text.dropWhile isSpace = (argsText args trailing).dropWhile isSpace)
    (enough : text.length < fuel) (map : ArgsMap) :
    readArgs fuel map text =
      some (.ok (args.foldl (fun map a => map.tryEmplace a.key a.value) map)) := by
  induction args generalizing text fuel map with
  | nil =>
    obtain ⟨fuel, rfl⟩ := Nat.exists_eq_add_of_lt enough
    have nothing : text.dropWhile isSpace = [] :=
      begins.trans (List.dropWhile_eq_nil_iff.mpr (padding_spaces blanks))
    exact readArgs_none _ (search_blanks (List.dropWhile_eq_nil_iff.mp nothing))
  | cons a rest ih =>
    obtain ⟨clear, readable'⟩ := Bool.and_eq_true_iff.mp isReadable
    obtain ⟨fuel, rfl⟩ : ∃ n, fuel = n + 1 := ⟨fuel - 1, by omega⟩
    have own : ¬a.Swallows (argsText rest trailing) := by
      rw [a.swallows_iff blanks, clear]
      decide
    obtain ⟨found, search, suffix, emplaced⟩ := a.search_read
      (begins.trans (dropWhile_argsText a rest trailing)) (argsText_ends blanks rest)
      (argsText_not_assigns blanks rest) own
    have shorter := search_suffix_lt search
    rw [readArgs_some fuel search, emplaced, List.foldl_cons]
    refine ih readable' (by rw [suffix]) ?_ _
    omega

/-- Of others, some key is read that has an `=`. -/
theorem readArgs_misread (blanks : Padding trailing) (not_readable : readable args = false)
    (begins : text.dropWhile isSpace = (argsText args trailing).dropWhile isSpace)
    (enough : text.length < fuel) (map : ArgsMap) :
    ∃ map' key, readArgs fuel map text = some (.ok map') ∧ '=' ∈ key ∧
      (map' key).isSome = true := by
  induction args generalizing text fuel map with
  | nil => cases not_readable
  | cons a rest ih =>
    obtain ⟨fuel, rfl⟩ : ∃ n, fuel = n + 1 := ⟨fuel - 1, by omega⟩
    have begins := begins.trans (dropWhile_argsText a rest trailing)
    have ends := argsText_ends blanks rest
    have noAssign := argsText_not_assigns blanks rest
    by_cases swallows : a.Swallows (argsText rest trailing)
    · obtain ⟨found, key, search, mem, emplaced⟩ := a.search_misread begins ends noAssign swallows
      have shorter := search_suffix_lt search
      have enough' : found.suffix.length < fuel := by omega
      obtain ⟨map', read⟩ := readArgs_ends enough' (emplaceMatch map found)
      exact ⟨map', key, (readArgs_some fuel search).trans read, mem,
        readArgs_keeps read (emplaced map)⟩
    · obtain ⟨found, search, suffix, -⟩ := a.search_read begins ends noAssign swallows
      have shorter := search_suffix_lt search
      have clear : a.clear rest.isEmpty = true := by
        rw [← Bool.not_eq_false, ← a.swallows_iff blanks]
        exact swallows
      have unreadable : readable rest = false := by
        rwa [readable, clear, Bool.true_and] at not_readable
      have enough' : found.suffix.length < fuel := by omega
      obtain ⟨map', key, read, mem, bound⟩ := ih unreadable (by rw [suffix]) enough'
        (emplaceMatch map found)
      exact ⟨map', key, (readArgs_some fuel search).trans read, mem, bound⟩

end Loop

/-! ## The line -/

/-- The command and the text of the arguments, of a line of one line. -/
theorem splitCommand_append {cmd text : List Char} (named : cmd ≠ []) (word : Word cmd)
    (ends : ∀ c cs, text = c :: cs → isSpace c = true)
    (one : ∀ c ∈ text.dropWhile isSpace, dot c = true) :
    splitCommand (cmd ++ text) = (cmd, text.dropWhile isSpace) := by
  let found : Nat → Option (List Char) :=
    Function.update (Function.update (fun _ => none) 1 (some cmd)) 2 (some (text.dropWhile isSpace))
  let s₁ : State Char := ⟨0 + cmd.length, text, Function.update (fun _ => none) 1 (some cmd)⟩
  let s₂ := s₁.advance (text.takeWhile isSpace).length
  have rest₁ : s₁.rest = text.takeWhile isSpace ++ text.dropWhile isSpace :=
    List.takeWhile_append_dropWhile.symm
  have rest₂ : s₂.rest = text.dropWhile isSpace ++ [] := by
    rw [List.append_nil]
    exact advance_rest rest₁
  have last : exec (.group 2 (.star true (.one dot))) (exec .finish whole) s₂ = some found := by
    refine exec_greedy_most rest₂ one (fun c cs empty => by cases empty) ?_
    rw [capture_advance 2 rest₂]
    rfl
  have spaces : exec (.star true (.one isSpace))
      (exec (.group 2 (.star true (.one dot))) (exec .finish whole)) s₁ = some found := by
    refine exec_greedy_most rest₁ (fun c hc => List.mem_takeWhile_imp hc) (fun c cs rest => ?_) last
    exact dropWhile_stops rest
  have matched : cmdPattern.matchWhole (cmd ++ text) = some found := by
    refine exec_group_plus 1 (s := { rest := cmd ++ text }) rfl named word.notSpace
      (fun c cs rest => ?_) spaces
    rw [notSpace, ends c cs rest, Bool.not_true]
  rw [splitCommand, matched]
  rfl

theorem dot_of_word {c : Char} (word : isSpace c = false) : dot c = true := by
  rw [dot, Bool.and_eq_true, decide_eq_true_iff, decide_eq_true_iff]
  refine ⟨?_, ?_⟩
  · rintro rfl
    cases word
  · rintro rfl
    cases word

/-- There is no line terminator in the text of the arguments. -/
theorem argsText_one {trailing : List Char} (blanks : Padding trailing) (args : List Argument) :
    ∀ c ∈ argsText args trailing, dot c = true := by
  have dots : ∀ {s : List Char}, Padding s → ∀ c ∈ s, dot c = true := by
    intro s padding c hc
    rcases padding c hc with rfl | rfl
    · rfl
    · rfl
  induction args with
  | nil => exact dots blanks
  | cons a rest ih =>
    rw [argsText_cons, Argument.assignment, Argument.back]
    simp only [List.forall_mem_append, List.forall_mem_cons]
    exact ⟨dots a.padded.1, ⟨fun c hc => dot_of_word (a.key_word c hc), dots a.padded.2.1, rfl,
      dots a.padded.2.2, fun c hc => dot_of_word (a.value_word c hc)⟩, ih⟩

/-- No key of an argument has an `=`. -/
theorem firstValues_free (args : List Argument) {key : List Char} (mem : '=' ∈ key) :
    firstValues args key = none := by
  rw [firstValues, Option.map_eq_none_iff, List.find?_eq_none]
  rintro a - same
  rw [decide_eq_true_eq] at same
  exact a.key_free (same ▸ mem)

section Execute

variable {κ : Type} (answer : κ → ArgsMap → List Char) {m : Manager κ} {cmd : List Char} {k : κ}
  (registered : m.cmds cmd = some k) (named : cmd ≠ []) (word : Word cmd) {args : List Argument}
  {trailing : List Char} (blanks : Padding trailing) {fuel : Nat}

include named word blanks

theorem splitCommand_rendered : splitCommand (cmd ++ argsText args trailing) =
    (cmd, (argsText args trailing).dropWhile isSpace) :=
  splitCommand_append named word (argsText_ends blanks args)
    fun c hc => argsText_one blanks args c (List.dropWhile_sublist _ |>.subset hc)

include registered

/-- The handler is run once, with what the loop has read. -/
theorem execute_rendered {map : ArgsMap}
    (read : readArgs fuel (fun _ => none) ((argsText args trailing).dropWhile isSpace) =
      some (.ok map)) :
    m.execute answer fuel (cmd ++ argsText args trailing) =
      some (answer k map, { m with invoked := m.invoked ++ [(k, map)] }) := by
  rw [Manager.execute, splitCommand_rendered named word blanks]
  simp only [read, Option.map_some, registered]

variable (enough : ((argsText args trailing).dropWhile isSpace).length < fuel)

include enough

/-- Readable arguments are decoded. -/
theorem execute_readable (isReadable : readable args = true) :
    m.execute answer fuel (cmd ++ argsText args trailing) =
      some (answer k (firstValues args),
        { m with invoked := m.invoked ++ [(k, firstValues args)] }) := by
  refine execute_rendered answer registered named word blanks ?_
  rw [readArgs_readable blanks isReadable (List.dropWhile_idempotent ..) enough]
  refine congrArg (fun map => some (Except.ok map)) (funext fun key => ?_)
  rw [foldl_tryEmplace, Option.none_or, firstValues]

/-- Others are not: the handler is run with a key that has an `=`. -/
theorem execute_misread (not_readable : readable args = false) :
    m.execute answer fuel (cmd ++ argsText args trailing) ≠
      some (answer k (firstValues args),
        { m with invoked := m.invoked ++ [(k, firstValues args)] }) := by
  intro same
  obtain ⟨map, key, read, mem, bound⟩ :=
    readArgs_misread blanks not_readable (List.dropWhile_idempotent ..) enough fun _ => none
  have run := execute_rendered answer registered named word blanks read
  have calls := congrArg (fun r => r.2.invoked) (Option.some.inj (run.symm.trans same))
  obtain ⟨-, maps⟩ := Prod.ext_iff.mp (List.singleton_inj.mp (List.append_cancel_left calls))
  rw [show map = firstValues args from maps, firstValues_free args mem] at bound
  cases bound

end Execute

/-- **When a rendered command is decoded.** `execute` has a result, and it is to run the handler of
the command once, with the first value of each key, if and only if the arguments are readable. -/
theorem arguments_read_iff {κ : Type} (answer : κ → ArgsMap → List Char) {m : Manager κ}
    {cmd : List Char} {k : κ} (registered : m.cmds cmd = some k) (named : cmd ≠ [])
    (word : Word cmd) (args : List Argument) {trailing : List Char} (blanks : Padding trailing)
    {fuel : Nat} (enough : (cmd ++ argsText args trailing).length < fuel) :
    (∃ result, m.execute answer fuel (cmd ++ argsText args trailing) = some result) ∧
      (m.execute answer fuel (cmd ++ argsText args trailing) =
          some (answer k (firstValues args),
            { m with invoked := m.invoked ++ [(k, firstValues args)] }) ↔
        readable args = true) := by
  have enough' : ((argsText args trailing).dropWhile isSpace).length < fuel := by
    have shorter := (List.dropWhile_sublist isSpace (l := argsText args trailing)).length_le
    rw [List.length_append] at enough
    omega
  constructor
  · exact m.execute_ends answer (by rwa [splitCommand_rendered named word blanks])
  · constructor
    · intro decoded
      by_contra not_readable
      exact execute_misread answer registered named word blanks enough'
        (eq_false_of_ne_true not_readable) decoded
    · exact execute_readable answer registered named word blanks enough'

/-- `u = a=b`, or `u=a=b`. -/
def equalsArgument (blanks : List Char) (padding : Padding blanks) : Argument where
  key := ['u']
  value := ['a', '=', 'b']
  before := [' ']
  beforeEquals := blanks
  afterEquals := blanks
  key_some := List.cons_ne_nil _ _
  key_word := List.forall_mem_singleton.mpr rfl
  key_free := by decide
  value_some := List.cons_ne_nil _ _
  value_word := List.forall_mem_cons.mpr
    ⟨rfl, List.forall_mem_cons.mpr ⟨rfl, List.forall_mem_singleton.mpr rfl⟩⟩
  value_first := fun same => absurd (Option.some.inj same) (by decide)
  separated := List.cons_ne_nil _ _
  padded := ⟨List.forall_mem_singleton.mpr (.inl rfl), padding, padding⟩

/-- With blanks around its `=`, an argument is read whatever its value is. -/
theorem arguments_read_iff_spaced :
    let m := ({} : Manager Unit).add ['c'] ()
    let args := [equalsArgument [' '] (by simp [Padding])]
    (∃ result, m.execute (fun _ _ => []) 20 (['c'] ++ argsText args []) = some result) ∧
      (m.execute (fun _ _ => []) 20 (['c'] ++ argsText args []) =
          some ([], { m with invoked := m.invoked ++ [((), firstValues args)] }) ↔
        readable args = true) :=
  arguments_read_iff (fun _ _ => []) rfl (List.cons_ne_nil _ _) (by simp [Word, isSpace]) _
    (by simp [Padding]) (by decide)

/-- **A value with an `=` is not read**, where there are no blanks: the first group of the pattern
takes the `=` of the argument, and the key is `u=a`. -/
theorem equals_swallowed :
    ¬∀ (answer : Unit → ArgsMap → List Char) (m : Manager Unit) (cmd : List Char) (k : Unit)
        (args : List Argument) (trailing : List Char), m.cmds cmd = some k → cmd ≠ [] → Word cmd →
        Padding trailing → ∃ fuel, m.execute answer fuel (cmd ++ argsText args trailing) =
          some (answer k (firstValues args),
            { m with invoked := m.invoked ++ [(k, firstValues args)] }) := by
  intro decoded
  have padding : Padding [] := by simp [Padding]
  have word : Word ['c'] := by simp [Word, isSpace]
  obtain ⟨fuel, same⟩ := decoded (fun _ _ => []) (({} : Manager Unit).add ['c'] ()) ['c'] ()
    [equalsArgument [] padding] [] rfl (List.cons_ne_nil _ _) word padding
  refine execute_misread (fun _ _ => []) rfl (List.cons_ne_nil _ _) word padding ?_ ?_
    (Manager.execute_stable same 6)
  · show 5 < fuel + 6
    omega
  · rfl

end Bfc.Commands
