import Bfc.Configuration.Lines

/-!
# Files of keys and values

A file is rendered from keys and values, each pair on a line of its own, with spaces and tabs around
both and either kind of line end. `std::getline` yields the lines again, with the carriage returns
that were in front of the ends, so that loading such a file binds each key to the first of its
values whose line has no carriage return. That is its first value exactly if the condition of
`lines_parsed_iff` holds, and for every file that has no carriage return.
-/

namespace Bfc.Configuration

/-- Spaces and tabs. -/
def Padding (s : List Char) : Prop := ∀ c ∈ s, c = ' ' ∨ c = '\t'

/-- A key and a value, and how they are written. -/
structure Entry where
  key : List Char
  value : List Char
  beforeKey : List Char := []
  afterKey : List Char := []
  beforeValue : List Char := []
  afterValue : List Char := []
  crlf : Bool := false
  key_some : key ≠ []
  key_free : '=' ∉ key
  key_trimmed : trim key = key
  value_trimmed : trim value = value
  one_line : '\n' ∉ key ∧ '\n' ∉ value
  padded : Padding beforeKey ∧ Padding afterKey ∧ Padding beforeValue ∧ Padding afterValue

namespace Entry

/-- What is before the `=`. -/
def front (e : Entry) : List Char := e.beforeKey ++ (e.key ++ e.afterKey)

/-- What is after it, up to the line feed. -/
def back (e : Entry) : List Char :=
  e.beforeValue ++ (e.value ++ (e.afterValue ++ if e.crlf then ['\r'] else []))

def line (e : Entry) : List Char := e.front ++ '=' :: e.back

/-- The line with its end. -/
def render (e : Entry) : List Char := e.line ++ ['\n']

/-- The line has no carriage return. -/
def clean (e : Entry) : Bool := !e.line.contains '\r'

end Entry

/-- The first value of each key. -/
def firsts (entries : List Entry) : ArgsMap := fun key =>
  (entries.find? fun e => e.key = key).map Entry.value

/-! ## Lines of a file -/

theorem getlines_append {line : List Char} (one : '\n' ∉ line) (rest : List Char) :
    getlines (line ++ '\n' :: rest) = line :: getlines rest := by
  induction line with
  | nil => rw [List.nil_append, getlines, if_pos rfl]
  | cons c line ih =>
    rw [List.mem_cons, not_or] at one
    rw [List.cons_append, getlines, if_neg (Ne.symm one.1), ih one.2]

theorem Padding.blank {s : List Char} (h : Padding s) : ∀ c ∈ s, blank c = true := by
  intro c hc
  rcases h c hc with rfl | rfl
  · rfl
  · rfl

theorem Padding.free {s : List Char} (h : Padding s) {c : Char} (other : c ≠ ' ' ∧ c ≠ '\t') :
    c ∉ s := by
  intro hc
  rcases h c hc with same | same
  · exact other.1 same
  · exact other.2 same

namespace Entry

variable (e : Entry)

theorem trim_front : trim e.front = e.key := by
  rw [front, trim_blanks_append e.padded.1.blank, trim_append_blanks e.padded.2.1.blank,
    e.key_trimmed]

theorem trim_back : trim e.back = e.value := by
  have blanks : ∀ c ∈ e.afterValue ++ (if e.crlf then ['\r'] else []), blank c = true := by
    rw [List.forall_mem_append]
    refine ⟨e.padded.2.2.2.blank, fun c hc => ?_⟩
    split at hc
    · rw [List.mem_singleton.mp hc]
      rfl
    · cases hc
  rw [back, trim_blanks_append e.padded.2.2.1.blank, trim_append_blanks blanks, e.value_trimmed]

theorem front_free : '=' ∉ e.front := by
  simp only [front, List.mem_append, not_or]
  exact ⟨e.padded.1.free (by decide), e.key_free, e.padded.2.1.free (by decide)⟩

theorem line_one : '\n' ∉ e.line := by
  have feed : '\n' ≠ ' ' ∧ '\n' ≠ '\t' := by decide
  simp only [line, front, back, List.mem_append, List.mem_cons, not_or]
  refine ⟨⟨e.padded.1.free feed, e.one_line.1, e.padded.2.1.free feed⟩, by decide,
    e.padded.2.2.1.free feed, e.one_line.2, e.padded.2.2.2.free feed, ?_⟩
  split
  · decide
  · exact List.not_mem_nil

/-- The line of an entry should bind its key to its value. -/
theorem bindLine_line (m : ArgsMap) : bindLine m e.line = m.tryEmplace e.key e.value := by
  obtain ⟨c, a, front⟩ : ∃ c a, e.front = c :: a := by
    refine List.exists_cons_of_ne_nil fun empty => e.key_some ?_
    exact (List.append_eq_nil_iff.mp (List.append_eq_nil_iff.mp empty).2).1
  have free : '=' ∉ a := fun mem => e.front_free (front ▸ List.mem_cons_of_mem c mem)
  rw [bindLine, line, front, List.cons_append, firstEquals_cons c free]
  show m.tryEmplace (trim ((c :: a ++ '=' :: e.back).take (c :: a).length))
    (trim ((c :: a ++ '=' :: e.back).drop ((c :: a).length + 1))) = _
  rw [List.take_left, List.drop_length_add_append, List.drop_succ_cons, List.drop_zero, ← front,
    e.trim_front, e.trim_back]

/-- It does so if there is no carriage return in it, and else it does nothing. -/
theorem loadLine_line (m : ArgsMap) :
    loadLine m e.line = if e.clean then m.tryEmplace e.key e.value else m := by
  cases clean : e.clean with
  | true =>
    rw [Entry.clean, Bool.not_eq_true', List.contains_eq_mem, decide_eq_false_iff_not] at clean
    rw [if_pos rfl, (loadLine_iff m e.line_one).mpr (.inl clean), e.bindLine_line]
  | false =>
    rw [Entry.clean, Bool.not_eq_false', List.contains_eq_mem, decide_eq_true_eq] at clean
    rw [if_neg Bool.false_ne_true, loadLine_terminator m clean rfl]

end Entry

/-! ## Files -/

/-- The lines of a rendered file are those of its entries. -/
theorem getlines_render (entries : List Entry) :
    getlines (entries.flatMap Entry.render) = entries.map Entry.line := by
  induction entries with
  | nil => rfl
  | cons e entries ih =>
    rw [List.flatMap_cons, Entry.render, List.append_assoc, List.singleton_append,
      getlines_append e.line_one, ih, List.map_cons]

/-- Additions to a map bind each key to the first of its values, unless it is bound. -/
theorem foldl_tryEmplace {ι : Type} (key value : ι → List Char) (xs : List ι) (m : ArgsMap)
    (k : List Char) :
    xs.foldl (fun m x => m.tryEmplace (key x) (value x)) m k =
      (m k).or ((xs.find? fun x => key x = k).map value) := by
  induction xs generalizing m with
  | nil => exact (Option.or_none ..).symm
  | cons x xs ih =>
    rw [List.foldl_cons, ih, List.find?_cons]
    by_cases own : key x = k
    · subst own
      rw [decide_eq_true rfl]
      cases bound : m (key x) with
      | none =>
        rw [ArgsMap.tryEmplace, bound, Option.isSome_none, if_neg Bool.false_ne_true,
          Function.update_self, Option.some_or, Option.none_or, Option.map_some]
      | some already =>
        have kept := tryEmplace_of_bound (Option.isSome_of_eq_some bound) (value x)
        rw [kept, bound, Option.some_or, Option.some_or]
    · have other : m.tryEmplace (key x) (value x) k = m k := by
        unfold ArgsMap.tryEmplace
        split
        · rfl
        · exact Function.update_of_ne (Ne.symm own) _ _
      rw [other, decide_eq_false own]

/-- **A rendered file binds each key to the first of its values whose line has no carriage
return.** -/
theorem load_render (entries : List Entry) :
    load (fun _ => none) (some (entries.flatMap Entry.render)) =
      (firsts (entries.filter Entry.clean), true) := by
  have lines : ∀ m : ArgsMap, (entries.map Entry.line).foldl loadLine m =
      (entries.filter Entry.clean).foldl (fun m e => m.tryEmplace e.key e.value) m := by
    intro m
    rw [List.foldl_map, List.foldl_filter]
    simp only [Entry.loadLine_line]
  rw [load, getlines_render, lines]
  refine congrArg (fun m => (m, true)) (funext fun key => ?_)
  rw [foldl_tryEmplace, Option.none_or, firsts]

/-- **When lines and files are parsed as they should be.** A line without line feeds does to any map
what it should if and only if it has no carriage return, or has no `=` after its first character, or
its key is bound already. A file rendered from keys and values yields the first value of each key if
and only if the first value of each key is also the first of its values whose line has no carriage
return. -/
theorem lines_parsed_iff (m : ArgsMap) {line : List Char} (one : '\n' ∉ line)
    (entries : List Entry) :
    (loadLine m line = bindLine m line ↔
      '\r' ∉ line ∨ firstEquals line = none ∨
        ∃ p, firstEquals line = some p ∧ (m (trim (line.take p))).isSome = true) ∧
    (load (fun _ => none) (some (entries.flatMap Entry.render)) = (firsts entries, true) ↔
      ∀ key, firsts entries key = firsts (entries.filter Entry.clean) key) := by
  refine ⟨loadLine_iff m one, ?_⟩
  rw [load_render]
  constructor
  · intro same key
    exact congrFun (congrArg Prod.fst same).symm key
  · intro same
    exact congrArg (fun m => (m, true)) (funext fun key => (same key).symm)

/-- `k = v`. -/
def plainEntry : Entry where
  key := ['k']
  value := ['v']
  afterKey := [' ']
  beforeValue := [' ']
  key_some := List.cons_ne_nil _ _
  key_free := by decide
  key_trimmed := rfl
  value_trimmed := rfl
  one_line := by decide
  padded := by simp [Padding]

/-- A line as it is in a file with line feeds alone, and a file of it. -/
theorem lines_parsed_iff_plain :
    (loadLine (fun _ => none) plainEntry.line = bindLine (fun _ => none) plainEntry.line ↔
      '\r' ∉ plainEntry.line ∨ firstEquals plainEntry.line = none ∨
        ∃ p, firstEquals plainEntry.line = some p ∧
          ((fun _ => none : ArgsMap) (trim (plainEntry.line.take p))).isSome = true) ∧
    (load (fun _ => none) (some ([plainEntry].flatMap Entry.render)) =
        (firsts [plainEntry], true) ↔
      ∀ key, firsts [plainEntry] key = firsts ([plainEntry].filter Entry.clean) key) :=
  lines_parsed_iff (fun _ => none) (by decide) [plainEntry]

/-- **A line of a file with carriage returns is not parsed.** The line end that `std::getline` has
left is the last character, and the value is lost with it. -/
theorem carriage_return_unmatched :
    ¬∀ (m : ArgsMap) (line : List Char), '\n' ∉ line → loadLine m line = bindLine m line := by
  intro parsed
  have same := parsed (fun _ => none) ['k', '=', 'v', '\r'] (by decide)
  have terminator : '\r' ∈ ['k', '=', 'v', '\r'] := by decide
  rw [loadLine_terminator _ terminator rfl] at same
  have bound : bindLine (fun _ => none) ['k', '=', 'v', '\r'] ['k'] = some ['v'] := rfl
  rw [← same] at bound
  cases bound

end Bfc.Configuration
