import Bfc.Configuration.Parser

/-!
# Which lines are parsed

The first group of the pattern is lazy, so that a match takes the first `=` that has a character
before it; what is between the group and that `=` is spaces, and `trim` would have taken them. The
last group has to reach the end of the line, and it cannot: a carriage return is a line terminator,
which `.` does not match. So `load_line` does what it should on lines without one, and on no line
that has one, though `trim` would have taken it too.
-/

namespace Bfc.Configuration

open Backtracking

/-! ## The parts of the pattern -/

/-- `(.*?)$`. -/
def valueFmt : Regex Char := .seq (.group 2 (.star false (.one dot))) .finish

/-- `[ ]*=[ ]*(.*?)$`. -/
def restFmt : Regex Char :=
  .seq (.star true (.one space)) (.seq (.one (· = '=')) (.seq (.star true (.one space)) valueFmt))

variable {t : State Char}

/-- The last group has what is left. -/
theorem exec_valueFmt (dots : ∀ c ∈ t.rest, dot c = true) :
    exec valueFmt whole t = some (Function.update t.captures 2 (some t.rest)) := by
  show exec (.star false (.one dot)) (fun u => exec .finish whole (t.capture 2 u)) t = _
  rw [exec_lazy_skip (List.append_nil _).symm dots]
  · apply exec_lazy_least
    simp only [exec, State.capture, State.advance, List.drop_length, if_true, whole,
      List.isEmpty_nil, Nat.add_sub_cancel_left, List.take_length]
  · intro n hn
    have nonempty : t.rest.drop n ≠ [] := by
      rw [Ne, List.drop_eq_nil_iff]
      omega
    exact if_neg nonempty

/-- The spaces before it are skipped. -/
theorem exec_spaces_valueFmt (dots : ∀ c ∈ t.rest, dot c = true) :
    exec (.seq (.star true (.one space)) valueFmt) whole t =
      some (Function.update t.captures 2 (some (t.rest.dropWhile space))) := by
  have split : t.rest = t.rest.takeWhile space ++ t.rest.dropWhile space :=
    List.takeWhile_append_dropWhile.symm
  have left := advance_rest split
  refine exec_greedy_most split (fun c hc => List.mem_takeWhile_imp hc) (fun c cs first => ?_) ?_
  · have begins : t.rest.dropWhile space ≠ [] := by rw [first]; exact List.cons_ne_nil c cs
    have head := List.head_dropWhile_not space begins
    simpa only [first, List.head_cons] using head
  · rw [exec_valueFmt, left]
    · rfl
    · rw [left]
      exact fun c hc => dots c ((List.dropWhile_sublist space).subset hc)

/-- After the first group, the next character that is no space is a `=`. -/
theorem exec_restFmt {spaces u : List Char} (rest : t.rest = spaces ++ '=' :: u)
    (all : ∀ c ∈ spaces, space c = true) (dots : ∀ c ∈ u, dot c = true) :
    exec restFmt whole t = some (Function.update t.captures 2 (some (u.dropWhile space))) := by
  have left := advance_rest rest
  refine exec_greedy_most rest all (fun c cs first => ?_) ?_
  · obtain ⟨rfl, -⟩ := List.cons.inj first
    rfl
  · have next : ((t.advance spaces.length).advance 1).rest = u := advance_rest (a := ['=']) left
    show exec (.one (· = '=')) (exec (.seq (.star true (.one space)) valueFmt) whole) _ = _
    rw [exec_one left rfl, exec_spaces_valueFmt (next.symm ▸ dots), next]
    rfl

/-- Where it is not, there is no match. -/
theorem exec_restFmt_fails (other : ∀ n u, (∀ c ∈ t.rest.take n, space c = true) →
    t.rest.drop n ≠ '=' :: u) : exec restFmt whole t = none := by
  refine exec_star_fails fun n spaces => exec_one_fails fun c cs rest => ?_
  rw [decide_eq_false_iff_not]
  rintro rfl
  exact other n cs spaces rest

/-- What the first group's repetition is followed by, in a match from `s` on. -/
def afterKey (s t : State Char) : Option (Nat → Option (List Char)) :=
  exec restFmt whole (s.capture 1 t)

/-- The pattern after its anchor, with the first character of the first group. -/
theorem matchWhole_cons {c : Char} (first : dot c = true) (line : List Char) :
    configFmt.matchWhole (c :: line) =
      exec (.star false (.one dot)) (afterKey { rest := c :: line })
        (State.advance { rest := c :: line } 1) := by
  have anchored : configFmt.matchWhole (c :: line) =
      exec (.one dot) (exec (.star false (.one dot)) (afterKey { rest := c :: line }))
        { rest := c :: line } := by
    show exec .start _ _ = _
    rw [exec_start rfl]
    rfl
  rw [anchored, exec_one rfl first]

/-! ## The match of a line -/

/-- A line with a line terminator is not matched. -/
theorem matchWhole_terminator {line : List Char} {c : Char} (mem : c ∈ line)
    (terminator : dot c = false) : configFmt.matchWhole line = none := by
  have within : configFmt.Within fun c => dot c = true := by
    have spaces : ∀ c, space c = true → dot c = true := by
      intro c hc
      rw [of_decide_eq_true hc]
      rfl
    have equals : ∀ c, decide (c = '=') = true → dot c = true := by
      intro c hc
      rw [of_decide_eq_true hc]
      rfl
    exact ⟨trivial, ⟨fun _ => id, fun _ => id⟩, spaces, equals, spaces, fun _ => id, trivial⟩
  cases found : configFmt.matchWhole line with
  | none => rfl
  | some captures =>
    have all := Regex.matchWhole_within within found c mem
    rw [terminator] at all
    cases all

/-- A line that has no `=` after its first character is not matched. -/
theorem matchWhole_without {line : List Char} (without : '=' ∉ line.drop 1) :
    configFmt.matchWhole line = none := by
  cases line with
  | nil => rfl
  | cons c line =>
    cases first : dot c with
    | false => exact matchWhole_terminator List.mem_cons_self first
    | true =>
      rw [matchWhole_cons first]
      refine exec_star_fails fun n _ => exec_restFmt_fails fun m u _ found => without ?_
      have later : '=' ∈ '=' :: u := List.mem_cons_self
      rw [← found] at later
      exact List.mem_of_mem_drop (List.mem_of_mem_drop later)

/-- **The match of a line without terminators**: the first group ends before the spaces that are
before the first `=`, and the second begins after those that are after it. -/
theorem matchWhole_first {c : Char} {a spaces u : List Char}
    (dots : ∀ d ∈ c :: (a ++ (spaces ++ '=' :: u)), dot d = true) (fresh : '=' ∉ a)
    (last : ∀ h : a ≠ [], space (a.getLast h) = false) (all : ∀ d ∈ spaces, space d = true) :
    ∃ captures, configFmt.matchWhole (c :: (a ++ (spaces ++ '=' :: u))) = some captures ∧
      captures 1 = some (c :: a) ∧ captures 2 = some (u.dropWhile space) := by
  obtain ⟨first, dots⟩ := List.forall_mem_cons.mp dots
  rw [List.forall_mem_append, List.forall_mem_append, List.forall_mem_cons] at dots
  obtain ⟨key, -, -, value⟩ := dots
  let s : State Char := { rest := c :: (a ++ (spaces ++ '=' :: u)) }
  have begun : (s.advance 1).rest = a ++ (spaces ++ '=' :: u) := rfl
  -- a shorter first group is followed by a character that is neither a space nor a `=`
  have fails : ∀ n < a.length, afterKey s ((s.advance 1).advance n) = none := by
    intro n hn
    refine exec_restFmt_fails fun m w taken found => ?_
    have rest : (s.capture 1 ((s.advance 1).advance n)).rest =
        a.drop n ++ (spaces ++ '=' :: u) := List.drop_append_of_le_length (Nat.le_of_lt hn)
    rw [rest] at taken found
    by_cases short : m < (a.drop n).length
    · rw [List.drop_append_of_le_length (Nat.le_of_lt short),
        List.drop_eq_getElem_cons short] at found
      obtain ⟨equals, -⟩ := List.cons.inj found
      exact fresh (equals ▸ List.mem_of_mem_drop (List.getElem_mem short))
    · have nonempty : a ≠ [] := List.ne_nil_of_length_pos (Nat.lt_of_le_of_lt (Nat.zero_le n) hn)
      have left : a.drop n ≠ [] := by
        rw [Ne, List.drop_eq_nil_iff]
        omega
      have mem : a.getLast nonempty ∈ (a.drop n ++ (spaces ++ '=' :: u)).take m := by
        rw [List.take_append, List.take_of_length_le (Nat.le_of_not_lt short),
          ← List.getLast_drop left]
        exact List.mem_append_left _ (List.getLast_mem left)
      have isBlank := taken _ mem
      rw [last nonempty] at isBlank
      cases isBlank
  have left : (s.capture 1 ((s.advance 1).advance a.length)).rest = spaces ++ '=' :: u :=
    advance_rest begun
  have succeeds : afterKey s ((s.advance 1).advance a.length) = some _ :=
    exec_restFmt left all value
  have matched := matchWhole_cons first (a ++ (spaces ++ '=' :: u))
  rw [exec_lazy_skip begun key fails, exec_lazy_least succeeds] at matched
  refine ⟨_, matched, ?_, Function.update_self ..⟩
  have group := capture_advance_cons (s := s) 1 (c := c) (congrArg (c :: ·) begun)
  rw [Function.update_of_ne (by decide), group]
  show Function.update s.captures 1 (some (c :: a)) 1 = _
  rw [Function.update_self]

/-! ## Lines -/

/-- The first `=` that has a character before it. -/
def firstEquals (line : List Char) : Option Nat := ((line.drop 1).findIdx? (· = '=')).map (· + 1)

/-- What a line should do to the map: the key before that `=` is bound to the value after it, unless
it is bound. -/
def bindLine (m : ArgsMap) (line : List Char) : ArgsMap :=
  match firstEquals line with
  | some p => m.tryEmplace (trim (line.take p)) (trim (line.drop (p + 1)))
  | none => m

theorem firstEquals_cons (c : Char) {a : List Char} (free : '=' ∉ a) (u : List Char) :
    firstEquals (c :: (a ++ '=' :: u)) = some (c :: a).length := by
  have notFound : a.findIdx? (· = '=') = none := by
    rw [List.findIdx?_eq_none_iff]
    intro d hd
    rw [decide_eq_false_iff_not]
    rintro rfl
    exact free hd
  rw [firstEquals, List.drop_succ_cons, List.drop_zero, List.findIdx?_append, notFound,
    Option.none_or, List.findIdx?_cons, decide_eq_true rfl, if_pos rfl, Option.map_some,
    Option.map_some, List.length_cons, Nat.zero_add]

/-- The line around its first `=`, if it has one. -/
theorem firstEquals_cases (line : List Char) :
    firstEquals line = none ∧ '=' ∉ line.drop 1 ∨
      ∃ c a u, line = c :: (a ++ '=' :: u) ∧ '=' ∉ a ∧ firstEquals line = some (c :: a).length := by
  by_cases mem : '=' ∈ line.drop 1
  · obtain ⟨a, u, split, free⟩ := List.eq_append_cons_of_mem mem
    cases line with
    | nil => cases mem
    | cons c line =>
      obtain rfl : line = a ++ '=' :: u := split
      exact .inr ⟨c, a, u, rfl, free, firstEquals_cons c free u⟩
  · refine .inl ⟨?_, mem⟩
    rw [firstEquals, Option.map_eq_none_iff, List.findIdx?_eq_none_iff]
    intro d hd
    rw [decide_eq_false_iff_not]
    rintro rfl
    exact mem hd

/-- A line without terminators does what it should. -/
theorem loadLine_eq (m : ArgsMap) {line : List Char} (dots : ∀ c ∈ line, dot c = true) :
    loadLine m line = bindLine m line := by
  rcases firstEquals_cases line with ⟨first, without⟩ | ⟨c, a, u, rfl, free, first⟩
  · rw [loadLine, bindLine, matchWhole_without without, first]
  · have spaces_blank : ∀ d, space d = true → blank d = true := by
      intro d hd
      rw [of_decide_eq_true hd]
      rfl
    -- the spaces before the `=` are not in the first group
    have split : a.rdropWhile space ++ a.rtakeWhile space = a := List.rdropWhile_append_rtakeWhile
    have after : ∀ d ∈ a.rtakeWhile space, space d = true := fun d hd => List.mem_rtakeWhile_imp hd
    have last : ∀ h : a.rdropWhile space ≠ [], space ((a.rdropWhile space).getLast h) = false := by
      intro h
      simpa only [Bool.not_eq_true] using List.rdropWhile_last_not space a h
    have fresh : '=' ∉ a.rdropWhile space :=
      fun mem => free (split ▸ List.mem_append_left _ mem)
    have wholeLine : c :: (a ++ '=' :: u) =
        c :: (a.rdropWhile space ++ (a.rtakeWhile space ++ '=' :: u)) := by
      rw [← List.append_assoc, split]
    obtain ⟨captures, matched, one, two⟩ := matchWhole_first (wholeLine ▸ dots) fresh last after
    have key : trim (c :: a.rdropWhile space) = trim (c :: a) := by
      have behind := trim_append_blanks (fun d hd => spaces_blank d (after d hd))
        (c :: a.rdropWhile space)
      rw [List.cons_append, split] at behind
      exact behind.symm
    have value : trim (u.dropWhile space) = trim u := by
      have front := trim_blanks_append (a := u.takeWhile space)
        (fun d hd => spaces_blank d (List.mem_takeWhile_imp hd)) (u.dropWhile space)
      rw [List.takeWhile_append_dropWhile] at front
      exact front.symm
    have found : loadLine m (c :: (a ++ '=' :: u)) = m.tryEmplace (trim (c :: a)) (trim u) := by
      rw [loadLine, wholeLine, matched]
      show m.tryEmplace (trim ((captures 1).getD [])) (trim ((captures 2).getD [])) = _
      rw [one, two, Option.getD_some, Option.getD_some, key, value]
    have wanted : bindLine m (c :: (a ++ '=' :: u)) = m.tryEmplace (trim (c :: a)) (trim u) := by
      rw [bindLine, first]
      show m.tryEmplace (trim ((c :: a ++ '=' :: u).take (c :: a).length))
        (trim ((c :: a ++ '=' :: u).drop ((c :: a).length + 1))) = _
      rw [List.take_left, List.drop_length_add_append, List.drop_succ_cons, List.drop_zero]
    rw [found, wanted]

/-- A line with a terminator does nothing. -/
theorem loadLine_terminator (m : ArgsMap) {line : List Char} {c : Char} (mem : c ∈ line)
    (terminator : dot c = false) : loadLine m line = m := by
  rw [loadLine, matchWhole_terminator mem terminator]

theorem tryEmplace_of_bound {m : ArgsMap} {key : List Char} (bound : (m key).isSome = true)
    (value : List Char) : m.tryEmplace key value = m := if_pos bound

/-- **When a line does what it should**: it has no carriage return, or there is nothing to do. -/
theorem loadLine_iff (m : ArgsMap) {line : List Char} (one : '\n' ∉ line) :
    loadLine m line = bindLine m line ↔
      '\r' ∉ line ∨ firstEquals line = none ∨
        ∃ p, firstEquals line = some p ∧ (m (trim (line.take p))).isSome = true := by
  by_cases clean : '\r' ∈ line
  · rw [loadLine_terminator m clean rfl, or_iff_right (not_not_intro clean), bindLine]
    cases first : firstEquals line with
    | none => exact iff_of_true rfl (.inl rfl)
    | some p =>
      cases bound : m (trim (line.take p)) with
      | some value =>
        refine iff_of_true ?_ (.inr ⟨p, rfl, by rw [bound]; rfl⟩)
        exact (tryEmplace_of_bound (by rw [bound]; rfl) _).symm
      | none =>
        refine iff_of_false (fun same => ?_) ?_
        · have here := congrFun same (trim (line.take p))
          simp [ArgsMap.tryEmplace, bound] at here
        · rintro (h | ⟨p', hp', h⟩)
          · cases h
          · obtain rfl := Option.some.inj hp'
            rw [bound] at h
            cases h
  · refine iff_of_true (loadLine_eq m fun c hc => ?_) (.inl clean)
    rw [dot, Bool.and_eq_true, decide_eq_true_eq, decide_eq_true_eq]
    constructor
    · rintro rfl
      exact one hc
    · rintro rfl
      exact clean hc

end Bfc.Configuration
