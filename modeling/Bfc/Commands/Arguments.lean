import Bfc.Commands.Manager
import Bfc.Configuration.Files

/-!
# Which arguments are read

A search for an argument begins at the first character that is no white space. Its first group is
greedy, and ends where the longest run of other characters ends after which there is still an `=`
with something to assign. Where there is a blank on either side of its `=`, that is after the key of
an argument. An argument without these is one run, and if its value has an `=` with something after
it, be it of the next argument, then the group ends there and the key that is read has an `=` in it.
-/

namespace Bfc.Commands

open Backtracking Bfc.Configuration

/-! ## The parts of the pattern -/

/-- What `assignPattern` matches the beginning of: white space, an `=`, and some word after it. -/
def Assigns (text : List Char) : Prop :=
  ∃ spaces u, text = spaces ++ '=' :: u ∧ (∀ c ∈ spaces, isSpace c = true) ∧
    ∃ c ∈ u, isSpace c = false

/-- A run of characters that are not white space. -/
def Word (s : List Char) : Prop := ∀ c ∈ s, isSpace c = false

theorem notSpace_eq {c : Char} : notSpace c = true ↔ isSpace c = false := by
  rw [notSpace, Bool.not_eq_true']

theorem Word.notSpace {s : List Char} (h : Word s) : ∀ c ∈ s, notSpace c = true :=
  fun c hc => notSpace_eq.mpr (h c hc)

/-- A word does not begin with a space. -/
theorem Word.first {c : Char} {s : List Char} (h : Word (c :: s)) : ¬isSpace c = true := by
  rw [h c List.mem_cons_self]
  exact Bool.false_ne_true

/-- What is left of a text begins with a character that was not to be dropped. -/
theorem dropWhile_stops {p : Char → Bool} {s : List Char} {c : Char} {cs : List Char}
    (rest : s.dropWhile p = c :: cs) : p c = false := by
  have stops := List.head_dropWhile_not p (rest ▸ List.cons_ne_nil c cs)
  simpa only [rest, List.head_cons] using stops

/-- White space before a text is nothing to an assignment. -/
theorem assigns_blanks {lead : List Char} (blanks : ∀ c ∈ lead, isSpace c = true) (u : List Char) :
    Assigns (lead ++ u) ↔ Assigns u := by
  constructor
  · rintro ⟨spaces, w, text, all, word⟩
    rcases List.append_eq_append_iff.mp text with ⟨spaces', rfl, rest⟩ | ⟨lead', rfl, rest⟩
    · exact ⟨spaces', w, rest, fun c hc => all c (List.mem_append_right _ hc), word⟩
    · cases lead' with
      | nil => exact ⟨[], w, rest.symm, fun c hc => (by cases hc), word⟩
      | cons c lead' =>
        obtain ⟨rfl, -⟩ := List.cons.inj rest
        have space := blanks '=' (List.mem_append_right _ List.mem_cons_self)
        cases space
  · rintro ⟨spaces, w, rfl, all, word⟩
    exact ⟨lead ++ spaces, w, (List.append_assoc ..).symm, List.forall_mem_append.mpr ⟨blanks, all⟩,
      word⟩

/-- A text that begins with a word is an assignment only if the word begins with the `=`. -/
theorem assigns_cons {c : Char} (word : isSpace c = false) (u : List Char) :
    Assigns (c :: u) ↔ c = '=' ∧ ∃ d ∈ u, isSpace d = false := by
  constructor
  · rintro ⟨_ | ⟨e, spaces⟩, w, text, all, word'⟩
    · obtain ⟨rfl, rfl⟩ := List.cons.inj text
      exact ⟨rfl, word'⟩
    · obtain ⟨rfl, -⟩ := List.cons.inj text
      rw [all c List.mem_cons_self] at word
      cases word
  · rintro ⟨rfl, word'⟩
    exact ⟨[], u, rfl, fun c hc => (by cases hc), word'⟩

variable {t : State Char}

/-- The white space, the `=`, and the word that ends where white space follows it. -/
theorem exec_assign {spaces spaces' v tail : List Char}
    (rest : t.rest = spaces ++ '=' :: (spaces' ++ (v ++ tail)))
    (all : ∀ c ∈ spaces, isSpace c = true) (all' : ∀ c ∈ spaces', isSpace c = true)
    (nonempty : v ≠ []) (word : Word v) (ends : ∀ c cs, tail = c :: cs → isSpace c = true) :
    ∃ u, exec assignPattern some t = some u ∧ u.rest = tail ∧
      u.captures = Function.update t.captures 2 (some v) := by
  -- where the `=` is, where the text after it is, and where the word is
  let s₁ := t.advance spaces.length
  let s₂ := s₁.advance 1
  let s₃ := s₂.advance spaces'.length
  have rest₁ : s₁.rest = '=' :: (spaces' ++ (v ++ tail)) := advance_rest rest
  have rest₂ : s₂.rest = spaces' ++ (v ++ tail) := advance_rest (a := ['=']) rest₁
  have taken := exec_group_plus (k := some) 2 (s := s₃) (advance_rest rest₂) nonempty word.notSpace
    (fun c cs hc => by rw [Commands.notSpace, ends c cs hc, Bool.not_true]) rfl
  refine ⟨⟨s₃.position + v.length, tail, Function.update t.captures 2 (some v)⟩,
    exec_greedy_most rest all (fun c cs hc => ?_) ?_, rfl, rfl⟩
  · obtain ⟨rfl, -⟩ := List.cons.inj hc
    rfl
  · show exec (.one (· = '=')) (exec (.seq (.star true (.one isSpace))
      (.group 2 (.plus true (.one notSpace)))) some) s₁ = _
    rw [exec_one rest₁ rfl]
    refine exec_greedy_most rest₂ all' (fun c cs hc => ?_) taken
    obtain ⟨d, v, rfl⟩ := List.exists_cons_of_ne_nil nonempty
    obtain ⟨rfl, -⟩ := List.cons.inj hc
    exact word d List.mem_cons_self

/-- Where there is an assignment, there is a match, and it fills the second group. -/
theorem exec_assign_some (assigns : Assigns t.rest) :
    ∃ u v, exec assignPattern some t = some u ∧
      u.captures = Function.update t.captures 2 (some v) := by
  obtain ⟨spaces, u, rest, all, c, hc, word⟩ := assigns
  have nonempty : u.dropWhile isSpace ≠ [] := by
    rw [Ne, List.dropWhile_eq_nil_iff]
    intro blank
    rw [blank c hc] at word
    cases word
  rw [← List.takeWhile_append_dropWhile (p := isSpace) (l := u),
    ← List.takeWhile_append_dropWhile (p := notSpace) (l := u.dropWhile isSpace)] at rest
  have nonempty : (u.dropWhile isSpace).takeWhile notSpace ≠ [] := by
    obtain ⟨d, ds, rest'⟩ := List.exists_cons_of_ne_nil nonempty
    rw [rest', List.takeWhile_cons, if_pos (notSpace_eq.mpr (dropWhile_stops rest'))]
    exact List.cons_ne_nil d _
  have ends : ∀ d ds, (u.dropWhile isSpace).dropWhile notSpace = d :: ds → isSpace d = true := by
    intro d ds tail
    have stops := dropWhile_stops tail
    rwa [notSpace, Bool.not_eq_false'] at stops
  obtain ⟨w, succeeds, -, captures⟩ := exec_assign rest all (fun c hc => List.mem_takeWhile_imp hc)
    nonempty (fun c hc => notSpace_eq.mp (List.mem_takeWhile_imp hc)) ends
  exact ⟨w, _, succeeds, captures⟩

/-- Where there is none, there is no match. -/
theorem exec_assign_eq_none : exec assignPattern some t = none ↔ ¬Assigns t.rest := by
  refine ⟨fun fails assigns => ?_, fun noAssign => ?_⟩
  · obtain ⟨u, v, succeeds, -⟩ := exec_assign_some assigns
    rw [succeeds] at fails
    cases fails
  show exec (.star true (.one isSpace)) _ t = none
  rw [exec_star_eq_none]
  intro spaces b rest all
  have left := advance_rest rest
  by_cases equals : ∃ u, b = '=' :: u
  · obtain ⟨u, rfl⟩ := equals
    show exec (.one (· = '=')) _ _ = none
    rw [exec_one left rfl]
    show exec (.star true (.one isSpace)) _ _ = none
    rw [exec_star_eq_none]
    intro spaces' b' rest' _
    have next : ((t.advance spaces.length).advance 1).rest = u := advance_rest (a := ['=']) left
    refine exec_plus_fails fun c cs after => ?_
    rw [advance_rest rest'] at after
    rw [next] at rest'
    rw [notSpace, Bool.not_eq_false']
    by_contra word
    rw [Bool.not_eq_true] at word
    refine noAssign ⟨spaces, u, rest, all, c, ?_, word⟩
    rw [rest', after]
    exact List.mem_append_right _ List.mem_cons_self
  · refine exec_one_fails fun c cs after => decide_eq_false fun same => equals ⟨cs, ?_⟩
    rw [← left, after, same]

/-! ## The first group -/

/-- Where a text is cut by the first group: it is the longest word with an assignment after it. -/
structure LongestCut (text a b : List Char) : Prop where
  split : text = a ++ b
  word : Word a
  assigns : Assigns b
  longest : ∀ a' b', text = a' ++ b' → a.length < a'.length → Word a' → ¬Assigns b'

/-- A match where a text is cut: the first group has what is before, and the rest of the pattern
matches what is after. -/
def CutMatch (a b : List Char) (found : Match Char) : Prop :=
  ∃ t u : State Char, t.rest = b ∧ t.captures = Function.update (fun _ => none) 1 (some a) ∧
    exec assignPattern some t = some u ∧ found.captures = u.captures ∧ found.suffix = u.rest

/-- White space is passed over. -/
theorem exec_args_fails {s : State Char} (other : ∀ c cs, s.rest = c :: cs → isSpace c = true) :
    exec argsPattern some s = none := by
  show exec (.plus true (.one notSpace)) (fun t => exec assignPattern some (s.capture 1 t)) s = none
  refine exec_plus_fails fun c cs rest => ?_
  rw [notSpace, other c cs rest, Bool.not_true]

/-- Where there is nothing else, nothing is found. -/
theorem search_blanks {text : List Char} (blanks : ∀ c ∈ text, isSpace c = true) :
    argsPattern.search text = none := by
  have skip : ∀ c ∈ text, ∀ n cs,
      exec argsPattern some { position := n, rest := c :: cs } = none := by
    intro c hc n cs
    refine exec_args_fails fun d ds rest => ?_
    obtain ⟨rfl, -⟩ := List.cons.inj rest
    exact blanks c hc
  have finished : exec argsPattern some { position := 0 + text.length, rest := [] } = none :=
    exec_args_fails fun c cs rest => by cases rest
  rw [← List.append_nil text, Regex.search, searchFrom_skip skip, Regex.searchFrom, finished]

/-- Where the text can be cut, the pattern matches with the longest cut. -/
theorem exec_args {s : State Char} {a₀ b₀ : List Char} (split : s.rest = a₀ ++ b₀)
    (nonempty : a₀ ≠ []) (word : Word a₀) (assigns : Assigns b₀) :
    ∃ a b u, LongestCut s.rest a b ∧ a₀.length ≤ a.length ∧
      exec assignPattern some ⟨s.position + a.length, b, Function.update s.captures 1 (some a)⟩ =
        some u ∧ exec argsPattern some s = some u := by
  obtain ⟨c, a₀, rfl⟩ := List.exists_cons_of_ne_nil nonempty
  obtain ⟨first, others⟩ := List.forall_mem_cons.mp word.notSpace
  let after (t : State Char) : Option (State Char) := exec assignPattern some (s.capture 1 t)
  have next : (s.advance 1).rest = a₀ ++ b₀ := advance_rest (a := [c]) split
  have whole : s.rest = c :: (s.advance 1).rest := by rw [split, next, List.cons_append]
  have begun : exec argsPattern some s = exec (.star true (.one notSpace)) after (s.advance 1) := by
    show exec (.plus true (.one notSpace)) after s = _
    exact exec_plus split first
  -- the group has so much, and there is a match unless there is no assignment
  have taken : ∀ a b, (s.advance 1).rest = a ++ b → after ((s.advance 1).advance a.length) =
      exec assignPattern some ⟨s.position + (c :: a).length, b,
        Function.update s.captures 1 (some (c :: a))⟩ := by
    intro a b rest
    show exec assignPattern some (s.capture 1 _) = _
    rw [capture_advance_cons 1 (whole.trans (congrArg (c :: ·) rest))]
  have fails : ∀ a b, (s.advance 1).rest = a ++ b →
      (after ((s.advance 1).advance a.length) = none ↔ ¬Assigns b) := by
    intro a b rest
    rw [taken a b rest]
    exact exec_assign_eq_none
  cases matched : exec (.star true (.one notSpace)) after (s.advance 1) with
  | none =>
    exact absurd assigns ((fails a₀ b₀ next).mp (exec_star_eq_none.mp matched a₀ b₀ next others))
  | some u =>
    obtain ⟨a, b, rest, all, succeeds, longest⟩ := exec_greedy_eq_some matched
    have longest' : ∀ a' b', s.rest = a' ++ b' → (c :: a).length < a'.length → Word a' →
        ¬Assigns b' := by
      rw [whole, forall_split_cons]
      refine ⟨fun longer => (by cases longer), fun a' b' rest' longer word' => ?_⟩
      refine (fails a' b' rest').mp (longest a' b' rest' (Nat.lt_of_succ_lt_succ longer) ?_)
      exact (List.forall_mem_cons.mp word'.notSpace).2
    refine ⟨c :: a, b, u, ⟨?_, ?_, ?_, longest'⟩, ?_, (taken a b rest).symm.trans succeeds,
      begun.trans matched⟩
    · rw [whole, rest, List.cons_append]
    · exact List.forall_mem_cons.mpr ⟨notSpace_eq.mp first, fun d hd => notSpace_eq.mp (all d hd)⟩
    · by_contra noAssign
      rw [(fails a b rest).mpr noAssign] at succeeds
      cases succeeds
    · by_contra shorter
      exact longest' (c :: a₀) b₀ split (Nat.lt_of_not_le shorter) word assigns

/-- **What a search finds**, in a text that can be cut: the longest cut, and the assignment after
it. -/
theorem search_cut {lead text a₀ b₀ : List Char} (blanks : ∀ c ∈ lead, isSpace c = true)
    (split : text = a₀ ++ b₀) (nonempty : a₀ ≠ []) (word : Word a₀) (assigns : Assigns b₀) :
    ∃ a b found, LongestCut text a b ∧ a₀.length ≤ a.length ∧
      argsPattern.search (lead ++ text) = some found ∧ CutMatch a b found := by
  obtain ⟨a, b, u, cut, longer, succeeds, matched⟩ :=
    exec_args (s := { position := 0 + lead.length, rest := text }) split nonempty word assigns
  refine ⟨a, b, _, cut, longer,
    (searchFrom_skip fun c hc n cs => ?_).trans (searchFrom_here matched),
    _, u, rfl, rfl, succeeds, rfl, rfl⟩
  refine exec_args_fails fun d ds rest => ?_
  obtain ⟨rfl, -⟩ := List.cons.inj rest
  exact blanks c hc

end Bfc.Commands
