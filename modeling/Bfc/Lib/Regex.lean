import Mathlib.Data.List.Basic
import Mathlib.Logic.Function.Basic

/-!
# Backtracking matches

Regular expressions with capturing groups, greedy and lazy repetition, and the matcher that
ECMAScript gives for them. A matcher is told what is to be matched after it, its continuation, and
backtracks by trying its own alternatives in order of preference until the continuation succeeds. So
the first success in that order is the match, and nothing else has to be said of priorities.

A repetition stops when a round has consumed nothing, and so has at most one round for each
character that is left. The rules about repetitions of one class of characters say which number of
them is tried first and when none will do; `exec_consumes` says that a match consumes only
characters of the expression's classes, and how many at least. A search begins at each position in
turn, up to the first that has a match.
-/

namespace Backtracking

variable {α β : Type}

/-- A regular expression. -/
inductive Regex (α : Type) where
  | one (p : α → Bool)
  | seq (r s : Regex α)
  | star (greedy : Bool) (r : Regex α)
  | group (n : Nat) (r : Regex α)
  | start
  | finish

/-- `+`, and `+?`. -/
def Regex.plus (greedy : Bool) (r : Regex α) : Regex α := .seq r (.star greedy r)

/-- Where a match is: how much has been consumed, what is left, and what the groups have. -/
structure State (α : Type) where
  position : Nat := 0
  rest : List α
  captures : Nat → Option (List α) := fun _ => none

/-- The state so many characters later. -/
def State.advance (s : State α) (n : Nat) : State α :=
  { s with position := s.position + n, rest := s.rest.drop n }

/-- The state in which a group has what was consumed since `s`. -/
def State.capture (s : State α) (n : Nat) (t : State α) : State α :=
  { t with captures :=
      Function.update t.captures n (some (s.rest.take (t.position - s.position))) }

/-- What is to be matched next, and what it makes of a success. -/
abbrev Cont (α β : Type) := State α → Option β

/-- The rounds of a repetition. -/
def rounds (m : Cont α β → Cont α β) (greedy : Bool) (k : Cont α β) : Nat → Cont α β
  | 0, s => k s
  | n + 1, s =>
    let more := m (fun t => if t.position = s.position then none else rounds m greedy k n t) s
    if greedy then more.or (k s) else (k s).or more

/-- The matcher of an expression. -/
def exec : Regex α → Cont α β → Cont α β
  | .one p, k, s =>
    match s.rest with
    | c :: _ => if p c then k (s.advance 1) else none
    | [] => none
  | .seq r r', k, s => exec r (exec r' k) s
  | .star greedy r, k, s => rounds (exec r) greedy k s.rest.length s
  | .group n r, k, s => exec r (fun t => k (s.capture n t)) s
  | .start, k, s => if s.position = 0 then k s else none
  | .finish, k, s => if s.rest = [] then k s else none

/-- A match that leaves nothing: what its groups have. -/
def whole : Cont α (Nat → Option (List α)) := fun s =>
  if s.rest.isEmpty then some s.captures else none

/-- `regex_match`. -/
def Regex.matchWhole (r : Regex α) (input : List α) : Option (Nat → Option (List α)) :=
  exec r whole { rest := input }

/-- What a search has found: the text of the match, what its groups have, and what is after it. -/
structure Match (α : Type) where
  text : List α
  captures : Nat → Option (List α)
  suffix : List α

/-- A search from a position on. -/
def Regex.searchFrom (r : Regex α) (position : Nat) (rest : List α) : Option (Match α) :=
  match exec r some { position := position, rest := rest } with
  | some t =>
    some { text := rest.take (t.position - position), captures := t.captures, suffix := t.rest }
  | none =>
    match rest with
    | [] => none
    | _ :: rest => r.searchFrom (position + 1) rest

/-- `regex_search`. -/
def Regex.search (r : Regex α) (input : List α) : Option (Match α) := r.searchFrom 0 input

/-- `mark_count`. -/
def Regex.markCount : Regex α → Nat
  | .one _ | .start | .finish => 0
  | .seq r r' => r.markCount + r'.markCount
  | .star _ r => r.markCount
  | .group _ r => r.markCount + 1

/-! ## Positions -/

variable {s : State α} {p : α → Bool} {k : Cont α β} {greedy : Bool}

theorem advance_zero (s : State α) : s.advance 0 = s := rfl

theorem advance_advance (s : State α) (m n : Nat) :
    (s.advance m).advance n = s.advance (m + n) := by
  simp only [State.advance, List.drop_drop, Nat.add_assoc]

theorem advance_rest {a b : List α} (rest : s.rest = a ++ b) : (s.advance a.length).rest = b := by
  rw [State.advance, rest, List.drop_left]

theorem exec_start (first : s.position = 0) : exec .start k s = k s := if_pos first

/-! ## One class of characters -/

theorem exec_one {c : α} {cs : List α} (rest : s.rest = c :: cs) (mem : p c = true) :
    exec (.one p) k s = k (s.advance 1) := by
  simp only [exec, rest, mem, if_true]

theorem exec_one_fails (other : ∀ c cs, s.rest = c :: cs → p c = false) :
    exec (.one p) k s = none := by
  rw [exec]
  split
  · rename_i c cs rest
    rw [other c cs rest, if_neg Bool.false_ne_true]
  · rfl

/-- The next character is of the class: after it or before it, in the order of preference. -/
theorem exec_star_cons {c : α} {cs : List α} (rest : s.rest = c :: cs) (mem : p c = true) :
    exec (.star greedy (.one p)) k s =
      if greedy then (exec (.star greedy (.one p)) k (s.advance 1)).or (k s)
      else (k s).or (exec (.star greedy (.one p)) k (s.advance 1)) := by
  have moved : ¬(s.advance 1).position = s.position := Nat.succ_ne_self _
  have left : (s.advance 1).rest.length = cs.length :=
    congrArg List.length (advance_rest (a := [c]) rest)
  rw [exec, exec, left, rest, List.length_cons, rounds]
  simp only [exec_one rest mem, if_neg moved]

/-- The next character is not of the class, or there is none. -/
theorem exec_star_stop (stop : ∀ c cs, s.rest = c :: cs → p c = false) :
    exec (.star greedy (.one p)) k s = k s := by
  rw [exec]
  cases rest : s.rest with
  | nil => rfl
  | cons c cs =>
    rw [List.length_cons, rounds]
    simp only [exec_one_fails stop, Option.none_or, Option.or_none, ite_self]

/-- `+` takes the first character, and goes on as `*`. -/
theorem exec_plus {c : α} {cs : List α} (rest : s.rest = c :: cs) (mem : p c = true) :
    exec (.plus greedy (.one p)) k s = exec (.star greedy (.one p)) k (s.advance 1) :=
  exec_one rest mem

theorem exec_plus_fails (other : ∀ c cs, s.rest = c :: cs → p c = false) :
    exec (.plus greedy (.one p)) k s = none := exec_one_fails other

/-- **The lazy rule**: characters after which the continuation fails are passed over. -/
theorem exec_lazy_skip {a b : List α} (rest : s.rest = a ++ b) (mem : ∀ c ∈ a, p c = true)
    (fails : ∀ n < a.length, k (s.advance n) = none) :
    exec (.star false (.one p)) k s = exec (.star false (.one p)) k (s.advance a.length) := by
  induction a generalizing s with
  | nil => rw [List.length_nil, advance_zero]
  | cons c a ih =>
    obtain ⟨first, mem⟩ := List.forall_mem_cons.mp mem
    have next : (s.advance 1).rest = a ++ b := advance_rest (a := [c]) rest
    rw [exec_star_cons (rest.trans (List.cons_append ..)) first]
    have here : k s = none := fails 0 (Nat.succ_pos _)
    rw [here, Option.none_or, if_neg Bool.false_ne_true, ih next mem, advance_advance,
      List.length_cons, Nat.add_comm]
    intro n hn
    rw [advance_advance, Nat.add_comm]
    exact fails (n + 1) (Nat.succ_lt_succ hn)

/-- A lazy repetition ends where its continuation succeeds. -/
theorem exec_lazy_least {r : Regex α} {x : β} (succeeds : k s = some x) :
    exec (.star false r) k s = some x := by
  rw [exec]
  cases s.rest.length with
  | zero => exact succeeds
  | succ n => rw [rounds, if_neg Bool.false_ne_true, succeeds, Option.some_or]

/-- **The greedy rule**: as many characters as possible, if the continuation succeeds after them. -/
theorem exec_greedy_most {a b : List α} {x : β} (rest : s.rest = a ++ b)
    (mem : ∀ c ∈ a, p c = true) (stop : ∀ c cs, b = c :: cs → p c = false)
    (succeeds : k (s.advance a.length) = some x) :
    exec (.star true (.one p)) k s = some x := by
  induction a generalizing s with
  | nil =>
    rw [exec_star_stop fun c cs hcs => stop c cs (rest.symm.trans hcs)]
    exact succeeds
  | cons c a ih =>
    obtain ⟨first, mem⟩ := List.forall_mem_cons.mp mem
    have next : (s.advance 1).rest = a ++ b := advance_rest (a := [c]) rest
    rw [exec_star_cons (rest.trans (List.cons_append ..)) first, if_pos rfl, ih next mem,
      Option.some_or]
    rw [advance_advance, Nat.add_comm]
    exact succeeds

/-- A group has the characters that were consumed in it. -/
theorem capture_advance (n : Nat) {a b : List α} (rest : s.rest = a ++ b) :
    s.capture n (s.advance a.length) =
      { position := s.position + a.length
        rest := b
        captures := Function.update s.captures n (some a) } := by
  rw [State.capture, State.advance, Nat.add_sub_cancel_left, rest, List.take_left, List.drop_left]

/-- The group of a `+` has the first character too. -/
theorem capture_advance_cons (n : Nat) {c : α} {a b : List α} (rest : s.rest = c :: (a ++ b)) :
    s.capture n ((s.advance 1).advance a.length) =
      { position := s.position + (c :: a).length
        rest := b
        captures := Function.update s.captures n (some (c :: a)) } := by
  rw [advance_advance, Nat.add_comm, ← List.length_cons (a := c)]
  exact capture_advance n rest

/-- The greedy rule for a group of one or more characters. -/
theorem exec_group_plus (n : Nat) {a b : List α} {x : β} (rest : s.rest = a ++ b)
    (nonempty : a ≠ []) (mem : ∀ c ∈ a, p c = true) (stop : ∀ c cs, b = c :: cs → p c = false)
    (succeeds : k
      { position := s.position + a.length
        rest := b
        captures := Function.update s.captures n (some a) } = some x) :
    exec (.group n (.plus true (.one p))) k s = some x := by
  obtain ⟨c, a, rfl⟩ := List.exists_cons_of_ne_nil nonempty
  obtain ⟨first, others⟩ := List.forall_mem_cons.mp mem
  have next : (s.advance 1).rest = a ++ b := advance_rest (a := [c]) rest
  rw [exec, exec_plus rest first]
  refine exec_greedy_most next others stop ?_
  rw [capture_advance_cons n rest]
  exact succeeds

/-- What holds of the ways to split a list: of the one at the front, and of the others, which have
the first element in the first part. -/
theorem forall_split_cons {c : α} {cs : List α} {P : List α → List α → Prop} :
    (∀ a b, c :: cs = a ++ b → P a b) ↔
      P [] (c :: cs) ∧ ∀ a b, cs = a ++ b → P (c :: a) b := by
  constructor
  · intro all
    exact ⟨all [] (c :: cs) rfl, fun a b split => all (c :: a) b (congrArg (c :: ·) split)⟩
  · rintro ⟨front, others⟩ (_ | ⟨d, a⟩) b split
    · obtain rfl : c :: cs = b := split
      exact front
    · obtain ⟨rfl, rest⟩ := List.cons.inj split
      exact others a b rest

theorem forall_split_nil {P : List α → List α → Prop} : (∀ a b, [] = a ++ b → P a b) ↔ P [] [] := by
  constructor
  · intro all
    exact all [] [] rfl
  · intro front a b split
    obtain ⟨rfl, rfl⟩ := List.append_eq_nil_iff.mp split.symm
    exact front

/-- A repetition fails if and only if its continuation does, after any number of characters of the
class. -/
theorem exec_star_eq_none :
    exec (.star greedy (.one p)) k s = none ↔ ∀ a b, s.rest = a ++ b → (∀ c ∈ a, p c = true) →
      k (s.advance a.length) = none := by
  generalize left : s.rest = rest
  induction rest generalizing s with
  | nil =>
    have empty : ∀ c cs, s.rest = c :: cs → p c = false := by
      intro c cs hcs
      cases left.symm.trans hcs
    rw [exec_star_stop empty, forall_split_nil]
    exact ⟨fun here _ => here, fun fails => fails (List.forall_mem_nil _)⟩
  | cons c cs ih =>
    rw [forall_split_cons]
    cases mem : p c with
    | false =>
      rw [exec_star_stop fun c' cs' hcs => (List.cons.inj (left.symm.trans hcs)).1 ▸ mem]
      refine ⟨fun here => ⟨fun _ => here, fun a b split all => ?_⟩,
        fun fails => fails.1 (List.forall_mem_nil _)⟩
      rw [all c List.mem_cons_self] at mem
      cases mem
    | true =>
      have next : (s.advance 1).rest = cs := advance_rest (a := [c]) left
      have both : exec (.star greedy (.one p)) k s = none ↔
          k s = none ∧ exec (.star greedy (.one p)) k (s.advance 1) = none := by
        rw [exec_star_cons left mem]
        split
        · rw [Option.or_eq_none_iff, and_comm]
        · exact Option.or_eq_none_iff
      rw [both, ih next]
      constructor
      · rintro ⟨here, later⟩
        refine ⟨fun _ => here, fun a b split all => ?_⟩
        have fails := later a b split (List.forall_mem_cons.mp all).2
        rwa [advance_advance, Nat.add_comm] at fails
      · rintro ⟨here, later⟩
        refine ⟨here (List.forall_mem_nil _), fun a b split all => ?_⟩
        have fails := later a b split (List.forall_mem_cons.mpr ⟨mem, all⟩)
        rwa [advance_advance, Nat.add_comm]

/-- **The greedy rule, from a match**: what it succeeds after is the longest run of characters of
the class after which the continuation succeeds. -/
theorem exec_greedy_eq_some {x : β} (h : exec (.star true (.one p)) k s = some x) :
    ∃ a b, s.rest = a ++ b ∧ (∀ c ∈ a, p c = true) ∧ k (s.advance a.length) = some x ∧
      ∀ a' b', s.rest = a' ++ b' → a.length < a'.length → (∀ c ∈ a', p c = true) →
        k (s.advance a'.length) = none := by
  generalize left : s.rest = rest
  induction rest generalizing s with
  | nil =>
    have empty : ∀ c cs, s.rest = c :: cs → p c = false := by
      intro c cs hcs
      cases left.symm.trans hcs
    rw [exec_star_stop empty] at h
    refine ⟨[], [], rfl, List.forall_mem_nil _, h, forall_split_nil.mpr fun longer => ?_⟩
    cases longer
  | cons c cs ih =>
    cases mem : p c with
    | false =>
      rw [exec_star_stop fun c' cs' hcs => (List.cons.inj (left.symm.trans hcs)).1 ▸ mem] at h
      refine ⟨[], c :: cs, rfl, List.forall_mem_nil _, h, forall_split_cons.mpr
        ⟨fun longer => (by cases longer), fun a b split longer all => ?_⟩⟩
      rw [all c List.mem_cons_self] at mem
      cases mem
    | true =>
      have next : (s.advance 1).rest = cs := advance_rest (a := [c]) left
      rw [exec_star_cons left mem, if_pos rfl] at h
      rcases Option.or_eq_some_iff.mp h with more | ⟨stops, here⟩
      · obtain ⟨a, b, split, all, succeeds, longest⟩ := ih more next
        rw [advance_advance, Nat.add_comm] at succeeds
        refine ⟨c :: a, b, congrArg (c :: ·) split, List.forall_mem_cons.mpr ⟨mem, all⟩, succeeds,
          forall_split_cons.mpr ⟨fun longer => (by cases longer), fun a' b' split longer all => ?_⟩⟩
        have fails := longest a' b' split (Nat.lt_of_succ_lt_succ longer)
          (List.forall_mem_cons.mp all).2
        rwa [advance_advance, Nat.add_comm] at fails
      · refine ⟨[], c :: cs, rfl, List.forall_mem_nil _, here,
          forall_split_cons.mpr ⟨fun longer => (by cases longer), fun a b split longer all => ?_⟩⟩
        have fails := exec_star_eq_none.mp stops a b (next.trans split)
          (List.forall_mem_cons.mp all).2
        rwa [advance_advance, Nat.add_comm] at fails

/-- Where the continuation fails after any number of characters of the class, so does the
repetition. -/
theorem exec_star_fails (fails : ∀ n, (∀ c ∈ s.rest.take n, p c = true) → k (s.advance n) = none) :
    exec (.star greedy (.one p)) k s = none := by
  rw [exec_star_eq_none]
  intro a b split all
  refine fails a.length ?_
  rwa [split, List.take_left]

/-! ## What a match consumes -/

/-- Every class of the expression is within a set of characters. -/
def Regex.Within (q : α → Prop) : Regex α → Prop
  | .one p => ∀ c, p c = true → q c
  | .seq r r' => r.Within q ∧ r'.Within q
  | .star _ r => r.Within q
  | .group _ r => r.Within q
  | .start => True
  | .finish => True

/-- A later state: the characters between are of a set. -/
def Between (q : α → Prop) (s t : State α) : Prop :=
  ∃ a, s.rest = a ++ t.rest ∧ ∀ c ∈ a, q c

theorem Between.refl (q : α → Prop) (s : State α) : Between q s s :=
  ⟨[], rfl, fun _ hc => by cases hc⟩

theorem Between.trans {q : α → Prop} {s t u : State α} (h : Between q s t) (h' : Between q t u) :
    Between q s u := by
  obtain ⟨a, rest, mem⟩ := h
  obtain ⟨b, rest', mem'⟩ := h'
  refine ⟨a ++ b, by rw [rest, rest', List.append_assoc], ?_⟩
  rw [List.forall_mem_append]
  exact ⟨mem, mem'⟩

/-- The least number of characters that a match consumes. -/
def Regex.least : Regex α → Nat
  | .one _ => 1
  | .seq r r' => r.least + r'.least
  | .star _ _ => 0
  | .group _ r => r.least
  | .start | .finish => 0

theorem Between.length_le {q : α → Prop} {s t : State α} (h : Between q s t) :
    t.rest.length ≤ s.rest.length := by
  obtain ⟨a, rest, -⟩ := h
  rw [rest, List.length_append]
  exact Nat.le_add_left _ _

/-- **A match consumes only characters of the expression's classes**, and not less than the least
number of them; its continuation succeeds after them. -/
theorem exec_consumes {q : α → Prop} {r : Regex α} (within : r.Within q) {k : Cont α β}
    {s : State α} {x : β} (h : exec r k s = some x) :
    ∃ t, Between q s t ∧ t.rest.length + r.least ≤ s.rest.length ∧ k t = some x := by
  induction r generalizing k s with
  | one p =>
    rw [exec] at h
    split at h
    · rename_i c cs rest
      obtain ⟨mem, h⟩ := Option.ite_none_right_eq_some.mp h
      have next : (s.advance 1).rest = cs := advance_rest (a := [c]) rest
      refine ⟨s.advance 1, ⟨[c], ?_, List.forall_mem_singleton.mpr (within c mem)⟩, ?_, h⟩
      · rw [rest, next, List.singleton_append]
      · rw [rest, next, List.length_cons]
        exact Nat.le_refl _
    · cases h
  | seq r r' ih ih' =>
    obtain ⟨t, first, least, h⟩ := ih within.1 h
    obtain ⟨u, second, least', h⟩ := ih' within.2 h
    refine ⟨u, first.trans second, ?_, h⟩
    rw [Regex.least]
    omega
  | star greedy r ih =>
    have all : ∀ (n : Nat) (s : State α), rounds (exec r) greedy k n s = some x →
        ∃ t, Between q s t ∧ k t = some x := by
      intro n
      induction n with
      | zero => exact fun s h => ⟨s, .refl q s, h⟩
      | succ n rest =>
        intro s h
        have more : exec r (fun t => if t.position = s.position then none
            else rounds (exec r) greedy k n t) s = some x → ∃ t, Between q s t ∧ k t = some x := by
          intro h
          obtain ⟨t, first, -, h⟩ := ih within h
          obtain ⟨-, h⟩ := Option.ite_none_left_eq_some.mp h
          obtain ⟨u, second, h⟩ := rest t h
          exact ⟨u, first.trans second, h⟩
        rw [rounds] at h
        split at h
        · rcases Option.or_eq_some_iff.mp h with h | ⟨-, h⟩
          · exact more h
          · exact ⟨s, .refl q s, h⟩
        · rcases Option.or_eq_some_iff.mp h with h | ⟨-, h⟩
          · exact ⟨s, .refl q s, h⟩
          · exact more h
    obtain ⟨t, between, h⟩ := all _ s h
    exact ⟨t, between, between.length_le, h⟩
  | group n r ih =>
    obtain ⟨t, between, least, h⟩ := ih within h
    exact ⟨s.capture n t, between, least, h⟩
  | start | finish =>
    obtain ⟨-, h⟩ := Option.ite_none_right_eq_some.mp h
    exact ⟨s, .refl q s, Nat.le_refl _, h⟩

/-- An input that an expression matches has only characters of its classes. -/
theorem Regex.matchWhole_within {q : α → Prop} {r : Regex α} (within : r.Within q)
    {input : List α} {captures : Nat → Option (List α)} (h : r.matchWhole input = some captures) :
    ∀ c ∈ input, q c := by
  obtain ⟨t, ⟨a, rest, mem⟩, -, h⟩ := exec_consumes within h
  obtain ⟨empty, -⟩ := Option.ite_none_right_eq_some.mp h
  rw [List.isEmpty_iff.mp empty, List.append_nil] at rest
  obtain rfl : input = a := rest
  exact mem

/-! ## Searches -/

variable {r : Regex α} {position : Nat}

theorem searchFrom_here {rest : List α} {t : State α}
    (h : exec r some { position := position, rest := rest } = some t) :
    r.searchFrom position rest = some
      { text := rest.take (t.position - position), captures := t.captures, suffix := t.rest } := by
  rw [Regex.searchFrom.eq_def, h]

/-- A search passes over the positions where there is no match. -/
theorem searchFrom_skip {a b : List α}
    (fails : ∀ c ∈ a, ∀ n cs, exec r some { position := n, rest := c :: cs } = none) :
    r.searchFrom position (a ++ b) = r.searchFrom (position + a.length) b := by
  induction a generalizing position with
  | nil => rfl
  | cons c a ih =>
    obtain ⟨here, later⟩ := List.forall_mem_cons.mp fails
    have skip : r.searchFrom position (c :: (a ++ b)) = r.searchFrom (position + 1) (a ++ b) := by
      rw [Regex.searchFrom.eq_def, here]
    rw [List.cons_append, skip, ih later, List.length_cons, Nat.add_assoc, Nat.add_comm 1]

/-- A match that a search finds leaves less of the input than there was, if it consumes anything. -/
theorem Regex.suffix_lt (consumes : 0 < r.least) {input : List α} {found : Match α}
    (h : r.searchFrom position input = some found) : found.suffix.length < input.length := by
  have any : r.Within fun _ => True := by
    clear consumes h
    induction r with
    | one p => exact fun _ _ => trivial
    | seq r r' ih ih' => exact ⟨ih, ih'⟩
    | star greedy r ih => exact ih
    | group n r ih => exact ih
    | start | finish => trivial
  induction input generalizing position with
  | nil =>
    rw [Regex.searchFrom.eq_def] at h
    split at h
    · rename_i t here
      obtain ⟨u, -, least, -⟩ := exec_consumes any here
      exact absurd (Nat.le_trans (Nat.le_add_left _ _) least) (Nat.not_le_of_lt consumes)
    · cases h
  | cons c cs ih =>
    rw [Regex.searchFrom.eq_def] at h
    split at h
    · rename_i t here
      obtain ⟨u, -, least, same⟩ := exec_consumes any here
      obtain rfl := Option.some.inj same
      rw [← Option.some.inj h]
      exact Nat.lt_of_lt_of_le (Nat.lt_add_of_pos_right consumes) least
    · exact Nat.lt_succ_of_lt (ih h)

end Backtracking
