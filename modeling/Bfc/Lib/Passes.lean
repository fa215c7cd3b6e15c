import Bfc.Lib.Transition

/-!
# A table served in passes

A table of entries with a key each, which may change at any time, and passes over it. A pass takes a
copy of the table and serves the entries of the copy one after the other: it passes an entry over,
or enters it and later leaves it. What happens to the table meanwhile is for the next pass.

`Step` is what may happen, and `Exact` what every run of it looks like: a pass has served each entry
that was there when it began, once and in order, and an entry whose key was removed is touched by
the pass in progress at most.
-/

namespace Passes

open Lts

variable {ρ ε : Type*}

/-- The table, and while a pass is in progress the entry it is in and those it has still to
serve. -/
structure Served (ε : Type*) where
  table : List ε := []
  pass : Option (Option ε × List ε) := none

/-- What happens. -/
inductive Action (ρ ε : Type*) where
  | put (e : ε)
  | remove (q : ρ)
  | start
  | skip (e : ε)
  | enter (e : ε)
  | leave (e : ε)
  | finish

namespace Action

/-- The entry that a pass touches. -/
def touches : Action ρ ε → Option ε
  | .skip e | .enter e | .leave e => some e
  | .put _ | .remove _ | .start | .finish => none

/-- A pass begins or ends. -/
def marks : Action ρ ε → Bool
  | .start | .finish => true
  | .put _ | .remove _ | .skip _ | .enter _ | .leave _ => false

end Action

/-- Between the marks of a pass. -/
def Within (ls : List (Action ρ ε)) : Prop := ∀ a ∈ ls, a.marks = false

/-- What it looks like that a pass has served these entries, and is in the last of them or not. -/
inductive Serving : List ε → Option ε → List (Action ρ ε) → Prop
  | nil : Serving [] none []
  | skip {es : List ε} {acts : List (Action ρ ε)} (e : ε) :
      Serving es none acts → Serving (es ++ [e]) none (acts ++ [.skip e])
  | enter {es : List ε} {acts : List (Action ρ ε)} (e : ε) :
      Serving es none acts → Serving (es ++ [e]) (some e) (acts ++ [.enter e])
  | leave {es : List ε} {acts : List (Action ρ ε)} {e : ε} :
      Serving es (some e) acts → Serving es none (acts ++ [.leave e])

variable [DecidableEq ρ] {key : ε → ρ}

/-- An entry whose key is there takes the place of the one with that key, another one comes last. -/
def put (key : ε → ρ) (table : List ε) (e : ε) : List ε :=
  if key e ∈ table.map key then table.map fun e' => if key e' = key e then e else e'
  else table ++ [e]

/-- What happens to the table. -/
def Action.onTable (key : ε → ρ) (table : List ε) : Action ρ ε → List ε
  | .put e => Passes.put key table e
  | .remove q => table.filter fun e => key e ≠ q
  | .start | .skip _ | .enter _ | .leave _ | .finish => table

/-- The table that what has happened leads to. -/
def tableBy (key : ε → ρ) (ls : List (Action ρ ε)) : List ε := ls.foldl (Action.onTable key) []

/-- What may happen next. -/
inductive Step (key : ε → ρ) (s : Served ε) : Action ρ ε → Served ε → Prop
  | put (e : ε) : Step key s (.put e) { s with table := put key s.table e }
  | remove (q : ρ) :
      Step key s (.remove q) { s with table := s.table.filter fun e => key e ≠ q }
  | start (between : s.pass = none) : Step key s .start { s with pass := some (none, s.table) }
  | skip {e : ε} {rest : List ε} (next : s.pass = some (none, e :: rest)) :
      Step key s (.skip e) { s with pass := some (none, rest) }
  | enter {e : ε} {rest : List ε} (next : s.pass = some (none, e :: rest)) :
      Step key s (.enter e) { s with pass := some (some e, rest) }
  | leave {e : ε} {rest : List ε} (inside : s.pass = some (some e, rest)) :
      Step key s (.leave e) { s with pass := some (none, rest) }
  | finish (served : s.pass = some (none, [])) : Step key s .finish { s with pass := none }

/-- What every run looks like. -/
structure Exact (key : ε → ρ) (ls : List (Action ρ ε)) : Prop where
  unique : ((tableBy key ls).map key).Nodup
  whole : ∀ before during after, ls = before ++ .start :: (during ++ .finish :: after) →
    Within during →
    Serving (tableBy key before) none (during.filter fun a => a.touches.isSome)
  touched : ∀ before a e after, ls = before ++ a :: after → a.touches = some e →
    ∃ earlier during, before = earlier ++ .start :: during ∧ Within during ∧
      e ∈ tableBy key earlier
  gone : ∀ before q mid a e after, ls = before ++ .remove q :: (mid ++ a :: after) →
    a.touches = some e → key e = q → (∀ e', .put e' ∈ mid → key e' ≠ q) → Within mid

/-- A step is known by what it leaves. -/
theorem Step.to {s t u : Served ε} {a : Action ρ ε} (step : Step key s a u)
    (table : t.table = u.table) (pass : t.pass = u.pass) : Step key s a t := by
  have same : t = u := congrArg₂ Served.mk table pass
  exact same ▸ step

/-- A step that changes neither the table nor the pass shows nothing. -/
theorem quiet_run {s t : Served ε} {ls : List (Action ρ ε)} (unseen : ls = [])
    (table : t.table = s.table) (pass : t.pass = s.pass) : Run (Step key) s ls t := by
  have stays : t = s := congrArg₂ Served.mk table pass
  rw [unseen, stays]
  exact Run.nil

/-- A pass begins, and is over at once where there is nothing to serve. -/
theorem start_run {s t : Served ε} (between : s.pass = none) (table : t.table = s.table)
    (pass : t.pass = if s.table.isEmpty then none else some (none, s.table)) :
    Run (Step key) s (if s.table.isEmpty then [.start, .finish] else [.start]) t := by
  by_cases unused : s.table.isEmpty = true
  · rw [if_pos unused] at pass ⊢
    have ends : Step key { s with pass := some (none, s.table) } .finish t :=
      (Step.finish (congrArg (fun rest => some (none, rest)) (List.isEmpty_iff.mp unused))).to
        table pass
    exact (Run.single (Step.start between)).trans (Run.single ends)
  · rw [if_neg unused] at pass ⊢
    exact Run.single ((Step.start between).to table pass)

/-- What serving the next entry begins with, when it is entered or not. -/
def look (e : ε) (enters : Bool) : Action ρ ε := if enters then .enter e else .skip e

theorem Step.look {s t : Served ε} {e : ε} {rest : List ε} (next : s.pass = some (none, e :: rest))
    (enters : Bool) (table : t.table = s.table)
    (pass : t.pass = some (if enters then some e else none, rest)) :
    Step key s (look e enters) t := by
  cases enters with
  | false => exact (Step.skip next).to table pass
  | true => exact (Step.enter next).to table pass

/-! ## The table -/

theorem put_keys (key : ε → ρ) (table : List ε) (e : ε) :
    (put key table e).map key =
      if key e ∈ table.map key then table.map key else table.map key ++ [key e] := by
  unfold put
  split
  · rw [List.map_map]
    apply List.map_congr_left
    intro e' _
    rw [Function.comp_apply]
    split
    · rename_i same
      exact same.symm
    · rfl
  · rw [List.map_append, List.map_singleton]

theorem tableBy_append (key : ε → ρ) (ls : List (Action ρ ε)) (a : Action ρ ε) :
    tableBy key (ls ++ [a]) = a.onTable key (tableBy key ls) := by
  rw [tableBy, List.foldl_append]
  rfl

/-- No key is there twice. -/
theorem onTable_nodup {table : List ε} (h : (table.map key).Nodup) (a : Action ρ ε) :
    ((a.onTable key table).map key).Nodup := by
  cases a with
  | put e =>
    rw [Action.onTable, put_keys]
    split
    · exact h
    · rename_i fresh
      rw [List.nodup_append]
      refine ⟨h, List.nodup_cons.mpr ⟨List.not_mem_nil, List.nodup_nil⟩, ?_⟩
      rintro q there q' mem rfl
      exact fresh (List.mem_singleton.mp mem ▸ there)
  | remove q => exact h.sublist (List.filter_sublist.map key)
  | start | skip e | enter e | leave e | finish => exact h

/-- A key that is not there stays away until it is put. -/
theorem onTable_absent {table : List ε} {q : ρ} (h : q ∉ table.map key) {a : Action ρ ε}
    (unput : ∀ e, a = .put e → key e ≠ q) : q ∉ (a.onTable key table).map key := by
  cases a with
  | put e =>
    rw [Action.onTable, put_keys]
    split
    · exact h
    · rw [List.mem_append, List.mem_singleton]
      rintro (there | same)
      · exact h there
      · exact unput e rfl same.symm
  | remove q' => exact fun there => h ((List.filter_sublist.map key).subset there)
  | start | skip e | enter e | leave e | finish => exact h

/-- A key that was removed stays away until it is put. -/
theorem tableBy_removed {before mid : List (Action ρ ε)} {q : ρ}
    (unput : ∀ e, .put e ∈ mid → key e ≠ q) :
    q ∉ (tableBy key (before ++ .remove q :: mid)).map key := by
  induction mid using List.reverseRecOn with
  | nil =>
    rw [tableBy_append, Action.onTable, List.mem_map]
    rintro ⟨e, there, same⟩
    exact absurd same (of_decide_eq_true (List.mem_filter.mp there).2)
  | append_singleton mid a ih =>
    rw [← List.cons_append, ← List.append_assoc, tableBy_append]
    apply onTable_absent
    · apply ih
      intro e there
      exact unput e (List.mem_append_left _ there)
    · rintro e rfl
      exact unput e (List.mem_append_right _ (List.mem_singleton_self _))

/-! ## Passes -/

omit [DecidableEq ρ] in
theorem Serving.inside_mem {es : List ε} {e : ε} {acts : List (Action ρ ε)}
    (h : Serving es (some e) acts) : e ∈ es := by
  cases h with
  | enter e before => exact List.mem_append_right _ (List.mem_singleton_self e)

omit [DecidableEq ρ] in
/-- The pass in progress began at the last mark. -/
theorem start_unique {before before' during during' : List (Action ρ ε)}
    (same : before ++ .start :: during = before' ++ .start :: during') (within : Within during)
    (within' : Within during') : before = before' ∧ during = during' := by
  have marked : ∀ {x during during' : List (Action ρ ε)}, Within during →
      .start :: during = x ++ .start :: during' → x = [] := by
    intro x during during' within split
    cases x with
    | nil => rfl
    | cons a x =>
      obtain ⟨-, rfl⟩ := List.cons.inj split
      cases within .start (List.mem_append_right _ (List.mem_cons_self ..))
  rcases List.append_eq_append_iff.mp same with ⟨x, rfl, split⟩ | ⟨x, rfl, split⟩
  · obtain rfl := marked within split
    exact ⟨(List.append_nil _).symm, (List.cons.inj split).2⟩
  · obtain rfl := marked within' split
    exact ⟨List.append_nil _, (List.cons.inj split).2.symm⟩

/-- What is so when `ls` has happened. -/
structure Told (key : ε → ρ) (ls : List (Action ρ ε)) (s : Served ε) : Prop where
  table : s.table = tableBy key ls
  unique : (s.table.map key).Nodup
  pass : ∀ inside rest, s.pass = some (inside, rest) →
    ∃ before during served, ls = before ++ .start :: during ∧ Within during ∧
      served ++ rest = tableBy key before ∧
      Serving served inside (during.filter fun a => a.touches.isSome)

/-- A step that touches no entry. -/
theorem Told.other {ls : List (Action ρ ε)} {s t : Served ε} (h : Told key ls s)
    {a : Action ρ ε} (table : t.table = a.onTable key s.table) (pass : t.pass = s.pass)
    (untouched : a.touches = none) (unmarked : a.marks = false) : Told key (ls ++ [a]) t where
  table := by rw [tableBy_append, table, h.table]
  unique := table ▸ onTable_nodup h.unique a
  pass inside rest passing := by
    obtain ⟨before, during, served, rfl, within, split, serving⟩ :=
      h.pass inside rest (pass ▸ passing)
    refine ⟨before, during ++ [a], served, List.append_assoc .., ?_, split, ?_⟩
    · intro b mem
      rcases List.mem_append.mp mem with mem | mem
      · exact within b mem
      · exact List.mem_singleton.mp mem ▸ unmarked
    · rw [List.filter_append, List.filter_cons_of_neg (by rw [untouched]; exact Bool.false_ne_true),
        List.filter_nil, List.append_nil]
      exact serving

/-- A step that touches an entry of the pass. -/
theorem Told.serve {ls : List (Action ρ ε)} {s t : Served ε} (h : Told key ls s)
    {a : Action ρ ε} {e : ε} (touches : a.touches = some e) {inside inside' : Option ε}
    {rest rest' : List ε} (passing : s.pass = some (inside, rest)) (table : t.table = s.table)
    (pass : t.pass = some (inside', rest'))
    (goes : ∀ {served : List ε} {acts : List (Action ρ ε)}, Serving served inside acts →
      ∃ served', served' ++ rest' = served ++ rest ∧ Serving served' inside' (acts ++ [a])) :
    Told key (ls ++ [a]) t where
  table := by
    rw [tableBy_append, table, h.table]
    cases a with
    | skip e | enter e | leave e => rfl
    | put e | remove q | start | finish => cases touches
  unique := table ▸ h.unique
  pass inside₁ rest₁ at₁ := by
    obtain ⟨rfl, rfl⟩ := Prod.mk.inj (Option.some.inj (pass.symm.trans at₁))
    obtain ⟨before, during, served, rfl, within, split, serving⟩ := h.pass inside rest passing
    obtain ⟨served', same, serving'⟩ := goes serving
    refine ⟨before, during ++ [a], served', List.append_assoc .., ?_, same.trans split, ?_⟩
    · intro b mem
      rcases List.mem_append.mp mem with mem | mem
      · exact within b mem
      · rw [List.mem_singleton.mp mem]
        cases a with
        | skip e | enter e | leave e => rfl
        | put e | remove q | start | finish => cases touches
    · rw [List.filter_append, List.filter_cons_of_pos (by rw [touches]; rfl), List.filter_nil]
      exact serving'

theorem Told.step {ls : List (Action ρ ε)} {s t : Served ε} (h : Told key ls s)
    {a : Action ρ ε} (step : Step key s a t) : Told key (ls ++ [a]) t := by
  cases step with
  | put e => exact h.other rfl rfl rfl rfl
  | remove q => exact h.other rfl rfl rfl rfl
  | start between =>
    refine ⟨?_, h.unique, ?_⟩
    · rw [tableBy_append]
      exact h.table
    · intro inside rest passing
      obtain ⟨rfl, rfl⟩ := Prod.mk.inj (Option.some.inj passing)
      exact ⟨ls, [], [], rfl, fun a mem => absurd mem List.not_mem_nil, h.table, .nil⟩
  | @skip e rest next =>
    refine h.serve rfl next rfl rfl fun {served} _ serving => ?_
    exact ⟨served ++ [e], List.append_assoc .., serving.skip e⟩
  | @enter e rest next =>
    refine h.serve rfl next rfl rfl fun {served} _ serving => ?_
    exact ⟨served ++ [e], List.append_assoc .., serving.enter e⟩
  | leave inside =>
    refine h.serve rfl inside rfl rfl fun {served} _ serving => ?_
    exact ⟨served, rfl, serving.leave⟩
  | finish served =>
    refine ⟨?_, h.unique, ?_⟩
    · rw [tableBy_append]
      exact h.table
    · intro inside rest passing
      cases passing

theorem told_of_run {ls : List (Action ρ ε)} {s : Served ε} (run : Run (Step key) {} ls s) :
    Told key ls s := by
  refine run.history (P := Told key) ⟨rfl, List.nodup_nil, fun inside rest passing => ?_⟩ ?_
  · cases passing
  · intro ls u a v told step
    exact told.step step

/-! ## Runs -/

/-- An entry that a pass touches was there when the pass began. -/
theorem Told.touched {ls : List (Action ρ ε)} {s t : Served ε} (h : Told key ls s)
    {a : Action ρ ε} (step : Step key s a t) {e : ε} (touches : a.touches = some e) :
    ∃ earlier during, ls = earlier ++ .start :: during ∧ Within during ∧
      e ∈ tableBy key earlier := by
  -- the entry is the next one, or the one the pass is in
  have there : ∃ inside rest, s.pass = some (inside, rest) ∧ (e ∈ rest ∨ inside = some e) := by
    cases step with
    | skip next =>
      obtain rfl := Option.some.inj touches
      exact ⟨_, _, next, .inl (List.mem_cons_self ..)⟩
    | enter next =>
      obtain rfl := Option.some.inj touches
      exact ⟨_, _, next, .inl (List.mem_cons_self ..)⟩
    | leave inside =>
      obtain rfl := Option.some.inj touches
      exact ⟨_, _, inside, .inr rfl⟩
    | put e | remove q | start between | finish served => cases touches
  obtain ⟨inside, rest, passing, mem⟩ := there
  obtain ⟨before, during, served, split, within, all, serving⟩ := h.pass inside rest passing
  refine ⟨before, during, split, within, all ▸ ?_⟩
  rcases mem with mem | rfl
  · exact List.mem_append_right _ mem
  · exact List.mem_append_left _ serving.inside_mem

/-- **Passes are exact**, in every run. -/
theorem exact_of_run {ls : List (Action ρ ε)} {s : Served ε} (run : Run (Step key) {} ls s) :
    s.table = tableBy key ls ∧ Exact key ls := by
  have told := told_of_run run
  have touched : ∀ before a e after, ls = before ++ a :: after → a.touches = some e →
      ∃ earlier during, before = earlier ++ .start :: during ∧ Within during ∧
        e ∈ tableBy key earlier := by
    rintro before a e after rfl touches
    obtain ⟨u, first, rest⟩ := run.split before _
    obtain ⟨v, step, -⟩ := rest.split [a] after
    exact (told_of_run first).touched step.of_single touches
  refine ⟨told.table, told.table ▸ told.unique, ?_, touched, ?_⟩
  · rintro before during after rfl within
    rw [← List.cons_append, ← List.append_assoc] at run
    obtain ⟨u, first, rest⟩ := run.split _ (.finish :: after)
    obtain ⟨v, step, -⟩ := rest.split [.finish] after
    cases step.of_single with
    | finish ended =>
      obtain ⟨before', during', served, same, within', all, serving⟩ :=
        (told_of_run first).pass none [] ended
      obtain ⟨rfl, rfl⟩ := start_unique same within within'
      rw [← all, List.append_nil]
      exact serving
  · rintro before q mid a e after split touches rfl unput
    rw [← List.cons_append, ← List.append_assoc] at split
    obtain ⟨earlier, during, began, within, there⟩ := touched _ a e after split touches
    rcases List.append_eq_append_iff.mp began with ⟨x, rfl, rest⟩ | ⟨x, rfl, rest⟩
    · -- a pass that began after the removal would not have the entry
      cases x with
      | nil => cases (List.cons.inj rest).1
      | cons b x =>
        obtain ⟨rfl, rfl⟩ := List.cons.inj rest
        refine absurd (List.mem_map_of_mem there) (tableBy_removed fun e' mem => ?_)
        exact unput e' (List.mem_append_left _ mem)
    · cases x with
      | nil => cases (List.cons.inj rest).1
      | cons b x =>
        obtain ⟨-, rfl⟩ := List.cons.inj rest
        intro c mem
        exact within c (List.mem_append_right _ (List.mem_cons_of_mem _ mem))

end Passes
