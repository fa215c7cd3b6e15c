import Bfc.SharedBuffer.Operations

/-!
# Reference counting and bounds

What the counts being right means to a program that has made any calls. `Exact s` is about the
state: a storage's count is the number of its views, its release function has run if and only if
there are none left, once and with the bytes it was made with, and no view reaches past its
storage, so that the sums and differences of `size_t` do not wrap. `Drops s s'` is about one more
call: it runs the release functions of the storages that lose their last view in it, and of no
others.
-/

namespace Bfc.SharedBuffer

variable {ρ : Type}

/-- The bounds of a view, in numbers that do not wrap. -/
structure InBounds (st : Storage ρ) (v : View) : Prop where
  fits : v.offset.toNat + v.size.toNat ≤ st.capacity.toNat
  capacity : (st.capacity - v.offset).toNat = st.capacity.toNat - v.offset.toNat
  sum : ∀ offset size : UInt64, ¬v.size < offset → ¬v.size - offset < size →
    (v.offset + offset).toNat = v.offset.toNat + offset.toNat

/-- The counts, the releases and the bounds of a state. -/
structure Exact (s : State ρ) : Prop where
  refs : ∀ id st, s.storages[id]? = some st → st.refs = (s.viewsOf id : Int)
  deleted : ∀ id st, s.storages[id]? = some st → (st.deleted = true ↔ s.viewsOf id = 0)
  released : ∀ id st, s.storages[id]? = some st →
    s.released.filter (·.storage = some id) = if s.viewsOf id = 0 then st.record id else []
  unstored : ∀ (i : Nat) (v : View), s.views[i]? = some (some v) → v.storage = none →
    v.offset = 0 ∧ v.size = 0
  stored : ∀ (i : Nat) (v : View) (id : Nat), s.views[i]? = some (some v) → v.storage = some id →
    ∃ st, s.storages[id]? = some st ∧ st.deleted = false ∧ InBounds st v

/-- A call releases what loses its last view in it, and keeps what a storage is released with. -/
structure Drops (s s' : State ρ) (new : List (Released ρ)) : Prop where
  log : s'.released = s.released ++ new
  kept : ∀ (id : Nat) (st : Storage ρ), s.storages[id]? = some st →
    ∃ st' : Storage ρ, s'.storages[id]? = some st' ∧ st'.record id = st.record id
  dropped : ∀ id st, s'.storages[id]? = some st →
    new.filter (·.storage = some id) =
      if s'.viewsOf id = 0 ∧ (s.storages.length ≤ id ∨ 0 < s.viewsOf id) then st.record id else []

theorem held_nil (s : State ρ) (id : Nat) : s.held [] id = s.viewsOf id := rfl

namespace Counted

variable {s s' : State ρ}

/-- At the start there is nothing to count. -/
theorem start : Counted [] ({} : State ρ) where
  refs id st h := by cases h
  deleted id st h := by cases h
  released id st h := by cases h
  known r h := by cases h
  views i v h := by cases h
  locals id h := by cases h

/-- The log of a storage, by its views. -/
theorem releasedBy (h : Counted [] s) {id : Nat} {st : Storage ρ}
    (hst : s.storages[id]? = some st) :
    s.released.filter (·.storage = some id) =
      if s.viewsOf id = 0 then st.record id else [] := by
  have gone := h.deleted id st hst
  rw [held_nil] at gone
  rw [h.released id st hst]
  simp only [gone]

/-- The log says nothing about a storage that does not exist yet. -/
theorem unreleased (h : Counted [] s) {id : Nat} (new : s.storages.length ≤ id) :
    s.released.filter (·.storage = some id) = [] := by
  rw [List.filter_eq_nil_iff]
  intro r hr hid
  have := h.known r hr id (of_decide_eq_true hid)
  omega

theorem exact (h : Counted [] s) : Exact s where
  refs := h.refs
  deleted := h.deleted
  released _ _ hst := h.releasedBy hst
  unstored i v hv null := by
    have ok := h.views i v hv
    rw [ViewOk, null] at ok
    exact ok
  stored i v id hv shares := by
    have ok := h.views i v hv
    rw [ViewOk, shares] at ok
    obtain ⟨st, hst, fits⟩ := ok
    obtain ⟨st', hst', live⟩ := h.exists_of_held (held_of_view (L := []) hv shares)
    obtain rfl : st = st' := Option.some.inj (hst.symm.trans hst')
    refine ⟨st, hst, live, fits, capacity_sub fits, ?_⟩
    intro offset size inside room
    exact (subview_sum fits inside room).1

/-- Between two states whose counts are right, the log grows by the storages that have lost their
last view. -/
theorem drops (h : Counted [] s) (h' : Counted [] s') (later : Later s s') :
    ∃ new, Drops s s' new := by
  obtain ⟨new, log⟩ := later.log
  refine ⟨new, log.symm, ?_, ?_⟩
  · intro id st hst
    obtain ⟨st', hst', -, record, -⟩ := later.storages id st hst
    exact ⟨st', hst', record⟩
  · intro id st hst
    have after := h'.releasedBy hst
    rw [← log, List.filter_append] at after
    rcases Nat.lt_or_ge id s.storages.length with old | isNew
    · -- a storage of before: what it is released with is the same, and it is not used again
      obtain ⟨st₀, hst₀⟩ : ∃ st₀, s.storages[id]? = some st₀ :=
        ⟨_, List.getElem?_eq_getElem old⟩
      obtain ⟨st', hst', -, record, stays⟩ := later.storages id st₀ hst₀
      obtain rfl : st = st' := Option.some.inj (hst.symm.trans hst')
      rw [h.releasedBy hst₀, ← record] at after
      by_cases before : s.viewsOf id = 0
      · have still : s'.viewsOf id = 0 :=
          (h'.deleted id st hst).mp (stays ((h.deleted id st₀ hst₀).mpr before))
        rw [if_pos before, if_pos still] at after
        rw [if_neg (by omega)]
        exact List.append_right_eq_self.mp after
      · rw [if_neg before, List.nil_append] at after
        rw [after]
        exact if_congr (by omega) rfl rfl
    · rw [h.unreleased isNew, List.nil_append] at after
      rw [after]
      exact if_congr (by omega) rfl rfl

end Counted

/-- `adopt` refuses its arguments. -/
def refuses (data : BytePtr) (capacity size : UInt64) : Prop :=
  data = .null ∨ capacity = 0 ∨ capacity < size

/-- A refused `adopt` makes no storage, and runs the release function it was given on bytes that
are there. -/
theorem adopt_refused (s : State ρ) {data : BytePtr} {capacity size : UInt64}
    (refused : refuses data capacity size) (nonnull : data ≠ .null) (release : Option ρ)
    (contents : Nat → UInt8) :
    (s.adopt data capacity size release contents).storages = s.storages ∧
      (s.adopt data capacity size release contents).released = s.released ++
        (release.map fun fn => { storage := none, fn := .given fn, bytes := data }).toList := by
  unfold refuses at refused
  unfold State.adopt
  rw [if_pos refused]
  cases release with
  | none => exact ⟨rfl, (List.append_nil _).symm⟩
  | some fn =>
    simp only [if_neg nonnull]
    exact ⟨rfl, rfl⟩

/-- **Reference counting is exact**: after any calls, none of which goes wrong, a storage's count
is the number of its views, its release function has run once if it has none and never otherwise,
and every view is in bounds; a further call releases exactly what loses its last view, and a refused
`adopt` gives the bytes back at once. -/
theorem counts_exact (ops : List (Op ρ)) :
    ∃ s, ({} : State ρ).run ops = .ok s ∧ Exact s ∧
      (∀ op, ∃ s' new, s.call op = .ok s' ∧ Exact s' ∧ Drops s s' new) ∧
      ∀ data capacity size release contents, refuses data capacity size → data ≠ .null →
        ∃ s', s.call (.adopt data capacity size release contents) = .ok s' ∧
          s'.storages = s.storages ∧ s'.released = s.released ++
            (release.map fun fn => { storage := none, fn := .given fn, bytes := data }).toList := by
  obtain ⟨s, run, counted⟩ := Counted.start.run ops
  refine ⟨s, run, counted.exact, ?_, ?_⟩
  · intro op
    obtain ⟨s', call, counted', later⟩ := counted.call op
    obtain ⟨new, drops⟩ := counted.drops counted' later
    exact ⟨s', new, call, counted'.exact, drops⟩
  · intro data capacity size release contents refused nonnull
    exact ⟨_, rfl, adopt_refused s refused nonnull release contents⟩

end Bfc.SharedBuffer
