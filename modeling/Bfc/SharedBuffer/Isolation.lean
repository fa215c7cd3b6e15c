import Bfc.SharedBuffer.Frame

/-!
# Views are isolated

What a modifier or an assignment does to the views of a program: to its own view what it says, and
to no other view anything, whatever the sharing. `reserve` and `resize` keep the bytes in front,
and slices of slices are slices. A move assignment is the one exception, for it has two views: the
one it moves from is left empty.

A program also writes the bytes that a view shows it, so that the states are those that calls and
writes reach.
-/

namespace Bfc.SharedBuffer

open Lts State

variable {ρ : Type}

/-! ## Programs that write bytes -/

namespace State

/-- `data()[k] = byte`, on a byte the view has; a program makes no other write. -/
def write (s : State ρ) (this : Nat) (k : UInt64) (byte : UInt8) : State ρ :=
  match s.view this with
  | .error _ => s
  | .ok v =>
    match v.storage with
    | none => s
    | some id =>
      match s.deref id with
      | .error _ => s
      | .ok st =>
        if k < st.capacity - v.offset then
          s.setStorage id
            { st with contents := fun j =>
                if j = v.offset.toNat + k.toNat then byte else st.contents j }
        else s

end State

/-- What a program does. -/
inductive Action (ρ : Type) where
  | call (op : Op ρ)
  | write (this : Nat) (k : UInt64) (byte : UInt8)

namespace State

def act (s : State ρ) : Action ρ → Except Fault (State ρ)
  | .call op => s.call op
  | .write this k byte => .ok (s.write this k byte)

end State

variable {s s' : State ρ}

theorem Counted.write (h : Counted [] s) (this : Nat) (k : UInt64) (byte : UInt8) :
    Counted [] (s.write this k byte) := by
  unfold State.write
  split
  · exact h
  · split
    · exact h
    · split
      · exact h
      · rename_i v _ _ id _ _ st deref
        split
        · have hst := deref_ok deref
          let written : Storage ρ :=
            { st with contents := fun j =>
                if j = v.offset.toNat + k.toNat then byte else st.contents j }
          exact (h.rewrite hst written [] (s.setStorage id written)
            rfl rfl rfl rfl (fun hd => hd) (List.prefix_refl _) (fun _ _ => rfl)
            (h.refs id st hst) (h.deleted id st hst) (h.released id st hst) (fun _ _ => rfl)
            h.known h.locals).1
        · exact h

/-- Whatever a program does goes through, and keeps the counts. -/
theorem Counted.acts (h : Counted [] s) (acts : List (Action ρ)) :
    ∃ s', acts.foldlM act s = .ok s' ∧ Counted [] s' := by
  refine Lts.foldlM_goes (fun s action counted => ?_) acts h
  cases action with
  | call op =>
    obtain ⟨t, run, counted, -⟩ := counted.call op
    exact ⟨t, run, counted⟩
  | write this k byte => exact ⟨_, rfl, counted.write this k byte⟩

/-! ## The statements -/

/-- Every view outside `T` is what it was, and shows what it showed. -/
def Keeps (T : List Nat) (s s' : State ρ) : Prop :=
  ∀ j u, j ∉ T → s.views[j]? = some (some u) →
    s'.views[j]? = some (some u) ∧ ∃ bytes, s.visible u = .ok bytes ∧ s'.visible u = .ok bytes

/-- The part of a view that `subview` makes. -/
def View.part (v : View) (offset size : UInt64) : View :=
  { storage := v.storage, offset := v.offset + offset, size := size }

/-- `reserve` has given its view room for `capacity` bytes, and it shows what it showed. -/
def Reserved (s s' : State ρ) (this : Nat) (v : View) (capacity : UInt64) : Prop :=
  ∃ v' c bytes, s'.views[this]? = some (some v') ∧ v'.offset = 0 ∧ v'.size = v.size ∧
    s'.capacity v' = .ok c ∧ capacity ≤ c ∧ s.visible v = .ok bytes ∧ s'.visible v' = .ok bytes

/-- `resize` has given its view the size, and it shows in front what it showed. -/
def Resized (s s' : State ρ) (this : Nat) (v : View) (size : UInt64) : Prop :=
  ∃ v' old new, s'.views[this]? = some (some v') ∧ v'.offset = 0 ∧ v'.size = size ∧
    s.visible v = .ok old ∧ s'.visible v' = .ok new ∧
    new.take (min v.size.toNat size.toNat) = old.take (min v.size.toNat size.toNat)

/-- `subview` has made the part that was asked for, or an empty view if there is none. -/
def Sliced (s s' : State ρ) (v : View) (offset size : UInt64) : Prop :=
  if offset.toNat + size.toNat ≤ v.size.toNat then
    s'.views = s.views ++ [some (v.part offset size)] ∧
      ∃ bytes, s.visible v = .ok bytes ∧
        s'.visible (v.part offset size) = .ok ((bytes.drop offset.toNat).take size.toNat)
  else s'.views = s.views ++ [some ({} : View)]

/-- The views of a state are isolated, and its slices compose. -/
structure Isolated (s : State ρ) : Prop where
  clear : ∀ this v, s.views[this]? = some (some v) →
    ∃ s', s.clear this = .ok s' ∧ Keeps [this] s s'
  copyAssign : ∀ this other v o, s.views[this]? = some (some v) →
    s.views[other]? = some (some o) →
    ∃ s', s.copyAssign this other = .ok s' ∧ Keeps [this] s s'
  moveAssign : ∀ this other v o, s.views[this]? = some (some v) →
    s.views[other]? = some (some o) →
    ∃ s', s.moveAssign this other = .ok s' ∧ Keeps [this, other] s s' ∧
      (this ≠ other → s'.views[other]? = some (some {}))
  reserve : ∀ this v, s.views[this]? = some (some v) → ∀ capacity memory,
    ∃ s', s.reserve this capacity memory = .ok s' ∧ Keeps [this] s s' ∧
      if v.offset = 0 then Reserved s s' this v capacity else s' = s
  resize : ∀ this v, s.views[this]? = some (some v) → ∀ size memory,
    ∃ s', s.resize this size memory = .ok s' ∧ Keeps [this] s s' ∧
      if v.offset = 0 then Resized s s' this v size else s' = s
  subview : ∀ this v, s.views[this]? = some (some v) → ∀ offset size,
    ∃ s', s.subview this offset size = .ok s' ∧ Keeps [] s s' ∧ Sliced s s' v offset size
  compose : ∀ this v, s.views[this]? = some (some v) → ∀ a n b m : UInt64,
    a.toNat + n.toNat ≤ v.size.toNat → b.toNat + m.toNat ≤ n.toNat →
    ∃ s₁ s₂ s₃ w bytes, s.subview this a n = .ok s₁ ∧
      s₁.subview s.views.length b m = .ok s₂ ∧ s.subview this (a + b) m = .ok s₃ ∧
      s₂.views[s₁.views.length]? = some (some w) ∧ s₃.views[s.views.length]? = some (some w) ∧
      s₂.visible w = .ok bytes ∧ s₃.visible w = .ok bytes

/-! ## Views between two states -/

namespace Counted

/-- A view of a state is there to be read. -/
theorem visible (h : Counted [] s) {i : Nat} {v : View} (hv : s.views[i]? = some (some v)) :
    ∃ bytes, s.visible v = .ok bytes := by
  cases hs : v.storage with
  | none => exact ⟨[], s.visible_of_none hs⟩
  | some id =>
    obtain ⟨st, hst, live, bounds⟩ := h.exact.stored i v id hv hs
    exact ⟨_, visible_of_storage hs hst live bounds⟩

/-- A view that is in both states, on a storage with the same contents, shows the same. -/
theorem visible_eq (h : Counted [] s) (h' : Counted [] s') {i j : Nat} {v : View}
    (hv : s.views[i]? = some (some v)) (hv' : s'.views[j]? = some (some v))
    (contents : ∀ id st, v.storage = some id → s.storages[id]? = some st →
      ∃ st', s'.storages[id]? = some st' ∧ st'.contents = st.contents) :
    s'.visible v = s.visible v := by
  cases hs : v.storage with
  | none => rw [visible_of_none s hs, visible_of_none s' hs]
  | some id =>
    obtain ⟨st, hst, live, bounds⟩ := h.exact.stored i v id hv hs
    obtain ⟨st', hst', live', bounds'⟩ := h'.exact.stored j v id hv' hs
    obtain ⟨st'', hst'', same⟩ := contents id st hs hst
    obtain rfl := Option.some.inj (hst'.symm.trans hst'')
    rw [visible_of_storage hs hst live bounds, visible_of_storage hs hst' live' bounds', same]

/-- What is apart keeps the views. -/
theorem keeps (h : Counted [] s) (h' : Counted [] s') {T : List Nat}
    (apart : Apart T s.storages.length s s') : Keeps T s s' := by
  intro j u out hu
  have there : s'.views[j]? = some (some u) := by
    rw [apart.views j out (List.getElem?_eq_some_iff.mp hu).1, hu]
  obtain ⟨bytes, shown⟩ := h.visible hu
  refine ⟨there, bytes, shown, ?_⟩
  rw [h.visible_eq h' hu there fun id st _ hst =>
    apart.contents id (List.getElem?_eq_some_iff.mp hst).1 st hst, shown]

/-- Two sizes of one view show the same bytes in front. -/
theorem visible_take (h : Counted [] s) (h' : Counted [] s') {i j : Nat} {v w : View}
    (hv : s.views[i]? = some (some v)) (hw : s'.views[j]? = some (some w))
    (storages : s'.storages = s.storages) (same : w.storage = v.storage)
    (start : w.offset = v.offset) :
    ∃ old new, s.visible v = .ok old ∧ s'.visible w = .ok new ∧
      new.take (min v.size.toNat w.size.toNat) = old.take (min v.size.toNat w.size.toNat) := by
  cases hs : v.storage with
  | none => exact ⟨[], [], s.visible_of_none hs, s'.visible_of_none (same.trans hs), rfl⟩
  | some id =>
    obtain ⟨st, hst, live, bounds⟩ := h.exact.stored i v id hv hs
    obtain ⟨st', hst', live', bounds'⟩ := h'.exact.stored j w id hw (same.trans hs)
    obtain rfl := Option.some.inj (hst.symm.trans (storages ▸ hst'))
    refine ⟨_, _, visible_of_storage hs hst live bounds,
      visible_of_storage (same.trans hs) hst' live' bounds', ?_⟩
    rw [start, ← List.map_take, ← List.map_take, List.take_range, List.take_range]
    congr 2
    omega

/-! ## The operations -/

/-- The growing branch of `reserve`: the view goes to the new storage, with the bytes it shows. -/
theorem moved_to_new (h : Counted [] s) {this : Nat} {v : View} {capacity : UInt64}
    {memory : Nat → UInt8} {u w x : State ρ} (hv : s.views[this]? = some (some v))
    (positive : capacity ≠ 0)
    (fill : (s.allocate capacity memory).fillNext v s.views.length = .ok u)
    (assign : u.moveAssign this s.views.length = .ok w)
    (destroy : w.destroy s.views.length = .ok x) (xcounted : Counted [] x) :
    Apart [this] s.storages.length s x ∧
      ∃ v', x.views[this]? = some (some v') ∧ v'.size = v.size ∧ x.visible v' = s.visible v := by
  obtain ⟨next, hnext⟩ : ∃ next, s.views.length = next := ⟨_, rfl⟩
  obtain ⟨t, ht⟩ : ∃ t, s.allocate capacity memory = t := ⟨_, rfl⟩
  rw [hnext] at fill assign destroy
  rw [ht] at fill
  -- the new storage, and the local object on it
  obtain ⟨st, halloc⟩ : ∃ st : Storage ρ, t = { s with storages := s.storages ++ [st] }.newView
      { storage := some s.storages.length } := ⟨_, by rw [← ht, State.allocate, if_neg positive]⟩
  have tnext : t.views[next]? = some (some { storage := some s.storages.length }) := by
    rw [halloc, ← hnext]
    exact List.getElem?_concat_length
  have tstorage : t.storages[s.storages.length]? = some st := by
    rw [halloc]
    exact List.getElem?_concat_length
  have tthis : t.views[this]? = some (some v) := by
    rw [halloc]
    exact Tables.append_kept hv _
  have tapart : Apart [] s.storages.length s t := ht ▸ allocate_apart s _ capacity memory
  have tcounted : Counted [] t := ht ▸ (h.allocate capacity memory).1
  have tvisible : t.visible v = s.visible v := h.visible_eq tcounted hv tthis fun id st₀ _ h₀ =>
    tapart.contents id (List.getElem?_eq_some_iff.mp h₀).1 st₀ h₀
  -- the bytes go to the storage, and then the storage to the view
  obtain ⟨uviews, st', ustorage, shown⟩ :=
    fillNext_shows tnext tstorage (fun null => (h.exact.unstored this v hv null).2) fill
  have ne : this ≠ next := by
    have := (List.getElem?_eq_some_iff.mp hv).1
    omega
  have unext : u.views[next]? =
      some (some { storage := some s.storages.length, size := v.size }) := by
    rw [uviews, Tables.set_here tnext]
  have xthis : x.views[this]? =
      some (some { storage := some s.storages.length, size := v.size }) := by
    rw [destroy_views destroy, List.getElem?_set_ne (Ne.symm ne),
      moveAssign_views ne unext assign, List.getElem?_set_self]
    rw [List.length_set, uviews, List.length_set]
    exact (List.getElem?_eq_some_iff.mp tthis).1
  have sub : ([next] : List Nat) ⊆ [this, next] := List.subset_cons_self _ _
  have after (n : Nat) : Apart [this, next] n u x :=
    (moveAssign_apart assign).trans ((destroy_apart destroy).mono sub)
  have before : Apart [this, next] s.storages.length s u :=
    (tapart.mono (List.nil_subset _)).trans ((fillNext_apart (Nat.le_refl _) tnext fill).mono sub)
  refine ⟨(before.trans (after _)).of_new fun j mem out => ?_, _, xthis, rfl, ?_⟩
  · rcases List.mem_cons.mp mem with rfl | mem
    · exact absurd (List.mem_singleton_self _) out
    · exact List.mem_singleton.mp mem ▸ Nat.le_of_eq hnext
  · obtain ⟨st₁, hst₁, live, bounds⟩ := xcounted.exact.stored this _ _ xthis rfl
    obtain ⟨st₂, hst₂, same⟩ := (after (s.storages.length + 1)).contents _ (Nat.lt_succ_self _)
      st' ustorage
    obtain rfl := Option.some.inj (hst₁.symm.trans hst₂)
    rw [← tvisible, shown, visible_of_storage rfl hst₁ live bounds, same]
    simp only [UInt64.toNat_zero, Nat.zero_add]

theorem reserve_spec (h : Counted [] s) {this : Nat} {v : View}
    (hv : s.views[this]? = some (some v)) (capacity : UInt64) (memory : Nat → UInt8) :
    ∃ s', s.reserve this capacity memory = .ok s' ∧ Counted [] s' ∧
      Apart [this] s.storages.length s s' ∧
      if v.offset = 0 then Reserved s s' this v capacity else s' = s := by
  obtain ⟨x, run, xcounted, -, v', hv', room⟩ := h.reserve hv capacity memory
  obtain ⟨bytes, shown⟩ := h.visible hv
  refine ⟨x, run, xcounted, ?_⟩
  unfold State.reserve at run
  obtain ⟨w, hw, run⟩ := of_bind_ok run
  obtain rfl := Option.some.inj (Option.some.inj (hv.symm.trans (view_ok hw)))
  obtain ⟨current, hcurrent, run⟩ := of_bind_ok run
  by_cases stays : v.offset ≠ 0 ∨ capacity ≤ current
  · rw [if_pos stays] at run
    obtain rfl := Except.ok.inj run
    refine ⟨.refl _ _ s, ?_⟩
    split
    · rename_i start
      exact ⟨v, current, bytes, hv, start, rfl, hcurrent,
        stays.resolve_left (not_not_intro start), shown, shown⟩
    · rfl
  · have start : v.offset = 0 := by
      by_contra hne
      exact stays (.inl hne)
    have positive : capacity ≠ 0 := by
      rintro rfl
      exact stays (.inr UInt64.zero_le)
    rw [if_neg stays] at run
    obtain ⟨u, fill, run⟩ := of_bind_ok run
    obtain ⟨w, assign, destroy⟩ := of_bind_ok run
    obtain ⟨apart, v₁, hv₁, sized, same⟩ :=
      h.moved_to_new hv positive fill assign destroy xcounted
    obtain rfl := Option.some.inj (Option.some.inj (hv'.symm.trans hv₁))
    obtain ⟨start', c, hc, enough⟩ := room start
    rw [if_pos start]
    exact ⟨apart, v', c, bytes, hv', start', sized, hc, enough, shown, same.trans shown⟩

theorem setSize_ok {this : Nat} {v : View} (hv : s.views[this]? = some (some v)) (size : UInt64) :
    s.setSize this size = .ok (s.setView this { v with size := size }) := by
  simp only [State.setSize, bind, Except.bind, view_eq hv]

theorem resize_spec (h : Counted [] s) {this : Nat} {v : View}
    (hv : s.views[this]? = some (some v)) (size : UInt64) (memory : Nat → UInt8) :
    ∃ s', s.resize this size memory = .ok s' ∧ Counted [] s' ∧
      Apart [this] s.storages.length s s' ∧
      if v.offset = 0 then Resized s s' this v size else s' = s := by
  obtain ⟨x, run, xcounted, -, -⟩ := h.resize hv size memory
  refine ⟨x, run, xcounted, ?_⟩
  unfold State.resize at run
  obtain ⟨w, hw, run⟩ := of_bind_ok run
  obtain rfl := Option.some.inj (Option.some.inj (hv.symm.trans (view_ok hw)))
  by_cases start : v.offset ≠ 0
  · rw [if_pos start] at run
    obtain rfl := Except.ok.inj run
    rw [if_neg start]
    exact ⟨.refl _ _ s, rfl⟩
  · rw [if_neg start] at run
    rw [if_pos (not_not.mp start)]
    obtain ⟨current, hcurrent, run⟩ := of_bind_ok run
    -- the new size is written over a view that shows what it showed
    have written (t : State ρ) (v' : View) (tcounted : Counted [] t)
        (apart : Apart [this] s.storages.length s t) (hv' : t.views[this]? = some (some v'))
        (start' : v'.offset = 0) (sized : v'.size = v.size) (same : t.visible v' = s.visible v)
        (set : t.setSize this size = .ok x) :
        Apart [this] s.storages.length s x ∧ Resized s x this v size := by
      obtain rfl := Except.ok.inj ((setSize_ok hv' size).symm.trans set)
      refine ⟨apart.trans (.setView _ _ t (List.mem_singleton_self this) _), ?_⟩
      have hx : (t.setView this { v' with size := size }).views[this]? =
          some (some { v' with size := size }) :=
        Tables.set_here hv' _
      obtain ⟨old, new, before, now, take⟩ := tcounted.visible_take xcounted hv' hx rfl rfl rfl
      rw [sized] at take
      exact ⟨_, old, new, hx, start', rfl, same ▸ before, now, take⟩
    split at run
    · obtain ⟨t, reserved, set⟩ := of_bind_ok run
      obtain ⟨t', reserved', tcounted, apart, spec⟩ := h.reserve_spec hv size memory
      obtain rfl := Except.ok.inj (reserved.symm.trans reserved')
      rw [if_pos (not_not.mp start)] at spec
      obtain ⟨v', c, bytes, hv', start', sized, -, -, before, now⟩ := spec
      exact written t v' tcounted apart hv' start' sized (now.trans before.symm) set
    · exact written s v h (.refl _ _ s) hv (not_not.mp start) rfl rfl run

/-- The test of `subview` is the one that its sums would make, did they not wrap. -/
theorem in_range {size offset part : UInt64} :
    ¬(size < offset ∨ size - offset < part) ↔ offset.toNat + part.toNat ≤ size.toNat := by
  rw [not_or, UInt64.not_lt, UInt64.not_lt, UInt64.le_iff_toNat_le, UInt64.le_iff_toNat_le]
  constructor
  · rintro ⟨inside, room⟩
    rw [UInt64.toNat_sub_of_le _ _ (UInt64.le_iff_toNat_le.mpr inside)] at room
    omega
  · intro fits
    have inside : offset.toNat ≤ size.toNat := by omega
    rw [UInt64.toNat_sub_of_le _ _ (UInt64.le_iff_toNat_le.mpr inside)]
    omega

/-- A part of a range is the range of the part. -/
theorem part_of_range {α : Type} (f : Nat → α) {offset size whole : Nat}
    (fits : offset + size ≤ whole) :
    (((List.range whole).map f).drop offset).take size =
      (List.range size).map fun k => f (offset + k) := by
  refine List.ext_getElem ?_ fun k _ _ => ?_
  · simp only [List.length_take, List.length_drop, List.length_map, List.length_range]
    omega
  · simp only [List.getElem_take, List.getElem_drop, List.getElem_map, List.getElem_range]

theorem subview_spec (h : Counted [] s) {this : Nat} {v : View}
    (hv : s.views[this]? = some (some v)) (offset size : UInt64) :
    ∃ s', s.subview this offset size = .ok s' ∧ Counted [] s' ∧ Keeps [] s s' ∧
      Sliced s s' v offset size := by
  obtain ⟨x, run, xcounted, -⟩ := h.subview hv offset size
  refine ⟨x, run, xcounted, ?_⟩
  unfold State.subview at run
  obtain ⟨w, hw, run⟩ := of_bind_ok run
  obtain rfl := Option.some.inj (Option.some.inj (hv.symm.trans (view_ok hw)))
  obtain ⟨bytes, shown⟩ := h.visible hv
  split at run
  · rename_i out
    obtain rfl := Except.ok.inj run
    refine ⟨h.keeps xcounted (.newView [] _ s {}), ?_⟩
    unfold Sliced
    split
    · -- the whole of a view without a storage
      rename_i fits
      have null : v.storage = none := out.resolve_right (in_range.mpr fits)
      obtain ⟨start, zero⟩ := h.exact.unstored this v hv null
      rw [zero, UInt64.toNat_zero] at fits
      have emptied : v.part offset size = {} := by
        obtain rfl : offset = 0 := UInt64.toNat_inj.mp (by rw [UInt64.toNat_zero]; omega)
        obtain rfl : size = 0 := UInt64.toNat_inj.mp (by rw [UInt64.toNat_zero]; omega)
        rw [View.part, null, start]
        rfl
      rw [emptied]
      rw [visible_of_none s null] at shown
      obtain rfl := Except.ok.inj shown
      exact ⟨rfl, [], visible_of_none s null, by rw [List.drop_nil, List.take_nil]; rfl⟩
    · rfl
  · rename_i inside
    rw [not_or] at inside
    obtain ⟨t, acquired, run⟩ := of_bind_ok run
    obtain rfl := Except.ok.inj run
    obtain ⟨apart, views⟩ := acquire_apart (n := s.storages.length) acquired
    refine ⟨h.keeps xcounted (apart.trans (.newView [] _ t _)), ?_⟩
    have fits := in_range.mp inside.2
    obtain ⟨id, hs⟩ := Option.ne_none_iff_exists'.mp inside.1
    obtain ⟨st, hst, live, bounds⟩ := h.exact.stored this v id hv hs
    have there : (t.newView (v.part offset size)).views[s.views.length]? =
        some (some (v.part offset size)) := by
      rw [State.newView, views]
      exact List.getElem?_concat_length
    obtain ⟨st₁, hst₁, live₁, bounds₁⟩ := xcounted.exact.stored _ _ id there hs
    obtain ⟨st₂, hst₂, same⟩ := apart.contents id (List.getElem?_eq_some_iff.mp hst).1 st hst
    obtain rfl : st₁ = st₂ := Option.some.inj (hst₁.symm.trans hst₂)
    have sum := bounds.sum offset size (fun hc => inside.2 (.inl hc)) fun hc => inside.2 (.inr hc)
    rw [Sliced, if_pos fits]
    refine ⟨by rw [State.newView, views]; rfl, _, visible_of_storage hs hst live bounds, ?_⟩
    rw [part_of_range _ fits,
      visible_of_storage (v := v.part offset size) hs hst₁ live₁ bounds₁, same]
    simp only [View.part, sum, Nat.add_assoc]

/-- The part of a part. -/
theorem part_part (v : View) (a n b m : UInt64) :
    (v.part a n).part b m = v.part (a + b) m := by
  simp only [View.part, UInt64.add_assoc]

theorem isolated (h : Counted [] s) : Isolated s where
  clear this v hv := by
    obtain ⟨t, run, counted, -⟩ := h.clear hv
    exact ⟨t, run, h.keeps counted (clear_apart run)⟩
  copyAssign this other v o hv ho := by
    obtain ⟨t, run, counted, -⟩ := h.copyAssign hv ho
    exact ⟨t, run, h.keeps counted (copyAssign_apart run)⟩
  moveAssign this other v o hv ho := by
    by_cases same : this = other
    · refine ⟨s, by rw [State.moveAssign, if_pos same], h.keeps h (.refl _ _ s), ?_⟩
      exact fun ne => absurd same ne
    · obtain ⟨t, run, counted, -, views⟩ := h.moveAssign hv ho same
      refine ⟨t, run, h.keeps counted (moveAssign_apart run), fun _ => ?_⟩
      rw [views, List.getElem?_set_ne same, Tables.set_here ho]
  reserve this v hv capacity memory := by
    obtain ⟨t, run, counted, apart, spec⟩ := h.reserve_spec hv capacity memory
    exact ⟨t, run, h.keeps counted apart, spec⟩
  resize this v hv size memory := by
    obtain ⟨t, run, counted, apart, spec⟩ := h.resize_spec hv size memory
    exact ⟨t, run, h.keeps counted apart, spec⟩
  subview this v hv offset size := by
    obtain ⟨t, run, -, spec⟩ := h.subview_spec hv offset size
    exact ⟨t, run, spec⟩
  compose this v hv a n b m first second := by
    have sum : (a + b).toNat = a.toNat + b.toNat := by
      have := v.size.toNat_lt
      rw [UInt64.toNat_add]
      omega
    obtain ⟨s₁, run₁, counted₁, -, sliced₁⟩ := h.subview_spec hv a n
    rw [Sliced, if_pos first] at sliced₁
    obtain ⟨views₁, bytes, shown, shown₁⟩ := sliced₁
    have hv₁ : s₁.views[s.views.length]? = some (some (v.part a n)) := by
      rw [views₁]
      exact List.getElem?_concat_length
    obtain ⟨s₂, run₂, -, -, sliced₂⟩ := counted₁.subview_spec hv₁ b m
    rw [Sliced, if_pos (show _ ≤ (v.part a n).size.toNat from second), part_part] at sliced₂
    obtain ⟨views₂, bytes₁, shown₁', shown₂⟩ := sliced₂
    obtain ⟨s₃, run₃, -, -, sliced₃⟩ := h.subview_spec hv (a + b) m
    rw [Sliced, if_pos (by omega)] at sliced₃
    obtain ⟨views₃, bytes₃, shown', shown₃⟩ := sliced₃
    obtain rfl := Except.ok.inj (shown₁.symm.trans shown₁')
    obtain rfl := Except.ok.inj (shown.symm.trans shown')
    refine ⟨s₁, s₂, s₃, v.part (a + b) m, _, run₁, run₂, run₃, ?_, ?_, shown₂, ?_⟩
    · rw [views₂]
      exact List.getElem?_concat_length
    · rw [views₃]
      exact List.getElem?_concat_length
    · rw [shown₃, List.drop_take, List.drop_drop, List.take_take, sum,
        Nat.min_eq_left (by omega)]

end Counted

/-- **Views are isolated, and slices compose**: whatever a program has done, a modifier or an
assignment changes its own view alone, a move assignment also the one it moves from, which is left
empty; the bytes in front are kept, and parts of parts are parts. -/
theorem views_isolated (acts : List (Action ρ)) :
    ∃ s, acts.foldlM act ({} : State ρ) = .ok s ∧ Isolated s := by
  obtain ⟨s, run, counted⟩ := Counted.start.acts acts
  exact ⟨s, run, counted.isolated⟩

/-- A view of three bytes is assigned to another by a move, and shows nothing any more. -/
theorem move_empties :
    ¬∀ (acts : List (Action Unit)) (s s' : State Unit) (this other : Nat) (v o : View),
      acts.foldlM act {} = .ok s → s.views[this]? = some (some v) →
      s.views[other]? = some (some o) → s.moveAssign this other = .ok s' → Keeps [this] s s' := by
  intro isolated
  have kept := isolated [.call (.copyFrom (some fun _ => 7) 3 fun _ => 0), .call .construct] _ _ 2 0
    _ _ rfl rfl rfl rfl 0 _ (by decide) rfl
  exact absurd kept.1 (by decide)

end Bfc.SharedBuffer
