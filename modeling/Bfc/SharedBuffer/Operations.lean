import Bfc.Lib.Transition
import Bfc.SharedBuffer.Counting

/-!
# Every operation keeps the counts

Each special member, factory and modifier, as transfers of references: from a state whose counts
are right it goes through without a fault to one whose counts are right. `reserve` and `resize`
also say what the view has afterwards, because the callers rely on it. `Counted.call` gathers the
operations over the calls a program can make.
-/

namespace Bfc.SharedBuffer

open References

variable {ρ : Type} {s : State ρ} {L : List Nat}

theorem view_eq {i : Nat} {v : View} (hi : s.views[i]? = some (some v)) : s.view i = .ok v := by
  simp only [State.view, hi]

theorem live_iff {i : Nat} : s.live i = true ↔ ∃ v, s.views[i]? = some (some v) := by
  unfold State.live
  split
  · rename_i v hv
    exact ⟨fun _ => ⟨v, hv⟩, fun _ => rfl⟩
  · rename_i hne
    exact ⟨fun h => (by cases h), fun ⟨v, hv⟩ => (hne v hv).elim⟩

/-- A subview's sums do not wrap, and it stays in its parent. -/
theorem subview_sum {offset size part n capacity : UInt64}
    (fits : offset.toNat + size.toNat ≤ capacity.toNat) (inside : ¬size < part)
    (room : ¬size - part < n) :
    (offset + part).toNat = offset.toNat + part.toNat ∧
      offset.toNat + part.toNat + n.toNat ≤ capacity.toNat := by
  have le : part ≤ size := UInt64.not_lt.mp inside
  have diff : (size - part).toNat = size.toNat - part.toNat := UInt64.toNat_sub_of_le _ _ le
  rw [UInt64.not_lt, UInt64.le_iff_toNat_le, diff] at room
  rw [UInt64.le_iff_toNat_le] at le
  have bound := capacity.toNat_lt
  rw [UInt64.toNat_add]
  omega

/-- What is left of a storage from a view's offset on does not wrap either. -/
theorem capacity_sub {offset size capacity : UInt64}
    (fits : offset.toNat + size.toNat ≤ capacity.toNat) :
    (capacity - offset).toNat = capacity.toNat - offset.toNat := by
  refine UInt64.toNat_sub_of_le _ _ ?_
  rw [UInt64.le_iff_toNat_le]
  omega

namespace Counted

/-- A new empty object. -/
theorem construct (h : Counted L s) : Counted L (s.newView {}) :=
  newView (v := {}) h (viewOk_empty s)

/-- The references of a view are in use. -/
theorem held_storage {i : Nat} {v : View} (hi : s.views[i]? = some (some v)) :
    ∀ id, v.storage = some id → 0 < s.held L id := fun _ hv => held_of_view hi hv

/-! ## The special members -/

theorem copyConstruct (h : Counted L s) {other : Nat} {o : View}
    (ho : s.views[other]? = some (some o)) :
    ∃ s', s.copyConstruct other = .ok s' ∧ Counted L s' ∧ Later s s' := by
  obtain ⟨t, run, counted, views, later⟩ := h.acquire (held_storage ho)
  refine ⟨t.newView o, ?_, counted.newView (later.viewOk (h.views other o ho)),
    later.trans (.of_same rfl rfl)⟩
  simp only [State.copyConstruct, bind, Except.bind, view_eq ho, run]

theorem copyAssign (h : Counted L s) {this other : Nat} {v o : View}
    (hv : s.views[this]? = some (some v)) (ho : s.views[other]? = some (some o)) :
    ∃ s', s.copyAssign this other = .ok s' ∧ Counted L s' ∧ Later s s' := by
  by_cases same : this = other
  · exact ⟨s, by rw [State.copyAssign, if_pos same], h, .refl s⟩
  · obtain ⟨t, run, counted, views, later⟩ := h.acquire (held_storage ho)
    have ok : ViewOk t o := later.viewOk (h.views other o ho)
    have set : Counted (v.storage.toList ++ L) (t.setView this o) :=
      counted.setSlot (some o) (views ▸ hv) fun w hw => Option.some.inj hw ▸ ok
    have written : Later t (t.setView this o) := .of_same rfl rfl
    obtain ⟨u, release, counted, -, last⟩ := set.releaseRef
    refine ⟨u, ?_, counted, later.trans (written.trans last)⟩
    simp only [State.copyAssign, if_neg same, bind, Except.bind, view_eq hv, view_eq ho, run,
      release]

/-- An object is emptied into a local. -/
theorem takeOut (h : Counted L s) {i : Nat} {v : View} (hi : s.views[i]? = some (some v)) :
    Counted (v.storage.toList ++ L) (s.setView i {}) :=
  setSlot (some {}) h hi fun _ hw => Option.some.inj hw ▸ viewOk_empty s

theorem moveConstruct (h : Counted L s) {other : Nat} {o : View}
    (ho : s.views[other]? = some (some o)) :
    ∃ s', s.moveConstruct other = .ok s' ∧ Counted L s' ∧ Later s s' := by
  refine ⟨(s.setView other {}).newView o, ?_, (h.takeOut ho).newView (h.views other o ho),
    .of_same rfl rfl⟩
  simp only [State.moveConstruct, bind, Except.bind, view_eq ho]

/-- The move assignment of two objects: the target has what the source had. -/
theorem moveAssign (h : Counted L s) {this other : Nat} {v o : View}
    (hv : s.views[this]? = some (some v)) (ho : s.views[other]? = some (some o))
    (ne : this ≠ other) :
    ∃ s', s.moveAssign this other = .ok s' ∧ Counted L s' ∧ Later s s' ∧
      s'.views = (s.views.set other (some {})).set this (some o) := by
  have hv' : (s.setView other {}).views[this]? = some (some v) := by
    rw [State.setView, List.getElem?_set_ne (Ne.symm ne), hv]
  have set : Counted (v.storage.toList ++ L) ((s.setView other {}).setView this o) :=
    (h.takeOut ho).setSlot (some o) hv'
      fun w hw => Option.some.inj hw ▸ h.views other o ho
  have written : Later s ((s.setView other {}).setView this o) := .of_same rfl rfl
  obtain ⟨t, release, counted, views, later⟩ := set.releaseRef
  refine ⟨t, ?_, counted, written.trans later, views⟩
  simp only [State.moveAssign, if_neg ne, bind, Except.bind, view_eq hv, view_eq ho, release]

theorem destroy (h : Counted L s) {this : Nat} {v : View}
    (hv : s.views[this]? = some (some v)) :
    ∃ s', s.destroy this = .ok s' ∧ Counted L s' ∧ Later s s' ∧
      s'.views = s.views.set this none := by
  have set : Counted (v.storage.toList ++ L) { s with views := s.views.set this none } :=
    setSlot none h hv fun w hw => by cases hw
  have written : Later s { s with views := s.views.set this none } := .of_same rfl rfl
  obtain ⟨t, release, counted, views, later⟩ := set.releaseRef
  refine ⟨t, ?_, counted, written.trans later, views⟩
  simp only [State.destroy, bind, Except.bind, view_eq hv, release]

theorem clear (h : Counted L s) {this : Nat} {v : View} (hv : s.views[this]? = some (some v)) :
    ∃ s', s.clear this = .ok s' ∧ Counted L s' ∧ Later s s' := by
  have written : Later s (s.setView this {}) := .of_same rfl rfl
  obtain ⟨t, release, counted, -, later⟩ := (h.takeOut hv).releaseRef
  refine ⟨t, ?_, counted, written.trans later⟩
  simp only [State.clear, bind, Except.bind, view_eq hv, release]

theorem subview (h : Counted L s) {this : Nat} {v : View} (hv : s.views[this]? = some (some v))
    (offset size : UInt64) :
    ∃ s', s.subview this offset size = .ok s' ∧ Counted L s' ∧ Later s s' := by
  by_cases out : v.storage = none ∨ v.size < offset ∨ v.size - offset < size
  · refine ⟨s.newView {}, ?_, h.construct, .of_same rfl rfl⟩
    simp only [State.subview, bind, Except.bind, view_eq hv, if_pos out]
  · obtain ⟨t, run, counted, views, later⟩ := h.acquire (held_storage hv)
    have ok := h.views this v hv
    have ok' : ViewOk t { storage := v.storage, offset := v.offset + offset, size := size } := by
      refine later.viewOk ?_
      unfold ViewOk at ok ⊢
      cases hs : v.storage with
      | none => exact absurd (.inl hs) out
      | some id =>
        simp only [hs] at ok ⊢
        obtain ⟨st, hst, fits⟩ := ok
        have sums := subview_sum fits (fun hc => out (.inr (.inl hc)))
          (fun hc => out (.inr (.inr hc)))
        exact ⟨st, hst, by rw [sums.1]; exact sums.2⟩
    refine ⟨_, ?_, newView (v := { v with offset := v.offset + offset, size := size }) counted ok',
      later.trans (.of_same rfl rfl)⟩
    simp only [State.subview, bind, Except.bind, view_eq hv, if_neg out, run]

/-! ## The factories -/

/-- A new storage changes no other. -/
theorem later_newStorage (s : State ρ) (st : Storage ρ) :
    Later s { s with storages := s.storages ++ [st] } where
  storages _ st₁ h₁ :=
    ⟨st₁, Tables.append_kept h₁ _, rfl, rfl, fun hd => hd⟩
  log := List.prefix_refl _

/-- A new storage comes with one reference, in a local. -/
theorem newStorage (h : Counted L s) {st : Storage ρ} (refs : st.refs = 1)
    (live : st.deleted = false) :
    Counted (s.storages.length :: L) { s with storages := s.storages ++ [st] } := by
  -- nothing refers to a storage that does not exist yet
  have unheld : s.held L s.storages.length = 0 := by
    by_contra hne
    obtain ⟨st', hst', -⟩ := h.exists_of_held (Nat.pos_of_ne_zero hne)
    exact absurd (List.getElem?_eq_some_iff.mp hst').1 (Nat.lt_irrefl _)
  have unlogged : s.released.filter (·.storage = some s.storages.length) = [] := by
    rw [List.filter_eq_nil_iff]
    intro r hr hid
    exact absurd (h.known r hr _ (of_decide_eq_true hid)) (Nat.lt_irrefl _)
  have later := later_newStorage s st
  have find : ∀ (id : Nat) (st₁ : Storage ρ), (s.storages ++ [st])[id]? = some st₁ →
      id = s.storages.length ∧ st₁ = st ∨ id ≠ s.storages.length ∧ s.storages[id]? = some st₁ :=
    fun _ _ => Tables.append_cases
  have heldNew : ({ s with storages := s.storages ++ [st] } : State ρ).held
      (s.storages.length :: L) s.storages.length = 1 := by
    show s.held (s.storages.length :: L) s.storages.length = 1
    rw [State.held] at unheld ⊢
    rw [List.count_cons_self]
    omega
  have heldOther : ∀ id, id ≠ s.storages.length →
      ({ s with storages := s.storages ++ [st] } : State ρ).held (s.storages.length :: L) id =
        s.held L id := by
    intro id hne
    show s.held (s.storages.length :: L) id = s.held L id
    rw [State.held, List.count_cons_of_ne (Ne.symm hne)]
    rfl
  refine ⟨?_, ?_, ?_, ?_, ?_, ?_⟩
  · intro id st₁ h₁
    obtain ⟨rfl, rfl⟩ | ⟨hne, h₁⟩ := find id st₁ h₁
    · rw [refs, heldNew]
      rfl
    · rw [heldOther id hne]
      exact h.refs id st₁ h₁
  · intro id st₁ h₁
    obtain ⟨rfl, rfl⟩ | ⟨hne, h₁⟩ := find id st₁ h₁
    · rw [live, heldNew]
      simp
    · rw [heldOther id hne]
      exact h.deleted id st₁ h₁
  · intro id st₁ h₁
    obtain ⟨rfl, rfl⟩ | ⟨hne, h₁⟩ := find id st₁ h₁
    · rw [live]
      exact unlogged
    · exact h.released id st₁ h₁
  · intro r hr id hid
    have := h.known r hr id hid
    rw [List.length_append]
    omega
  · exact fun i v hv => later.viewOk (h.views i v hv)
  · intro id hid
    rw [List.length_append, List.length_singleton]
    rcases List.mem_cons.mp hid with rfl | hid
    · omega
    · have := h.locals id hid
      omega

/-- A new object on a new storage. -/
theorem onStorage (h : Counted L s) {st : Storage ρ} (refs : st.refs = 1)
    (live : st.deleted = false) {size : UInt64} (fits : size.toNat ≤ st.capacity.toNat) :
    Counted L ({ s with storages := s.storages ++ [st] }.newView
      { storage := some s.storages.length, size := size }) ∧
      Later s ({ s with storages := s.storages ++ [st] }.newView
        { storage := some s.storages.length, size := size }) := by
  refine ⟨newView (v := { storage := some s.storages.length, size := size })
    (h.newStorage refs live) ⟨st, ?_, ?_⟩, (later_newStorage s st).trans (.of_same rfl rfl)⟩
  · exact List.getElem?_concat_length
  · show (0 : UInt64).toNat + size.toNat ≤ _
    rw [UInt64.toNat_zero, Nat.zero_add]
    exact fits

theorem allocate (h : Counted L s) (capacity : UInt64) (memory : Nat → UInt8) :
    Counted L (s.allocate capacity memory) ∧ Later s (s.allocate capacity memory) := by
  unfold State.allocate
  split
  · exact ⟨h.construct, .of_same rfl rfl⟩
  · exact h.onStorage rfl rfl (Nat.zero_le _)

theorem adopt (h : Counted L s) (data : BytePtr) (capacity size : UInt64) (release : Option ρ)
    (contents : Nat → UInt8) :
    Counted L (s.adopt data capacity size release contents) ∧
      Later s (s.adopt data capacity size release contents) := by
  unfold State.adopt
  split
  · have quiet : Counted L (s.newView {}) ∧ Later s (s.newView {}) :=
      ⟨h.construct, .of_same rfl rfl⟩
    split
    · exact quiet
    · split
      · exact quiet
      · -- a refusal is logged for no storage
        refine ⟨construct { h with
          released := fun id st hst => ?_, known := fun r hr id hid => ?_ }, ?_⟩
        · rw [List.filter_append, h.released id st hst]
          simp
        · rcases List.mem_append.mp hr with hr | hr
          · exact h.known r hr id hid
          · rw [List.mem_singleton.mp hr] at hid
            cases hid
        · exact ⟨fun _ st hst => ⟨st, hst, rfl, rfl, fun hd => hd⟩, List.prefix_append _ _⟩
  · rename_i valid
    refine h.onStorage rfl rfl ?_
    have : ¬capacity < size := fun hc => valid (.inr (.inr hc))
    exact UInt64.le_iff_toNat_le.mp (UInt64.not_lt.mp this)

/-! ## The modifiers -/

/-- What a view has room for, and that any size within it is in order. -/
theorem capacity (h : Counted L s) {i : Nat} {v : View} (hi : s.views[i]? = some (some v)) :
    ∃ c, s.capacity v = .ok c ∧ v.size ≤ c ∧
      (∀ size, size ≤ c → ViewOk s { v with size := size }) ∧
      ∀ id, v.storage = some id →
        ∃ st, s.storages[id]? = some st ∧ s.deref id = .ok st ∧ c = st.capacity - v.offset := by
  have ok := h.views i v hi
  unfold ViewOk at ok
  cases hs : v.storage with
  | none =>
    rw [hs] at ok
    refine ⟨0, by rw [State.capacity, hs], by rw [ok.2]; exact Nat.le_refl _, ?_, ?_⟩
    · intro size le
      refine ⟨ok.1, ?_⟩
      rw [UInt64.le_iff_toNat_le, UInt64.toNat_zero, Nat.le_zero] at le
      exact UInt64.toNat_inj.mp le
    · intro id hid
      cases hid
  | some id =>
    obtain ⟨st, hst, deref⟩ := h.deref (held_of_view hi hs)
    rw [hs] at ok
    obtain ⟨st', hst', fits⟩ := ok
    obtain rfl : st = st' := Option.some.inj (hst.symm.trans hst')
    have room := capacity_sub fits
    refine ⟨st.capacity - v.offset, ?_, ?_, ?_, ?_⟩
    · simp only [State.capacity, hs, bind, Except.bind, deref]
    · rw [UInt64.le_iff_toNat_le, room]
      omega
    · intro size le
      rw [UInt64.le_iff_toNat_le, room] at le
      exact ⟨st, hst, by dsimp only; omega⟩
    · intro id' hid
      obtain rfl := Option.some.inj hid
      exact ⟨st, hst, deref, rfl⟩

/-- A view changes within its storage. -/
theorem within (h : Counted L s) {i : Nat} {v w : View} (hi : s.views[i]? = some (some v))
    (same : w.storage = v.storage) (ok : ViewOk s w) : Counted L (s.setView i w) := by
  refine h.transfer rfl rfl (fun id => ?_) (fun j u hu => ?_) h.locals
  · have set := holders_set View.storage hi (some w) id
    rw [target_some, target_some, same] at set
    show holders View.storage (s.views.set i (some w)) id + L.count id = s.viewsOf id + L.count id
    rw [State.viewsOf]
    omega
  · rcases Tables.set_cases hi hu with ⟨-, written⟩ | ⟨-, old⟩
    · exact (Option.some.inj written).symm ▸ ok
    · exact h.views j u old

/-- Bytes are copied into a storage that has room for them. -/
theorem copyBytes (h : Counted L s) {i id : Nat} {v : View} (hi : s.views[i]? = some (some v))
    (hv : v.storage = some id) {n : UInt64}
    (fits : ∀ st, s.storages[id]? = some st → n ≤ st.capacity) (bytes : Nat → UInt8) :
    ∃ s', s.copyBytes id n bytes = .ok s' ∧ Counted L s' ∧ s'.views = s.views ∧ Later s s' := by
  obtain ⟨st, hst, deref⟩ := h.deref (held_of_view (L := L) hi hv)
  have room : ¬st.capacity < n := UInt64.not_lt.mpr (fits st hst)
  have step := h.rewrite hst
    { st with contents := fun k => if k < n.toNat then bytes k else st.contents k } L
    (s.setStorage id
      { st with contents := fun k => if k < n.toNat then bytes k else st.contents k })
    rfl rfl rfl rfl (fun hd => hd) (List.prefix_refl _) (fun _ _ => rfl) (h.refs id st hst)
    (h.deleted id st hst) (h.released id st hst) (fun _ _ => rfl) h.known h.locals
  refine ⟨_, ?_, step.1, rfl, step.2⟩
  simp only [State.copyBytes, bind, Except.bind, deref, if_neg room]

/-- The bytes of a view are there to be read. -/
theorem bytesOf (h : Counted L s) {i : Nat} {v : View} (hi : s.views[i]? = some (some v))
    (shown : State.empty v = false) : ∃ bytes, s.bytesOf v = .ok bytes := by
  obtain ⟨c, -, fits, -, storage⟩ := h.capacity hi
  cases hs : v.storage with
  | none => simp [State.empty, hs] at shown
  | some id =>
    obtain ⟨st, -, deref, rfl⟩ := storage id hs
    refine ⟨fun k => st.contents (v.offset.toNat + k), ?_⟩
    simp only [State.bytesOf, hs, bind, Except.bind, deref, if_neg (UInt64.not_lt.mpr fits)]

/-- The middle of `reserve`: the bytes of the view go to the new storage, if it shows any, and the
new object shows as many. -/
theorem fillNext (h : Counted L s) {this next id : Nat} {v : View} {st : Storage ρ}
    (hv : s.views[this]? = some (some v)) (hn : s.views[next]? = some (some { storage := some id }))
    (ne : this ≠ next) (hst : s.storages[id]? = some st) (fits : v.size ≤ st.capacity) :
    ∃ (s' : State ρ) (n : View), s.fillNext v next = .ok s' ∧
      Counted L s' ∧ s'.views[next]? = some (some n) ∧ s'.views[this]? = some (some v) ∧
      n.storage = some id ∧ n.offset = 0 ∧ Later s s' := by
  by_cases shown : State.empty v = true
  · refine ⟨s, { storage := some id }, ?_, h, hn, hv, rfl, rfl, .refl s⟩
    rw [State.fillNext, if_pos shown]
  · obtain ⟨bytes, hbytes⟩ := h.bytesOf hv (Bool.not_eq_true _ ▸ shown)
    obtain ⟨t, copy, counted, views, later⟩ := h.copyBytes hn rfl
      (fun st' hst' => by rw [hst] at hst'; exact Option.some.inj hst' ▸ fits) bytes
    have ok : ViewOk t { storage := some id, size := v.size } := by
      refine later.viewOk ⟨st, hst, ?_⟩
      show (0 : UInt64).toNat + v.size.toNat ≤ _
      rw [UInt64.toNat_zero, Nat.zero_add]
      exact UInt64.le_iff_toNat_le.mp fits
    rw [← views] at hn hv
    refine ⟨t.setView next { storage := some id, size := v.size },
      { storage := some id, size := v.size }, ?_, counted.within hn rfl ok, ?_, ?_, rfl, rfl,
      later.trans (.of_same rfl rfl)⟩
    · rw [State.fillNext, if_neg shown]
      simp only [bind, Except.bind, hbytes, view_eq (views ▸ hn), copy]
    · exact Tables.set_here hn _
    · rw [State.setView, List.getElem?_set_ne (Ne.symm ne), hv]

/-- `reserve` leaves a view that has room for what was asked, unless it is a subview. -/
theorem reserve (h : Counted L s) {this : Nat} {v : View} (hv : s.views[this]? = some (some v))
    (capacity : UInt64) (memory : Nat → UInt8) :
    ∃ s', s.reserve this capacity memory = .ok s' ∧ Counted L s' ∧ Later s s' ∧
      ∃ v', s'.views[this]? = some (some v') ∧
        (v.offset = 0 → v'.offset = 0 ∧ ∃ c, s'.capacity v' = .ok c ∧ capacity ≤ c) := by
  obtain ⟨current, hcurrent, fits, -, storage⟩ := h.capacity hv
  by_cases stays : v.offset ≠ 0 ∨ capacity ≤ current
  · refine ⟨s, ?_, h, .refl s, v, hv, fun start => ⟨start, current, hcurrent, ?_⟩⟩
    · simp only [State.reserve, bind, Except.bind, view_eq hv, hcurrent, if_pos stays]
    · exact stays.resolve_left (not_not_intro start)
  · have start : v.offset = 0 := by
      by_contra hne
      exact stays (.inl hne)
    have grows : current < capacity := UInt64.not_le.mp fun hc => stays (.inr hc)
    have positive : capacity ≠ 0 := by
      rintro rfl
      exact absurd grows (UInt64.not_lt.mpr (UInt64.zero_le))
    -- the new storage, and the local object on it
    obtain ⟨st, hst, halloc⟩ : ∃ st : Storage ρ, st.capacity = capacity ∧
        s.allocate capacity memory = { s with storages := s.storages ++ [st] }.newView
          { storage := some s.storages.length } :=
      ⟨_, rfl, by rw [State.allocate, if_neg positive]⟩
    obtain ⟨counted, slater⟩ := h.allocate capacity memory
    obtain ⟨t, ht⟩ : ∃ t, s.allocate capacity memory = t := ⟨_, rfl⟩
    obtain ⟨next, hnext⟩ : ∃ next, s.views.length = next := ⟨_, rfl⟩
    rw [ht] at counted halloc slater
    have ne : this ≠ next := by
      have := (List.getElem?_eq_some_iff.mp hv).1
      omega
    have tnext : t.views[next]? = some (some { storage := some s.storages.length }) := by
      rw [halloc, State.newView, ← hnext, List.getElem?_concat_length]
    have tthis : t.views[this]? = some (some v) := by
      rw [halloc]
      exact Tables.append_kept hv _
    have tstorage : t.storages[s.storages.length]? = some st := by
      rw [halloc]
      exact List.getElem?_concat_length
    obtain ⟨u, n, fill, ucounted, unext, uthis, nstorage, noffset, ulater⟩ :=
      counted.fillNext tthis tnext ne tstorage
        (hst ▸ UInt64.le_of_lt (UInt64.lt_of_le_of_lt fits grows))
    obtain ⟨w, assign, wcounted, wlater, wviews⟩ := ucounted.moveAssign uthis unext ne
    have wnext : w.views[next]? = some (some {}) := by
      rw [wviews, List.getElem?_set_ne ne, Tables.set_here unext]
    obtain ⟨x, destroy, xcounted, xlater, xviews⟩ := wcounted.destroy wnext
    have xthis : x.views[this]? = some (some n) := by
      rw [xviews, List.getElem?_set_ne (Ne.symm ne), wviews, List.getElem?_set_self]
      rw [List.length_set]
      exact (List.getElem?_eq_some_iff.mp uthis).1
    have tlater := ulater.trans (wlater.trans xlater)
    refine ⟨x, ?_, xcounted, slater.trans tlater, n, xthis, fun _ => ⟨noffset, ?_⟩⟩
    · unfold State.reserve
      simp only [bind, Except.bind, view_eq hv, hcurrent, if_neg stays, ht, hnext, fill, assign,
        destroy]
    · obtain ⟨c, hc, -, -, room⟩ := xcounted.capacity xthis
      obtain ⟨st', hst', -, rfl⟩ := room _ nstorage
      obtain ⟨st'', hst'', same, -⟩ := tlater.storages _ st tstorage
      obtain rfl : st' = st'' := Option.some.inj (hst'.symm.trans hst'')
      refine ⟨_, hc, ?_⟩
      rw [noffset, same, hst, UInt64.sub_zero]
      exact UInt64.le_refl _

/-- A view with room for it gets a new size. -/
theorem setSize (h : Counted L s) {this : Nat} {v : View} (hv : s.views[this]? = some (some v))
    {size c : UInt64} (room : s.capacity v = .ok c) (fits : size ≤ c) :
    ∃ s', s.setSize this size = .ok s' ∧ Counted L s' ∧ Later s s' ∧
      s'.views[this]? = some (some { v with size := size }) := by
  obtain ⟨c', hc', -, ok, -⟩ := h.capacity hv
  obtain rfl : c = c' := Except.ok.inj (room.symm.trans hc')
  refine ⟨s.setView this { v with size := size }, ?_, h.within hv rfl (ok size fits),
    .of_same rfl rfl, ?_⟩
  · simp only [State.setSize, bind, Except.bind, view_eq hv]
  · exact Tables.set_here hv _

/-- `resize` gives a view that is no subview the size asked for. -/
theorem resize (h : Counted L s) {this : Nat} {v : View} (hv : s.views[this]? = some (some v))
    (size : UInt64) (memory : Nat → UInt8) :
    ∃ s', s.resize this size memory = .ok s' ∧ Counted L s' ∧ Later s s' ∧
      ∃ v', s'.views[this]? = some (some v') ∧
        (v.offset = 0 → v'.size = size ∧ v'.offset = 0) := by
  by_cases start : v.offset ≠ 0
  · refine ⟨s, ?_, h, .refl s, v, hv, fun hc => absurd hc start⟩
    simp only [State.resize, bind, Except.bind, view_eq hv, if_pos start]
  · obtain ⟨current, hcurrent, -, -, -⟩ := h.capacity hv
    by_cases grows : current < size
    · obtain ⟨t, reserve, counted, tlater, v', hv', room⟩ := h.reserve hv size memory
      obtain ⟨start', c, hc, fits⟩ := room (not_not.mp start)
      obtain ⟨u, set, ucounted, ulater, hu⟩ := counted.setSize hv' hc fits
      refine ⟨u, ?_, ucounted, tlater.trans ulater, _, hu, fun _ => ⟨rfl, start'⟩⟩
      simp only [State.resize, bind, Except.bind, view_eq hv, if_neg start, hcurrent,
        if_pos grows, reserve, set]
    · obtain ⟨u, set, ucounted, ulater, hu⟩ := h.setSize hv hcurrent (UInt64.not_lt.mp grows)
      refine ⟨u, ?_, ucounted, ulater, _, hu, fun hc => ⟨rfl, hc⟩⟩
      simp only [State.resize, bind, Except.bind, view_eq hv, if_neg start, hcurrent,
        if_neg grows, set]

theorem copyFrom (h : Counted L s) (data : Option (Nat → UInt8)) (size : UInt64)
    (memory : Nat → UInt8) :
    ∃ s', s.copyFrom data size memory = .ok s' ∧ Counted L s' ∧ Later s s' := by
  have counted := h.construct
  have made : Later s (s.newView {}) := .of_same rfl rfl
  cases data with
  | none => exact ⟨_, rfl, counted, made⟩
  | some bytes =>
    by_cases zero : size = 0
    · refine ⟨s.newView {}, ?_, counted, made⟩
      simp only [State.copyFrom, if_pos zero]
    · have hout : (s.newView {}).views[s.views.length]? = some (some {}) := by
        rw [State.newView, List.getElem?_concat_length]
      obtain ⟨t, resize, tcounted, tlater, v, hv, sized⟩ := counted.resize hout size memory
      obtain ⟨hsize, hoffset⟩ := sized rfl
      have ok := tcounted.views _ v hv
      -- a view of non-zero size has a storage, with room for its bytes
      cases hs : v.storage with
      | none =>
        rw [ViewOk, hs] at ok
        exact absurd (hsize.symm.trans ok.2) zero
      | some id =>
        rw [ViewOk, hs] at ok
        obtain ⟨st, hst, fits⟩ := ok
        obtain ⟨u, copy, ucounted, -, ulater⟩ := tcounted.copyBytes hv hs (n := size)
          (fun st' hst' => by
            obtain rfl : st = st' := Option.some.inj (hst.symm.trans hst')
            rw [UInt64.le_iff_toNat_le, ← hsize]
            omega) bytes
        refine ⟨u, ?_, ucounted, made.trans (tlater.trans ulater)⟩
        simp only [State.copyFrom, if_neg zero, bind, Except.bind, resize, view_eq hv, hs, copy]

/-! ## Calls -/

/-- **Every call goes through, and keeps the counts.** -/
theorem call (h : Counted [] s) (op : Op ρ) :
    ∃ s', s.call op = .ok s' ∧ Counted [] s' ∧ Later s s' := by
  unfold State.call
  by_cases live : op.objects.all s.live = true
  · rw [if_pos live]
    rw [List.all_eq_true] at live
    have object : ∀ i ∈ op.objects, ∃ v, s.views[i]? = some (some v) :=
      fun i hi => live_iff.mp (live i hi)
    cases op with
    | construct => exact ⟨_, rfl, h.construct, .of_same rfl rfl⟩
    | copyConstruct other =>
      obtain ⟨o, ho⟩ := object other (List.mem_singleton_self _)
      exact h.copyConstruct ho
    | copyAssign this other =>
      obtain ⟨v, hv⟩ := object this (by simp [Op.objects])
      obtain ⟨o, ho⟩ := object other (by simp [Op.objects])
      exact h.copyAssign hv ho
    | moveConstruct other =>
      obtain ⟨o, ho⟩ := object other (List.mem_singleton_self _)
      exact h.moveConstruct ho
    | moveAssign this other =>
      obtain ⟨v, hv⟩ := object this (by simp [Op.objects])
      obtain ⟨o, ho⟩ := object other (by simp [Op.objects])
      by_cases same : this = other
      · exact ⟨s, by rw [State.perform, State.moveAssign, if_pos same], h, .refl s⟩
      · obtain ⟨t, run, counted, later, -⟩ := h.moveAssign hv ho same
        exact ⟨t, run, counted, later⟩
    | destroy this =>
      obtain ⟨v, hv⟩ := object this (List.mem_singleton_self _)
      obtain ⟨t, run, counted, later, -⟩ := h.destroy hv
      exact ⟨t, run, counted, later⟩
    | copyFrom data size memory => exact h.copyFrom data size memory
    | allocate capacity memory => exact ⟨_, rfl, h.allocate capacity memory⟩
    | adopt data capacity size release contents =>
      exact ⟨_, rfl, h.adopt data capacity size release contents⟩
    | clear this =>
      obtain ⟨v, hv⟩ := object this (List.mem_singleton_self _)
      exact h.clear hv
    | reserve this capacity memory =>
      obtain ⟨v, hv⟩ := object this (List.mem_singleton_self _)
      obtain ⟨t, run, counted, later, -⟩ := h.reserve hv capacity memory
      exact ⟨t, run, counted, later⟩
    | resize this size memory =>
      obtain ⟨v, hv⟩ := object this (List.mem_singleton_self _)
      obtain ⟨t, run, counted, later, -⟩ := h.resize hv size memory
      exact ⟨t, run, counted, later⟩
    | subview this offset size =>
      obtain ⟨v, hv⟩ := object this (List.mem_singleton_self _)
      exact h.subview hv offset size
  · rw [if_neg live]
    exact ⟨s, rfl, h, .refl s⟩

/-- So does every sequence of calls. -/
theorem run (h : Counted [] s) (ops : List (Op ρ)) :
    ∃ s', s.run ops = .ok s' ∧ Counted [] s' := by
  refine Lts.foldlM_goes (fun s op counted => ?_) ops h
  obtain ⟨t, run, counted, -⟩ := counted.call op
  exact ⟨t, run, counted⟩

end Counted

end Bfc.SharedBuffer
