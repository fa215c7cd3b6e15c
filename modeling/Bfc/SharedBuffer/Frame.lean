import Bfc.SharedBuffer.Exact

/-!
# What an operation leaves alone

`Apart T n s s'` says that the objects outside `T` and the contents of the first `n` storages are
the same in `s'` as in `s`. The steps of the operations are each apart from what they do not name,
and so is their composition; the bytes that `reserve` copies go to a storage that did not exist
before. A view outside `T` then shows what it showed.
-/

namespace Bfc.SharedBuffer

open Lts

variable {ρ : Type}

namespace State

/-- The bytes that a view shows to its reader. -/
def visible (s : State ρ) (v : View) : Except Fault (List UInt8) :=
  if empty v then .ok []
  else do
    let bytes ← s.bytesOf v
    .ok ((List.range v.size.toNat).map bytes)

/-- A view without a storage shows nothing. -/
theorem visible_of_none (s : State ρ) {v : View} (hv : v.storage = none) :
    s.visible v = .ok [] := by
  rw [visible, empty, hv]
  rfl

/-- A view shows its part of its storage. -/
theorem visible_of_storage {s : State ρ} {v : View} {id : Nat} {st : Storage ρ}
    (hv : v.storage = some id) (hst : s.storages[id]? = some st) (live : st.deleted = false)
    (bounds : InBounds st v) :
    s.visible v =
      .ok ((List.range v.size.toNat).map fun k => st.contents (v.offset.toNat + k)) := by
  unfold visible
  split
  · rename_i hidden
    rw [empty, hv, Option.isNone_some, Bool.false_or, decide_eq_true_eq] at hidden
    rw [hidden]
    rfl
  · have fits : ¬st.capacity - v.offset < v.size := by
      have := bounds.fits
      rw [UInt64.not_lt, UInt64.le_iff_toNat_le, bounds.capacity]
      omega
    simp only [bytesOf, hv, deref, hst, live, Bool.false_eq_true, if_false, if_neg fits, bind,
      Except.bind]

end State

open State

/-! ## The frame of a step -/

/-- The objects outside `T` and the contents of the first `n` storages stay. -/
structure Apart (T : List Nat) (n : Nat) (s s' : State ρ) : Prop where
  views : ∀ j ∉ T, j < s.views.length → s'.views[j]? = s.views[j]?
  length : s.views.length ≤ s'.views.length
  contents : ∀ id < n, ∀ st, s.storages[id]? = some st →
    ∃ st', s'.storages[id]? = some st' ∧ st'.contents = st.contents

namespace Apart

variable {T : List Nat} {n : Nat} {s t u : State ρ}

theorem refl (T : List Nat) (n : Nat) (s : State ρ) : Apart T n s s where
  views _ _ _ := rfl
  length := Nat.le_refl _
  contents _ _ st hst := ⟨st, hst, rfl⟩

theorem trans (h : Apart T n s t) (h' : Apart T n t u) : Apart T n s u where
  views j hj inside :=
    (h'.views j hj (Nat.lt_of_lt_of_le inside h.length)).trans (h.views j hj inside)
  length := Nat.le_trans h.length h'.length
  contents id hid st hst := by
    obtain ⟨st₁, h₁, same₁⟩ := h.contents id hid st hst
    obtain ⟨st₂, h₂, same₂⟩ := h'.contents id hid st₁ h₁
    exact ⟨st₂, h₂, same₂.trans same₁⟩

/-- Objects that were not there need not be named. -/
theorem of_new {T' : List Nat} (h : Apart T' n s t)
    (new : ∀ j ∈ T', j ∉ T → s.views.length ≤ j) : Apart T n s t where
  views j hj inside := by
    refine h.views j (fun mem => ?_) inside
    exact absurd inside (Nat.not_lt.mpr (new j mem hj))
  length := h.length
  contents := h.contents

theorem mono {T' : List Nat} (h : Apart T' n s t) (sub : T' ⊆ T) : Apart T n s t :=
  h.of_new fun _ mem out => absurd (sub mem) out

/-- Objects change, storages do not. -/
theorem of_views (storages : t.storages = s.storages) (length : s.views.length ≤ t.views.length)
    (views : ∀ j ∉ T, j < s.views.length → t.views[j]? = s.views[j]?) : Apart T n s t where
  views := views
  length := length
  contents _ _ st hst := ⟨st, storages ▸ hst, rfl⟩

theorem setView (T : List Nat) (n : Nat) (s : State ρ) {i : Nat} (mem : i ∈ T) (v : View) :
    Apart T n s (s.setView i v) := by
  refine of_views rfl (Nat.le_of_eq List.length_set.symm) fun j hj _ => ?_
  exact List.getElem?_set_ne (ne_of_mem_of_not_mem mem hj)

theorem newView (T : List Nat) (n : Nat) (s : State ρ) (v : View) : Apart T n s (s.newView v) :=
  of_views rfl (List.length_append ▸ Nat.le_add_right _ _) fun _ _ inside =>
    List.getElem?_append_left inside

/-- A storage is rewritten, and its contents only if it is a later one. -/
theorem setStorage (T : List Nat) {id : Nat} {st st' : Storage ρ} {log : List (Released ρ)}
    (hst : s.storages[id]? = some st) (same : id < n → st'.contents = st.contents) :
    Apart T n s { s with storages := s.storages.set id st', released := log } where
  views _ _ _ := rfl
  length := Nat.le_refl _
  contents id' hid st₁ h₁ := by
    refine Tables.set_kept hst h₁ rfl ?_
    rintro rfl rfl
    exact same hid

end Apart

/-- A storage in use is in the table. -/
theorem deref_ok {s : State ρ} {id : Nat} {st : Storage ρ} (h : s.deref id = .ok st) :
    s.storages[id]? = some st := by
  unfold State.deref at h
  split at h
  · rename_i st' hst
    split at h
    · cases h
    · exact Except.ok.inj h ▸ hst
  · cases h

namespace State

variable {s s' : State ρ} {n : Nat}

theorem view_ok {i : Nat} {v : View} (h : s.view i = .ok v) : s.views[i]? = some (some v) := by
  unfold view at h
  split at h
  · rename_i w hw
    exact Except.ok.inj h ▸ hw
  · cases h

theorem acquire_apart {p : Option Nat} (h : s.acquire p = .ok s') :
    Apart [] n s s' ∧ s'.views = s.views := by
  cases p with
  | none => exact Except.ok.inj h ▸ ⟨.refl [] n s, rfl⟩
  | some id =>
    obtain ⟨st, hst, h⟩ := of_bind_ok h
    exact Except.ok.inj h ▸ ⟨.setStorage [] (deref_ok hst) fun _ => rfl, rfl⟩

theorem releaseRef_apart {p : Option Nat} (h : s.releaseRef p = .ok s') :
    Apart [] n s s' ∧ s'.views = s.views := by
  cases p with
  | none => exact Except.ok.inj h ▸ ⟨.refl [] n s, rfl⟩
  | some id =>
    obtain ⟨st, hst, h⟩ := of_bind_ok h
    obtain rfl := Except.ok.inj h
    have written (st' : Storage ρ) (log : List (Released ρ)) (same : st'.contents = st.contents) :
        Apart [] n s { s with storages := s.storages.set id st', released := log } :=
      .setStorage [] (deref_ok hst) fun _ => same
    split
    · unfold deleteStorage
      dsimp only
      split
      · exact ⟨written _ s.released rfl, rfl⟩
      · exact ⟨written _ _ rfl, rfl⟩
    · exact ⟨written _ s.released rfl, rfl⟩

theorem allocate_apart (s : State ρ) (n : Nat) (capacity : UInt64) (memory : Nat → UInt8) :
    Apart [] n s (s.allocate capacity memory) := by
  unfold allocate
  split
  · exact .newView [] n s {}
  · refine Apart.trans (t := { s with storages := _ }) ?_ (.newView [] n _ _)
    refine { views := fun _ _ _ => rfl, length := Nat.le_refl _, contents := ?_ }
    intro id _ st hst
    exact ⟨st, Tables.append_kept hst _, rfl⟩

theorem copyBytes_apart {id : Nat} {size : UInt64} {bytes : Nat → UInt8} (later : n ≤ id)
    (h : s.copyBytes id size bytes = .ok s') : Apart [] n s s' ∧ s'.views = s.views := by
  obtain ⟨st, hst, h⟩ := of_bind_ok h
  split at h
  · cases h
  · exact Except.ok.inj h ▸
      ⟨.setStorage [] (deref_ok hst) fun hid => absurd hid (Nat.not_lt.mpr later), rfl⟩

theorem clear_apart {this : Nat} (h : s.clear this = .ok s') : Apart [this] n s s' := by
  obtain ⟨v, -, h⟩ := of_bind_ok h
  exact (Apart.setView _ n s (List.mem_singleton_self this) {}).trans
    ((releaseRef_apart h).1.mono (List.nil_subset _))

theorem copyAssign_apart {this other : Nat} (h : s.copyAssign this other = .ok s') :
    Apart [this] n s s' := by
  unfold copyAssign at h
  split at h
  · exact Except.ok.inj h ▸ .refl _ n s
  · obtain ⟨old, -, h⟩ := of_bind_ok h
    obtain ⟨o, -, h⟩ := of_bind_ok h
    obtain ⟨t, acquired, h⟩ := of_bind_ok h
    have first : Apart [this] n s t := (acquire_apart acquired).1.mono (List.nil_subset _)
    exact (first.trans (.setView _ n t (List.mem_singleton_self this) o)).trans
      ((releaseRef_apart h).1.mono (List.nil_subset _))

/-- A move assignment is of two objects. -/
theorem moveAssign_apart {this other : Nat} (h : s.moveAssign this other = .ok s') :
    Apart [this, other] n s s' := by
  unfold moveAssign at h
  split at h
  · exact Except.ok.inj h ▸ .refl _ n s
  · obtain ⟨old, -, h⟩ := of_bind_ok h
    obtain ⟨o, -, h⟩ := of_bind_ok h
    have emptied : Apart [this, other] n s (s.setView other {}) :=
      .setView _ n s (List.mem_cons_of_mem _ (List.mem_singleton_self _)) {}
    exact (emptied.trans (.setView _ n _ List.mem_cons_self o)).trans
      ((releaseRef_apart h).1.mono (List.nil_subset _))

/-- Its target has what its source had, and the source has nothing. -/
theorem moveAssign_views {this other : Nat} {o : View} (ne : this ≠ other)
    (ho : s.views[other]? = some (some o)) (h : s.moveAssign this other = .ok s') :
    s'.views = (s.views.set other (some {})).set this (some o) := by
  unfold moveAssign at h
  rw [if_neg ne] at h
  obtain ⟨old, -, h⟩ := of_bind_ok h
  obtain ⟨p, hp, h⟩ := of_bind_ok h
  obtain rfl := Option.some.inj (Option.some.inj (ho.symm.trans (view_ok hp)))
  exact (releaseRef_apart (n := 0) h).2

theorem destroy_views {this : Nat} (h : s.destroy this = .ok s') :
    s'.views = s.views.set this none := by
  obtain ⟨v, -, h⟩ := of_bind_ok h
  exact (releaseRef_apart (n := 0) h).2

theorem destroy_apart {this : Nat} (h : s.destroy this = .ok s') : Apart [this] n s s' := by
  obtain ⟨v, -, h⟩ := of_bind_ok h
  have gone : Apart [this] n s { s with views := s.views.set this none } := by
    refine .of_views rfl (Nat.le_of_eq List.length_set.symm) fun j hj _ => ?_
    exact List.getElem?_set_ne (ne_of_mem_of_not_mem (List.mem_singleton_self _) hj)
  exact gone.trans ((releaseRef_apart h).1.mono (List.nil_subset _))

/-- The bytes that `reserve` copies are those that the view shows. -/
theorem fillNext_shows {v : View} {next id : Nat} {st : Storage ρ}
    (hn : s.views[next]? = some (some { storage := some id })) (hst : s.storages[id]? = some st)
    (unstored : v.storage = none → v.size = 0) (h : s.fillNext v next = .ok s') :
    s'.views = s.views.set next (some { storage := some id, size := v.size }) ∧
      ∃ st', s'.storages[id]? = some st' ∧
        s.visible v = .ok ((List.range v.size.toNat).map st'.contents) := by
  unfold fillNext at h
  unfold visible
  by_cases hidden : empty v = true
  · rw [if_pos hidden] at h ⊢
    obtain rfl := Except.ok.inj h
    have empty : v.size = 0 := by
      rw [empty, Bool.or_eq_true, decide_eq_true_eq, Option.isNone_iff_eq_none] at hidden
      exact hidden.elim unstored fun zero => zero
    rw [empty]
    obtain ⟨inside, here⟩ := List.getElem?_eq_some_iff.mp hn
    refine ⟨?_, st, hst, rfl⟩
    show s.views = s.views.set next (some { storage := some id })
    rw [← here, List.set_getElem_self]
  · rw [if_neg hidden] at h ⊢
    obtain ⟨bytes, read, h⟩ := of_bind_ok h
    obtain ⟨m, hm, h⟩ := of_bind_ok h
    obtain rfl := Option.some.inj (Option.some.inj (hn.symm.trans (view_ok hm)))
    obtain ⟨t, copied, h⟩ := of_bind_ok h
    obtain rfl := Except.ok.inj h
    obtain ⟨st₁, deref₁, copied⟩ := of_bind_ok copied
    obtain rfl := Option.some.inj (hst.symm.trans (deref_ok deref₁))
    split at copied
    · cases copied
    · obtain rfl := Except.ok.inj copied
      refine ⟨rfl, _, Tables.set_here hst _, ?_⟩
      rw [read]
      refine congrArg Except.ok (List.map_congr_left fun k hk => ?_)
      exact (if_pos (List.mem_range.mp hk)).symm

/-- They go to its new storage. -/
theorem fillNext_apart {v : View} {next id : Nat} (later : n ≤ id)
    (hn : s.views[next]? = some (some { storage := some id })) (h : s.fillNext v next = .ok s') :
    Apart [next] n s s' := by
  unfold fillNext at h
  split at h
  · exact Except.ok.inj h ▸ .refl _ n s
  · obtain ⟨bytes, -, h⟩ := of_bind_ok h
    obtain ⟨m, hm, h⟩ := of_bind_ok h
    obtain rfl := Option.some.inj (Option.some.inj (hn.symm.trans (view_ok hm)))
    obtain ⟨t, copied, h⟩ := of_bind_ok h
    obtain rfl := Except.ok.inj h
    exact ((copyBytes_apart later copied).1.mono (List.nil_subset _)).trans
      (.setView _ n t (List.mem_singleton_self next) _)

end State

end Bfc.SharedBuffer
