import Bfc.Lib.Tables
import Bfc.SharedBuffer.Buffer

/-!
# The counts are right

`Counted locals s` is the invariant, with the pointers that a function holds in its local
variables on the books: a storage's count is the number of views that refer to it and of locals
that hold it, it has been deleted exactly if there are none, and its release function has run
exactly if it has been deleted. A view never reaches past its storage.

A special member is then a sequence of transfers. `acquire` takes a reference into a local, a
write to a view exchanges the local's reference for the view's, and `release_ref` gives the
local's back; each has its law, and every call is proved by composing them, aliasing included.
-/

namespace Bfc.SharedBuffer

open References

variable {ρ : Type}

/-- A view stays within its storage, and shows nothing without one. -/
def ViewOk (s : State ρ) (v : View) : Prop :=
  match v.storage with
  | none => v.offset = 0 ∧ v.size = 0
  | some id =>
    ∃ st, s.storages[id]? = some st ∧ v.offset.toNat + v.size.toNat ≤ st.capacity.toNat

/-- What the release log has for a storage that has been deleted. -/
def Storage.record (st : Storage ρ) (id : Nat) : List (Released ρ) :=
  (st.releases.map fun fn => { storage := some id, fn := fn, bytes := st.bytes }).toList

/-- The references to a storage: from views and from local variables. -/
def State.held (s : State ρ) (locals : List Nat) (id : Nat) : Nat :=
  s.viewsOf id + locals.count id

/-- The counts are right, with the pointers in `locals` on the books. -/
structure Counted (locals : List Nat) (s : State ρ) : Prop where
  refs : ∀ id st, s.storages[id]? = some st → st.refs = (s.held locals id : Int)
  deleted : ∀ id st, s.storages[id]? = some st → (st.deleted = true ↔ s.held locals id = 0)
  released : ∀ id st, s.storages[id]? = some st →
    s.released.filter (·.storage = some id) = if st.deleted then st.record id else []
  known : ∀ r ∈ s.released, ∀ id, r.storage = some id → id < s.storages.length
  views : ∀ (i : Nat) (v : View), s.views[i]? = some (some v) → ViewOk s v
  locals : ∀ id ∈ locals, id < s.storages.length

/-- What no operation undoes: a storage keeps its capacity and what its deletion logs, stays
deleted once it is, and a release that is in the log stays there. -/
structure Later (s s' : State ρ) : Prop where
  storages : ∀ (id : Nat) (st : Storage ρ), s.storages[id]? = some st →
    ∃ st' : Storage ρ, s'.storages[id]? = some st' ∧ st'.capacity = st.capacity ∧
      st'.record id = st.record id ∧ (st.deleted = true → st'.deleted = true)
  log : s.released <+: s'.released

theorem Later.of_same {s s' : State ρ} (storages : s'.storages = s.storages)
    (released : s'.released = s.released) : Later s s' where
  storages _ st h := ⟨st, storages ▸ h, rfl, rfl, id⟩
  log := released ▸ List.prefix_refl _

theorem Later.refl (s : State ρ) : Later s s := .of_same rfl rfl

theorem Later.trans {a b c : State ρ} (h : Later a b) (h' : Later b c) : Later a c where
  storages id st hst := by
    obtain ⟨st₁, h₁, c₁, r₁, d₁⟩ := h.storages id st hst
    obtain ⟨st₂, h₂, c₂, r₂, d₂⟩ := h'.storages id st₁ h₁
    exact ⟨st₂, h₂, c₂.trans c₁, r₂.trans r₁, fun hd => d₂ (d₁ hd)⟩
  log := h.log.trans h'.log

theorem Later.viewOk {s s' : State ρ} (h : Later s s') {v : View} (ok : ViewOk s v) :
    ViewOk s' v := by
  unfold ViewOk at ok ⊢
  split at ok
  · exact ok
  · obtain ⟨st, hst, fits⟩ := ok
    obtain ⟨st', hst', same, -⟩ := h.storages _ st hst
    exact ⟨st', hst', by rw [same]; exact fits⟩

theorem viewOk_empty (s : State ρ) : ViewOk s {} := ⟨rfl, rfl⟩

/-- Rewriting a storage, and adding to the log. -/
theorem Later.set {s : State ρ} {id : Nat} {st st' : Storage ρ} (h : s.storages[id]? = some st)
    (capacity : st'.capacity = st.capacity) (record : st'.record id = st.record id)
    (deleted : st.deleted = true → st'.deleted = true) {t : State ρ}
    (storages : t.storages = s.storages.set id st') (log : s.released <+: t.released) :
    Later s t where
  storages id' st₁ h₁ := by
    rw [storages]
    refine Tables.set_kept h h₁ ⟨rfl, rfl, fun hd => hd⟩ ?_
    rintro rfl rfl
    exact ⟨capacity, record, deleted⟩
  log := log

namespace Counted

variable {s : State ρ} {L : List Nat}

/-- A storage that a view or a local refers to exists. -/
theorem exists_of_held (h : Counted L s) {id : Nat} (pos : 0 < s.held L id) :
    ∃ st, s.storages[id]? = some st ∧ st.deleted = false := by
  have known : ∃ st, s.storages[id]? = some st := by
    by_cases hl : 0 < L.count id
    · exact ⟨_, List.getElem?_eq_getElem (h.locals id (List.count_pos_iff.mp hl))⟩
    · have hv : 0 < s.viewsOf id := by
        unfold State.held at pos
        omega
      obtain ⟨slot, hmem, href⟩ := List.countP_pos_iff.mp hv
      obtain ⟨v, rfl, hv⟩ := Option.bind_eq_some_iff.mp (of_decide_eq_true href)
      obtain ⟨i, hi⟩ := List.mem_iff_getElem?.mp hmem
      have ok := h.views i v hi
      rw [ViewOk, hv] at ok
      obtain ⟨st, hst, -⟩ := ok
      exact ⟨st, hst⟩
  obtain ⟨st, hst⟩ := known
  refine ⟨st, hst, ?_⟩
  rw [← Bool.not_eq_true]
  intro hd
  have := (h.deleted id st hst).mp hd
  omega

theorem deref (h : Counted L s) {id : Nat} (pos : 0 < s.held L id) :
    ∃ st, s.storages[id]? = some st ∧ s.deref id = .ok st := by
  obtain ⟨st, hst, live⟩ := h.exists_of_held pos
  refine ⟨st, hst, ?_⟩
  simp only [State.deref, hst, live, Bool.false_eq_true, if_false]

/-- The view of an object refers to a storage that is in use. -/
theorem held_of_view {i id : Nat} {v : View} (hi : s.views[i]? = some (some v))
    (hv : v.storage = some id) : 0 < s.held L id :=
  Nat.lt_of_lt_of_le (holders_pos hi hv) (Nat.le_add_right _ _)

/-! ## The transfers -/

/-- References move between views and locals: the sums stay, and so does everything else. -/
theorem transfer (h : Counted L s) {L' : List Nat} {s' : State ρ}
    (storages : s'.storages = s.storages) (released : s'.released = s.released)
    (balance : ∀ id, s'.held L' id = s.held L id)
    (views : ∀ (i : Nat) (v : View), s'.views[i]? = some (some v) → ViewOk s v)
    (locals : ∀ id ∈ L', id < s.storages.length) : Counted L' s' where
  refs id st hst := by
    rw [balance]
    exact h.refs id st (storages ▸ hst)
  deleted id st hst := by
    rw [balance]
    exact h.deleted id st (storages ▸ hst)
  released id st hst := by
    rw [released]
    exact h.released id st (storages ▸ hst)
  known := by
    rw [released, storages]
    exact h.known
  views i v hv := by
    have ok := views i v hv
    unfold ViewOk at ok ⊢
    rwa [storages]
  locals := by
    rw [storages]
    exact locals

/-- A new object takes a reference over from a local. -/
theorem newView {v : View} (h : Counted (v.storage.toList ++ L) s) (ok : ViewOk s v) :
    Counted L (s.newView v) := by
  refine h.transfer rfl rfl (fun id => ?_) (fun i w hw => ?_) (fun id hid => ?_)
  · unfold State.held State.viewsOf State.newView
    rw [holders_append, List.count_append, count_toList, target_some]
    omega
  · rw [State.newView] at hw
    rcases Tables.append_cases hw with ⟨-, new⟩ | ⟨-, old⟩
    · obtain rfl := Option.some.inj new
      exact ok
    · exact h.views i w old
  · exact h.locals id (List.mem_append_right _ hid)

/-- A slot that is rewritten takes the local's reference and leaves its own. -/
theorem setSlot {i : Nat} {v : View} (slot : Option View)
    (h : Counted ((target View.storage slot).toList ++ L) s) (hi : s.views[i]? = some (some v))
    (ok : ∀ w, slot = some w → ViewOk s w) :
    Counted (v.storage.toList ++ L) { s with views := s.views.set i slot } := by
  refine h.transfer rfl rfl (fun id => ?_) (fun j w hw => ?_) (fun id hid => ?_)
  · have set := holders_set View.storage hi slot id
    unfold State.held State.viewsOf
    rw [List.count_append, List.count_append, count_toList, count_toList]
    rw [target_some] at set
    show holders View.storage (s.views.set i slot) id + _ = _
    omega
  · rcases Tables.set_cases hi hw with ⟨-, new⟩ | ⟨-, old⟩
    · exact ok w new.symm
    · exact h.views j w old
  · rcases List.mem_append.mp hid with hid | hid
    · have hv : v.storage = some id := Option.mem_toList.mp hid
      obtain ⟨st, hst, -⟩ := h.exists_of_held (held_of_view hi hv)
      exact (List.getElem?_eq_some_iff.mp hst).1
    · exact h.locals id (List.mem_append_right _ hid)

/-- A storage is rewritten: its count follows the locals, and its log its deletion. -/
theorem rewrite (h : Counted L s) {id : Nat} {st : Storage ρ} (hst : s.storages[id]? = some st)
    (st' : Storage ρ) (L' : List Nat) (s' : State ρ)
    (storages : s'.storages = s.storages.set id st') (viewsEq : s'.views = s.views)
    (capacity : st'.capacity = st.capacity)
    (record : st'.record id = st.record id) (keeps : st.deleted = true → st'.deleted = true)
    (log : s.released <+: s'.released)
    (other : ∀ id', id' ≠ id → L'.count id' = L.count id')
    (refs : st'.refs = (s.held L' id : Int)) (deleted : st'.deleted = true ↔ s.held L' id = 0)
    (logged : s'.released.filter (·.storage = some id) =
      if st'.deleted then st'.record id else [])
    (otherLogged : ∀ id', id' ≠ id →
      s'.released.filter (·.storage = some id') = s.released.filter (·.storage = some id'))
    (known : ∀ r ∈ s'.released, ∀ id', r.storage = some id' → id' < s.storages.length)
    (locals : ∀ id' ∈ L', id' < s.storages.length) : Counted L' s' ∧ Later s s' := by
  have hlt := (List.getElem?_eq_some_iff.mp hst).1
  have later : Later s s' := .set hst capacity record keeps storages log
  have held : ∀ L'' id', s'.held L'' id' = s.held L'' id' := by
    intro L'' id'
    rw [State.held, State.viewsOf, viewsEq]
    rfl
  have heldOther : ∀ id', id' ≠ id → s'.held L' id' = s.held L id' := by
    intro id' hne
    rw [held, State.held, other id' hne]
    rfl
  have find : ∀ id' st₁, s'.storages[id']? = some st₁ →
      id' = id ∧ st₁ = st' ∨ id' ≠ id ∧ s.storages[id']? = some st₁ := by
    intro id' st₁ h₁
    rw [storages] at h₁
    exact Tables.set_cases hst h₁
  refine ⟨⟨?_, ?_, ?_, ?_, ?_, ?_⟩, later⟩
  · intro id' st₁ h₁
    obtain ⟨rfl, rfl⟩ | ⟨hne, h₁⟩ := find id' st₁ h₁
    · rw [held, refs]
    · rw [heldOther id' hne]
      exact h.refs id' st₁ h₁
  · intro id' st₁ h₁
    obtain ⟨rfl, rfl⟩ | ⟨hne, h₁⟩ := find id' st₁ h₁
    · rw [held]
      exact deleted
    · rw [heldOther id' hne]
      exact h.deleted id' st₁ h₁
  · intro id' st₁ h₁
    obtain ⟨rfl, rfl⟩ | ⟨hne, h₁⟩ := find id' st₁ h₁
    · exact logged
    · rw [otherLogged id' hne]
      exact h.released id' st₁ h₁
  · rw [storages, List.length_set]
    exact known
  · intro i v hv
    exact later.viewOk (h.views i v (viewsEq ▸ hv))
  · rw [storages, List.length_set]
    exact locals

/-- `acquire` takes a reference into a local. -/
theorem acquire (h : Counted L s) {p : Option Nat} (held : ∀ id, p = some id → 0 < s.held L id) :
    ∃ s', s.acquire p = .ok s' ∧ Counted (p.toList ++ L) s' ∧ s'.views = s.views ∧ Later s s' := by
  cases p with
  | none => exact ⟨s, rfl, h, rfl, .refl s⟩
  | some id =>
    have pos := held id rfl
    obtain ⟨st, hst, deref⟩ := h.deref pos
    have live : st.deleted = false := by
      rw [← Bool.not_eq_true, h.deleted id st hst]
      omega
    have more : s.held (id :: L) id = s.held L id + 1 := by
      rw [State.held, List.count_cons_self]
      rfl
    have step := h.rewrite hst { st with refs := st.refs + 1 } (id :: L)
      (s.setStorage id { st with refs := st.refs + 1 }) rfl rfl rfl rfl
      (fun hd => hd) (List.prefix_refl _) (fun id' hne => List.count_cons_of_ne (Ne.symm hne))
      (by rw [more, h.refs id st hst]; rfl)
      (by rw [more]; simp [live])
      (h.released id st hst) (fun _ _ => rfl) h.known
      (fun id' hid => by
        rcases List.mem_cons.mp hid with rfl | hid
        · exact (List.getElem?_eq_some_iff.mp hst).1
        · exact h.locals id' hid)
    refine ⟨_, ?_, step.1, rfl, step.2⟩
    simp only [State.acquire, bind, Except.bind, deref]

/-- `release_ref` gives a local's reference back, and deletes the storage with the last one. -/
theorem releaseRef {p : Option Nat} (h : Counted (p.toList ++ L) s) :
    ∃ s', s.releaseRef p = .ok s' ∧ Counted L s' ∧ s'.views = s.views ∧ Later s s' := by
  cases p with
  | none => exact ⟨s, rfl, h, rfl, .refl s⟩
  | some id =>
    have h : Counted (id :: L) s := h
    have less : s.held (id :: L) id = s.held L id + 1 := by
      rw [State.held, List.count_cons_self]
      rfl
    have pos : 0 < s.held (id :: L) id := by omega
    obtain ⟨st, hst, deref⟩ := h.deref pos
    have live : st.deleted = false := by
      rw [← Bool.not_eq_true, h.deleted id st hst]
      omega
    have refs : st.refs = (s.held L id : Int) + 1 := by rw [h.refs id st hst, less]; rfl
    have other : ∀ id', id' ≠ id → L.count id' = (id :: L).count id' :=
      fun id' hne => (List.count_cons_of_ne (Ne.symm hne)).symm
    have locals : ∀ id' ∈ L, id' < s.storages.length :=
      fun id' hid => h.locals id' (List.mem_cons_of_mem _ hid)
    have unlogged : s.released.filter (·.storage = some id) = [] := by
      rw [h.released id st hst, live]
      rfl
    by_cases last : st.refs = 1
    · -- the last reference: the storage goes, and its release function runs
      have unheld : s.held L id = 0 := by omega
      have noViews : s.viewsOf id = 0 := by
        rw [State.held] at unheld
        omega
      have gone := fun (s' : State ρ) storages views log logged otherLogged known =>
        h.rewrite hst { st with refs := st.refs - 1, deleted := true } L s' storages views rfl rfl
          (fun _ => rfl) log
          other (by show st.refs - 1 = _; omega) (by simp only [unheld]) logged
          otherLogged known locals
      cases hr : st.releases with
      | none =>
        have step := gone (s.setStorage id { st with refs := st.refs - 1, deleted := true }) rfl rfl
          (List.prefix_refl _)
          (by
            have quiet : Storage.releases { st with refs := st.refs - 1, deleted := true } = none :=
              hr
            rw [Storage.record, quiet]
            exact unlogged)
          (fun _ _ => rfl) h.known
        refine ⟨_, ?_, step.1, rfl, step.2⟩
        simp only [State.releaseRef, bind, Except.bind, deref, if_pos last, State.deleteStorage,
          show Storage.releases { st with refs := st.refs - 1 } = none from hr]
      | some fn =>
        let entry : Released ρ := { storage := some id, fn := fn, bytes := st.bytes }
        have step := gone
          { s.setStorage id { st with refs := st.refs - 1, deleted := true } with
            released := s.released ++ [entry] } rfl rfl (List.prefix_append _ _)
          (by
            have runs : Storage.releases { st with refs := st.refs - 1, deleted := true } =
              some fn := hr
            rw [List.filter_append, unlogged, Storage.record, runs]
            simp [entry])
          (fun id' hne => by
            rw [List.filter_append]
            simp [entry, Ne.symm hne])
          (fun r hr id' hid => by
            rcases List.mem_append.mp hr with hr | hr
            · exact h.known r hr id' hid
            · rw [List.mem_singleton.mp hr] at hid
              obtain rfl := Option.some.inj hid
              exact (List.getElem?_eq_some_iff.mp hst).1)
        refine ⟨_, ?_, step.1, rfl, step.2⟩
        have noViews' : (s.setStorage id
            { st with refs := st.refs - 1, deleted := true }).viewsOf id = 0 := noViews
        simp only [State.releaseRef, bind, Except.bind, deref, if_pos last, State.deleteStorage,
          show Storage.releases { st with refs := st.refs - 1 } = some fn from hr, noViews', entry]
        rfl
    · have step := h.rewrite hst { st with refs := st.refs - 1 } L
        (s.setStorage id { st with refs := st.refs - 1 }) rfl rfl rfl rfl
        (fun hd => hd) (List.prefix_refl _) other
        (by show st.refs - 1 = _; omega)
        (by simp only [live, Bool.false_eq_true, false_iff]; omega)
        (h.released id st hst) (fun _ _ => rfl) h.known locals
      refine ⟨_, ?_, step.1, rfl, step.2⟩
      simp only [State.releaseRef, bind, Except.bind, deref, if_neg last]

end Counted

end Bfc.SharedBuffer
