import Bfc.Lib.Transition
import Bfc.MemoryPool.NotTwice
import Bfc.MemoryPool.SharedViews

/-!
# What the pools leave alone

A call changes the buffers that it names, and may add one at the end of the table; the others stay
as they are. But for the one that it destroys, the buffers stay, whatever it makes of them.
-/

namespace Bfc.MemoryPool

open Bfc.Buffers Lts

namespace World

variable {w w' : World} {i : Nat} {slot : Option Buffer}

/-- A deleter's call changes no buffer. -/
theorem delete_buffers {deletion : Option (Deletion Nat Nat)} (run : w.delete deletion = .ok w') :
    w'.buffers = w.buffers := by
  cases deletion with
  | none => exact congrArg World.buffers (Except.ok.inj run).symm
  | some call =>
    obtain ⟨pool, -, run⟩ := of_bind_ok run
    exact (congrArg World.buffers (Except.ok.inj run)).symm

/-- An allocation makes a buffer, after the others. -/
theorem allocate_buffers {p : Nat} (run : w.allocate p = .ok w') :
    ∃ b, w'.buffers = w.buffers ++ [some b] := by
  obtain ⟨pool, -, run⟩ := of_bind_ok run
  obtain ⟨⟨rv, w₁⟩, raw, run⟩ := of_bind_ok run
  obtain ⟨own, -, raw⟩ := of_bind_ok raw
  have same : w₁.buffers = w.buffers := by
    split at raw
    · exact (congrArg (fun taken => taken.2.buffers) (Except.ok.inj raw)).symm
    · exact (congrArg (fun taken => taken.2.buffers) (Except.ok.inj raw)).symm
  have made : w₁.buffers ++ [_] = w'.buffers := congrArg World.buffers (Except.ok.inj run)
  exact ⟨_, same ▸ made.symm⟩

theorem log2Allocate_buffers {l size : Nat} {e : Option Thrown}
    (run : w.log2Allocate l size = .ok (w', e)) : ∃ more, w'.buffers = w.buffers ++ more := by
  have threw : ∀ {e₁}, (.ok (w, some e₁) : Except Fault (World × Option Thrown)) = .ok (w', e) →
      ∃ more, w'.buffers = w.buffers ++ more := by
    intro e₁ same
    obtain ⟨rfl, -⟩ := Prod.mk.inj (Except.ok.inj same)
    exact ⟨[], (List.append_nil _).symm⟩
  unfold log2Allocate at run
  split at run
  · cases run
  · split at run
    · exact threw run
    · split at run
      · exact threw run
      · obtain ⟨w₁, made, run⟩ := of_bind_ok run
        obtain ⟨rfl, -⟩ := Prod.mk.inj (Except.ok.inj run)
        obtain ⟨b, eq⟩ := allocate_buffers made
        exact ⟨_, eq⟩

theorem moveConstruct_eq {other : Nat} {o : Buffer} (ho : w.buffers[other]? = some (some o)) :
    w.moveConstruct other = .ok ((w.setBuffer other (some {})).newBuffer o) := by
  simp only [moveConstruct, bind, Except.bind, Accounted.buffer_eq ho]
  rfl

/-- `reset` writes the object. -/
theorem reset_buffers {this : Nat} (run : w.reset this = .ok w') :
    ∃ b, w'.buffers = w.buffers.set this (some b) := by
  obtain ⟨b, -, run⟩ := of_bind_ok run
  obtain ⟨⟨c, deletion⟩, -, run⟩ := of_bind_ok run
  obtain ⟨w₁, gone, run⟩ := of_bind_ok run
  refine ⟨c, ?_⟩
  rw [← delete_buffers gone]
  exact congrArg World.buffers (Except.ok.inj run).symm

/-- The destructor leaves the slot empty. -/
theorem destroy_buffers {this : Nat} (run : w.destroy this = .ok w') :
    w'.buffers = w.buffers.set this none := by
  obtain ⟨w₁, done, run⟩ := of_bind_ok run
  obtain ⟨b, eq⟩ := reset_buffers done
  rw [← congrArg World.buffers (Except.ok.inj run)]
  show w₁.buffers.set this none = _
  rw [eq, List.set_set]

/-- The move assignment writes both objects. -/
theorem moveAssign_buffers {this other : Nat} (run : w.moveAssign this other = .ok w')
    (ne : i ≠ this) (ne' : i ≠ other) : w'.buffers[i]? = w.buffers[i]? := by
  by_cases same : this = other
  · rw [moveAssign, if_pos same] at run
    obtain rfl := Except.ok.inj run
    rfl
  · rw [moveAssign, if_neg same] at run
    obtain ⟨b, -, run⟩ := of_bind_ok run
    obtain ⟨o, -, run⟩ := of_bind_ok run
    obtain ⟨⟨c, d, deletion⟩, -, run⟩ := of_bind_ok run
    obtain ⟨w₁, gone, run⟩ := of_bind_ok run
    rw [← congrArg World.buffers (Except.ok.inj run)]
    show ((w₁.buffers.set other (some d)).set this (some c))[i]? = _
    rw [List.getElem?_set_ne (Ne.symm ne), List.getElem?_set_ne (Ne.symm ne'),
      delete_buffers gone]

/-- **A call leaves the buffers alone that it does not name.** -/
theorem call_buffers {op : Op} (run : w.call op = .ok w') (hi : w.buffers[i]? = some slot)
    (unnamed : i ∉ op.objects) : w'.buffers[i]? = some slot := by
  have appended : ∀ {more : List (Option Buffer)}, w'.buffers = w.buffers ++ more →
      w'.buffers[i]? = some slot := fun eq => eq ▸ Tables.append_kept hi _
  unfold call at run
  split at run
  · cases op with
    | sizedMemoryPool size =>
      obtain rfl := Except.ok.inj run
      exact hi
    | log2MemoryPool =>
      obtain rfl := Except.ok.inj run
      exact hi
    | allocate p =>
      obtain ⟨b, eq⟩ := allocate_buffers run
      exact appended eq
    | log2Allocate l size =>
      obtain ⟨⟨w₁, e⟩, made, run⟩ := of_bind_ok run
      obtain rfl := Except.ok.inj run
      obtain ⟨more, eq⟩ := log2Allocate_buffers made
      exact appended eq
    | construct =>
      obtain rfl := Except.ok.inj run
      exact appended rfl
    | moveConstruct other =>
      rename_i valid
      obtain ⟨o, ho⟩ := Accounted.live_iff.mp valid
      obtain rfl := Except.ok.inj ((moveConstruct_eq ho).symm.trans run)
      refine Tables.append_kept ?_ _
      exact (List.getElem?_set_ne (Ne.symm (List.ne_of_not_mem_cons unnamed))).trans hi
    | moveAssign this other =>
      refine (moveAssign_buffers run ?_ ?_).trans hi
      · exact List.ne_of_not_mem_cons unnamed
      · exact List.ne_of_not_mem_cons (List.not_mem_of_not_mem_cons unnamed)
    | reset this =>
      obtain ⟨b, eq⟩ := reset_buffers run
      rw [eq, List.getElem?_set_ne (Ne.symm (List.ne_of_not_mem_cons unnamed)), hi]
    | destroy this =>
      rw [destroy_buffers run, List.getElem?_set_ne (Ne.symm (List.ne_of_not_mem_cons unnamed)), hi]
  · obtain rfl := Except.ok.inj run
    exact hi

/-- A slot has an object or none, as before. -/
def Stays (i : Nat) (slot : Option Buffer) (w : World) : Prop :=
  ∃ slot', w.buffers[i]? = some slot' ∧ slot'.isSome = slot.isSome

/-- A live object is written. -/
theorem stays_set {this : Nat} {b c : Buffer} {buffers : List (Option Buffer)}
    (there : w.buffers[this]? = some (some b)) (eq : buffers = w.buffers.set this (some c))
    (hi : w.buffers[i]? = some slot) :
    ∃ slot', buffers[i]? = some slot' ∧ slot'.isSome = slot.isSome := by
  subst eq
  by_cases here : i = this
  · subst here
    obtain rfl := Option.some.inj (hi.symm.trans there)
    exact ⟨some c, Tables.set_here there _, rfl⟩
  · exact ⟨slot, (List.getElem?_set_ne (Ne.symm here)).trans hi, rfl⟩

/-- The move assignment leaves both objects there. -/
theorem moveAssign_stays {this other : Nat} (run : w.moveAssign this other = .ok w')
    (valid : (w.live this && w.live other) = true) (hi : w.buffers[i]? = some slot) :
    Stays i slot w' := by
  by_cases same : this = other
  · rw [moveAssign, if_pos same] at run
    obtain rfl := Except.ok.inj run
    exact ⟨slot, hi, rfl⟩
  · obtain ⟨first, second⟩ := Bool.and_eq_true_iff.mp valid
    obtain ⟨b₀, hb⟩ := Accounted.live_iff.mp first
    obtain ⟨o₀, ho⟩ := Accounted.live_iff.mp second
    rw [moveAssign, if_neg same] at run
    obtain ⟨b, -, run⟩ := of_bind_ok run
    obtain ⟨o, -, run⟩ := of_bind_ok run
    obtain ⟨⟨c, d, deletion⟩, -, run⟩ := of_bind_ok run
    obtain ⟨w₁, gone, run⟩ := of_bind_ok run
    obtain rfl := Except.ok.inj run
    have kept := delete_buffers gone
    rw [← kept] at hb ho hi
    have there : (w₁.setBuffer other (some d)).buffers[this]? = some (some b₀) :=
      (List.getElem?_set_ne (Ne.symm same)).trans hb
    obtain ⟨slot₁, h₁, some₁⟩ := stays_set (c := d) ho rfl hi
    obtain ⟨slot₂, h₂, some₂⟩ :=
      stays_set (w := w₁.setBuffer other (some d)) (c := c) there rfl h₁
    exact ⟨slot₂, h₂, some₂.trans some₁⟩

/-- **A call leaves the buffers there that it does not destroy**, and those away that are gone. -/
theorem call_stays {op : Op} (run : w.call op = .ok w') (hi : w.buffers[i]? = some slot)
    (kept : i ∉ op.destroys) : Stays i slot w' := by
  by_cases named : i ∈ op.objects
  · unfold call at run
    split at run
    · rename_i valid
      cases op with
      | sizedMemoryPool | log2MemoryPool | allocate | log2Allocate | construct => cases named
      | moveConstruct other =>
        obtain ⟨o, ho⟩ := Accounted.live_iff.mp valid
        obtain rfl := Except.ok.inj ((moveConstruct_eq ho).symm.trans run)
        obtain ⟨slot', there, same⟩ := stays_set (c := {}) ho rfl hi
        exact ⟨slot', Tables.append_kept there _, same⟩
      | moveAssign this other => exact moveAssign_stays run valid hi
      | reset this =>
        obtain ⟨b₀, hb⟩ := Accounted.live_iff.mp valid
        obtain ⟨b, eq⟩ := reset_buffers run
        exact stays_set hb eq hi
      | destroy this => exact absurd named kept
    · obtain rfl := Except.ok.inj run
      exact ⟨slot, hi, rfl⟩
  · exact ⟨slot, call_buffers run hi named, rfl⟩

end World

end Bfc.MemoryPool
