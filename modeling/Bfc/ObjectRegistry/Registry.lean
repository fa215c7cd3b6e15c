import Bfc.Lib.SharedSections

/-!
# The object registry

`object_registry` as functions over shared objects: a slot for each name, one mutex for all of them.
`get` hands out one more owner. `add` refuses a name that is taken, and its object goes with its
variable, when the mutex is unlocked again. `rem` is another matter: `erase` lets go of the object
while `m_mutex` is held, and so the destructor, if that was the last owner, is run in the critical
section.

`Reentered` is the state this leads to when such a destructor calls the registry. That thread, and
with it the registry, is stuck; otherwise every call goes on.
-/

namespace Bfc.ObjectRegistry

open SharedObjects

/-- A call that gets to the mutex; `add` of an empty pointer does not. -/
inductive Call where
  | add (name : String)
  | rem (name : String)
  | get (name : String)

variable {ω : Type*}

/-- The members of the registry. -/
def code : Program Call Unit String ω
  | .add name, some _ => some [.lock (), .store name, .unlock]
  | .rem name, none => some [.lock (), .exchange name, .release, .unlock]
  | .get name, none => some [.lock (), .load name, .unlock, .give]
  | _, _ => none

/-- The registry, objects and threads. -/
abbrev World (ω : Type*) := SharedObjects.World Unit String ω

variable [DecidableEq ω]

/-- A run of the system. -/
abbrev Run := SharedObjects.World.Run (code (ω := ω))

/-- The thread is at the lock of a call that a destructor in its own `rem` has entered. -/
def Reentered (s : World ω) (t : Nat) : Prop :=
  ∃ rest reg below, s.threads[t]? = some (.code none (.lock () :: rest) reg :: below) ∧
    () ∈ SharedObjects.World.heldBy below

omit [DecidableEq ω] in
/-- Every call locks first. -/
theorem code_locks {call : Call} {arg : Option ω} {body : List (Instr Unit String)}
    (h : code call arg = some body) : ∃ rest, body = .lock () :: rest := by
  cases call <;> cases arg <;> cases h <;> exact ⟨_, rfl⟩

omit [DecidableEq ω] in
theorem code_orderly : SharedObjects.World.Orderly (fun _ => ()) (code (ω := ω)) := by
  intro call arg body h
  cases call <;> cases arg <;> cases h <;> simp [SharedObjects.World.safe]

/-! ## Calls inside `rem` -/

open SharedObjects.World (heldBy apart)

/-- A call is inside a critical section only until it gets to its lock. -/
def AtLock (stack : List (Frame Unit String ω)) : Prop :=
  apart stack = true ∨
    ∃ rest reg below, stack = .code none (.lock () :: rest) reg :: below ∧ apart below = true

omit [DecidableEq ω] in
theorem apart_code {guard : Option Unit} {left : List (Instr Unit String)} {reg : Option ω}
    {below : List (Frame Unit String ω)} (holdsNone : heldBy below = []) (h : apart below = true) :
    apart (.code guard left reg :: below) = true :=
  Bool.and_eq_true_iff.mpr ⟨List.isEmpty_iff.mpr holdsNone, h⟩

/-- No thread has passed a lock inside a critical section. -/
def Entries (s : World ω) : Prop :=
  ∀ (t : Nat) (stack : List (Frame Unit String ω)), s.threads[t]? = some stack → AtLock stack

section Entries

variable {s s' : World ω} {t : Nat} {old stack : List (Frame Unit String ω)}

omit [DecidableEq ω] in
/-- Code of the program is not at a lock. -/
theorem AtLock.of_free (h : AtLock stack) (may : free stack = true) : apart stack = true := by
  rcases h with h | ⟨rest, reg, below, rfl, -⟩
  · exact h
  · cases may

omit [DecidableEq ω] in
/-- Nor is a call behind its lock. -/
theorem AtLock.of_next {guard : Option Unit} {left : List (Instr Unit String)} {reg : Option ω}
    {below : List (Frame Unit String ω)} (h : AtLock (.code guard left reg :: below))
    (behind : ∀ rest, left ≠ .lock () :: rest) : heldBy below = [] ∧ apart below = true := by
  rcases h with h | ⟨rest, reg', below', same, -⟩
  · exact (Bool.and_eq_true_iff.mp h).imp_left List.isEmpty_iff.mp
  · cases same
    exact absurd rfl (behind rest)

omit [DecidableEq ω] in
theorem Entries.change (h : Entries s) (top : s.threads[t]? = some old)
    (threads : s'.threads = s.threads.set t stack) (new : AtLock stack) : Entries s' := by
  intro t' st ht
  rw [threads] at ht
  rcases Tables.set_cases top ht with ⟨-, rfl⟩ | ⟨-, before⟩
  · exact new
  · exact h t' st before

theorem Entries.release (h : Entries s) (top : s.threads[t]? = some old)
    (threads : s'.threads = s.threads) (new : apart stack = true) (gone : Option ω) :
    Entries (s'.release t stack gone) := by
  rcases (SharedObjects.World.release_threads s' t stack gone).2 with released | ⟨r, released⟩
  · exact h.change top (threads ▸ released) (.inl new)
  · exact h.change top (show _ = s.threads.set t (.destructor r :: stack) from threads ▸ released)
      (.inl new)

end Entries

theorem entries_step {s s' : World ω} {l : Label Call String ω}
    (guarded : SharedObjects.World.Guarded (fun _ => ()) s) (h : Entries s)
    (step : SharedObjects.World.Step code s l s') : Entries s' := by
  cases step with
  | make new => exact h
  | copy mem => exact h
  | @drop t stack r top may mem =>
    refine h.release top ?_ ((h t stack top).of_free may) _
    rfl
  | @discard t stack k top may =>
    refine h.release top ?_ ((h t stack top).of_free may) _
    rfl
  | @enter t stack p arg body function top may mem =>
    obtain ⟨rest, rfl⟩ := code_locks function
    exact h.change top rfl (.inr ⟨rest, arg, stack, rfl, (h t stack top).of_free may⟩)
  | @ret t f below top may =>
    have before := (h t _ top).of_free may
    refine h.change top rfl (.inl ?_)
    cases f with
    | code guard rest reg => cases may
    | callee | destructor r => exact before
  | @leave t reg below top =>
    exact h.release top rfl ((h t _ top).of_next (by simp)).2 _
  | @exec t guard i rest reg below s' top went =>
    have behind := (h t _ top).of_next
    -- behind its lock a call has the critical section to itself
    have onward : ∀ {guard' : Option Unit} {reg' : Option ω}, heldBy below = [] →
        apart below = true → s'.threads = s.threads.set t (.code guard' rest reg' :: below) →
        Entries s' :=
      fun holdsNone belowApart threads =>
        h.change top threads (.inl (apart_code holdsNone belowApart))
    cases i with
    | lock m =>
      obtain ⟨⟨rfl, nobody⟩, moved⟩ := Option.ite_none_right_eq_some.mp went
      obtain rfl := Option.some.inj moved
      have holdsNone : heldBy below = [] := by
        refine List.eq_nil_iff_forall_not_mem.mpr fun m' mem => ?_
        have := (guarded.mine top m').mpr mem
        rw [nobody] at this
        cases this
      refine onward holdsNone ?_ rfl
      rcases h t _ top with whole | ⟨rest, reg', below', same, belowApart⟩
      · exact (Bool.and_eq_true_iff.mp whole).2
      · cases same
        exact belowApart
    | unlock =>
      obtain ⟨holdsNone, belowApart⟩ := behind (by simp)
      cases guard with
      | none => cases went
      | some m =>
        obtain rfl := Option.some.inj went
        exact onward holdsNone belowApart rfl
    | exchange k | load k | give =>
      obtain ⟨holdsNone, belowApart⟩ := behind (by simp)
      obtain rfl := Option.some.inj went
      exact onward holdsNone belowApart rfl
    | store k =>
      obtain ⟨holdsNone, belowApart⟩ := behind (by simp)
      dsimp only [SharedObjects.World.exec] at went
      split at went
      · obtain rfl := Option.some.inj went
        exact onward holdsNone belowApart rfl
      · obtain rfl := Option.some.inj went
        exact onward holdsNone belowApart rfl
    | call =>
      obtain ⟨holdsNone, belowApart⟩ := behind (by simp)
      dsimp only [SharedObjects.World.exec] at went
      split at went
      · obtain rfl := Option.some.inj went
        exact onward holdsNone belowApart rfl
      · obtain rfl := Option.some.inj went
        have whole : apart (.code guard rest reg :: below) = true := apart_code holdsNone belowApart
        exact h.change top rfl (.inl whole)
    | release =>
      obtain ⟨holdsNone, belowApart⟩ := behind (by simp)
      obtain rfl := Option.some.inj went
      exact h.release top rfl (apart_code holdsNone belowApart) _

/-! ## Names -/

/-- The name has the object, and no call in progress has it to remove. -/
structure Stays (name : String) (r : ω) (s : World ω) : Prop where
  has : s.slots.lookup name = some r
  unremoved : ∀ (t : Nat) (stack : List (Frame Unit String ω)), s.threads[t]? = some stack →
    ∀ guard rest reg, .code guard rest reg ∈ stack → .exchange name ∉ rest

section Stays

variable {name : String} {r : ω} {s s' : World ω} {t : Nat} {old stack : List (Frame Unit String ω)}

omit [DecidableEq ω] in
theorem Stays.change (h : Stays name r s) (top : s.threads[t]? = some old)
    (has : s'.slots.lookup name = some r) (threads : s'.threads = s.threads.set t stack)
    (unremoved : ∀ guard rest reg, .code guard rest reg ∈ stack → .exchange name ∉ rest) :
    Stays name r s' where
  has := has
  unremoved t' st ht := by
    rw [threads] at ht
    rcases Tables.set_cases top ht with ⟨-, rfl⟩ | ⟨-, before⟩
    · exact unremoved
    · exact h.unremoved t' st before

theorem release_slots (s : World ω) (t : Nat) (stack : List (Frame Unit String ω))
    (gone : Option ω) : (s.release t stack gone).slots = s.slots := by
  cases gone with
  | none => rfl
  | some r =>
    unfold SharedObjects.World.release
    simp only [apply_ite SharedObjects.World.slots]
    exact ite_self _

theorem Stays.release (h : Stays name r s) (top : s.threads[t]? = some old)
    (has : s'.slots.lookup name = some r) (threads : s'.threads = s.threads)
    (unremoved : ∀ guard rest reg, .code guard rest reg ∈ stack → .exchange name ∉ rest)
    (gone : Option ω) : Stays name r (s'.release t stack gone) := by
  have still : (s'.release t stack gone).slots.lookup name = some r :=
    (congrArg (AList.lookup name) (release_slots s' t stack gone)).trans has
  rcases (SharedObjects.World.release_threads s' t stack gone).2 with released | ⟨x, released⟩
  · exact h.change top still (threads ▸ released) unremoved
  · refine h.change top still
      (show _ = s.threads.set t (.destructor x :: stack) from threads ▸ released)
      fun guard rest reg mem => ?_
    rcases List.mem_cons.mp mem with new | mem
    · cases new
    · exact unremoved guard rest reg mem

end Stays

/-- **Nothing but its `rem` takes an object from its name.** -/
theorem stays_step {name : String} {r : ω} {s s' : World ω} {l : Label Call String ω}
    (h : Stays name r s) (step : SharedObjects.World.Step code s l s')
    (unremoved : ∀ t arg, l ≠ .enter t (.rem name) arg) (kept : ∀ t, l ≠ .discard t name) :
    Stays name r s' := by
  cases step with
  | make new => exact ⟨h.has, h.unremoved⟩
  | copy mem => exact ⟨h.has, h.unremoved⟩
  | @drop t stack x top may mem =>
    refine h.release top ?_ ?_ (h.unremoved t stack top) _
    · exact h.has
    · rfl
  | @discard t stack k top may =>
    have other : name ≠ k := fun same => kept t (same ▸ rfl)
    refine h.release top ?_ ?_ (h.unremoved t stack top) _
    · rw [SharedObjects.World.lookup_put, if_neg other, h.has]
    · rfl
  | @enter t stack p arg body function top may mem =>
    refine h.change top h.has rfl fun guard rest reg mem => ?_
    rcases List.mem_cons.mp mem with new | mem
    · cases new
      cases p with
      | rem other =>
        have hne : name ≠ other := fun same => unremoved t arg (same ▸ rfl)
        cases arg with
        | some x => cases function
        | none =>
          cases function
          simp [hne]
      | add other =>
        cases arg with
        | some x =>
          cases function
          simp
        | none => cases function
      | get other =>
        cases arg with
        | some x => cases function
        | none =>
          cases function
          simp
    · exact h.unremoved t stack top guard rest reg mem
  | @ret t f below top may =>
    exact h.change top h.has rfl fun guard rest reg mem =>
      h.unremoved t _ top guard rest reg (List.mem_cons_of_mem f mem)
  | @leave t reg below top =>
    exact h.release top h.has rfl (fun guard rest reg mem =>
      h.unremoved t _ top guard rest reg (List.mem_cons_of_mem _ mem)) _
  | @exec t guard i rest reg below s' top went =>
    have left : .exchange name ∉ i :: rest := h.unremoved t _ top guard _ reg List.mem_cons_self
    have tail : ∀ {guard' : Option Unit} {reg' : Option ω} guard₁ rest₁ reg₁,
        .code guard₁ rest₁ reg₁ ∈ Frame.code guard' rest reg' :: below →
          .exchange name ∉ rest₁ := by
      intro guard' reg' guard₁ rest₁ reg₁ mem
      rcases List.mem_cons.mp mem with new | mem
      · cases new
        exact fun mem => left (List.mem_cons_of_mem i mem)
      · exact h.unremoved t _ top guard₁ rest₁ reg₁ (List.mem_cons_of_mem _ mem)
    cases i with
    | lock m =>
      obtain ⟨-, moved⟩ := Option.ite_none_right_eq_some.mp went
      obtain rfl := Option.some.inj moved
      exact h.change top h.has rfl tail
    | unlock =>
      cases guard with
      | none => cases went
      | some m =>
        obtain rfl := Option.some.inj went
        exact h.change top h.has rfl tail
    | exchange k =>
      have other : name ≠ k := fun same => left (same ▸ List.mem_cons_self)
      obtain rfl := Option.some.inj went
      refine h.change top ?_ rfl tail
      exact (SharedObjects.World.lookup_put s k name reg).trans ((if_neg other).trans h.has)
    | load k | give =>
      obtain rfl := Option.some.inj went
      exact h.change top h.has rfl tail
    | store k =>
      dsimp only [SharedObjects.World.exec] at went
      split at went
      · rename_i room
        have other : name ≠ k := by
          rintro rfl
          rw [h.has] at room
          cases room
        obtain rfl := Option.some.inj went
        refine h.change top ?_ rfl tail
        exact (SharedObjects.World.lookup_put s k name reg).trans ((if_neg other).trans h.has)
      · obtain rfl := Option.some.inj went
        exact h.change top h.has rfl tail
    | call =>
      dsimp only [SharedObjects.World.exec] at went
      split at went
      · obtain rfl := Option.some.inj went
        exact h.change top h.has rfl tail
      · obtain rfl := Option.some.inj went
        refine h.change top h.has rfl fun guard₁ rest₁ reg₁ mem => ?_
        rcases List.mem_cons.mp mem with new | mem
        · cases new
        · exact tail guard₁ rest₁ reg₁ mem
    | release =>
      obtain rfl := Option.some.inj went
      exact h.release top h.has rfl tail _

/-! ## The results -/

/-- **Registered objects live.** Any threads, any interleaving of `add`, `rem` and `get`, whatever
destructors do: an object is there exactly while the program, the registry or a call in progress
owns it, and it is destroyed once. A name keeps its object until a `rem` of that name. -/
theorem registered_objects_live {n : Nat} {ls : List (Label Call String ω)} {s : World ω}
    (run : Run (SharedObjects.World.init n) ls s) :
    s.destroyed.Nodup ∧ (∀ r, r ∈ s.owners ↔ r ∈ s.made ∧ r ∉ s.destroyed) ∧
      ∀ name r, Stays name r s → ∀ (more : List (Label Call String ω)) (s' : World ω),
        Run s more s' → (∀ t arg, .enter t (.rem name) arg ∉ more) →
          (∀ t, .discard t name ∉ more) →
            s'.slots.lookup name = some r ∧ r ∈ s'.made ∧ r ∉ s'.destroyed := by
  have accounted := SharedObjects.World.accounted_run run
  refine ⟨accounted.once, accounted.live, fun name r stays more s' onward unremoved kept => ?_⟩
  have still : Stays name r s' := onward.invariant_of_mem (P := Stays name r) stays
    fun hl h went => stays_step h (SharedObjects.World.Step.of_step went)
      (fun t arg same => unremoved t arg (same ▸ hl)) (fun t same => kept t (same ▸ hl))
  have account := SharedObjects.World.accounted_run (run.trans onward)
  refine ⟨still.has, (account.live r).mp ?_⟩
  refine List.mem_append_left _ (List.mem_append_right _ ?_)
  exact List.mem_map.mpr ⟨⟨name, r⟩, AList.mem_lookup_iff.mp still.has, rfl⟩

/-- The name is taken: a second object is refused, and goes. -/
def addedRun : List (Label Call String Nat) :=
  [.make 0 7, .enter 0 (.add "queue") (some 7), .next 0, .next 0, .next 0, .next 0]

def refusedRun : List (Label Call String Nat) :=
  [.make 1 8, .enter 1 (.add "queue") (some 8), .next 1, .next 1, .next 1, .next 1,
    .enter 0 (.get "queue") none]

theorem registered_objects_live_refused :
    ∃ s s' : World Nat, Run (SharedObjects.World.init 2) addedRun s ∧ Run s refusedRun s' ∧
      s'.slots.lookup "queue" = some 7 ∧ 7 ∉ s'.destroyed ∧ s'.destroyed = [8] := by
  let added : Option (World Nat) :=
    addedRun.foldlM (SharedObjects.World.step code) (SharedObjects.World.init 2)
  let refused : Option (World Nat) := do refusedRun.foldlM (SharedObjects.World.step code) (← added)
  have seen : added.map (fun s => (s.slots.lookup "queue", s.threads)) =
      some (some 7, [[], []]) := by
    decide +kernel
  have after : refused.map (·.destroyed) = some [8] := by decide +kernel
  obtain ⟨s, hs⟩ : ∃ s, added = some s := ⟨_, rfl⟩
  have onward : refused = refusedRun.foldlM (SharedObjects.World.step code) s := by
    show (added.bind _) = _
    rw [hs]
    rfl
  obtain ⟨s', hs'⟩ : ∃ s', refused = some s' := ⟨_, rfl⟩
  rw [hs, Option.map_some, Option.some.injEq, Prod.mk.injEq] at seen
  rw [hs', Option.map_some, Option.some.injEq] at after
  have stays : Stays "queue" 7 s := ⟨seen.1, fun t stack top guard rest reg mem => by
    have : stack ∈ [[], []] := seen.2 ▸ List.mem_of_getElem? top
    simp only [List.mem_cons, List.not_mem_nil, or_false, or_self] at this
    rw [this] at mem
    cases mem⟩
  have run := Lts.run_of_foldlM hs
  have more := Lts.run_of_foldlM (onward ▸ hs')
  have kept := (registered_objects_live run).2.2 "queue" 7 stays refusedRun s' more
    (by simp [refusedRun]) (by simp [refusedRun])
  exact ⟨s, s', run, more, kept.1, kept.2.2, after⟩

/-- **A registry call returns, or was made by a destructor inside `rem`.** While no thread has
entered the registry from a destructor that its own `rem` runs, every call goes on, at once or after
steps of one other thread alone, in which the destructors that its `rem` runs return. A thread that
has is stuck for ever, and holds the mutex that every call needs. -/
theorem calls_go_on {n : Nat} {ls : List (Label Call String ω)} {s : World ω}
    (run : Run (SharedObjects.World.init n) ls s) :
    ((∀ t, ¬Reentered s t) → ∀ t guard rest reg below,
      s.threads[t]? = some (.code guard rest reg :: below) →
        ∃ t', t' ≠ t ∧ ∃ (more : List (Label Call String ω)) (s' : World ω), Run s more s' ∧
          (∀ l ∈ more, l = .next t' ∨ l = .ret t') ∧
            (s'.step code (.next t)).isSome = true) ∧
      ∀ t, Reentered s t → ∀ (more : List (Label Call String ω)) (s' : World ω), Run s more s' →
        s'.threads[t]? = s.threads[t]? ∧ s'.owner () = some t := by
  have guarded := SharedObjects.World.guarded_run code_orderly run
  have entries : Entries s := (run.invariant
    (P := fun u => SharedObjects.World.Guarded (fun _ => ()) u ∧ Entries u)
    ⟨SharedObjects.World.guarded_init _ n, fun t stack top => .inl (by
      rw [SharedObjects.World.init_stack top]; rfl)⟩
    fun h went => ⟨SharedObjects.World.guarded_step code_orderly h.1
      (SharedObjects.World.Step.of_step went), entries_step h.1 h.2
      (SharedObjects.World.Step.of_step went)⟩).2
  refine ⟨fun notReentered t guard rest reg below top => ?_,
    fun t ⟨rest, reg, below, top, own⟩ => ?_⟩
  · refine SharedObjects.World.goes_on code_orderly guarded (fun t' stack top' => ?_) top
    rcases entries t' stack top' with h | ⟨rest', reg', below', rfl, h⟩
    · exact h
    · refine apart_code (List.eq_nil_iff_forall_not_mem.mpr fun m mem => ?_) h
      exact notReentered t' ⟨rest', reg', below', top', mem⟩
  · exact fun more s' onward =>
      SharedObjects.World.stuck code_orderly guarded top own onward

/-- A destructor that `rem` runs asks the registry for another name. -/
def reenteredRun : List (Label Call String Nat) :=
  [.make 0 7, .enter 0 (.add "queue") (some 7), .next 0, .next 0, .next 0, .next 0,
    .enter 0 (.rem "queue") none, .next 0, .next 0, .next 0, .enter 0 (.get "other") none]

theorem calls_go_on_reentered :
    ∃ s : World Nat, Run (SharedObjects.World.init 2) reenteredRun s ∧
      ∀ (more : List (Label Call String Nat)) (s' : World Nat), Run s more s' →
        s'.threads[0]? = s.threads[0]? ∧ s'.owner () = some 0 := by
  let reached : Option (World Nat) :=
    reenteredRun.foldlM (SharedObjects.World.step code) (SharedObjects.World.init 2)
  have seen : reached.map (·.threads) =
      some [[.code none [.lock (), .load "other", .unlock, .give] none, .destructor 7,
        .code (some ()) [.unlock] none], []] := by
    decide +kernel
  obtain ⟨s, hs⟩ : ∃ s, reached = some s := ⟨_, rfl⟩
  rw [hs, Option.map_some, Option.some.injEq] at seen
  have run := Lts.run_of_foldlM hs
  refine ⟨s, run, (calls_go_on run).2 0 ⟨_, _, _, by rw [seen]; rfl, ?_⟩⟩
  simp [heldBy, Frame.held]

end Bfc.ObjectRegistry
