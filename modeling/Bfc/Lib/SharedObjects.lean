import Mathlib.Data.List.AList
import Bfc.Lib.Tables
import Bfc.Lib.Transition

/-!
# Shared objects and what threads do with them

Objects have shared owners: variables of the program, the local variable of a function in progress,
and slots, which are shared and kept under mutexes. The last owner that goes destroys the object, at
once and on its own thread, and the destructor is code of the program like any other. So a function
that lets go of an owner, or calls what an owner owns, may come back to itself.

A function is a list of instructions over one local variable. It is on the stack of its thread until
it ends, and its variable goes with it. Where a thread runs code of the program, outside all
functions, in a callee, or in a destructor, it may do anything: make objects, copy and drop owners,
enter functions.

The one result here is about any functions (`accounted_step`): an object is there exactly while it
has an owner, and is destroyed once.
-/

namespace SharedObjects

/-- An instruction: to lock a mutex and to unlock it again; to exchange the variable with a slot, to
copy a slot to the variable and to store the variable in a slot, if it has room for that; to call
the object, to hand the variable to the program, and to let it go. -/
inductive Instr (μ κ : Type*) where
  | lock (m : μ)
  | unlock
  | exchange (k : κ)
  | load (k : κ)
  | store (k : κ)
  | call
  | give
  | release
deriving DecidableEq

/-- What is on a stack: a function with the mutex it holds, the instructions left and its variable,
a callee, and the destructor of an object. -/
inductive Frame (μ κ ω : Type*) where
  | code (guard : Option μ) (rest : List (Instr μ κ)) (reg : Option ω)
  | callee
  | destructor (r : ω)
deriving DecidableEq

namespace Frame

variable {μ κ ω : Type*}

/-- The mutex the frame holds. -/
def held : Frame μ κ ω → Option μ
  | .code guard _ _ => guard
  | .callee | .destructor _ => none

/-- The object the frame owns. -/
def owns : Frame μ κ ω → Option ω
  | .code _ _ reg => reg
  | .callee | .destructor _ => none

end Frame

/-- The mutexes and who holds them, the slots, the owners the program has, and the stacks of the
threads, the newest frame first. For the record, `made` are the objects made so far, and `destroyed`
those whose destructors have been entered. -/
structure World (μ κ ω : Type*) where
  owner : μ → Option Nat := fun _ => none
  slots : AList fun _ : κ => ω := ∅
  handles : List ω := []
  threads : List (List (Frame μ κ ω)) := []
  made : List ω := []
  destroyed : List ω := []

/-- An action of a thread: code of the program makes an object, copies an owner, drops one, discards
a slot, enters the function `p` with an owner for its variable, or returns from a callee or a
destructor; or a function goes on. -/
inductive Label (π κ ω : Type*) where
  | make (t : Nat) (r : ω)
  | copy (t : Nat) (r : ω)
  | drop (t : Nat) (r : ω)
  | discard (t : Nat) (k : κ)
  | enter (t : Nat) (p : π) (arg : Option ω)
  | ret (t : Nat)
  | next (t : Nat)

/-- The functions, for a variable that they can be called with. -/
abbrev Program (π μ κ ω : Type*) := π → Option ω → Option (List (Instr μ κ))

variable {μ κ ω π : Type*}

/-- The thread that acts. -/
def Label.thread : Label π κ ω → Nat
  | .make t _ | .copy t _ | .drop t _ | .discard t _ | .enter t _ _ | .ret t | .next t => t

/-- The top of a stack is code of the program. -/
def free : List (Frame μ κ ω) → Bool
  | [] | .callee :: _ | .destructor _ :: _ => true
  | .code .. :: _ => false

/-- Code of the program holds no mutex and owns nothing by itself. -/
theorem free_cons {f : Frame μ κ ω} {below : List (Frame μ κ ω)} (h : free (f :: below) = true) :
    f.held = none ∧ f.owns = none := by
  cases f with
  | code guard rest reg => cases h
  | callee | destructor r => exact ⟨rfl, rfl⟩

namespace World

variable [DecidableEq μ] [DecidableEq κ] [DecidableEq ω]

/-- The owners there are. -/
def owners (s : World μ κ ω) : List ω :=
  s.handles ++ s.slots.entries.map Sigma.snd ++
    s.threads.flatMap fun stack => stack.filterMap Frame.owns

/-- The thread's stack becomes `stack`. -/
def goto (s : World μ κ ω) (t : Nat) (stack : List (Frame μ κ ω)) : World μ κ ω :=
  { s with threads := s.threads.set t stack }

/-- The slot is rewritten. -/
def put (s : World μ κ ω) (k : κ) (v : Option ω) : World μ κ ω :=
  { s with slots := v.elim (s.slots.erase k) fun r => s.slots.insert k r }

/-- An owner of `r` has gone, from a thread whose stack is `stack` otherwise: the last one destroys
the object. -/
def release (s : World μ κ ω) (t : Nat) (stack : List (Frame μ κ ω)) : Option ω → World μ κ ω
  | none => s.goto t stack
  | some r =>
    if r ∈ (s.goto t stack).owners then s.goto t stack
    else { s.goto t (.destructor r :: stack) with destroyed := s.destroyed ++ [r] }

/-- A function goes on with its next instruction, on top of the stack `below`. -/
def exec (s : World μ κ ω) (t : Nat) (guard : Option μ) (rest : List (Instr μ κ)) (reg : Option ω)
    (below : List (Frame μ κ ω)) : Instr μ κ → Option (World μ κ ω)
  | .lock m =>
    if guard = none ∧ s.owner m = none then
      some ({ s with owner := Function.update s.owner m (some t) }.goto t
        (.code (some m) rest reg :: below))
    else none
  | .unlock =>
    match guard with
    | some m =>
      some ({ s with owner := Function.update s.owner m none }.goto t
        (.code none rest reg :: below))
    | none => none
  | .exchange k => some ((s.put k reg).goto t (.code guard rest (s.slots.lookup k) :: below))
  | .load k =>
    some (s.goto t (.code guard rest (reg.elim (s.slots.lookup k) some) :: below))
  | .store k =>
    if s.slots.lookup k = none then some ((s.put k reg).goto t (.code guard rest none :: below))
    else some (s.goto t (.code guard rest reg :: below))
  | .call =>
    if reg = none then some (s.goto t (.code guard rest reg :: below))
    else some (s.goto t (.callee :: .code guard rest reg :: below))
  | .give =>
    some ({ s with handles := reg.toList ++ s.handles }.goto t (.code guard rest none :: below))
  | .release => some (s.release t (.code guard rest none :: below) reg)

/-- The state after an action, where it can be taken. -/
def step (program : Program π μ κ ω) (s : World μ κ ω) :
    Label π κ ω → Option (World μ κ ω)
  | .make t r =>
    match s.threads[t]? with
    | some stack =>
      if free stack ∧ r ∉ s.made then
        some { s with made := r :: s.made, handles := r :: s.handles }
      else none
    | none => none
  | .copy t r =>
    match s.threads[t]? with
    | some stack =>
      if free stack ∧ r ∈ s.handles then some { s with handles := r :: s.handles } else none
    | none => none
  | .drop t r =>
    match s.threads[t]? with
    | some stack =>
      if free stack ∧ r ∈ s.handles then
        some ({ s with handles := s.handles.erase r }.release t stack (some r))
      else none
    | none => none
  | .discard t k =>
    match s.threads[t]? with
    | some stack =>
      if free stack then some ((s.put k none).release t stack (s.slots.lookup k)) else none
    | none => none
  | .enter t p arg =>
    match s.threads[t]?, program p arg with
    | some stack, some body =>
      if free stack ∧ arg.toList ⊆ s.handles then
        some ({ s with handles := s.handles.diff arg.toList }.goto t
          (.code none body arg :: stack))
      else none
    | _, _ => none
  | .ret t =>
    match s.threads[t]? with
    | some (.callee :: below) => some (s.goto t below)
    | some (.destructor _ :: below) => some (s.goto t below)
    | _ => none
  | .next t =>
    match s.threads[t]? with
    | some (.code guard (i :: rest) reg :: below) => s.exec t guard rest reg below i
    | some (.code none [] reg :: below) => some (s.release t below reg)
    | _ => none

/-- What an action can do. -/
inductive Step (program : Program π μ κ ω) (s : World μ κ ω) :
    Label π κ ω → World μ κ ω → Prop
  | make {t : Nat} {r : ω} (new : r ∉ s.made) :
      Step program s (.make t r) { s with made := r :: s.made, handles := r :: s.handles }
  | copy {t : Nat} {r : ω} (mem : r ∈ s.handles) :
      Step program s (.copy t r) { s with handles := r :: s.handles }
  | drop {t : Nat} {stack : List (Frame μ κ ω)} {r : ω} (top : s.threads[t]? = some stack)
      (may : free stack = true) (mem : r ∈ s.handles) :
      Step program s (.drop t r)
        ({ s with handles := s.handles.erase r }.release t stack (some r))
  | discard {t : Nat} {stack : List (Frame μ κ ω)} (k : κ) (top : s.threads[t]? = some stack)
      (may : free stack = true) :
      Step program s (.discard t k) ((s.put k none).release t stack (s.slots.lookup k))
  | enter {t : Nat} {stack : List (Frame μ κ ω)} {p : π} {arg : Option ω}
      {body : List (Instr μ κ)} (function : program p arg = some body)
      (top : s.threads[t]? = some stack) (may : free stack = true)
      (mem : arg.toList ⊆ s.handles) :
      Step program s (.enter t p arg) ({ s with handles := s.handles.diff arg.toList }.goto t
        (.code none body arg :: stack))
  | ret {t : Nat} {f : Frame μ κ ω} {below : List (Frame μ κ ω)}
      (top : s.threads[t]? = some (f :: below)) (may : free (f :: below) = true) :
      Step program s (.ret t) (s.goto t below)
  | exec {t : Nat} {guard : Option μ} {i : Instr μ κ} {rest : List (Instr μ κ)} {reg : Option ω}
      {below : List (Frame μ κ ω)} {s' : World μ κ ω}
      (top : s.threads[t]? = some (.code guard (i :: rest) reg :: below))
      (h : s.exec t guard rest reg below i = some s') : Step program s (.next t) s'
  | leave {t : Nat} {reg : Option ω} {below : List (Frame μ κ ω)}
      (top : s.threads[t]? = some (.code none [] reg :: below)) :
      Step program s (.next t) (s.release t below reg)

/-- The step function takes these steps. -/
theorem Step.of_step {program : Program π μ κ ω} {s s' : World μ κ ω} {l : Label π κ ω}
    (h : s.step program l = some s') : Step program s l s' := by
  cases l with
  | make t r =>
    dsimp only [World.step] at h
    split at h
    · obtain ⟨⟨-, new⟩, h⟩ := Option.ite_none_right_eq_some.mp h
      exact Option.some.inj h ▸ .make new
    · cases h
  | copy t r =>
    dsimp only [World.step] at h
    split at h
    · obtain ⟨⟨-, mem⟩, h⟩ := Option.ite_none_right_eq_some.mp h
      exact Option.some.inj h ▸ .copy mem
    · cases h
  | drop t r =>
    dsimp only [World.step] at h
    split at h
    · rename_i stack top
      obtain ⟨⟨may, mem⟩, h⟩ := Option.ite_none_right_eq_some.mp h
      exact Option.some.inj h ▸ .drop top may mem
    · cases h
  | discard t k =>
    dsimp only [World.step] at h
    split at h
    · rename_i stack top
      obtain ⟨may, h⟩ := Option.ite_none_right_eq_some.mp h
      exact Option.some.inj h ▸ .discard k top may
    · cases h
  | enter t p arg =>
    dsimp only [World.step] at h
    split at h
    · rename_i stack body top function
      obtain ⟨⟨may, mem⟩, h⟩ := Option.ite_none_right_eq_some.mp h
      exact Option.some.inj h ▸ .enter function top may mem
    · cases h
  | ret t =>
    dsimp only [World.step] at h
    split at h
    · rename_i below top
      exact Option.some.inj h ▸ .ret top rfl
    · rename_i r below top
      exact Option.some.inj h ▸ .ret top rfl
    · cases h
  | next t =>
    dsimp only [World.step] at h
    split at h
    · rename_i guard i rest reg below top
      exact .exec top h
    · rename_i reg below top
      exact Option.some.inj h ▸ .leave top
    · cases h

/-- A run of the system. -/
abbrev Run (program : Program π μ κ ω) :=
  Lts.Run fun (s : World μ κ ω) (l : Label π κ ω) t => s.step program l = some t

/-! ## Owners -/

/-- A frame of some other thread owns the object. -/
def OwnedAside (s : World μ κ ω) (t : Nat) (x : ω) : Prop :=
  ∃ t' stack, t' ≠ t ∧ s.threads[t']? = some stack ∧ ∃ f ∈ stack, f.owns = some x

omit [DecidableEq μ] [DecidableEq ω] in
/-- Where the owners are, after a change of one stack. -/
theorem mem_owners_goto {s : World μ κ ω} {t : Nat} {old : List (Frame μ κ ω)}
    (top : s.threads[t]? = some old) (stack : List (Frame μ κ ω)) (x : ω) :
    x ∈ (s.goto t stack).owners ↔ x ∈ s.handles ∨ (∃ k, s.slots.lookup k = some x) ∨
      s.OwnedAside t x ∨ ∃ f ∈ stack, f.owns = some x := by
  have inSlots : x ∈ s.slots.entries.map Sigma.snd ↔ ∃ k, s.slots.lookup k = some x := by
    simp only [List.mem_map, Sigma.exists, exists_eq_right]
    exact exists_congr fun k => AList.mem_lookup_iff.symm
  have inThreads : (x ∈ (s.threads.set t stack).flatMap fun st => st.filterMap Frame.owns) ↔
      s.OwnedAside t x ∨ ∃ f ∈ stack, f.owns = some x := by
    simp only [List.mem_flatMap, List.mem_filterMap]
    constructor
    · rintro ⟨st, mem, owned⟩
      obtain ⟨t', ht'⟩ := List.getElem?_of_mem mem
      rcases Tables.set_cases top ht' with ⟨-, rfl⟩ | ⟨hne, old⟩
      · exact .inr owned
      · exact .inl ⟨t', st, hne, old, owned⟩
    · rintro (⟨t', st, hne, old, owned⟩ | owned)
      · exact ⟨st, List.mem_of_getElem? ((List.getElem?_set_ne (Ne.symm hne)).trans old), owned⟩
      · exact ⟨stack, List.mem_of_getElem? (Tables.set_here top stack), owned⟩
  simp only [owners, goto, List.mem_append, inSlots, inThreads, or_assoc]

omit [DecidableEq μ] [DecidableEq κ] [DecidableEq ω] in
theorem goto_self {s : World μ κ ω} {t : Nat} {stack : List (Frame μ κ ω)}
    (top : s.threads[t]? = some stack) : s.goto t stack = s := by
  obtain ⟨ht, rfl⟩ := List.getElem?_eq_some_iff.mp top
  simp only [goto, List.set_getElem_self]

omit [DecidableEq μ] [DecidableEq ω] in
/-- What a slot has after one was rewritten. -/
theorem lookup_put (s : World μ κ ω) (k k' : κ) (v : Option ω) :
    (s.put k v).slots.lookup k' = if k' = k then v else s.slots.lookup k' := by
  by_cases hk : k' = k
  · subst hk
    rw [if_pos rfl]
    cases v with
    | none => exact AList.lookup_erase _ _
    | some r => exact AList.lookup_insert _
  · rw [if_neg hk]
    cases v with
    | none => exact AList.lookup_erase_ne hk
    | some r => exact AList.lookup_insert_ne hk

omit [DecidableEq μ] [DecidableEq ω] in
/-- An object in the slots is in a slot or in another one. -/
theorem slots_iff (s : World μ κ ω) (k : κ) (x : ω) :
    (∃ k', s.slots.lookup k' = some x) ↔
      s.slots.lookup k = some x ∨ ∃ k', k' ≠ k ∧ s.slots.lookup k' = some x := by
  constructor
  · rintro ⟨k', hk'⟩
    by_cases hk : k' = k
    · exact .inl (hk ▸ hk')
    · exact .inr ⟨k', hk, hk'⟩
  · rintro (hk | ⟨k', -, hk'⟩)
    · exact ⟨k, hk⟩
    · exact ⟨k', hk'⟩

omit [DecidableEq μ] [DecidableEq ω] in
theorem slots_put_iff (s : World μ κ ω) (k : κ) (v : Option ω) (x : ω) :
    (∃ k', (s.put k v).slots.lookup k' = some x) ↔
      v = some x ∨ ∃ k', k' ≠ k ∧ s.slots.lookup k' = some x := by
  rw [slots_iff _ k]
  simp only [lookup_put, ↓reduceIte]
  refine or_congr_right (exists_congr fun k' => and_congr_right fun hk => ?_)
  rw [if_neg hk]

/-! ## Objects and their owners -/

/-- An object is there exactly while it has an owner, and is destroyed once. -/
structure Accounted (s : World μ κ ω) : Prop where
  once : s.destroyed.Nodup
  began : ∀ x ∈ s.destroyed, x ∈ s.made
  live : ∀ x, x ∈ s.owners ↔ x ∈ s.made ∧ x ∉ s.destroyed

omit [DecidableEq μ] [DecidableEq κ] [DecidableEq ω] in
theorem Accounted.congr {s s' : World μ κ ω} (h : Accounted s) (made : s'.made = s.made)
    (destroyed : s'.destroyed = s.destroyed) (owners : ∀ x, x ∈ s'.owners ↔ x ∈ s.owners) :
    Accounted s' where
  once := destroyed ▸ h.once
  began := by simpa only [made, destroyed] using h.began
  live x := by rw [owners, h.live, made, destroyed]

omit [DecidableEq μ] in
/-- **The release rule**: it is enough to count the owner that goes. -/
theorem accounted_release {s s' : World μ κ ω} {t : Nat} {old stack : List (Frame μ κ ω)}
    {gone : Option ω} (h : Accounted s) (top : s'.threads[t]? = some old)
    (made : s'.made = s.made) (destroyed : s'.destroyed = s.destroyed)
    (owners : ∀ x, x ∈ (s'.goto t stack).owners ∨ gone = some x ↔ x ∈ s.owners) :
    Accounted (s'.release t stack gone) := by
  cases gone with
  | none => exact h.congr made destroyed fun x => by rw [← owners, or_iff_left (by simp)]; rfl
  | some r =>
    by_cases still : r ∈ (s'.goto t stack).owners
    · rw [show s'.release t stack (some r) = s'.goto t stack from if_pos still]
      refine h.congr made destroyed fun x => ?_
      rw [← owners, or_iff_left_of_imp]
      rintro ⟨⟩
      exact still
    · rw [show s'.release t stack (some r) = { s'.goto t (.destructor r :: stack) with
        destroyed := s'.destroyed ++ [r] } from if_neg still]
      have there := (h.live r).mp ((owners r).mp (.inr rfl))
      have same : ∀ x, x ∈ (s'.goto t (.destructor r :: stack)).owners ↔
          x ∈ (s'.goto t stack).owners := by
        intro x
        rw [mem_owners_goto top, mem_owners_goto top]
        simp only [List.exists_mem_cons_iff, Frame.owns, reduceCtorEq, false_or]
      refine ⟨?_, fun x hx => ?_, fun x => (same x).trans ?_⟩
      · simp only [destroyed]
        exact List.nodup_append.mpr ⟨h.once, List.nodup_singleton r, fun x hx y hy => by
          rintro rfl
          exact there.2 (List.mem_singleton.mp hy ▸ hx)⟩
      · simp only [destroyed, List.mem_append, List.mem_singleton] at hx
        rcases hx with hx | rfl
        · exact made ▸ h.began x hx
        · exact made ▸ there.1
      · have live := (owners x).trans (h.live x)
        simp only [destroyed, List.mem_append, List.mem_singleton, not_or]
        rw [show (s'.goto t (.destructor r :: stack)).made = s.made from made]
        by_cases hx : x = r
        · subst hx
          simpa only [not_true_eq_false, and_false, iff_false] using still
        · simpa only [Option.some.injEq, Ne.symm hx, or_false, hx, not_false_eq_true,
            and_true] using live

omit [DecidableEq μ] [DecidableEq ω] in
/-- The owners, told apart by the stack of the thread that moves. -/
theorem mem_owners {s : World μ κ ω} {t : Nat} {stack : List (Frame μ κ ω)}
    (top : s.threads[t]? = some stack) (x : ω) :
    x ∈ s.owners ↔ x ∈ s.handles ∨ (∃ k, s.slots.lookup k = some x) ∨
      s.OwnedAside t x ∨ ∃ f ∈ stack, f.owns = some x := by
  rw [← mem_owners_goto top stack x, goto_self top]

/-- An instruction moves owners, and copies one or lets one go. -/
theorem accounted_exec {s s' : World μ κ ω} {t : Nat} {guard : Option μ} {i : Instr μ κ}
    {rest : List (Instr μ κ)} {reg : Option ω} {below : List (Frame μ κ ω)} (h : Accounted s)
    (top : s.threads[t]? = some (.code guard (i :: rest) reg :: below))
    (went : s.exec t guard rest reg below i = some s') : Accounted s' := by
  have before : ∀ x, x ∈ s.owners ↔ x ∈ s.handles ∨ (∃ k, s.slots.lookup k = some x) ∨
      s.OwnedAside t x ∨ reg = some x ∨ ∃ f ∈ below, f.owns = some x :=
    fun x => (mem_owners top x).trans (by rw [List.exists_mem_cons_iff]; rfl)
  -- instructions that leave the owners alone, but for what the frame has
  have same : ∀ {u : World μ κ ω} {stack : List (Frame μ κ ω)}, u.threads = s.threads →
      u.made = s.made → u.destroyed = s.destroyed →
      (∀ x, (x ∈ u.handles ∨ (∃ k, u.slots.lookup k = some x) ∨ u.OwnedAside t x ∨
        ∃ f ∈ stack, f.owns = some x) ↔ x ∈ s.owners) → Accounted (u.goto t stack) := by
    intro u stack threads made destroyed owners
    have here := (congrArg (·[t]?) threads).trans top
    exact h.congr made destroyed fun x => (mem_owners_goto here stack x).trans (owners x)
  cases i with
  | lock m =>
    obtain ⟨-, went⟩ := Option.ite_none_right_eq_some.mp went
    obtain rfl := Option.some.inj went
    refine same rfl rfl rfl fun x => ?_
    rw [before, List.exists_mem_cons_iff]
    rfl
  | unlock =>
    dsimp only [exec] at went
    split at went
    · obtain rfl := Option.some.inj went
      refine same rfl rfl rfl fun x => ?_
      rw [before, List.exists_mem_cons_iff]
      rfl
    · cases went
  | exchange k =>
    obtain rfl := Option.some.inj went
    refine same rfl rfl rfl fun x => ?_
    rw [before, slots_put_iff, slots_iff s k, List.exists_mem_cons_iff, Frame.owns]
    show (x ∈ s.handles ∨ _ ∨ s.OwnedAside t x ∨ _) ↔ _
    simp only [or_assoc, or_left_comm]
  | load k =>
    obtain rfl := Option.some.inj went
    refine same rfl rfl rfl fun x => ?_
    rw [before, List.exists_mem_cons_iff, Frame.owns]
    cases reg with
    | some r => rfl
    | none =>
      -- the slot keeps what the variable gets
      have keeps : s.slots.lookup k = some x → ∃ k', s.slots.lookup k' = some x :=
        fun here => ⟨k, here⟩
      simp only [Option.elim, reduceCtorEq, false_or]
      refine or_congr_right ⟨?_, Or.imp_right (Or.imp_right .inr)⟩
      rintro (slot | aside | here | owned)
      · exact .inl slot
      · exact .inr (.inl aside)
      · exact .inl (keeps here)
      · exact .inr (.inr owned)
  | store k =>
    dsimp only [exec] at went
    split at went
    · rename_i room
      obtain rfl := Option.some.inj went
      refine same rfl rfl rfl fun x => ?_
      rw [before, slots_put_iff, slots_iff s k, room, List.exists_mem_cons_iff, Frame.owns]
      show (x ∈ s.handles ∨ _ ∨ s.OwnedAside t x ∨ _) ↔ _
      simp only [reduceCtorEq, false_or, or_assoc, or_left_comm]
    · obtain rfl := Option.some.inj went
      exact same rfl rfl rfl fun x => by rw [before, List.exists_mem_cons_iff]; rfl
  | call =>
    dsimp only [exec] at went
    split at went
    · obtain rfl := Option.some.inj went
      exact same rfl rfl rfl fun x => by rw [before, List.exists_mem_cons_iff]; rfl
    · obtain rfl := Option.some.inj went
      refine same rfl rfl rfl fun x => ?_
      rw [before]
      simp only [List.exists_mem_cons_iff, Frame.owns, reduceCtorEq, false_or]
  | give =>
    obtain rfl := Option.some.inj went
    refine same rfl rfl rfl fun x => ?_
    rw [before, List.exists_mem_cons_iff, Frame.owns]
    show (x ∈ reg.toList ++ s.handles ∨ _ ∨ s.OwnedAside t x ∨ _) ↔ _
    simp only [List.mem_append, Option.mem_toList, reduceCtorEq, false_or, or_assoc,
      or_left_comm, or_comm]
  | release =>
    obtain rfl := Option.some.inj went
    refine accounted_release h top rfl rfl fun x => ?_
    rw [before, mem_owners_goto top]
    simp only [List.exists_mem_cons_iff, Frame.owns, reduceCtorEq, false_or]
    simp only [or_left_comm, or_comm]

/-- **Any functions, any action**: an object stays there exactly while it has an owner. -/
theorem accounted_step {program : Program π μ κ ω} {s s' : World μ κ ω} {l : Label π κ ω}
    (h : Accounted s) (step : Step program s l s') : Accounted s' := by
  cases step with
  | @make t r new =>
    have fresh : r ∉ s.destroyed := fun hr => new (h.began r hr)
    refine ⟨h.once, fun x hx => List.mem_cons_of_mem _ (h.began x hx), fun x => ?_⟩
    have live := h.live x
    simp only [owners, List.mem_append, List.mem_cons] at live ⊢
    by_cases hx : x = r
    · subst hx
      simp only [true_or, fresh, not_false_eq_true, and_self]
    · simpa only [hx, false_or] using live
  | @copy t r mem =>
    refine h.congr rfl rfl fun x => ?_
    simp only [owners, List.mem_append, List.mem_cons]
    rw [or_iff_right_of_imp (a := x = r)]
    rintro rfl
    exact mem
  | @drop t stack r top may mem =>
    refine accounted_release h top rfl rfl fun x => ?_
    refine (or_congr_left (mem_owners_goto (by exact top) stack x)).trans ?_
    rw [mem_owners top]
    by_cases hx : x = r
    · subst hx
      simp only [or_true, mem, true_or]
    · simp only [List.mem_erase_of_ne hx, Option.some.injEq, Ne.symm hx, or_false]
      rfl
  | @discard t stack k top may =>
    refine accounted_release h top rfl rfl fun x => ?_
    refine (or_congr_left (mem_owners_goto (by exact top) stack x)).trans ?_
    rw [mem_owners top, slots_put_iff, slots_iff s k]
    simp only [reduceCtorEq, false_or]
    show (x ∈ s.handles ∨ _ ∨ s.OwnedAside t x ∨ _) ∨ _ ↔ _
    simp only [or_assoc, or_left_comm, or_comm]
  | @enter t stack p arg body function top may mem =>
    refine h.congr rfl rfl fun x => (mem_owners_goto (by exact top) _ x).trans ?_
    rw [mem_owners top]
    show (x ∈ s.handles.diff arg.toList ∨ _ ∨ s.OwnedAside t x ∨ _) ↔ _
    rw [List.exists_mem_cons_iff, Frame.owns]
    have moved : x ∈ s.handles.diff arg.toList ∨ arg = some x ↔ x ∈ s.handles := by
      cases arg with
      | none => simp only [Option.toList_none, List.diff_nil, reduceCtorEq, or_false]
      | some r =>
        have hr : r ∈ s.handles := mem (List.mem_singleton_self r)
        rw [Option.toList_some, List.diff_cons, List.diff_nil]
        by_cases hx : x = r
        · subst hx
          simp only [or_true, hr]
        · simp only [List.mem_erase_of_ne hx, Option.some.injEq, Ne.symm hx, or_false]
    rw [← moved]
    tauto
  | ret top may =>
    refine h.congr rfl rfl fun x => ?_
    rw [mem_owners top, mem_owners_goto top]
    simp only [List.exists_mem_cons_iff, (free_cons may).2, reduceCtorEq, false_or]
  | @exec t guard i rest reg below s' top went => exact accounted_exec h top went
  | @leave t reg below top =>
    refine accounted_release h top rfl rfl fun x => ?_
    rw [mem_owners top, mem_owners_goto top]
    rw [List.exists_mem_cons_iff, Frame.owns]
    simp only [or_left_comm, or_comm]

/-- Threads that run code of the program, with nothing made. -/
def init (n : Nat) : World μ κ ω := { threads := List.replicate n [] }

omit [DecidableEq μ] [DecidableEq κ] [DecidableEq ω] in
theorem init_stack {n t : Nat} {stack : List (Frame μ κ ω)}
    (top : (init n : World μ κ ω).threads[t]? = some stack) : stack = [] :=
  List.eq_of_mem_replicate (List.mem_of_getElem? top)

omit [DecidableEq μ] [DecidableEq κ] [DecidableEq ω] in
theorem accounted_init (n : Nat) : Accounted (init n : World μ κ ω) where
  once := List.nodup_nil
  began _ hx := by cases hx
  live x := by simp [owners, init]

/-- An object is there exactly while it has an owner, in every state reached. -/
theorem accounted_run {program : Program π μ κ ω} {n : Nat} {ls : List (Label π κ ω)}
    {s : World μ κ ω} (run : Run program (init n) ls s) : Accounted s :=
  run.invariant (P := Accounted) (accounted_init n) fun h step =>
    accounted_step h (Step.of_step step)

omit [DecidableEq μ] [DecidableEq κ] [DecidableEq ω] in
/-- What a frame owns is there. -/
theorem Accounted.owned {s : World μ κ ω} (h : Accounted s) {t : Nat} {stack : List (Frame μ κ ω)}
    (top : s.threads[t]? = some stack) {f : Frame μ κ ω} (mem : f ∈ stack) {r : ω}
    (owns : f.owns = some r) : r ∈ s.made ∧ r ∉ s.destroyed := by
  refine (h.live r).mp (List.mem_append_right _ ?_)
  exact List.mem_flatMap.mpr ⟨stack, List.mem_of_getElem? top,
    List.mem_filterMap.mpr ⟨f, mem, owns⟩⟩

end World

end SharedObjects
