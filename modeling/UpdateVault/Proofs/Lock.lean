import UpdateVault.Lock

/-!
# A lock that clients share

A history is what the calls of any number of clients did to a lock, one completed call after the
other. `Guarded.step_of_call?` says all that a completed call can do. In every history the lock was
taken as often as it was given back, and once more while it is held (`History.accounted`). As long
as nobody gives the lock back while a guard is alive, there is one guard at most, and the lock is
held for it (`Guarded.Exclusive.step`).
-/

namespace UpdateVault.Lock

/-- A call of a client on a lock. -/
inductive Call
  | take (wait : Wait)
  | give
  | lock (wait : Wait)
  /-- Drops the guard with a number. -/
  | drop (guard : Nat)
  deriving DecidableEq, Repr

/-- Whether a call takes the lock if it succeeds. -/
def Call.isTaking : Call → Bool
  | take _ | lock _ => true
  | give | drop _ => false

/-! ## Waiting -/

section

variable {lock : Lock} {wait : Wait}

theorem take?_free (wait : Wait) (h : lock.held = false) :
    take? wait lock = some (.ok ⟨true⟩) := by
  obtain ⟨held⟩ := lock
  cases h
  rfl

theorem take?_held (n : Nat) (h : lock.held = true) :
    take? (.milliseconds n) lock = some (.error .timeout) := by
  obtain ⟨held⟩ := lock
  cases h
  rfl

theorem take?_forever (h : lock.held = true) : take? .forever lock = none := by
  obtain ⟨held⟩ := lock
  cases h
  rfl

/-- **However a wait ends, the lock decides what comes of it**: a wait that ends in time is worth no
more than one that ends late on a lock that has become free. -/
theorem WaitEnd.take?_eq (e : WaitEnd wait lock) : take? wait lock = some e.take := by
  cases hheld : lock.held with
  | false => rw [take?_free wait hheld, take, hheld, Bool.and_false, if_neg Bool.false_ne_true]
  | true =>
    have hlate : e.timedOut = true := by
      cases hearly : e.timedOut with
      | true => rfl
      | false => exact absurd hheld (by simp [e.free_of_early hearly])
    cases wait with
    | forever => exact absurd rfl (e.limited_of_late hlate)
    | milliseconds n => rw [take?_held n hheld, take, hlate, hheld, Bool.and_true, if_pos rfl]

end

namespace Guarded

variable {g g' : Guarded} {call : Call} {answer : Except StorageError Unit} {n : Nat}

/-- A guard was handed out and has not been dropped. -/
def Alive (g : Guarded) (n : Nat) : Prop := g.guards[n]? = some true

instance : Decidable (g.Alive n) := inferInstanceAs (Decidable (_ = _))

/-- What a call answers and what it leaves, once it is completed. A call that waits for a held lock
without limit never is, and only a guard that is alive can be dropped. The answer to a drop is that
of its own give, of which nobody is told. -/
def call? (g : Guarded) : Call → Option (Except StorageError Unit × Guarded)
  | .take wait => (take? wait g.lock).map fun
    | .ok lock => (.ok (), { g with lock })
    | .error e => (.error e, g)
  | .give => match g.lock.give with
    | .ok lock => some (.ok (), { g with lock })
    | .error e => some (.error e, g)
  | .lock wait => (g.lock? wait).map fun
    | .ok (_, g') => (.ok (), g')
    | .error e => (.error e, g)
  | .drop n => if g.Alive n then some (g.lock.give.map fun _ => (), (g.drop n).2) else none

/-! ## What a call does -/

/-- A completed call: it takes a free lock or gives a held one back, or it fails and leaves all as
it was, but for a guard that is dropped in any case. -/
inductive Step (g : Guarded) : Call → Except StorageError Unit → Guarded → Prop
  | taken {wait : Wait} : g.lock.held = false → Step g (.take wait) (.ok ()) ⟨⟨true⟩, g.guards⟩
  | locked {wait : Wait} : g.lock.held = false →
    Step g (.lock wait) (.ok ()) ⟨⟨true⟩, g.guards ++ [true]⟩
  | timedOut {call : Call} : g.lock.held = true → call.isTaking = true →
    Step g call (.error .timeout) g
  | given : g.lock.held = true → Step g .give (.ok ()) ⟨⟨false⟩, g.guards⟩
  | refused : g.lock.held = false → Step g .give (.error (.invalidInput .lockNotHeld)) g
  | dropped {n : Nat} : g.lock.held = true → g.Alive n →
    Step g (.drop n) (.ok ()) ⟨⟨false⟩, g.guards.set n false⟩
  | droppedFree {n : Nat} : g.lock.held = false → g.Alive n →
    Step g (.drop n) (.error (.invalidInput .lockNotHeld)) ⟨⟨false⟩, g.guards.set n false⟩

theorem take_free (wait : Wait) (h : g.lock.held = false) :
    g.call? (.take wait) = some (.ok (), ⟨⟨true⟩, g.guards⟩) := by
  simp [call?, take?_free wait h]

theorem lock_free (wait : Wait) (h : g.lock.held = false) :
    g.call? (.lock wait) = some (.ok (), ⟨⟨true⟩, g.guards ++ [true]⟩) := by
  simp [call?, lock?, take?_free wait h, Except.map]

theorem take_held (n : Nat) (h : g.lock.held = true) :
    g.call? (.take (.milliseconds n)) = some (.error .timeout, g) := by
  simp [call?, take?_held n h]

theorem lock_held (n : Nat) (h : g.lock.held = true) :
    g.call? (.lock (.milliseconds n)) = some (.error .timeout, g) := by
  simp [call?, lock?, take?_held n h, Except.map]

/-- Who waits for a held lock without limit is waiting still. -/
theorem forever_held (h : g.lock.held = true) :
    g.call? (.take .forever) = none ∧ g.call? (.lock .forever) = none := by
  simp [call?, lock?, take?_forever h]

theorem give_free (h : g.lock.held = false) :
    g.call? .give = some (.error (.invalidInput .lockNotHeld), g) := by
  simp [call?, Lock.give, h]

theorem give_held (h : g.lock.held = true) :
    g.call? .give = some (.ok (), ⟨⟨false⟩, g.guards⟩) := by
  simp [call?, Lock.give, h]

theorem drop_held (h : g.lock.held = true) (halive : g.Alive n) :
    g.call? (.drop n) = some (.ok (), ⟨⟨false⟩, g.guards.set n false⟩) := by
  have hguard : g.guards[n]? = some true := halive
  simp [call?, halive, drop, hguard, Lock.give, h, Except.map]

theorem drop_free (h : g.lock.held = false) (halive : g.Alive n) :
    g.call? (.drop n)
      = some (.error (.invalidInput .lockNotHeld), ⟨⟨false⟩, g.guards.set n false⟩) := by
  have hguard : g.guards[n]? = some true := halive
  have hlock : g.lock = ⟨false⟩ := by rw [← h]
  simp [call?, halive, drop, hguard, hlock, Lock.give, Except.map]

/-- **All that a completed call can do.** -/
theorem step_of_call? (h : g.call? call = some (answer, g')) : Step g call answer g' := by
  cases hheld : g.lock.held with
  | false =>
    cases call with
    | take wait =>
      rw [take_free wait hheld] at h
      cases h
      exact .taken hheld
    | lock wait =>
      rw [lock_free wait hheld] at h
      cases h
      exact .locked hheld
    | give =>
      rw [give_free hheld] at h
      cases h
      exact .refused hheld
    | drop n =>
      by_cases halive : g.Alive n
      · rw [drop_free hheld halive] at h
        cases h
        exact .droppedFree hheld halive
      · rw [call?, if_neg halive] at h
        cases h
  | true =>
    cases call with
    | take wait =>
      cases wait with
      | forever =>
        rw [(forever_held hheld).1] at h
        cases h
      | milliseconds n =>
        rw [take_held n hheld] at h
        cases h
        exact .timedOut hheld rfl
    | lock wait =>
      cases wait with
      | forever =>
        rw [(forever_held hheld).2] at h
        cases h
      | milliseconds n =>
        rw [lock_held n hheld] at h
        cases h
        exact .timedOut hheld rfl
    | give =>
      rw [give_held hheld] at h
      cases h
      exact .given hheld
    | drop n =>
      by_cases halive : g.Alive n
      · rw [drop_held hheld halive] at h
        cases h
        exact .dropped hheld halive
      · rw [call?, if_neg halive] at h
        cases h

/-! ## One guard -/

/-- At most one guard is alive, and the lock is held for it. -/
structure Exclusive (g : Guarded) : Prop where
  unique : ∀ m n, g.Alive m → g.Alive n → m = n
  held : ∀ n, g.Alive n → g.lock.held = true

/-- A give that may be called beside the guards: one while none is alive. -/
def SparesGuards (g : Guarded) (call : Call) : Prop := call = .give → ∀ n, ¬ g.Alive n

theorem exclusive_of_none (h : ∀ n, ¬ g.Alive n) : g.Exclusive :=
  ⟨fun m _ hm _ => absurd hm (h m), fun n hn => absurd hn (h n)⟩

/-- A lock that is free has no guard. -/
theorem Exclusive.none_of_free (h : g.Exclusive) (hfree : g.lock.held = false) (n : Nat) :
    ¬ g.Alive n := by
  intro hn
  rw [h.held n hn] at hfree
  cases hfree

theorem alive_append (hnone : ∀ n, ¬ g.Alive n) {lock : Lock} {m : Nat}
    (hm : Alive ⟨lock, g.guards ++ [true]⟩ m) : m = g.guards.length := by
  have hget : (g.guards ++ [true])[m]? = some true := hm
  rcases Nat.lt_trichotomy m g.guards.length with hlt | heq | hgt
  · rw [List.getElem?_append_left hlt] at hget
    exact absurd hget (hnone m)
  · exact heq
  · rw [List.getElem?_eq_none (by simp; omega)] at hget
    cases hget

theorem alive_set {lock : Lock} {m : Nat} (hm : Alive ⟨lock, g.guards.set n false⟩ m) :
    m ≠ n ∧ g.Alive m := by
  have hget : (g.guards.set n false)[m]? = some true := hm
  have hne : m ≠ n := by
    rintro rfl
    rw [List.getElem?_set_self'] at hget
    cases hguard : g.guards[m]? <;> simp [hguard] at hget
  rw [List.getElem?_set_ne hne.symm] at hget
  exact ⟨hne, hget⟩

/-- **A call keeps the one guard**, unless it gives the lock back behind the guard's back. -/
theorem Exclusive.step (h : g.Exclusive) (hstep : Step g call answer g')
    (hspares : g.SparesGuards call) : g'.Exclusive := by
  cases hstep with
  | taken hfree => exact exclusive_of_none (g := ⟨⟨true⟩, g.guards⟩) (h.none_of_free hfree)
  | locked hfree =>
    have hnew : ∀ m, Alive ⟨⟨true⟩, g.guards ++ [true]⟩ m → m = g.guards.length :=
      fun _ hm => alive_append (h.none_of_free hfree) hm
    exact ⟨fun m n hm hn => (hnew m hm).trans (hnew n hn).symm, fun _ _ => rfl⟩
  | timedOut => exact h
  | given => exact exclusive_of_none (g := ⟨⟨false⟩, g.guards⟩) (hspares rfl)
  | refused => exact h
  | dropped _ halive =>
    refine exclusive_of_none fun m hm => ?_
    obtain ⟨hne, hm'⟩ := alive_set hm
    exact hne (h.unique m _ hm' halive)
  | droppedFree hfree halive => exact absurd halive (h.none_of_free hfree _)

end Guarded

/-! ## Histories -/

/-- A completed call, with the client that made it. -/
structure Event (κ : Type) where
  client : κ
  call : Call
  answer : Except StorageError Unit

variable {κ : Type} {rule : Guarded → Call → Prop} {events : List (Event κ)} {g g' : Guarded}

namespace Event

/-- Whether the lock was taken. -/
def isTake (e : Event κ) : Bool := e.call.isTaking && e.answer.toBool

/-- Whether the lock was given back, by a call or by a guard that was dropped. -/
def isGive (e : Event κ) : Bool := !e.call.isTaking && e.answer.toBool

end Event

/-- What completed calls have done to a lock since it was made, and what they left. All of them were
made by the rule. -/
inductive History (rule : Guarded → Call → Prop) : List (Event κ) → Guarded → Prop
  | new : History rule [] {}
  | call {events : List (Event κ)} {g g' : Guarded} {c : Call} {answer : Except StorageError Unit}
    (client : κ) : History rule events g → rule g c → g.call? c = some (answer, g') →
    History rule (events ++ [⟨client, c, answer⟩]) g'

/-- How often the lock was taken. -/
def takes (events : List (Event κ)) : Nat := events.countP Event.isTake

/-- How often it was given back. -/
def gives (events : List (Event κ)) : Nat := events.countP Event.isGive

/-- A call that takes the lock finds it free, and one that gives it back finds it held. -/
theorem Guarded.Step.balance {c : Call} {answer : Except StorageError Unit} (client : κ)
    (h : Guarded.Step g c answer g') :
    takes [⟨client, c, answer⟩] + g.lock.held.toNat
      = gives [⟨client, c, answer⟩] + g'.lock.held.toNat := by
  cases h <;> simp_all [takes, gives, Event.isTake, Event.isGive, Call.isTaking, Except.toBool]

namespace History

/-- **The books of a lock**: it was taken as often as it was given back, and once more while it is
held. -/
theorem balance (h : History rule events g) : takes events = gives events + g.lock.held.toNat := by
  induction h with
  | new => rfl
  | @call events g g' c answer client _ _ hcall ih =>
    have hstep := (Guarded.step_of_call? hcall).balance client
    have htakes : takes (events ++ [⟨client, c, answer⟩])
        = takes events + takes [⟨client, c, answer⟩] := List.countP_append
    have hgives : gives (events ++ [⟨client, c, answer⟩])
        = gives events + gives [⟨client, c, answer⟩] := List.countP_append
    omega

/-- Where nobody gives the lock back while a guard is alive, there is one guard at most. -/
theorem exclusive (h : History Guarded.SparesGuards events g) : g.Exclusive := by
  induction h with
  | new => exact Guarded.exclusive_of_none fun n hn => by simp [Guarded.Alive] at hn
  | call client _ hspares hcall ih => exact ih.step (Guarded.step_of_call? hcall) hspares

end History

/-- What is to be relied on at a moment of a history. -/
structure Accounted (events : List (Event κ)) (g : Guarded) : Prop where
  /-- The difference between takes and gives is one while the lock is held, and else none. -/
  balance : (takes events : Int) - gives events = if g.lock.held then 1 else 0
  /-- A call that is to take the lock fails only by its time, when the lock is held, and without
  effect. -/
  timeout : ∀ {c : Call} {e : StorageError} {g' : Guarded}, c.isTaking = true →
    g.call? c = some (.error e, g') → e = .timeout ∧ g.lock.held = true ∧ g' = g
  /-- So it fails if its wait has a limit, and it succeeds while the lock is free. -/
  expires : g.lock.held = true → ∀ n,
    g.call? (.take (.milliseconds n)) = some (.error .timeout, g) ∧
    g.call? (.lock (.milliseconds n)) = some (.error .timeout, g)
  /-- However a wait for the lock ends, also late with the lock free by then, the call comes to what
  the wait has come to. -/
  waits : ∀ {wait : Wait} (e : WaitEnd wait g.lock), take? wait g.lock = some e.take
  succeeds : g.lock.held = false → ∀ wait, ∃ g₁ g₂, g.call? (.take wait) = some (.ok (), g₁) ∧
    g.call? (.lock wait) = some (.ok (), g₂)
  /-- A lock that is not held cannot be given back. -/
  give_free : g.lock.held = false → g.call? .give = some (.error (.invalidInput .lockNotHeld), g)
  delete_iff : g.lock.delete = .ok () ↔ takes events = gives events
  /-- If nobody gave the lock back while a guard was alive, one guard at most is alive. -/
  oneGuard : History Guarded.SparesGuards events g → ∀ m n, g.Alive m → g.Alive n → m = n
  /-- Then the lock is held while the guard is alive, and dropping the guard frees it. -/
  released : History Guarded.SparesGuards events g → ∀ n, g.Alive n → g.lock.held = true ∧
    ∃ g', g.call? (.drop n) = some (.ok (), g') ∧ g'.lock.held = false

/-- **Whatever clients do with a lock, it is accounted for**, and guards that are let be exclude
each other. -/
theorem History.accounted (h : History (fun _ _ => True) events g) : Accounted events g where
  balance := by
    have := h.balance
    cases hheld : g.lock.held <;> simp [hheld] at this ⊢ <;> omega
  timeout := by
    intro c e g' htaking hcall
    cases Guarded.step_of_call? hcall with
    | timedOut hheld => exact ⟨rfl, hheld, rfl⟩
    | refused => cases htaking
    | droppedFree => cases htaking
  expires := fun hheld n => ⟨Guarded.take_held n hheld, Guarded.lock_held n hheld⟩
  waits := WaitEnd.take?_eq
  succeeds := fun hfree wait => ⟨_, _, Guarded.take_free wait hfree, Guarded.lock_free wait hfree⟩
  give_free := Guarded.give_free
  delete_iff := by
    have := h.balance
    cases hheld : g.lock.held <;> simp [Lock.delete, hheld] at this ⊢ <;> omega
  oneGuard := fun hspares => hspares.exclusive.unique
  released := fun hspares n halive =>
    have hheld := hspares.exclusive.held n halive
    ⟨hheld, _, Guarded.drop_held hheld halive, rfl⟩

/-- A client takes the lock and gives it back. Then another one holds it by a guard, so that the
first one waits in vain. -/
def twoClients : List (Event Nat) :=
  [⟨1, .take (.milliseconds 5), .ok ()⟩, ⟨1, .give, .ok ()⟩, ⟨2, .lock .forever, .ok ()⟩,
    ⟨1, .take (.milliseconds 10), .error .timeout⟩]

theorem history_twoClients (hrule : ∀ g c, Guarded.SparesGuards g c → rule g c) :
    History rule twoClients ⟨⟨true⟩, [true]⟩ := by
  have hother : ∀ g c, c ≠ .give → rule g c := fun g c hc => hrule g c fun h => absurd h hc
  have htake : History rule [⟨1, .take (.milliseconds 5), .ok ()⟩] ⟨⟨true⟩, []⟩ :=
    .call 1 .new (hother _ _ nofun) rfl
  have hgive : History rule _ ⟨⟨false⟩, []⟩ :=
    htake.call 1 (hrule _ .give fun _ n hn => by simp [Guarded.Alive] at hn) rfl
  have hlock : History rule _ ⟨⟨true⟩, [true]⟩ :=
    hgive.call 2 (c := .lock .forever) (hother _ _ nofun) rfl
  exact hlock.call 1 (c := .take (.milliseconds 10)) (hother _ _ nofun) rfl

theorem accounted_two_clients :
    Accounted twoClients ⟨⟨true⟩, [true]⟩ ∧ takes twoClients = 2 ∧ gives twoClients = 1 ∧
      Guarded.Alive ⟨⟨true⟩, [true]⟩ 0 ∧
      ∃ g', Guarded.call? ⟨⟨true⟩, [true]⟩ (.drop 0) = some (.ok (), g') ∧
        g'.lock.held = false := by
  have h : Accounted twoClients ⟨⟨true⟩, [true]⟩ :=
    History.accounted (history_twoClients fun _ _ _ => trivial)
  exact ⟨h, rfl, rfl, rfl, (h.released (history_twoClients fun _ _ hc => hc) 0 rfl).2⟩

end UpdateVault.Lock
