import UpdateVault.Error

/-!
The lock that callers put around a vault they share. Taking and giving back may be
split, and a guard gives the lock back when it is dropped.
-/

namespace UpdateVault

/-- How long a caller is ready to wait for the lock. -/
inductive Wait
  | forever
  | milliseconds (n : Nat)
  deriving DecidableEq, Repr

/-- A negative number of milliseconds means forever. -/
def Wait.ofMilliseconds : Int → Wait
  | .ofNat n => .milliseconds n
  | .negSucc _ => .forever

/-- A lock: whether it is held. -/
structure Lock where
  held : Bool := false
  deriving DecidableEq, Repr

namespace Lock

/-- How a wait for a lock can end. As long as its time is not over it ends only when it finds
the lock free, and the time of a wait without a limit is never over. -/
structure WaitEnd (wait : Wait) (lock : Lock) where
  timedOut : Bool
  free_of_early : timedOut = false → lock.held = false
  limited_of_late : timedOut = true → wait ≠ .forever

/-- What comes of a wait that has ended. When the time is over, the lock is still taken if it has
become free by then. -/
def WaitEnd.take {wait : Wait} {lock : Lock} (e : WaitEnd wait lock) :
    Except StorageError Lock :=
  if e.timedOut && lock.held then .error .timeout else .ok ⟨true⟩

/-- How a wait ends at a moment: at once if the lock is free, and if it is held by the time that is
over. Who waits for a held lock without a limit is waiting still. -/
def waitEnd? (wait : Wait) (lock : Lock) : Option (WaitEnd wait lock) :=
  match hheld : lock.held, wait with
  | false, _ => some ⟨false, fun _ => hheld, by simp⟩
  | true, .milliseconds _ => some ⟨true, by simp, by simp⟩
  | true, .forever => none

/-- Takes the lock at the moment the wait for it ends. -/
def take? (wait : Wait) (lock : Lock) : Option (Except StorageError Lock) :=
  (waitEnd? wait lock).map WaitEnd.take

def give (lock : Lock) : Except StorageError Lock :=
  if lock.held then .ok ⟨false⟩ else .error (.invalidInput .lockNotHeld)

def delete (lock : Lock) : Except StorageError Unit :=
  if lock.held then .error (.invalidInput .lockHeld) else .ok ()

/-! ## Guards -/

/-- A lock with its guards: those that were handed out, by number, and whether each is still
alive. -/
structure Guarded where
  lock : Lock := {}
  guards : List Bool := []
  deriving DecidableEq, Repr

/-- Takes the lock and hands out a guard. -/
def Guarded.lock? (wait : Wait) (g : Guarded) : Option (Except StorageError (Nat × Guarded)) :=
  (take? wait g.lock).map fun r => r.map fun lock =>
    (g.guards.length, { lock, guards := g.guards ++ [true] })

/-- Drops a guard, which gives the lock back if it is held. The answer is whether there was
such a guard alive. -/
def Guarded.drop (n : Nat) (g : Guarded) : Bool × Guarded :=
  match g.guards[n]? with
  | some true =>
    let lock := match g.lock.give with
      | .ok lock => lock
      | .error _ => g.lock
    (true, { lock, guards := g.guards.set n false })
  | _ => (false, g)

/-- Drops the guards that are left. -/
def Guarded.dropAll (g : Guarded) : Guarded :=
  (List.range g.guards.length).foldl (fun g n => (g.drop n).2) g

end Lock

/-- Calls on the lock of a platform without tasks, all of which are refused. -/
inductive LockCall
  | create
  | take
  | give
  | delete
  deriving DecidableEq, Repr

/-- The refusal of a lock call on a platform without tasks. -/
def LockCall.refusal : LockCall → StorageError
  | create => .notImplemented "mutex create"
  | take => .notImplemented "mutex take"
  | give => .notImplemented "mutex give"
  | delete => .notImplemented "mutex delete"

end UpdateVault
