import UpdateVault.SortedMap
import UpdateVault.Storage.Basic

/-!
Items in memory, with calls that are made to fail. A call that fails changes nothing, so
this storage shows how a vault behaves over one that is not to be relied on.
-/

namespace UpdateVault

inductive StorageCall
  | write
  | read
  | delete
  deriving DecidableEq, Repr

/-- Items in memory, and the calls that fail. -/
structure MemoryStorage where
  items : SortedMap String Bytes
  fault? : StorageCall → String → Option StorageError

namespace MemoryStorage

/-- No items, and no call that fails. -/
def empty : MemoryStorage := ⟨.empty, fun _ _ => none⟩

/-- Stores an item, unless the call is to fail. -/
def write (name : String) (data : Bytes) : Update StorageError MemoryStorage Unit := fun s =>
  match s.fault? .write name with
  | some e => .error e s
  | none => .ok () { s with items := s.items.insert name data }

/-- The data of an item; an empty item counts as absent. -/
def read (s : MemoryStorage) (name : String) : Except StorageError Bytes :=
  match s.fault? .read name with
  | some e => .error e
  | none => match s.items.get? name with
    | some (b :: rest) => .ok (b :: rest)
    | _ => .error (.notFound name)

/-- Takes an item out, also an empty one. -/
def delete (name : String) : Update StorageError MemoryStorage Unit := fun s =>
  match s.fault? .delete name with
  | some e => .error e s
  | none =>
    if s.items.contains name then .ok () { s with items := s.items.erase name }
    else .error (.notFound name) s

instance : ItemStorage MemoryStorage where
  write := write
  read := read
  delete := delete

end MemoryStorage

end UpdateVault
