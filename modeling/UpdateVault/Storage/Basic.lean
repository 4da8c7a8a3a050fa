import UpdateVault.Error

/-!
What a vault needs of the thing that keeps its items, and the storage of platforms that
have none.
-/

namespace UpdateVault

/-- Storage of items by name, as a value that its changes replace; reading changes nothing.
Reading an absent or empty item and deleting an absent one is `notFound`. -/
class ItemStorage (σ : Type) where
  write : String → Bytes → Update StorageError σ Unit
  read : σ → String → Except StorageError Bytes
  delete : String → Update StorageError σ Unit

/-- The storage of a platform without any: every call says so, so that a missing capability
is not mistaken for an empty storage. -/
structure NoStorage where
  deriving DecidableEq, Repr

instance : ItemStorage NoStorage where
  write _ _ s := .error (.notImplemented "blob write") s
  read _ _ := .error (.notImplemented "blob read")
  delete _ s := .error (.notImplemented "blob delete") s

end UpdateVault
