/-!
The six items a vault keeps, with the name under which a directory holds each of
them and the number under which a flash partition does.
-/

namespace UpdateVault

inductive Item
  | privateKey
  | publicKey
  | deployment
  | provides
  | artifactName
  | checkpoint
  deriving DecidableEq, Repr

namespace Item

/-- All items, in the order in which they are listed. -/
def all : List Item := [privateKey, publicKey, deployment, checkpoint, provides, artifactName]

/-- The file name of an item. -/
def name : Item → String
  | privateKey => "key.der"
  | publicKey => "pubkey.der"
  | deployment => "deployment-data.json"
  | provides => "provides.txt"
  | artifactName => "artifact_name.txt"
  | checkpoint => "um_state.dat"

/-- The number of an item in the table of a partition. -/
def id : Item → UInt16
  | privateKey => 1
  | publicKey => 2
  | deployment => 3
  | provides => 4
  | artifactName => 5
  | checkpoint => 6

theorem name_injective {a b : Item} (h : a.name = b.name) : a = b := by
  cases a <;> cases b <;> first | rfl | exact absurd h (by decide)

theorem id_injective {a b : Item} (h : a.id = b.id) : a = b := by
  cases a <;> cases b <;> first | rfl | exact absurd h (by decide)

def ofName? (s : String) : Option Item := all.find? (·.name == s)

theorem ofName?_name (i : Item) : ofName? i.name = some i := by cases i <;> decide

end Item

end UpdateVault
