import UpdateVault.Bytes
import UpdateVault.SortedMap

/-!
The item table of a partition and its bytes: for every item its number in two
little-endian bytes, the length of its data in four, and the data.
-/

namespace UpdateVault

/-- Item data by item number. -/
abbrev ItemTable := SortedMap UInt16 Bytes

namespace ItemTable

/-- What an entry takes besides its data. -/
def entryHeaderLength : Nat := 6

/-- The bytes of an entry. The length takes four bytes, whatever the data. -/
def entryBytes (e : UInt16 × Bytes) : Bytes :=
  Bytes.littleEndian 2 e.1.toNat ++ Bytes.littleEndian 4 e.2.length ++ e.2

/-- The bytes of a table, in the order of the item numbers. -/
def encode (t : ItemTable) : Bytes := t.toList.flatMap entryBytes

/-- The entries that at most `fuel` readings find, if they use up the bytes. -/
def readEntries : Nat → Bytes → Option (List (UInt16 × Bytes))
  | _, [] => some []
  | fuel + 1, i₀ :: i₁ :: n₀ :: n₁ :: n₂ :: n₃ :: rest =>
    let id := UInt16.ofNat (Bytes.ofLittleEndian [i₀, i₁])
    let len := Bytes.ofLittleEndian [n₀, n₁, n₂, n₃]
    let data := rest.take len
    if data.length < len then none
    else (readEntries fuel (rest.drop len)).map ((id, data) :: ·)
  | _, _ => none

/-- The entries of a payload, one after the other. -/
def entries? (payload : Bytes) : Option (List (UInt16 × Bytes)) :=
  readEntries payload.length payload

/-- The table of a payload; a later entry of an item replaces an earlier one. -/
def decode? (payload : Bytes) : Option ItemTable :=
  (entries? payload).map SortedMap.ofList

end ItemTable

end UpdateVault
