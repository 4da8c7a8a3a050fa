import UpdateVault.Proofs.Config.File
import UpdateVault.Proofs.Storage.Secrecy

/-!
# Opening vaults that differ in the private key

On two disks that hold the same under a configuration but for the bytes of the private key, the
storage is opened on both or on neither, with the same error, and the two storages show no more of
the key than its length (`Config.SameButKey.open_cases`).
-/

namespace UpdateVault

/-! ## Directories -/

namespace ItemDirectory

/-- What opening sweeps away is neither an item nor a directory. -/
theorem SameButKey.sweep {s t : ItemDirectory} (h : SameButKey s t) :
    SameButKey { s with disk := ItemDirectory.sweep s.disk s.root s.place }
      { t with disk := ItemDirectory.sweep t.disk t.root t.place } := by
  refine ⟨h.root_eq, fun item => ?_, fun item => ?_⟩
  · show item.SameNode
      ((ItemDirectory.sweep s.disk s.root s.place).node? (fileOf s.place item.name))
      ((ItemDirectory.sweep t.disk t.root t.place).node? (fileOf t.place item.name))
    rw [node?_sweep_fileOf, node?_sweep_fileOf]
    exact h.items item
  · exact directory_sweep_iff.trans ((h.temporaries item).trans directory_sweep_iff.symm)

end ItemDirectory

/-! ## Partitions -/

namespace Partition

variable {f f' : FlashImageFile} {p q : Partition FlashImageFile} {path path' : Path}
  {sectorSize sectorCount : Nat} {d d' d₁ d₁' : Disk}

theorem sameButKeyInFile_of_open (hsmall : sectorSize * sectorCount < 2 ^ 32)
    (hopen : FlashImageFile.open path sectorSize sectorCount d = .ok f d₁)
    (hmount : mount f = .ok p)
    (hopen' : FlashImageFile.open path' sectorSize sectorCount d' = .ok f' d₁')
    (hmount' : mount f' = .ok q) (hitems : ItemTable.SameButKey p.items q.items) :
    SameButKeyInFile p q := by
  obtain ⟨p', hp, hintact, hlength⟩ := mirrors_of_openFile hopen hmount hsmall
  obtain ⟨q', hq, hintact', hlength'⟩ := mirrors_of_openFile hopen' hmount' hsmall
  have hitems' : ItemTable.SameButKey p'.items q'.items := by
    cases hp
    cases hq
    exact hitems
  exact ⟨p', q', hp, ⟨hintact, hintact', hlength.trans hlength'.symm, hitems'⟩, hq⟩

end Partition

/-! ## What a configuration names -/

namespace Config

variable {c : Config} {d d' : Disk}

/-- What is stored on two disks under a configuration is the same but for the bytes of a private key
of one length. -/
def SameButKey (c : Config) (d d' : Disk) : Prop :=
  match c.backend with
  | .file => ∃ place place', d.find c.root = .ok (place, .directory) ∧
      d'.find c.root = .ok (place', .directory) ∧
      ItemDirectory.SameButKey ⟨c.root, place, d⟩ ⟨c.root, place', d'⟩
  | .nvs => ∃ p q d₁ d₁', SelectedStorage.openPartition c d = .ok p d₁ ∧
      SelectedStorage.openPartition c d' = .ok q d₁' ∧ ItemTable.SameButKey p.items q.items
  | .none => True

/-- **Both are opened, or neither is**, for one and the same reason. -/
theorem SameButKey.open_cases (h : c.SameButKey d d') :
    (∃ s t d₁ d₁', SelectedStorage.open c d = .ok s d₁ ∧ SelectedStorage.open c d' = .ok t d₁' ∧
      SelectedStorage.SameButKey s t) ∨
    ∃ e, SelectedStorage.open c d = .error e d ∧ SelectedStorage.open c d' = .error e d' := by
  cases hviolation : c.violation? with
  | some v =>
    exact .inr ⟨.invalidInput (.config v), by simp only [SelectedStorage.open, hviolation],
      by simp only [SelectedStorage.open, hviolation]⟩
  | none =>
    refine .inl ?_
    simp only [SelectedStorage.open, hviolation]
    rw [SameButKey] at h
    cases hbackend : c.backend with
    | file =>
      rw [hbackend] at h
      obtain ⟨place, place', hfind, hfind', hsame⟩ := h
      simp only [Functor.map, EStateM.map, ItemDirectory.open_of_find hfind,
        ItemDirectory.open_of_find hfind']
      exact ⟨_, _, _, _, rfl, rfl, .directory hsame.sweep⟩
    | nvs =>
      rw [hbackend] at h
      obtain ⟨p, q, d₁, d₁', hopen, hopen', hitems⟩ := h
      simp only [Functor.map, EStateM.map, hopen, hopen']
      obtain ⟨d₀, f, -, hdevice, hmount⟩ := SelectedStorage.openPartition_eq_ok hopen
      obtain ⟨d₀', f', -, hdevice', hmount'⟩ := SelectedStorage.openPartition_eq_ok hopen'
      have hsmall : c.partition.sectorSize * c.partition.sectorCount < 2 ^ 32 :=
        Nat.lt_of_le_of_lt (partition_of_valid hviolation hbackend).2.2.1 (by decide)
      exact ⟨_, _, _, _, rfl, rfl, .partition
        (Partition.sameButKeyInFile_of_open hsmall hdevice hmount hdevice' hmount' hitems)⟩
    | none => exact ⟨_, _, _, _, rfl, rfl, .absent⟩

end Config

end UpdateVault
