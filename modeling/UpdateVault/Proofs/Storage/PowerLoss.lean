import UpdateVault.Proofs.Disk.PowerLoss
import UpdateVault.Proofs.Storage.Directory

/-!
# A directory after a loss of power

Up to the rename a write has changed no more than its temporary file, which opening takes away;
after the rename nothing is left to do. So wherever the power is lost, the opened directory has the
old content of the item or the new data, and opening it twice is opening it once
(`open_after_power_loss`).
-/

namespace UpdateVault.ItemDirectory

variable {root : Path} {d : Disk} {place : Location} {name : String} {data : Bytes}
  {s' : ItemDirectory}

/-- The steps in which the file of an item is written. -/
def writeSteps (directory : Location) (name : String) (data : Bytes) : List Disk.Change :=
  Disk.replaceSteps (temporaryOf directory name) (fileOf directory name) data

/-- A directory that was opened after changes of one item's file only: the file is as given, and
but for temporary files that were taken away everything is as it was. -/
structure Recovered (d : Disk) (name : String) (node? : Option Node) (s : ItemDirectory) :
    Prop where
  here_eq : s.disk.here = d.here
  file_eq : s.disk.node? (fileOf s.place name) = node?
  temporary_eq : s.disk.node? (temporaryOf s.place name) = none
  clean : ∀ other, ¬ Leftover s.root s.place s.disk other
  same : ∀ other, other ≠ fileOf s.place name → other ≠ temporaryOf s.place name →
    ¬ Leftover s.root s.place d other → s.disk.node? other = d.node? other
  settled : «open» s.root s.disk = .ok s s.disk

/-- Whatever became of the file of an item and of its temporary file, opening finds it. -/
theorem open_of_changesFiles {d' : Disk} (hroot : d.find root = .ok (place, .directory))
    (hitem : isItemName name = true) (hreach : reachFault? root (name ++ temporarySuffix) = none)
    (hfree : d.node? (temporaryOf place name) ≠ some .directory)
    (hd : Disk.ChangesFiles [temporaryOf place name, fileOf place name] d d') :
    ∃ t : ItemDirectory, «open» root d' = .ok t t.disk ∧ t.root = root ∧ t.place = place ∧
      t.Recovered d name (d'.node? (fileOf place name)) := by
  have hfound := Disk.find_of_keeps hd.keeps hroot
  refine ⟨⟨root, place, sweep d' root place⟩, open_of_find hfound, rfl, rfl, hd.here_eq, ?_, ?_,
    fun _ => not_leftover_sweep, fun other hfile htemporary hleft => ?_, ?_⟩
  · exact node?_sweep_of_isItemName hitem
  · show (sweep d' root place).node? (temporaryOf place name) = none
    cases hnode : d'.node? (temporaryOf place name) with
    | none => exact node?_sweep_of_none hnode
    | some node =>
      cases node with
      | directory => exact absurd ((hd.directory_iff _).1 hnode) hfree
      | file content =>
        exact node?_sweep_of_leftover ⟨_, content, rfl, hnode, isTemporary_append name, hreach⟩
  · have hother : d'.node? other = d.node? other := hd.same other (by simp [hfile, htemporary])
    refine (node?_sweep_of_not_leftover ?_).trans hother
    rintro ⟨name', content, hname, hnode, hrest⟩
    exact hleft ⟨name', content, hname, hother ▸ hnode, hrest⟩
  · have hkeeps : Disk.Keeps d' (sweep d' root place) := keeps_sweep place
    have hopen := open_of_find (Disk.find_of_keeps hkeeps hfound)
    rwa [sweep_eq_self fun _ => not_leftover_sweep] at hopen

/-- **Wherever the power is lost during a write, the directory that is opened afterwards has the
old content of the item or the new data, and no trace of the write otherwise.** The steps that are
counted are the changes that the write itself makes, with its data written a byte at a time. -/
theorem open_after_power_loss (hroot : d.find root = .ok (place, .directory))
    (hwrite : write name data ⟨root, place, d⟩ = .ok () s') (k : Nat) :
    Disk.run (Disk.replaceChanges (temporaryOf place name) (fileOf place name) data) d
      = .ok () s'.disk ∧
    Disk.run (writeSteps place name data) d = .ok () s'.disk ∧
    ∃ t : ItemDirectory,
      «open» root (Disk.cut (writeSteps place name data) k d) = .ok t t.disk ∧
      t.root = root ∧ t.place = place ∧
      t.Recovered d name (if k < (writeSteps place name data).length
        then d.node? (fileOf place name) else some (.file data)) ∧
      ((writeSteps place name data).length ≤ k →
        Disk.cut (writeSteps place name data) k d = s'.disk) := by
  obtain ⟨hitem, hreach, -, hreplace⟩ := write_eq_ok hwrite
  have hne := temporaryOf_ne place name
  obtain ⟨htemporary, -, hfree, -⟩ := Disk.replace_eq_ok hne hreplace
  have hrun := Disk.run_of_replace hreplace
  have hsteps : Disk.run (writeSteps place name data) d = .ok () s'.disk :=
    (Disk.run_replaceSteps htemporary hfree).trans hrun
  have hchanges : Disk.ChangesFiles [temporaryOf place name, fileOf place name] d
      (Disk.cut (writeSteps place name data) k d) := Disk.cut_changesFiles
  obtain ⟨t, hopen, htroot, htplace, hrecovered⟩ :=
    open_of_changesFiles hroot hitem hreach hfree hchanges
  have hlength : (writeSteps place name data).length = data.length + 2 := Disk.length_replaceSteps
  have hfile : (Disk.cut (writeSteps place name data) k d).node? (fileOf place name)
      = if k < data.length + 2 then d.node? (fileOf place name) else some (.file data) :=
    Disk.node?_cut_target hne hreplace
  rw [hfile] at hrecovered
  rw [hlength]
  exact ⟨hrun, hsteps, t, hopen, htroot, htplace, hrecovered,
    Disk.cut_replaceSteps_of_le hne hreplace⟩

/-! ## A path that is too long for a temporary file -/

/-- A disk with an old item and the temporary file of another one at its top. -/
def interruptedDisk : Disk :=
  ⟨.ofList [(["key.der"], .file [1]), (["deployment-data.json.tmp"], .file [2])], []⟩

theorem write_interruptedDisk {n : Nat} (hpos : 0 < n) (hlen : n ≤ 4084) (data : Bytes) :
    ∃ s', write "key.der" data ⟨slashes n, [], interruptedDisk⟩ = .ok () s' := by
  have hreach : reachFault? (slashes n) (Item.privateKey.name ++ temporarySuffix) = none := by
    rw [reachFault?_slashes_eq hpos (by decide) (by decide), if_neg]
    have hsize : (Item.privateKey.name ++ temporarySuffix).utf8ByteSize = 11 := by decide
    rw [hsize, Disk.maxPathLength]
    omega
  have htemporary : interruptedDisk.node? ["key.der.tmp"] ≠ some .directory := by decide
  have hfile : interruptedDisk.node? ["key.der"] ≠ some .directory := by decide
  let s : ItemDirectory := ⟨slashes n, [], interruptedDisk⟩
  obtain ⟨d, hwrite, -⟩ := write_of_reach (s := s) data hreach htemporary hfile
  exact ⟨_, hwrite⟩

/-- The power is lost between the two bytes of an item. -/
theorem open_after_power_loss_between_bytes :
    interruptedDisk.find (slashes 1) = .ok ([], .directory) ∧
    (∃ s', write "key.der" [3, 4] ⟨slashes 1, [], interruptedDisk⟩ = .ok () s' ∧
      Disk.run (writeSteps [] "key.der" [3, 4]) interruptedDisk = .ok () s'.disk) ∧
    ∃ t : ItemDirectory,
      «open» (slashes 1) (Disk.cut (writeSteps [] "key.der" [3, 4]) 2 interruptedDisk)
        = .ok t t.disk ∧
      t.Recovered interruptedDisk "key.der" (some (.file [1])) := by
  have hroot : interruptedDisk.find (slashes 1) = .ok ([], .directory) :=
    find_slashes _ (by decide) (by decide)
  obtain ⟨s', hwrite⟩ := write_interruptedDisk (n := 1) (by decide) (by decide) [3, 4]
  obtain ⟨-, hsteps, t, hopen, -, -, hrecovered, -⟩ := open_after_power_loss hroot hwrite 2
  exact ⟨hroot, ⟨s', hwrite, hsteps⟩, t, hopen, hrecovered⟩

/-- A long path can lead to a directory and to its items, but not to all its temporary files. The
power is lost before a write has done anything, and opening leaves a temporary file there. -/
theorem temporary_left_by_open :
    interruptedDisk.find (slashes 4080) = .ok ([], .directory) ∧
    (∃ s', write "key.der" [3, 4] ⟨slashes 4080, [], interruptedDisk⟩ = .ok () s') ∧
    ∃ t : ItemDirectory,
      «open» (slashes 4080) (Disk.cut (writeSteps [] "key.der" [3, 4]) 0 interruptedDisk)
        = .ok t t.disk ∧
      isTemporary "deployment-data.json.tmp" = true ∧
      t.disk.node? ["deployment-data.json.tmp"] = some (.file [2]) := by
  have hroot : interruptedDisk.find (slashes 4080) = .ok ([], .directory) :=
    find_slashes _ (by decide) (by decide)
  refine ⟨hroot, write_interruptedDisk (by decide) (by decide) [3, 4],
    ⟨slashes 4080, [], sweep interruptedDisk (slashes 4080) []⟩, open_of_find hroot, by decide, ?_⟩
  refine (node?_sweep_of_not_leftover ?_).trans (by decide)
  rintro ⟨name, content, hname, -, -, hreach⟩
  cases hname
  rw [reachFault?_slashes_eq (by decide) (by decide) (by decide), if_pos (by decide)] at hreach
  cases hreach

end UpdateVault.ItemDirectory
