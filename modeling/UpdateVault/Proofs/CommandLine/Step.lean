import UpdateVault.CommandLine.Program
import UpdateVault.Proofs.Update

/-!
# Steps of a command

What becomes of a desk when the disk on it is changed (`onDisk_ok`, `onDisk_error`). Nearly every
command first opens the vault at its root and goes on from the storage that it gets (`onVault`). A
run of the program shows what its command comes to (`Invocation.run_ok`, `Invocation.run_error`) and
leaves the disk as the command leaves it (`Invocation.disk_run`).
-/

namespace UpdateVault.CommandLine

variable {α ε : Type} {root : Path} {desk : Desk} {d d' : Disk}

section

variable {failure : ε → Failure} {change : Update ε Disk α}

theorem onDisk_ok {a : α} (h : change desk.disk = .ok a d') :
    onDisk failure change desk = .ok a { desk with disk := d' } := by
  simp only [onDisk, h]

theorem onDisk_error {e : ε} (h : change desk.disk = .error e d') :
    onDisk failure change desk = .error (failure e) { desk with disk := d' } := by
  simp only [onDisk, h]

end

/-! ## Opening the vault -/

/-- Opens the vault at a root and goes on from there. -/
def onVault (failure : Config → StorageError → Failure) (root : Path)
    (next : Config → SelectedStorage → Step α) : Step α := do
  let c ← expect id (configOf root (← get).disk)
  let s ← onDisk (failure c) (SelectedStorage.open c)
  next c s

variable {failure : Config → StorageError → Failure} {next : Config → SelectedStorage → Step α}
  {c : Config} {s : SelectedStorage}

theorem openStorage_bind (root : Path) (next : Config × SelectedStorage → Step α) :
    openStorage root >>= next
      = onVault (fun c => .opening c.backend root) root fun c s => next (c, s) := by
  rw [openStorage, onVault]
  simp only [bind_assoc, pure_bind]

/-- A vault that is opened is what the rest of the command works on. -/
theorem onVault_ok (hconfig : configOf root d = .ok c)
    (hopen : SelectedStorage.open c d = .ok s d') :
    onVault failure root next { disk := d } = next c s { disk := d' } := by
  rw [onVault, Update.get_bind, hconfig]
  simp only [expect, pure_bind]
  rw [Update.bind_ok (onDisk_ok hopen)]

theorem onVault_error {e : StorageError} (hconfig : configOf root d = .ok c)
    (hopen : SelectedStorage.open c d = .error e d') :
    onVault failure root next { disk := d } = .error (failure c e) { disk := d' } := by
  rw [onVault, Update.get_bind, hconfig]
  simp only [expect, pure_bind]
  rw [Update.bind_error (onDisk_error hopen)]

theorem onVault_unconfigured {f : Failure} (hconfig : configOf root d = .error f) :
    onVault failure root next { disk := d } = .error f { disk := d } := by
  rw [onVault, Update.get_bind, hconfig]
  rfl

/-! ## Runs of the program -/

variable {i : Invocation} {e : Environment}

theorem Invocation.run_ok {lines : List Line}
    (h : i.command.run i.format (i.rootIn e) { disk := d } = .ok lines desk) :
    i.run e d =
      { disk := desk.disk, code := 0, output := renderLines e.isColoured lines
        errors := renderLines e.isColoured (desk.warnings.map .warning) } := by
  rw [run]
  dsimp only
  rw [h]

theorem Invocation.run_error {f : Failure}
    (h : i.command.run i.format (i.rootIn e) { disk := d } = .error f desk) :
    i.run e d =
      { disk := desk.disk, code := 1
        errors :=
          renderLines e.isColoured (desk.warnings.map .warning ++ [.error f.message]) } := by
  rw [run]
  dsimp only
  rw [h]

/-- What is seen of a run: its exit code, its output and its errors. -/
def Outcome.shown (o : Outcome) : Nat × String × String := (o.code, o.output, o.errors)

/-- What is seen of a run is the lines of its command, and its warnings. -/
theorem Invocation.shown_run (i : Invocation) (e : Environment) (d : Disk) :
    (i.run e d).shown =
      match i.command.run i.format (i.rootIn e) { disk := d } with
      | .ok lines desk => (0, renderLines e.isColoured lines,
          renderLines e.isColoured (desk.warnings.map .warning))
      | .error f desk => (1, "",
          renderLines e.isColoured (desk.warnings.map .warning ++ [.error f.message])) := by
  rw [run]
  dsimp only
  cases i.command.run i.format (i.rootIn e) { disk := d } <;> rfl

/-- What a run leaves of the disk is what its command leaves. -/
theorem Invocation.disk_run (i : Invocation) (e : Environment) (d : Disk) :
    (i.run e d).disk = ((i.command.run i.format (i.rootIn e)).after { disk := d }).disk := by
  rw [run, Update.after]
  dsimp only
  cases i.command.run i.format (i.rootIn e) { disk := d } <;> rfl

end UpdateVault.CommandLine
