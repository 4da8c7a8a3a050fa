import UpdateVault.Flash.Chip
import UpdateVault.Lock
import UpdateVault.Main
import UpdateVault.Storage.Memory
import UpdateVault.Proofs.Checkpoint.Codec
import UpdateVault.Proofs.Partition.Table
import UpdateVault.Proofs.Flash.Chip
import UpdateVault.Proofs.Partition.Bank
import UpdateVault.Proofs.Partition.Mount
import UpdateVault.Proofs.Partition.Commit
import UpdateVault.Proofs.Partition.Call
import UpdateVault.Proofs.Flash.Steps
import UpdateVault.Proofs.Partition.Steps
import UpdateVault.Proofs.Partition.PowerLoss
import UpdateVault.Proofs.Partition.Durability
import UpdateVault.Proofs.Provides.Text
import UpdateVault.Proofs.Disk.Change
import UpdateVault.Proofs.Storage.Kept
import UpdateVault.Proofs.Storage.Partition
import UpdateVault.Proofs.Storage.Directory
import UpdateVault.Proofs.Vault.Records
import UpdateVault.Proofs.Flash.ImageFile
import UpdateVault.Proofs.Storage.ImageFile
import UpdateVault.Proofs.Vault.Calls
import UpdateVault.Proofs.Vault.Runs
import UpdateVault.Proofs.Vault.Access
import UpdateVault.Proofs.Vault.Faults
import UpdateVault.Proofs.Disk.Frame
import UpdateVault.Proofs.Storage.PowerLoss
import UpdateVault.Proofs.Storage.Interchange
import UpdateVault.Proofs.Vault.Boot
import UpdateVault.Proofs.Flash.Lockstep
import UpdateVault.Proofs.Vault.Finishing
import UpdateVault.Proofs.Vault.Atomic
import UpdateVault.Proofs.Provides.Layout
import UpdateVault.Proofs.Vault.KeyHistory
import UpdateVault.Proofs.Json.Number
import UpdateVault.Proofs.Json.Quoted
import UpdateVault.Proofs.Json.Reading
import UpdateVault.Proofs.Lock
import UpdateVault.Proofs.Config.Text
import UpdateVault.Proofs.Config.File
import UpdateVault.Proofs.Config.Use
import UpdateVault.Proofs.Vault.Secrecy
import UpdateVault.Proofs.Storage.Secrecy
import UpdateVault.Proofs.CommandLine.Step
import UpdateVault.Proofs.CommandLine.Secrecy
import UpdateVault.Proofs.Checkpoint.Damage
import UpdateVault.Proofs.Provides.Meaning
import UpdateVault.Proofs.Vault.WritingBack
import UpdateVault.Proofs.Vault.Texts
import UpdateVault.Proofs.Partition.Capacity
import UpdateVault.Proofs.Partition.Recovery
import UpdateVault.Proofs.Flash.History
import UpdateVault.Proofs.Storage.Containment
import UpdateVault.Proofs.Flash.Opening
import UpdateVault.Proofs.Config.Opening
import UpdateVault.Proofs.CommandLine.Parsing
import UpdateVault.Proofs.CommandLine.SettingUp
import UpdateVault.Proofs.Utf8
import UpdateVault.Proofs.Config.Writing
import UpdateVault.Proofs.CommandLine.Vault
import UpdateVault.Proofs.CommandLine.Pairs
import UpdateVault.Proofs.CommandLine.Provides
import UpdateVault.Proofs.Partition.Entries
import UpdateVault.Proofs.Flash.Recorder
import UpdateVault.Proofs.Partition.Sequence
import UpdateVault.Proofs.Json.Sorting
import UpdateVault.Proofs.CommandLine.Status
