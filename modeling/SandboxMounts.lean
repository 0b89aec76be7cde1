import SandboxMounts.Device.NumberJson
import SandboxMounts.Main
import SandboxMounts.Proofs.CallRecord
import SandboxMounts.Rootfs.Teardown
import SandboxMounts.Proofs.BindSequence
import SandboxMounts.Proofs.MountHistory
import SandboxMounts.Proofs.BoundaryWalk
import SandboxMounts.Proofs.Reach
import SandboxMounts.Proofs.Cleaning
import SandboxMounts.Proofs.MountPoint
import SandboxMounts.Proofs.TableShape
import SandboxMounts.Proofs.FirstMatch
import SandboxMounts.Proofs.WrittenTable
import SandboxMounts.Proofs.Visits
import SandboxMounts.Proofs.Growth
import SandboxMounts.Proofs.RoundTrip
import SandboxMounts.Proofs.Isolation
import SandboxMounts.Proofs.Shape
import SandboxMounts.Proofs.Frame
import SandboxMounts.Proofs.LookingOnly
import SandboxMounts.Proofs.Confinement
import SandboxMounts.Proofs.TokenSpelling
import SandboxMounts.Proofs.CompactText
import SandboxMounts.Proofs.Settings
import SandboxMounts.Proofs.RecordText
import SandboxMounts.Proofs.TeardownOrder
import SandboxMounts.Proofs.Passage
import SandboxMounts.Proofs.Soundness
import SandboxMounts.Proofs.Paving
import SandboxMounts.Proofs.Ascent
import SandboxMounts.Proofs.Groundwork
import SandboxMounts.Proofs.Neighbours
import SandboxMounts.Proofs.Placement
import SandboxMounts.Proofs.Commuting
import SandboxMounts.Proofs.TokenReading
import SandboxMounts.Proofs.Grammar
import SandboxMounts.Proofs.Assignments
import SandboxMounts.Proofs.Normalization
import SandboxMounts.Proofs.DeviceAnswers
import SandboxMounts.Proofs.SystemDirs
import SandboxMounts.Proofs.DeviceNumbers
import SandboxMounts.Proofs.DeviceReport
import SandboxMounts.Proofs.DeviceRuns
import SandboxMounts.Proofs.JoinedTables
import SandboxMounts.Proofs.Repetition
