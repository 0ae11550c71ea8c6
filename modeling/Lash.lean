import Lash.Refine
import Lash.Lib.Trace
import Lash.Connection
import Lash.Saved
import Lash.Finish
import Lash.Document
import Lash.Stuck
import Lash.Round
import Lash.SaveProtocol
import Lash.Circular
import Lash.LaunchOrder
import Lash.LaunchAll
import Lash.Disk
import Lash.DataSet
import Lash.Reopen
import Lash.Written
import Lash.Commit
import Lash.LastDataSet
import Lash.Atomic
import Lash.Deeds
import Lash.DiskOps
import Lash.Heads
import Lash.Frames
import Lash.Offers
import Lash.Isolation
import Lash.Delivered
import Lash.Departures
import Lash.Text
import Lash.ProjectFile
import Lash.Jack.Manager
import Lash.Jack.Restart
import Lash.Jack.Registry
import Lash.Jack.Conservation
import Lash.Alsa.Manager
import Lash.Alsa.Startup
import Lash.Jack.Legacy
import Lash.Jack.Startup
import Lash.Lib.Register
import Lash.Registration
import Lash.Jack.Reconnect
import Lash.Births
import Lash.Slots
import Lash.Admission
import Lash.Jack.OldPatch
import Lash.FailedMove
import Lash.Changes
import Lash.Modified
import Lash.FailedSave
import Lash.Places
import Lash.DataPaths
import Lash.ClientStores
import Lash.Dbus
import Lash.Methods
import Lash.Liblash.Client
import Lash.Liblash.Methods
import Lash.Operations
import Lash.Liblash.Signals
import Lash.OneReply
import Lash.ProjectName
import Lash.Gauge
import Lash.Progress
import Lash.Liblash.Config
import Lash.RoundTrip
import Lash.Jack.Unset
import Lash.Lib.Ring
import Lash.Memory
import Lash.Handover
import Lash.Alsa.Patch
import Lash.Collect
import Lash.PatchXml
import Lash.ConfigFile
import Lash.InfoFile
import Lash.RemoveDir
import Lash.RemoveTree
import Lash.LinkedDirs
import Lash.ChildOutput
import Lash.Lib.Lines
import Lash.OutputLog
import Lash.Lib.Shell
import Lash.Xterm
import Lash.StoreUses
import Lash.NewName
import Lash.Liblash.Args
import Lash.DesktopEntry
import Lash.Appdb
import Lash.ClientNames
import Lash.Jack.Ports
import Lash.Loader
import Lash.LastWords
import Lash.DataRefs
import Lash.NothingLost
import Lash.Clients.NameClash
