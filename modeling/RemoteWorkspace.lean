import RemoteWorkspace.Boundary
import RemoteWorkspace.Client.Closing
import RemoteWorkspace.Client.CommandLine
import RemoteWorkspace.Client.Deploy
import RemoteWorkspace.Client.Fleet
import RemoteWorkspace.Client.FleetFile
import RemoteWorkspace.Client.FleetReload
import RemoteWorkspace.Client.Probes
import RemoteWorkspace.Client.Sends
import RemoteWorkspace.Install
import RemoteWorkspace.Lib.Alone
import RemoteWorkspace.Lib.Base64
import RemoteWorkspace.Lib.Crew
import RemoteWorkspace.Lib.Decimal
import RemoteWorkspace.Lib.FileTree
import RemoteWorkspace.Lib.History
import RemoteWorkspace.Lib.Json
import RemoteWorkspace.Lib.Keyed
import RemoteWorkspace.Lib.Machine
import RemoteWorkspace.Lib.Occurrences
import RemoteWorkspace.Lib.Prog
import RemoteWorkspace.Lib.Serde
import RemoteWorkspace.Lib.ShellWords
import RemoteWorkspace.Lib.SideBySide
import RemoteWorkspace.Lib.Text
import RemoteWorkspace.Lib.Utf8
import RemoteWorkspace.Lib.WindowsCommand
import RemoteWorkspace.Protocol
import RemoteWorkspace.Resolution
import RemoteWorkspace.Server.CommitAbort
import RemoteWorkspace.Server.Confined
import RemoteWorkspace.Server.EditLists
import RemoteWorkspace.Server.EditMatches
import RemoteWorkspace.Server.Edits
import RemoteWorkspace.Server.ExecRuns
import RemoteWorkspace.Server.Handlers
import RemoteWorkspace.Server.ListPages
import RemoteWorkspace.Server.MarkerFate
import RemoteWorkspace.Server.OnceOnly
import RemoteWorkspace.Server.OutputCapture
import RemoteWorkspace.Server.ReadPages
import RemoteWorkspace.Server.RegistryFaults
import RemoteWorkspace.Server.Replies
import RemoteWorkspace.Server.Requests
import RemoteWorkspace.Server.ServeLoop
import RemoteWorkspace.Server.Sessions
import RemoteWorkspace.Server.Steps
import RemoteWorkspace.Server.SweepRuns
import RemoteWorkspace.Server.Sweeps
import RemoteWorkspace.Server.UploadRecord
import RemoteWorkspace.Server.WaitRuns
import RemoteWorkspace.Server.Work
import RemoteWorkspace.Store.Commands
import RemoteWorkspace.Store.Completes
import RemoteWorkspace.Store.Conclusions
import RemoteWorkspace.Store.HistoryOrder
import RemoteWorkspace.Store.Landed
import RemoteWorkspace.Store.Loading
import RemoteWorkspace.Store.Log
import RemoteWorkspace.Store.LogBytes
import RemoteWorkspace.Store.Mirror
import RemoteWorkspace.Store.Prune
import RemoteWorkspace.Store.PrunedEvidence
import RemoteWorkspace.Store.Reached
import RemoteWorkspace.Store.Recovery
import RemoteWorkspace.Store.Restart
import RemoteWorkspace.Store.Retiming
import RemoteWorkspace.Store.StartUp
import RemoteWorkspace.Store.Table
import RemoteWorkspace.Store.Terminal
import RemoteWorkspace.Store.Verdict
import RemoteWorkspace.Transfer.Downloads
import RemoteWorkspace.Transfer.Framing
import RemoteWorkspace.Transfer.RoundTrip
import RemoteWorkspace.Transfer.Uploads
import RemoteWorkspace.Wire.Messages
import RemoteWorkspace.Workspace
