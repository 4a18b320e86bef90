import Playbit.Graph.Walk
import Playbit.Graph.Search
import Playbit.Graph.Simulates
import Playbit.Graph.Table
import Playbit.Graph.Height
import Playbit.Graph.Scan
import Playbit.Graph.Closure
import Playbit.Graph.Parts
import Playbit.Graph.Marked
import Playbit.Graph.Roots
import Playbit.Python.Path
import Playbit.Python.Text
import Playbit.Python.Dict
import Playbit.Find.Expression
import Playbit.Find.Walk
import Playbit.Package.Basic
import Playbit.Package.ResolveDeps
import Playbit.Package.Resolution
import Playbit.Package.Cycles
import Playbit.Package.Recorded
import Playbit.Build.ResolveBuilds
import Playbit.Build.Order
import Playbit.Build.Exact
import Playbit.Build.NeedsBuild
import Playbit.Build.Verdict
import Playbit.Build.Dependants
import Playbit.Build.Acyclic
import Playbit.Build.Stamp
import Playbit.Build.Torn
import Playbit.Machine.ListLemmas
import Playbit.Machine.Run
import Playbit.Package.Sources
import Playbit.Package.SrcRoot
import Playbit.Package.Ignore
import Playbit.Package.Load
import Playbit.Package.Scan
import Playbit.Package.Covered
import Playbit.Build.Layers
import Playbit.Build.Runtime
import Playbit.Build.ListDeps
import Playbit.Build.Install
import Playbit.Build.Archdeps
import Playbit.Run.Basic
import Playbit.Run.Progress
import Playbit.Run.Consistent
import Playbit.Run.Again
import Playbit.Run.History
import Playbit.Run.Output
import Playbit.Run.Edits
import Playbit.Run.Converge
import Playbit.Run.DepStatus
import Playbit.Run.IgnoreArchs
import Playbit.Run.Config
import Playbit.Run.Environment
import Playbit.Machine.MountTable
import Playbit.Run.Mounts
import Playbit.Run.Sandbox
import Playbit.Run.SpecialDir
import Playbit.Run.Teardown
import Playbit.Run.DistrootCopy
import Playbit.Python.Canonical
import Playbit.Run.Checksum
import Playbit.Python.Words
import Playbit.Package.Directives
import Playbit.Package.DependsLine
import Playbit.Machine.Lines
import Playbit.Machine.LineReader
import Playbit.Run.LoggedCmd
import Playbit.Run.DepEnv
import Playbit.Port.Fetch
import Playbit.Port.Download
import Playbit.Posix.Printf
import Playbit.Port.RunOnce
import Playbit.Posix.Words
import Playbit.Port.Patches
import Playbit.Machine.Pipe
import Playbit.Machine.Heap
import Playbit.Gvim.Session
import Playbit.Gvim.Events
import Playbit.Gvim.Dialog
import Playbit.Gvim.Repaint
import Playbit.Gvim.Resize
import Playbit.Machine.InPlace
import Playbit.Gvim.Grid
import Playbit.Gvim.UI
import Playbit.Gvim.Screen
import Playbit.Gvim.Draw
import Playbit.Machine.Runs
import Playbit.Machine.Block
import Playbit.Gvim.Memory
import Playbit.Gvim.Paint
import Playbit.Gvim.Picture
import Playbit.Gvim.DialogText
import Playbit.Gvim.Clipboard
import Playbit.Gvim.Gui
import Playbit.Gvim.Keyboard
import Playbit.Machine.FileTree
import Playbit.Build.Copy
import Playbit.Build.Site
