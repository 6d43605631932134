import Vnt.Arena.OptimizeValid
import Vnt.Async.Stream
import Vnt.Backend.Branch
import Vnt.Cfg.Liveness
import Vnt.Compile.Initialised
import Vnt.Compile.ReadBack
import Vnt.Compile.Returns
import Vnt.Front.Confinement
import Vnt.Ir.Settled
import Vnt.Net.ChunkRoundTrip
import Vnt.Net.Pool
import Vnt.Net.Relative
import Vnt.Os.AcpiDiscovery
import Vnt.Os.Console
import Vnt.Os.Spinlock
import Vnt.Os.SelfTest
import Vnt.Os.ShellRun
import Vnt.Os.TagWalk
import Vnt.Os.VirtMap
import Vnt.Parse.Chain
import Vnt.Runtime.BigIntExact
import Vnt.Runtime.JsonValueAt
import Vnt.Runtime.Process
import Vnt.Runtime.Sha256
import Vnt.Runtime.Utf8
import Vnt.Runtime.WinArgSplit
import Vnt.StdLib.Calendar
import Vnt.StdLib.ConfigLookup
import Vnt.StdLib.CsvRoundTrip
import Vnt.StdLib.Number
import Vnt.StdLib.PathLaws
import Vnt.StdLib.Statistics
import Vnt.VBuild.Coverage
import Vnt.VBuild.Incremental
import Vnt.VBuild.Provenance
import Vnt.VBuild.TaskGraph
import Vnt.Vnx.Execute
