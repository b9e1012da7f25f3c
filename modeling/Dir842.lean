import Dir842.Quagga.RoundTrip
import Dir842.Lua.CrossDump
import Dir842.Build.Stamps
import Dir842.Kconfig.WriteAutoconf
import Dir842.Strongswan.StrokeControl
import Dir842.Twamp.Server
import Dir842.Target.Pack
import Dir842.Kconfig.AutoJson
import Dir842.Profile.ParseProfile
import Dir842.Profile.UpdateProfile
import Dir842.Twamp.Timestamps
import Dir842.Lib.JsonPath
import Dir842.Profile.RemovePath
import Dir842.Quagga.KernelRoute
import Dir842.Quagga.RibProcess
import Dir842.Lib.Memory
import Dir842.Strongswan.FileLogger
import Dir842.Build.ApplyPatches
import Dir842.Lib.DepthFirst
import Dir842.Build.DependencyOrder
import Dir842.Kconfig.EditMacros
import Dir842.Lua.SubExpr
import Dir842.Lua.Parens
import Dir842.Teal.PrettyPrint
import Dir842.Lib.Scan
import Dir842.Tz.OutZone
import Dir842.Tz.CollectZones
import Dir842.Target.RoundFile
import Dir842.Target.RlxPack
import Dir842.Makedevs.Table
import Dir842.Makedevs.Lines
import Dir842.Mosquitto.TryConnect
import Dir842.Build.GraphBuildTime
import Dir842.Lib.FileTree
import Dir842.Target.SizeStats
import Dir842.Build.PackageFiles
import Dir842.Build.GenHashes
import Dir842.Build.SourceTargets
import Dir842.Lib.Explore
import Dir842.Build.GraphDepends
import Dir842.Target.FindLibdeps
import Dir842.Target.FileSizes
import Dir842.Target.SizeCompare
import Dir842.Profile.MassEdit
import Dir842.Lib.Factor
import Dir842.Kconfig.Expr
import Dir842.Kconfig.ExprEq
import Dir842.Kconfig.ExprDups
import Dir842.Kconfig.ExprTransform
import Dir842.Kconfig.Menu
import Dir842.Kconfig.CalcValue
import Dir842.Kconfig.CalcSolution
import Dir842.Kconfig.Session
import Dir842.Kconfig.SetValue
import Dir842.Kconfig.Solution
import Dir842.Ldp.Fib
