import XposedJniTrace.Config.EndToEnd
import XposedJniTrace.Config.InitConfigData
import XposedJniTrace.Config.InjectedOnce
import XposedJniTrace.Config.IntoMySo
import XposedJniTrace.Config.LastRead
import XposedJniTrace.Config.ShowDialog
import XposedJniTrace.Dobby.Assembler
import XposedJniTrace.Dobby.BlocksApart
import XposedJniTrace.Dobby.Encoding
import XposedJniTrace.Dobby.HookedRuns
import XposedJniTrace.Dobby.Interceptor
import XposedJniTrace.Dobby.MemoryAllocator
import XposedJniTrace.Dobby.RelocatedRun
import XposedJniTrace.Dobby.Relocation
import XposedJniTrace.Dobby.RelocationSound
import XposedJniTrace.Dobby.Trampoline
import XposedJniTrace.Dobby.TrampolineLeads
import XposedJniTrace.Hook.HookInPlace
import XposedJniTrace.Hook.HookUtils
import XposedJniTrace.Hook.NearBranch
import XposedJniTrace.Hook.PatchOnce
import XposedJniTrace.Il2cpp.Attributable
import XposedJniTrace.Il2cpp.Declarations
import XposedJniTrace.Il2cpp.Dump
import XposedJniTrace.Il2cpp.HackPrepare
import XposedJniTrace.Il2cpp.Signature
import XposedJniTrace.Il2cpp.StringUtils
import XposedJniTrace.Il2cpp.Tracer
import XposedJniTrace.Jni.Arguments
import XposedJniTrace.Jni.Buffers
import XposedJniTrace.Jni.Calls
import XposedJniTrace.Jni.Interface
import XposedJniTrace.Jni.OwnTraced
import XposedJniTrace.Jni.References
import XposedJniTrace.Jni.Reports
import XposedJniTrace.Jni.Traced
import XposedJniTrace.Jni.Transparent
import XposedJniTrace.Jni.Wrappers
import XposedJniTrace.Library.Arm64
import XposedJniTrace.Library.BlockStream
import XposedJniTrace.Library.ByteMemory
import XposedJniTrace.Library.CodeLines
import XposedJniTrace.Library.Delivery
import XposedJniTrace.Library.FileTree
import XposedJniTrace.Library.FirstOf
import XposedJniTrace.Library.LinkTree
import XposedJniTrace.Library.LiteralPool
import XposedJniTrace.Library.LittleEndian
import XposedJniTrace.Library.Loop
import XposedJniTrace.Library.Orbit
import XposedJniTrace.Library.Posix
import XposedJniTrace.Library.Runs
import XposedJniTrace.Library.Search
import XposedJniTrace.Library.Spans
import XposedJniTrace.Library.StraightLine
import XposedJniTrace.Library.TextStream
import XposedJniTrace.Library.Utf16
import XposedJniTrace.Library.VaList
import XposedJniTrace.Library.WordFields
import XposedJniTrace.Linker.BreakStops
import XposedJniTrace.Linker.EachLoadOnce
import XposedJniTrace.Linker.FindSyscalls
import XposedJniTrace.Linker.FirstSymbol
import XposedJniTrace.Linker.GetAddr
import XposedJniTrace.Linker.LinkerCallBack
import XposedJniTrace.Linker.Maps
import XposedJniTrace.Linker.ModuleBase
import XposedJniTrace.Linker.RelocateLinker
import XposedJniTrace.Linker.ScanArm
import XposedJniTrace.Linker.ScanExact
import XposedJniTrace.Linker.StrtabBounds
import XposedJniTrace.Linker.Symbol
import XposedJniTrace.Sec.ApkFormat
import XposedJniTrace.Sec.Cert
import XposedJniTrace.Sec.CertAnchor
import XposedJniTrace.Sec.CertExtract
import XposedJniTrace.Sec.CertOrigin
import XposedJniTrace.Sec.CertScan
import XposedJniTrace.Sec.CertTermination
import XposedJniTrace.Sec.Md5
import XposedJniTrace.Sec.Md5Bounds
import XposedJniTrace.Sec.Md5Buffer
import XposedJniTrace.Sec.Md5Stream
import XposedJniTrace.Sec.Md5Transform
import XposedJniTrace.Sec.Md5Utils
import XposedJniTrace.Trace.ArgsInfo
import XposedJniTrace.Trace.ArgsReport
import XposedJniTrace.Trace.DlInfo
import XposedJniTrace.Trace.JavaValue
import XposedJniTrace.Trace.Labels
import XposedJniTrace.Trace.Matching
import XposedJniTrace.Trace.Mylibc
import XposedJniTrace.Trace.MylibcReads
import XposedJniTrace.Trace.ObjectReport
import XposedJniTrace.Trace.PassedThrough
import XposedJniTrace.Trace.StopsClean
import XposedJniTrace.Trace.Streams
import XposedJniTrace.Trace.StringHandler
import XposedJniTrace.Trace.Transparency
import XposedJniTrace.Utils.AppUtils
import XposedJniTrace.Utils.Attribution
import XposedJniTrace.Utils.CLog
import XposedJniTrace.Utils.DelFiles
import XposedJniTrace.Utils.Hex
import XposedJniTrace.Utils.MakeDir
import XposedJniTrace.Utils.Replace
import XposedJniTrace.Utils.SaveString
import XposedJniTrace.Utils.SoPath
import XposedJniTrace.Utils.TextFile
import XposedJniTrace.Utils.UnZipUtils
