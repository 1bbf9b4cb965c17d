import SysInC.KmemAlignment
import SysInC.KmemRealloc
import SysInC.PythontRange
import SysInC.ZpackExtract
import SysInC.ZpackFraming
import SysInC.KdiskfsFaults
import SysInC.KernelAdduser
import SysInC.FileCopy
import SysInC.RmdShred
import SysInC.Fdup
import SysInC.Org
import SysInC.KryptShred
import SysInC.KryptRecords
import SysInC.KvfsAlias
import SysInC.KdiskfsHeap
import SysInC.PythontIndent
import SysInC.B64Strict
import SysInC.Chip8Draw
import SysInC.Chip8Flags
import SysInC.CalcStacks
import SysInC.CalcAccept
import SysInC.PythontBalance
import SysInC.QrModules
import SysInC.QrReedSolomon
import SysInC.UtilipcLogs
import SysInC.UtilipcProcs
import SysInC.LshLists
import SysInC.LshPipeline
import SysInC.LshRedirect
import SysInC.PythontScope
import SysInC.PythontReads
import SysInC.PythontString
import SysInC.Simplehost
import SysInC.Netclip
import SysInC.PythontClimb
import SysInC.SimplehostUpload
import SysInC.PythontRespects
import SysInC.KvfsPaths
import SysInC.PythontInline
import SysInC.PythontMethods
import SysInC.PythontSlice
import SysInC.PythontPlainLines
import SysInC.KernelSqrt
import SysInC.Kringbuf
import SysInC.Kdiv64
import SysInC.KernelSnake
import SysInC.KernelCd
import SysInC.KdiskfsNames
import SysInC.KfixedRange
import SysInC.KprintfSafe
import SysInC.KprintfDocs
import SysInC.DateReminders
import SysInC.Ps2Mouse
import SysInC.KgfxDirty
import SysInC.ZpackMemory
import SysInC.ZpackCrc
import SysInC.KryptPassword
import SysInC.KryptStream
import SysInC.Kstring
import SysInC.DnsName
import SysInC.DnsCache
import SysInC.DnsAnswer
import SysInC.JsonShorthand
import SysInC.ImgviewBmp
import SysInC.TeditText
import SysInC.JpegSafe
import SysInC.LshBuffers
import SysInC.TerminalGrid
import SysInC.KgfxDrawing
import SysInC.JpegScan
import SysInC.LshReadline
