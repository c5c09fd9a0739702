import Pycopy.Lib.DigitList
import Pycopy.Mpz.Mpn
import Pycopy.Lib.TwosComplement
import Pycopy.Mpz.Arith
import Pycopy.Gc.Alloc
import Pycopy.Gc.Overrun
import Pycopy.Gc.LastFree
import Pycopy.Gc.ReallocSize
import Pycopy.Lib.ByteString
import Pycopy.Lib.OpenAddressing
import Pycopy.Map.Map
import Pycopy.Runtime.BinaryOp
import Pycopy.Runtime.Scheduler
import Pycopy.Str.Index
import Pycopy.Seq.MemoryView
import Pycopy.Extmod.Websocket
import Pycopy.Extmod.WebsocketIo
import Pycopy.Extmod.WebreplLogin
import Pycopy.Extmod.WebreplPut
import Pycopy.Compile.Indent
import Pycopy.Uasyncio.Drain
import Pycopy.Runtime.Generator
import Pycopy.Runtime.Hash
import Pycopy.Lib.PrefixTable
import Pycopy.Extmod.Vfs
import Pycopy.Runtime.SetMethods
import Pycopy.Map.Ordered
import Pycopy.Map.DictEqual
import Pycopy.Runtime.ParseNum
import Pycopy.Struct.IntBytes
import Pycopy.Seq.Range
import Pycopy.Seq.Compare
import Pycopy.Seq.Sort
import Pycopy.Str.Vstr
import Pycopy.Seq.ArrayObj
import Pycopy.Compile.Progress
import Pycopy.Compile.StringLiteral
import Pycopy.Compile.Fold
import Pycopy.Lib.Cut
import Pycopy.Str.Split
import Pycopy.Str.Replace
import Pycopy.Str.Count
import Pycopy.Str.Utf8Check
import Pycopy.Bytecode.LineInfo
import Pycopy.Bytecode.Prelude
import Pycopy.Io.ReadUtf8
import Pycopy.Runtime.ExcText
import Pycopy.Io.Stringio
import Pycopy.Lib.BinaryHeap
import Pycopy.Extmod.Binascii
import Pycopy.Io.Closed
import Pycopy.Extmod.Uctypes
import Pycopy.Struct.Layout
import Pycopy.Extmod.Uheapq
import Pycopy.Runtime.Ringbuf
import Pycopy.Extmod.Urandom
import Pycopy.Extmod.VfsMounts
import Pycopy.Extmod.Framebuf
import Pycopy.Extmod.FbLine
import Pycopy.Extmod.LfsPath
import Pycopy.Lib.Gregorian
import Pycopy.Runtime.Timeutils
