import FfiBenchmark.Lib.Rounding
import FfiBenchmark.Lib.Lifo
import FfiBenchmark.Lib.Runs
import FfiBenchmark.Lib.Table
import FfiBenchmark.Lib.Loop
import FfiBenchmark.Lib.Unicode
import FfiBenchmark.Java
import FfiBenchmark.NativeStack
import FfiBenchmark.NativeStack.Allocate
import FfiBenchmark.NativeStack.Calls
import FfiBenchmark.NativeStack.Slices
import FfiBenchmark.NativeStack.Alike
import FfiBenchmark.NativeStack.LikeNew
import FfiBenchmark.NativeStack.Frames
import FfiBenchmark.Pool
import FfiBenchmark.Pool.Ownership
import FfiBenchmark.Pool.Histories
import FfiBenchmark.Pool.Recycling
import FfiBenchmark.Pool.Retention
import FfiBenchmark.StringTable
import FfiBenchmark.GetString
import FfiBenchmark.GetString.Strlen
import FfiBenchmark.GetString.RoundTrip
import FfiBenchmark.Pool.Release
import FfiBenchmark.Lib.Bytes
import FfiBenchmark.Lib.Layout
import FfiBenchmark.MemoryLayout
import FfiBenchmark.Sysinfo
import FfiBenchmark.Sysinfo.View
import FfiBenchmark.Lib.Simulation
import FfiBenchmark.Pool.Atomicity
import FfiBenchmark.Pool.Steps
import FfiBenchmark.Pool.Discipline
import FfiBenchmark.Pool.Isolation
import FfiBenchmark.Lib.Budget
import FfiBenchmark.Pool.Capacity
import FfiBenchmark.Lib.Sorting
import FfiBenchmark.QSort
import FfiBenchmark.QSort.Calls
import FfiBenchmark.QSort.Session
import FfiBenchmark.Lib.ModifiedUtf8
import FfiBenchmark.StringConvert
