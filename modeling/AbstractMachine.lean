import AbstractMachine.Lib.RadixTree
import AbstractMachine.Lib.TableMem
import AbstractMachine.Lib.StateExcept
import AbstractMachine.Lib.SignedWord
import AbstractMachine.X86.Vme.Config
import AbstractMachine.X86.Vme.Model
import AbstractMachine.X86.Vme.Entry
import AbstractMachine.X86.Vme.Ptwalk
import AbstractMachine.X86.Vme.HwWalk
import AbstractMachine.X86.Vme.Space
import AbstractMachine.X86.Vme.Protect
import AbstractMachine.X86.Vme.MapRefines
import AbstractMachine.Lib.Transition
import AbstractMachine.X86.Vme.Teardown
import AbstractMachine.X86.Vme.Kernel
import AbstractMachine.X86.Vme.Boot
import AbstractMachine.X86.Vme.Identity
import AbstractMachine.X86.Vme.System
import AbstractMachine.X86.Vme.Isolation
import AbstractMachine.Lib.Chain
import AbstractMachine.Lib.ByteMem
import AbstractMachine.Native.Vme.Model
import AbstractMachine.Native.Vme.MapList
import AbstractMachine.Native.Vme.Switch
import AbstractMachine.Native.Vme.SharedFlags
import AbstractMachine.Native.Vme.HostMap
import AbstractMachine.X86.Cte.Model
import AbstractMachine.X86.Cte.System
import AbstractMachine.X86.Cte.KernelStack
import AbstractMachine.X86.Cte.Directories
import AbstractMachine.Riscv.Trap.Model
import AbstractMachine.Riscv.Trap.Frame
import AbstractMachine.Riscv.Trap.Threads
import AbstractMachine.X86.Trap32.Model
import AbstractMachine.X86.Trap32.Stack
import AbstractMachine.X86.Trap32.Iret
import AbstractMachine.X86.Trap32.Entry
import AbstractMachine.Klib.String.Model
import AbstractMachine.Klib.String.Memcpy
import AbstractMachine.Klib.String.Memmove
import AbstractMachine.Riscv.Trap.Pdir
import AbstractMachine.Riscv.Trap.Kcontext
import AbstractMachine.Riscv.Trap.Yield
import AbstractMachine.Lib.Window
import AbstractMachine.Lib.WordBytes
import AbstractMachine.Rvmini.Machine
import AbstractMachine.Rvmini.Macro
import AbstractMachine.Rvmini.Lut
import AbstractMachine.Rvmini.Rv32i
import AbstractMachine.Rvmini.Scratch
import AbstractMachine.Rvmini.Bytes
import AbstractMachine.Rvmini.Logic
import AbstractMachine.Rvmini.Compare
import AbstractMachine.Rvmini.Shift
import AbstractMachine.Rvmini.Loads
import AbstractMachine.Rvmini.Equality
import AbstractMachine.Rvmini.Branch
import AbstractMachine.Klib.Stdlib.Malloc
import AbstractMachine.Klib.Stdlib.Start
import AbstractMachine.Lib.Ring
import AbstractMachine.Nemu.Ioe.Model
import AbstractMachine.Nemu.Ioe.Gpu
import AbstractMachine.Lib.Picture
import AbstractMachine.X86.Ioe.Gpu
import AbstractMachine.Lib.Bump
import AbstractMachine.X86.Ioe.Canvas
import AbstractMachine.X86.Ioe.Vbuf
import AbstractMachine.X86.Ioe.Scale
import AbstractMachine.X86.Ioe.Render
import AbstractMachine.Nemu.Ioe.Clip
import AbstractMachine.Nemu.Ioe.Audio
import AbstractMachine.Nemu.Ioe.Stream
import AbstractMachine.Nemu.Ioe.Count
import AbstractMachine.Native.Ioe.Audio
import AbstractMachine.Native.Ioe.Input
import AbstractMachine.Native.Ioe.Init
import AbstractMachine.Lib.ByteFile
import AbstractMachine.Native.Ioe.Disk
import AbstractMachine.Native.Mpe
import AbstractMachine.X86.Mpe
import AbstractMachine.X86.Lapic
import AbstractMachine.X86.Ioe.Rtc
import AbstractMachine.Riscv.Timer
import AbstractMachine.Lib.CString
import AbstractMachine.Klib.Stdio.Model
import AbstractMachine.Klib.Stdio.Int2str
import AbstractMachine.Klib.Stdio.Turn
import AbstractMachine.Klib.Stdio.Vsnprintf
import AbstractMachine.Klib.Stdio.Bound
import AbstractMachine.Klib.Stdio.Scan
import AbstractMachine.Klib.Stdio.Return
import AbstractMachine.Klib.Stdio.Printf
import AbstractMachine.Klib.String.Strncpy
import AbstractMachine.Klib.String.Strncmp
import AbstractMachine.Klib.Stdlib.Rand
import AbstractMachine.Klib.Stdlib.Atoi
import AbstractMachine.Lib.ZeroByte
import AbstractMachine.Klib.Stdlib.Memchr
import AbstractMachine.X86.Boot.Model
import AbstractMachine.X86.Boot.Sectors
import AbstractMachine.X86.Boot.Program
import AbstractMachine.X86.Boot.Loader
import AbstractMachine.Native.Vme.Klib
import AbstractMachine.Native.Cte.Model
import AbstractMachine.Native.Cte.Frame
import AbstractMachine.Native.Cte.Traps
import AbstractMachine.Lib.Simulation
import AbstractMachine.Rvmini.Assembly
import AbstractMachine.Rvmini.Layout
import AbstractMachine.Rvmini.Source
import AbstractMachine.Rvmini.Alike
import AbstractMachine.Rvmini.Replaced
import AbstractMachine.Rvmini.Preserve
import AbstractMachine.Lib.Division
import AbstractMachine.Riscv.Libgcc.Div
import AbstractMachine.Lib.DoubleWord
import AbstractMachine.Riscv.Libgcc.Mul
import AbstractMachine.Lib.BitCount
import AbstractMachine.Klib.Int64.Count
import AbstractMachine.Klib.Int64.Div
import AbstractMachine.Riscv.Spike.Console
import AbstractMachine.X86.Ata
import AbstractMachine.X86.Ioe.Disk
import AbstractMachine.Lib.Stack
import AbstractMachine.X86.Trap64.Model
import AbstractMachine.X86.Trap64.Frame
import AbstractMachine.X86.Trap64.Context
import AbstractMachine.X86.Trap64.System
import AbstractMachine.X86.Trap64.Resume
import AbstractMachine.X86.Ioe.Blocks
import AbstractMachine.Riscv.Spike.Syscall
