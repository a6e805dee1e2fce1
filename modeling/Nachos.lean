import Nachos.Verification.AddrSpace.Malformed
import Nachos.Verification.BitMap.Sets
import Nachos.Verification.Coff.Image
import Nachos.Verification.Console.Input
import Nachos.Verification.Directory.Map
import Nachos.Verification.Elevator.Runs
import Nachos.Verification.FileHeader.Exactness
import Nachos.Verification.FileSystem.Limits
import Nachos.Verification.Interrupt.Order
import Nachos.Verification.Kernel.Priority
import Nachos.Verification.Kernel.ThreadIds
import Nachos.Verification.LinkedList.Refinement
import Nachos.Verification.Machine.Bitwise
import Nachos.Verification.Machine.DirtyBits
import Nachos.Verification.Machine.LinearMemory
import Nachos.Verification.Machine.Multiplication
import Nachos.Verification.Machine.RegisterFile
import Nachos.Verification.OpenFile.Clamping
import Nachos.Verification.PostOffice.Machines
import Nachos.Verification.Process.Switch
import Nachos.Verification.Session.Reading
import Nachos.Verification.Session.Refinement
import Nachos.Verification.SynchDisk.Serial
import Nachos.Verification.SynchList.Fifo
import Nachos.Verification.Tasks.Halting
import Nachos.Verification.ThreadTest.Barrier
import Nachos.Verification.ThreadTest.Monitors
import Nachos.Verification.ThreadTest.ReadersWriters
