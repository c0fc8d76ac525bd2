import Msos.Library.Machine
import Msos.Library.Turns
import Msos.Library.LinkedList
import Msos.Fs.MountPoints.Theorems
import Msos.Fs.RamFs.Theorems
import Msos.Kernel.Scheduler.Theorems
import Msos.Kernel.Semaphore
import Msos.Kernel.Scheduler.RoundRobin
import Msos.Kernel.Semaphore.Theorems
import Msos.Kernel.Semaphore.Waiting
import Msos.DynamicLinker
import Msos.DynamicLinker.Theorems
import Msos.Apps
import Msos.Spawn
import Msos.Spawn.Theorems
import Msos.Kernel.ContextSwitch
import Msos.Kernel.ContextSwitch.Theorems
import Msos.Library.Dict
import Msos.Scripts.ElfParser
import Msos.Scripts.GenerateBinary
import Msos.Library.Block
import Msos.Image
import Msos.Image.Theorems
import Msos.DynamicLinker.Loading
import Msos.Library.Fallible
import Msos.Scripts.GenerateBinary.Extraction
import Msos.Scripts.GenerateBinary.Patching
import Msos.Scripts.GenerateBinary.Writing
import Msos.Module
import Msos.Module.LookupTable
import Msos.Module.Numbering
import Msos.Module.Pointers
import Msos.Library.BitMap
import Msos.Kernel.FileDescriptors
import Msos.Kernel.FileDescriptors.Theorems
import Msos.Kernel.Malloc
import Msos.Kernel.Malloc.Theorems
import Msos.Drivers.RamBlockDevice
import Msos.Drivers.RamBlockDevice.Theorems
import Msos.Fs.FileSystems
import Msos.Posix.Directories
import Msos.Posix.Directories.Theorems
import Msos.ModuleFile
import Msos.DynamicLinker.Placing
import Msos.Scripts.GenerateBinary.Emitting
import Msos.Scripts.GenerateWrappers
import Msos.Scripts.GenerateWrappers.Archive
import Msos.Scripts.GenerateWrappers.Linking
import Msos.Module.Layout
import Msos.Module.Entries
import Msos.Drivers.BlockDevice
import Msos.Drivers.BlockDevice.Theorems
import Msos.Drivers.RamBlockDevice.Requests
import Msos.Library.IntegerType
import Msos.Library.Numeral
import Msos.Library.Cursor
import Msos.Library.Insertion
import Msos.UsartPrinter
import Msos.UsartPrinter.Theorems
import Msos.Printf
import Msos.Fs.RomFsFile
import Msos.Fs.SequentialReads
import Msos.Fs.Listing
import Msos.Posix.DirectoryStreams
import Msos.Posix.Open
import Msos.Module.Classification
import Msos.DynamicLinker.Binding
import Msos.Printf.Returned
import Msos.Library.LineEdit
import Msos.Fgets
import Msos.Fgets.Theorems
import Msos.Library.CString
import Msos.Drivers.UsartDriver
import Msos.Fs.Names
import Msos.Posix.WorkingDirectory
import Msos.Library.Words
import Msos.Library.Traced
import Msos.Shell.Splitter
import Msos.Shell.Splitter.Theorems
import Msos.Shell.CommandParser
import Msos.Shell.AppStart
import Msos.Shell.AppStart.Arguments
import Msos.Shell.AppStart.PathSearch
import Msos.Posix.DirentUtils
import Msos.Fs.FlatFileSystems
import Msos.Kernel.ContextSwitch.StackFrames
import Msos.Kernel.ProcessCopy
import Msos.StringUtils
import Msos.Drivers.Ssd1306
import Msos.Library.Nested
import Msos.Scripts.GenerateConfig
import Msos.Scripts.GenerateConfig.Theorems
import Msos.Scripts.GenerateDeviceTree
import Msos.Scripts.GenerateDeviceTree.Theorems
import Msos.Syscalls.Serial
import Msos.Syscalls.Faults
import Msos.Kernel.TimeSlice
import Msos.Module.Linking
import Msos.DynamicLinker.Nesting
import Msos.Syscalls.Names
import Msos.Syscalls.Console
import Msos.Syscalls.Requests
import Msos.DynamicLinker.CallExternal
import Msos.DynamicLinker.Isolation
import Msos.Shell.Session
