import PocketDarwin.Text
import PocketDarwin.Md5
import PocketDarwin.PatchDtc.Scanner
import PocketDarwin.PatchDtc.Lossless
import PocketDarwin.PatchDtc.Patcher
import PocketDarwin.PatchDtc.Braces
import PocketDarwin.PatchDtc.Frames
import PocketDarwin.PatchDtc.Rename
import PocketDarwin.PatchDtc.Grammar
import PocketDarwin.PatchDtc.Readers
import PocketDarwin.PatchDtc.Reading
import PocketDarwin.PatchDtc.Documents
import PocketDarwin.PatchDtc.Exact
import PocketDarwin.PatchDtc.Comments
import PocketDarwin.PatchDtc.Stuck
import PocketDarwin.PatchDtc.Misread
import PocketDarwin.PatchDtc.Patched
import PocketDarwin.PatchDtc.Residues
import PocketDarwin.PatchDtc.Meaning
import PocketDarwin.PatchDtc.Idempotent
import PocketDarwin.PatchDtc.Lengths
import PocketDarwin.PatchDtc.KeepFlags
import PocketDarwin.PatchDtc.Handles
import PocketDarwin.PatchDtc.Extents
import PocketDarwin.PatchDtc.Preprocessor
import PocketDarwin.PatchDtc.Conditional
import PocketDarwin.PatchDtc.Tokens
import PocketDarwin.PatchDtc.Chunks
import PocketDarwin.PatchDtc.Visits
import PocketDarwin.PatchDtc.Fixpoint
import PocketDarwin.PatchDtc.Include
import PocketDarwin.Pathlib
import PocketDarwin.PatchDtc.Outputs
import PocketDarwin.Buffer
import PocketDarwin.LittleEndian
import PocketDarwin.Segments
import PocketDarwin.Simu.Platform
import PocketDarwin.Simu.Memory
import PocketDarwin.Simu.Cpu
import PocketDarwin.Simu.Decode
import PocketDarwin.Simu.Board
import PocketDarwin.Simu.Compare
import PocketDarwin.Simu.Flags
import PocketDarwin.Simu.Shifter
import PocketDarwin.Simu.Arithmetic
import PocketDarwin.Simu.ControlFlow
import PocketDarwin.Simu.Multiple
import PocketDarwin.Simu.Multiply
import PocketDarwin.Simu.HalfTransfer
import PocketDarwin.Simu.Elf
import PocketDarwin.Span
import PocketDarwin.Kickstart.Console
import PocketDarwin.Kickstart.MachO
import PocketDarwin.Kickstart.Walk
import PocketDarwin.Kickstart.Bounds
import PocketDarwin.Kickstart.Contents
import PocketDarwin.Runs
import PocketDarwin.Chain
import PocketDarwin.Kext.Plist
import PocketDarwin.Kext.Registry
import PocketDarwin.Kext.Shape
import PocketDarwin.Kext.Paths
import PocketDarwin.Kext.Libkern
import PocketDarwin.Kext.Kernel
import PocketDarwin.Kext.Personality
import PocketDarwin.Kext.GNUKext
import PocketDarwin.Kext.Layers
import PocketDarwin.Kext.Closure
import PocketDarwin.Kext.Matching
import PocketDarwin.Kext.Lookup
import PocketDarwin.Mindyld.Loader
import PocketDarwin.Mindyld.Objects
import PocketDarwin.Mindyld.Mappings
import PocketDarwin.Mindyld.Filling
import PocketDarwin.Mindyld.ElfMapping
import PocketDarwin.Mindyld.ElfRelocation
import PocketDarwin.Mindyld.MachoMapping
import PocketDarwin.Mindyld.Refinement
import PocketDarwin.Kickstart.Agree
import PocketDarwin.Kickstart.Entry
import PocketDarwin.Pexpert.Timebase
import PocketDarwin.Rtclock.Timer
import PocketDarwin.Rtclock.Deadlines
import PocketDarwin.Rtclock.Conversion
import PocketDarwin.Pmap.Asid
import PocketDarwin.Pmap.Sharing
import PocketDarwin.Pmap.Tlb
import PocketDarwin.DeviceBundle.DeviceTree
import PocketDarwin.Ring
import PocketDarwin.Pmap.Entry
import PocketDarwin.Pmap.Tables
import PocketDarwin.Pmap.PvLists
import PocketDarwin.Pmap.PvNames
import PocketDarwin.Pmap.Operations
import PocketDarwin.Pmap.View
import PocketDarwin.Pmap.Ranges
import PocketDarwin.Pmap.Entering
import PocketDarwin.Pmap.Walks
import PocketDarwin.Pmap.Calls
import PocketDarwin.Pmap.Effects
import PocketDarwin.Pmap.Listing
import PocketDarwin.Pmap.FiniteMap
import PocketDarwin.Pmap.Mixed
import PocketDarwin.Pmap.Dirty
import PocketDarwin.Pmap.Cacheability
import PocketDarwin.Pmap.Wiring
import PocketDarwin.Pmap.Covering
import PocketDarwin.Pmap.Expanding
import PocketDarwin.Pmap.PhysicalPages
import PocketDarwin.Pmap.PvTables
import PocketDarwin.DeviceBundle.Bundle
import PocketDarwin.DeviceBundle.FindNode
import PocketDarwin.DeviceBundle.Lookup
import PocketDarwin.DeviceBundle.Matches
import PocketDarwin.DeviceBundle.Sources
import PocketDarwin.DeviceBundle.RootProperties
import PocketDarwin.DeviceBundle.Reading
import PocketDarwin.DeviceBundle.Reloading
import PocketDarwin.Minlibc.Heap
import PocketDarwin.BitField
import PocketDarwin.Drivers.Tlmm
import PocketDarwin.Drivers.RegisterMap
import PocketDarwin.HeapArray
import PocketDarwin.Assoc
import PocketDarwin.NextStd.NSArray
import PocketDarwin.NextStd.NSDictionary
import PocketDarwin.Image3.Image3Maker
import PocketDarwin.Launchd.Init
import PocketDarwin.DeviceBundle.Configuration
import PocketDarwin.Drivers.ApBitfield
import PocketDarwin.Drivers.Spmi
import PocketDarwin.Drivers.Sdhci
import PocketDarwin.Drivers.ApRuntime
import PocketDarwin.MaximalRuns
import PocketDarwin.Minlibc.Strtok
import PocketDarwin.PatchApply.PatchFile
import PocketDarwin.FixedText
import PocketDarwin.Mqtsh.Variables
import PocketDarwin.Mqtsh.Shell
import PocketDarwin.Pmap.BootMaps
