import CustomIsaVm.Lib.System
import CustomIsaVm.Lib.Text
import CustomIsaVm.Lib.Effect
import CustomIsaVm.Machine.Basic
import CustomIsaVm.Machine.Exec
import CustomIsaVm.Machine.Frame
import CustomIsaVm.Machine.Decode
import CustomIsaVm.Lib.Lifo
import CustomIsaVm.Machine.Operand
import CustomIsaVm.Lib.Blocks
import CustomIsaVm.Machine.Stack
import CustomIsaVm.Machine.Jumps
import CustomIsaVm.Machine.Words
import CustomIsaVm.Lib.Ranges
import CustomIsaVm.Machine.Loading
import CustomIsaVm.Machine.Update
import CustomIsaVm.Machine.Relocation
import CustomIsaVm.Machine.Noninterference
import CustomIsaVm.Machine.Framebuffer
import CustomIsaVm.Machine.Sync
import CustomIsaVm.Machine.Host
import CustomIsaVm.Machine.Screen
import CustomIsaVm.Lib.Orbit
import CustomIsaVm.Machine.HeapLoops
import CustomIsaVm.Machine.HeapExact
import CustomIsaVm.Lib.Fold
import CustomIsaVm.Assembler.Passes
import CustomIsaVm.Assembler.Literals
import CustomIsaVm.Assembler.Numbers
import CustomIsaVm.Assembler.Labels
import CustomIsaVm.Assembler.Layout
import CustomIsaVm.Lib.Brackets
import CustomIsaVm.Brainfvck.Rendering
import CustomIsaVm.Brainfvck.Acceptance
import CustomIsaVm.Brainfvck.Confinement
import CustomIsaVm.Brainfvck.Runs
import CustomIsaVm.Brainfvck.Completeness
import CustomIsaVm.Brainfvck.Rewriting
import CustomIsaVm.Brainfvck.Reference
import CustomIsaVm.Brainfvck.EndToEnd
import CustomIsaVm.Machine.Integrity
import CustomIsaVm.Machine.Capacity
import CustomIsaVm.Machine.Fragmentation
import CustomIsaVm.Brainfvck.OnePass
import CustomIsaVm.Assembler.Images
import CustomIsaVm.Machine.Checked
import CustomIsaVm.Assembler.Linking
import CustomIsaVm.Assembler.Reports
import CustomIsaVm.Assembler.Sources
import CustomIsaVm.Brainfvck.Ring
import CustomIsaVm.Machine.Subroutines
