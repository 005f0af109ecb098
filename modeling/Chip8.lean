import Chip8.Proofs.Format
import Chip8.CommandLine.FileTree
import Chip8.Main
import Chip8.Memory.Dump
import Chip8.Random.Generator
import Chip8.Saved.Values
import Chip8.Proofs.Screen
import Chip8.Proofs.Sized
import Chip8.Proofs.Operation
import Chip8.Proofs.Atomicity
import Chip8.Proofs.Checked
import Chip8.Proofs.Safety
import Chip8.Proofs.Table
import Chip8.Proofs.Run
import Chip8.Proofs.Nesting
import Chip8.Proofs.Counter
import Chip8.Proofs.Alike
import Chip8.Proofs.Refusal
import Chip8.Proofs.Frames
import Chip8.Proofs.Reads
import Chip8.Proofs.Timing
import Chip8.Proofs.Writers
import Chip8.Proofs.Footprint
import Chip8.Proofs.Assembly
import Chip8.Proofs.Chance
import Chip8.Proofs.Font
import Chip8.Proofs.PowerCycle
import Chip8.Proofs.Pause
import Chip8.Proofs.Settings
import Chip8.Proofs.FrameCount
import Chip8.Proofs.Restored
import Chip8.Proofs.Listing
import Chip8.Proofs.Arithmetic
import Chip8.Proofs.Sprite
import Chip8.Proofs.Overlay
import Chip8.Proofs.Blocks
import Chip8.Proofs.BoundedStack
import Chip8.Proofs.ByteMap
import Chip8.Proofs.Loading
import Chip8.Proofs.Picture
import Chip8.Proofs.Transfer
import Chip8.Proofs.TraceLog
import Chip8.Proofs.DumpText
import Chip8.Proofs.StepRow
