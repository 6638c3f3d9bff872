import UefiGame.Config.Boot
import UefiGame.Config.BootBlocks
import UefiGame.Config.BootLines
import UefiGame.Config.BootRoundTrip
import UefiGame.Config.BootScan
import UefiGame.Config.BootValues
import UefiGame.Config.FinalNewline
import UefiGame.Config.Maze
import UefiGame.Config.MazeHeap
import UefiGame.Config.MazeSound
import UefiGame.Config.Palette
import UefiGame.Config.Sprite
import UefiGame.Config.Textures
import UefiGame.Config.TexturesFill
import UefiGame.Firmware.Partitions
import UefiGame.Firmware.ReadFile
import UefiGame.Firmware.Types
import UefiGame.Game.BootEntry
import UefiGame.Game.Buffers
import UefiGame.Game.Doors
import UefiGame.Game.Downscaled
import UefiGame.Game.Indices
import UefiGame.Game.Loop
import UefiGame.Game.Map
import UefiGame.Game.Outcome
import UefiGame.Game.Place
import UefiGame.Game.PlaceFaults
import UefiGame.Game.Placements
import UefiGame.Game.Redraw
import UefiGame.Game.ScreenLayout
import UefiGame.Game.Startup
import UefiGame.Game.Walk
import UefiGame.Graphics.Bmp
import UefiGame.Graphics.BmpRoundTrip
import UefiGame.Graphics.BmpSafe
import UefiGame.Graphics.Halving
import UefiGame.Graphics.Image
import UefiGame.Kernel.Bio
import UefiGame.Kernel.BioRuns
import UefiGame.Kernel.Console
import UefiGame.Kernel.ConsoleRuns
import UefiGame.Kernel.Fs
import UefiGame.Kernel.FsAlloc
import UefiGame.Kernel.FsFiles
import UefiGame.Kernel.FsLoops
import UefiGame.Kernel.FsRuns
import UefiGame.Kernel.FsTrunc
import UefiGame.Kernel.Kalloc
import UefiGame.Kernel.Log
import UefiGame.Kernel.LogRuns
import UefiGame.Kernel.LogSpace
import UefiGame.Kernel.Pipe
import UefiGame.Kernel.PipeRuns
import UefiGame.Kernel.PipeSleep
import UefiGame.Labyrinth.Actor
import UefiGame.Labyrinth.Exit
import UefiGame.Labyrinth.Layout
import UefiGame.Labyrinth.Loaders
import UefiGame.Labyrinth.Maze
import UefiGame.Labyrinth.Moves
import UefiGame.Labyrinth.Parse
import UefiGame.Labyrinth.Trail
import UefiGame.Library.Checked
import UefiGame.Library.CircularList
import UefiGame.Library.CountingLoop
import UefiGame.Library.Decimal
import UefiGame.Library.Draw
import UefiGame.Library.Grid
import UefiGame.Library.InitialSegment
import UefiGame.Library.Interleaving
import UefiGame.Library.LinearMemory
import UefiGame.Library.Lines
import UefiGame.Library.PackedRecord
import UefiGame.Library.Raster
import UefiGame.Library.RedoLog
import UefiGame.Library.RingBuffer
import UefiGame.Library.Rotation
import UefiGame.Library.Run
import UefiGame.Library.Service
import UefiGame.Library.SlotMap
import UefiGame.Library.ThreadedList
import UefiGame.Library.Truncate
import UefiGame.Library.Updates
import UefiGame.Library.WriteLoop
import UefiGame.Raycaster.Camera
import UefiGame.Raycaster.Dda
import UefiGame.Raycaster.Frame
import UefiGame.Raycaster.Screen
import UefiGame.Raycaster.View
import UefiGame.Raycaster.WallSlice
import UefiGame.Shell.Complete
import UefiGame.Shell.Grammar
import UefiGame.Shell.Parse
import UefiGame.Shell.Print
import UefiGame.Shell.Sound
import UefiGame.Shell.Strings
import UefiGame.Wordle.Guesses
import UefiGame.Wordle.Secret
import UefiGame.Xv6.Elf
import UefiGame.Xv6.Handover
import UefiGame.Xv6.Load
import UefiGame.Xv6.Pages
