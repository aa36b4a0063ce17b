import Vsys.Activation.Frame
import Vsys.Activation.Framing
import Vsys.Activation.Session
import Vsys.Activation.Splits
import Vsys.Agreement
import Vsys.Audio.Coder
import Vsys.Audio.Converter
import Vsys.Audio.Vad
import Vsys.R2ad.Mem2
import Vsys.R2ad.Session
import Vsys.R2ad.Vbv3
import Vsys.Stream.Blocks
import Vsys.Trace.Run
import Vsys.Trace.Session
import Vsys.Vt.Det
import Vsys.Vt.Word
import Vsys.Vt.Phase
import Vsys.Vt.Mem
import Vsys.Vt.Protocol
import Vsys.Vbv.Mem
import Vsys.Vbv.Overlap
import Vsys.Activation.WordManager
import Vsys.Activation.WordSync
import Vsys.Vt.Lifetime
import Vsys.Activation.WordRace
import Vsys.Openvoice.Siren
import Vsys.Openvoice.Session
import Vsys.Openvoice.LostClear
import Vsys.Buff.AudBuff
import Vsys.Audio.Opus
import Vsys.Sl.Mem
import Vsys.Fea.Fb
import Vsys.Align.Best
import Vsys.Align.Path
import Vsys.Dnn.Batch
import Vsys.Fea.Filter
import Vsys.Vt.Dp
import Vsys.Stream.Pool
import Vsys.VirtualMic.MemoryManager
import Vsys.VirtualMic.Tracks
import Vsys.VirtualMic.Control
import Vsys.VirtualMic.Delivery
import Vsys.A2b.Irq
import Vsys.Mic.Calls
import Vsys.VirtualMic.Alignment
import Vsys.Rs.Mem
import Vsys.Rs.Stream
import Vsys.R2ad.Mem1
import Vsys.R2ad.MicHealth
import Vsys.Dnn.Component
import Vsys.Dnn.Evaluate
import Vsys.Dnn.BatchSingle
import Vsys.Stream.Sliding
import Vsys.Stream.Table
import Vsys.Ztvad.Vad
import Vsys.Ztvad.VoiceDetector
import Vsys.Ztvad.Bookkeeping
import Vsys.Ztvad.Endpoint
import Vsys.Stream.Conserve
import Vsys.Audio.VadStream
import Vsys.Buff.AudBuffS
import Vsys.Buff.Rings
import Vsys.R2ad.Fifo
import Vsys.Vbv.Batches
import Vsys.Vbv.Zvad
import Vsys.Audio.BeamForming
import Vsys.R2ad.AecStream
import Vsys.Ssp.Aec
import Vsys.Ssp.AecPool
import Vsys.Vbv.Dirty
import Vsys.Activation.Pinyin
import Vsys.Vt.PhoTable
import Vsys.Vt.WordStates
import Vsys.Vt.WordBlocks
import Vsys.Vt.BestLen
import Vsys.Audio.CoderStream
import Vsys.Audio.Gain
import Vsys.Io.Reads
import Vsys.Vt.PhoTableFile
import Vsys.Audio.OpusReader
import Vsys.Stream.Interleave
import Vsys.Vt.SilDet
import Vsys.Aud.Wav
import Vsys.Audio.FrontEnds
import Vsys.A2b.Control
import Vsys.A2b.CommandList
import Vsys.A2b.ConfigBuffer
import Vsys.A2b.Elements
import Vsys.Stream.Visit
import Vsys.A2b.NodeTables
import Vsys.Activation.WordReturn
import Vsys.Aud.Damaged
import Vsys.Audio.TtsOpus
import Vsys.Rs.Reset
import Vsys.R2ad.DcRemoval
import Vsys.Mat.Layout
import Vsys.Mat.Blas
import Vsys.Dnn.Total
import Vsys.Dnn.Rows
import Vsys.Mat.ModelFile
import Vsys.VirtualMic.WriteMic
import Vsys.Ztvad.PitchRange
import Vsys.Stream.Delay
import Vsys.Ztvad.PitchAlign
import Vsys.Dnn.Cell
import Vsys.Dnn.TotalHistory
import Vsys.Num.RoundEven
import Vsys.Ztvad.EnergyBounds
import Vsys.Stream.Convolve
import Vsys.Ztvad.ByteBuffer
import Vsys.Bf.Beamformer
import Vsys.Bf.DelayAndSum
import Vsys.Bf.SoundTracker
import Vsys.Bf.SoundTracks
import Vsys.Io.TextFile
import Vsys.Io.ContentList
import Vsys.Io.GetKey
import Vsys.Stream.FreeList
import Vsys.A2bStack.Pool
import Vsys.A2bStack.PoolBlocks
import Vsys.A2bStack.PoolRun
import Vsys.A2bStack.PoolDescriptors
import Vsys.Num.Aligned
import Vsys.A2bStack.MemMgr
import Vsys.A2bStack.MemMgrRun
import Vsys.Num.Lfsr
import Vsys.Ciu98.Crc
import Vsys.Ciu98.CrcErrors
import Vsys.Ciu98.SpiProtocol
import Vsys.Ciu98.SpiExchange
import Vsys.Num.Numerals
import Vsys.Num.Elimination
import Vsys.Stream.Sweep
import Vsys.Num.Pieces
import Vsys.Sl.BandMatrix
import Vsys.Sl.Spline
import Vsys.Sl.SplineCurve
import Vsys.Stream.Slots
import Vsys.Felib.Dictionary
import Vsys.Felib.IniParser
import Vsys.Felib.IniLoad
import Vsys.Felib.IniRoundTrip
import Vsys.Num.Toeplitz
import Vsys.Felib.Lpc
import Vsys.Felib.Similarity
import Vsys.Align.Trellis
import Vsys.Felib.DpF0
import Vsys.Felib.PitchPath
