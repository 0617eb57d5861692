import Ksi.Proofs.Mvcc.Batches
import Ksi.Proofs.Sched.Overlap
import Ksi.Proofs.Ebr
import Ksi.Proofs.RingBuffer.Conservation
import Ksi.Proofs.RingBuffer.Sequential
import Ksi.Proofs.Pool
import Ksi.Proofs.Pool.Workers
import Ksi.Proofs.Dag.Ring
import Ksi.Proofs.Dag.Schedulable
import Ksi.Proofs.Dag.Ownership
import Ksi.Proofs.Audio.Protocol
import Ksi.Proofs.Audio.Frame
import Ksi.Proofs.Audio.Mixer
import Ksi.Proofs.Cmd
import Ksi.Proofs.Cmd.Batch
import Ksi.Proofs.Cmd.Response
import Ksi.Proofs.Cmd.Reading
import Ksi.Proofs.Cmd.Full
import Ksi.Proofs.Cmd.Uninitialized
import Ksi.Proofs.Cmd.Grammar
import Ksi.Proofs.Spsc
import Ksi.Proofs.Spsc.Buffer
import Ksi.Proofs.WorkQueue
import Ksi.Proofs.Dag.Bounds
import Ksi.Proofs.Dag.PortCount
import Ksi.Proofs.Dag.PortBuffers
import Ksi.Proofs.Vec
import Ksi.Proofs.Audio.Events
import Ksi.Proofs.Audio.Envelope
import Ksi.Proofs.Audio.NotePlayer
import Ksi.Proofs.Audio.Oscillator
import Ksi.Proofs.Audio.Callback
import Ksi.Proofs.RBTree.Lookup
import Ksi.Proofs.RBTree.Balance
import Ksi.Proofs.Resource
import Ksi.Proofs.Resource.Order
import Ksi.Proofs.Audio.Players
import Ksi.Proofs.Audio.Plugins
import Ksi.Proofs.Pool.Waiting
import Ksi.Proofs.Ctl.Vec
import Ksi.Proofs.Dag.Agreement
import Ksi.Proofs.Dag.Queues
import Ksi.Proofs.Dag.Teardown
import Ksi.Proofs.Dag.Played
import Ksi.Proofs.Sched.Progress
import Ksi.Proofs.Lcrq.Empty
