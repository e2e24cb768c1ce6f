import RadioAccess.Link.Reassembly.View
import RadioAccess.Main
import RadioAccess.Rounds.Pool
import RadioAccess.Proofs.Checked
import RadioAccess.Proofs.Reassembly.History
import RadioAccess.Proofs.Reassembly.Sequence
import RadioAccess.Proofs.Egress.Delivery
import RadioAccess.Proofs.Egress.Verdicts
import RadioAccess.Proofs.Harq
import RadioAccess.Proofs.Link.Attempt
import RadioAccess.Proofs.Link.Conservation
import RadioAccess.Proofs.Link.Delivery
import RadioAccess.Proofs.Link.Repetition
import RadioAccess.Proofs.Link.Worth
import RadioAccess.Proofs.Link.Verdicts
import RadioAccess.Proofs.Link.Interval
import RadioAccess.Proofs.TransmitBuffer.Stream
import RadioAccess.Proofs.Reassembly.Evidence
import RadioAccess.Proofs.Egress.Evidence
import RadioAccess.Proofs.Reassembly.WholePackets
import RadioAccess.Proofs.Egress.WholePackets
import RadioAccess.Proofs.Emulator.Independence
import RadioAccess.Proofs.Emulator.Order
import RadioAccess.Proofs.Grid.Serving
import RadioAccess.Proofs.Grid.RoundRobin
import RadioAccess.Proofs.Egress.Balance
import RadioAccess.Proofs.Link.Balance
import RadioAccess.Proofs.Emulator.Interval
import RadioAccess.Proofs.Emulator.Balance
import RadioAccess.Proofs.Harq.Draw
import RadioAccess.Proofs.Harq.Ceiling
import RadioAccess.Proofs.TransmitBuffer.Balance
import RadioAccess.Proofs.Link.Counters
import RadioAccess.Proofs.Link.Totality
import RadioAccess.Proofs.Emulator.SetUp
import RadioAccess.Proofs.Emulator.Demand
import RadioAccess.Proofs.Emulator.Totality
import RadioAccess.Proofs.Rounds.Barrier
import RadioAccess.Proofs.Rounds.Contract
import RadioAccess.Proofs.TransmitBuffer.Numbers
import RadioAccess.Proofs.Config.ReadBack
import RadioAccess.Proofs.Harq.Queue
import RadioAccess.Proofs.TransmitBuffer.Admission
import RadioAccess.Proofs.TransmitBuffer.Faults
import RadioAccess.Proofs.Grid.SymbolCycle
import RadioAccess.Proofs.Emulator.Seeds
import RadioAccess.Proofs.ErrorRate.Probability
import RadioAccess.Proofs.Grid.Coverage
import RadioAccess.Proofs.Random.Draws
import RadioAccess.Proofs.RunningMean
import RadioAccess.Proofs.Link.Age
