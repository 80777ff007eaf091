import CimSigmoid.Sigmoid.Latch
import CimSigmoid.Sigmoid.Poll
import CimSigmoid.Sigmoid.Range
import CimSigmoid.Sigmoid.Monotone
import CimSigmoid.Sigmoid.Accuracy
import CimSigmoid.Sigmoid.Strobe
import CimSigmoid.Adder.Start
import CimSigmoid.Adder.Bus
import CimSigmoid.Adder.Signed
import CimSigmoid.Adder.Tree
import CimSigmoid.Adder.Testbench
import CimSigmoid.Bench.MrdDump
import CimSigmoid.Bench.Dcc
import CimSigmoid.Gem5.Latency
import CimSigmoid.Gem5.Reset
import CimSigmoid.Gem5.StderrLog
import CimSigmoid.F6.Agree
import CimSigmoid.F6.Verifier
import CimSigmoid.F6.Exact
import CimSigmoid.F6.ClampFloat
import CimSigmoid.F6.Ranking
import CimSigmoid.Proteus.F6Nearest
import CimSigmoid.Pim.Pipeline
import CimSigmoid.Pim.Parallel.Multiplication
