import UnoApi.DataParallel.SingleWriter
import UnoApi.DataParallel.Reduction
import UnoApi.DataParallel.Stretches
import UnoApi.DataParallel.OutOfOrder
import UnoApi.DataParallel.QueueReduction
import UnoApi.DataParallel.GroupOrder
import UnoApi.DataParallel.Races
import UnoApi.Graph.Pivot
import UnoApi.Machine.Counter
import UnoApi.Machine.IntProduct
import UnoApi.Collections.Chunks
import UnoApi.Collections.Listing
import UnoApi.Collections.Counting
import UnoApi.Collections.OrderedSet
import UnoApi.Numerics.CompositeRule
import UnoApi.Numerics.SinglePrecision
import UnoApi.Input.Extraction
import UnoApi.Input.Printing
import UnoApi.Input.Fields
import UnoApi.Cipher.Main
import UnoApi.Cipher.Sizes
import UnoApi.Cipher.ClosedForm
import UnoApi.Cipher.Keys
import UnoApi.Cipher.ByteRange
import UnoApi.Cipher.Files
import UnoApi.TransitiveClosure.Reader
import UnoApi.TransitiveClosure.Parallel
import UnoApi.TransitiveClosure.Printing
import UnoApi.TransitiveClosure.Main
import UnoApi.TransitiveClosure.Races
import UnoApi.MatrixMul.Multiply
import UnoApi.MatrixMul.Main
import UnoApi.BigMatrix.MapReduce
import UnoApi.Integration.Main
import UnoApi.Integration.Integrand
import UnoApi.Integration.Values
import UnoApi.Integration.Bounds
import UnoApi.Integration.Work
import UnoApi.Integration.Queue
import UnoApi.Integration.Ranges
import UnoApi.Integration.Timestamps
import UnoApi.Integration.Sweep
import UnoApi.ReductionTargets
import UnoApi.InOrderQueues
import UnoApi.Races
import UnoApi.MonteCarlo.Streams
import UnoApi.MonteCarlo.Counts
import UnoApi.MonteCarlo.Queue
import UnoApi.WordCloud.Ranges
import UnoApi.WordCloud.Bounds
import UnoApi.WordCloud.Report
import UnoApi.WordCloud.Main
import UnoApi.TechnicalAnalysis.Main
import UnoApi.TechnicalAnalysis.Output
