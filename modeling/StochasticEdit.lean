import StochasticEdit.Wfst.Vector
import StochasticEdit.Generator.Sliding
import StochasticEdit.Generator.Closure
import StochasticEdit.Generator.Arcs
import StochasticEdit.Generator.Relation
import StochasticEdit.Wfst.PathSum
import StochasticEdit.Generator.Mass
import StochasticEdit.Estimation.LocalModel
import StochasticEdit.Wfst.Compose
import StochasticEdit.Wfst.ShortestDistance
import StochasticEdit.Trainer.LogArithmetic
import StochasticEdit.Trainer.Model
import StochasticEdit.Trainer.Reweight
import StochasticEdit.Trainer.Normalisation
import StochasticEdit.Trainer.Counts
import StochasticEdit.Trainer.Lattices
import StochasticEdit.Trainer.Posterior
import StochasticEdit.Trainer.Training
import StochasticEdit.Trainer.Gradient
import StochasticEdit.Trainer.Objective
import StochasticEdit.Trainer.Consistency
import StochasticEdit.Generator.Records
import StochasticEdit.Evaluation.Decode
import StochasticEdit.Wfst.Relation
import StochasticEdit.Wfst.Product
import StochasticEdit.Evaluation.EditMachine
import StochasticEdit.Wfst.Linear
import StochasticEdit.Evaluation.TestData
import StochasticEdit.Evaluation.OneBest
import StochasticEdit.Generator.Reachable
import StochasticEdit.Trainer.Identity
import StochasticEdit.Trainer.Restart
import StochasticEdit.Trainer.Safety
import StochasticEdit.Trainer.Calls
import StochasticEdit.Trainer.Expectation
import StochasticEdit.Evaluation.Alphabets
import StochasticEdit.Wfst.Mass
import StochasticEdit.Wfst.Exponential
import StochasticEdit.Evaluation.Expected
import StochasticEdit.Features.Lines
import StochasticEdit.Features.Featurize
import StochasticEdit.Features.Reader
import StochasticEdit.Features.Rows
import StochasticEdit.Features.RoundTrip
import StochasticEdit.Features.Aligner
import StochasticEdit.Features.Tokens
import StochasticEdit.Trainer.Auxiliary
import StochasticEdit.Trainer.Tables
import StochasticEdit.Generator.Acyclic
import StochasticEdit.Features.Backoff
import StochasticEdit.Wfst.Chain
import StochasticEdit.Evaluation.Strings
import StochasticEdit.Evaluation.ArcLabels
import StochasticEdit.Evaluation.Acceptors
import StochasticEdit.Features.KeyColumn
import StochasticEdit.Features.DataLines
import StochasticEdit.Program.Outcome
import StochasticEdit.Evaluation.Csv
import StochasticEdit.Trainer.Conservation
import StochasticEdit.Features.Conservation
import StochasticEdit.Markov.Halting
import StochasticEdit.Wfst.Reading
import StochasticEdit.Generator.Scripts
import StochasticEdit.Pipeline.EditModel
import StochasticEdit.Pipeline.LogLinear
import StochasticEdit.Pipeline.Parameters
import StochasticEdit.Pipeline.Distances
import StochasticEdit.Pipeline.Trained
import StochasticEdit.Pipeline.Objective
import StochasticEdit.Pipeline.LogLoss
import StochasticEdit.Generator.Alignments
import StochasticEdit.Pipeline.Lattices
import StochasticEdit.Pipeline.Progress
import StochasticEdit.Pipeline.Expectation
import StochasticEdit.Pipeline.Viterbi
import StochasticEdit.Pipeline.Balance
import StochasticEdit.Wfst.Filter
import StochasticEdit.Evaluation.BestPath
import StochasticEdit.Pipeline.Report
import StochasticEdit.Pipeline.Sandbox
