import PaperTrading.Lib.Ran
import PaperTrading.Lib.Runs
import PaperTrading.Lib.Owners
import PaperTrading.Lib.Decimal
import PaperTrading.Lib.Flt
import PaperTrading.Lib.SharedDocument
import PaperTrading.Broker.Paper
import PaperTrading.Broker.Sell
import PaperTrading.Broker.Restore
import PaperTrading.Broker.Sizing
import PaperTrading.Report.AsDefined
import PaperTrading.Report.Blocks
import PaperTrading.Report.Rows
import PaperTrading.Risk.Managed
import PaperTrading.Calibration.Store
import PaperTrading.Trading.Store
import PaperTrading.Trading.StateLock
import PaperTrading.Trading.Signal
import PaperTrading.Trading.BuyAndHold
import PaperTrading.Trading.Loop
import PaperTrading.Trading.Manage
import PaperTrading.Trading.Accounts
import PaperTrading.Trading.Cycle
import PaperTrading.Trading.Breaker
import PaperTrading.Trading.LotIds
import PaperTrading.Trading.Baseline
import PaperTrading.Trading.InStep
import PaperTrading.Trading.Learning
import PaperTrading.Trading.Overlap
import PaperTrading.Trading.Replay
import PaperTrading.Champions.FamilyPlan
import PaperTrading.Champions.Pool
import PaperTrading.Champions.Updates
import PaperTrading.Champions.LiveResults
import PaperTrading.Lib.Leaders
import PaperTrading.Champions.Seats
import PaperTrading.Champions.Archive
import PaperTrading.Champions.FamilyRule
import PaperTrading.Champions.FamilyOrder
import PaperTrading.Champions.Pointers
import PaperTrading.Lib.Latest
import PaperTrading.Champions.StoredPasses
import PaperTrading.Champions.OneSeat
import PaperTrading.Discovery.Ingest
import PaperTrading.Discovery.OneRow
import PaperTrading.Lib.MonotoneDeque
import PaperTrading.Signals.Series
import PaperTrading.Signals.Dynamic
import PaperTrading.Signals.Structure
import PaperTrading.Signals.Htf
import PaperTrading.Signals.Strategy
import PaperTrading.Signals.Precompute
import PaperTrading.Signals.Segments
import PaperTrading.Signals.Slices
import PaperTrading.Lib.Dict
import PaperTrading.Lib.Draws
import PaperTrading.Lib.LastByKey
import PaperTrading.Lib.Greedy
import PaperTrading.Lib.Pieces
import PaperTrading.Leases.Record
import PaperTrading.Leases.Requalify
import PaperTrading.Leases.Attempts
import PaperTrading.Leases.Stamps
import PaperTrading.Leases.Queue
import PaperTrading.Leases.QueueCache
import PaperTrading.Leases.Serves
import PaperTrading.Leases.Desk
import PaperTrading.Leases.Grants
import PaperTrading.Leases.Cap
import PaperTrading.Leases.Retests
import PaperTrading.Leases.Exclusion
import PaperTrading.Tape.Pin
import PaperTrading.Tape.Snapshot
import PaperTrading.Tape.Served
import PaperTrading.Tape.ServedSafe
import PaperTrading.Lib.Journaled
import PaperTrading.Discovery.Tested
import PaperTrading.Discovery.TestedCrash
import PaperTrading.Discovery.LogFiles
import PaperTrading.Discovery.Results
import PaperTrading.Discovery.ResultsCounts
import PaperTrading.Lib.Merge
import PaperTrading.Discovery.ResultsPages
import PaperTrading.Discovery.ResultsListing
import PaperTrading.Discovery.ResultsPaging
import PaperTrading.Library.Engine
import PaperTrading.Library.Rule
import PaperTrading.Library.Conforms
import PaperTrading.Library.Accounting
import PaperTrading.Library.Daily
import PaperTrading.Library.Live
import PaperTrading.Library.LiveSteps
import PaperTrading.Library.Weekly
import PaperTrading.Library.LiveSim
import PaperTrading.Library.Stances
import PaperTrading.Library.CatchUp
import PaperTrading.Library.FreshBook
import PaperTrading.Backtest.Lots
import PaperTrading.Backtest.Conservation
import PaperTrading.Backtest.Solvency
import PaperTrading.Lib.Falls
import PaperTrading.Backtest.Drawdown
import PaperTrading.Backtest.Engine
import PaperTrading.Backtest.Settlement
import PaperTrading.Lib.Causal
import PaperTrading.Signals.Cut
import PaperTrading.Signals.Ema
import PaperTrading.Lib.Bisect
import PaperTrading.Signals.Swings
import PaperTrading.Signals.Wavetrend
import PaperTrading.Lib.ShortCircuit
import PaperTrading.Lib.Text
import PaperTrading.Lib.StableRank
import PaperTrading.Lib.Pattern
import PaperTrading.Signals.Parse
import PaperTrading.Signals.Grouping
import PaperTrading.Signals.Compositional
import PaperTrading.Signals.FastPath
import PaperTrading.Signals.FastNames
import PaperTrading.Signals.FastAgrees
import PaperTrading.Champions.PoolFiles
import PaperTrading.Library.Attestation
import PaperTrading.Gate.GateV4
import PaperTrading.Gate.StoredRows
import PaperTrading.Gate.Redecide
import PaperTrading.Gate.Rescore
import PaperTrading.Data.CandlePool
import PaperTrading.Trading.AccountCache
import PaperTrading.Lib.Pages
import PaperTrading.Lib.Fallible
import PaperTrading.Data.CandleSync
import PaperTrading.Data.Gaps
import PaperTrading.Data.Backfill
import PaperTrading.Data.Resample
import PaperTrading.Tape.LiveTape
import PaperTrading.Signals.Tiles
import PaperTrading.Worker.InFlight
import PaperTrading.Worker.Scheduling
import PaperTrading.Worker.Deadlines
import PaperTrading.Worker.ResultPoster
import PaperTrading.Worker.BatchEnd
import PaperTrading.Worker.Heartbeats
import PaperTrading.Worker.Farm
import PaperTrading.Discovery.Agreement
import PaperTrading.Library.Names
import PaperTrading.Library.Evaluate
import PaperTrading.Library.SealedHoldout
import PaperTrading.Lib.Keyed
import PaperTrading.Mint.Atoms
import PaperTrading.Mint.Bans
import PaperTrading.Mint.Batches
import PaperTrading.Mint.Explorer
import PaperTrading.Mint.NeverRemint
import PaperTrading.Lib.Memo
import PaperTrading.Signals.SeriesCaches
import PaperTrading.Signals.SeriesStore
import PaperTrading.Web.LivePreview
import PaperTrading.Web.BackgroundCache
import PaperTrading.Web.Candles
import PaperTrading.Web.StaleCache
import PaperTrading.Lib.Readings
import PaperTrading.Mint.Shapes
import PaperTrading.Mint.Meaning
import PaperTrading.Lib.Groups
import PaperTrading.Mint.Operands
import PaperTrading.Mint.Bounds
import PaperTrading.Mint.Strict
import PaperTrading.Mint.NormalForm
import PaperTrading.Mint.Preserved
import PaperTrading.Mint.BoundGuards
import PaperTrading.Mint.Collapse
import PaperTrading.Mint.Neighbours
import PaperTrading.Mint.Slots
import PaperTrading.Mint.Aliases
import PaperTrading.Mint.Proposals
import PaperTrading.Lib.Tiles
import PaperTrading.Library.Equity
import PaperTrading.Library.Tiling
import PaperTrading.Lib.CalendarDate
import PaperTrading.Lib.IsoWeek
import PaperTrading.Fund.Signal
import PaperTrading.Fund.Pead
import PaperTrading.Lib.Comprehension
import PaperTrading.Lib.CrossSection
import PaperTrading.Fund.Construction
import PaperTrading.Fund.Limits
import PaperTrading.Fund.Execution
import PaperTrading.Fund.Cycle
import PaperTrading.Fund.Grid
import PaperTrading.Fund.Backtest
import PaperTrading.Gate.Overfitting
