import NTrade.Lib.Dict
import NTrade.Lib.Trace
import NTrade.Domain.Order
import NTrade.Execution.Costs
import NTrade.Execution.Guard
import NTrade.Events.Event
import NTrade.Execution.Tracking
import NTrade.Execution.BrokerExecutor
import NTrade.Lib.Monitor
import NTrade.Execution.OrderLife
import NTrade.Execution.Refinement
import NTrade.Execution.Accounts
import NTrade.Execution.FillConservation
import NTrade.Execution.NotionalConservation
import NTrade.Execution.CancelConservation
import NTrade.Execution.Readoption
import NTrade.Storage.EventStore
import NTrade.Storage.Recovery
import NTrade.Execution.KillSwitch
import NTrade.Execution.Approvals
import NTrade.Engines.RiskEngine
import NTrade.Kernel.TradingKernel
import NTrade.Kernel.Halting
import NTrade.Execution.Breaker
import NTrade.Runner.HaltResume
import NTrade.Execution.SubmitRace
import NTrade.Domain.Portfolio
import NTrade.Engines.PortfolioEngine
import NTrade.Engines.PositionSync
import NTrade.Domain.Market
import NTrade.Engines.MarketEngine
import NTrade.Runner.Watchdog
import NTrade.Runner.Books
import NTrade.Runner.RiskLoop
import NTrade.Runner.MarkToMarket
import NTrade.Runner.ArmedBreakers
import NTrade.Kernel.Screening
import NTrade.Kernel.Answers
import NTrade.Lib.Json
import NTrade.Lib.JsonText
import NTrade.Lib.JsonCut
import NTrade.Lib.IsoFormat
import NTrade.Storage.EventTypes
import NTrade.Storage.Codec
import NTrade.Storage.EventLog
import NTrade.Lib.RankedSort
import NTrade.Storage.Replay
import NTrade.Brokers.DhanMapper
import NTrade.Runner.FlatPositions
import NTrade.Brokers.Paper
import NTrade.Runner.PaperBooks
import NTrade.Execution.RateLimit
import NTrade.Execution.GuardRuns
import NTrade.Execution.ProbePacing
import NTrade.Storage.FallbackIds
import NTrade.Brokers.DhanAuth
import NTrade.Brokers.Dhan
import NTrade.Execution.Retry
import NTrade.Brokers.DhanLtp
import NTrade.Brokers.StatusRefresh
import NTrade.Brokers.OpenOrders
import NTrade.Kernel.EventBus
import NTrade.Kernel.DispatchDiscipline
import NTrade.Lib.Buckets
import NTrade.Domain.MarketHours
import NTrade.Domain.Timeframes
import NTrade.Engines.CandleEngine
import NTrade.Engines.TickConservation
import NTrade.Sim.TickSimulator
import NTrade.Sim.FrameReplay
import NTrade.Lib.Causal
import NTrade.Domain.Indicators
import NTrade.Domain.HalfTrend
import NTrade.Engines.HalfTrendStrategy
import NTrade.Lib.LastWrite
import NTrade.Data.ParquetStore
import NTrade.Data.MapRefinement
import NTrade.Data.GapDetector
import NTrade.Api.LiveCandlePump
import NTrade.Api.RecordedTicks
import NTrade.Api.ChartCandles
import NTrade.Execution.Simulator
import NTrade.Execution.CostParity
import NTrade.Execution.Charges
import NTrade.Execution.SplitCharges
import NTrade.Runner.Baselines
import NTrade.Execution.NotionalCap
import NTrade.Execution.Delivery
import NTrade.Lib.Admission
import NTrade.Runner.MaxPositions
import NTrade.Runner.PaperReport
import NTrade.Engines.SyncQuiet
import NTrade.Execution.Amendments
import NTrade.Execution.Remainders
import NTrade.Execution.AmendedOrders
import NTrade.Lib.Drift
import NTrade.Lib.Fifo
import NTrade.Lib.Drawdown
import NTrade.Backtest.Simulator
import NTrade.Backtest.Accounting
import NTrade.Backtest.CarryDays
import NTrade.Backtest.Fills
import NTrade.Api.PaperPnl
import NTrade.Domain.HalfTrendStates
import NTrade.Lib.Smoothing
import NTrade.Domain.WilderAtr
import NTrade.Lib.Timeline
import NTrade.Analytics.Overlay
import NTrade.Api.IntervalChanges
import NTrade.Engines.OpeningRange
import NTrade.Engines.OrbLifecycle
import NTrade.Engines.OrbWindow
import NTrade.Runner.NakedExits
import NTrade.Engines.SignalScanner
import NTrade.Engines.StockSelector
import NTrade.Engines.FloatCandles
import NTrade.Sources.DhanFeed
import NTrade.Lib.Unordered
import NTrade.Data.FilteredReads
import NTrade.Data.ExactGaps
import NTrade.Lib.Runs
import NTrade.Domain.LiveMerge
import NTrade.Domain.History
import NTrade.Domain.Ohlcv
import NTrade.Lib.Grouping
import NTrade.Domain.BarConservation
import NTrade.Domain.ComposedBars
import NTrade.Lib.HalfEven
import NTrade.Lib.Binary64
import NTrade.Lib.Bisection
import NTrade.Domain.Derivatives
import NTrade.Domain.ImpliedVolatility
import NTrade.Lib.Breakpoints
import NTrade.Domain.MaxPain
import NTrade.Lib.Interleaved
import NTrade.Domain.Expiry
import NTrade.Lib.Tally
import NTrade.Domain.ValueArea
import NTrade.Ui.ReplayReducer
import NTrade.Ui.MergeLive
import NTrade.Ui.ReplayVisible
import NTrade.Ui.NoRepaint
import NTrade.Api.ChartStart
import NTrade.Sim.Anchors
import NTrade.Sim.RoundedTicks
import NTrade.Execution.GateProgress
import NTrade.Lib.Mirror
import NTrade.Ui.MarketSocket
import NTrade.Lib.Directional
import NTrade.Domain.DirectionalMovement
import NTrade.Ui.Adx
import NTrade.Domain.SuperTrend
import NTrade.Domain.Rsi
import NTrade.Domain.Scanner
import NTrade.Lib.UpperCase
import NTrade.Api.FuturesMaster
import NTrade.Lib.Newest
import NTrade.Api.MarketCandles
import NTrade.Api.ParquetQuote
import NTrade.Api.WsMarket
import NTrade.Domain.Depth
import NTrade.Lib.TowardZero
import NTrade.Sim.DepthSimulator
