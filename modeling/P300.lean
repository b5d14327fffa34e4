import P300.Lib.Serializable
import P300.Ledger.Replay
import P300.Ledger.CloseRace
import P300.Ledger.OpenOnce
import P300.Ledger.CashFlow
import P300.Lib.Dict
import P300.Micro.Book
import P300.Lib.Lane
import P300.Micro.BookSync
import P300.Micro.Writer
import P300.Micro.WriterAccount
import P300.Lib.Intervals
import P300.Stops.Path
import P300.Stops.Resume
import P300.Stops.Coverage
import P300.Equity.Market
import P300.Equity.Daily
import P300.Lib.Causal
import P300.Regime.Ema
import P300.Regime.EmaPosition
import P300.Regime.EmaLabels
import P300.Dispatch.Reconcile
import P300.Dispatch.Pooling
import P300.Dispatch.Caps
import P300.Margin.Cash
import P300.Margin.Breach
import P300.Regime.Gate
import P300.Regime.Classifier
import P300.Regime.Today
import P300.Feed.Klines
import P300.Feed.Final
import P300.Equity.Funding
import P300.Bots.Heartbeat
import P300.Ledger.Coherence
import P300.Ledger.Exposure
import P300.Bots.StandDown
import P300.Feed.Gaps
import P300.Feed.Backfill
import P300.Feed.Coinbase
import P300.Feed.Okx
import P300.Ledger.Margins
import P300.Micro.DropFirst
import P300.Lib.Probes
import P300.Margin.Isolated
import P300.Micro.Budget
import P300.Bots.Chento
import P300.Bots.ChentoTicks
import P300.Lib.Tally
import P300.Micro.Sample
import P300.Micro.Reach
import P300.Feed.Repair
import P300.Feed.Restamp
import P300.Calendar
import P300.Lib.Retention
import P300.Ops.Backup
import P300.Dispatch.Shrink
import P300.Dispatch.Headroom
import P300.Bots.Backstop
import P300.Bots.R4Calendar
import P300.Bots.R4Tick
import P300.Bots.R4Budget
import P300.Bots.TickLog
import P300.Margin.Checks
import P300.Margin.Debit
import P300.Lib.Until
import P300.Margin.MoreCash
import P300.Margin.Entry
import P300.Bots.Indicators
import P300.Lib.Bisect
import P300.Bots.AdxStops
import P300.Lib.Pass
import P300.Bots.AdxSignal
import P300.Bots.EventCooldown
import P300.Bots.OrderBlocks
import P300.Dashboard.Chart
import P300.Equity.Drawdown
import P300.Lib.Batches
import P300.Dashboard.Flow
import P300.Dashboard.Breaker
import P300.Lib.Overlap
import P300.Dashboard.Profile
import P300.Lib.Combinations
import P300.Validation.Cpcv
import P300.Validation.WalkForward
import P300.Lib.Copies
import P300.Validation.Trials
import P300.Validation.Barriers
import P300.Validation.EquityCurve
import P300.Bots.AdxRange
import P300.Lib.Suffixes
import P300.Validation.Changepoint
import P300.Bots.VolumeProfile
import P300.Lib.FirstPerKey
import P300.Ops.Evidence
import P300.Validation.EventPurge
import P300.Lib.Hysteresis
import P300.Lib.Spaced
import P300.Lib.Trace
import P300.Micro.Housekeeping
import P300.Micro.LiveDepth
import P300.Micro.PollGrid
import P300.Micro.Positions
import P300.Ops.BackupRun
import P300.Bots.SqueezeExits
import P300.Bots.CarryExits
import P300.Micro.Leaders
import P300.Bots.R4Exits
