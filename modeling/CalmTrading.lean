import CalmTrading.OrderHistory
import CalmTrading.MarketFeed
import CalmTrading.PortfolioFlow
import CalmTrading.OrderFlow
import CalmTrading.Algo
import CalmTrading.AlgoSystem
import CalmTrading.PositionAccounting
import CalmTrading.SingleOrder
import CalmTrading.PositionRequests
import CalmTrading.Download
import CalmTrading.DownloadCount
import CalmTrading.DataRecorder
import CalmTrading.DownloadReplies
import CalmTrading.Connection
import CalmTrading.FreshIds
import CalmTrading.Lib.Sentinel
import CalmTrading.PortfolioPnl
import CalmTrading.Valuation
import CalmTrading.LossLimits
import CalmTrading.Subscriptions
import CalmTrading.IdSpaces
import CalmTrading.OrderModification
import CalmTrading.Pacing
import CalmTrading.EventLoop
import CalmTrading.EventDispatch
import CalmTrading.EventShutdown
import CalmTrading.Lib.Worker
import CalmTrading.Lifecycle
import CalmTrading.EngineLifecycle
import CalmTrading.ThreadLifecycle
import CalmTrading.Lib.Tiling
import CalmTrading.ChunkTiling
import CalmTrading.DownloadSequence
import CalmTrading.CompleteDownload
import CalmTrading.FlowSlots
import CalmTrading.PnlAggregation
import CalmTrading.Lib.Bytes
import CalmTrading.Lib.Decimal
import CalmTrading.PnlReports
import CalmTrading.Trader
import CalmTrading.TickPublisher
import CalmTrading.Listener
import CalmTrading.PosMessages
import CalmTrading.ContractSymbol
import CalmTrading.SplitJoin
import CalmTrading.RedisSubscribe
import CalmTrading.MessageLoop
import CalmTrading.CancelDiscipline
import CalmTrading.Documents
import CalmTrading.RequestVector
import CalmTrading.StatusLog
import CalmTrading.MergedFile
import CalmTrading.SavedDownloads
import CalmTrading.Lib.Atomic
import CalmTrading.Lib.Monitor
import CalmTrading.Lib.Totals
import CalmTrading.LockBasedQueue
import CalmTrading.MarkToMarket
import CalmTrading.TargetTracking
import CalmTrading.EventFeeds
import CalmTrading.TraderSystem
import CalmTrading.TraderBooks
import CalmTrading.AlgoBooks
import CalmTrading.BooksAgreement
import CalmTrading.Lib.Simulation
import CalmTrading.ActionThread
import CalmTrading.Lib.Repeats
import CalmTrading.RecorderJournal
import CalmTrading.Lib.Gregorian
import CalmTrading.Dates
import CalmTrading.DateText
import CalmTrading.ChunkEnds
import CalmTrading.Lib.Framing
import CalmTrading.MessageReader
import CalmTrading.MessageWriter
import CalmTrading.DownloadFinishes
