import YQuant.Lib.Links
import YQuant.Lib.Word
import YQuant.Lib.Run
import YQuant.Lib.RingIndex
import YQuant.Types
import YQuant.MemPool
import YQuant.LFQueue
import YQuant.TCPSocket
import YQuant.OrderManager.Wire
import YQuant.OrderManager.OrderManager
import YQuant.OrderManager.Sequencing
import YQuant.OrderManager.Sessions
import YQuant.OrderManager.Validation
import YQuant.Trading.OrderGateway
import YQuant.OrderManager.Bursts
import YQuant.Lib.RecordBuffer
import YQuant.OrderManager.Framing
import YQuant.OrderManager.ExactlyOnce
import YQuant.BoundedFifo
import YQuant.Matcher.PriceLevels
import YQuant.Matcher.Occupancy
import YQuant.Matcher.LevelQueues
import YQuant.Matcher.BookCore
import YQuant.Matcher.PriceBand
import YQuant.Matcher.ListBook
import YQuant.Matcher.Sweep
import YQuant.Matcher.IndexedBook
import YQuant.Matcher.BookRep
import YQuant.Matcher.Simulation
import YQuant.Matcher.Ownership
import YQuant.Lib.OrderSession
import YQuant.Matcher.Refinement
import YQuant.Matcher.Cancellable
import YQuant.Matcher.MatchingEngine
import YQuant.Matcher.KeyedOrders
import YQuant.Matcher.Provenance
import YQuant.MarketData.Stream
import YQuant.MarketData.MarketStream
import YQuant.MarketData.SnapshotSynthesizer
import YQuant.MarketData.PublisherLoop
import YQuant.PoolLinks
import YQuant.Trading.MarketOrderBook
import YQuant.Trading.PriceLadder
import YQuant.Trading.Ladders
import YQuant.Trading.Mirror
import YQuant.Trading.MirrorSteps
import YQuant.Trading.BookMirror
import YQuant.Trading.BestBidOffer
import YQuant.MarketData.SnapshotMirror
import YQuant.MarketData.Lifetime
import YQuant.Trading.SnapshotRebuild
import YQuant.Lib.Channel
import YQuant.Lib.NumberedStream
import YQuant.Trading.MarketDataConsumer
import YQuant.Trading.Recovery
import YQuant.Matcher.OrderIndex
import YQuant.MarketData.Uncrossed
import YQuant.Matcher.LifeCycle
import YQuant.Matcher.TwoSides
import YQuant.OrderManager.Backpressure
import YQuant.Trading.TradeEngine
import YQuant.Trading.TradingSystem
import YQuant.Trading.PositionLimit
import YQuant.Lib.AverageCost
import YQuant.Trading.PositionKeeper
import YQuant.Trading.PositionArithmetic
import YQuant.PoolHistory
import YQuant.TCPOutput
import YQuant.Trading.TradeSignal
import YQuant.OrderManager.Routing
import YQuant.Matcher.Reflection
import YQuant.Matcher.LinearScan
import YQuant.Trading.SnapshotQueue
import YQuant.Trading.OutOfBand
import YQuant.Matcher.Termination
import YQuant.MarketData.PublisherOutput
import YQuant.Matcher.Sharding
import YQuant.Trading.ZeroSum
import YQuant.Matcher.PriceTime
import YQuant.Matcher.LimitPrices
import YQuant.MarketData.TradePriority
import YQuant.Trading.TradeThread
import YQuant.Trading.TradingFloor
import YQuant.Trading.StrategyRuns
import YQuant.Trading.GrowingStream
import YQuant.Trading.ClosedLoop
import YQuant.Trading.CaughtUp
import YQuant.Lib.OrderConversation
import YQuant.Trading.Conversation
import YQuant.Matcher.MessageCounts
import YQuant.MarketData.UpdateRecords
import YQuant.MarketData.SnapshotOutput
import YQuant.Trading.ReceiveBuffers
import YQuant.Trading.WireLoop
