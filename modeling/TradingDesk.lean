import TradingDesk.Exec.Accounting
import TradingDesk.Exec.Allocation
import TradingDesk.Exec.LedgerSound
import TradingDesk.Exec.Portable
import TradingDesk.Exec.Reordering
import TradingDesk.Exec.Resolution
import TradingDesk.Exec.Sides
import TradingDesk.Generator.FatFingers
import TradingDesk.Itch.Bounds
import TradingDesk.Itch.Layout
import TradingDesk.Itch.OwnFrame
import TradingDesk.Itch.Stream
import TradingDesk.Query.Join
import TradingDesk.Query.Provenance
import TradingDesk.Query.TimeRange
import TradingDesk.Simulator.FastTrading
import TradingDesk.Utils.Correction
import TradingDesk.Utils.Duration
import TradingDesk.Utils.HiresClock
import TradingDesk.Utils.HumanizeNumber
import TradingDesk.Utils.IntToString
import TradingDesk.Utils.Timestamp
import TradingDesk.Core.Attempts
import TradingDesk.Simulator.Trader
import TradingDesk.Simulator.Trading
import TradingDesk.Core.Climbs
import TradingDesk.Core.Dialogue
import TradingDesk.Core.Rounding
import TradingDesk.Generator.Batch
import TradingDesk.Generator.MarketDraws
import TradingDesk.Query.Display
import TradingDesk.Simulator.Rows
import TradingDesk.Simulator.Setup
import TradingDesk.Utils.IntFromString
