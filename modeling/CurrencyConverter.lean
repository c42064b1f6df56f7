import CurrencyConverter.Library.RecencyList
import CurrencyConverter.Library.AtomicProgram
import CurrencyConverter.Library.ActionCost
import CurrencyConverter.Library.CriticalSection
import CurrencyConverter.Library.TwoRuns
import CurrencyConverter.Library.PlainRun
import CurrencyConverter.Library.EventRun
import CurrencyConverter.Library.FixedWidth
import CurrencyConverter.Library.Collecting
import CurrencyConverter.Library.Raising
import CurrencyConverter.Domain.Model
import CurrencyConverter.Domain.IsoDate
import CurrencyConverter.Cache.TimeAndSizeBoundedCache
import CurrencyConverter.Cache.Coherence
import CurrencyConverter.Cache.Runs
import CurrencyConverter.Cache.Retention
import CurrencyConverter.Cache.Inclusion
import CurrencyConverter.Cache.Sweep
import CurrencyConverter.Cache.Statements
import CurrencyConverter.Cache.Sweeper
import CurrencyConverter.Cache.Shutdown
import CurrencyConverter.Cache.SweepTimes
import CurrencyConverter.Config.AppConfig
import CurrencyConverter.Application.Services
import CurrencyConverter.External.FrankfurterClient
import CurrencyConverter.External.HistoryExtraction
import CurrencyConverter.External.ClientFailures
import CurrencyConverter.External.Paths
import CurrencyConverter.External.Market
import CurrencyConverter.Grpc.CurrencyServiceImpl
import CurrencyConverter.Grpc.Behaviour
import CurrencyConverter.Grpc.Progress
import CurrencyConverter.Grpc.Provenance
import CurrencyConverter.Grpc.CatalogCache
import CurrencyConverter.Grpc.Confidential
import CurrencyConverter.Grpc.Transparency
import CurrencyConverter.Grpc.Mutexes
import CurrencyConverter.Grpc.HistoryAdmission
import CurrencyConverter.Grpc.HistoryCaching
import CurrencyConverter.Grpc.RateDates
import CurrencyConverter.Grpc.Outage
import CurrencyConverter.Grpc.Failures
import CurrencyConverter.Grpc.ClientProvider
import CurrencyConverter.Grpc.MarketAnswers
import CurrencyConverter.Grpc.ConvertPriority
import CurrencyConverter.Grpc.Advertised
import CurrencyConverter.Frontend.Conversion
import CurrencyConverter.Frontend.DisplayedResult
import CurrencyConverter.Frontend.DateEncoding
import CurrencyConverter.Frontend.Browser
import CurrencyConverter.Frontend.EndToEnd
import CurrencyConverter.Main.Lifetimes
import CurrencyConverter.Main.Termination
