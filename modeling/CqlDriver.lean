import CqlDriver.LocalDate
import CqlDriver.ResultSet
import CqlDriver.Concurrent
import CqlDriver.EncoderRoundTrip
import CqlDriver.ResultsWrapper
import CqlDriver.Mapping.Executors
import CqlDriver.Mapping.BatchMapper
import CqlDriver.Varint
import CqlDriver.Client
import CqlDriver.StreamExecutor
import CqlDriver.DurationText
import CqlDriver.BigDecimal
import CqlDriver.CqlTypeName
import CqlDriver.CqlTypeNameExact
import CqlDriver.FqTypeName
import CqlDriver.EmptyCollections
import CqlDriver.InetAddressText
import CqlDriver.Lib.Firsts
import CqlDriver.Lib.SortedSearch
import CqlDriver.LocalDateWrapper
import CqlDriver.Metadata.Keyspaces
import CqlDriver.NullElements
import CqlDriver.TimeUuid
import CqlDriver.TimestampGeneration
import CqlDriver.VectorDecoding
import CqlDriver.EachRow
import CqlDriver.RoutingKey
import CqlDriver.UdtValues
import CqlDriver.DurationGrammar
import CqlDriver.BigDecimalText
import CqlDriver.BigIntConversion
import CqlDriver.Lib.Placeholders
import CqlDriver.Mapping.FailedQueries
import CqlDriver.Mapping.Parameters
import CqlDriver.Mapping.SelectExecutors
import CqlDriver.Mapping.TreeLength
import CqlDriver.LocalDateText
import CqlDriver.LocalTime
import CqlDriver.LocalTimeText
import CqlDriver.Mapping.TableMappings
import CqlDriver.Metadata.SimpleStrategy
import CqlDriver.Metadata.TokenRanges
import CqlDriver.ProtocolVersion
import CqlDriver.TimeUuidBounds
import CqlDriver.ClientEncoding
import CqlDriver.Lib.SharedLoad
import CqlDriver.LoadBalancing
import CqlDriver.LongConversion
import CqlDriver.Metadata.EventDebouncer
import CqlDriver.Metadata.SchemaParser
import CqlDriver.Metadata.UserHints
import CqlDriver.MutableLong
import CqlDriver.MutableLongArithmetic
import CqlDriver.Reconnection
import CqlDriver.ResultStream
import CqlDriver.Lib.Comparison
import CqlDriver.Lib.Loop
import CqlDriver.SortedArray
import CqlDriver.ControlFlow
import CqlDriver.IntegerBits
import CqlDriver.Lib.Iteration
import CqlDriver.PolicyChain
import CqlDriver.ClientBatch
import CqlDriver.IntegerDivision
import CqlDriver.IntegerPrinting
import CqlDriver.Mapping.ResultMapper
import CqlDriver.Shuffling
import CqlDriver.NativeLayer
import CqlDriver.Metadata.HostRanges
import CqlDriver.Metadata.PreparedQueries
import CqlDriver.Metadata.TableSchema
