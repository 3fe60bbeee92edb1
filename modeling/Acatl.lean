import Acatl.Mqtt.Types
import Acatl.Mqtt.Topic
import Acatl.Lib.Pieces
import Acatl.Mqtt.TopicLevels
import Acatl.Mqtt.FilterValidation
import Acatl.Mqtt.SubscriptionTree
import Acatl.Mqtt.TreeContents
import Acatl.Mqtt.TreeInsertion
import Acatl.Mqtt.FailedInsertion
import Acatl.Mqtt.FilterSemantics
import Acatl.Mqtt.TreeWalk
import Acatl.Mqtt.TreeMatching
import Acatl.Mqtt.MatchResult
import Acatl.Mqtt.TreeCrossing
import Acatl.Mqtt.ControlPackets
import Acatl.Mqtt.FieldParsers
import Acatl.Mqtt.BodyParsers
import Acatl.Mqtt.Parser
import Acatl.Lib.Machine
import Acatl.Mqtt.BodyResults
import Acatl.Mqtt.ParserResults
import Acatl.Mqtt.ParserFrames
import Acatl.Mqtt.BodyGrammar
import Acatl.Mqtt.ParserIsolation
import Acatl.Mqtt.Sessions
import Acatl.Mqtt.SessionSubscriptions
import Acatl.Mqtt.Processor
import Acatl.Mqtt.SessionExclusivity
import Acatl.Mqtt.ConnectedSessions
import Acatl.Mqtt.TreeCopies
import Acatl.Mqtt.SubscriptionRegistry
import Acatl.Lib.Base128
import Acatl.Lib.Writer
import Acatl.Mqtt.Serializer
import Acatl.Mqtt.RemainingLength
import Acatl.Mqtt.LengthCodec
import Acatl.Mqtt.SerializedFrames
import Acatl.Mqtt.BodyOutcomes
import Acatl.Mqtt.FrameOutcomes
import Acatl.Mqtt.AcceptedBodies
import Acatl.Mqtt.FrameRoundTrips
import Acatl.Lib.Sorting
import Acatl.Lib.LastWrite
import Acatl.Mqtt.FilterOrder
import Acatl.Mqtt.FilterSorting
import Acatl.Mqtt.SubscribeRoundTrip
import Acatl.Lib.Calendar
import Acatl.Lib.CopyOnWrite
import Acatl.Lib.WorkQueue
import Acatl.Lib.Bidirectional
import Acatl.Lib.DepthFirst
import Acatl.Text
import Acatl.StringHelper
import Acatl.Net.QueryParameter
import Acatl.Net.QueryRoundTrip
import Acatl.Net.EscapeDecoding
import Acatl.Net.HttpCookie
import Acatl.Net.CookieAttributes
import Acatl.Net.CookieRoundTrip
import Acatl.Net.CookieLists
import Acatl.Net.ClientCookies
import Acatl.Lib.FirstFailure
import Acatl.Net.CookieFailures
import Acatl.Net.HttpSessions
import Acatl.Net.SessionLifetime
import Acatl.Net.SessionData
import Acatl.Net.HttpParser
import Acatl.Net.HeaderCallbacks
import Acatl.Net.RefusingCallbacks
import Acatl.Path
import Acatl.PathIteration
import Acatl.PathElements
import Acatl.PathDecomposition
import Acatl.PathRoots
import Acatl.PathAppending
import Acatl.PathExtension
import Acatl.FileSystem
import Acatl.DirectoryIterator
import Acatl.PathResolution
import Acatl.RemoveAll
import Acatl.CalendarPrinting
import Acatl.CreateDirectories
import Acatl.RecursiveIteration
import Acatl.ThreadPool
import Acatl.ThreadPoolTasks
import Acatl.ThreadPoolShutdown
import Acatl.Mqtt.TreePublication
import Acatl.Net.CookieRoundTrip
import Acatl.Trimming
import Acatl.SplitJoin
import Acatl.Lib.Occurrences
import Acatl.ReplaceAll
import Acatl.Lib.CInteger
import Acatl.NumericCast
import Acatl.OptionConverter
import Acatl.Net.CookieNumbers
import Acatl.Lib.Computus
import Acatl.DateHelper
import Acatl.Dates
import Acatl.Lexer
import Acatl.LexerPartition
import Acatl.LexerPositions
import Acatl.PathAbsolute
import Acatl.Mqtt.ParsedPackets
import Acatl.Mqtt.Connection
import Acatl.Mqtt.Server
import Acatl.Mqtt.SendProgress
import Acatl.Mqtt.SendQueue
import Acatl.Lib.PubSub
import Acatl.Mqtt.BrokerService
import Acatl.Mqtt.ServerDelivery
import Acatl.Mqtt.ServerReplies
import Acatl.Lib.Framing
import Acatl.Mqtt.StreamRoundTrip
import Acatl.Lib.Ownership
import Acatl.Any
import Acatl.OptionGroups
import Acatl.CommandLineOptions
import Acatl.Canonical
import Acatl.Net.DocumentRoot
import Acatl.TemporaryDirectory
