import ReminderSuite.Delimited
import ReminderSuite.FirstMatch
import ReminderSuite.OrderedMap
import ReminderSuite.FallibleRun
import ReminderSuite.FileTree
import ReminderSuite.Numbered
import ReminderSuite.Basic
import ReminderSuite.TextFile
import ReminderSuite.TextFileCodec
import ReminderSuite.DBLibrary
import ReminderSuite.TextStore
import ReminderSuite.Mutators
import ReminderSuite.Session
import ReminderSuite.Spelling
import ReminderSuite.Server
import ReminderSuite.ServerLoop
import ReminderSuite.Durability
import ReminderSuite.ResponseEnd
import ReminderSuite.TextStoreMap
import ReminderSuite.NameUniqueness
import ReminderSuite.Replies
import ReminderSuite.Indexing
import ReminderSuite.Isolation
import ReminderSuite.Delivery
import ReminderSuite.Client
import ReminderSuite.Receiving
import ReminderSuite.Protocol
import ReminderSuite.CallOrder
import ReminderSuite.SharedMap
import ReminderSuite.CommittedCalls
import ReminderSuite.ScheduledCalls
import ReminderSuite.RdbHandler
import ReminderSuite.Listing
import ReminderSuite.Rendering
import ReminderSuite.FieldLookup
import ReminderSuite.RequestParser
import ReminderSuite.RequestGrammar
import ReminderSuite.RequestHandler
import ReminderSuite.Outcome
import ReminderSuite.Connection
import ReminderSuite.ReplyFraming
import ReminderSuite.ReplyWire
import ReminderSuite.Answering
import ReminderSuite.HttpServer
import ReminderSuite.Serving
import ReminderSuite.DocRoot
import ReminderSuite.StaticFiles
import ReminderSuite.Forwarding
import ReminderSuite.Validation
import ReminderSuite.SentCommands
import ReminderSuite.GatewayCalls
import ReminderSuite.GatewayProgress
import ReminderSuite.GatewayMap
import ReminderSuite.Escapes
import ReminderSuite.Transducer
import ReminderSuite.SqlLexer
import ReminderSuite.DBSQLite
import ReminderSuite.SqlStatement
import ReminderSuite.SqlText
import ReminderSuite.SqlTable
import ReminderSuite.Backends
import ReminderSuite.SqliteLibrary
import ReminderSuite.HandleLog
import ReminderSuite.SqliteHandles
