import Luminix.Equiv.FiniteMap
import Luminix.Equiv.KeyColumn
import Luminix.Equiv.Prefix
import Luminix.Equiv.TornWrite
import Luminix.Equiv.PrimaryKey
import Luminix.Equiv.RecordOrder
import Luminix.Equiv.Records
import Luminix.Equiv.Rollback
import Luminix.Equiv.RoundTrip
import Luminix.Equiv.Schema
import Luminix.Equiv.StringValue
import Luminix.Equiv.SameTokens
import Luminix.Equiv.SavedCounts
import Luminix.Equiv.TableText
import Luminix.Equiv.SingleTable
import Luminix.Equiv.Saving
import Luminix.Equiv.Constraints
import Luminix.Equiv.Typing
import Luminix.Equiv.GeneratedIds
import Luminix.Equiv.TableNames
import Luminix.Equiv.Query
import Luminix.Equiv.Places
import Luminix.Equiv.Document
import Luminix.Equiv.Nameless
import Luminix.Equiv.Strict
import Luminix.Equiv.FailedCalls
import Luminix.Equiv.Statistics
import Luminix.Equiv.RecordIds
import Luminix.Equiv.Indexes
import Luminix.Equiv.NullValues
import Luminix.Equiv.MemberOrder
import Luminix.Equiv.Condition
import Luminix.Equiv.Terminator
import Luminix.Equiv.ColumnNames
import Luminix.Equiv.IntegerTokens
import Luminix.Equiv.Compress
import Luminix.Equiv.Validate
import Luminix.Equiv.Import
import Luminix.Equiv.Nested
import Luminix.Equiv.UnknownFields
import Luminix.Equiv.LostRecords
import Luminix.Equiv.ValueText
import Luminix.Equiv.SingleRecord
import Luminix.Equiv.RecordText
import Luminix.Equiv.Scan
import Luminix.Equiv.Merge
import Luminix.Equiv.Pretty
import Luminix.Equiv.PrettyTokens
import Luminix.Equiv.NumberWidth
import Luminix.Equiv.Path
import Luminix.Equiv.Backup
import Luminix.Equiv.History
import Luminix.Equiv.Statements
import Luminix.CLib.Stream
import Luminix.CLib.Words
import Luminix.Equiv.Script
import Luminix.Equiv.Skipping
import Luminix.Equiv.Security
import Luminix.Equiv.FileName
import Luminix.CLib.Replace
import Luminix.Equiv.Replace
import Luminix.Equiv.SerializeBuffer
import Luminix.CLib.Scan
import Luminix.Config
import Luminix.Equiv.Config
import Luminix.CLib.Csv
import Luminix.Export
import Luminix.Equiv.Export
import Luminix.Equiv.SerializeBuffer
import Luminix.Equiv.Replace
import Luminix.Equiv.FileName
import Luminix.Equiv.Config
import Luminix.Equiv.Export
import Luminix.Equiv.Transfers
import Luminix.Equiv.Loaded
import Luminix.Equiv.Cycles
import Luminix.Session
import Luminix.Equiv.Session
import Luminix.Equiv.Frame
import Luminix.Equiv.Accounts
import Luminix.Machine.Critical
import Luminix.Equiv.Txn
import Luminix.Equiv.Storage
import Luminix.Equiv.Lines
import Luminix.Equiv.DynamicArray
import Luminix.Equiv.IndexManager
import Luminix.Equiv.Hash
