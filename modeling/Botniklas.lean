import Botniklas.Foundation.Memory
import Botniklas.Foundation.Ascii
import Botniklas.Irc.Message
import Botniklas.Foundation.Split
import Botniklas.Irc.Grammar
import Botniklas.Irc.SplitMsg
import Botniklas.Foundation.StableInsert
import Botniklas.TimeEvent
import Botniklas.DynamicString
import Botniklas.Foundation.Calendar
import Botniklas.WriteMsg
import Botniklas.Bot
import Botniklas.Date
import Botniklas.ChatLog
import Botniklas.LeetMonitor
import Botniklas.Remind
import Botniklas.Commands
import Botniklas.Msgs
import Botniklas.MsgEffect
import Botniklas.LineEffect
import Botniklas.Foundation.Pieces
import Botniklas.ReadMsg
import Botniklas.Framing
import Botniklas.Restore
import Botniklas.Scan
import Botniklas.RoundTrip
import Botniklas.FileFormat
import Botniklas.AppendRecord
import Botniklas.Session
import Botniklas.Main
import Botniklas.Clean
import Botniklas.Injection
import Botniklas.AtMostOnce
import Botniklas.Armed
import Botniklas.Dispatch
import Botniklas.DateText
import Botniklas.ParseDate
import Botniklas.AllOrNothing
import Botniklas.RemindSyntax
import Botniklas.Separators
import Botniklas.RingBuffer
import Botniklas.ReadBack
import Botniklas.LeetInterval
import Botniklas.Foundation.Retry
import Botniklas.Transfers
import Botniklas.ReplyTarget
import Botniklas.Foundation.LinkedList
import Botniklas.NodeList
import Botniklas.Foundation.Agenda
import Botniklas.Happenings
import Botniklas.CallOrder
import Botniklas.Responses
import Botniklas.Durable
import Botniklas.Foundation.AddressSpace
import Botniklas.Mirroring
import Botniklas.PagedBuf
import Botniklas.CommandAnswers
import Botniklas.Foundation.Timestamp
import Botniklas.ChatLogFile
import Botniklas.Delivery
import Botniklas.Foundation.FileTree
import Botniklas.OpenFile
import Botniklas.DataFiles
import Botniklas.FileRuns
import Botniklas.Foundation.Getopt
import Botniklas.Cmdline
import Botniklas.Foundation.TimerFd
import Botniklas.EdgeTimer
import Botniklas.Foundation.Heap
import Botniklas.ReminderArrays
import Botniklas.Promptness
import Botniklas.Lifetime
