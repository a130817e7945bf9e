import Netsvc.Library.Delimiter
import Netsvc.Library.Framing
import Netsvc.Library.Quoting
import Netsvc.Library.Transition
import Netsvc.Library.Interleaving
import Netsvc.Library.RequestReply
import Netsvc.Library.Fibonacci
import Netsvc.Library.ByteOrder
import Netsvc.Library.Utf8
import Netsvc.Library.Fuel
import Netsvc.Library.Unfold
import Netsvc.Library.Loop
import Netsvc.Library.Rounding
import Netsvc.Library.Decimal
import Netsvc.Library.Binary64
import Netsvc.Library.Datagram
import Netsvc.QuotesFile
import Netsvc.JavaClientServer.Parse
import Netsvc.JavaClientServer.ReadFile
import Netsvc.JavaClientServer.LineCodec
import Netsvc.JavaClientServer.MultiLine
import Netsvc.JavaClientServer.Structure
import Netsvc.JavaClientServer.Selection
import Netsvc.JavaClientServer.Leftover
import Netsvc.JavaClientServer.Session
import Netsvc.JavaClientServer.RequestLoop
import Netsvc.JavaClientServer.ServerMain
import Netsvc.JavaClientServer.Completion
import Netsvc.CppClientServer.Quote
import Netsvc.CppClientServer.Agreement
import Netsvc.CppClientServer.SplitPoint
import Netsvc.CppClientServer.Session
import Netsvc.CppClientServer.Selection
import Netsvc.CppClientServer.RequestLoop
import Netsvc.CppClientServer.Correspondence
import Netsvc.CppClientServer.Children
import Netsvc.CppClientServer.Printing
import Netsvc.CppClientServer.Completion
import Netsvc.QuoteServers
import Netsvc.CClientServer.Csv
import Netsvc.CClientServer.Rows
import Netsvc.CClientServer.QuoteOfTheDay
import Netsvc.CClientServer.Pipeline
import Netsvc.CClientServer.Server
import Netsvc.CClientServer.Transfer
import Netsvc.CClientServer.Delivery
import Netsvc.CClientServer.Completion
import Netsvc.CClientServer.Served
import Netsvc.JavaSocketApp.FibSocket
import Netsvc.JavaSocketApp.Wire
import Netsvc.JavaSocketApp.Counters
import Netsvc.CSocketApp.Fibonacci
import Netsvc.CSocketApp.Networking
import Netsvc.CSocketApp.Exchange
import Netsvc.CSocketApp.LockStep
import Netsvc.CSocketApp.Completion
import Netsvc.CSocketApp.Secondary
import Netsvc.CppSocketApp.Fibonacci
import Netsvc.CppSocketApp.Exchange
import Netsvc.CppSocketApp.Completion
import Netsvc.FibHosts
import Netsvc.CsSocketApp.Receive
import Netsvc.CsSocketApp.NextFibonacci
import Netsvc.CsSocketApp.Exchange
import Netsvc.CsSocketApp.Completion
import Netsvc.BroadcastCpuTemp.CpuUsage
import Netsvc.BroadcastCpuTemp.Monitor
import Netsvc.BroadcastCpuTemp.Display
