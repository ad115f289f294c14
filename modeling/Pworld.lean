import Pworld.Support.Loop
import Pworld.Support.Runs
import Pworld.Support.Machine
import Pworld.Support.Ledger
import Pworld.Support.Circulation
import Pworld.Support.Stack
import Pworld.Support.Bytes
import Pworld.Support.Framing
import Pworld.Support.Arrangement
import Pworld.Net.Message
import Pworld.Net.Session
import Pworld.Net.Receive
import Pworld.Net.Transmit
import Pworld.Net.Link
import Pworld.Net.Update
import Pworld.Net.Intake
import Pworld.Net.Circulation
import Pworld.Net.Lifecycle
import Pworld.Net.Handshake
import Pworld.Net.Listener
import Pworld.Net.ListenerLife
import Pworld.Net.Connector
import Pworld.Net.NetMgr
import Pworld.Net.Shutdown
import Pworld.Frame.Server
import Pworld.Frame.Lifetime
import Pworld.Frame.Traffic
import Pworld.Frame.Dispatch
import Pworld.Buffer.ByteBuffer
import Pworld.Buffer.Cursors
import Pworld.Buffer.Strings
import Pworld.Buffer.Typed
import Pworld.Support.Double
import Pworld.Lua.Value
import Pworld.Lua.Serialize
import Pworld.Lua.Deserialize
import Pworld.Lua.Grammar
import Pworld.Lua.Termination
import Pworld.Lua.RoundTrip
import Pworld.Lua.Entries
import Pworld.Lua.Faithful
import Pworld.Lua.Scalars
import Pworld.Lua.Space
import Pworld.Script.RingQueue
import Pworld.Script.Shuffle
import Pworld.Script.Class
import Pworld.Script.LuaEngine
import Pworld.Script.ScriptParam
import Pworld.Script.SystemConfig
import Pworld.Object.ObjRef
import Pworld.Async.AsyncTask
import Pworld.Db.Database
import Pworld.Timer.TimerMgr
import Pworld.Timer.Safety
import Pworld.Timer.Fate
import Pworld.Timer.Ids
import Pworld.Timer.Once
import Pworld.Timer.Punctual
import Pworld.Script.Neutral
import Pworld.Frame.Custody
import Pworld.Lua.Heap
import Pworld.Lua.Traverse
import Pworld.Lua.Build
import Pworld.Lua.AllOrNothing
import Pworld.Lua.Depth
import Pworld.Timer.ScriptTimer
import Pworld.Timer.Bookkeeping
import Pworld.Script.Deep
import Pworld.Script.Embedding
import Pworld.Script.LuaHelper
import Pworld.Script.Inheritance
import Pworld.Script.ScriptTable
import Pworld.Support.Calendar
import Pworld.Timer.Schedule
import Pworld.Input.Console
import Pworld.Net.Flush
import Pworld.Net.WinClose
import Pworld.Net.WinListener
import Pworld.Net.WinConnector
import Pworld.Db.QueryResult
import Pworld.Frame.FrameEvent
import Pworld.Frame.Capacity
import Pworld.Frame.Replies
import Pworld.Frame.Pacing
import Pworld.Peer.EchoLoop
import Pworld.Script.Objects
import Pworld.Script.Resource
import Pworld.Frame.Descriptors
import Pworld.Net.Activity
import Pworld.Net.PollerRelease
import Pworld.Net.Leaving
import Pworld.Net.Dialing
import Pworld.Async.Order
import Pworld.Async.Release
