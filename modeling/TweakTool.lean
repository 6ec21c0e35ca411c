import TweakTool.Lib.Run
import TweakTool.Lib.Binary64
import TweakTool.Lib.Bytes
import TweakTool.Lib.Table
import TweakTool.Lib.Feed
import TweakTool.Lib.Tracks
import TweakTool.Lib.Shutdown
import TweakTool.Lib.Heap
import TweakTool.Lib.Monitor
import TweakTool.Lib.LinkedTree
import TweakTool.Lib.Shape
import TweakTool.Lib.Decimal
import TweakTool.Lib.Traverse
import TweakTool.Lib.Lines
import TweakTool.Lib.MixedRadix
import TweakTool.Lib.Search
import TweakTool.Common.Variant
import TweakTool.Common.String
import TweakTool.Common.Buffer
import TweakTool.Common.Stored
import TweakTool.Json.Parser
import TweakTool.Json.Grammar
import TweakTool.Json.Lexer
import TweakTool.Json.Reading
import TweakTool.Json.Dialect
import TweakTool.Json.Lengths
import TweakTool.Json.Arrays
import TweakTool.Common.Convert
import TweakTool.Common.Clamp
import TweakTool.Common.Contract
import TweakTool.Common.JsonText
import TweakTool.Metadata.Create
import TweakTool.Metadata.Layout
import TweakTool.Metadata.Options
import TweakTool.Metadata.Safety
import TweakTool.Metadata.Typing
import TweakTool.Metadata.Merging
import TweakTool.Metadata.Copy
import TweakTool.App.Queue
import TweakTool.App.Flush
import TweakTool.App.Model
import TweakTool.App.Context
import TweakTool.App.Server
import TweakTool.App.Client
import TweakTool.App.Tables
import TweakTool.App.Typing
import TweakTool.App.View
import TweakTool.App.Process
import TweakTool.App.Session
import TweakTool.App.Owner
import TweakTool.App.Worker
import TweakTool.App.Copy
import TweakTool.App.Agreement
import TweakTool.App.Hub
import TweakTool.App.HubSafety
import TweakTool.App.Service
import TweakTool.App.Connected
import TweakTool.App.Gating
import TweakTool.App.Waiting
import TweakTool.App.Joining
import TweakTool.App.Arrival
import TweakTool.App.Destruction
import TweakTool.App.Lifetime
import TweakTool.App.Callbacks
import TweakTool.Wire.Rpmsg
import TweakTool.Wire.Delivery
import TweakTool.Wire.Lossy
import TweakTool.Wire.Resync
import TweakTool.Wire.Bounds
import TweakTool.Wire.Escape
import TweakTool.Wire.Nng
import TweakTool.Wire.Transit
import TweakTool.Wire.NngTransfer
import TweakTool.Pickle.Nanopb
import TweakTool.Pickle.Vector
import TweakTool.Pickle.Value
import TweakTool.Pickle.Message
import TweakTool.Pickle.RoundTrip
import TweakTool.Pickle.Storage
import TweakTool.Gateway.Forwarding
import TweakTool.Gateway.Route
import TweakTool.Tweak2.Listeners
import TweakTool.Tweak2.Strings
import TweakTool.Gui.UriTree
import TweakTool.Gui.TreeModel
import TweakTool.Gui.Rows
import TweakTool.Cli.Tokens
import TweakTool.Cli.Escaping
import TweakTool.Cli.Arrays
import TweakTool.Cli.Indices
import TweakTool.Cli.Nested
import TweakTool.Cli.Matrix
import TweakTool.Cli.Script
import TweakTool.Cli.Saving
import TweakTool.Cli.SaveLoad
import TweakTool.Cli.Completion
import TweakTool.Py.GilLoop
import TweakTool.Py.Coalescing
import TweakTool.Py.Buffers
