import DistrApp.Library.Text
import DistrApp.Library.FileTree
import DistrApp.Library.Effects
import DistrApp.Library.Streams
import DistrApp.Library.Sections
import DistrApp.Library.Xdr
import DistrApp.Library.Keyed
import DistrApp.Library.Holders
import DistrApp.Server.Calls
import DistrApp.Server.Claves
import DistrApp.Server.Places
import DistrApp.Server.Specs
import DistrApp.Server.Outcomes
import DistrApp.Server.Serve
import DistrApp.Server.Disconnect
import DistrApp.Server.Frame
import DistrApp.Server.Guards
import DistrApp.Server.Connected
import DistrApp.Server.Registered
import DistrApp.Server.Arrays
import DistrApp.Server.NullStreams
import DistrApp.Server.Handles
import DistrApp.Server.Distinct
import DistrApp.Server.Reconnect
import DistrApp.Server.Publish
import DistrApp.Directory
import DistrApp.Accounts
import DistrApp.Server.Refines
import DistrApp.Server.AcceptLoop
import DistrApp.Server.Comm
import DistrApp.Server.Handler
import DistrApp.Server.Release
import DistrApp.Server.Decoding
import DistrApp.Server.Arriving
import DistrApp.Server.Acknowledged
import DistrApp.Client.Requests
import DistrApp.Server.Fields
import DistrApp.Server.Contained
import DistrApp.Server.Cut
import DistrApp.Server.Halfway
import DistrApp.Server.Logged
import DistrApp.Server.Buffers
import DistrApp.Server.Unset
import DistrApp.Server.Listing
import DistrApp.Server.Sent
import DistrApp.Server.Announced
import DistrApp.Server.Described
import DistrApp.Server.Stocked
import DistrApp.Server.Replied
import DistrApp.Server.Concurrent
import DistrApp.Server.Episodes
import DistrApp.Server.Schedules
import DistrApp.Server.Progress
import DistrApp.Server.Sessions
import DistrApp.Server.Accounts
import DistrApp.Server.Contents
import DistrApp.Server.Lifetimes
import DistrApp.Service.Terminal
import DistrApp.Client.Decoded
import DistrApp.Client.PeerServer
import DistrApp.Client.Strings
import DistrApp.Client.Screen
import DistrApp.Client.Lookup
import DistrApp.Client.Whereabouts
import DistrApp.Client.Shell
import DistrApp.Client.GetFile
import DistrApp.Client.PeerRequest
import DistrApp.Client.HandedOut
import DistrApp.Client.Transfer
import DistrApp.Client.Fetch
import DistrApp.Client.Prompt
import DistrApp.Client.Listings
import DistrApp.Client.Attributes
import DistrApp.Client.Crowd
import DistrApp.Client.WakeUp
