import Geminon.Memory
import Geminon.Constants
import Geminon.Separated
import Geminon.Fs
import Geminon.PathTokens
import Geminon.Resolve
import Geminon.ParseCalls
import Geminon.Containment
import Geminon.Normal
import Geminon.Dots
import Geminon.Decimal
import Geminon.Url
import Geminon.Location
import Geminon.Bounded
import Geminon.Search
import Geminon.Process
import Geminon.Coupling
import Geminon.RequestLine
import Geminon.Descriptors
import Geminon.Client
import Geminon.ServicePort
import Geminon.Ownership
import Geminon.LinkedList
import Geminon.Server
import Geminon.Dispatch
import Geminon.World
import Geminon.Request
import Geminon.StatusLine
import Geminon.PartialWrites
import Geminon.Response
import Geminon.Copying
import Geminon.Streams
import Geminon.Handlers
import Geminon.Serve
import Geminon.Twins
import Geminon.Independence
import Geminon.Exchange
import Geminon.Reach
import Geminon.Replies
import Geminon.Leaks
import Geminon.Turns
import Geminon.Guards
import Geminon.Prefixes
import Geminon.Configure
import Geminon.PortOptions
import Geminon.Listening
import Geminon.VirtualHosts
import Geminon.Walks
import Geminon.Meaning
import Geminon.Channels
import Geminon.Answers
import Geminon.Site
import Geminon.StaticSite
import Geminon.Gurl
import Geminon.EndToEnd
import Geminon.Lifespan
import Geminon.Main
import Geminon.Child
import Geminon.Invariants
import Geminon.Ledger
import Geminon.Heaps
import Geminon.Lifetime
import Geminon.Closing
import Geminon.Reading
import Geminon.Tables
import Geminon.Fuzz
