import Mdns.Parse.Termination
import Mdns.Parse.Safety
import Mdns.Parse.Stale
import Mdns.Parse.RoundTrip
import Mdns.Parse.Tiling
import Mdns.Parse.Grammar
import Mdns.Query.Invariant
import Mdns.Query.UpToDate
import Mdns.Query.Announce
import Mdns.Query.Passed
import Mdns.Query.Expiry
import Mdns.Query.Timers
import Mdns.Query.Table
import Mdns.Query.Api
import Mdns.Query.Goodbye
import Mdns.Query.Packing
import Mdns.Query.Passes
import Mdns.Query.Known
import Mdns.Query.Spent
import Mdns.Query.Truthful
import Mdns.Query.Split
import Mdns.Query.Consume
import Mdns.Query.Standing
import Mdns.Query.Repeat
import Mdns.Calls
import Mdns.LinkLocal
import Mdns.Dname.Rename
import Mdns.Dname.Agree
import Mdns.Dname.InPlace
import Mdns.Txt
import Mdns.Respond.Wait
import Mdns.Respond.Deliver
import Mdns.Respond.Order
import Mdns.Respond.Flat
import Mdns.Respond.Names
import Mdns.Respond.Room
import Mdns.Respond.Growth
import Mdns.Respond.Grounds
import Mdns.Respond.Validate
import Mdns.Discover.EndToEnd
import Mdns.Network.Unique
import Mdns.Network.Address
