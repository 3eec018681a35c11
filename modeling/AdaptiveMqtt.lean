import AdaptiveMqtt.Basic
import AdaptiveMqtt.Topic.Levels
import AdaptiveMqtt.Topic.Match
import AdaptiveMqtt.Topic.Check
import AdaptiveMqtt.Topic.Slots
import AdaptiveMqtt.Lib.Heap
import AdaptiveMqtt.Lib.RefCount
import AdaptiveMqtt.Lib.Codec
import AdaptiveMqtt.Lib.Word
import AdaptiveMqtt.Lib.FirstMatch
import AdaptiveMqtt.Lib.Agenda
import AdaptiveMqtt.Lib.Table
import AdaptiveMqtt.Lib.UtHash
import AdaptiveMqtt.Lib.Links
import AdaptiveMqtt.Security.Subscribe
import AdaptiveMqtt.Security.File
import AdaptiveMqtt.Security.Pattern
import AdaptiveMqtt.Security.Dynsec
import AdaptiveMqtt.Dynsec.Model
import AdaptiveMqtt.Dynsec.Config
import AdaptiveMqtt.Dynsec.Handle
import AdaptiveMqtt.Dynsec.Control
import AdaptiveMqtt.Dynsec.Linked
import AdaptiveMqtt.Dynsec.Edits
import AdaptiveMqtt.Dynsec.Steps
import AdaptiveMqtt.Dynsec.Commands
import AdaptiveMqtt.Dynsec.Order
import AdaptiveMqtt.Dynsec.AclCheck
import AdaptiveMqtt.Dynsec.Rights
import AdaptiveMqtt.Dynsec.Saved
import AdaptiveMqtt.Dynsec.Loading
import AdaptiveMqtt.Dynsec.Restore
import AdaptiveMqtt.Dynsec.View
import AdaptiveMqtt.Dynsec.Runs
import AdaptiveMqtt.Sub.Model
import AdaptiveMqtt.Sub.Leaves
import AdaptiveMqtt.Sub.Spec
import AdaptiveMqtt.Sub.Refine
import AdaptiveMqtt.Sub.Clean
import AdaptiveMqtt.Sub.Deliver
import AdaptiveMqtt.Sub.Turns
import AdaptiveMqtt.Db.Model
import AdaptiveMqtt.Db.Micro
import AdaptiveMqtt.Db.Steps
import AdaptiveMqtt.Db.Conserve
import AdaptiveMqtt.Db.Ack
import AdaptiveMqtt.Db.Rest
import AdaptiveMqtt.Db.Outward
import AdaptiveMqtt.Db.Window
import AdaptiveMqtt.Db.Kept
import AdaptiveMqtt.Db.Held
import AdaptiveMqtt.Db.Quota
import AdaptiveMqtt.Db.Flow
import AdaptiveMqtt.Db.Acts
import AdaptiveMqtt.Db.Writers
import AdaptiveMqtt.Db.Session
import AdaptiveMqtt.Db.Reset
import AdaptiveMqtt.Db.Order
import AdaptiveMqtt.Broker.Model
import AdaptiveMqtt.Broker.Handle
import AdaptiveMqtt.Broker.Session
import AdaptiveMqtt.Broker.Life
import AdaptiveMqtt.Broker.Policy
import AdaptiveMqtt.Broker.Unsent
import AdaptiveMqtt.Broker.Stored
import AdaptiveMqtt.Broker.Mids
import AdaptiveMqtt.Broker.Moves
import AdaptiveMqtt.Broker.Steps
import AdaptiveMqtt.Broker.Incoming
import AdaptiveMqtt.Broker.Registry
import AdaptiveMqtt.Broker.Sessions
import AdaptiveMqtt.Broker.Waiting
import AdaptiveMqtt.Broker.Tidy
import AdaptiveMqtt.Broker.Expiry
import AdaptiveMqtt.Broker.Delay
import AdaptiveMqtt.Broker.Names
import AdaptiveMqtt.Broker.Traits
import AdaptiveMqtt.Broker.Leave
import AdaptiveMqtt.Broker.Return
import AdaptiveMqtt.Broker.OptIn
import AdaptiveMqtt.Broker.RefCounts
import AdaptiveMqtt.Broker.Wills
import AdaptiveMqtt.Broker.LastWill
import AdaptiveMqtt.Broker.WillOnce
import AdaptiveMqtt.Broker.Refill
import AdaptiveMqtt.Broker.Once
import AdaptiveMqtt.Broker.Grammar
import AdaptiveMqtt.Broker.Unsubscribe
import AdaptiveMqtt.Broker.RetainTree
import AdaptiveMqtt.Broker.Retained
import AdaptiveMqtt.Packet.Datatypes
import AdaptiveMqtt.Packet.Utf8
import AdaptiveMqtt.Packet.Property
import AdaptiveMqtt.Packet.PropertyList
import AdaptiveMqtt.Packet.PropertyCopy
import AdaptiveMqtt.Packet.Read
import AdaptiveMqtt.Packet.Stream
import AdaptiveMqtt.Packet.Write
import AdaptiveMqtt.Packet.Varint
import AdaptiveMqtt.Packet.WsRead
import AdaptiveMqtt.Packet.WsAgree
import AdaptiveMqtt.Packet.WsWrite
import AdaptiveMqtt.Packet.Publish
import AdaptiveMqtt.Packet.Oversize
import AdaptiveMqtt.Packet.Connect
import AdaptiveMqtt.Client.Model
import AdaptiveMqtt.Client.Exchange
import AdaptiveMqtt.Bridge.Backoff
import AdaptiveMqtt.Bridge.Topic
import AdaptiveMqtt.Persist.Chunk
import AdaptiveMqtt.Persist.Save
import AdaptiveMqtt.Persist.Restore
import AdaptiveMqtt.Persist.Session
import AdaptiveMqtt.Persist.Subs
import AdaptiveMqtt.Persist.RoundTrip
