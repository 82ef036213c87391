import Estoc.Agent.Acknowledgements
import Estoc.Agent.Bookkeeping
import Estoc.Agent.Pickup
import Estoc.Agent.Receiver
import Estoc.Agent.Responder
import Estoc.Continuity.Arrival
import Estoc.Continuity.Closures
import Estoc.Continuity.Conflicts
import Estoc.Continuity.Contexts
import Estoc.Continuity.Cycles
import Estoc.Continuity.Derived
import Estoc.Continuity.Facts
import Estoc.Continuity.Graph
import Estoc.Continuity.Head
import Estoc.Continuity.Joins
import Estoc.Continuity.Least
import Estoc.Continuity.Model
import Estoc.Continuity.Monotone
import Estoc.Continuity.Queries
import Estoc.Continuity.Ranked
import Estoc.Continuity.Search
import Estoc.Continuity.Stages
import Estoc.Continuity.Support
import Estoc.Daemon.Answered
import Estoc.Daemon.Answers
import Estoc.Daemon.Calls
import Estoc.Daemon.Client
import Estoc.Daemon.Converge
import Estoc.Daemon.Covered
import Estoc.Daemon.EndsOnce
import Estoc.Daemon.Faces
import Estoc.Daemon.Handed
import Estoc.Daemon.LastWord
import Estoc.Daemon.Notified
import Estoc.Daemon.Promised
import Estoc.Daemon.Publications
import Estoc.Daemon.Publisher
import Estoc.Daemon.Queue
import Estoc.Daemon.Reconnected
import Estoc.Daemon.Reconnecting
import Estoc.Daemon.Refreshed
import Estoc.Daemon.Refreshes
import Estoc.Daemon.Returned
import Estoc.Daemon.Seeking
import Estoc.Daemon.Served
import Estoc.Daemon.Serving
import Estoc.Daemon.Session
import Estoc.Daemon.TakenUp
import Estoc.Daemon.Telling
import Estoc.Daemon.Views
import Estoc.Daemon.Worlds
import Estoc.Dasl.Canonical
import Estoc.Dasl.Cid
import Estoc.Dasl.Drisl
import Estoc.Dasl.Heads
import Estoc.Dasl.RoundTrip
import Estoc.DidPeer.Certified
import Estoc.DidPeer.Document
import Estoc.DidPeer.Forms
import Estoc.DidPeer.LongForm
import Estoc.DidPeer.References
import Estoc.DidPeer.Resolution
import Estoc.EventStore.Accounted
import Estoc.EventStore.Accounts
import Estoc.EventStore.Agreement
import Estoc.EventStore.Client
import Estoc.EventStore.Envelope
import Estoc.EventStore.Event
import Estoc.EventStore.Exclusion
import Estoc.EventStore.Jcs
import Estoc.EventStore.JcsRoundTrip
import Estoc.EventStore.Lock
import Estoc.EventStore.Log
import Estoc.EventStore.MemoryEvents
import Estoc.EventStore.MemoryLog
import Estoc.EventStore.ObjectSteps
import Estoc.EventStore.Preparation
import Estoc.EventStore.Row
import Estoc.EventStore.SqliteEvents
import Estoc.EventStore.SqliteLog
import Estoc.EventStore.SqliteObjects
import Estoc.EventStore.Staging
import Estoc.EventStore.Store
import Estoc.EventStore.StoresAgree
import Estoc.EventStore.Streams
import Estoc.EventStore.StrictJson
import Estoc.EventStore.Stringify
import Estoc.EventStore.Tokens
import Estoc.EventStore.Values
import Estoc.FolderObject.Candidates
import Estoc.FolderObject.Paths
import Estoc.FolderObject.Reached
import Estoc.FolderObject.Refilled
import Estoc.FolderObject.Tree
import Estoc.FolderObject.Verified
import Estoc.FromPrior.Agreement
import Estoc.FromPrior.Proof
import Estoc.FromPrior.Token
import Estoc.Lib.Base32
import Estoc.Lib.Base58
import Estoc.Lib.Base64
import Estoc.Lib.Binary64
import Estoc.Lib.Bytes
import Estoc.Lib.Checked
import Estoc.Lib.Cmp
import Estoc.Lib.Effect
import Estoc.Lib.Ends
import Estoc.Lib.Json
import Estoc.Lib.JsonParse
import Estoc.Lib.JsonQuoting
import Estoc.Lib.JsonRead
import Estoc.Lib.JsonSame
import Estoc.Lib.JsonText
import Estoc.Lib.JsonUtf8
import Estoc.Lib.Loop
import Estoc.Lib.Machine
import Estoc.Lib.MemoWalk
import Estoc.Lib.OMap
import Estoc.Lib.Outbox
import Estoc.Lib.Paged
import Estoc.Lib.Promises
import Estoc.Lib.Reentry
import Estoc.Lib.Rounds
import Estoc.Lib.Serially
import Estoc.Lib.SetIndex
import Estoc.Lib.Sql
import Estoc.Lib.Tally
import Estoc.Lib.Tarjan
import Estoc.Lib.TextDecoder
import Estoc.Lib.Turns
import Estoc.Lib.UnionFind
import Estoc.Lib.Utf16
import Estoc.Lib.Utf8Order
import Estoc.Mediator.BlobBytes
import Estoc.Mediator.BlobService
import Estoc.Mediator.Blobs
import Estoc.Mediator.Conserved
import Estoc.Mediator.Exclusive
import Estoc.Mediator.Executions
import Estoc.Mediator.Frame
import Estoc.Mediator.Hub
import Estoc.Mediator.LiveDelivery
import Estoc.Mediator.Pickup
import Estoc.Mediator.Retained
import Estoc.Mediator.Roster
import Estoc.Mediator.Service
import Estoc.Mediator.Sessions
import Estoc.Mediator.Steps
import Estoc.Mediator.Store
import Estoc.Mediator.Tables
import Estoc.Vault.Admission
import Estoc.Vault.AdmissionRounds
import Estoc.Vault.Appended
import Estoc.Vault.Channels
import Estoc.Vault.Continuity
import Estoc.Vault.Dids
import Estoc.Vault.Dispositions
import Estoc.Vault.Document
import Estoc.Vault.DocumentRoundTrip
import Estoc.Vault.Erasure
import Estoc.Vault.Events
import Estoc.Vault.Fold
import Estoc.Vault.Hosted
import Estoc.Vault.Ids
import Estoc.Vault.Inbound
import Estoc.Vault.Lineage
import Estoc.Vault.Outbound
import Estoc.Vault.Outside
import Estoc.Vault.PeerRoot
import Estoc.Vault.Plaintext
import Estoc.Vault.PlaintextRoundTrip
import Estoc.Vault.Receipts
import Estoc.Vault.Retention
import Estoc.Vault.RotationPolicy
import Estoc.Vault.Stable
import Estoc.Vault.Submitted
import Estoc.Wire.Bytes
import Estoc.Wire.Carried
import Estoc.Wire.Frames
import Estoc.Wire.Reading
import Estoc.Wire.Values
