import RandallFlare.Quorum.Acknowledge
import RandallFlare.D1.Catalog
import RandallFlare.D1.LocalReads
import RandallFlare.D1.Client
import RandallFlare.D1.Compaction
import RandallFlare.D1.Atomic
import RandallFlare.D1.Answers
import RandallFlare.D1.Indexing
import RandallFlare.Peer.Replay
import RandallFlare.Signed.Converge
import RandallFlare.Claims.Tenure
import RandallFlare.Node.Recover
import RandallFlare.Node.Reopen
import RandallFlare.Node.Gossip
import RandallFlare.Platform.Hostnames
import RandallFlare.Queue.Budget
import RandallFlare.Workflow.Wakeup
import RandallFlare.Workflow.Replay
import RandallFlare.Flow.Resume
import RandallFlare.Exit.Session
import RandallFlare.R2.Conditional
import RandallFlare.R2.Aliases
import RandallFlare.R2.Listed
import RandallFlare.R2.Listing
import RandallFlare.Console.Overlooked
import RandallFlare.S3.Fixed
import RandallFlare.Node.Admission
import RandallFlare.Node.Listing
import RandallFlare.Kv.Digest
import RandallFlare.Cron.Schedule
import RandallFlare.Platform.History
import RandallFlare.Platform.Analytics
import RandallFlare.Node.Pairing
import RandallFlare.Node.Expiry
import RandallFlare.Workflow.Limits
import RandallFlare.Flow.Validate
import RandallFlare.Flow.Addresses
import RandallFlare.Workflow.Restart
