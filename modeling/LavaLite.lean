import LavaLite.Base.Channel
import LavaLite.Base.Hash
import LavaLite.Base.Heap
import LavaLite.Base.LinkedList
import LavaLite.Batch.Jobscript
import LavaLite.Mbd.Archives
import LavaLite.Mbd.Replies
import LavaLite.Sbd.Stdio
import LavaLite.Sbd.Timer
import LavaLite.Cluster.Arrays
import LavaLite.Cluster.Expansion
import LavaLite.Cluster.Files
import LavaLite.Cluster.Identifiers
import LavaLite.Cluster.Identity
import LavaLite.Cluster.Lost
import LavaLite.Cluster.Records
import LavaLite.Cluster.Users
