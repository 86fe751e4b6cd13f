import SimpleChat.ThreadPoolDelivery
import SimpleChat.ThreadPoolClose
import SimpleChat.ThreadPoolBound
import SimpleChat.PoolLifecycle
import SimpleChat.BlockQueueFront
import SimpleChat.LineBuffer
import SimpleChat.LogRotation
import SimpleChat.ServerLogRotation
import SimpleChat.ServerLogDates
import SimpleChat.DestroyPool
import SimpleChat.SqlInit
import SimpleChat.InitAllResult
import SimpleChat.Segmentation
import SimpleChat.ReadPaths
import SimpleChat.Disconnect
import SimpleChat.SendReply
import SimpleChat.EventBatch
import SimpleChat.Isolation
import SimpleChat.BlockQueueTimed
import SimpleChat.EchoServer
import SimpleChat.EventListen
import SimpleChat.NameBuffers
import SimpleChat.RotationNames
import SimpleChat.JsonRoundTrip
import SimpleChat.JsonRequests
import SimpleChat.Replies
import SimpleChat.BlockQueueSleep
import SimpleChat.Rest
import SimpleChat.SafeQueueMixed
import SimpleChat.EchoThreads
import SimpleChat.GuardedServer
import SimpleChat.LogFiles
import SimpleChat.EchoUtf8
import SimpleChat.JsonPretty
