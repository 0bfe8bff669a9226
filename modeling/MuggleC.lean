import MuggleC.Base.Str
import MuggleC.Memory.BytesRuns
import MuggleC.Memory.SlotOrder
import MuggleC.Sync.FirstMessage
import MuggleC.Sync.RingReads
import MuggleC.Sync.ArrayBlockingQueue
import MuggleC.Sync.DoubleBuffer
import MuggleC.Net.PeerLives
import MuggleC.Net.EventPoll
import MuggleC.Net.EventEpoll
import MuggleC.Net.EventUtils
import MuggleC.Net.MemmgrLists
import MuggleC.Dsaa.AvlMap
import MuggleC.Dsaa.MergeSort
import MuggleC.Dsaa.Capacities
import MuggleC.Dsaa.Trie
import MuggleC.Dsaa.Queue
import MuggleC.Dsaa.Releases
import MuggleC.Crypt.DesLaws
import MuggleC.Crypt.AesLaws
import MuggleC.Log.LogFilter
