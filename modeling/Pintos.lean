import Pintos.CacheUnique
import Pintos.CacheThreads
import Pintos.FreeMapThreads
import Pintos.FreeMapPersist
import Pintos.FileWriters
import Pintos.WaitDelivers
import Pintos.WaitOnce
import Pintos.PagedirDestroy
import Pintos.Segment
import Pintos.Arguments
import Pintos.Confinement
import Pintos.Fsutil
import Pintos.Condition
import Pintos.Palloc
import Pintos.Malloc
import Pintos.Scheduler
import Pintos.Arithmetic
import Pintos.Partition
import Pintos.DescriptorCalls
import Pintos.ExecFailure
import Pintos.Serial
import Pintos.HashTable
import Pintos.Stdlib
import Pintos.Strtok
import Pintos.CommandLine
import Pintos.ExecWorkDir
