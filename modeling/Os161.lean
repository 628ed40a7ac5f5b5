import Os161.Proofs.Tlb
import Os161.Proofs.Semaphore
import Os161.Proofs.Biglock
import Os161.Proofs.Ipi
import Os161.Proofs.Migration
import Os161.Proofs.UioMove
import Os161.Proofs.BitmapSet
import Os161.Proofs.Lamebus
import Os161.Proofs.Memmove
import Os161.Proofs.SfsNames
import Os161.Proofs.Sync
import Os161.Proofs.FileRead
import Os161.Proofs.KheapRefs
import Os161.Proofs.KmallocSize
import Os161.Proofs.UserCoalesce
import Os161.Proofs.MallocRange
import Os161.Proofs.Ram
import Os161.Proofs.Copyinout
import Os161.Proofs.Setbootfs
import Os161.Proofs.ThreadCount
import Os161.Proofs.SemfsWakeup
import Os161.Proofs.SemfsRw
import Os161.Proofs.SemfsCreat
import Os161.Proofs.SemfsDirentry
import Os161.Proofs.VnodeRefs
import Os161.Proofs.Itrunc
import Os161.Proofs.SyncErrors
import Os161.Proofs.Mounts
import Os161.Proofs.Regrow
import Os161.Proofs.SfsckNames
import Os161.Proofs.SfsckBmap
import Os161.Proofs.ConsoleInput
import Os161.Proofs.Lser
import Os161.Proofs.Secure
import Os161.Proofs.PrintfField
import Os161.Proofs.Array
import Os161.Proofs.Threadlist
