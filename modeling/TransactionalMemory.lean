import TransactionalMemory.Foundations.LabelledSystem
import TransactionalMemory.DataStructures
import TransactionalMemory.Atomic.UpdateOrder
import TransactionalMemory.Atomic.CommitWindow
import TransactionalMemory.Atomic.WaitFree
import TransactionalMemory.Atomic.Segments
import TransactionalMemory.Sequential.Refusal
import TransactionalMemory.Sequential.SerialOrder
import TransactionalMemory.Sequential.InPlace
import TransactionalMemory.Atomic.Threads
import TransactionalMemory.Grading.Run
import TransactionalMemory.Grading.ConcurrentBank
import TransactionalMemory.Grading.RoundAgreement
import TransactionalMemory.Grading.CheckRounds
import TransactionalMemory.Grading.MeasureEnd
import TransactionalMemory.Grading.AllOrNothing
import TransactionalMemory.Reference.LockOrder
import TransactionalMemory.Reference.SegmentContents
