import Colibri.Scheduler.Switch
import Colibri.Scheduler.Resume
import Colibri.Scheduler.Vruntime
import Colibri.Scheduler.Smp
import Colibri.Scheduler.PickNext
import Colibri.Scheduler.RoundRobin
import Colibri.Memory.PhysicalAllocator.Run
import Colibri.Memory.Vm.Kvminit
import Colibri.Memory.Vm.Rollback
import Colibri.Memory.Vm.Recursive
import Colibri.Memory.Vmm.Access
import Colibri.Memory.Vmm.Areas
import Colibri.Memory.Vmm.Bounds
import Colibri.Memory.Vmm.Containers
import Colibri.Memory.Vmm.Create
import Colibri.Memory.Vmm.Destroy
import Colibri.Memory.Vmm.Exhaustion
import Colibri.Memory.Vmm.Gaps
import Colibri.Memory.Vmm.Isolation
import Colibri.Memory.Vmm.Mmio
import Colibri.Libc.Memmove
import Colibri.Libc.Printf
import Colibri.Memory.Heap.Reallocate
import Colibri.Memory.Lst.Run
import Colibri.Memory.Heap.Apart
import Colibri.Process.OutOfMemory
import Colibri.Process.Stale
import Colibri.Process.ThreadArray
import Colibri.Sync.PushOff
import Colibri.Sync.Spinlock
import Colibri.Timer.Hpet
import Colibri.Timer.Uptime
import Colibri.Acpi
import Colibri.Acpi.Rsdp
import Colibri.Boot.Cores
import Colibri.Boot.Walk
import Colibri.Tty.Newline
import Colibri.Tty.Render
import Colibri.Boot.PageTables
import Colibri.Interrupt.Idt
import Colibri.Interrupt.Resume
import Colibri.Memory.PhysicalAllocator.Smp
import Colibri.Memory.Vmm.Processes
