import BossOs.Log.Crash
import BossOs.Log.Reservation
import BossOs.Proc.Kill
import BossOs.Sync.Sleep1
import BossOs.Sync.Interrupts
import BossOs.Sync.SleepLock
import BossOs.Pipe.Wakeup
import BossOs.Console.Segments
import BossOs.Console.Printint
import BossOs.Wait.LostKill
import BossOs.Bio.Transparent
import BossOs.Bio.Recency
import BossOs.Bio.Commit
import BossOs.Fs.Bitmap
import BossOs.Fs.DirMap
import BossOs.Fs.Shape
import BossOs.Fs.Writers
import BossOs.Vm.AddressMap
import BossOs.Vm.Isolation
import BossOs.Vm.Copy
import BossOs.Vm.Growproc
import BossOs.Vm.Skip
import BossOs.Vm.Hole
import BossOs.Shell.Redirect
import BossOs.Shell.Terminate
import BossOs.Grep.Pieces
import BossOs.Fs.Codec
import BossOs.Mkfs.Limits
import BossOs.Mp.Scan
import BossOs.Syscall.Args
import BossOs.Syscall.Calls
import BossOs.Syscall.Files
import BossOs.Boot.Bootmain
import BossOs.User.Wc
