import QubePolicy.Disk
import QubePolicy.Instant
import QubePolicy.Report

/-!
# The host

* `Host`         what the program runs on: a disk, a clock and a console;
* `Host.print`   a message on the console, which keeps all that was printed, in order.
-/

namespace QubePolicy

structure Host where
  disk : Disk
  now : Instant
  console : List Console.Entry

namespace Host

def print (h : Host) (entries : List Console.Entry) : Host :=
  { h with console := h.console ++ entries }

@[simp] theorem disk_print (h : Host) (entries : List Console.Entry) :
    (h.print entries).disk = h.disk := rfl

@[simp] theorem now_print (h : Host) (entries : List Console.Entry) :
    (h.print entries).now = h.now := rfl

@[simp] theorem print_nil (h : Host) : h.print [] = h := by
  rw [print, List.append_nil]

theorem console_print (h : Host) (entries : List Console.Entry) :
    (h.print entries).console = h.console ++ entries := rfl

end Host

end QubePolicy
