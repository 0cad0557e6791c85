import CodeLibrary.Inotify.Events

/-!
# A program that watches, and the kernel

The kernel keeps the live watches and a queue of events. `inotify_add_watch` returns a new
descriptor, or that of the watch the inode has already; every watch that is removed, by
`inotify_rm_watch` or because what it watches is gone, queues one `IN_IGNORED` event.
-/

namespace Inotify

/-- The kernel, and the program. -/
structure System where
  /-- the live watches: their descriptors and inodes -/
  watches : List (Int × Nat)
  /-- the events not yet read -/
  events : List InotifyEvent
  prog : State

def System.init : System := ⟨[], [], openInotifyFd⟩

/-- The event of a watch that was removed. -/
def ignoredEvent (wd : Int) : InotifyEvent := ⟨wd, IN_IGNORED, 0, []⟩

/-- What happens: a call of the program, with what the kernel made of it, or something in the
kernel. -/
inductive Act where
  | watchNew (inode : Nat) (wd : Int)
  | watchAgain (inode : Nat) (wd : Int)
  | watchFails (wd : Int)
  | ignore (wd : Int) (inode : Nat)
  | ignoreFails (wd r : Int)
  | removed (wd : Int) (inode : Nat)
  | queued (event : InotifyEvent)
  | read (n : Nat)
  | readFails (r : Int)
  | handle

inductive Step (s : System) : Act → System → Prop
  /-- `watch_dir` of an inode that has no watch -/
  | watchNew {inode : Nat} {wd : Int} : 0 < wd → wd ∉ s.watches.map Prod.fst →
      inode ∉ s.watches.map Prod.snd → Step s (.watchNew inode wd)
        { s with
          watches := (wd, inode) :: s.watches
          prog := (watchDir s.prog wd).1 }
  /-- `watch_dir` of an inode that has a watch -/
  | watchAgain {inode : Nat} {wd : Int} : (wd, inode) ∈ s.watches →
      Step s (.watchAgain inode wd) { s with prog := (watchDir s.prog wd).1 }
  | watchFails {wd : Int} : wd < 0 →
      Step s (.watchFails wd) { s with prog := (watchDir s.prog wd).1 }
  /-- `ignore_wd` of a live watch -/
  | ignore {wd : Int} {inode : Nat} : (wd, inode) ∈ s.watches → Step s (.ignore wd inode)
      { watches := s.watches.erase (wd, inode)
        events := s.events ++ [ignoredEvent wd]
        prog := (ignoreWd s.prog 0).1 }
  | ignoreFails {wd r : Int} : r < 0 →
      Step s (.ignoreFails wd r) { s with prog := (ignoreWd s.prog r).1 }
  /-- what the watch is on is deleted or unmounted -/
  | removed {wd : Int} {inode : Nat} : (wd, inode) ∈ s.watches → Step s (.removed wd inode)
      { s with
        watches := s.watches.erase (wd, inode)
        events := s.events ++ [ignoredEvent wd] }
  | queued {event : InotifyEvent} : isIgnored event = false →
      Step s (.queued event) { s with events := s.events ++ [event] }
  /-- `read_events` of the first `n` events -/
  | read {n : Nat} {r : Int} : 0 < r → Step s (.read n)
      { s with
        events := s.events.drop n
        prog := (readEvents s.prog r (s.events.take n)).1 }
  | readFails {r : Int} : r ≤ 0 →
      Step s (.readFails r) { s with prog := (readEvents s.prog r []).1 }
  | handle : Step s .handle { s with prog := handleEvents s.prog }

/-- The system after some acts. -/
inductive Run : List Act → System → Prop
  | nil : Run [] .init
  | snoc {acts : List Act} {s s' : System} {a : Act} :
      Run acts s → Step s a s' → Run (acts ++ [a]) s'

/-- All queued events have been handled. -/
def System.Handled (s : System) : Prop := s.events = [] ∧ s.prog.q = []

/-- What `watched_items` is for: it is the number of live watches, so that
`process_inotify_events` ends just when there are none. -/
structure System.Accounts (s : System) : Prop where
  count : s.prog.watchedItems = s.watches.length
  ends : goesOn true s.prog = false ↔ s.watches = []

end Inotify
