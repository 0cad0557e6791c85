import Mathlib.Data.List.Basic

/-!
# The events and the counter of `inotify_utils.c`

The functions of `inotify_utils.c` on the counter `watched_items` and the queue of
`event_queue.c`, given what the system calls return. What they print is left out: of the cases of
`handle_event` only `IN_IGNORED` does anything else.
-/

namespace Inotify

/-! ## `sys/inotify.h` -/

def IN_ALL_EVENTS : UInt32 := 0x00000FFF

def IN_UNMOUNT : UInt32 := 0x00002000

def IN_Q_OVERFLOW : UInt32 := 0x00004000

def IN_IGNORED : UInt32 := 0x00008000

/-- `struct inotify_event`; `name` has `len` bytes. -/
structure InotifyEvent where
  wd : Int
  mask : UInt32
  cookie : UInt32
  name : List UInt8
deriving DecidableEq, Repr

/-! ## `inotify_utils.c` -/

/-- `watched_items`, and the queue from its head. -/
structure State where
  watchedItems : Int
  q : List InotifyEvent
deriving DecidableEq, Repr

/-- `open_inotify_fd`, with a new queue -/
def openInotifyFd : State := ⟨0, []⟩

/-- The case of `IN_IGNORED` in `handle_event`. -/
def isIgnored (event : InotifyEvent) : Bool :=
  event.mask &&& (IN_ALL_EVENTS ||| IN_UNMOUNT ||| IN_Q_OVERFLOW ||| IN_IGNORED) == IN_IGNORED

def handleEvent (s : State) (event : InotifyEvent) : State :=
  if isIgnored event then { s with watchedItems := s.watchedItems - 1 } else s

/-- `handle_events`: events are taken off the queue until it is empty. -/
def handleEvents (s : State) : State :=
  s.q.foldl (fun s event => handleEvent { s with q := s.q.tail } event) s

/-- `read_events`, where `read()` returned `r` with the events it read; it returns what `r` says of
an error, or the number of events. -/
def readEvents (s : State) (r : Int) (events : List InotifyEvent) : State × Int :=
  if r ≤ 0 then (s, r)
  else ({ s with q := s.q ++ events }, events.length)

/-- `watch_dir`, where `inotify_add_watch` returned `wd` -/
def watchDir (s : State) (wd : Int) : State × Int :=
  if wd < 0 then (s, wd) else ({ s with watchedItems := s.watchedItems + 1 }, wd)

/-- `ignore_wd`, where `inotify_rm_watch` returned `r` -/
def ignoreWd (s : State) (r : Int) : State × Int :=
  if r < 0 then (s, r) else ({ s with watchedItems := s.watchedItems - 1 }, r)

/-- The condition of the loop of `process_inotify_events`. -/
def goesOn (keepRunning : Bool) (s : State) : Bool := keepRunning && decide (s.watchedItems > 0)

/-- One round of `process_inotify_events`, where `event_check` returned `check`. -/
def processStep (keepRunning : Bool) (check r : Int) (events : List InotifyEvent) (s : State) :
    State ⊕ State × Int :=
  if goesOn keepRunning s then
    if check > 0 then
      let (s, r) := readEvents s r events
      if r < 0 then .inr (s, 0) else .inl (handleEvents s)
    else .inl s
  else .inr (s, 0)

end Inotify
