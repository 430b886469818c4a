/-
  FileListCache.Event

  What a sync run tells those who watch it, and the two ways of watching: keeping everything, or
  taking from a queue that either side may leave.
-/

namespace FileListCache

/-- Something that happened to a repository in a sync run. -/
inductive Event
  | downloading (repo : String)
  | progress (repo file : String) (current total : Nat)
  | mirrorFailed (repo url error : String)
  | downloaded (repo url : String)
  | transcoding (repo : String)
  | synced (repo : String) (entries : Nat)
  | failed (repo error : String)
  deriving DecidableEq, Repr

namespace Event

/-- The repository it happened to. -/
def repo : Event → String
  | downloading r | progress r .. | mirrorFailed r .. | downloaded r _ => r
  | transcoding r | synced r _ | failed r _ => r

/-- Whether nothing more happens to the repository in this run. -/
def isTerminal : Event → Bool
  | synced .. | failed .. => true
  | _ => false

end Event

/-- Keeps every event, oldest first. -/
structure Collector where
  events : List Event := []
  deriving DecidableEq, Repr

namespace Collector

/-- Takes one more event. -/
def emit (c : Collector) (e : Event) : Collector := ⟨c.events ++ [e]⟩

/-- The events of one repository. -/
def eventsFor (c : Collector) (repo : String) : List Event := c.events.filter (·.repo = repo)

/-- How many events were kept. -/
def size (c : Collector) : Nat := c.events.length

end Collector

/-- Events on their way to a receiver; without a receiver they are lost. -/
structure Channel where
  waiting : Option (List Event) := some []
  deriving DecidableEq, Repr

namespace Channel

/-- Sends one more event. -/
def emit (c : Channel) (e : Event) : Channel := ⟨c.waiting.map (· ++ [e])⟩

/-- What the receiver takes: all that waits, or nothing once it is gone. -/
def receive (c : Channel) : Option (List Event) × Channel :=
  (c.waiting, ⟨c.waiting.map fun _ => []⟩)

/-- The receiver leaves; says whether it was still there. -/
def hangUp (c : Channel) : Bool × Channel := (c.waiting.isSome, ⟨none⟩)

end Channel

end FileListCache
