/-
  FileListCache.Terminal.Board

  How a sync run is shown. Where bars can be drawn, a repository has a bar while it is downloaded
  and one while its archive is rewritten. Elsewhere a line announces the download. Either way a
  line tells what the repository came to.
-/

import FileListCache.ByteCount
import FileListCache.Event
import FileListCache.Repository
import FileListCache.Terminal.Line

namespace FileListCache.Terminal

/-- Something that moves while work goes on. -/
structure Bar where
  title : String
  /-- Whether the end is not known, so that the bar only shows that work goes on. -/
  spins : Bool := false
  length : Nat := 0
  position : Nat := 0
  message : String := ""
  deriving DecidableEq, Repr

/-- The bar after some of a transfer; a length of zero tells nothing. -/
def Bar.advance (b : Bar) (current total : Nat) : Bar :=
  { b with
    length := if total = 0 then b.length else total
    position := current
    message := ByteCount.transferMessage current total }

/-- The bars that are shown, each with its repository. -/
structure Board where
  bars : List (String × Bar) := []
  deriving DecidableEq, Repr

namespace Board

/-- The bar of a repository. -/
def find? (b : Board) (repo : String) : Option Bar := b.bars.lookup repo

/-- Takes the bar of a repository away. -/
def clear (b : Board) (repo : String) : Board := ⟨b.bars.filter (·.1 ≠ repo)⟩

/-- Gives a repository a bar in place of the one that it has. -/
def put (b : Board) (repo : String) (bar : Bar) : Board := ⟨(b.clear repo).bars ++ [(repo, bar)]⟩

/-- The board after an event. -/
def step (interactive : Bool) (b : Board) : Event → Board
  | .downloading _ => b
  | .progress repo file current total =>
    b.put repo (((b.find? repo).getD { title := file }).advance current total)
  | .mirrorFailed repo .. | .downloaded repo _ => b.clear repo
  | .transcoding repo =>
    if interactive then b.put repo { title := "", spins := true, message := repo ++ ": unpacking" }
    else b
  | .synced repo _ | .failed repo _ => b.clear repo

/-- The board after some events. -/
def after (interactive : Bool) (events : List Event) : Board :=
  events.foldl (step interactive) {}

end Board

/-- The line that stands in for a bar where none can be drawn. -/
def announcement? (interactive : Bool) : Event → Option String
  | .downloading repo =>
    if interactive then none else some ("downloading " ++ repo ++ fileListSuffix ++ "...")
  | _ => none

/-- What a repository came to. -/
def verdict? (colors : Bool) : Event → Option String
  | .synced repo entries =>
    some (" " ++ paint colors .green "✓" ++ " " ++ paint colors .cyan repo ++ ": synced (" ++
      toString entries ++ " entries)")
  | .failed repo _ =>
    some (" " ++ paint colors .red "✗" ++ " " ++ paint colors .cyan repo ++ ": failed")
  | _ => none

/-- The lines of an event. -/
def eventLines (colors interactive : Bool) (e : Event) : List Line :=
  ((announcement? interactive e).map (Line.mk .output)).toList ++
    ((verdict? colors e).map (Line.mk .remarks)).toList

/-- The lines of a run. -/
def runLines (colors interactive : Bool) (events : List Event) : List Line :=
  events.flatMap (eventLines colors interactive)

end FileListCache.Terminal
