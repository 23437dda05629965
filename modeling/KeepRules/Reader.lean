import KeepRules.Error
import KeepRules.Settings
import KeepRules.Word

/-! # The word reader

A reader takes words from a stack of sources. The lowest is the root; an included source is put on
top and taken off once it is exhausted, after which reading goes on in the source below it. Each
source keeps its place in its current line, and the comments met since they were last asked for. -/

set_option autoImplicit false

namespace KeepRules

/-- What happens while a configuration is read. -/
inductive Event where
  | dispatching (keyword word : String)
  | entering (depth : Nat) (origin : Origin)
  | leaving (depth : Nat) (origin : Origin)
  | parsed (rules inJars outJars : Nat)
  deriving DecidableEq

/-- A source with the reader's place in it. -/
structure Frame where
  source : Source
  /-- The words of the current line that are still to come. -/
  words : List String := []
  /-- The word read last, if the last read gave one. -/
  word : Option String := none
  /-- The comments of the lines loaded so far, unless taken before. -/
  comments : Option String := none
  deriving DecidableEq

namespace Frame

/-- Comments of several lines are joined by line feeds. -/
def joinComments : Option String → Option String → Option String
  | comments, none => comments
  | none, some comment => some comment
  | some comments, some comment => some (comments ++ "\n" ++ comment)

/-- The next word, or nothing at the end of the source, loading lines as needed. -/
def next (separator : Char) (f : Frame) : EStateM.Result IoFault Frame (Option String) :=
  match f.words with
  | word :: words => .ok (some word) { f with words := words, word := some word }
  | [] =>
    match _h : f.source.nextLine with
    | .error fault source => .error fault { f with source := source, word := none }
    | .ok none source => .ok none { f with source := source, word := none }
    | .ok (some line) source =>
      let (words, comment) := Word.ofLine separator line
      next separator
        { f with source := source, words := words, comments := joinComments f.comments comment }
termination_by f.source.unread.length
decreasing_by
  rw [(Source.unread_of_nextLine_some _h).1]
  exact Nat.lt_succ_self _

def location (f : Frame) : Location where
  word := f.word
  line := f.source.count
  origin := f.source.origin

/-- The words still to come in the source, a fault standing for a line that cannot be read. -/
def ahead (separator : Char) (f : Frame) : List (Except IoFault String) :=
  f.words.map .ok ++ f.source.unread.flatMap fun
    | none => [.error .invalidUtf8]
    | some line => (Word.ofLine separator line).1.map .ok

end Frame

structure Reader where
  /-- The innermost source. -/
  top : Frame
  /-- The sources that led to it, the nearest first. -/
  below : List Frame := []
  separator : Char
  limit : Nat
  /-- What has happened so far, the latest first. -/
  trail : List Event := []
  deriving DecidableEq

namespace Reader

def ofSource (root : Source) (settings : Settings) : Reader where
  top := { source := root }
  separator := settings.pathSeparator
  limit := settings.maxIncludeDepth

/-- The number of includes that are open. -/
def depth (r : Reader) : Nat := r.below.length

def location (r : Reader) : Location := r.top.location

def record (r : Reader) (event : Event) : Reader := { r with trail := event :: r.trail }

/-- Puts a source on top; the next word comes from it. -/
def includeSource (source : Source) (r : Reader) : EStateM.Result ParseError Reader Unit :=
  if r.depth < r.limit then
    .ok () { r with
      top := { source := source }
      below := r.top :: r.below
      trail := .entering (r.depth + 1) source.origin :: r.trail }
  else .error (.rejected (.nestedTooDeep r.limit) r.location) r

/-- The next word of the innermost source that still has one, or nothing at the end of the root.
Exhausted sources above the root are taken off on the way. -/
def next (r : Reader) : EStateM.Result ParseError Reader (Option String) :=
  match r.top.next r.separator with
  | .error fault top => .error (.unreadable top.source.origin fault) { r with top := top }
  | .ok (some word) top => .ok (some word) { r with top := top }
  | .ok none top =>
    match _h : r.below with
    | [] => .ok none { r with top := top }
    | frame :: below =>
      next { r with
        top := frame
        below := below
        trail := .leaving r.depth top.source.origin :: r.trail }
termination_by r.below.length
decreasing_by
  rw [_h]
  exact Nat.lt_succ_self _

/-- The comments of the innermost source, which are then forgotten. -/
def takeComments (r : Reader) : Option String × Reader :=
  (r.top.comments, { r with top := { r.top with comments := none } })

/-- The words still to come, if nothing further is included. -/
def ahead (r : Reader) : List (Except IoFault String) :=
  (r.top :: r.below).flatMap (Frame.ahead r.separator)

end Reader

end KeepRules
