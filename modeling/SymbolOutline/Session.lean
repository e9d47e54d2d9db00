import SymbolOutline.Mark.Features
import SymbolOutline.Mark.Scan
import SymbolOutline.Bookmark
import SymbolOutline.Change.Reconcile
import SymbolOutline.Fetch
import SymbolOutline.Message
import SymbolOutline.Outline.Badges
import SymbolOutline.Outline.Nesting
import SymbolOutline.Settings
import SymbolOutline.Tracker

/-
The outline of the document in an editor, from one event to the next. An edit or a change of
document makes the session hand out a ticket; whoever has the symbols of the document brings them
back with the ticket, and they become the outline if no later ticket was handed out and the session
was not cleared. The first outline is sent to displays whole, every later one as changes.

All operations return the messages they send. Listeners get the same messages in the same order.
-/

namespace SymbolOutline

/-- The right to bring the outline of a document, until another is handed out. -/
structure Ticket where
  document : Document
  generation : Nat
deriving DecidableEq, Repr

/-- The state of a session. -/
structure Session where
  settings : Settings
  retry : RetryPolicy
  /-- How many tickets were handed out and how often the session was cleared. -/
  generation : Nat
  document : Option Document
  outline : Option Outline
  marks : Marks
  tracker : Tracker
  badges : Badges
  /-- The diagnostics that came last, and the document they came for. -/
  remembered : Option (Document × List Diagnostic)
  shelf : Option Shelf
  /-- What each listener has heard, in order. -/
  inboxes : List (List Message)
deriving DecidableEq

/-- What becomes of a change of document. -/
inductive Started where
  /-- There is nothing to show. -/
  | cleared (message : Message)
  /-- Symbols are wanted. -/
  | rebuild (ticket : Ticket)
deriving DecidableEq

namespace Session

/-- A session in which nothing has happened. The settings must be fit for use. -/
def new (settings : Settings) : Except Settings.Fault Session :=
  match settings.fault? with
  | some fault => .error fault
  | none => .ok {
      settings := settings
      retry := .standard
      generation := 0
      document := none
      outline := none
      marks := .none
      tracker := .new
      badges := .none
      remembered := none
      shelf := none
      inboxes := [] }

/-- The ticket is the one handed out last, and the session was not cleared since. -/
def IsCurrent (s : Session) (t : Ticket) : Prop := t.generation = s.generation

instance (s : Session) (t : Ticket) : Decidable (s.IsCurrent t) :=
  inferInstanceAs (Decidable (_ = _))

/-- Adds a listener, which hears what is sent from now on. -/
def subscribe (s : Session) : Session := { s with inboxes := s.inboxes ++ [[]] }

/-- Sends a message to all listeners. -/
def notify (s : Session) (m : Message) : Session :=
  { s with inboxes := s.inboxes.map (· ++ [m]) }

/-- Sends a message. -/
def emit (s : Session) (m : Message) : List Message × Session := ([m], s.notify m)

/-- Changes how far the outline follows the editor. -/
def setPin (s : Session) (pin : Pin) : Session := { s with tracker := s.tracker.setPin pin }

/-- What to show where there is no outline. -/
def absenceText (reason : Absence) (document : Option Document) : String :=
  match reason, document with
  | .noSymbols, some d => "No symbols found in document '" ++ d.fileName ++ "'."
  | .noSymbols, none => "No symbols found."
  | .noActiveEditor, _ => "The active editor cannot provide outline information."
  | .unsupported, _ => "The active document is not supported by the outline."

/-- Drops the outline and says why. The document is dropped too, unless it only lacks symbols. No
ticket is current any more. -/
def clear (s : Session) (reason : Absence) : Message × Session :=
  let message : Message := .clear reason (absenceText reason s.document)
  let cleared := { s with
    generation := s.generation + 1
    outline := none
    marks := .none
    tracker := s.tracker.reset
    badges := .none
    document := if reason = Absence.noSymbols then s.document else none }
  (message, cleared.notify message)

/-- The document was edited, or another one is in the editor. -/
def updateDocument (s : Session) (document : Option Document) : Started × Session :=
  match document with
  | none =>
    let (message, s) := s.clear .noActiveEditor
    (.cleared message, s)
  | some d =>
    if !d.isSupported then
      let (message, s) := s.clear .unsupported
      (.cleared message, s)
    else
      let generation := s.generation + 1
      (.rebuild ⟨d, generation⟩, { s with generation, document := some d })

/-- The diagnostics that came last, if they came for a document. -/
def rememberedFor (s : Session) (d : Document) : List Diagnostic :=
  match s.remembered with
  | some (document, diagnostics) => if document = d then diagnostics else []
  | none => []

/-- The marks of a text that comes with symbols. -/
def scan (s : Session) (text : Option TextLines) : Marks :=
  match text with
  | some lines => if s.settings.regionEnabled then lines.marks s.settings.keywords else .none
  | none => .none

/-- Makes an outline the outline of a document, and says what changes. -/
def install (s : Session) (d : Document) (new : Outline) : List Message × Session :=
  let s := { s with
    shelf := s.shelf.map fun (shelf : Shelf) => shelf.set d.uri (Outline.bookmarks new)
    tracker := s.tracker.reset }
  let diagnostics := s.rememberedFor d
  match s.outline with
  | some old =>
    let delta := old.changesTo new
    let (badges, outline, changes) :=
      Badges.none.apply (Outline.lendExpansion delta.expansion new) diagnostics
    { s with badges, outline := some outline }.emit (.update (delta.changes ++ changes))
  | none =>
    let (badges, outline, _) := Badges.none.apply new diagnostics
    { s with badges, outline := some outline }.emit (.rebuild outline)

/-- Brings the symbols of a document, and its text if it is to be scanned for marks. A ticket
that is not current is ignored. -/
def completeRebuild (s : Session) (t : Ticket) (symbols : Forest Symbol) (text : Option TextLines) :
    List Message × Session :=
  if ¬ s.IsCurrent t then ([], s)
  else
    let marks := s.scan text
    let outline := Outline.ofSymbols s.settings.hiddenKinds (symbols ++ marks.symbols)
    let s := { s with marks }
    if outline = [] then
      let (message, s) := s.clear .noSymbols
      ([message], s)
    else s.install t.document outline

/-- Fetches the symbols of a ticket's document and brings them. -/
def rebuildWith {World : Type} (s : Session) (ask : World → Except String (Forest Symbol) × World)
    (wait : Delay → World → World) (t : Ticket) (text : Option TextLines) (world : World) :
    Fetched World × Except FetchError (List Message) × Session :=
  let source : Source World := ⟨ask, wait, fun _ => s.IsCurrent t⟩
  let fetched := source.fetch s.retry t.document s.settings.debug world
  match fetched.outcome with
  | .error e => (fetched, .error e, s)
  | .ok .superseded => (fetched, .ok [], s)
  | .ok .empty =>
    let (messages, s) := s.completeRebuild t [] text
    (fetched, .ok messages, s)
  | .ok (.symbols found) =>
    let (messages, s) := s.completeRebuild t found text
    (fetched, .ok messages, s)

/-- Sends changes, if there are any, and tells displays to scroll after them if they are to follow
what caused them. -/
def emitChanges (s : Session) (changes : List Change) (cause : Follow) (target : ScrollTarget) :
    List Message × Session :=
  if changes = [] then ([], s)
  else
    let (messages, s) := s.emit (.update changes)
    if s.settings.follow = cause then
      let (more, s) := s.emit (.scroll target)
      (messages ++ more, s)
    else (messages, s)

/-- The cursors are elsewhere. -/
def selectionChanged (s : Session) (cursors : List Span) : List Message × Session :=
  match s.outline with
  | none => ([], s)
  | some o =>
    let (tracker, outline, changes) := s.tracker.focus o cursors
    { s with tracker, outline := some outline }.emitChanges changes .cursor .focused

/-- Other lines are visible. -/
def viewportChanged (s : Session) (visible : Span) : List Message × Session :=
  match s.outline with
  | none => ([], s)
  | some o =>
    let (tracker, outline, changes) := s.tracker.view o visible
    { s with tracker, outline := some outline }.emitChanges changes .viewport .inView

/-- There are other diagnostics for a document. They are remembered for its next outline. -/
def diagnosticsChanged (s : Session) (d : Document) (diagnostics : List Diagnostic) :
    List Message × Session :=
  let s := { s with remembered := some (d, diagnostics) }
  match s.outline with
  | none => ([], s)
  | some o =>
    if s.document ≠ some d then ([], s)
    else
      let (badges, outline, changes) := s.badges.apply o diagnostics
      let s := { s with badges, outline := some outline }
      if changes = [] then ([], s) else s.emit (.update changes)

/-- There is a new display. It is told the depth to start with. -/
def attachView (s : Session) : List Message × Session := s.emit (.config s.settings.maxDepth)

/-- Displays are to show more levels, or fewer. -/
def changeDepth (s : Session) (delta : Int) : List Message × Session := s.emit (.changeDepth delta)

end Session

end SymbolOutline
