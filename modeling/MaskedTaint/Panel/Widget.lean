/-! Parts of a window and what is asked of them. -/

namespace MaskedTaint

namespace Panel

inductive WidgetKind
  | window
  | image
  | notebook
  | frame
  | label
  | entry
  | button
  | choice
  | popup
  | note
  | textArea
  | scrollbar
deriving DecidableEq, Repr

/-- Something that can be asked to do something. -/
inductive Part
  /-- A widget or variable of the window. -/
  | named (name : String)
  /-- A widget that was made later. -/
  | fresh (kind : WidgetKind)
  | messages
  | theme
deriving DecidableEq, Repr

inductive Setting
  | text (s : String)
  | whole (n : Int)
  /-- A share of the space there is, in whole units. -/
  | share (n : Int)
  | truth (b : Bool)
  | part (p : Part)
  /-- Something to do when the time comes. -/
  | action
deriving DecidableEq, Repr

abbrev Settings := List (String × Setting)

/-- What is asked, with arguments and settings. -/
structure Order where
  verb : String
  args : List Setting := []
  settings : Settings := []
deriving DecidableEq, Repr

structure Call where
  target : Part
  order : Order
deriving DecidableEq, Repr

/-- What a widget does when it is clicked. -/
inductive Response (Page : Type)
  | browse (field : String)
  | reveal (entry button : String)
  | execute (page : Page)
deriving DecidableEq, Repr

structure Widget (Page : Type) where
  name : String
  kind : WidgetKind
  args : List Setting := []
  settings : Settings := []
  /-- What was asked of it so far, apart from new settings and timers. -/
  orders : List Order := []
  response : Option (Response Page) := none
  /-- The page on which it offers help. -/
  help : Option Page := none

def Settings.put (settings : Settings) (key : String) (value : Setting) : Settings :=
  if settings.any fun s => s.1 == key then
    settings.map fun s => if s.1 == key then (key, value) else s
  else settings ++ [(key, value)]

end Panel

end MaskedTaint
