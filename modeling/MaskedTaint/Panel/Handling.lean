import MaskedTaint.Command.Commands
import MaskedTaint.Flow.Table
import MaskedTaint.Panel.Layout

/-! How the window answers its user. Every answer is a list of calls; the work itself is
done by the commands. -/

namespace MaskedTaint

namespace Panel

/-- The help of a page: the timer that was last set for it, and whether it is shown. -/
structure Tip where
  timer : Option Nat := none
  isShown : Bool := false

/-- Where a widget stands on the screen. -/
structure Spot where
  left : Int := 0
  top : Int := 0

inductive Event
  | enter
  | leave
  | press
deriving DecidableEq, Repr

structure Window where
  widgets : List (Widget Page) := allWidgets
  texts : List (String × String) := variableNames.map fun n => (n, "")
  /-- What a dialog for files returns. -/
  chosen : String := ""
  tips : Page → Tip := fun _ => {}
  /-- Timers still running, in the order in which they were set. -/
  pending : List (Nat × Page) := []
  timers : Nat := 0
  /-- The corner of the text mark, and that of the widget on the screen. -/
  mark : Spot := {}
  corner : Spot := {}
  calls : List Call := []

namespace Window

def text (w : Window) (name : String) : String := (w.texts.lookup name).getD ""

def putText (w : Window) (name value : String) : Window :=
  { w with texts := w.texts.map fun t => if t.1 == name then (name, value) else t }

def widget? (w : Window) (name : String) : Option (Widget Page) :=
  w.widgets.find? fun x => x.name == name

def change (w : Window) (name : String) (f : Widget Page → Widget Page) : Window :=
  { w with widgets := w.widgets.map fun x => if x.name == name then f x else x }

def setting? (w : Window) (name key : String) : Option Setting :=
  (w.widget? name).bind fun x => x.settings.lookup key

def setTip (w : Window) (p : Page) (f : Tip → Tip) : Window :=
  { w with tips := fun q => if q = p then f (w.tips p) else w.tips q }

def variableOf? (w : Window) (name key : String) : Option String :=
  match w.setting? name key with
  | some (.part (.named v)) => some v
  | _ => none

def typed (w : Window) (entry value : String) : Window :=
  match w.variableOf? entry "textvariable" with
  | some v => w.putText v value
  | none => w

def selected (w : Window) (choice : String) : Window :=
  match w.variableOf? choice "variable", w.setting? choice "value" with
  | some v, some (.text value) => w.putText v value
  | _, _ => w

end Window

/-! ### Calls -/

abbrev Acting (m : Type → Type) := StateT Window m

variable {m : Type → Type} [Monad m]

def call (target : Part) (order : Order) : Acting m Unit :=
  modify fun w => { w with calls := w.calls ++ [⟨target, order⟩] }

def ask (name : String) (order : Order) : Acting m Unit := do
  call (.named name) order
  modify fun w => w.change name fun x => { x with orders := x.orders ++ [order] }

def setText (name value : String) : Acting m Unit := do
  call (.named name) { verb := "set", args := [.text value] }
  modify fun w => w.putText name value

def configure (name key : String) (value : Setting) : Acting m Unit := do
  call (.named name) { verb := "config", settings := [(key, value)] }
  modify fun w => w.change name fun x => { x with settings := Settings.put x.settings key value }

def refresh : Acting m Unit := ask windowName { verb := "update" }

def showError (text : String) : Acting m Unit :=
  call .messages { verb := "showerror", args := [.text "Error", .text text] }

def showSuccess (text : String) : Acting m Unit :=
  call .messages { verb := "showinfo", args := [.text "Success", .text text] }

def new (kind : WidgetKind) (parent : Part) (settings : Settings) : Acting m Unit :=
  call (.fresh kind) { verb := "new", args := [.part parent], settings := settings }

def pack (kind : WidgetKind) (settings : Settings) : Acting m Unit :=
  call (.fresh kind) { verb := "pack", settings := settings }

/-! ### Buttons -/

def reveal (entry button : String) : Acting m Unit := do
  if (← get).setting? entry "show" = some (.text "*") then
    configure entry "show" (.text "")
    configure button "image" shown
  else
    configure entry "show" (.text "*")
    configure button "image" hidden

def browse (field : String) : Acting m Unit := do setText field (← get).chosen

def showReport (text : String) : Acting m Unit := do
  new .popup (.named windowName) []
  call (.fresh .popup) { verb := "title", args := [.text "Decrypted Result"] }
  new .scrollbar (.fresh .popup) [("orient", .text "horizontal")]
  pack .scrollbar [("side", .text "bottom"), ("fill", .text "x")]
  new .scrollbar (.fresh .popup) []
  pack .scrollbar [("side", .text "right"), ("fill", .text "y")]
  new .textArea (.fresh .popup)
    [("wrap", .text "word"), ("font", .text "Arial 12"), ("padx", .whole 10), ("pady", .whole 10)]
  pack .textArea [("side", .text "left"), ("fill", .text "both"), ("expand", .truth true)]
  call (.fresh .textArea) { verb := "insert", args := [.text "1.0", .text text] }
  call (.fresh .textArea)
    { verb := "config", settings := [("yscrollcommand", .action), ("xscrollcommand", .action)] }

def start [Disk m] (w : Window) : Page → m Outcome
  | .client =>
    Command.handOver (w.text "client_secret_password") (w.text "client_shared_password")
      (w.text "project_dir") (w.text "output_dir")
  | .auditor =>
    Command.audit (w.text "auditor_shared_password") (w.text "encrypted_code_path")
      (w.text "vulnerability_to_detect") (w.text "result_dir")
  | .decrypt =>
    Command.openReport (w.text "decrypt_secret_password") (w.text "decrypt_shared_password")
      (w.text "result_path")

def conclude (p : Page) (o : Outcome) : Acting m Unit := do
  match o with
  | .refused _ => return ()
  | .done s =>
    setText loading ""
    refresh
    if p = .decrypt then showReport s else showSuccess s
  | .failed s =>
    setText loading ""
    refresh
    showError s

def execute [Disk m] (p : Page) : Acting m Unit := do
  setText loading "Loading..."
  refresh
  let w ← get
  match p.fields.find? fun f => (w.text f.name).isEmpty with
  | some f =>
    setText loading ""
    showError (f.label ++ " is required.")
  | none => conclude p (← (start w p : m Outcome))

def click [Disk m] (name : String) : Acting m Unit := do
  match ((← get).widget? name).bind Widget.response with
  | some (.browse field) => browse field
  | some (.reveal entry button) => reveal entry button
  | some (.execute p) => execute p
  | none => return ()

/-! ### Help -/

def timerName (n : Nat) : Setting := .text ("after#" ++ toString n)

def unschedule (p : Page) : Acting m Unit := do
  match ((← get).tips p).timer with
  | none => return ()
  | some n =>
    modify fun w => (w.setTip p fun t => { t with timer := none })
    call (.named p.helpButton.name) { verb := "after_cancel", args := [timerName n] }
    modify fun w => { w with pending := w.pending.filter fun t => t.1 != n }

def schedule (p : Page) : Acting m Unit := do
  unschedule p
  let n := (← get).timers + 1
  call (.named p.helpButton.name) { verb := "after", args := [.whole 500, timerName n] }
  modify fun w =>
    { w.setTip p fun t => { t with timer := some n } with
      timers := n, pending := w.pending ++ [(n, p)] }

def tipPlace (w : Window) : String :=
  "+" ++ toString (w.mark.left + (w.corner.left + 25)) ++
    "+" ++ toString (w.mark.top + (w.corner.top + 20))

def showTip (p : Page) : Acting m Unit := do
  call .theme { verb := "set_theme", args := [.text "dark"] }
  let place := tipPlace (← get)
  new .popup (.named p.helpButton.name) []
  modify fun w => w.setTip p fun t => { t with isShown := true }
  call (.fresh .popup) { verb := "wm_overrideredirect", args := [.truth true] }
  call (.fresh .popup) { verb := "wm_geometry", args := [.text place] }
  new .note (.fresh .popup)
    [("text", .text p.help), ("justify", .text "left"), ("background", .text "#2f2f2f"),
      ("relief", .text "solid"), ("borderwidth", .whole 1), ("wraplength", .whole 180)]
  pack .note [("ipadx", .whole 1)]

def hideTip (p : Page) : Acting m Unit := do
  if ((← get).tips p).isShown then
    modify fun w => w.setTip p fun t => { t with isShown := false }
    call (.fresh .popup) { verb := "destroy" }

def handle (name : String) (e : Event) : Acting m Unit := do
  match ((← get).widget? name).bind Widget.help with
  | none => return ()
  | some p =>
    match e with
    | .enter => schedule p
    | .leave | .press =>
      unschedule p
      hideTip p

def elapse : Acting m Unit := do
  let due := (← get).pending
  modify fun w => { w with pending := [] }
  due.forM fun t => showTip t.2

end Panel

end MaskedTaint
