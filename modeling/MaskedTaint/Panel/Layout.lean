import MaskedTaint.Panel.Widget

/-! The window: one page for each side and one for opening a report. A page is a column
of fields, each with a label and a button or two, above a button that starts the work. -/

namespace MaskedTaint

namespace Panel

inductive Page
  | client
  | auditor
  | decrypt
deriving DecidableEq, Repr

inductive Input
  | directory
  | file
  | password
  | vulnerability
deriving DecidableEq, Repr

structure Field where
  name : String
  label : String
  input : Input
deriving DecidableEq, Repr

namespace Page

def all : List Page := [client, auditor, decrypt]

def name : Page → String
  | client => "client"
  | auditor => "auditor"
  | decrypt => "decrypt"

def stem : Page → String
  | client => "client_side"
  | auditor => "auditor_side"
  | decrypt => "decrypt"

def title : Page → String
  | client => "Client Side"
  | auditor => "Auditor Side"
  | decrypt => "Decrypt Result"

def heading : Page → String
  | client => "Encrypt your project for later analysis"
  | auditor => "Detect vulnerabilities without revealing them"
  | decrypt => "Decrypt result returned by the auditor side"

def help : Page → String
  | client =>
    "This is the first step the client must take. \n\n" ++
      "Project Directory: The directory of the project you want to analyze. \n\n" ++
      "Secret Password: The password that will be used to encrypt the code. " ++
      "Only the project owner must know this password. \n\n" ++
      "Shared Password: The password that the tool will use to be able to detect " ++
      "vulnerabilities without revealing any code. \n\n" ++
      "Output Directory: The directory where the encrypted project will be saved."
  | auditor =>
    "This is where the vulnerabilities are detected but not revealed. \n\n" ++
      "Shared Password: The password that allows for vulnerability detection without " ++
      "revealing them. \n\n" ++
      "Encrypted Code Path: The path to the encrypted code file. \n\n" ++
      "Vulnerability to detect: The type of vulnerability to detect. \n\n" ++
      "Result Directory: The directory where the encrypted result will be saved."
  | decrypt =>
    "This is the last step the client takes. \n\n" ++
      "Secret Password: The password that was used to encrypt the code. " ++
      "Only the project owner must know this password. \n\n" ++
      "Shared Password: The password that the tool used to detect vulnerabilities " ++
      "without revealing any code. \n\n" ++
      "Result file path: Path containing the encrypted result file."

def fields : Page → List Field
  | client =>
    [⟨"project_dir", "Project Directory", .directory⟩,
      ⟨"client_secret_password", "Secret Password", .password⟩,
      ⟨"client_shared_password", "Shared Password", .password⟩,
      ⟨"output_dir", "Output Directory", .directory⟩]
  | auditor =>
    [⟨"auditor_shared_password", "Shared Password", .password⟩,
      ⟨"encrypted_code_path", "Encrypted Code Path", .file⟩,
      ⟨"vulnerability_to_detect", "Vulnerability to detect", .vulnerability⟩,
      ⟨"result_dir", "Result Directory", .directory⟩]
  | decrypt =>
    [⟨"decrypt_secret_password", "Secret Password", .password⟩,
      ⟨"decrypt_shared_password", "Shared Password", .password⟩,
      ⟨"result_path", "Result file path", .file⟩]

def frame (p : Page) : String := p.stem ++ "_frame"

def tab (p : Page) : String := p.name ++ "_tab"

end Page

/-! ### Widgets -/

def windowName : String := "root"

def notebookName : String := "tabControl"

def loading : String := "loading"

def hidden : Setting := .part (.named "password_hide_image")

def shown : Setting := .part (.named "password_show_image")

def named (name : String) : Setting := .part (.named name)

def image (name file : String) : Widget Page :=
  { name := name, kind := .image, settings := [("file", .text ("assets/" ++ file))] }

def images : List (Widget Page) :=
  [image "password_show_image" "eye_open2.png", image "password_hide_image" "eye_closed2.png",
    image "folder_image" "folder.png", image "question_mark_image" "question_mark.png"]

def window : Widget Page :=
  { name := windowName, kind := .window,
    orders := [{ verb := "title", args := [.text "MSAT"] }, { verb := "mainloop" }] }

def notebook : Widget Page :=
  { name := notebookName, kind := .notebook, args := [named windowName],
    orders := Page.all.map (fun p =>
        { verb := "add", args := [named p.tab], settings := [("text", .text p.title)] }) ++
      [{ verb := "pack", settings := [("expand", .whole 1), ("fill", .text "both")] }] }

def tabs : List (Widget Page) :=
  Page.all.map fun p => { name := p.tab, kind := .frame, args := [named notebookName] }

def cell (row column : Nat) (side : String) : Order :=
  { verb := "grid", settings := [("row", .whole row), ("column", .whole column),
      ("padx", .whole 10), ("pady", .whole 10), ("sticky", .text side)] }

def lowerRow (row : Nat) : Order :=
  { verb := "grid", settings := [("row", .whole row), ("column", .whole 0),
      ("columnspan", .whole 3), ("pady", .whole 20)] }

def around : Settings := [("pady", .whole 20), ("padx", .whole 20)]

namespace Page

/-- The frame is put in its place after each password and once more at the end. -/
def frameWidget (p : Page) : Widget Page :=
  let passwords := p.fields.filter fun f => f.input == .password
  { name := p.frame, kind := .frame, args := [named p.tab],
    settings := [("borderwidth", .whole 10), ("padding", .whole 10)],
    orders := passwords.map (fun _ => { verb := "grid", settings := around }) ++
      [{ verb := "pack", settings := around }] }

def helpButton (p : Page) : Widget Page :=
  { name := p.stem ++ "_tooltip_button", kind := .button, args := [named p.frame],
    settings := [("image", named "question_mark_image")],
    orders := [{ verb := "place", settings := [("in_", named p.frame), ("relx", .share 1),
      ("rely", .share 0), ("anchor", .text "ne")] }],
    help := some p }

def headingLabel (p : Page) : Widget Page :=
  { name := p.stem ++ "_umbrela", kind := .label, args := [named p.frame],
    settings := [("text", .text p.heading)],
    orders := [{ verb := "grid", settings := [("row", .whole 0), ("column", .whole 0),
      ("columnspan", .whole 3), ("padx", .whole 10), ("pady", .whole 15)] }] }

def fieldLabel (p : Page) (f : Field) (row : Nat) : Widget Page :=
  { name := f.name ++ "_label", kind := .label, args := [named p.frame],
    settings := [("text", .text f.label)],
    orders := [cell row 0 (if f.input == .vulnerability then "E" else "W")] }

def fieldEntry (p : Page) (f : Field) (row : Nat) : Widget Page :=
  let stars := if f.input == .password then [("show", Setting.text "*")] else []
  { name := f.name ++ "_entry", kind := .entry, args := [named p.frame],
    settings := stars ++ [("textvariable", named f.name)],
    orders := [cell row 1 "W"] }

def browseButton (p : Page) (f : Field) (row : Nat) : Widget Page :=
  { name := f.name ++ "_browse_button", kind := .button, args := [named p.frame],
    settings := [("image", named "folder_image"), ("command", .action)],
    orders := [cell row 2 "W"],
    response := some (.browse f.name) }

def revealButton (p : Page) (f : Field) (row : Nat) : Widget Page :=
  let name := f.name ++ "_show_button"
  { name := name, kind := .button, args := [named p.frame],
    settings := [("image", hidden), ("command", .action)],
    orders := [cell row 2 "W"],
    response := some (.reveal (f.name ++ "_entry") name) }

def choice (p : Page) (f : Field) (row column : Nat) (name value side : String) : Widget Page :=
  { name := name, kind := .choice, args := [named p.frame],
    settings := [("text", .text value), ("variable", named f.name), ("value", .text value)],
    orders := [cell row column side] }

def fieldWidgets (p : Page) (f : Field) (row : Nat) : List (Widget Page) :=
  p.fieldLabel f row ::
    match f.input with
    | .directory | .file => [p.fieldEntry f row, p.browseButton f row]
    | .password => [p.fieldEntry f row, p.revealButton f row]
    | .vulnerability =>
      [p.choice f row 1 "xss_radio_button" "XSS" "",
        p.choice f row 2 "sqli_radio_button" "SQLI" "W"]

def executeButton (p : Page) : Widget Page :=
  { name := p.name ++ "_execute_button", kind := .button, args := [named p.frame],
    settings := [("text", .text "Execute"), ("command", .action)],
    orders := [lowerRow 5],
    response := some (.execute p) }

def loadingLabel (p : Page) : Widget Page :=
  { name := p.stem ++ "_loading", kind := .label, args := [named p.frame],
    settings := [("textvariable", named loading)],
    orders := if p = .decrypt then [] else [lowerRow 6] }

def widgets (p : Page) : List (Widget Page) :=
  [p.frameWidget, p.helpButton, p.headingLabel] ++
    (p.fields.zipIdx.map fun (f, i) => p.fieldWidgets f (i + 1)).flatten ++
    [p.executeButton, p.loadingLabel]

end Page

def allWidgets : List (Widget Page) :=
  [window] ++ images ++ [notebook] ++ tabs ++ (Page.all.map Page.widgets).flatten

def variableNames : List String :=
  (loading :: (Page.all.map fun p => p.fields.map Field.name).flatten).mergeSort fun a b => a ≤ b

end Panel

end MaskedTaint
