import CommandLanguage.Text.Replace

/-!
# Themes

A theme says how the parts of a help text are marked. The plain theme marks nothing, a marker
theme puts fixed markers around each part, and the terminal theme uses the colour and weight
codes of terminals.

A terminal keeps only one colour and one weight. Text that already holds codes is therefore
mended: behind each code that ends a style the style begins anew, and no style reaches across a
line break.
-/

set_option autoImplicit false

namespace CommandLanguage

/-- How each part of a help text is marked. -/
structure Theme where
  title : Text → Text
  heading : Text → Text
  command : Text → Text
  flag : Text → Text
  argument : Text → Text
  dim : Text → Text
  prompt : Text → Text

namespace Theme

def plain : Theme := ⟨id, id, id, id, id, id, id⟩

/-- A pair of texts to put around a part. -/
structure Marker where
  opening : Text
  closing : Text
  deriving DecidableEq

def Marker.wrap (marker : Marker) (text : Text) : Text := marker.opening ++ text ++ marker.closing

/-- Each part stands between markers of its own. -/
def marked (title heading command flag argument dim prompt : Marker) : Theme :=
  ⟨title.wrap, heading.wrap, command.wrap, flag.wrap, argument.wrap, dim.wrap, prompt.wrap⟩

/-- The character that introduces a terminal code. -/
def escapeUnit : CodeUnit := 0x1B

def terminalCode (n : Nat) : Text := escapeUnit :: "[" ++ Text.ofNat n ++ "m"

/-- The codes that begin and end a style. -/
def terminalMarker (opening closing : Nat) : Marker := ⟨terminalCode opening, terminalCode closing⟩

def bold : Marker := terminalMarker 1 22

def faint : Marker := terminalMarker 2 22

def cyan : Marker := terminalMarker 36 39

def yellow : Marker := terminalMarker 33 39

def green : Marker := terminalMarker 32 39

/-- Begins each style anew behind every code in the text that ends it. -/
def reopen (styles : List Marker) (text : Text) : Text :=
  styles.foldr (fun style t => t.replaceAll style.closing (style.closing ++ style.opening)) text

/-- Marks a text with styles, the outermost first. An empty text stays empty. -/
def styled (styles : List Marker) (text : Text) : Text :=
  if text = [] then []
  else
    let opening := styles.flatMap (·.opening)
    let closing := styles.reverse.flatMap (·.closing)
    let mended := if escapeUnit ∈ text then reopen styles text else text
    opening ++ mended.encloseLineBreaks closing opening ++ closing

def terminal : Theme where
  title := styled [cyan, bold]
  heading := styled [bold]
  command := styled [cyan]
  flag := styled [cyan]
  argument := styled [yellow]
  dim := styled [faint]
  prompt := styled [green]

end Theme

end CommandLanguage
