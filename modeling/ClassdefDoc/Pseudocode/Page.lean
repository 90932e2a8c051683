import ClassdefDoc.Text.Basic

/-!
# Pages

A page is the text written so far. It grows by whole lines or by pieces that may end inside a line.
-/

namespace ClassdefDoc.Page

/-- A whole line; the text may hold line ends of its own. -/
def line (t : Text) : Text := t ++ ['\n']

def blank : Text := line []

/-- The page with its last line ended. -/
def finishLine (page : Text) : Text :=
  if page.getLast?.all (· == '\n') then page else line page

/-- The number of ended lines. -/
def lineCount (page : Text) : Nat := page.count '\n'

end ClassdefDoc.Page
