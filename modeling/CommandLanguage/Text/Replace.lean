import CommandLanguage.Text.Basic

/-!
# Replacing parts of a text

Occurrences of a pattern are found from left to right and do not overlap.
-/

set_option autoImplicit false

namespace CommandLanguage.Text

/-- Writes `replacement` for every occurrence of a pattern that is not empty. -/
def replaceAll (text pattern replacement : Text) : Text :=
  match text with
  | [] => []
  | u :: rest =>
    if pattern.isPrefixOf (u :: rest) then
      replacement ++ replaceAll (rest.drop (pattern.length - 1)) pattern replacement
    else u :: replaceAll rest pattern replacement
termination_by text.length
decreasing_by
  all_goals simp only [List.length_cons, List.length_drop]
  all_goals omega

/-- Puts one text before and one after each line break; `\r\n` is one line break. -/
def encloseLineBreaks (text before after : Text) : Text :=
  match text with
  | [] => []
  | [u] => if u = lineFeed then before ++ u :: after else [u]
  | u :: v :: rest =>
    if u = lineFeed then before ++ u :: (after ++ encloseLineBreaks (v :: rest) before after)
    else if u = unit '\r' ∧ v = lineFeed then
      before ++ u :: v :: (after ++ encloseLineBreaks rest before after)
    else u :: encloseLineBreaks (v :: rest) before after

end CommandLanguage.Text
