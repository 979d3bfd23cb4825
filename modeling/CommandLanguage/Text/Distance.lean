import CommandLanguage.Text.Basic

/-!
# Edit distance

The number of single changes that turn one text into another: a code unit added, dropped or
replaced, or two neighbours exchanged that are not changed otherwise.
-/

set_option autoImplicit false

namespace CommandLanguage.Text

def distance : Text → Text → Nat
  | [], b => b.length
  | a, [] => a.length
  | u :: a, v :: b =>
    let changed := min (min (distance a (v :: b)) (distance (u :: a) b) + 1)
      (distance a b + if u = v then 0 else 1)
    match a, b with
    | u' :: a', v' :: b' =>
      if u = v' ∧ u' = v then min changed (distance a' b' + 1) else changed
    | _, _ => changed
termination_by a b => a.length + b.length
decreasing_by
  all_goals simp only [List.length_cons]
  all_goals omega

end CommandLanguage.Text
