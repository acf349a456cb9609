/-!
Things listed under names, in the order of the names.
-/

namespace Viewlet

/-- Sorts entries by name, character by character. -/
def sortByName {α : Type} (entries : List (String × α)) : List (String × α) :=
  entries.mergeSort fun first second => !(decide (second.1 < first.1))

end Viewlet
