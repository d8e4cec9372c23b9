/-!
# Lists of names in order

Names are compared character by character, which is the order of their UTF-8 bytes, and lists of
names name by name.
-/

namespace PathCensus.Text

/-- The first list comes before the second, or both are the same. -/
def namesLe : List String → List String → Bool
  | [], _ => true
  | _ :: _, [] => false
  | a :: as, b :: bs => if a = b then namesLe as bs else decide (a < b)

end PathCensus.Text
