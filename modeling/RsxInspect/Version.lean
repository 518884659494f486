/-!
# The version of the library
-/

namespace RsxInspect

/-- The version of the library and of the program that is built on it. -/
def version : String := "0.3.0"

end RsxInspect
