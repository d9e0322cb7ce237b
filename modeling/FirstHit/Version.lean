/-!
# The version of the library
-/

namespace FirstHit

/-- The version that the library reports of itself. -/
def version : String := "0.1.0"

end FirstHit
