/-! The version of the library. -/

namespace Lineage

def libraryVersion : String := "0.1.0"

end Lineage
