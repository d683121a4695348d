/-!
# Release

The version of this program and the line that announces it.
-/

set_option autoImplicit false

namespace EntryPoints.Release

def version : String := "0.2.0"

def banner : String := "exportmap " ++ version

end EntryPoints.Release
