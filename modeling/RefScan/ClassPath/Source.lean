import RefScan.ClassPath

/-!
# Class paths as sources
-/

namespace RefScan.ClassPath

def source (cp : ClassPath) (tree : FileTree) : Source := ⟨cp.load tree, cp.resolve tree⟩

end RefScan.ClassPath
