import RowFlow.FileTree
import RowFlow.Stored.Definition

/-
Definitions in files.
-/
namespace RowFlow
namespace Definition

def save (d : Definition) (t : FileTree) (path : String) : FileTree × Except Fault Unit :=
  match t.save (FileTree.names path) d.toText.toUTF8.data.toList with
  | (t, .ok ()) => (t, .ok ())
  | (t, .error f) => (t, .error (.file f))

def load (t : FileTree) (path : String) : Except Fault Definition :=
  match t.readText (FileTree.names path) with
  | .error f => .error (.file f)
  | .ok text => ofText text

end Definition
end RowFlow
