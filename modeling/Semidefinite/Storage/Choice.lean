import Semidefinite.Storage.Dense
import Semidefinite.Storage.RowLists
import Semidefinite.Storage.Triplets

/-!
# The storage of a backend

`Backend.Store b` is the type of matrices that the backend `b` keeps, so that
one definition over any storage serves a backend chosen at run time.
-/

namespace Semidefinite.Backend

def Store : Backend → Type → Type
  | dense => Grid
  | rowLists => RowLists
  | triplets => Triplets

instance storage : (b : Backend) → Storage b.Store
  | dense => inferInstanceAs (Storage Grid)
  | rowLists => inferInstanceAs (Storage RowLists)
  | triplets => inferInstanceAs (Storage Triplets)

end Semidefinite.Backend
