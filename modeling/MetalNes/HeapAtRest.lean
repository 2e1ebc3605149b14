import MetalNes.HeapRuns
import Mathlib.Algebra.Order.BigOperators.Group.Finset
import Mathlib.Order.Interval.Finset.Nat

namespace MetalNes.Liballoc

open ByteWords
open PageChunks (NULL)
open PageRuns (Block)
open Segments Tilings

variable {σ : Type} {hooks : Hooks σ} {Owned : σ → Bytes → List Block → Prop} {h : Heap σ}
variable {runs : List PageRun} {chain : Int → List U32} {r : PageRun}

end MetalNes.Liballoc
