import GraphBenchmark.Foundations.Bytes
import Mathlib.Logic.Function.Basic

/-! # `degree.py` (`src/reorder/degree.py`)

Python's integers are natural numbers, a `dict` keeps its keys in the order of their insertion, and `mapping.get` is
a function to `Option`. -/
namespace GraphBenchmark
open Bytes
set_option autoImplicit false

/-- The arguments that are looked at, `-m`, `-a` and `-i`. -/
structure DegreeArgs where
  maintain : Bool
  ascending : Bool
  indegree : Bool
deriving DecidableEq, Repr

/-! ## The input -/

/-- `in_mm.read(8)` at byte `8*i`, as `src` and `dst`. -/
def recordAt (byteorder : ByteOrder) (file : List UInt8) (i : ℕ) : ℕ × ℕ :=
  let edge := (file.drop (8 * i)).take 8
  (fromBytes byteorder (edge.take 4), fromBytes byteorder (edge.drop 4))

/-- `edge_list`. -/
def readRecords (byteorder : ByteOrder) (file : List UInt8) : List (ℕ × ℕ) :=
  (List.range ((file.length + 7) / 8)).map (recordAt byteorder file)

/-- `edges_by_node[k].append(v)` on a `defaultdict(list)`. -/
def addEdge : List (ℕ × List ℕ) → ℕ → ℕ → List (ℕ × List ℕ)
  | [], k, v => [(k, [v])]
  | (k', vs) :: rest, k, v => if k' = k then (k', vs ++ [v]) :: rest else (k', vs) :: addEdge rest k v

def groupEdge (args : DegreeArgs) (d : List (ℕ × List ℕ)) (e : ℕ × ℕ) : List (ℕ × List ℕ) :=
  if args.indegree then addEdge d e.2 e.1 else addEdge d e.1 e.2

def edgesByNode (args : DegreeArgs) (edgeList : List (ℕ × ℕ)) : List (ℕ × List ℕ) := edgeList.foldl (groupEdge args) []

/-- `ordered.sort(key=lambda x: len(x[1]), reverse=...)`, which is stable in both directions. -/
def sortByLen (args : DegreeArgs) (items : List (ℕ × List ℕ)) : List (ℕ × List ℕ) :=
  items.mergeSort fun x y =>
    if args.ascending then decide (x.2.length ≤ y.2.length) else decide (y.2.length ≤ x.2.length)

/-! ## The ids -/

/-- `mapping`, `count` and `sorted_output`. -/
structure DegreeState where
  mapping : ℕ → Option ℕ
  count : ℕ
  sortedOutput : List (Option ℕ × Option ℕ)

/-- The first new id; `0` is reserved for vertex `0` with `-m`. -/
def firstId (args : DegreeArgs) : ℕ := if args.maintain then 1 else 0

def DegreeState.init (args : DegreeArgs) : DegreeState := ⟨fun _ => none, firstId args, []⟩

/-- One iteration of `for vertex, _ in ordered`. -/
def numberKeyed (args : DegreeArgs) (s : DegreeState) (vertex : ℕ) : DegreeState :=
  if args.maintain ∧ vertex = 0 then { s with mapping := Function.update s.mapping vertex (some vertex) }
  else { s with mapping := Function.update s.mapping vertex (some s.count), count := s.count + 1 }

/-- `if mapping.get(v) is None`. -/
def numberNew (s : DegreeState) (v : ℕ) : DegreeState :=
  match s.mapping v with
  | none => { s with mapping := Function.update s.mapping v (some s.count), count := s.count + 1 }
  | some _ => s

/-- One iteration of `for edge in edge_list`. -/
def emitEdge (s : DegreeState) (edge : ℕ × ℕ) : DegreeState :=
  let s := numberNew (numberNew s edge.1) edge.2
  { s with sortedOutput := s.sortedOutput ++ [(s.mapping edge.1, s.mapping edge.2)] }

/-- The two loops. -/
def numberEdges (args : DegreeArgs) (edgeList : List (ℕ × ℕ)) : DegreeState :=
  let ordered := sortByLen args (edgesByNode args edgeList)
  edgeList.foldl emitEdge ((ordered.map Prod.fst).foldl (numberKeyed args) (DegreeState.init args))

/-! ## The output -/

/-- `struct.pack('@II', src, dst)`; `none` is `struct.error`. -/
def packRecord (byteorder : ByteOrder) : Option ℕ × Option ℕ → Option (List UInt8)
  | (some src, some dst) =>
    if src < 2 ^ 32 ∧ dst < 2 ^ 32 then some (toBytes byteorder 4 src ++ toBytes byteorder 4 dst) else none
  | _ => none

def writeRecords (byteorder : ByteOrder) (output : List (Option ℕ × Option ℕ)) : Option (List UInt8) :=
  (output.mapM (packRecord byteorder)).map List.flatten

inductive PyError
  | valueError
  | structError
deriving DecidableEq, Repr

/-- What a run that ends normally leaves: `mapping` and the output file. -/
structure DegreeResult where
  mapping : ℕ → Option ℕ
  output : List UInt8

/-- `degree.py` on a file; `mmap.mmap(fileno, 0)` refuses an empty one. -/
def degreePy (byteorder : ByteOrder) (args : DegreeArgs) (file : List UInt8) : Except PyError DegreeResult :=
  if file = [] then .error .valueError
  else
    let s := numberEdges args (readRecords byteorder file)
    match writeRecords byteorder s.sortedOutput with
    | none => .error .structError
    | some output => .ok ⟨s.mapping, output⟩

end GraphBenchmark
