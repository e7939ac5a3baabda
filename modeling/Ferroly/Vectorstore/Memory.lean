import Ferroly.Codec.Value
import Ferroly.Lib.FloatOrder
import Ferroly.Lib.Hash

/-!
# The in-memory vector store

Every call takes the lock of the store for as long as it runs, so calls come one after the other. Of the similarity score only its type
is used: it is a parameter, any function into floats.
-/

namespace Ferroly.Vectorstore

/-- A dense embedding vector. -/
abbrev Vector := List F32

inductive Metric where
  | cosine
  | dot
  | euclidean

/-- A stored document. -/
structure Doc where
  id : Str
  vector : Vector
  metadata : Value

/-- A nearest-neighbor query. -/
structure Query where
  vector : Vector
  topK : Nat
  metric : Metric

structure Hit where
  id : Str
  score : F32
  doc : Doc

inductive VectorStoreError where
  | dimMismatch (expected got : Nat)

structure Inner where
  docs : HashMap Str Doc
  /-- The dimension of the collection, set by the first vector that is checked. -/
  dim : Option Nat

namespace Inner

/-- Check the vectors of a batch; the first one sets the dimension if there is none. -/
def checkDims (dim : Option Nat) : List Doc → Except VectorStoreError Unit × Option Nat
  | [] => (.ok (), dim)
  | doc :: docs =>
    let expected := dim.getD doc.vector.length
    if doc.vector.length ≠ expected then (.error (.dimMismatch expected doc.vector.length), some expected)
    else checkDims (some expected) docs

def upsert (s : Inner) (docs : List Doc) : Except VectorStoreError Unit × Inner :=
  match checkDims s.dim docs with
  | (.error e, dim) => (.error e, { s with dim })
  | (.ok _, dim) => (.ok (), ⟨docs.foldl (fun m doc => m.insert doc.id doc) s.docs, dim⟩)

def delete (s : Inner) (ids : List Str) : Inner := { s with docs := ids.foldl (fun m id => m.erase id) s.docs }

/-- The order of hits: descending by score, those that are no number last, and ties by id. Ids compare as their bytes do, which is how
their characters do. -/
def compareHits (a b : Hit) : Ordering :=
  let byScore :=
    match b.score.partialCmp a.score with
    | some ord => ord
    | none =>
      match a.score.isNan, b.score.isNan with
      | true, false => .gt
      | false, true => .lt
      | _, _ => .eq
  byScore.then (compareOfLessAndEq a.id b.id)

section Score

variable (score : Metric → Vector → Vector → F32)

/-- All documents as hits, in the order in which the map is iterated. -/
def hits (s : Inner) (query : Query) : List Hit :=
  s.docs.entries.map (fun e => ⟨e.2.id, score query.metric query.vector e.2.vector, e.2⟩)

def search (s : Inner) (query : Query) : Except VectorStoreError (List Hit) :=
  match s.dim.filter (fun dim => query.vector.length != dim) with
  | some dim => .error (.dimMismatch dim query.vector.length)
  | none => .ok (((s.hits score query).mergeSort (fun a b => (compareHits a b).isLE)).take query.topK)

end Score

end Inner

/-! ## Calls -/

inductive Call where
  | upsert (docs : List Doc)
  | search (query : Query)
  | delete (ids : List Str)

/-- What a call returns: the hits, if it is a search. -/
abbrev Answer := Except VectorStoreError (List Hit)

variable (score : Metric → Vector → Vector → F32)

def Inner.call (s : Inner) : Call → Answer × Inner
  | .upsert docs => ((s.upsert docs).1.map (fun _ => []), (s.upsert docs).2)
  | .search query => (s.search score query, s)
  | .delete ids => (.ok [], s.delete ids)

/-- The answers to calls one after the other. -/
def Inner.answers (s : Inner) : List Call → List Answer
  | [] => []
  | c :: calls => (s.call score c).1 :: (s.call score c).2.answers calls

/-- A new store after calls. -/
def after (calls : List Call) : Inner := calls.foldl (fun s c => (s.call score c).2) ⟨∅, none⟩

end Ferroly.Vectorstore
