import FirebaseLogin.Core.Mutation
import FirebaseLogin.Core.ValueOrder

/-!
Queries: query.cc, order_by.cc and field_filter.cc. The
comparator fails on a document without a field that the query orders by; the
documents that match have all of them, so results carry the match with them and
the comparator is a function on results.
-/

namespace FirebaseLogin.Core

open SortedEntries

inductive Direction where
  | ascending
  | descending
  deriving DecidableEq

def Direction.applyTo : Direction → Ordering → Ordering
  | .ascending, o => o
  | .descending, o => o.swap

def keyFieldPath : FieldPath := ["__name__"]

structure OrderBy where
  field : FieldPath
  direction : Direction
  deriving DecidableEq

/-- The operators that compare; the ones on arrays are left out. -/
inductive Operator where
  | lessThan
  | lessThanOrEqual
  | equal
  | notEqual
  | greaterThan
  | greaterThanOrEqual
  deriving DecidableEq

structure FieldFilter where
  field : FieldPath
  op : Operator
  value : FieldValue

inductive LimitType where
  | none
  | first
  | last
  deriving DecidableEq

structure Query where
  path : ResourcePath
  collectionGroup : Option String
  filters : List FieldFilter
  explicitOrderBys : List OrderBy
  limitType : LimitType
  limit : Nat

def MutableDocument.field (doc : MutableDocument) (path : FieldPath) : Option FieldValue :=
  doc.value.get path

namespace FieldFilter

def isInequality (filter : FieldFilter) : Bool := filter.op != .equal

def matchesComparison (filter : FieldFilter) (comparison : Ordering) : Bool :=
  match filter.op with
  | .lessThan => comparison == .lt
  | .lessThanOrEqual => comparison == .lt || comparison == .eq
  | .equal => comparison == .eq
  | .greaterThanOrEqual => comparison == .gt || comparison == .eq
  | .greaterThan => comparison == .gt
  | .notEqual => comparison != .eq

def matchesDocument (filter : FieldFilter) (doc : MutableDocument) : Bool :=
  match doc.field filter.field with
  | none => false
  | some lhs =>
      if filter.op = .notEqual then filter.matchesComparison (lhs.compareTo filter.value)
      else lhs.typeOrder == filter.value.typeOrder &&
        filter.matchesComparison (lhs.compareTo filter.value)

end FieldFilter

/-- A document without the field is a failed assertion. -/
def OrderBy.compare (orderBy : OrderBy) (lhs rhs : MutableDocument) : Option Ordering :=
  if orderBy.field = keyFieldPath then
    some (orderBy.direction.applyTo (Ord.compare lhs.key.path rhs.key.path))
  else
    (lhs.field orderBy.field).bind fun value1 =>
      (rhs.field orderBy.field).map fun value2 =>
        orderBy.direction.applyTo (value1.compareTo value2)

def compareByAll : List OrderBy → MutableDocument → MutableDocument → Option Ordering
  | [], _, _ => some .eq
  | orderBy :: orderBys, doc1, doc2 =>
      (orderBy.compare doc1 doc2).bind fun comp =>
        if comp = .eq then compareByAll orderBys doc1 doc2 else some comp

namespace Query

/-- The fields of a set, in the order of the set. -/
def inequalityFilterFields (q : Query) : List FieldPath :=
  (((q.filters.filter FieldFilter.isInequality).map FieldFilter.field).dedup).insertionSort (· ≤ ·)

def lastDirection (q : Query) : Direction :=
  (q.explicitOrderBys.getLast?.map OrderBy.direction).getD .ascending

def normalizedOrderBys (q : Query) : List OrderBy :=
  q.explicitOrderBys ++
    ((q.inequalityFilterFields.filter fun field =>
      field ∉ q.explicitOrderBys.map OrderBy.field && field != keyFieldPath).map fun field =>
        { field, direction := q.lastDirection }) ++
    if keyFieldPath ∈ q.explicitOrderBys.map OrderBy.field then []
    else [{ field := keyFieldPath, direction := q.lastDirection }]

def matchesPathAndCollectionGroup (q : Query) (doc : MutableDocument) : Bool :=
  match q.collectionGroup with
  | some group =>
      2 ≤ doc.key.path.length && doc.key.path.dropLast.getLast? == some group &&
        q.path.isPrefixOf doc.key.path
  | none =>
      if q.path.length % 2 = 0 then q.path == doc.key.path
      else isImmediateParentOf q.path doc.key.path

def matchesOrderBy (q : Query) (doc : MutableDocument) : Bool :=
  q.normalizedOrderBys.all fun orderBy =>
    orderBy.field == keyFieldPath || (doc.field orderBy.field).isSome

def matchesFilters (q : Query) (doc : MutableDocument) : Bool :=
  q.filters.all fun filter => filter.matchesDocument doc

/-- Without bounds. -/
def matchesDocument (q : Query) (doc : MutableDocument) : Bool :=
  doc.isFoundDocument && q.matchesPathAndCollectionGroup doc && q.matchesOrderBy doc &&
    q.matchesFilters doc

theorem exists_key_ordering (q : Query) :
    ∃ orderBy ∈ q.normalizedOrderBys, orderBy.field = keyFieldPath := by
  by_cases h : keyFieldPath ∈ q.explicitOrderBys.map OrderBy.field
  · obtain ⟨orderBy, hmem, hfield⟩ := List.mem_map.mp h
    exact ⟨orderBy, by simp [normalizedOrderBys, hmem], hfield⟩
  · exact ⟨{ field := keyFieldPath, direction := q.lastDirection },
      by simp [normalizedOrderBys, h], rfl⟩

/-- A document that the query returns. -/
def Result (q : Query) := { doc : MutableDocument // q.matchesDocument doc = true }

namespace Result

variable {q : Query}

def key (doc : q.Result) : DocumentReference := doc.1.key

def value (doc : q.Result) : ObjectValue := doc.1.value

def hasLocalMutations (doc : q.Result) : Bool := doc.1.hasLocalMutations

def hasCommittedMutations (doc : q.Result) : Bool := doc.1.hasCommittedMutations

end Result

end Query

section Comparator

/-- An ordering as a function of any two documents; a missing field comes first. -/
def OrderBy.total (orderBy : OrderBy) (lhs rhs : MutableDocument) : Ordering :=
  orderBy.direction.applyTo
    (if orderBy.field = keyFieldPath then Ord.compare lhs.key.path rhs.key.path
    else Ord.compare ((lhs.field orderBy.field).map FieldValue.key)
      ((rhs.field orderBy.field).map FieldValue.key))

def totalByAll : List OrderBy → MutableDocument → MutableDocument → Ordering
  | [], _, _ => .eq
  | orderBy :: orderBys, lhs, rhs => (orderBy.total lhs rhs).then (totalByAll orderBys lhs rhs)

theorem OrderBy.compare_eq_total {orderBy : OrderBy} {lhs rhs : MutableDocument}
    (hl : orderBy.field = keyFieldPath ∨ (lhs.field orderBy.field).isSome)
    (hr : orderBy.field = keyFieldPath ∨ (rhs.field orderBy.field).isSome) :
    orderBy.compare lhs rhs = some (orderBy.total lhs rhs) := by
  unfold OrderBy.compare OrderBy.total
  by_cases h : orderBy.field = keyFieldPath
  · rw [if_pos h, if_pos h]
  · obtain ⟨v, hv⟩ := Option.isSome_iff_exists.mp (hl.resolve_left h)
    obtain ⟨w, hw⟩ := Option.isSome_iff_exists.mp (hr.resolve_left h)
    rw [if_neg h, if_neg h, hv, hw, Option.bind_some, Option.map_some, Option.map_some,
      Option.map_some, compareTo_eq]
    rfl

theorem compareByAll_eq_total {orderBys : List OrderBy} {lhs rhs : MutableDocument}
    (hl : ∀ o ∈ orderBys, o.field = keyFieldPath ∨ (lhs.field o.field).isSome)
    (hr : ∀ o ∈ orderBys, o.field = keyFieldPath ∨ (rhs.field o.field).isSome) :
    compareByAll orderBys lhs rhs = some (totalByAll orderBys lhs rhs) := by
  induction orderBys with
  | nil => rfl
  | cons o orderBys ih =>
      rw [compareByAll, OrderBy.compare_eq_total (hl o List.mem_cons_self)
        (hr o List.mem_cons_self), Option.bind_some, totalByAll,
        ih (fun p hp => hl p (List.mem_cons_of_mem o hp))
          fun p hp => hr p (List.mem_cons_of_mem o hp)]
      cases o.total lhs rhs <;> rfl

theorem OrderBy.total_transCmp (orderBy : OrderBy) : Std.TransCmp orderBy.total := by
  have hbase : Std.TransCmp fun lhs rhs : MutableDocument =>
      if orderBy.field = keyFieldPath then Ord.compare lhs.key.path rhs.key.path
      else Ord.compare ((lhs.field orderBy.field).map FieldValue.key)
        ((rhs.field orderBy.field).map FieldValue.key) := by
    split
    · exact { eq_swap := Std.OrientedOrd.eq_swap, isLE_trans := Std.TransOrd.isLE_trans }
    · exact { eq_swap := Std.OrientedOrd.eq_swap, isLE_trans := Std.TransOrd.isLE_trans }
  unfold OrderBy.total
  cases orderBy.direction with
  | ascending => exact hbase
  | descending =>
      refine { eq_swap := ?_, isLE_trans := ?_ }
      · intro lhs rhs
        exact congrArg Ordering.swap hbase.eq_swap
      · intro lhs middle rhs h h'
        simp only [Direction.applyTo] at *
        rw [← hbase.eq_swap] at *
        exact hbase.isLE_trans h' h

theorem totalByAll_transCmp (orderBys : List OrderBy) : Std.TransCmp (totalByAll orderBys) := by
  induction orderBys with
  | nil => exact { eq_swap := rfl, isLE_trans := fun _ _ => rfl }
  | cons o orderBys ih =>
      have ho := o.total_transCmp
      exact inferInstanceAs (Std.TransCmp (compareLex o.total (totalByAll orderBys)))

theorem totalByAll_eq_key {orderBys : List OrderBy} {lhs rhs : MutableDocument}
    (hkey : ∃ o ∈ orderBys, o.field = keyFieldPath) (h : totalByAll orderBys lhs rhs = .eq) :
    lhs.key = rhs.key := by
  induction orderBys with
  | nil =>
      obtain ⟨o, ho, -⟩ := hkey
      cases ho
  | cons o orderBys ih =>
      obtain ⟨hhead, htail⟩ := Ordering.then_eq_eq.mp h
      obtain ⟨p, hp, hfield⟩ := hkey
      obtain rfl | hp := List.mem_cons.mp hp
      · refine DocumentReference.ext ?_
        unfold OrderBy.total at hhead
        rw [if_pos hfield] at hhead
        cases hd : p.direction with
        | ascending => simpa [hd, Direction.applyTo] using hhead
        | descending => simpa [hd, Direction.applyTo] using hhead
      · exact ih ⟨p, hp, hfield⟩ htail

namespace Query

variable {q : Query}

theorem Result.field_isSome (doc : q.Result) :
    ∀ o ∈ q.normalizedOrderBys, o.field = keyFieldPath ∨ (doc.1.field o.field).isSome := by
  intro o ho
  have hmatches := doc.2
  simp only [matchesDocument, matchesOrderBy, Bool.and_eq_true, List.all_eq_true,
    Bool.or_eq_true, beq_iff_eq] at hmatches
  exact hmatches.1.2 o ho

/-- On results the comparator does not fail. -/
theorem isSome_compareByAll (lhs rhs : q.Result) :
    (compareByAll q.normalizedOrderBys lhs.1 rhs.1).isSome := by
  rw [compareByAll_eq_total lhs.field_isSome rhs.field_isSome]
  rfl

def comparator (q : Query) (lhs rhs : q.Result) : Ordering :=
  (compareByAll q.normalizedOrderBys lhs.1 rhs.1).get (isSome_compareByAll lhs rhs)

theorem comparator_eq (lhs rhs : q.Result) :
    q.comparator lhs rhs = totalByAll q.normalizedOrderBys lhs.1 rhs.1 := by
  simp only [comparator, compareByAll_eq_total lhs.field_isSome rhs.field_isSome, Option.get_some]

instance : Std.TransCmp q.comparator where
  eq_swap {lhs rhs} := by
    rw [comparator_eq, comparator_eq]
    exact (totalByAll_transCmp q.normalizedOrderBys).eq_swap
  isLE_trans {lhs middle rhs} h h' := by
    rw [comparator_eq] at *
    exact (totalByAll_transCmp q.normalizedOrderBys).isLE_trans h h'

theorem key_eq_of_comparator {lhs rhs : q.Result} (h : q.comparator lhs rhs = .eq) :
    lhs.key = rhs.key :=
  totalByAll_eq_key q.exists_key_ordering (comparator_eq lhs rhs ▸ h)

/-- The comparator of a query does not fail on its results; it is a total preorder
and tells documents of different keys apart. -/
theorem comparator_strict :
    (∀ lhs rhs : q.Result, (compareByAll q.normalizedOrderBys lhs.1 rhs.1).isSome) ∧
      (∀ lhs rhs : q.Result, q.comparator lhs rhs = (q.comparator rhs lhs).swap) ∧
      (∀ lhs middle rhs : q.Result, q.comparator lhs middle = .lt →
        q.comparator middle rhs = .lt → q.comparator lhs rhs = .lt) ∧
      ∀ lhs rhs : q.Result, q.comparator lhs rhs = .eq → lhs.key = rhs.key :=
  ⟨isSome_compareByAll, fun _ _ => Std.OrientedCmp.eq_swap, fun _ _ _ => Std.TransCmp.lt_trans,
    fun _ _ => key_eq_of_comparator⟩

end Query

end Comparator

end FirebaseLogin.Core
