import FirebaseLogin.Core.ObjectValue
import FirebaseLogin.Library.Binary64
import FirebaseLogin.Library.OrderedTree
import Mathlib

/-!
The order of values, value_util.cc and comparison.cc: first by type, then within
a type. Numbers are compared across integers and doubles without rounding, a NaN
comes before all of them. The maps of an object value are sorted, so that sorting
the clones of CompareMaps changes nothing and is left out.
-/

namespace FirebaseLogin.Core

open SortedEntries OrderedTree

section Numbers

open Binary64

/-- The operator < on doubles, with a NaN as none. -/
def doubleLess : Option Int → Option Int → Bool
  | some left, some right => left < right
  | _, _ => false

def compareDouble (left right : Option Int) : Ordering :=
  if doubleLess left right then .lt
  else if doubleLess right left then .gt
  else if left.isSome ∧ left = right then .eq
  else if right.isSome then .lt
  else if left.isSome then .gt
  else .eq

def compareMixedNumber (double : Option Int) (int64 : Int) : Ordering :=
  if doubleLess double (some (-2 ^ 63 * unitsPerOne)) then .lt
  else if double.any fun u => 2 ^ 63 * unitsPerOne ≤ u then .gt
  else
    match double with
    | none => .lt
    | some u =>
        (compare (truncate u) int64).then (compareDouble double (some (ofInt int64 * unitsPerOne)))

/-- The field integer_value is an int64_t. -/
def integerValue (i : Int) : Int := i.bmod (2 ^ 64)

def compareNumbers : Value → Value → Ordering
  | .double left, .double right => compareDouble (decode left) (decode right)
  | .double left, .integer right => compareMixedNumber (decode left) (integerValue right)
  | .integer left, .integer right => compare (integerValue left) (integerValue right)
  | .integer left, .double right =>
      (compareMixedNumber (decode right) (integerValue left)).swap
  | _, _ => .eq

theorem compareDouble_eq (left right : Option Int) :
    compareDouble left right = compare left right := by
  cases left with
  | none => cases right <;> rfl
  | some l =>
      cases right with
      | none => rfl
      | some r =>
          have hcompare : compare (some l) (some r) = compare l r := rfl
          rw [hcompare, compareDouble]
          obtain h | rfl | h := lt_trichotomy l r
          · simp [doubleLess, h, compare_lt_iff_lt.mpr h]
          · simp [doubleLess]
          · simp [doubleLess, h, h.le, compare_gt_iff_gt.mpr h]

theorem integerValue_bounds (i : Int) : -2 ^ 63 ≤ integerValue i ∧ integerValue i < 2 ^ 63 := by
  unfold integerValue
  exact ⟨Int.le_bmod (by norm_num), Int.bmod_lt (by norm_num)⟩

/-- The mixed comparison is exact, also where a double does not hold the integer. -/
theorem compareMixedNumber_eq (d : Word) {i : Int} (hmin : -2 ^ 63 ≤ i) (hmax : i < 2 ^ 63) :
    compareMixedNumber (decode d) i = compare (decode d) (some (i * unitsPerOne)) := by
  have hone := unitsPerOne_pos
  unfold compareMixedNumber decode
  split
  · rfl
  · have hcompare : ∀ x y : Int, compare (some x) (some y) = compare x y := fun _ _ => rfl
    rw [hcompare]
    simp only [doubleLess, Option.any_some, decide_eq_true_eq]
    split
    · next hlow =>
        exact (compare_lt_iff_lt.mpr
          (lt_of_lt_of_le hlow (Int.mul_le_mul_of_nonneg_right hmin hone.le))).symm
    · split
      · next hhigh =>
          exact (compare_gt_iff_gt.mpr
            (lt_of_lt_of_le (Int.mul_lt_mul_of_pos_right hmax hone) hhigh)).symm
      · obtain h | h | h := lt_trichotomy (truncate (units d)) i
        · have hlt : units d < i * unitsPerOne := lt_of_lt_of_le (truncate_lt (units d))
            (Int.mul_le_mul_of_nonneg_right (by omega) hone.le)
          rw [compare_lt_iff_lt.mpr h, compare_lt_iff_lt.mpr hlt]
          rfl
        · rw [compareDouble_eq, hcompare, ← h, ofInt_truncate, compare_eq_iff_eq.mpr rfl]
          rfl
        · have hlt : i * unitsPerOne < units d := lt_of_le_of_lt
            (Int.mul_le_mul_of_nonneg_right (by omega) hone.le) (lt_truncate (units d))
          rw [compare_gt_iff_gt.mpr h, compare_gt_iff_gt.mpr hlt]
          rfl

/-- A number in units of the smallest double, a NaN as none. -/
def numberKey : Value → Option Int
  | .double d => decode d
  | .integer i => some (integerValue i * unitsPerOne)
  | _ => none

def Value.isNumber : Value → Bool
  | .double _ | .integer _ => true
  | _ => false

theorem compareNumbers_eq {left right : Value} (hl : Value.isNumber left)
    (hr : Value.isNumber right) :
    compareNumbers left right = compare (numberKey left) (numberKey right) := by
  cases left with
  | double l =>
      cases right with
      | double r => exact compareDouble_eq _ _
      | integer r =>
          exact compareMixedNumber_eq l (integerValue_bounds r).1 (integerValue_bounds r).2
      | _ => cases hr
  | integer l =>
      cases right with
      | double r =>
          rw [compareNumbers, compareMixedNumber_eq r (integerValue_bounds l).1
            (integerValue_bounds l).2]
          exact Std.OrientedOrd.eq_swap.symm
      | integer r =>
          have hcompare : compare (numberKey (.integer l)) (numberKey (.integer r)) =
              compare (integerValue l * unitsPerOne) (integerValue r * unitsPerOne) := rfl
          rw [hcompare, compareNumbers]
          obtain h | h | h := lt_trichotomy (integerValue l) (integerValue r)
          · rw [compare_lt_iff_lt.mpr h,
              compare_lt_iff_lt.mpr (Int.mul_lt_mul_of_pos_right h unitsPerOne_pos)]
          · rw [h, compare_eq_iff_eq.mpr rfl, compare_eq_iff_eq.mpr rfl]
          · rw [compare_gt_iff_gt.mpr h,
              compare_gt_iff_gt.mpr (Int.mul_lt_mul_of_pos_right h unitsPerOne_pos)]
      | _ => cases hr
  | _ => cases hl

end Numbers

inductive TypeOrder where
  | null
  | boolean
  | number
  | timestamp
  | serverTimestamp
  | string
  | blob
  | reference
  | geoPoint
  | array
  | vector
  | map
  | maxValue
  deriving DecidableEq

def TypeOrder.rank : TypeOrder → Nat
  | .null => 0
  | .boolean => 1
  | .number => 2
  | .timestamp => 3
  | .serverTimestamp => 4
  | .string => 5
  | .blob => 6
  | .reference => 7
  | .geoPoint => 8
  | .array => 9
  | .vector => 10
  | .map => 11
  | .maxValue => 12

def isString (text : String) : Option FieldValue → Bool
  | some (.scalar (.string s)) => s == text
  | _ => false

def isServerTimestamp (fields : MapValue) : Bool :=
  fields.length ≤ 3 && isString "server_timestamp" (find "__type__" fields)

def isMaxValue (fields : MapValue) : Bool :=
  fields.length == 1 && isString "__max__" (find "__type__" fields)

def isArray : Option FieldValue → Bool
  | some (.array _) => true
  | _ => false

def isVectorValue (fields : MapValue) : Bool :=
  2 ≤ fields.length && isString "__vector__" (find "__type__" fields) &&
    isArray (find "value" fields)

def mapTypeOrder (fields : MapValue) : TypeOrder :=
  if isServerTimestamp fields then .serverTimestamp
  else if isMaxValue fields then .maxValue
  else if isVectorValue fields then .vector
  else .map

def FieldValue.typeOrder : FieldValue → TypeOrder
  | .scalar .null => .null
  | .scalar (.boolean _) => .boolean
  | .scalar (.integer _) | .scalar (.double _) => .number
  | .scalar (.timestamp _) => .timestamp
  | .scalar (.string _) => .string
  | .scalar (.bytes _) => .blob
  | .scalar (.reference _) => .reference
  | .scalar (.geoPoint _ _) => .geoPoint
  | .array _ => .array
  | .map fields => mapTypeOrder fields

/-- GetLocalWriteTime; a sentinel without the field is a failed assertion. -/
def localWriteTime (fields : MapValue) : Option Nat :=
  fields.findSome? fun e =>
    match e.2 with
    | .scalar (.timestamp t) => if e.1 = "__local_write_time__" then some t else none
    | _ => none

def vectorLength (fields : MapValue) : Nat :=
  match find "value" fields with
  | some (.array values) => values.length
  | _ => 0

def vectorValues (fields : MapValue) : List FieldValue :=
  match find "value" fields with
  | some (.array values) => values
  | _ => []

/-- The bytes up to the shorter size, then the sizes. -/
def compareBlobs (left right : List UInt8) : Ordering :=
  List.compareLex compare (left.map UInt8.toNat) (right.map UInt8.toNat)

/-- The segments of a reference, without the empty ones. -/
def segments (name : String) : List String :=
  ((name.toList.splitOn '/').filter (· ≠ [])).map String.ofList

/-- The segments one by one, then their number. -/
def compareReferences (left right : String) : Ordering :=
  List.compareLex compare (segments left) (segments right)

def compareGeoPoints (latitude longitude latitude' longitude' : BitVec 64) : Ordering :=
  (compareDouble (Binary64.decode latitude) (Binary64.decode latitude')).then
    (compareDouble (Binary64.decode longitude) (Binary64.decode longitude'))

def compareScalars : Value → Value → Ordering
  | .boolean left, .boolean right => compare left right
  | .timestamp left, .timestamp right => compare left right
  | .string left, .string right => compare left right
  | .bytes left, .bytes right => compareBlobs left right
  | .reference left, .reference right => compareReferences left right
  | .geoPoint latitude longitude, .geoPoint latitude' longitude' =>
      compareGeoPoints latitude longitude latitude' longitude'
  | left, right => compareNumbers left right

mutual

def FieldValue.compareTo : FieldValue → FieldValue → Ordering
  | .scalar left, .scalar right =>
      (compare (FieldValue.scalar left).typeOrder.rank
        (FieldValue.scalar right).typeOrder.rank).then (compareScalars left right)
  | .array left, .array right => compareArrays left right
  | .map left, .map right =>
      (compare (mapTypeOrder left).rank (mapTypeOrder right).rank).then
        (match mapTypeOrder left with
        | .serverTimestamp => compare (localWriteTime left) (localWriteTime right)
        | .maxValue => .eq
        | .vector => (compare (vectorLength left) (vectorLength right)).then
            (compareVectors left (vectorValues right))
        | _ => compareMaps left right)
  | left, right => compare left.typeOrder.rank right.typeOrder.rank

def compareArrays : List FieldValue → List FieldValue → Ordering
  | [], [] => .eq
  | [], _ :: _ => .lt
  | _ :: _, [] => .gt
  | left :: lefts, right :: rights => (left.compareTo right).then (compareArrays lefts rights)

def compareMaps : List (String × FieldValue) → List (String × FieldValue) → Ordering
  | [], [] => .eq
  | [], _ :: _ => .lt
  | _ :: _, [] => .gt
  | (key, left) :: lefts, (key', right) :: rights =>
      (compare key key').then ((left.compareTo right).then (compareMaps lefts rights))

/-- The array of the left vector, against that of the right one. -/
def compareVectors : List (String × FieldValue) → List FieldValue → Ordering
  | [], _ => .eq
  | (key, .array values) :: fields, right =>
      if key = "value" then compareArrays values right else compareVectors fields right
  | (key, .scalar _) :: fields, right | (key, .map _) :: fields, right =>
      if key = "value" then .eq else compareVectors fields right

end

section Keys

/-- The type, a number and a text. -/
abbrev Label := Nat ×ₗ Option Int ×ₗ String

def label (rank : Nat) (number : Option Int) (text : String) : Label :=
  toLex (rank, toLex (number, text))

theorem compare_label (rank rank' : Nat) (x x' : Option Int) (text text' : String) :
    compare (label rank x text) (label rank' x' text') =
      (compare rank rank').then ((compare x x').then (compare text text')) := rfl

def scalarLabel : Value → Label
  | .null => label 0 none ""
  | .boolean b => label 1 (some b.toNat) ""
  | .integer i => label 2 (numberKey (.integer i)) ""
  | .double d => label 2 (numberKey (.double d)) ""
  | .timestamp t => label 3 (some t) ""
  | .string s => label 5 none s
  | .bytes _ => label 6 none ""
  | .reference _ => label 7 none ""
  | .geoPoint _ _ => label 8 none ""

def numberNode (x : Option Int) : LabelTree Label := .node (label 0 x "") []

def textNode (text : String) : LabelTree Label := .node (label 0 none text) []

/-- The parts of a value that are compared one by one. -/
def scalarKeys : Value → List (LabelTree Label)
  | .bytes bytes => (bytes.map UInt8.toNat).map fun byte : Nat => numberNode (some byte)
  | .reference name => (segments name).map textNode
  | .geoPoint latitude longitude =>
      [numberNode (Binary64.decode latitude), numberNode (Binary64.decode longitude)]
  | _ => []

mutual

/-- What the comparison sees of a value. -/
def FieldValue.key : FieldValue → LabelTree Label
  | .scalar v => .node (scalarLabel v) (scalarKeys v)
  | .array values => .node (label 9 none "") (arrayKeys values)
  | .map fields =>
      match mapTypeOrder fields with
      | .serverTimestamp => .node (label 4 ((localWriteTime fields).map Int.ofNat) "") []
      | .maxValue => .node (label 12 none "") []
      | .vector => .node (label 10 (some (vectorLength fields)) "") (vectorKeys fields)
      | _ => .node (label 11 none "") (entryKeys fields)

def arrayKeys : List FieldValue → List (LabelTree Label)
  | [] => []
  | v :: values => v.key :: arrayKeys values

def entryKeys : List (String × FieldValue) → List (LabelTree Label)
  | [] => []
  | (key, v) :: fields => textNode key :: v.key :: entryKeys fields

def vectorKeys : List (String × FieldValue) → List (LabelTree Label)
  | [] => []
  | (key, .array values) :: fields =>
      if key = "value" then arrayKeys values else vectorKeys fields
  | (key, .scalar _) :: fields | (key, .map _) :: fields =>
      if key = "value" then [] else vectorKeys fields

end

theorem TypeOrder.rank_injective {t u : TypeOrder} (h : t.rank = u.rank) : t = u := by
  cases t <;> cases u <;> first | rfl | cases h

theorem mapTypeOrder_cases (fields : MapValue) :
    mapTypeOrder fields = .serverTimestamp ∨ mapTypeOrder fields = .maxValue ∨
      mapTypeOrder fields = .vector ∨ mapTypeOrder fields = .map := by
  unfold mapTypeOrder
  split
  · exact .inl rfl
  · split
    · exact .inr (.inl rfl)
    · split
      · exact .inr (.inr (.inl rfl))
      · exact .inr (.inr (.inr rfl))

/-- The type comes first in the key. -/
theorem key_rank (v : FieldValue) :
    ∃ number text ts, v.key = .node (label v.typeOrder.rank number text) ts := by
  cases v with
  | scalar v => cases v <;> exact ⟨_, _, _, rfl⟩
  | array values => exact ⟨_, _, _, rfl⟩
  | map fields =>
      obtain h | h | h | h := mapTypeOrder_cases fields <;>
        exact ⟨_, _, _, by simp only [FieldValue.key, FieldValue.typeOrder, h]; rfl⟩

theorem compare_rank_of_ne {left right : FieldValue} (h : left.typeOrder ≠ right.typeOrder)
    (o : Ordering) :
    (compare left.typeOrder.rank right.typeOrder.rank).then o = left.key.cmp right.key := by
  obtain ⟨x, text, ts, hl⟩ := key_rank left
  obtain ⟨x', text', ts', hr⟩ := key_rank right
  have hne : compare left.typeOrder.rank right.typeOrder.rank ≠ .eq := fun heq =>
    h (TypeOrder.rank_injective (compare_eq_iff_eq.mp heq))
  rw [hl, hr, LabelTree.cmp, compare_label]
  cases hc : compare left.typeOrder.rank right.typeOrder.rank with
  | lt | gt => rfl
  | eq => exact absurd hc hne

theorem compareTo_of_ne {left right : FieldValue} (h : left.typeOrder ≠ right.typeOrder) :
    left.compareTo right = left.key.cmp right.key := by
  have hthen : ∃ o, left.compareTo right =
      (compare left.typeOrder.rank right.typeOrder.rank).then o := by
    cases left <;> cases right
    case array.array => exact absurd rfl h
    case scalar.scalar => exact ⟨_, by rw [FieldValue.compareTo]⟩
    case map.map => exact ⟨_, by rw [FieldValue.compareTo]; rfl⟩
    all_goals exact ⟨.eq, by simp only [FieldValue.compareTo, Ordering.then_eq]⟩
  obtain ⟨o, ho⟩ := hthen
  rw [ho]
  exact compare_rank_of_ne h o

theorem scalar_ne_array (v : Value) (values : List FieldValue) :
    (FieldValue.scalar v).typeOrder ≠ (FieldValue.array values).typeOrder := by
  cases v <;> simp [FieldValue.typeOrder]

theorem scalar_ne_map (v : Value) (fields : MapValue) :
    (FieldValue.scalar v).typeOrder ≠ (FieldValue.map fields).typeOrder := by
  have hmap : (FieldValue.map fields).typeOrder = mapTypeOrder fields := rfl
  obtain h | h | h | h := mapTypeOrder_cases fields <;> rw [hmap, h] <;>
    cases v <;> simp [FieldValue.typeOrder]

theorem array_ne_map (values : List FieldValue) (fields : MapValue) :
    (FieldValue.array values).typeOrder ≠ (FieldValue.map fields).typeOrder := by
  have hmap : (FieldValue.map fields).typeOrder = mapTypeOrder fields := rfl
  obtain h | h | h | h := mapTypeOrder_cases fields <;> rw [hmap, h] <;>
    simp [FieldValue.typeOrder]

theorem compare_natCast (m n : Nat) : compare (m : Int) (n : Int) = compare m n := by
  obtain h | rfl | h := lt_trichotomy m n
  · rw [compare_lt_iff_lt.mpr h, compare_lt_iff_lt.mpr (Int.ofNat_lt.mpr h)]
  · rw [compare_eq_iff_eq.mpr rfl, compare_eq_iff_eq.mpr rfl]
  · rw [compare_gt_iff_gt.mpr h, compare_gt_iff_gt.mpr (Int.ofNat_lt.mpr h)]

theorem compare_map_ofNat (x y : Option Nat) :
    compare (x.map Int.ofNat) (y.map Int.ofNat) = compare x y := by
  cases x with
  | none => cases y <;> rfl
  | some m =>
      cases y with
      | none => rfl
      | some n => exact compare_natCast m n

theorem compare_label_number (rank : Nat) (x y : Option Int) :
    compare (label rank x "") (label rank y "") = compare x y := by
  rw [compare_label, compare_eq_iff_eq.mpr rfl, Ordering.eq_then]
  cases compare x y <;> rfl

theorem then_cmpList_nil (o : Ordering) : o.then (cmpList ([] : List (LabelTree Label)) []) = o :=
  Ordering.then_eq

theorem cmp_numberNode (x y : Option Int) : (numberNode x).cmp (numberNode y) = compare x y := by
  rw [numberNode, numberNode, LabelTree.cmp, then_cmpList_nil, compare_label_number]

theorem cmp_textNode (text text' : String) :
    (textNode text).cmp (textNode text') = compare text text' := by
  rw [textNode, textNode, LabelTree.cmp, then_cmpList_nil]
  rfl

/-- A value is compared by its label, and then by its parts. -/
theorem compareScalars_eq (left right : Value)
    (h : (FieldValue.scalar left).typeOrder = (FieldValue.scalar right).typeOrder) :
    compareScalars left right = (compare (scalarLabel left) (scalarLabel right)).then
      (cmpList (scalarKeys left) (scalarKeys right)) := by
  have hnumbers : ∀ {left right : Value}, Value.isNumber left → Value.isNumber right →
      compareNumbers left right =
        (compare (label 2 (numberKey left) "") (label 2 (numberKey right) "")).then
          (cmpList [] []) := fun hl hr => by
    rw [compareNumbers_eq hl hr, then_cmpList_nil, compare_label_number]
  cases left with
  | null => cases right <;> first | rfl | cases h
  | boolean b =>
      cases right with
      | boolean c => cases b <;> cases c <;> rfl
      | _ => cases h
  | integer i =>
      cases right with
      | integer j => exact @hnumbers (.integer i) (.integer j) rfl rfl
      | double e => exact @hnumbers (.integer i) (.double e) rfl rfl
      | _ => cases h
  | double d =>
      cases right with
      | integer j => exact @hnumbers (.double d) (.integer j) rfl rfl
      | double e => exact @hnumbers (.double d) (.double e) rfl rfl
      | _ => cases h
  | timestamp t =>
      cases right with
      | timestamp u =>
          refine (compare_natCast t u).symm.trans (Eq.trans ?_ (then_cmpList_nil _).symm)
          exact (compare_label_number 3 (some _) (some _)).symm
      | _ => cases h
  | string s =>
      cases right with
      | string s' => exact (then_cmpList_nil (compare s s')).symm
      | _ => cases h
  | bytes bytes =>
      cases right with
      | bytes bytes' =>
          have hbytes : ∀ a b : Nat,
              (numberNode (some a)).cmp (numberNode (some b)) = compare a b := fun a b =>
            (cmp_numberNode _ _).trans (compare_natCast a b)
          exact (cmpList_map hbytes (bytes.map UInt8.toNat) (bytes'.map UInt8.toNat)).symm
      | _ => cases h
  | reference name =>
      cases right with
      | reference name' =>
          exact (cmpList_map cmp_textNode (segments name) (segments name')).symm
      | _ => cases h
  | geoPoint latitude longitude =>
      cases right with
      | geoPoint latitude' longitude' =>
          rw [compareScalars, compareGeoPoints, compareDouble_eq, compareDouble_eq, scalarKeys,
            scalarKeys, cmpList, cmpList, cmp_numberNode, cmp_numberNode, then_cmpList_nil]
          rfl
      | _ => cases h

theorem isArray_of_vector {fields : MapValue} (h : mapTypeOrder fields = .vector) :
    isArray (find "value" fields) = true := by
  unfold mapTypeOrder at h
  split at h
  · cases h
  · split at h
    · cases h
    · split at h
      · next hvector =>
          simp only [isVectorValue, Bool.and_eq_true] at hvector
          exact hvector.2
      · cases h

theorem vectorKeys_eq (fields : MapValue) : vectorKeys fields = arrayKeys (vectorValues fields) := by
  induction fields with
  | nil => rfl
  | cons e fields ih =>
      obtain ⟨key, v⟩ := e
      unfold vectorValues at ih ⊢
      rw [find_cons]
      cases v <;> rw [vectorKeys] <;> split <;> first | rfl | exact ih

mutual

theorem compareTo_eq : ∀ left right : FieldValue, left.compareTo right = left.key.cmp right.key
  | .scalar left, .scalar right => by
      by_cases h : (FieldValue.scalar left).typeOrder = (FieldValue.scalar right).typeOrder
      · rw [FieldValue.compareTo, h, compare_eq_iff_eq.mpr rfl, Ordering.eq_then,
          compareScalars_eq left right h]
        simp only [FieldValue.key, LabelTree.cmp]
      · exact compareTo_of_ne h
  | .array left, .array right => by
      rw [FieldValue.compareTo, compareArrays_eq left right]
      rfl
  | .map left, .map right => by
      by_cases h : (FieldValue.map left).typeOrder = (FieldValue.map right).typeOrder
      · have hmap : mapTypeOrder left = mapTypeOrder right := h
        rw [FieldValue.compareTo, hmap, compare_eq_iff_eq.mpr rfl, Ordering.eq_then]
        obtain hr | hr | hr | hr := mapTypeOrder_cases right
        · simp only [FieldValue.key, hmap, hr, LabelTree.cmp, compare_label_number, cmpList,
            compare_map_ofNat, Ordering.then_eq]
        · simp only [FieldValue.key, hmap, hr]
          rfl
        · have harray := isArray_of_vector (hmap.trans hr)
          simp only [FieldValue.key, hmap, hr, LabelTree.cmp, compare_label_number]
          rw [compareVectors_eq left (vectorValues right) harray, vectorKeys_eq right]
          congr 1
          exact (compare_natCast _ _).symm
        · simp only [FieldValue.key, hmap, hr, LabelTree.cmp, compareMaps_eq left right]
          rfl
      · exact compareTo_of_ne h
  | .scalar left, .array right => compareTo_of_ne (scalar_ne_array left right)
  | .scalar left, .map right => compareTo_of_ne (scalar_ne_map left right)
  | .array left, .scalar right => compareTo_of_ne (scalar_ne_array right left).symm
  | .array left, .map right => compareTo_of_ne (array_ne_map left right)
  | .map left, .scalar right => compareTo_of_ne (scalar_ne_map right left).symm
  | .map left, .array right => compareTo_of_ne (array_ne_map right left).symm

theorem compareArrays_eq : ∀ left right : List FieldValue,
    compareArrays left right = cmpList (arrayKeys left) (arrayKeys right)
  | [], [] | [], _ :: _ | _ :: _, [] => by simp only [compareArrays, arrayKeys, cmpList]
  | v :: left, w :: right => by
      rw [compareArrays, compareTo_eq v w, compareArrays_eq left right]
      rfl

theorem compareMaps_eq : ∀ left right : List (String × FieldValue),
    compareMaps left right = cmpList (entryKeys left) (entryKeys right)
  | [], [] | [], (_, _) :: _ | (_, _) :: _, [] => by simp only [compareMaps, entryKeys, cmpList]
  | (key, v) :: left, (key', w) :: right => by
      rw [compareMaps, compareTo_eq v w, compareMaps_eq left right]
      simp only [entryKeys, cmpList, cmp_textNode]

theorem compareVectors_eq : ∀ (left : List (String × FieldValue)) (right : List FieldValue),
    isArray (find "value" left) = true →
    compareVectors left right = cmpList (vectorKeys left) (arrayKeys right)
  | [], right, h => by cases h
  | (key, .array values) :: left, right, h => by
      rw [compareVectors, vectorKeys]
      split
      · exact compareArrays_eq values right
      · next hne =>
          rw [find_cons, if_neg hne] at h
          exact compareVectors_eq left right h
  | (key, .scalar v) :: left, right, h => by
      rw [compareVectors, vectorKeys]
      split
      · next heq =>
          rw [find_cons, if_pos heq] at h
          cases h
      · next hne =>
          rw [find_cons, if_neg hne] at h
          exact compareVectors_eq left right h
  | (key, .map fields) :: left, right, h => by
      rw [compareVectors, vectorKeys]
      split
      · next heq =>
          rw [find_cons, if_pos heq] at h
          cases h
      · next hne =>
          rw [find_cons, if_neg hne] at h
          exact compareVectors_eq left right h

end

end Keys

section Laws

instance : Std.TransCmp FieldValue.compareTo where
  eq_swap {left right} := by
    rw [compareTo_eq, compareTo_eq]
    exact cmp_swap left.key right.key
  isLE_trans {left middle right} h h' := by
    rw [compareTo_eq] at *
    exact Std.TransOrd.isLE_trans (α := LabelTree Label) h h'

mutual

/-- Every server timestamp in the value carries the time of its local write; the
comparison of one that does not is a failed assertion. -/
def FieldValue.Timed : FieldValue → Prop
  | .scalar _ => True
  | .array values => TimedValues values
  | .map fields =>
      (mapTypeOrder fields = .serverTimestamp → (localWriteTime fields).isSome) ∧
        TimedFields fields

def TimedValues : List FieldValue → Prop
  | [] => True
  | v :: values => v.Timed ∧ TimedValues values

def TimedFields : List (String × FieldValue) → Prop
  | [] => True
  | (_, v) :: fields => v.Timed ∧ TimedFields fields

end

abbrev TimedValue := { v : FieldValue // v.Timed }

/-- The order of values is a total preorder. -/
theorem compareTo_total_preorder :
    (∀ left right : TimedValue, left.1.compareTo right.1 = (right.1.compareTo left.1).swap) ∧
      ∀ left middle right : TimedValue, (left.1.compareTo middle.1).isLE →
        (middle.1.compareTo right.1).isLE → (left.1.compareTo right.1).isLE :=
  ⟨fun _ _ => Std.OrientedCmp.eq_swap, fun _ _ _ => Std.TransCmp.isLE_trans⟩

/-- The number that a value stands for; an infinity counts as 2^1024. -/
def exactValue : Value → Option ℚ
  | .double d => (Binary64.decode d).map fun u : Int => (u : ℚ) / Binary64.unitsPerOne
  | .integer i => some (integerValue i)
  | _ => none

theorem compare_map_strictMono {f : Int → ℚ} (hf : StrictMono f) (x y : Option Int) :
    compare (x.map f) (y.map f) = compare x y := by
  cases x with
  | none => cases y <;> rfl
  | some a =>
      cases y with
      | none => rfl
      | some b =>
          change compare (f a) (f b) = compare a b
          obtain h | rfl | h := lt_trichotomy a b
          · rw [compare_lt_iff_lt.mpr h, compare_lt_iff_lt.mpr (hf h)]
          · rw [compare_eq_iff_eq.mpr rfl, compare_eq_iff_eq.mpr rfl]
          · rw [compare_gt_iff_gt.mpr h, compare_gt_iff_gt.mpr (hf h)]

/-- Numbers compare as the numbers they stand for, without rounding, and a NaN
comes first. -/
theorem compareNumbers_eq_exactValue {left right : Value} (hl : Value.isNumber left)
    (hr : Value.isNumber right) :
    compareNumbers left right = compare (exactValue left) (exactValue right) := by
  have hpos : (0 : ℚ) < Binary64.unitsPerOne := by exact_mod_cast Binary64.unitsPerOne_pos
  have hexact : ∀ {v : Value}, Value.isNumber v →
      exactValue v = (numberKey v).map fun u : Int => (u : ℚ) / Binary64.unitsPerOne := by
    intro v hv
    cases v with
    | double d => rfl
    | integer i =>
        rw [exactValue, numberKey, Option.map_some, Int.cast_mul,
          mul_div_cancel_right₀ _ hpos.ne']
    | _ => cases hv
  have hmono : StrictMono fun u : Int => (u : ℚ) / Binary64.unitsPerOne := fun a b h =>
    div_lt_div_of_pos_right (Int.cast_lt.mpr h) hpos
  rw [hexact hl, hexact hr, compare_map_strictMono hmono]
  exact compareNumbers_eq hl hr

/-- Beyond 2^53 a double and the integer next to it differ. -/
theorem compareNumbers_above_doubles :
    compareNumbers (.integer (2 ^ 53 + 1)) (.double 0x4340000000000000#64) =
      compare (exactValue (.integer (2 ^ 53 + 1))) (exactValue (.double 0x4340000000000000#64)) :=
  compareNumbers_eq_exactValue rfl rfl

end Laws

section Equality

/-- The operator == of two documents' data, by Equals of value_util.cc. -/
def ObjectValue.equals (left right : ObjectValue) : Bool :=
  mapTypeOrder left.fields == mapTypeOrder right.fields &&
    match mapTypeOrder left.fields with
    | .serverTimestamp => localWriteTime left.fields == localWriteTime right.fields
    | _ => left.fields.length == right.fields.length &&
        compareMaps left.fields right.fields == .eq

/-- What the operator sees of a document. -/
def ObjectValue.contents (o : ObjectValue) : TypeOrder × Option Nat × List (LabelTree Label) :=
  match mapTypeOrder o.fields with
  | .serverTimestamp => (.serverTimestamp, localWriteTime o.fields, [])
  | t => (t, none, entryKeys o.fields)

theorem length_entryKeys (fields : MapValue) : (entryKeys fields).length = 2 * fields.length := by
  induction fields with
  | nil => rfl
  | cons e fields ih =>
      rw [entryKeys, List.length_cons, List.length_cons, ih, List.length_cons]
      omega

theorem ObjectValue.equals_iff {left right : ObjectValue} :
    left.equals right = true ↔ left.contents = right.contents := by
  have hmaps : (left.fields.length == right.fields.length &&
      compareMaps left.fields right.fields == .eq) = true ↔
      entryKeys left.fields = entryKeys right.fields := by
    rw [Bool.and_eq_true, beq_iff_eq, beq_iff_eq, compareMaps_eq, cmpList_eq_iff]
    refine ⟨And.right, fun h => ⟨?_, h⟩⟩
    have hlength := congrArg List.length h
    rw [length_entryKeys, length_entryKeys] at hlength
    omega
  have htype : ∀ o : ObjectValue, o.contents.1 = mapTypeOrder o.fields := by
    intro o
    unfold ObjectValue.contents
    split
    · next h => exact h.symm
    · rfl
  by_cases h : mapTypeOrder left.fields = mapTypeOrder right.fields
  · rw [ObjectValue.equals, h, beq_self_eq_true, Bool.true_and]
    simp only [ObjectValue.contents, h]
    obtain hr | hr | hr | hr := mapTypeOrder_cases right.fields <;> rw [hr]
    · simp
    all_goals simpa using hmaps
  · refine iff_of_false (by simp [ObjectValue.equals, h]) fun heq => h ?_
    rw [← htype, ← htype, heq]

end Equality

end FirebaseLogin.Core
