import FirebaseLogin.Core.Query

/-!
DocumentSet of document_set.cc: the results of a query in the order of its
comparator, found by key. The two containers of the class hold the same
documents and are one list here.
-/

namespace FirebaseLogin.Core

open SortedEntries

variable {q : Query}

def Query.before (q : Query) (lhs rhs : q.Result) : Prop := q.comparator lhs rhs = .lt

instance (lhs rhs : q.Result) : Decidable (q.before lhs rhs) :=
  inferInstanceAs (Decidable (_ = _))

theorem Query.before_trans {a b c : q.Result} (hab : q.before a b) (hbc : q.before b c) :
    q.before a c :=
  Std.TransCmp.lt_trans hab hbc

theorem Query.before_of_not {a b : q.Result} (hkey : a.key ≠ b.key) (h : ¬ q.before a b) :
    q.before b a := by
  have hswap : q.comparator b a = (q.comparator a b).swap := Std.OrientedCmp.eq_swap
  rw [Query.before, hswap]
  cases hab : q.comparator a b with
  | lt => exact absurd hab h
  | eq => exact absurd (Query.key_eq_of_comparator hab) hkey
  | gt => rfl

structure DocumentSet (q : Query) where
  documents : List q.Result
  sorted : documents.Pairwise q.before
  distinct : (documents.map Query.Result.key).Nodup

/-- Insertion into the sorted set. -/
def insertSorted (doc : q.Result) : List q.Result → List q.Result
  | [] => [doc]
  | d :: docs => if q.before doc d then doc :: d :: docs else d :: insertSorted doc docs

theorem mem_insertSorted {doc d : q.Result} {docs : List q.Result} :
    d ∈ insertSorted doc docs ↔ d = doc ∨ d ∈ docs := by
  induction docs with
  | nil => simp [insertSorted]
  | cons d' docs ih =>
      rw [insertSorted]
      split
      · simp
      · rw [List.mem_cons, ih, List.mem_cons]
        exact or_left_comm

theorem sorted_insertSorted {doc : q.Result} {docs : List q.Result}
    (hkey : ∀ d ∈ docs, d.key ≠ doc.key) (h : docs.Pairwise q.before) :
    (insertSorted doc docs).Pairwise q.before := by
  induction docs with
  | nil => exact List.pairwise_singleton _ _
  | cons d docs ih =>
      obtain ⟨hd, hdocs⟩ := List.pairwise_cons.mp h
      rw [insertSorted]
      split
      · next hbefore =>
          refine List.pairwise_cons.mpr ⟨fun d' hd' => ?_, h⟩
          obtain rfl | hd' := List.mem_cons.mp hd'
          · exact hbefore
          · exact Query.before_trans hbefore (hd d' hd')
      · next hbefore =>
          refine List.pairwise_cons.mpr
            ⟨fun d' hd' => ?_, ih (fun d' hd' => hkey d' (List.mem_cons_of_mem d hd')) hdocs⟩
          obtain rfl | hd' := mem_insertSorted.mp hd'
          · exact Query.before_of_not (hkey d List.mem_cons_self).symm hbefore
          · exact hd d' hd'

theorem nodup_insertSorted {doc : q.Result} {docs : List q.Result}
    (hkey : ∀ d ∈ docs, d.key ≠ doc.key) (h : (docs.map Query.Result.key).Nodup) :
    ((insertSorted doc docs).map Query.Result.key).Nodup := by
  induction docs with
  | nil => exact List.nodup_singleton _
  | cons d docs ih =>
      obtain ⟨hd, hdocs⟩ := List.nodup_cons.mp h
      have hrest := ih (fun d' hd' => hkey d' (List.mem_cons_of_mem d hd')) hdocs
      rw [insertSorted]
      split
      · refine List.nodup_cons.mpr ⟨fun hmem => ?_, h⟩
        obtain ⟨d', hd', heq⟩ := List.mem_map.mp hmem
        exact hkey d' hd' heq
      · refine List.nodup_cons.mpr ⟨fun hmem => ?_, hrest⟩
        obtain ⟨d', hd', heq⟩ := List.mem_map.mp hmem
        obtain rfl | hd' := mem_insertSorted.mp hd'
        · exact hkey d List.mem_cons_self heq.symm
        · exact hd (heq ▸ List.mem_map_of_mem hd')

namespace DocumentSet

def empty : DocumentSet q := ⟨[], List.Pairwise.nil, List.nodup_nil⟩

def getDocument (s : DocumentSet q) (key : DocumentReference) : Option q.Result :=
  s.documents.find? fun d => d.key = key

def getFirstDocument (s : DocumentSet q) : Option q.Result := s.documents.head?

def getLastDocument (s : DocumentSet q) : Option q.Result := s.documents.getLast?

def size (s : DocumentSet q) : Nat := s.documents.length

def erase (s : DocumentSet q) (key : DocumentReference) : DocumentSet q where
  documents := s.documents.filter fun d => d.key ≠ key
  sorted := s.sorted.filter _
  distinct := s.distinct.sublist (List.filter_sublist.map _)

theorem key_ne_of_mem_erase {s : DocumentSet q} {key : DocumentReference} :
    ∀ d ∈ (s.erase key).documents, d.key ≠ key := by
  intro d hd
  simpa using (List.mem_filter.mp hd).2

def insert (s : DocumentSet q) (doc : q.Result) : DocumentSet q where
  documents := insertSorted doc (s.erase doc.key).documents
  sorted := sorted_insertSorted key_ne_of_mem_erase (s.erase doc.key).sorted
  distinct := nodup_insertSorted key_ne_of_mem_erase (s.erase doc.key).distinct

variable {s : DocumentSet q} {key : DocumentReference} {doc : q.Result}

theorem getDocument_eq_some : s.getDocument key = some doc ↔ doc ∈ s.documents ∧ doc.key = key :=
  find?_key_eq_some s.distinct

@[simp] theorem getDocument_empty : (empty : DocumentSet q).getDocument key = none := rfl

theorem getDocument_erase (s : DocumentSet q) (key other : DocumentReference) :
    (s.erase key).getDocument other = if other = key then none else s.getDocument other := by
  refine Option.ext fun d => ?_
  rw [getDocument_eq_some]
  simp only [erase, List.mem_filter, decide_eq_true_eq]
  split
  · next heq =>
      subst heq
      simp
  · next hne =>
      rw [getDocument_eq_some]
      constructor
      · rintro ⟨⟨hmem, -⟩, hkey⟩
        exact ⟨hmem, hkey⟩
      · rintro ⟨hmem, rfl⟩
        exact ⟨⟨hmem, hne⟩, rfl⟩

theorem getDocument_insert (s : DocumentSet q) (doc : q.Result) (other : DocumentReference) :
    (s.insert doc).getDocument other =
      if other = doc.key then some doc else s.getDocument other := by
  refine Option.ext fun d => ?_
  rw [getDocument_eq_some, insert, mem_insertSorted]
  split
  · next heq =>
      subst heq
      constructor
      · rintro ⟨rfl | hmem, hkey⟩
        · rfl
        · exact absurd hkey (key_ne_of_mem_erase d hmem)
      · intro h
        obtain rfl := Option.some.inj h
        exact ⟨.inl rfl, rfl⟩
  · next hne =>
      have herase := getDocument_erase s doc.key other
      rw [if_neg hne] at herase
      rw [← herase, getDocument_eq_some]
      constructor
      · rintro ⟨rfl | hmem, rfl⟩
        · exact absurd rfl hne
        · exact ⟨hmem, rfl⟩
      · rintro ⟨hmem, hkey⟩
        exact ⟨.inr hmem, hkey⟩

end DocumentSet

end FirebaseLogin.Core
