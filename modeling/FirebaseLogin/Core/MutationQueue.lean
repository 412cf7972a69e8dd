import FirebaseLogin.Core.Overlay
import Mathlib.Data.Prod.Lex
import Mathlib.Data.Finset.Sort

/-!
The queue of local writes, mutation_batch.cc and leveldb_mutation_queue.cc. The
rows of the mutation table are ordered by user and batch id. A second table lists
the batches of each document; a row of it without its batch is a fatal error of
the library.
-/

namespace FirebaseLogin.Core

open SortedEntries

/-- An int32_t; ids are never negative, and every id in use is below `2 ^ 31`. -/
abbrev BatchId := Nat

structure MutationBatch where
  batchId : BatchId
  localWriteTime : Timestamp
  baseMutations : List Mutation
  mutations : List Mutation
  nonempty : mutations ≠ []

namespace MutationBatch

/-- The keys as a set. -/
def keys (batch : MutationBatch) : List DocumentReference :=
  (batch.mutations.map Mutation.key).dedup

theorem mem_keys {batch : MutationBatch} {key : DocumentReference} :
    key ∈ batch.keys ↔ ∃ m ∈ batch.mutations, m.key = key := by
  simp [keys]

/-- The loop over mutations of which only those of the document are applied, so
that VerifyKeyMatches holds. -/
def applyEach (mutations : List Mutation) (localWriteTime : Timestamp)
    (view : MutableDocument × Option FieldMask) : MutableDocument × Option FieldMask :=
  mutations.foldl (fun view m =>
    if m.key = view.1.key then m.applyLocally view.1 view.2 localWriteTime else view) view

/-- ApplyToLocalView, which ApplyToLocalDocument repeats: the base state first. -/
def applyToLocalView (batch : MutationBatch) (doc : MutableDocument)
    (mutatedFields : Option FieldMask) : MutableDocument × Option FieldMask :=
  applyEach batch.mutations batch.localWriteTime
    (applyEach batch.baseMutations batch.localWriteTime (doc, mutatedFields))

def applyResult (doc : MutableDocument) (e : Mutation × MutationResult) :
    Option MutableDocument :=
  if e.1.key = doc.key then e.1.applyToRemoteDocument doc e.2 else some doc

def applyToRemoteDocument (batch : MutationBatch) (doc : MutableDocument)
    (mutationResults : List MutationResult) : Option MutableDocument :=
  if mutationResults.length = batch.mutations.length then
    (batch.mutations.zip mutationResults).foldlM applyResult doc
  else none

/-- What the batch does to one document. -/
def mutationsOf (batch : MutationBatch) (key : DocumentReference) : List (Mutation × Timestamp) :=
  ((batch.baseMutations ++ batch.mutations).filter fun m => m.key = key).map fun m =>
    (m, batch.localWriteTime)

end MutationBatch

theorem Mutation.applyLocally_key (m : Mutation) (doc : MutableDocument)
    (mask : Option FieldMask) (t : Timestamp) : (m.applyLocally doc mask t).1.key = doc.key := by
  cases m <;> simp only [Mutation.applyLocally] <;> split <;> rfl

theorem replay_key (ms : List (Mutation × Timestamp)) (doc : MutableDocument)
    (mask : Option FieldMask) : (replay ms doc mask).1.key = doc.key := by
  induction ms generalizing doc mask with
  | nil => rfl
  | cons m ms ih => exact (ih _ _).trans (m.1.applyLocally_key doc mask m.2)

theorem MutationBatch.applyEach_eq_replay (ms : List Mutation) (t : Timestamp)
    (view : MutableDocument × Option FieldMask) :
    applyEach ms t view =
      replay ((ms.filter fun m => m.key = view.1.key).map fun m => (m, t)) view.1 view.2 := by
  induction ms generalizing view with
  | nil => rfl
  | cons m ms ih =>
      rw [applyEach, List.foldl_cons]
      by_cases hm : m.key = view.1.key
      · rw [if_pos hm, ← applyEach, ih, m.applyLocally_key, List.filter_cons_of_pos (by simpa)]
        rfl
      · rw [if_neg hm, ← applyEach, ih, List.filter_cons_of_neg (by simpa)]

/-- The two loops of a batch replay its mutations of the document. -/
theorem MutationBatch.applyToLocalView_eq_replay (batch : MutationBatch) (doc : MutableDocument)
    (mask : Option FieldMask) :
    batch.applyToLocalView doc mask = replay (batch.mutationsOf doc.key) doc mask := by
  rw [applyToLocalView, applyEach_eq_replay, applyEach_eq_replay, replay_key, ← replay_append,
    mutationsOf, List.filter_append, List.map_append]

structure MutationQueue where
  userId : String
  nextBatchId : BatchId
  mutations : List ((String ×ₗ BatchId) × MutationBatch)
  documentMutations : Finset (String × DocumentReference × BatchId)

namespace MutationQueue

/-- The last row of each user, which the iterator finds by seeking past it. -/
def lastRows : List (String × BatchId) → List (String × BatchId)
  | [] => []
  | [row] => [row]
  | row :: next :: rows =>
      if row.1 = next.1 then lastRows (next :: rows) else row :: lastRows (next :: rows)

def loadNextBatchId (rows : List ((String ×ₗ BatchId) × MutationBatch)) : BatchId :=
  ((lastRows (rows.map fun row => ofLex row.1)).map Prod.snd).foldr max 0 + 1

/-- A queue object for the user over the same tables, started. -/
def start (q : MutationQueue) (userId : String) : MutationQueue :=
  { q with userId, nextBatchId := loadNextBatchId q.mutations }

def batchesOf (q : MutationQueue) (userId : String) : List MutationBatch :=
  (q.mutations.filter fun row => (ofLex row.1).1 = userId).map Prod.snd

def allMutationBatches (q : MutationQueue) : List MutationBatch := q.batchesOf q.userId

def isEmpty (q : MutationQueue) : Bool := q.allMutationBatches.isEmpty

def lookupMutationBatch (q : MutationQueue) (batchId : BatchId) : Option MutationBatch :=
  find (toLex (q.userId, batchId)) q.mutations

/-- The next batch, and the queue with its rows. -/
def enqueue (q : MutationQueue) (localWriteTime : Timestamp)
    (baseMutations mutations : List Mutation) (nonempty : mutations ≠ []) :
    MutationBatch × MutationQueue :=
  let batch : MutationBatch :=
    { batchId := q.nextBatchId, localWriteTime, baseMutations, mutations, nonempty }
  (batch,
    { q with
      nextBatchId := q.nextBatchId + 1
      mutations := put (toLex (q.userId, batch.batchId)) batch q.mutations
      documentMutations := q.documentMutations ∪
        (mutations.map fun m => (q.userId, m.key, batch.batchId)).toFinset })

/-- There is an id left for the batch after the next one. -/
def HasRoom (q : MutationQueue) : Prop := q.nextBatchId + 1 < 2 ^ 31

instance (q : MutationQueue) : Decidable q.HasRoom := Nat.decLt _ _

/-- The next id is increased without a check. Past the largest int32_t the behaviour
is undefined, and the step is refused here. -/
def addMutationBatch (q : MutationQueue) (localWriteTime : Timestamp)
    (baseMutations mutations : List Mutation) (nonempty : mutations ≠ []) :
    Option (MutationBatch × MutationQueue) :=
  if q.HasRoom then some (q.enqueue localWriteTime baseMutations mutations nonempty) else none

/-- Refused when the batch is not there. -/
def removeMutationBatch (q : MutationQueue) (batch : MutationBatch) : Option MutationQueue :=
  if (q.lookupMutationBatch batch.batchId).isSome then
    some { q with
      mutations := q.mutations.filter fun row => row.1 ≠ toLex (q.userId, batch.batchId)
      documentMutations := q.documentMutations \
        (batch.mutations.map fun m => (q.userId, m.key, batch.batchId)).toFinset }
  else none

def allMutationBatchesWithIds (q : MutationQueue) (batchIds : Finset BatchId) :
    Option (List MutationBatch) :=
  (batchIds.sort (· ≤ ·)).mapM q.lookupMutationBatch

def allMutationBatchesAffectingDocumentKeys (q : MutationQueue)
    (documentKeys : List DocumentReference) : Option (List MutationBatch) :=
  q.allMutationBatchesWithIds
    ((q.documentMutations.filter fun row => row.1 = q.userId ∧ row.2.1 ∈ documentKeys).image
      fun row => row.2.2)

/-- Without batches there may be no row of a document either. -/
def performConsistencyCheck (q : MutationQueue) : Bool :=
  !q.isEmpty || q.documentMutations.filter (fun row => row.1 = q.userId) = ∅

/-- Every row of a batch is numbered below the next batch, whose id is an int32_t,
and the second table lists exactly the documents of the batches. -/
structure Consistent (q : MutationQueue) : Prop where
  bounded : q.nextBatchId < 2 ^ 31
  ascending : Ascending q.mutations
  numbered : ∀ row ∈ q.mutations, (ofLex row.1).2 = row.2.batchId
  fresh : ∀ row ∈ q.mutations, row.2.batchId < q.nextBatchId
  indexed : ∀ userId key batchId, (userId, key, batchId) ∈ q.documentMutations ↔
    ∃ batch, (toLex (userId, batchId), batch) ∈ q.mutations ∧ key ∈ batch.keys

variable {q : MutationQueue} {batch : MutationBatch} {userId : String}

theorem mem_batchesOf (h : q.Consistent) :
    batch ∈ q.batchesOf userId ↔ (toLex (userId, batch.batchId), batch) ∈ q.mutations := by
  simp only [batchesOf, List.mem_map, List.mem_filter, decide_eq_true_eq]
  constructor
  · rintro ⟨row, ⟨hrow, huser⟩, rfl⟩
    have hkey : toLex (userId, row.2.batchId) = row.1 := by
      rw [← huser, ← h.numbered row hrow]
      rfl
    rwa [hkey]
  · intro hrow
    exact ⟨_, ⟨hrow, rfl⟩, rfl⟩

theorem ascending_batchesOf (h : q.Consistent) (userId : String) :
    (q.batchesOf userId).Pairwise fun a b => a.batchId < b.batchId := by
  refine List.pairwise_map.mpr ?_
  have hsorted := h.ascending.filter fun row => decide ((ofLex row.1).1 = userId)
  refine List.Pairwise.imp_of_mem (fun {a b} ha hb hab => ?_) hsorted
  obtain ⟨ha, hua⟩ := List.mem_filter.mp ha
  obtain ⟨hb, hub⟩ := List.mem_filter.mp hb
  simp only [decide_eq_true_eq] at hua hub
  rw [← h.numbered a ha, ← h.numbered b hb]
  obtain hlt | ⟨-, hlt⟩ := Prod.Lex.lt_iff.mp hab
  · rw [hua, hub] at hlt
    exact absurd hlt (lt_irrefl _)
  · exact hlt

/-- Batches in the order of their ids are determined by which there are. -/
theorem batches_ext {l l' : List MutationBatch}
    (hl : l.Pairwise fun a b => a.batchId < b.batchId)
    (hl' : l'.Pairwise fun a b => a.batchId < b.batchId) (h : ∀ b, b ∈ l ↔ b ∈ l') : l = l' := by
  have hnodup : ∀ {l : List MutationBatch}, (l.Pairwise fun a b => a.batchId < b.batchId) →
      l.Nodup := fun hl => hl.imp fun hab he => hab.ne (congrArg MutationBatch.batchId he)
  have hperm : l.Perm l' := (List.perm_ext_iff_of_nodup (hnodup hl) (hnodup hl')).mpr h
  exact hperm.eq_of_pairwise (fun a b _ _ hab hba => absurd (hab.trans hba) (lt_irrefl _)) hl hl'

theorem lookupMutationBatch_eq_some (h : q.Consistent) {batchId : BatchId} :
    q.lookupMutationBatch batchId = some batch ↔
      batch ∈ q.allMutationBatches ∧ batch.batchId = batchId := by
  rw [lookupMutationBatch, find_eq_some_iff h.ascending, allMutationBatches, mem_batchesOf h]
  constructor
  · intro hmem
    have hid : batchId = batch.batchId := h.numbered _ hmem
    exact ⟨hid ▸ hmem, hid.symm⟩
  · rintro ⟨hmem, rfl⟩
    exact hmem

section Add

variable {localWriteTime : Timestamp} {baseMutations mutations : List Mutation}
  {nonempty : mutations ≠ []}

theorem mem_add_mutations (h : q.Consistent) {row : (String ×ₗ BatchId) × MutationBatch} :
    row ∈ (q.enqueue localWriteTime baseMutations mutations nonempty).2.mutations ↔
      row = (toLex (q.userId, q.nextBatchId),
        (q.enqueue localWriteTime baseMutations mutations nonempty).1) ∨
      row ∈ q.mutations := by
  have hsorted := ascending_put h.ascending (toLex (q.userId, q.nextBatchId))
    (q.enqueue localWriteTime baseMutations mutations nonempty).1
  constructor
  · exact mem_put
  · intro hrow
    refine (find_eq_some_iff hsorted).mp ?_
    rw [find_put _ _ _ h.ascending]
    obtain rfl | hrow := hrow
    · rw [if_pos rfl]
    · have hne : toLex (q.userId, q.nextBatchId) ≠ row.1 := by
        intro heq
        have hlt := h.fresh row hrow
        rw [← h.numbered row hrow, ← heq] at hlt
        exact lt_irrefl _ hlt
      rw [if_neg hne, find_of_mem h.ascending hrow]

theorem consistent_enqueue (h : q.Consistent) (hroom : q.HasRoom) (localWriteTime : Timestamp)
    (baseMutations : List Mutation) (nonempty : mutations ≠ []) :
    (q.enqueue localWriteTime baseMutations mutations nonempty).2.Consistent where
  bounded := hroom
  ascending := ascending_put h.ascending _ _
  numbered row hrow := by
    obtain rfl | hrow := (mem_add_mutations h).mp hrow
    · rfl
    · exact h.numbered row hrow
  fresh row hrow := by
    obtain rfl | hrow := (mem_add_mutations h).mp hrow
    · exact Nat.lt_succ_self _
    · exact (h.fresh row hrow).trans (Nat.lt_succ_self _)
  indexed userId key batchId := by
    have hrows : (userId, key, batchId) ∈
        (q.enqueue localWriteTime baseMutations mutations nonempty).2.documentMutations ↔
          (userId, key, batchId) ∈ q.documentMutations ∨
            ∃ m ∈ mutations, (q.userId, m.key, q.nextBatchId) = (userId, key, batchId) := by
      simp [enqueue]
    rw [hrows, h.indexed]
    constructor
    · rintro (⟨batch, hmem, hkey⟩ | ⟨m, hm, heq⟩)
      · exact ⟨batch, (mem_add_mutations h).mpr (.inr hmem), hkey⟩
      · cases heq
        exact ⟨_, (mem_add_mutations h).mpr (.inl rfl), MutationBatch.mem_keys.mpr ⟨m, hm, rfl⟩⟩
    · rintro ⟨batch, hmem, hkey⟩
      obtain heq | hmem := (mem_add_mutations h).mp hmem
      · obtain ⟨hrow, rfl⟩ := Prod.mk.inj heq
        obtain ⟨m, hm, rfl⟩ := MutationBatch.mem_keys.mp hkey
        obtain ⟨rfl, rfl⟩ := Prod.mk.inj (toLex.injective hrow)
        exact .inr ⟨m, hm, rfl⟩
      · exact .inl ⟨batch, hmem, hkey⟩

theorem batchesOf_enqueue (h : q.Consistent) (hroom : q.HasRoom) (localWriteTime : Timestamp)
    (baseMutations : List Mutation) (nonempty : mutations ≠ []) (userId : String) :
    (q.enqueue localWriteTime baseMutations mutations nonempty).2.batchesOf userId =
      q.batchesOf userId ++ if userId = q.userId then
        [(q.enqueue localWriteTime baseMutations mutations nonempty).1] else [] := by
  have hconsistent := consistent_enqueue h hroom localWriteTime baseMutations nonempty
  refine batches_ext (ascending_batchesOf hconsistent userId) ?_ fun batch => ?_
  · refine List.pairwise_append.mpr ⟨ascending_batchesOf h userId, ?_, ?_⟩
    · split <;> simp
    · intro a ha b hb
      obtain ⟨rfl, rfl⟩ : userId = q.userId ∧ b = _ := by
        split at hb
        · next hu => exact ⟨hu, List.mem_singleton.mp hb⟩
        · cases hb
      exact h.fresh _ ((mem_batchesOf h).mp ha)
  · rw [mem_batchesOf hconsistent, mem_add_mutations h, List.mem_append, mem_batchesOf h, or_comm]
    refine or_congr Iff.rfl ?_
    constructor
    · intro heq
      obtain ⟨hkey, rfl⟩ := Prod.mk.inj heq
      obtain ⟨rfl, -⟩ := Prod.mk.inj (toLex.injective hkey)
      simp
    · intro hmem
      split at hmem
      · next hu =>
          obtain rfl := List.mem_singleton.mp hmem
          rw [hu]
          rfl
      · cases hmem

end Add

section Remove

variable {q' : MutationQueue}

theorem removeMutationBatch_eq_some :
    q.removeMutationBatch batch = some q' ↔ (q.lookupMutationBatch batch.batchId).isSome ∧
      q' = { q with
        mutations := q.mutations.filter fun row => row.1 ≠ toLex (q.userId, batch.batchId)
        documentMutations := q.documentMutations \
          (batch.mutations.map fun m => (q.userId, m.key, batch.batchId)).toFinset } := by
  unfold removeMutationBatch
  split
  · next hs => simp [hs, eq_comm]
  · next hs => simp [hs]

theorem consistent_removeMutationBatch (h : q.Consistent) (hbatch : batch ∈ q.allMutationBatches)
    (hremove : q.removeMutationBatch batch = some q') : q'.Consistent := by
  obtain ⟨-, rfl⟩ := removeMutationBatch_eq_some.mp hremove
  have hrow := (mem_batchesOf h).mp hbatch
  refine ⟨h.bounded, h.ascending.filter _, fun row hr => h.numbered row (List.mem_filter.mp hr).1,
    fun row hr => h.fresh row (List.mem_filter.mp hr).1, fun userId key batchId => ?_⟩
  simp only [Finset.mem_sdiff, h.indexed, List.mem_toFinset, List.mem_map, List.mem_filter,
    decide_not, Bool.not_eq_eq_eq_not, Bool.not_true, decide_eq_false_iff_not]
  constructor
  · rintro ⟨⟨batch', hmem, hkey⟩, hother⟩
    refine ⟨batch', ⟨hmem, fun heq => hother ?_⟩, hkey⟩
    obtain ⟨rfl, rfl⟩ := Prod.mk.inj (toLex.injective heq)
    obtain rfl : batch' = batch := Option.some.inj
      ((find_of_mem h.ascending hmem).symm.trans (find_of_mem h.ascending hrow))
    obtain ⟨m, hm, rfl⟩ := MutationBatch.mem_keys.mp hkey
    exact ⟨m, hm, rfl⟩
  · rintro ⟨batch', ⟨hmem, hne⟩, hkey⟩
    refine ⟨⟨batch', hmem, hkey⟩, ?_⟩
    rintro ⟨m, -, heq⟩
    cases heq
    exact hne rfl

theorem batchesOf_removeMutationBatch (h : q.Consistent) (hbatch : batch ∈ q.allMutationBatches)
    (hremove : q.removeMutationBatch batch = some q') (userId : String) :
    q'.batchesOf userId = (q.batchesOf userId).filter fun b =>
      userId ≠ q.userId ∨ b.batchId ≠ batch.batchId := by
  have hconsistent := consistent_removeMutationBatch h hbatch hremove
  refine batches_ext (ascending_batchesOf hconsistent userId)
    ((ascending_batchesOf h userId).filter _) fun b => ?_
  rw [mem_batchesOf hconsistent, List.mem_filter, mem_batchesOf h]
  obtain ⟨-, rfl⟩ := removeMutationBatch_eq_some.mp hremove
  simp [Prod.ext_iff]

end Remove

section Start

theorem exists_lastRow {rows : List (String × BatchId)}
    (h : rows.Pairwise fun a b => a.1 = b.1 → a.2 < b.2) {row : String × BatchId}
    (hrow : row ∈ rows) : ∃ last ∈ lastRows rows, row.2 ≤ last.2 := by
  induction rows using lastRows.induct generalizing row with
  | case1 => cases hrow
  | case2 r =>
      obtain rfl := List.mem_singleton.mp hrow
      exact ⟨row, List.mem_singleton_self _, le_rfl⟩
  | case3 r next rows heq ih =>
      obtain ⟨hr, hrest⟩ := List.pairwise_cons.mp h
      rw [lastRows, if_pos heq]
      obtain rfl | hmem := List.mem_cons.mp hrow
      · obtain ⟨last, hlast, hle⟩ := ih hrest List.mem_cons_self
        exact ⟨last, hlast, (hr next List.mem_cons_self heq).le.trans hle⟩
      · exact ih hrest hmem
  | case4 r next rows hne ih =>
      rw [lastRows, if_neg hne]
      obtain rfl | hmem := List.mem_cons.mp hrow
      · exact ⟨row, List.mem_cons_self, le_rfl⟩
      · obtain ⟨last, hlast, hle⟩ := ih (List.pairwise_cons.mp h).2 hmem
        exact ⟨last, List.mem_cons_of_mem r hlast, hle⟩

theorem le_foldr_max {l : List BatchId} {n : BatchId} (h : n ∈ l) : n ≤ l.foldr max 0 := by
  induction l with
  | nil => cases h
  | cons m l ih =>
      obtain rfl | h := List.mem_cons.mp h
      · exact le_max_left _ _
      · exact (ih h).trans (le_max_right _ _)

/-- The last rows are enough: no batch of any user has the next id or a later one. -/
theorem lt_loadNextBatchId {rows : List ((String ×ₗ BatchId) × MutationBatch)}
    (h : Ascending rows) {row : (String ×ₗ BatchId) × MutationBatch} (hrow : row ∈ rows) :
    (ofLex row.1).2 < loadNextBatchId rows := by
  have hpairs : (rows.map fun row => ofLex row.1).Pairwise fun a b => a.1 = b.1 → a.2 < b.2 := by
    refine List.pairwise_map.mpr (h.imp fun {a b} hab heq => ?_)
    obtain hlt | ⟨-, hlt⟩ := Prod.Lex.lt_iff.mp hab
    · rw [heq] at hlt
      exact absurd hlt (lt_irrefl _)
    · exact hlt
  obtain ⟨last, hlast, hle⟩ := exists_lastRow hpairs
    (List.mem_map.mpr ⟨row, hrow, rfl⟩)
  exact Nat.lt_succ_of_le (hle.trans (le_foldr_max (List.mem_map_of_mem hlast)))

theorem mem_of_mem_lastRows {rows : List (String × BatchId)} {row : String × BatchId}
    (h : row ∈ lastRows rows) : row ∈ rows := by
  induction rows using lastRows.induct with
  | case1 | case2 => exact h
  | case3 r next rows heq ih =>
      rw [lastRows, if_pos heq] at h
      exact List.mem_cons_of_mem r (ih h)
  | case4 r next rows hne ih =>
      rw [lastRows, if_neg hne] at h
      obtain rfl | h := List.mem_cons.mp h
      · exact List.mem_cons_self
      · exact List.mem_cons_of_mem r (ih h)

theorem foldr_max_lt {l : List BatchId} {n : BatchId} (hn : 0 < n) (h : ∀ m ∈ l, m < n) :
    l.foldr max 0 < n := by
  induction l with
  | nil => exact hn
  | cons m l ih =>
      exact max_lt (h m List.mem_cons_self) (ih fun k hk => h k (List.mem_cons_of_mem m hk))

/-- The id that is loaded needs no more room than the ids that were given out. -/
theorem loadNextBatchId_lt (h : q.Consistent) : loadNextBatchId q.mutations < 2 ^ 31 := by
  have hlt : ∀ id ∈ (lastRows (q.mutations.map fun row => ofLex row.1)).map Prod.snd,
      id < 2 ^ 31 - 1 := by
    intro id hid
    obtain ⟨last, hlast, rfl⟩ := List.mem_map.mp hid
    obtain ⟨row, hrow, rfl⟩ := List.mem_map.mp (mem_of_mem_lastRows hlast)
    rw [h.numbered row hrow]
    exact (h.fresh row hrow).trans_le (Nat.le_sub_one_of_lt h.bounded)
  exact Nat.add_lt_of_lt_sub (foldr_max_lt (by decide) hlt)

theorem consistent_start (h : q.Consistent) (userId : String) : (q.start userId).Consistent where
  bounded := loadNextBatchId_lt h
  ascending := h.ascending
  numbered := h.numbered
  fresh row hrow := by
    rw [← h.numbered row hrow]
    exact lt_loadNextBatchId h.ascending hrow
  indexed := h.indexed

end Start

section Scan

variable {documentKeys : List DocumentReference}

theorem mapM_lookupMutationBatch (h : q.Consistent) {l : List MutationBatch}
    (hl : ∀ b ∈ l, b ∈ q.allMutationBatches) :
    (l.map MutationBatch.batchId).mapM q.lookupMutationBatch = some l := by
  induction l with
  | nil => rfl
  | cons b l ih =>
      have hb := (lookupMutationBatch_eq_some h).mpr ⟨hl b List.mem_cons_self, rfl⟩
      have hrest := ih fun b' hb' => hl b' (List.mem_cons_of_mem b hb')
      simp [hb, hrest]

/-- The batches found through the second table are the queued ones that change
one of the documents, in their order. No row is dangling. -/
theorem allMutationBatchesAffectingDocumentKeys_eq (h : q.Consistent)
    (documentKeys : List DocumentReference) :
    q.allMutationBatchesAffectingDocumentKeys documentKeys =
      some (q.allMutationBatches.filter fun b => documentKeys.any fun key => key ∈ b.keys) := by
  set l := q.allMutationBatches.filter fun b => documentKeys.any fun key => key ∈ b.keys with hl
  have hsorted : (l.map MutationBatch.batchId).Pairwise (· < ·) :=
    List.pairwise_map.mpr ((ascending_batchesOf h q.userId).filter _)
  have hids : (q.documentMutations.filter fun row => row.1 = q.userId ∧ row.2.1 ∈ documentKeys).image
      (fun row => row.2.2) = (l.map MutationBatch.batchId).toFinset := by
    ext batchId
    simp only [Finset.mem_image, Finset.mem_filter, Prod.exists, List.mem_toFinset, List.mem_map]
    constructor
    · rintro ⟨userId, key, id, ⟨hrow, rfl, hkey⟩, rfl⟩
      obtain ⟨batch, hmem, hbatch⟩ := (h.indexed _ _ _).mp hrow
      have hid : id = batch.batchId := h.numbered _ hmem
      refine ⟨batch, List.mem_filter.mpr ⟨(mem_batchesOf h).mpr (hid ▸ hmem), ?_⟩, hid.symm⟩
      simp only [List.any_eq_true, decide_eq_true_eq]
      exact ⟨key, hkey, hbatch⟩
    · rintro ⟨batch, hbatch, rfl⟩
      obtain ⟨hmem, hany⟩ := List.mem_filter.mp hbatch
      simp only [List.any_eq_true, decide_eq_true_eq] at hany
      obtain ⟨key, hkey, hin⟩ := hany
      exact ⟨q.userId, key, batch.batchId,
        ⟨(h.indexed _ _ _).mpr ⟨batch, (mem_batchesOf h).mp hmem, hin⟩, rfl, hkey⟩, rfl⟩
  rw [allMutationBatchesAffectingDocumentKeys, allMutationBatchesWithIds, hids,
    (List.toFinset_sort _ (hsorted.imp fun h => h.ne)).mpr (hsorted.imp fun h => h.le)]
  exact mapM_lookupMutationBatch h fun b hb => (List.mem_filter.mp hb).1

theorem performConsistencyCheck_eq_true (h : q.Consistent) : q.performConsistencyCheck = true := by
  rw [performConsistencyCheck, Bool.or_eq_true, decide_eq_true_eq]
  by_cases hempty : q.isEmpty
  · refine .inr (Finset.filter_eq_empty_iff.mpr ?_)
    rintro ⟨userId, key, batchId⟩ hrow (rfl : userId = q.userId)
    obtain ⟨batch, hmem, -⟩ := (h.indexed _ _ _).mp hrow
    have hid : batchId = batch.batchId := h.numbered _ hmem
    have hbatch : batch ∈ q.allMutationBatches := (mem_batchesOf h).mpr (hid ▸ hmem)
    rw [List.isEmpty_iff.mp hempty] at hbatch
    cases hbatch
  · exact .inl (by simpa using hempty)

end Scan

end MutationQueue

end FirebaseLogin.Core
