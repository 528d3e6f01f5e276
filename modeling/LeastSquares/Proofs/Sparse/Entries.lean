import LeastSquares.Proofs.Sparse.Layout

/-!
# Patterns from lists of entries

A pattern is determined by its size and by the set of its stored entries (`Pattern.ext_stored`), so
that there is one pattern for every finite set of entries in range.  The main theorem
`ofEntries?_canonical` says that this pattern is what is built from any list of them, in any order
and with any repetition, and says which entry of all other lists is reported.
-/

namespace LeastSquares.Sparse

/-! ## Columns in increasing order -/

theorem mem_insertAscending (row r : Nat) (rows : List Nat) :
    r ∈ Pattern.insertAscending row rows ↔ r = row ∨ r ∈ rows := by
  induction rows with
  | nil => simp [Pattern.insertAscending]
  | cons a rest ih =>
    unfold Pattern.insertAscending
    split
    · simp
    · split
      · rename_i heq
        subst heq
        simp
      · simp only [List.mem_cons, ih]
        exact or_left_comm

theorem pairwise_insertAscending {rows : List Nat} (row : Nat) (h : rows.Pairwise (· < ·)) :
    (Pattern.insertAscending row rows).Pairwise (· < ·) := by
  induction rows with
  | nil => exact List.pairwise_singleton _ _
  | cons a rest ih =>
    obtain ⟨ha, hrest⟩ := List.pairwise_cons.1 h
    unfold Pattern.insertAscending
    split
    · rename_i hlt
      refine List.pairwise_cons.2 ⟨fun r hr => ?_, h⟩
      rcases List.mem_cons.1 hr with rfl | hr
      · exact hlt
      · exact Nat.lt_trans hlt (ha r hr)
    · split
      · exact h
      · refine List.pairwise_cons.2 ⟨fun r hr => ?_, ih hrest⟩
        rcases (mem_insertAscending row r rest).1 hr with rfl | hr
        · omega
        · exact ha r hr

theorem mem_ascending (rows : List Nat) (r : Nat) : r ∈ Pattern.ascending rows ↔ r ∈ rows := by
  induction rows with
  | nil => rfl
  | cons a rest ih =>
    have ih : r ∈ rest.foldr Pattern.insertAscending [] ↔ r ∈ rest := ih
    rw [Pattern.ascending, List.foldr_cons, mem_insertAscending, ih, List.mem_cons]

theorem pairwise_ascending (rows : List Nat) : (Pattern.ascending rows).Pairwise (· < ·) := by
  induction rows with
  | nil => exact List.Pairwise.nil
  | cons a rest ih => exact pairwise_insertAscending a ih

theorem mem_rowsOf (entries : List (Nat × Nat)) (row col : Nat) :
    row ∈ Pattern.rowsOf entries col ↔ (row, col) ∈ entries := by
  simp [Pattern.rowsOf, mem_ascending]

/-! ## The pointers of given columns -/

theorem pointersOf_concat (columns : List (List Nat)) (rows : List Nat) :
    Pattern.pointersOf (columns ++ [rows]) =
      (Pattern.pointersOf columns).push
        ((Pattern.pointersOf columns).back?.getD 0 + rows.length) := by
  simp [Pattern.pointersOf]

theorem toList_pointersOf (columns : List (List Nat)) :
    (Pattern.pointersOf columns).toList =
      (List.range (columns.length + 1)).map fun c => ((columns.map List.length).take c).sum := by
  induction columns using List.reverseRecOn with
  | nil => rfl
  | append_singleton columns rows ih =>
    have hback : (Pattern.pointersOf columns).back? = some (columns.map List.length).sum := by
      rw [← Array.getLast?_toList, ih, List.range_succ, List.map_append, List.map_singleton,
        List.getLast?_concat, List.take_of_length_le (by simp)]
    rw [pointersOf_concat, Array.toList_push, ih, hback, List.length_append,
      List.length_singleton, List.range_succ (n := columns.length + 1), List.map_append]
    congr 1
    · refine List.map_congr_left fun c hc => ?_
      have hc := List.mem_range.1 hc
      rw [List.map_append, List.take_append_of_le_length (by simp; omega)]
    · simp

theorem size_pointersOf (columns : List (List Nat)) :
    (Pattern.pointersOf columns).size = columns.length + 1 := by
  rw [← Array.length_toList, toList_pointersOf]
  simp

theorem pointer_pointersOf {columns : List (List Nat)} {col : Nat} (h : col ≤ columns.length) :
    pointer (Pattern.pointersOf columns) col = ((columns.map List.length).take col).sum := by
  apply pointer_of_getElem?
  rw [← Array.getElem?_toList, toList_pointersOf, List.getElem?_map,
    List.getElem?_range (by omega), Option.map_some]

theorem columnSlice_pointersOf {columns : List (List Nat)} {col : Nat}
    (h : col < columns.length) :
    columnSlice (Pattern.pointersOf columns) columns.flatten.toArray col = columns[col] := by
  rw [columnSlice, pointer_pointersOf (by omega), pointer_pointersOf (by omega),
    Array.toList_extract, List.extract_eq_take_drop, ← List.drop_take]
  exact List.drop_take_succ_flatten_eq_getElem columns col h

theorem pointersFit_pointersOf (columns : List (List Nat)) :
    PointersFit (Pattern.pointersOf columns) columns.flatten.toArray columns.length := by
  have hsize := size_pointersOf columns
  refine ⟨hsize, ?_, (pointersOrdered_iff (by omega)).2 fun col hcol => ?_, ?_⟩
  · rw [getElem?_eq_pointer (by omega), pointer_pointersOf (by omega)]
    simp
  · rw [pointer_pointersOf (by omega), pointer_pointersOf (by omega), List.sum_take_succ]
    · exact Nat.le_add_right _ _
    · simpa using hcol
  · rw [getElem?_eq_pointer (by omega), pointer_pointersOf (by omega),
      List.take_of_length_le (by simp), List.size_toArray, List.length_flatten]

namespace Pattern

/-! ## What a pattern stores -/

def stored (p : Pattern) : List (Nat × Nat) :=
  (List.range p.ncols).flatMap fun col => (p.rows col).map fun row => (row, col)

theorem mem_stored (p : Pattern) (row col : Nat) :
    (row, col) ∈ p.stored ↔ col < p.ncols ∧ row ∈ p.rows col := by
  simp [stored]

theorem lt_of_mem_stored (p : Pattern) {e : Nat × Nat} (h : e ∈ p.stored) :
    e.1 < p.nrows ∧ e.2 < p.ncols := by
  obtain ⟨hcol, hrow⟩ := (p.mem_stored e.1 e.2).1 h
  exact ⟨p.compressed.rows_lt e.2 hcol e.1 hrow, hcol⟩

theorem nodup_stored (p : Pattern) : p.stored.Nodup := by
  refine List.nodup_flatMap.2 ⟨fun col hcol => ?_, ?_⟩
  · have hrows := p.compressed.increasing col (List.mem_range.1 hcol)
    exact hrows.nodup.map fun a b hab => (Prod.mk.inj hab).1
  · refine List.nodup_range.imp fun {a b} hab => ?_
    simp only [Function.onFun, List.disjoint_left, List.mem_map, not_exists, not_and]
    rintro e ⟨r, -, rfl⟩ r' - heq
    exact hab (Prod.mk.inj heq).2.symm

theorem flatMap_rows (p : Pattern) {bound : Nat} (h : bound ≤ p.ncols) :
    (List.range bound).flatMap p.rows = p.rowIndices.toList.take (pointer p.colPtrs bound) := by
  induction bound with
  | zero => simp [p.compressed.first]
  | succ col ih =>
    have hle := p.compressed.monotone col h
    have hprefix : p.rowIndices.toList.take (pointer p.colPtrs col) =
        (p.rowIndices.toList.take (pointer p.colPtrs (col + 1))).take (pointer p.colPtrs col) := by
      rw [List.take_take, Nat.min_eq_left hle]
    rw [List.range_succ, List.flatMap_append, ih (by omega), List.flatMap_singleton, rows,
      columnSlice, Array.toList_extract, List.extract_eq_take_drop, ← List.drop_take, hprefix,
      List.take_append_drop]

theorem flatMap_rows_ncols (p : Pattern) :
    (List.range p.ncols).flatMap p.rows = p.rowIndices.toList := by
  rw [p.flatMap_rows le_rfl, p.compressed.last, ← Array.length_toList, List.take_length]

theorem map_fst_stored (p : Pattern) : p.stored.map Prod.fst = p.rowIndices.toList := by
  have hrow : ∀ col, (p.rows col).map (Prod.fst ∘ fun row => (row, col)) = p.rows col :=
    fun col => List.map_id _
  simp only [stored, List.map_flatMap, List.map_map, hrow, flatMap_rows_ncols]

theorem pointer_le_size (p : Pattern) {col : Nat} (h : col ≤ p.ncols) :
    pointer p.colPtrs col ≤ p.rowIndices.size :=
  p.compressed.last ▸ pointer_le_pointer p.compressed.monotone h

theorem pointer_eq_length (p : Pattern) {col : Nat} (h : col ≤ p.ncols) :
    pointer p.colPtrs col = ((List.range col).flatMap p.rows).length := by
  rw [p.flatMap_rows h, List.length_take, Array.length_toList,
    Nat.min_eq_left (p.pointer_le_size h)]

/-- Patterns of one size with the same columns are the same. -/
theorem ext_rows {p q : Pattern} (hnrows : p.nrows = q.nrows) (hncols : p.ncols = q.ncols)
    (hrows : ∀ col < p.ncols, p.rows col = q.rows col) : p = q := by
  have hflat : ∀ bound ≤ p.ncols,
      (List.range bound).flatMap p.rows = (List.range bound).flatMap q.rows := by
    intro bound hbound
    refine List.flatMap_congr fun col hcol => hrows col ?_
    exact (List.mem_range.1 hcol).trans_le hbound
  have hindices : p.rowIndices = q.rowIndices := by
    rw [← Array.toList_inj, ← p.flatMap_rows_ncols, hflat _ le_rfl, hncols, q.flatMap_rows_ncols]
  have hpointers : p.colPtrs = q.colPtrs := by
    have hp := p.compressed.count
    have hq := q.compressed.count
    apply Array.ext (by omega)
    intro col hcol hcol'
    have hpq : pointer p.colPtrs col = pointer q.colPtrs col := by
      rw [p.pointer_eq_length (by omega), q.pointer_eq_length (by omega), hflat _ (by omega)]
    simpa [pointer, hcol, hcol'] using hpq
  cases p
  cases q
  cases hnrows
  cases hncols
  cases hindices
  cases hpointers
  rfl

theorem ext_stored {p q : Pattern} (hnrows : p.nrows = q.nrows) (hncols : p.ncols = q.ncols)
    (hstored : ∀ e, e ∈ p.stored ↔ e ∈ q.stored) : p = q := by
  refine ext_rows hnrows hncols fun col hcol => ?_
  have hq : col < q.ncols := hncols ▸ hcol
  refine (p.compressed.increasing col hcol).eq_of_mem_iff (q.compressed.increasing col hq)
    fun row => ?_
  have hmem := hstored (row, col)
  rwa [mem_stored, mem_stored, and_iff_right hcol, and_iff_right hq] at hmem

/-! ## Which entry is reported -/

/-- The entry that keeps a list from having a pattern: the first one right of the last column, and
where there is none, the smallest row out of range in the lowest column that has one. -/
inductive EntryViolation (nrows ncols : Nat) (entries : List (Nat × Nat)) : PatternError → Prop
  | missing {before after : List (Nat × Nat)} {row col : Nat}
      (split : entries = before ++ (row, col) :: after) (inside : ∀ e ∈ before, e.2 < ncols)
      (right : ncols ≤ col) : EntryViolation nrows ncols entries (.missingEntry row col)
  | outOfRange {row col : Nat} (inside : ∀ e ∈ entries, e.2 < ncols)
      (mem : (row, col) ∈ entries) (out : nrows ≤ row)
      (lowest : ∀ e ∈ entries, nrows ≤ e.1 → col ≤ e.2)
      (smallest : ∀ e ∈ entries, e.2 = col → nrows ≤ e.1 → row ≤ e.1) :
      EntryViolation nrows ncols entries (.rowOutOfRange col row nrows)

variable {nrows ncols : Nat} {entries : List (Nat × Nat)}

theorem find?_right_eq_some_iff {row col : Nat} :
    entries.find? (fun e => ncols ≤ e.2) = some (row, col) ↔
      ncols ≤ col ∧ ∃ before after, entries = before ++ (row, col) :: after ∧
        ∀ e ∈ before, e.2 < ncols := by
  simp [List.find?_eq_some_iff_append]

theorem EntryViolation.unique {e e' : PatternError} (h : EntryViolation nrows ncols entries e)
    (h' : EntryViolation nrows ncols entries e') : e = e' := by
  cases h with
  | missing split inside right =>
    have found := find?_right_eq_some_iff.2 ⟨right, _, _, split, inside⟩
    cases h' with
    | missing split' inside' right' =>
      have found' := find?_right_eq_some_iff.2 ⟨right', _, _, split', inside'⟩
      cases found.symm.trans found'
      rfl
    | outOfRange inside' =>
      have hlt := inside' _ (List.mem_of_find?_eq_some found)
      exact absurd right (Nat.not_le.2 hlt)
  | outOfRange inside mem out lowest smallest =>
    cases h' with
    | missing split' inside' right' =>
      have found' := find?_right_eq_some_iff.2 ⟨right', _, _, split', inside'⟩
      have hlt := inside _ (List.mem_of_find?_eq_some found')
      exact absurd right' (Nat.not_le.2 hlt)
    | outOfRange inside' mem' out' lowest' smallest' =>
      have hcol := Nat.le_antisymm (lowest _ mem' out') (lowest' _ mem out)
      have hrow := Nat.le_antisymm (smallest _ mem' hcol.symm out') (smallest' _ mem hcol out)
      simp only at hcol hrow
      rw [hcol, hrow]

theorem EntryViolation.exists_outside {e : PatternError}
    (h : EntryViolation nrows ncols entries e) :
    ∃ entry ∈ entries, ¬(entry.1 < nrows ∧ entry.2 < ncols) := by
  cases h with
  | @missing before after row col split inside right =>
    refine ⟨(row, col), by simp [split], ?_⟩
    rintro ⟨-, hlt⟩
    exact absurd right (Nat.not_le.2 hlt)
  | @outOfRange row col inside mem out lowest smallest =>
    refine ⟨(row, col), mem, ?_⟩
    rintro ⟨hlt, -⟩
    exact absurd out (Nat.not_le.2 hlt)

/-! ## The pattern of a list -/

def columnsOf (ncols : Nat) (entries : List (Nat × Nat)) : List (List Nat) :=
  (List.range ncols).map (rowsOf entries)

theorem pointersFit_columnsOf (ncols : Nat) (entries : List (Nat × Nat)) :
    PointersFit (pointersOf (columnsOf ncols entries)) (columnsOf ncols entries).flatten.toArray
      ncols := by
  have h := pointersFit_pointersOf (columnsOf ncols entries)
  rwa [columnsOf, List.length_map, List.length_range] at h

theorem columnSlice_columnsOf {col : Nat} (h : col < ncols) :
    columnSlice (pointersOf (columnsOf ncols entries)) (columnsOf ncols entries).flatten.toArray
      col = rowsOf entries col := by
  rw [columnSlice_pointersOf (by simpa [columnsOf] using h)]
  simp [columnsOf]

theorem rowsIncrease_columnsOf {col : Nat} (h : col < ncols) :
    RowsIncrease (pointersOf (columnsOf ncols entries)) (columnsOf ncols entries).flatten.toArray
      col := by
  have count := (pointersFit_columnsOf ncols entries).count
  rw [rowsIncrease_iff (by omega), columnSlice_columnsOf h]
  exact pairwise_ascending _

theorem exists_stores_columnsOf {row col : Nat} (h : col < ncols) :
    (∃ k, Stores (pointersOf (columnsOf ncols entries)) (columnsOf ncols entries).flatten.toArray
      col k row) ↔ (row, col) ∈ entries := by
  have count := (pointersFit_columnsOf ncols entries).count
  rw [← mem_rowsOf, ← columnSlice_columnsOf h]
  constructor
  · rintro ⟨k, hk⟩
    obtain ⟨i, -, hi⟩ := hk.exists_add (by omega)
    exact List.mem_of_getElem? hi
  · intro hrow
    obtain ⟨i, hi⟩ := List.getElem?_of_mem hrow
    exact ⟨_, (stores_add_iff (by omega) i row).2 hi⟩

/-- The only thing that can be wrong with the sorted columns is a row out of range; the first one
found is the smallest one of its column. -/
theorem entryViolation_of_check {e : PatternError} (inside : ∀ e ∈ entries, e.2 < ncols)
    (h : check nrows ncols (pointersOf (columnsOf ncols entries))
      (columnsOf ncols entries).flatten.toArray = .error e) :
    EntryViolation nrows ncols entries e := by
  have fit := pointersFit_columnsOf ncols entries
  have count := fit.count
  cases check_eq_error_iff.1 h with
  | count wrong => exact absurd count wrong
  | first _ start wrong => exact absurd (Option.some_inj.1 (start.symm.trans fit.first)) wrong
  | @decreasing col prev next _ _ hprev hnext wrong before =>
    have hlt := (Array.getElem?_eq_some_iff.1 hnext).1
    exact absurd (fit.ordered col (by omega) prev next hprev hnext) (Nat.not_le.2 wrong)
  | last _ _ _ hlast wrong => exact absurd (Option.some_inj.1 (hlast.symm.trans fit.last)) wrong
  | @rows col _ _ hcol before wrong =>
    have increase : RowsIncrease (pointersOf (columnsOf ncols entries))
        (columnsOf ncols entries).flatten.toArray col := rowsIncrease_columnsOf hcol
    cases wrong with
    | @notIncreasing k prev next below hprev hnext descends _ =>
      exact absurd (increase k (k + 1) prev next k.lt_succ_self hprev hnext)
        (Nat.not_lt.2 descends)
    | @outOfRange k row stored out hbefore =>
      refine .outOfRange inside ((exists_stores_columnsOf hcol).1 ⟨k, stored⟩) out ?_ ?_
      · rintro ⟨r, c⟩ hmem hr
        by_contra hc
        obtain ⟨k', hk'⟩ := (exists_stores_columnsOf (inside _ hmem)).2 hmem
        exact absurd hr (Nat.not_le.2 ((before c (Nat.not_le.1 hc)).1 k' r hk'))
      · rintro ⟨r, c⟩ hmem rfl hr
        obtain ⟨k', hk'⟩ := (exists_stores_columnsOf hcol).2 hmem
        rcases Nat.lt_trichotomy k k' with hlt | rfl | hgt
        · exact (increase k k' row r hlt stored hk').le
        · exact (stored.unique hk').le
        · exact absurd hr (Nat.not_le.2 (hbefore k' hgt r hk'))

theorem stored_of_check {p : Pattern} (inside : ∀ e ∈ entries, e.2 < ncols)
    (h : check nrows ncols (pointersOf (columnsOf ncols entries))
      (columnsOf ncols entries).flatten.toArray = .ok p) :
    (∀ e ∈ entries, e.1 < nrows ∧ e.2 < ncols) ∧ p.nrows = nrows ∧ p.ncols = ncols ∧
      ∀ e, e ∈ p.stored ↔ e ∈ entries := by
  obtain ⟨compressed, hnrows, hncols, hptrs, hindices⟩ := check_eq_ok h
  refine ⟨?_, hnrows, hncols, ?_⟩
  · rintro ⟨row, col⟩ hmem
    have hcol := inside _ hmem
    refine ⟨compressed.rows_lt col hcol row ?_, hcol⟩
    rwa [columnSlice_columnsOf hcol, mem_rowsOf]
  · rintro ⟨row, col⟩
    rw [mem_stored, hncols, rows, hptrs, hindices]
    constructor
    · rintro ⟨hcol, hrow⟩
      rwa [columnSlice_columnsOf hcol, mem_rowsOf] at hrow
    · intro hmem
      have hcol := inside _ hmem
      rw [columnSlice_columnsOf hcol, mem_rowsOf]
      exact ⟨hcol, hmem⟩

/-- A list of entries has a pattern that stores them, or an entry that is reported. -/
theorem ofEntries?_ends (nrows ncols : Nat) (entries : List (Nat × Nat))
    (h : tabulable ncols = true) :
    (∃ p, ofEntries? nrows ncols entries = some (.ok p) ∧
      (∀ e ∈ entries, e.1 < nrows ∧ e.2 < ncols) ∧ p.nrows = nrows ∧ p.ncols = ncols ∧
        ∀ e, e ∈ p.stored ↔ e ∈ entries) ∨
      ∃ e, ofEntries? nrows ncols entries = some (.error e) ∧
        EntryViolation nrows ncols entries e := by
  unfold ofEntries?
  rw [if_pos h]
  cases hfind : entries.find? fun e => ncols ≤ e.2 with
  | some entry =>
    obtain ⟨row, col⟩ := entry
    obtain ⟨right, before, after, split, inside⟩ := find?_right_eq_some_iff.1 hfind
    exact .inr ⟨_, rfl, .missing split inside right⟩
  | none =>
    have inside : ∀ e ∈ entries, e.2 < ncols := by
      intro e he
      simpa using List.find?_eq_none.1 hfind e he
    cases hcheck : check nrows ncols (pointersOf (columnsOf ncols entries))
        (columnsOf ncols entries).flatten.toArray with
    | ok p => exact .inl ⟨p, congrArg some hcheck, stored_of_check inside hcheck⟩
    | error e => exact .inr ⟨e, congrArg some hcheck, entryViolation_of_check inside hcheck⟩

/-- A list of entries in range has a pattern, the one that stores just these entries, so that their
order and number do not matter and every pattern is rebuilt from its own entries; any other list is
rejected with the entry that keeps it from having one. -/
theorem ofEntries?_canonical (nrows ncols : Nat) (entries : List (Nat × Nat))
    (allocated : tabulable ncols = true) :
    ∃ result, ofEntries? nrows ncols entries = some result ∧
      ((∃ p, result = .ok p) ↔ ∀ e ∈ entries, e.1 < nrows ∧ e.2 < ncols) ∧
      (∀ p, result = .ok p →
        p.nrows = nrows ∧ p.ncols = ncols ∧ IsLayout p.colPtrs p.rowIndices nrows ncols ∧
          p.stored.Nodup ∧ p.stored.map Prod.fst = p.rowIndices.toList ∧
            ∀ e, e ∈ p.stored ↔ e ∈ entries) ∧
      (∀ e, result = .error e ↔ EntryViolation nrows ncols entries e) ∧
      (∀ entries', (∀ e, e ∈ entries' ↔ e ∈ entries) → (∃ p, result = .ok p) →
        ofEntries? nrows ncols entries' = some result) ∧
      ∀ p : Pattern, p.nrows = nrows → p.ncols = ncols → (∀ e, e ∈ entries ↔ e ∈ p.stored) →
        result = .ok p := by
  rcases ofEntries?_ends nrows ncols entries allocated with
    ⟨p, heq, inside, hnrows, hncols, hstored⟩ | ⟨e, heq, violation⟩
  · refine ⟨.ok p, heq, ⟨fun _ => inside, fun _ => ⟨p, rfl⟩⟩, ?_, fun e => ?_, ?_, ?_⟩
    · rintro q ⟨⟩
      have layout := isLayout_iff.2 p.compressed
      rw [hnrows, hncols] at layout
      exact ⟨hnrows, hncols, layout, p.nodup_stored, p.map_fst_stored, hstored⟩
    · constructor
      · rintro ⟨⟩
      · intro violation
        obtain ⟨entry, hmem, outside⟩ := violation.exists_outside
        exact absurd (inside entry hmem) outside
    · intro entries' hsame _
      rcases ofEntries?_ends nrows ncols entries' allocated with
        ⟨q, heq', -, hnrows', hncols', hstored'⟩ | ⟨e, -, violation⟩
      · rw [heq']
        congr 2
        refine ext_stored (by omega) (by omega) fun e => ?_
        rw [hstored', hstored, hsame]
      · obtain ⟨entry, hmem, outside⟩ := violation.exists_outside
        exact absurd (inside entry ((hsame entry).1 hmem)) outside
    · intro q hnrows' hncols' hmem
      congr 1
      refine ext_stored (by omega) (by omega) fun e => ?_
      rw [hstored, hmem]
  · obtain ⟨entry, hmem, outside⟩ := violation.exists_outside
    refine ⟨.error e, heq, ⟨?_, fun inside => absurd (inside entry hmem) outside⟩, ?_,
      fun e' => ⟨?_, fun violation' => ?_⟩, ?_, ?_⟩
    · rintro ⟨p, ⟨⟩⟩
    · rintro p ⟨⟩
    · rintro ⟨⟩
      exact violation
    · rw [violation.unique violation']
    · rintro entries' - ⟨p, ⟨⟩⟩
    · rintro p rfl rfl hsame
      exact absurd (p.lt_of_mem_stored ((hsame entry).1 hmem)) outside

/-- Entries in another order and with a repetition have the same pattern; of several rows out of
range, the smallest one of the lowest column is reported. -/
theorem ofEntries?_canonical_repeated : tabulable 3 = true ∧
    (∃ p, ofEntries? 4 3 [(3, 1), (0, 0), (1, 1), (3, 1), (2, 0)] = some (.ok p)) ∧
    ofEntries? 4 3 [(2, 0), (0, 0), (1, 1), (3, 1)] =
      ofEntries? 4 3 [(3, 1), (0, 0), (1, 1), (3, 1), (2, 0)] ∧
    EntryViolation 4 3 [(9, 1), (5, 1), (8, 0), (7, 0)] (.rowOutOfRange 0 7 4) := by
  have allocated : tabulable 3 = true := rfl
  obtain ⟨result, heq, hok, -, -, hsame, -⟩ :=
    ofEntries?_canonical 4 3 [(3, 1), (0, 0), (1, 1), (3, 1), (2, 0)] allocated
  obtain ⟨p, hp⟩ := hok.2 (by decide)
  refine ⟨allocated, ⟨p, by rw [heq, hp]⟩, ?_, ?_⟩
  · rw [heq]
    refine hsame _ (fun e => ?_) ⟨p, hp⟩
    simp only [List.mem_cons, List.not_mem_nil, or_false]
    tauto
  · obtain ⟨result, heq, -, -, herror, -⟩ :=
      ofEntries?_canonical 4 3 [(9, 1), (5, 1), (8, 0), (7, 0)] allocated
    have hrun : ofEntries? 4 3 [(9, 1), (5, 1), (8, 0), (7, 0)] =
        some (.error (.rowOutOfRange 0 7 4)) := rfl
    exact (herror _).1 (Option.some_inj.1 (heq.symm.trans hrun))

end Pattern

end LeastSquares.Sparse
